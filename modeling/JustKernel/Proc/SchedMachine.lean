import JustKernel.Int.Isr
import JustKernel.Proc.SchedContext
import JustKernel.Proc.SchedPick
import JustKernel.Proc.SchedSleep

/-! Context switches down to the registers. The scheduler hands pointers to frames around; the
frames lie on the kernel stacks of the threads, where `isr_common` pushed them, and
`load_thread` puts the top of the stack of the thread it loads into the task state segment, so
that the next interrupt from an outer ring finds it. With stacks that do not overlap, and code
that keeps to the stack it runs on, a thread that gets a core goes on with the registers it
had, on whichever core that is.

Kernel stacks are mapped alike in all address spaces, so there is one memory for all of them. -/

namespace JustKernel.Sched

open Halting Memory Isr Runs

variable {C : Type} [DecidableEq C]

/-- The system with the registers of its cores and memory, and for every thread the state in which
it is to go on. -/
structure Switching (C : Type) where
  traced : Traced C
  cpus : C → Cpu
  mem : Mem
  goesOn : ThreadId → Cpu

/-- The threads of the scheduler's list and the tops of their kernel stacks. -/
structure Stacks where
  threads : List ThreadId
  top : ThreadId → ℕ

/-- The bytes of the kernel stack of `t`, a page. -/
def Stacks.Holds (k : Stacks) (t : ThreadId) (x : ℕ) : Prop := k.top t - 4096 ≤ x ∧ x < k.top t

/-- Stacks are in memory and do not overlap. -/
structure Stacks.Apart (k : Stacks) : Prop where
  low : ∀ t ∈ k.threads, 4096 ≤ k.top t
  high : ∀ t ∈ k.threads, k.top t < 4294967296
  apart : ∀ t ∈ k.threads, ∀ u ∈ k.threads, t ≠ u → ∀ x, k.Holds t x → ¬k.Holds u x

/-- Room for a frame below the stack pointer: on the stack of the thread if there is one, and
otherwise on a stack of its own. -/
def Stacks.Room (k : Stacks) (sp : ℕ) : Option ThreadId → Prop
  | some t => k.top t - 4096 + 84 ≤ sp ∧ sp ≤ k.top t
  | none => 84 ≤ sp ∧ ∀ t ∈ k.threads, sp ≤ k.top t - 4096 ∨ k.top t + 84 ≤ sp

abbrev Switching.core (m : Switching C) (i : C) : Core := m.traced.sys.cores i

/-- No core runs `t` outside of an interrupt. -/
def Switching.Parked (m : Switching C) (t : ThreadId) : Prop :=
  ∀ i, (m.core i).currentThread = some t → (m.core i).inIrq = true

/-- A byte of the frame of `t`. -/
def Switching.InFrame (m : Switching C) (t : ThreadId) (x : ℕ) : Prop :=
  m.traced.last t ≤ x ∧ x < m.traced.last t + frameSize (m.goesOn t)

/-- The frames of the parked threads in `ts` have the same bytes in `mem`. -/
def Switching.KeepsFrames (m : Switching C) (ts : List ThreadId) (mem : Mem) : Prop :=
  ∀ t ∈ ts, m.Parked t → ∀ x, m.InFrame t x → mem x = m.mem x

/-- The task state segment of core `i`. -/
def Switching.tss (m : Switching C) (i : C) : Tss := ⟨0x10, BitVec.ofNat 32 (m.core i).kernelStack⟩

/-- Core `i` after the way into an interrupt. -/
def Switching.interrupted (m : Switching C) (i : C) (handler : BitVec 32) (err : Option (BitVec 32)) (num : ℕ) :
    Switching C :=
  let s := isrEntry (m.tss i) handler err num ⟨m.cpus i, m.mem⟩
  { traced := m.traced.interrupted i s.cpu.esp.toNat
    cpus := Function.update m.cpus i s.cpu
    mem := s.mem
    goesOn := match (m.core i).currentThread with
      | some t => Function.update m.goesOn t (m.cpus i)
      | none => m.goesOn }

/-- The way out, with the frame in `irq_regs`. -/
def Switching.exit (m : Switching C) (i : C) : Isr.Machine :=
  isrExit (BitVec.ofNat 32 (m.core i).irqRegs) ⟨m.cpus i, m.mem⟩

/-- A core runs its thread, which writes to no other thread's stack; an interrupt comes, from the
kernel with room for a frame; its handler calls the scheduler or does anything else that leaves
the frames alone, or changes the frame of its thread, as a system call does for its result; it
ends. -/
inductive SwitchStep (k : Stacks) (m : Switching C) : Switching C → Prop
  | run (i : C) (cpu : Cpu) (mem : Mem) : (m.core i).inIrq = false →
      (∀ t ∈ k.threads, (m.core i).currentThread ≠ some t → ∀ x, k.Holds t x → mem x = m.mem x) →
      SwitchStep k m { m with cpus := Function.update m.cpus i cpu, mem := mem }
  | enter (i : C) (handler : BitVec 32) (err : Option (BitVec 32)) (num : ℕ) : (m.core i).inIrq = false →
      err.isSome = decide (num ∈ errorIsrs) →
      ((m.cpus i).outside = true → (m.core i).currentThread ≠ none) →
      ((m.cpus i).outside = false → k.Room (m.cpus i).esp.toNat (m.core i).currentThread) →
      SwitchStep k m (m.interrupted i handler err num)
  | call (i : C) (c : ContextCall) (cpu : Cpu) (mem : Mem) : (m.core i).inIrq = true →
      m.KeepsFrames k.threads mem →
      SwitchStep k m { m with
        traced := ⟨finalState (c.action i m.traced.sys), m.traced.last⟩
        cpus := Function.update m.cpus i cpu, mem := mem }
  | edit (i : C) (t : ThreadId) (cpu c : Cpu) (mem : Mem) : (m.core i).inIrq = true →
      (m.core i).currentThread = some t → m.KeepsFrames (k.threads.filter (· ≠ t)) mem →
      Framed mem (m.traced.last t) c → m.traced.last t + frameSize c ≤ k.top t →
      SwitchStep k m { m with
        cpus := Function.update m.cpus i cpu, mem := mem, goesOn := Function.update m.goesOn t c }
  | leave (i : C) : (m.core i).inIrq = true →
      SwitchStep k m { m with
        traced := ⟨m.traced.sys.exited i, m.traced.last⟩
        cpus := Function.update m.cpus i (m.exit i).cpu }

/-- The frame of `t` is on its stack. -/
structure Switching.Framing (m : Switching C) (k : Stacks) (t : ThreadId) : Prop where
  framed : Framed m.mem (m.traced.last t) (m.goesOn t)
  low : k.top t - 4096 ≤ m.traced.last t
  high : m.traced.last t + frameSize (m.goesOn t) ≤ k.top t

/-- A core has the stack of its thread. -/
structure Placed (k : Stacks) (s : System C) : Prop where
  list : s.threadList = k.threads
  listed : ∀ i t, (s.cores i).currentThread = some t → t ∈ k.threads
  top : ∀ t ∈ k.threads, (s.threads t).kernelStack = k.top t
  loaded : ∀ i t, (s.cores i).currentThread = some t → (s.cores i).kernelStack = k.top t

structure Switching.Kept (m : Switching C) (k : Stacks) : Prop where
  traced : m.traced.Kept
  placed : Placed k m.traced.sys
  frames : ∀ t ∈ k.threads, m.Parked t → m.Framing k t

/-! ### What the scheduler does to cores and stacks -/

/-- What happens to them on core `i`. -/
structure Moves (i : C) (s s' : System C) : Prop where
  others : ∀ j, j ≠ i → s'.cores j = s.cores j
  list : s'.threadList = s.threadList
  tops : ∀ t, (s'.threads t).kernelStack = (s.threads t).kernelStack
  loaded : ∀ t, (s'.cores i).currentThread = some t →
    t ∈ s.threadList ∧ (s'.cores i).kernelStack = (s.threads t).kernelStack ∨
    (s.cores i).currentThread = some t ∧ (s'.cores i).kernelStack = (s.cores i).kernelStack

section Moves

variable {i : C} {s s' s₁ : System C}

omit [DecidableEq C] in
theorem Moves.refl (i : C) (s : System C) : Moves i s s :=
  ⟨fun _ _ => rfl, rfl, fun _ => rfl, fun _ h => Or.inr ⟨h, rfl⟩⟩

omit [DecidableEq C] in
theorem Moves.trans (h : Moves i s s₁) (h' : Moves i s₁ s') : Moves i s s' where
  others j hj := (h'.others j hj).trans (h.others j hj)
  list := h'.list.trans h.list
  tops u := (h'.tops u).trans (h.tops u)
  loaded u hu := by
    rcases h'.loaded u hu with ⟨hmem, hload⟩ | ⟨hcur, hsame⟩
    · rw [h.list] at hmem
      exact Or.inl ⟨hmem, hload.trans (h.tops u)⟩
    · rcases h.loaded u hcur with ⟨hmem, hload⟩ | ⟨hcur', hsame'⟩
      · exact Or.inl ⟨hmem, hsame.trans hload⟩
      · exact Or.inr ⟨hcur', hsame.trans hsame'⟩

omit [DecidableEq C] in
theorem updateSleepingThreads_kernelStack (i : C) (s : System C) (t : ThreadId) :
    ((updateSleepingThreads i s).threads t).kernelStack = (s.threads t).kernelStack := by
  have hwake : ∀ u : Thread, (wake u).kernelStack = u.kernelStack := by
    intro u
    unfold wake
    split_ifs <;> rfl
  have hfold : ∀ (l : List ThreadId) (s : System C),
      ((l.foldl (fun s t => s.updateThread t wake) s).threads t).kernelStack = (s.threads t).kernelStack := by
    intro l
    induction l with
    | nil => exact fun _ => rfl
    | cons u rest ih =>
      intro s
      rw [List.foldl_cons, ih, updateThread_threads]
      split_ifs with htu
      · rw [hwake, htu]
      · rfl
  unfold updateSleepingThreads
  split_ifs
  · rfl
  · exact hfold _ s

omit [DecidableEq C] in
theorem updateSleepingThreads_moves (i : C) (s : System C) : Moves i s (updateSleepingThreads i s) where
  others j _ := by rw [updateSleepingThreads_cores]
  list := updateSleepingThreads_threadList i s
  tops := updateSleepingThreads_kernelStack i s
  loaded t ht := by
    rw [updateSleepingThreads_cores] at ht ⊢
    exact Or.inr ⟨ht, rfl⟩

omit [DecidableEq C] in
theorem saved_moves (s : System C) (i : C) (c : ThreadId) (state : ThreadState) :
    Moves i s (s.saved i c state) := by
  refine ⟨fun _ _ => rfl, rfl, fun t => ?_, fun _ h => Or.inr ⟨h, rfl⟩⟩
  rw [saved_threads]
  split_ifs with htc
  · rw [htc]
  · rfl

theorem loaded_moves {t : ThreadId} (ht : t ∈ s.threadList) : Moves i s (s.loaded i t) := by
  have hcore : (s.loaded i t).cores i = { s.cores i with
      state := if (s.cores i).state = .idle then .online else (s.cores i).state
      currentThread := some t, irqRegs := (s.threads t).regs, kernelStack := (s.threads t).kernelStack } := by
    rw [System.loaded, updateThread_cores, updateCore_cores, if_pos rfl]
  refine ⟨fun j hj => loaded_core _ _ _ _ hj, rfl, fun u => ?_, fun u hu => ?_⟩
  · rw [loaded_threads]
    split_ifs with hut
    · rw [hut]
    · rfl
  · rw [hcore] at hu ⊢
    obtain rfl : t = u := Option.some.inj hu
    exact Or.inl ⟨ht, rfl⟩

theorem idled_moves (hc : (s.cores i).currentThread = none) : Moves i s (s.idled i) := by
  refine ⟨fun j hj => ?_, rfl, fun _ => rfl, fun t ht => ?_⟩
  · rw [System.idled, updateCore_cores, if_neg hj]
  · rw [idled_currentThread, hc] at ht
    cases ht

omit [DecidableEq C] in
theorem pickThread_mem {t : ThreadId} (h : pickThread i s = some t) : t ∈ s.threadList := by
  have hbest := pickThread_best i s
  rw [h] at hbest
  obtain ⟨before, after, hlist, -⟩ := (hbest.least t rfl).first
  rw [hlist]
  exact List.mem_append_right _ List.mem_cons_self

theorem passed_moves (hcons : Consistent s i) : Moves i s (s.passed i) := by
  unfold System.passed
  split
  · rename_i c t hstate hc hpick
    have hmem : t ∈ (s.saved i c .stopped).threadList := pickThread_mem (i := i) (s := s) hpick
    exact (saved_moves s i c .stopped).trans (loaded_moves hmem)
  · rename_i hstate hpick
    exact loaded_moves (pickThread_mem hpick)
  · rename_i hstate
    rw [Consistent, hstate] at hcons
    exact idled_moves hcons
  · exact .refl i s

theorem sched_moves (i : C) (s : System C) : Moves i s (finalState (sched i s)) := by
  have hwake := updateSleepingThreads_moves i s
  by_cases hcons : Consistent (updateSleepingThreads i s) i
  · rw [sched_eq_passed hcons]
    exact hwake.trans (passed_moves hcons)
  · obtain ⟨a, ha⟩ := sched_of_not_consistent hcons
    rw [ha]
    exact hwake

theorem schedRunner_moves (i : C) (s : System C) : Moves i s (finalState (schedRunner i s)) := by
  rcases schedRunner_final i s with hsame | ⟨-, b, hfinal⟩
  · rw [hsame]
    exact .refl i s
  · obtain ⟨h1, h2, h3, h4⟩ := sched_moves i { s with schedLock := true }
    rw [hfinal]
    exact ⟨h1, h2, h3, h4⟩

theorem leaveCore_moves (i : C) (state : ThreadState) (record : Thread → Thread)
    (hrec : ∀ t, (record t).kernelStack = t.kernelStack) (s : System C) :
    Moves i s (finalState (leaveCore i state record s)) := by
  rcases leaveCore_run i state record s with hrun | ⟨t, ht, hrun⟩
  · rw [hrun]
    exact .refl i s
  · rw [hrun]
    refine ⟨fun j hj => ?_, rfl, fun u => ?_, fun u hu => ?_⟩
    · simp only [finalState, System.left, System.idled, updateCore_cores, if_neg hj]
      rfl
    · simp only [finalState, left_threads]
      split_ifs with hut
      · rw [hrec, hut]
      · rfl
    · simp only [finalState, left_currentThread, if_true] at hu
      cases hu

/-- A change of a core's fields other than its thread and stack. -/
theorem updateCore_moves (i : C) (s : System C) (f : Core → Core)
    (hcur : ∀ core, (f core).currentThread = core.currentThread)
    (hstack : ∀ core, (f core).kernelStack = core.kernelStack) : Moves i s (s.updateCore i f) := by
  refine ⟨fun j hj => by rw [updateCore_cores, if_neg hj], rfl, fun _ => rfl, fun t ht => Or.inr ?_⟩
  rw [updateCore_currentThread s i f i hcur] at ht
  rw [updateCore_cores, if_pos rfl]
  exact ⟨ht, hstack _⟩

theorem interrupted_moves (m : Traced C) (i : C) (regs : ℕ) : Moves i m.sys (m.interrupted i regs).sys := by
  change Moves i m.sys (m.sys.entered i regs)
  unfold System.entered
  split_ifs
  · exact updateCore_moves i m.sys (fun core => { core with nestedIrq := true }) (fun _ => rfl) fun _ => rfl
  · exact updateCore_moves i m.sys (fun core => { core with inIrq := true, irqRegs := regs }) (fun _ => rfl)
      fun _ => rfl

theorem exited_moves (i : C) (s : System C) : Moves i s (s.exited i) :=
  updateCore_moves i s (fun core => { core with inIrq := false }) (fun _ => rfl) fun _ => rfl

theorem action_moves (i : C) (c : ContextCall) (s : System C) : Moves i s (finalState (c.action i s)) := by
  cases c with
  | sched => exact sched_moves i s
  | exit code =>
    exact leaveCore_moves i .terminated (fun thread => { thread with exitcode := code }) (fun _ => rfl) s
  | sleep timeMs =>
    exact leaveCore_moves i .sleeping (fun thread => { thread with sleepTime := timeMs * 1000 % 2 ^ 32 })
      (fun _ => rfl) s
  | yield => exact schedRunner_moves i s

omit [DecidableEq C] in
theorem Placed.moves {k : Stacks} (h : Placed k s) (hm : Moves i s s') : Placed k s' := by
  have hcore : ∀ j t, (s'.cores j).currentThread = some t →
      t ∈ k.threads ∧ (s'.cores j).kernelStack = k.top t := by
    intro j t ht
    by_cases hji : j = i
    · subst hji
      rcases hm.loaded t ht with ⟨hmem, hload⟩ | ⟨hcur, hsame⟩
      · rw [h.list] at hmem
        exact ⟨hmem, hload.trans (h.top t hmem)⟩
      · exact ⟨h.listed j t hcur, hsame.trans (h.loaded j t hcur)⟩
    · rw [hm.others j hji] at ht ⊢
      exact ⟨h.listed j t ht, h.loaded j t ht⟩
  exact ⟨hm.list.trans h.list, fun j t ht => (hcore j t ht).1, fun t ht => (hm.tops t).trans (h.top t ht),
    fun j t ht => (hcore j t ht).2⟩

end Moves

/-! ### Frames through one step -/

section Frames

variable {k : Stacks} {m m' : Switching C} {i : C} {t : ThreadId}

omit [DecidableEq C] in
/-- The rule for steps that leave a frame alone. -/
theorem Switching.Framing.congr (h : m.Framing k t) (hlast : m'.traced.last t = m.traced.last t)
    (hgoes : m'.goesOn t = m.goesOn t) (hmem : ∀ x, m.InFrame t x → m'.mem x = m.mem x) : m'.Framing k t := by
  refine ⟨?_, ?_, ?_⟩
  · rw [hlast, hgoes]
    exact h.framed.congr fun x h1 h2 => hmem x ⟨h1, h2⟩
  · rw [hlast]
    exact h.low
  · rw [hlast, hgoes]
    exact h.high

omit [DecidableEq C] in
theorem Switching.Framing.holds {x : ℕ} (h : m.Framing k t) (hx : m.InFrame t x) : k.Holds t x :=
  ⟨h.low.trans hx.1, hx.2.trans_le h.high⟩

omit [DecidableEq C] in
/-- A thread that has a core in an interrupt is parked. -/
theorem Switching.Kept.parked (h : m.Kept k) (hirq : (m.core i).inIrq = true)
    (ht : (m.core i).currentThread = some t) : m.Parked t := by
  intro j hj
  rw [← h.traced.owned.single i j t ht hj]
  exact hirq

omit [DecidableEq C] in
/-- Where the way into an interrupt puts the frame. -/
theorem Switching.Kept.entry (hk : k.Apart) (h : m.Kept k)
    (hout : (m.cpus i).outside = true → (m.core i).currentThread ≠ none)
    (hin : (m.cpus i).outside = false → k.Room (m.cpus i).esp.toNat (m.core i).currentThread) :
    k.Room (kernelSp (m.tss i) (m.cpus i)).toNat (m.core i).currentThread := by
  unfold kernelSp
  cases ho : (m.cpus i).outside with
  | false => exact hin ho
  | true =>
    obtain ⟨t, ht⟩ := Option.ne_none_iff_exists'.mp (hout ho)
    have hmem := h.placed.listed i t ht
    have hlow := hk.low t hmem
    have hhigh := hk.high t hmem
    have htop : (m.tss i).esp0.toNat = k.top t := by
      rw [Switching.tss, BitVec.toNat_ofNat, h.placed.loaded i t ht]
      exact Nat.mod_eq_of_lt hhigh
    rw [if_pos rfl, ht, htop]
    exact ⟨by omega, le_rfl⟩

omit [DecidableEq C] in
theorem Stacks.Room.ge {sp : ℕ} {current : Option ThreadId} (h : k.Room sp current) : 84 ≤ sp := by
  cases current with
  | none => exact h.1
  | some t =>
    obtain ⟨hlow, -⟩ := h
    omega

omit [DecidableEq C] in
/-- What is pushed from there is on no other thread's stack. -/
theorem Stacks.Room.spares (hk : k.Apart) {sp x : ℕ} {current : Option ThreadId} (h : k.Room sp current)
    (hcur : ∀ c, current = some c → c ∈ k.threads) (ht : t ∈ k.threads) (hne : current ≠ some t)
    (hx : k.Holds t x) : x < sp - 84 ∨ sp ≤ x := by
  by_contra hcon
  obtain ⟨hlow, hhigh⟩ := hx
  cases current with
  | none =>
    have := h.2 t ht
    omega
  | some c =>
    obtain ⟨hroom, htop⟩ := h
    have hct : c ≠ t := fun hct => hne (by rw [hct])
    have hholds : k.top c - 4096 ≤ x ∧ x < k.top c := by omega
    exact hk.apart c (hcur c rfl) t ht hct x hholds ⟨hlow, hhigh⟩

omit [DecidableEq C] in
/-- Threads that are parked after something on core `i` were so before. -/
theorem Switching.Parked.of_moves (hm : Moves i m.traced.sys m'.traced.sys)
    (hi : (m.core i).currentThread = some t → (m.core i).inIrq = true) (h : m'.Parked t) : m.Parked t := by
  intro j hj
  by_cases hji : j = i
  · subst hji
    exact hi hj
  · have hcore := hm.others j hji
    have hparked := h j
    rw [Switching.core, hcore] at hparked
    exact hparked hj

theorem Switching.Kept.interrupted {handler : BitVec 32} {err : Option (BitVec 32)} {num : ℕ} (hk : k.Apart)
    (h : m.Kept k) (hirq : (m.core i).inIrq = false) (herr : err.isSome = decide (num ∈ errorIsrs))
    (hout : (m.cpus i).outside = true → (m.core i).currentThread ≠ none)
    (hin : (m.cpus i).outside = false → k.Room (m.cpus i).esp.toNat (m.core i).currentThread) :
    (m.interrupted i handler err num).Kept k := by
  have hroom := h.entry hk hout hin
  obtain ⟨hframed, hsize, hother⟩ :=
    @isrEntry_framed (m.tss i) handler err num ⟨m.cpus i, m.mem⟩ herr hroom.ge
  have hle := frameSize_le (m.cpus i)
  have hm := interrupted_moves m.traced i (isrEntry (m.tss i) handler err num ⟨m.cpus i, m.mem⟩).cpu.esp.toNat
  refine ⟨h.traced.interrupted i _ hirq, h.placed.moves hm, fun t ht hparked => ?_⟩
  by_cases hti : (m.core i).currentThread = some t
  · -- the frame that was just pushed
    have hlast : (m.interrupted i handler err num).traced.last t =
        (isrEntry (m.tss i) handler err num ⟨m.cpus i, m.mem⟩).cpu.esp.toNat := by
      simp only [Switching.interrupted, interrupted_last, if_pos hti]
    have hgoes : (m.interrupted i handler err num).goesOn t = m.cpus i := by
      simp only [Switching.interrupted, hti, Function.update_self]
    rw [hti] at hroom
    obtain ⟨hlow, hhigh⟩ := hroom
    have hsize' : _ + frameSize (m.cpus i) = (kernelSp (m.tss i) (m.cpus i)).toNat := hsize
    refine ⟨?_, ?_, ?_⟩
    · rw [hlast, hgoes]
      exact hframed
    · rw [hlast]
      omega
    · rw [hlast, hgoes, hsize']
      exact hhigh
  · have hframing := h.frames t ht (hparked.of_moves hm fun hcur => absurd hcur hti)
    refine hframing.congr ?_ ?_ fun x hx => hother x ?_
    · simp only [Switching.interrupted, interrupted_last, if_neg hti]
    · cases hcur : (m.core i).currentThread with
      | none => simp only [Switching.interrupted, hcur]
      | some c =>
        have htc : t ≠ c := fun htc => hti (by rw [hcur, htc])
        simp only [Switching.interrupted, hcur, Function.update_of_ne htc]
    · have hspares := hroom.spares hk (fun c hc => h.placed.listed i c hc) ht hti (hframing.holds hx)
      have hsize' : _ + frameSize (m.cpus i) = (kernelSp (m.tss i) (m.cpus i)).toNat := hsize
      change x < _ ∨ (kernelSp (m.tss i) (m.cpus i)).toNat ≤ x
      omega

theorem Switching.Kept.step (hk : k.Apart) (h : m.Kept k) (hstep : SwitchStep k m m') : m'.Kept k := by
  cases hstep with
  | run i cpu mem hirq hmem =>
    refine ⟨h.traced, h.placed, fun t ht hparked => ?_⟩
    have hframing := h.frames t ht hparked
    refine hframing.congr rfl rfl fun x hx => hmem t ht (fun hcur => ?_) x (hframing.holds hx)
    rw [hparked i hcur] at hirq
    cases hirq
  | enter i handler err num hirq herr hout hin => exact h.interrupted hk hirq herr hout hin
  | call i c cpu mem hirq hmem =>
    have hm := action_moves i c m.traced.sys
    refine ⟨(h.traced.step (.call i c hirq)).1, h.placed.moves hm, fun t ht hparked => ?_⟩
    have hbefore : m.Parked t := hparked.of_moves hm fun _ => hirq
    exact (h.frames t ht hbefore).congr rfl rfl (hmem t ht hbefore)
  | edit i u cpu c mem hirq hcur hmem hframed hhigh =>
    refine ⟨h.traced, h.placed, fun t ht hparked => ?_⟩
    have hframing := h.frames t ht hparked
    by_cases htu : t = u
    · subst htu
      have hgoes : Function.update m.goesOn t c t = c := Function.update_self _ _ _
      refine ⟨?_, hframing.low, ?_⟩
      · change Framed mem (m.traced.last t) (Function.update m.goesOn t c t)
        rw [hgoes]
        exact hframed
      · change m.traced.last t + frameSize (Function.update m.goesOn t c t) ≤ k.top t
        rw [hgoes]
        exact hhigh
    · refine hframing.congr rfl (Function.update_of_ne htu _ _) (hmem t ?_ hparked)
      exact List.mem_filter.mpr ⟨ht, by simpa using htu⟩
  | leave i hirq =>
    have hm := exited_moves i m.traced.sys
    refine ⟨(h.traced.step (.leave i hirq)).1, h.placed.moves hm, fun t ht hparked => ?_⟩
    exact (h.frames t ht (hparked.of_moves hm fun _ => hirq)).congr rfl rfl fun _ _ => rfl

end Frames

/-! ### Whole runs -/

/-- No core has a thread yet, and every thread of the list has a frame on its stack. -/
structure Switching.Start (m : Switching C) (k : Stacks) : Prop where
  free : ∀ i, (m.core i).currentThread = none
  list : m.traced.sys.threadList = k.threads
  top : ∀ t ∈ k.threads, (m.traced.sys.threads t).kernelStack = k.top t
  last : ∀ t, (m.traced.sys.threads t).regs = m.traced.last t
  frames : ∀ t ∈ k.threads, m.Framing k t

omit [DecidableEq C] in
theorem Switching.Start.kept {k : Stacks} {m : Switching C} (h : m.Start k) : m.Kept k := by
  have hfree : ∀ i t, (m.traced.sys.cores i).currentThread ≠ some t := by
    intro i t ht
    rw [h.free i] at ht
    cases ht
  refine ⟨⟨⟨?_, ?_, ?_⟩, ?_, fun t _ => h.last t⟩, ⟨h.list, ?_, h.top, ?_⟩, fun t ht _ => h.frames t ht⟩
  · exact fun i t ht => absurd ht (hfree i t)
  · exact fun i _ t ht => absurd ht (hfree i t)
  · exact fun i t ht => absurd ht (hfree i t)
  · exact fun i t _ ht => absurd ht (hfree i t)
  · exact fun i t ht => absurd ht (hfree i t)
  · exact fun i t ht => absurd ht (hfree i t)

/-- In every run on any number of cores: the interrupt in which a core has a thread ends with the
registers that the thread is to go on with, wherever it was interrupted and however many threads
had cores and stacks in between. The frames of all threads that wait are intact. -/
theorem resumes_where_interrupted {k : Stacks} {m₀ m : Switching C} (hk : k.Apart) (hstart : m₀.Start k)
    (hrun : Reaches (SwitchStep k) m₀ m) :
    (∀ i t, (m.core i).inIrq = true → (m.core i).currentThread = some t →
      m.exit i = ⟨resumed (m.goesOn t) (m.cpus i), m.mem⟩ ∧
      ((m.goesOn t).Plain → (m.cpus i).InKernel → m.exit i = ⟨m.goesOn t, m.mem⟩)) ∧
    ∀ t ∈ k.threads, m.Parked t → Framed m.mem (m.traced.last t) (m.goesOn t) := by
  have hkept : m.Kept k :=
    Reaches.invariant (Switching.Kept · k) (fun _ _ h hstep => h.step hk hstep) hrun hstart.kept
  refine ⟨fun i t hirq hcur => ?_, fun t ht hparked => (hkept.frames t ht hparked).framed⟩
  have hframing := hkept.frames t (hkept.placed.listed i t hcur) (hkept.parked hirq hcur)
  have hframed : Framed m.mem (BitVec.ofNat 32 (m.core i).irqRegs).toNat (m.goesOn t) := by
    have hroom := hframing.framed.room
    have hsize : 60 ≤ frameSize (m.goesOn t) := by
      unfold frameSize
      omega
    rw [hkept.traced.inside i t hirq hcur, BitVec.toNat_ofNat, Nat.mod_eq_of_lt (by omega)]
    exact hframing.framed
  have hexit : m.exit i = ⟨resumed (m.goesOn t) (m.cpus i), m.mem⟩ :=
    isrExit_framed (s := ⟨m.cpus i, m.mem⟩) hframed
  refine ⟨hexit, fun hplain hkernel => ?_⟩
  rw [hexit, resumed_of_plain hplain hkernel]

/-- Thread 7 has a page below 2 MB for its stack. -/
def seven : Stacks := ⟨[7], fun _ => 0x200000⟩

theorem seven_apart : seven.Apart := by
  have hlow : 4096 ≤ 0x200000 := by decide
  have hhigh : 0x200000 < 4294967296 := by decide
  refine ⟨fun _ _ => hlow, fun _ _ => hhigh, fun t ht u hu htu => ?_⟩
  rw [List.mem_singleton.mp ht, List.mem_singleton.mp hu] at htu
  exact absurd rfl htu

/-- A processor in ring 0. -/
def idling (esp : BitVec 32) : Cpu :=
  ⟨0, 0, 0, 0, 0, 0, 0, esp, 0, 0, 0, 0, 0, 0, 0, 0, 0⟩

/-- Two cores that have not run anything yet. -/
def cold : Switching Bool where
  traced := ⟨{ twoCores with threads := fun _ => ⟨0x1FFFC4, .stopped, -1, 0x200000, 0, 0, 0⟩, threadList := [7] },
    fun _ => 0x1FFFC4⟩
  cpus i := idling (if i then 0x100000 else 0x101000)
  mem _ := 0
  goesOn _ := idling 0x200000

theorem idling_framed : Framed (fun _ => 0) 0x1FFFC4 (idling 0x200000) := by
  refine ⟨⟨0, 0, 0, ?_⟩, by decide, fun _ => rfl⟩
  rw [show frameWords (idling 0x200000) 0 0 0 = List.replicate 15 0 by decide]
  exact ⟨rfl, rfl, rfl, rfl, rfl, rfl, rfl, rfl, rfl, rfl, rfl, rfl, rfl, rfl, rfl, trivial⟩

theorem cold_start : cold.Start seven := by
  have hlow : 0x200000 - 4096 ≤ 0x1FFFC4 := by decide
  have hhigh : 0x1FFFC4 + frameSize (idling 0x200000) ≤ 0x200000 := by decide
  exact ⟨fun _ => rfl, rfl, fun _ _ => rfl, fun _ => rfl, fun _ _ => ⟨idling_framed, hlow, hhigh⟩⟩

/-- A thread of ring 3. -/
def busy : Cpu := {
  eax := 1, ebx := 2, ecx := 3, edx := 4, esi := 5, edi := 6, ebp := 7, esp := 0x50000F00, eip := 0x8048000
  eflags := 0x202, cr3 := 0x5000, cs := 0x1B, ss := 0x23, ds := 0x23, es := 0x23, fs := 0, gs := 0 }

/-- Thread 7 gets core `true`, goes to ring 3, is interrupted there and sleeps; core `false` wakes it and
goes on in ring 3. -/
theorem resumes_where_interrupted_two_cores : ∃ m : Switching Bool, Reaches (SwitchStep seven) cold m ∧
    (m.core false).currentThread = some 7 ∧ (m.exit false).cpu = busy := by
  have hroom : ∀ sp, 84 ≤ sp → sp ≤ 0x200000 - 4096 → seven.Room sp none :=
    fun sp hlow hhigh => ⟨hlow, fun _ _ => Or.inl hhigh⟩
  have hrun : Reaches (SwitchStep seven) cold _ :=
    .head (.enter true 0 none 32 rfl rfl (fun h => by cases h) fun _ => hroom _ (by decide) (by decide)) <|
    .head (.call true .sched (idling 0) _ rfl fun _ _ _ _ _ => rfl) <|
    .head (.call true .sched (idling 0) _ rfl fun _ _ _ _ _ => rfl) <|
    .head (.leave true rfl) <|
    .head (.run true busy _ rfl fun _ _ _ _ _ => rfl) <|
    .head (.enter true 0 none 128 rfl rfl (fun _ h => by cases h) fun h => by cases h) <|
    .head (.call true (.sleep 1) (idling 0) _ rfl fun _ _ _ _ _ => rfl) <|
    .head (.enter false 0 none 32 rfl rfl (fun h => by cases h) fun _ => hroom _ (by decide) (by decide)) <|
    .head (.call false .sched (idling 0) _ rfl fun _ _ _ _ _ => rfl) <|
    .single (.call false .sched { idling 0 with fs := 0x10, gs := 0x10, ss := 0x10 } _ rfl fun _ _ _ _ _ => rfl)
  obtain ⟨-, hexit⟩ := (resumes_where_interrupted seven_apart cold_start hrun).1 false 7 rfl rfl
  have hplain : busy.Plain := Or.inr ⟨rfl, by decide⟩
  refine ⟨_, hrun, rfl, ?_⟩
  rw [hexit hplain ⟨rfl, rfl, rfl⟩]
  rfl

end JustKernel.Sched
