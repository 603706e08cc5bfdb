import JustKernel.Proc.SchedOwnership

/-! Which interrupts keep the scheduler's assertions true. Between interrupts a
core is online exactly while it has a current thread, and that thread is
running; every handler restores this, with one exception. A page fault marks
the current thread terminated, leaves it current and asks for a scheduling pass,
and the pass then asserts that the current thread is running. So a sequence of
interrupts passes all assertions exactly if each of its page faults hits a core
without a current thread. -/

namespace JustKernel.Sched

open Halting

variable {C : Type} [DecidableEq C]

/-- What holds between interrupts. -/
structure Settled (s : System C) : Prop where
  online : ∀ i, (s.cores i).state = .online ↔ (s.cores i).currentThread ≠ none
  running : ∀ i t, (s.cores i).currentThread = some t → (s.threads t).state = .running
  single : ∀ i j t, (s.cores i).currentThread = some t → (s.cores j).currentThread = some t → i = j

omit [DecidableEq C] in
theorem Settled.consistent {s : System C} (h : Settled s) (i : C) : Consistent s i := by
  unfold Consistent
  have hon := h.online i
  cases hstate : (s.cores i).state with
  | online =>
    obtain ⟨t, ht⟩ := Option.ne_none_iff_exists'.mp (hon.mp hstate)
    exact ⟨t, ht, h.running i t ht⟩
  | idle =>
    rw [hstate] at hon
    exact not_not.mp fun hne => nomatch hon.mpr hne
  | booting =>
    rw [hstate] at hon
    exact not_not.mp fun hne => nomatch hon.mpr hne
  | offline => trivial

omit [DecidableEq C] in
/-- The assertions only look at the cores' states and current threads and at the threads' states. -/
theorem Settled.of_eq {s s' : System C} (h : Settled s)
    (hstate : ∀ i, (s'.cores i).state = (s.cores i).state)
    (hcur : ∀ i, (s'.cores i).currentThread = (s.cores i).currentThread)
    (hthreads : ∀ t, Woken (s.threads t) (s'.threads t)) : Settled s' := by
  refine ⟨fun i => ?_, fun i t ht => ?_, fun i j t hi hj => ?_⟩
  · rw [hstate, hcur]; exact h.online i
  · rw [hcur] at ht
    have hrun := h.running i t ht
    rcases (hthreads t).2 with heq | ⟨hsleep, -⟩
    · rw [heq]; exact hrun
    · rw [hsleep] at hrun; cases hrun
  · rw [hcur] at hi hj
    exact h.single i j t hi hj

/-- The rule for a step of one core, as for ownership. -/
theorem Settled.reassign {s s' : System C} (h : Settled s) (i : C)
    (hcore : ∀ j, j ≠ i → s'.cores j = s.cores j)
    (honline : (s'.cores i).state = .online ↔ (s'.cores i).currentThread ≠ none)
    (hother : ∀ j t, j ≠ i → (s.cores j).currentThread = some t →
      (s'.threads t).state = (s.threads t).state)
    (hnew : ∀ t, (s'.cores i).currentThread = some t → (s'.threads t).state = .running ∧
      ∀ j, j ≠ i → (s.cores j).currentThread ≠ some t) : Settled s' := by
  refine ⟨fun j => ?_, fun j t hj => ?_, fun j k t hj hk => ?_⟩
  · by_cases hji : j = i
    · rw [hji]; exact honline
    · rw [hcore j hji]; exact h.online j
  · by_cases hji : j = i
    · subst hji; exact (hnew t hj).1
    · rw [hcore j hji] at hj
      rw [hother j t hji hj]
      exact h.running j t hj
  · by_cases hji : j = i <;> by_cases hki : k = i
    · rw [hji, hki]
    · subst hji
      rw [hcore k hki] at hk
      exact absurd hk ((hnew t hj).2 k hki)
    · subst hki
      rw [hcore j hji] at hj
      exact absurd hj ((hnew t hk).2 j hji)
    · rw [hcore j hji] at hj
      rw [hcore k hki] at hk
      exact h.single j k t hj hk

omit [DecidableEq C] in
theorem Settled.not_current {s : System C} (h : Settled s) {t : ThreadId}
    (ht : (s.threads t).state = .stopped) (j : C) : (s.cores j).currentThread ≠ some t := by
  intro hj
  have := h.running j t hj
  rw [ht] at this
  cases this

theorem loaded_core (s : System C) (i : C) (t : ThreadId) (j : C) (hj : j ≠ i) :
    (s.loaded i t).cores j = s.cores j := by
  rw [System.loaded, updateThread_cores, updateCore_cores, if_neg hj]

theorem loaded_state (s : System C) (i : C) (t : ThreadId)
    (h : (s.cores i).state = .online ∨ (s.cores i).state = .idle) :
    ((s.loaded i t).cores i).state = .online := by
  rw [System.loaded, updateThread_cores, updateCore_cores, if_pos rfl]
  dsimp only
  rcases h with h | h
  · rw [h, if_neg (by decide)]
  · rw [h, if_pos rfl]

theorem Settled.handOver {s s' : System C} {i : C} (h : Settled s) (hs : HandOver i s s') :
    Settled s' := by
  cases hs with
  | switch c t hc hrun ht hstate =>
    refine h.reassign i (fun j hj => ?_) ?_ (fun j u hj hu => ?_) (fun u hu => ?_)
    · rw [loaded_core _ _ _ _ hj, saved_cores]
    · rw [loaded_state (s.saved i c .stopped) i t (Or.inl hstate), loaded_currentThread, if_pos rfl]
      simp
    · have huc : u ≠ c := by rintro rfl; exact hj (h.single j i u hu hc)
      have hut : u ≠ t := by rintro rfl; exact h.not_current ht.1 j hu
      rw [loaded_threads, if_neg hut, saved_threads, if_neg huc]
    · rw [loaded_currentThread, if_pos rfl, Option.some.injEq] at hu
      subst hu
      exact ⟨by rw [loaded_threads, if_pos rfl], fun j _ => h.not_current ht.1 j⟩
  | load t hc ht hstate =>
    refine h.reassign i (fun j hj => loaded_core _ _ _ _ hj) ?_ (fun j u hj hu => ?_) (fun u hu => ?_)
    · rw [loaded_state _ _ _ (Or.inr hstate), loaded_currentThread, if_pos rfl]
      simp
    · have hut : u ≠ t := by rintro rfl; exact h.not_current ht.1 j hu
      rw [loaded_threads, if_neg hut]
    · rw [loaded_currentThread, if_pos rfl, Option.some.injEq] at hu
      subst hu
      exact ⟨by rw [loaded_threads, if_pos rfl], fun j _ => h.not_current ht.1 j⟩
  | idle hc =>
    refine h.reassign i (fun j hj => ?_) ?_ (fun j u hj hu => rfl) (fun u hu => ?_)
    · rw [System.idled, updateCore_cores, if_neg hj]
    · rw [idled_currentThread, hc, System.idled, updateCore_cores, if_pos rfl]
      simp
    · rw [idled_currentThread, hc] at hu
      cases hu

omit [DecidableEq C] in
theorem Settled.updateSleepingThreads {s : System C} (h : Settled s) (i : C) :
    Settled (updateSleepingThreads i s) :=
  h.of_eq (fun j => by rw [updateSleepingThreads_cores])
    (fun j => by rw [updateSleepingThreads_cores]) (updateSleepingThreads_threads i s)

theorem HandOver.schedLock {s s' : System C} {i : C} (h : HandOver i s s') :
    s'.schedLock = s.schedLock := by
  cases h <;> rfl

/-- A pass on a settled system passes its assertions and leaves it settled. -/
theorem Settled.sched {s : System C} (h : Settled s) (i : C) :
    ∃ t, sched i s = .ok () t ∧ Settled t ∧ t.schedLock = s.schedLock := by
  have h₁ := h.updateSleepingThreads i
  obtain ⟨t, ht, hcase⟩ := sched_of_consistent (h₁.consistent i)
  refine ⟨t, ht, ?_⟩
  rcases hcase with rfl | hhand
  · exact ⟨h₁, updateSleepingThreads_schedLock i s⟩
  · exact ⟨h₁.handOver hhand, hhand.schedLock.trans (updateSleepingThreads_schedLock i s)⟩

/-- Settled, with the scheduler lock free. -/
def Ready (s : System C) : Prop := Settled s ∧ s.schedLock = false

theorem Ready.schedRunner {s : System C} (h : Ready s) (i : C) :
    ∃ t, schedRunner i s = .ok () t ∧ Ready t := by
  obtain ⟨hset, hlock⟩ := h
  have hset' : Settled { s with schedLock := true } :=
    hset.of_eq (fun _ => rfl) (fun _ => rfl) (fun _ => ⟨rfl, Or.inl rfl⟩)
  obtain ⟨t, ht, hsett, -⟩ := hset'.sched i
  refine ⟨{ t with schedLock := false }, ?_,
    hsett.of_eq (fun _ => rfl) (fun _ => rfl) (fun _ => ⟨rfl, Or.inl rfl⟩), rfl⟩
  unfold Sched.schedRunner
  simp only [get_bind_run, hlock, Bool.false_eq_true, if_false, modify_bind_run]
  rw [bind_of_ok ht]
  rfl

theorem Ready.updateCore {s : System C} (h : Ready s) (i : C) (f : Core → Core)
    (hstate : ∀ core, (f core).state = core.state)
    (hcur : ∀ core, (f core).currentThread = core.currentThread) : Ready (s.updateCore i f) := by
  refine ⟨h.1.of_eq (fun j => ?_) (fun j => updateCore_currentThread s i f j hcur)
    (fun _ => ⟨rfl, Or.inl rfl⟩), h.2⟩
  rw [updateCore_cores]
  by_cases hji : j = i
  · rw [if_pos hji, hstate, hji]
  · rw [if_neg hji]

theorem Ready.schedAll {s : System C} (h : Ready s) (i : C) :
    ∃ t, schedAll i s = .ok () t ∧ Ready t := by
  unfold Sched.schedAll
  simp only [get_bind_run]
  split_ifs
  · exact ⟨s, rfl, h⟩
  · exact ⟨s, rfl, h⟩
  · exact h.schedRunner i

theorem Ready.leaveCore {s : System C} (h : Ready s) (i : C) (state : ThreadState)
    (record : Thread → Thread) : ∃ t, leaveCore i state record s = .ok () t ∧ Ready t := by
  rcases leaveCore_run i state record s with hrun | ⟨t, ht, hrun⟩
  · exact ⟨s, hrun, h⟩
  · refine ⟨_, hrun, h.1.reassign i (fun j hj => ?_) ?_ (fun j u hj hu => ?_) (fun u hu => ?_), h.2⟩
    · rw [System.left, System.idled, updateCore_cores, if_neg hj, updateCore_cores, if_neg hj]
      rfl
    · rw [left_currentThread, if_pos rfl, System.left, System.idled, updateCore_cores, if_pos rfl]
      simp
    · have hut : u ≠ t := by rintro rfl; exact hj (h.1.single j i u hu ht)
      rw [left_threads, if_neg hut]
    · rw [left_currentThread, if_pos rfl] at hu
      cases hu

/-- The one interrupt after which an assertion fails. -/
def FaultsCurrent (s : System C) (i : C) (int : Interrupt) : Prop :=
  int = .pageFault ∧ (s.cores i).currentThread ≠ none

/-- Every other handler returns and leaves the system ready. -/
theorem Ready.handler {s : System C} (h : Ready s) (i : C) (int : Interrupt)
    (hint : ¬FaultsCurrent s i int) : ∃ t, handler i int s = .ok () t ∧ Ready t := by
  cases int with
  | timer =>
    unfold Sched.handler timerHandler
    simp only [modify_bind_run, get_bind_run]
    have h' : Ready { s with globalTicks := (s.globalTicks + 1) % 2 ^ 32 } :=
      ⟨h.1.of_eq (fun _ => rfl) (fun _ => rfl) (fun _ => ⟨rfl, Or.inl rfl⟩), h.2⟩
    split_ifs
    · exact h'.schedAll i
    · exact ⟨_, rfl, h'⟩
  | ipi => exact h.schedRunner i
  | exit code => exact h.leaveCore i _ _
  | sleep timeMs => exact h.leaveCore i _ _
  | yield => exact h.schedRunner i
  | pageFault =>
    have hnone : (s.cores i).currentThread = none := not_not.mp fun hne => hint ⟨rfl, hne⟩
    refine ⟨_, vmmPageFault_run i s, ?_⟩
    unfold System.faulted
    rw [hnone]
    exact h.updateCore i _ (fun _ => rfl) (fun _ => rfl)

/-- The part of `isr_handler` after the handler. -/
def isrTail (i : C) (regs : ℕ) : SchedM C ℕ := do
  if ((← get).cores i).needResched then schedRunner i
  if ((← get).cores i).nestedIrq then
    modify fun s => s.updateCore i fun core => { core with nestedIrq := false }
    return regs
  else
    let back := ((← get).cores i).irqRegs
    modify fun s => s.updateCore i fun core => { core with inIrq := false }
    return back

/-- The state after the exit of a handler, and the frame it goes back to. -/
def System.leaving (s : System C) (i : C) (regs : ℕ) : ℕ × System C :=
  if (s.cores i).nestedIrq then
    (regs, s.updateCore i fun core => { core with nestedIrq := false })
  else ((s.cores i).irqRegs, s.updateCore i fun core => { core with inIrq := false })

/-- A handler that asks for no pass just leaves; one that does leaves after the pass. -/
theorem isrTail_run (i : C) (regs : ℕ) (s : System C) :
    isrTail i regs s =
      if (s.cores i).needResched then
        match schedRunner i s with
        | .ok _ t => .ok (t.leaving i regs).1 (t.leaving i regs).2
        | .error e t => .error e t
      else .ok (s.leaving i regs).1 (s.leaving i regs).2 := by
  have hflags : ∀ t : System C,
      (do
        if ((← get).cores i).nestedIrq then
          modify fun s => s.updateCore i fun core => { core with nestedIrq := false }
          return regs
        else
          let back := ((← get).cores i).irqRegs
          modify fun s => s.updateCore i fun core => { core with inIrq := false }
          return back : SchedM C ℕ) t = .ok (t.leaving i regs).1 (t.leaving i regs).2 := by
    intro t
    unfold System.leaving
    simp only [get_bind_run]
    split_ifs <;> rfl
  unfold isrTail
  rw [get_bind_run]
  cases (s.cores i).needResched with
  | false => exact hflags s
  | true =>
    simp only [if_true]
    cases hrun : schedRunner i s with
    | ok a t =>
      rw [bind_of_ok hrun]
      exact hflags t
    | error e t => rw [bind_of_error hrun]

/-- The flags and frame `isr_handler` sets on entry. -/
def System.entered (s : System C) (i : C) (regs : ℕ) : System C :=
  if (s.cores i).inIrq then s.updateCore i fun core => { core with nestedIrq := true }
  else s.updateCore i fun core => { core with inIrq := true, irqRegs := regs }

theorem isrHandler_run (i : C) (int : Interrupt) (regs : ℕ) (s : System C) :
    isrHandler i int regs s = (handler i int >>= fun _ => isrTail i regs) (s.entered i regs) := by
  unfold isrHandler System.entered
  simp only [get_bind_run]
  cases (s.cores i).inIrq <;> rfl

theorem Ready.isrTail {s : System C} (h : Ready s) (i : C) (regs : ℕ) :
    ∃ back t, isrTail i regs s = .ok back t ∧ Ready t := by
  have hreturn : ∀ t : System C, Ready t → Ready (t.leaving i regs).2 := by
    intro t ht
    unfold System.leaving
    split_ifs
    · exact ht.updateCore i (fun core => { core with nestedIrq := false }) (fun _ => rfl) (fun _ => rfl)
    · exact ht.updateCore i (fun core => { core with inIrq := false }) (fun _ => rfl) (fun _ => rfl)
  rw [isrTail_run]
  split_ifs
  · obtain ⟨t, ht, hready⟩ := h.schedRunner i
    rw [ht]
    exact ⟨_, _, rfl, hreturn t hready⟩
  · exact ⟨_, _, rfl, hreturn s h⟩

theorem Ready.entered {s : System C} (h : Ready s) (i : C) (regs : ℕ) : Ready (s.entered i regs) := by
  unfold System.entered
  split_ifs
  · exact h.updateCore i _ (fun _ => rfl) (fun _ => rfl)
  · exact h.updateCore i _ (fun _ => rfl) (fun _ => rfl)

theorem entered_currentThread (s : System C) (i : C) (regs : ℕ) (j : C) :
    ((s.entered i regs).cores j).currentThread = (s.cores j).currentThread := by
  unfold System.entered
  split_ifs
  · exact updateCore_currentThread s i _ j fun _ => rfl
  · exact updateCore_currentThread s i _ j fun _ => rfl

theorem Ready.isrHandler {s : System C} (h : Ready s) (i : C) (int : Interrupt) (regs : ℕ)
    (hint : ¬FaultsCurrent s i int) : ∃ back t, isrHandler i int regs s = .ok back t ∧ Ready t := by
  have hint' : ¬FaultsCurrent (s.entered i regs) i int := by
    rw [FaultsCurrent, entered_currentThread]
    exact hint
  obtain ⟨t, ht, hready⟩ := (h.entered i regs).handler i int hint'
  rw [isrHandler_run, bind_of_ok ht]
  exact hready.isrTail i regs

/-- A pass on a core whose current thread has been terminated. -/
theorem sched_terminated {s : System C} {i : C} {c : ThreadId} (hstate : (s.cores i).state = .online)
    (hc : (s.cores i).currentThread = some c) (hterm : (s.threads c).state = .terminated) :
    sched i s = .error .schedOnlineRunning (Sched.updateSleepingThreads i s) := by
  have hterm' : ((Sched.updateSleepingThreads i s).threads c).state = .terminated := by
    rcases (updateSleepingThreads_threads i s c).2 with heq | ⟨hsleep, -⟩
    · rw [heq, hterm]
    · rw [hterm] at hsleep; cases hsleep
  unfold Sched.sched
  simp only [modify_bind_run, get_bind_run, updateSleepingThreads_cores, hstate, hc]
  simp [assert, isRunning, hterm']

theorem faulted_state (s : System C) (i : C) : ((s.faulted i).cores i).state = (s.cores i).state := by
  unfold System.faulted
  rw [updateCore_cores, if_pos rfl]
  cases (s.cores i).currentThread <;> rfl

theorem faulted_needResched (s : System C) (i : C) : ((s.faulted i).cores i).needResched = true := by
  unfold System.faulted
  rw [updateCore_cores, if_pos rfl]

theorem faulted_schedLock (s : System C) (i : C) : (s.faulted i).schedLock = s.schedLock := by
  unfold System.faulted
  cases (s.cores i).currentThread <;> rfl

/-- After a page fault of its current thread, the core fails the assertion that the
current thread is running. -/
theorem Ready.isrHandler_pageFault {s : System C} (h : Ready s) (i : C) (regs : ℕ)
    (hcur : (s.cores i).currentThread ≠ none) :
    ∃ t, Sched.isrHandler i .pageFault regs s = .error .schedOnlineRunning t := by
  obtain ⟨hset, hlock⟩ := h.entered i regs
  rw [← entered_currentThread s i regs i] at hcur
  rw [isrHandler_run]
  generalize s.entered i regs = s₁ at hset hlock hcur
  obtain ⟨c, hc⟩ := Option.ne_none_iff_exists'.mp hcur
  have hrun : Sched.handler i .pageFault s₁ = .ok () (s₁.faulted i) := vmmPageFault_run i s₁
  have hsched : Sched.sched i { s₁.faulted i with schedLock := true } =
      .error .schedOnlineRunning
        (Sched.updateSleepingThreads i { s₁.faulted i with schedLock := true }) := by
    refine sched_terminated (c := c) ?_ ?_ ?_
    · rw [faulted_state]; exact (hset.online i).mpr hcur
    · rw [faulted_currentThread]; exact hc
    · rw [faulted_threads, if_pos hc]
  have hrunner : Sched.schedRunner i (s₁.faulted i) = .error .schedOnlineRunning
      (Sched.updateSleepingThreads i { s₁.faulted i with schedLock := true }) := by
    unfold Sched.schedRunner
    simp only [get_bind_run, faulted_schedLock, hlock, Bool.false_eq_true, if_false,
      modify_bind_run]
    exact bind_of_error hsched
  refine ⟨Sched.updateSleepingThreads i { s₁.faulted i with schedLock := true }, ?_⟩
  rw [bind_of_ok hrun]
  rw [isrTail_run, faulted_needResched, if_pos rfl, hrunner]

/-! ### Whole runs -/

/-- A sequence of interrupts, each on a core and with the frame it arrives with. -/
def isrRun : List (C × Interrupt × ℕ) → SchedM C Unit
  | [] => pure ()
  | (i, int, regs) :: rest => do
    let _ ← isrHandler i int regs
    isrRun rest

/-- No page fault of the sequence hits a core that has a current thread. -/
def FaultFree : List (C × Interrupt × ℕ) → System C → Prop
  | [], _ => True
  | (i, int, regs) :: rest, s =>
    ¬FaultsCurrent s i int ∧ ∀ back t, isrHandler i int regs s = .ok back t → FaultFree rest t

/-- A system before its first interrupt: no core has a thread yet. -/
structure Booted (s : System C) : Prop where
  current : ∀ i, (s.cores i).currentThread = none
  state : ∀ i, (s.cores i).state ≠ .online
  unlocked : s.schedLock = false

omit [DecidableEq C] in
theorem Booted.ready {s : System C} (h : Booted s) : Ready s := by
  refine ⟨⟨fun i => ?_, fun i t ht => ?_, fun i j t hi => ?_⟩, h.unlocked⟩
  · simp [h.current i, h.state i]
  · rw [h.current i] at ht; cases ht
  · rw [h.current i] at hi; cases hi

theorem isrRun_ok_iff (l : List (C × Interrupt × ℕ)) (s : System C) (h : Ready s) :
    (∃ t, isrRun l s = .ok () t) ↔ FaultFree l s := by
  induction l generalizing s with
  | nil => exact ⟨fun _ => trivial, fun _ => ⟨s, rfl⟩⟩
  | cons x rest ih =>
    obtain ⟨i, int, regs⟩ := x
    rw [FaultFree, isrRun]
    by_cases hint : FaultsCurrent s i int
    · obtain ⟨rfl, hcur⟩ := hint
      obtain ⟨t, ht⟩ := h.isrHandler_pageFault i regs hcur
      rw [bind_of_error ht]
      constructor
      · intro hrun
        obtain ⟨_, he⟩ := hrun
        cases he
      · intro hf
        exact absurd ⟨rfl, hcur⟩ hf.1
    · obtain ⟨back, t, ht, hready⟩ := h.isrHandler i int regs hint
      rw [bind_of_ok ht, ih t hready]
      constructor
      · intro hf
        refine ⟨hint, fun back' t' ht' => ?_⟩
        rw [ht] at ht'
        cases ht'
        exact hf
      · exact fun hf => hf.2 back t ht

/-- From boot, a sequence of interrupts on any number of cores passes every assertion of
the scheduler if and only if each of its page faults hits a core without a current thread. -/
theorem scheduler_assertions (init : System C) (hinit : Booted init)
    (l : List (C × Interrupt × ℕ)) : (∃ t, isrRun l init = .ok () t) ↔ FaultFree l init :=
  isrRun_ok_iff l init hinit.ready

/-- One core and one stopped thread on the list. -/
def oneCore : System Unit where
  cores _ := ⟨false, false, false, 0, .booting, none, 100, 0, 0⟩
  threads t := ⟨t, .stopped, -1, 0, 0, 0, 0⟩
  threadList := [7]
  procList := [0]
  procThreads _ := [7]
  kernelProc := 0
  schedLock := false
  globalTicks := 0

theorem oneCore_booted : Booted oneCore where
  current _ := rfl
  state _ := by
    intro h
    cases h
  unlocked := rfl

/-- An idle core takes page faults and goes on to pick the thread, which yields, sleeps
and wakes without failing an assertion. -/
theorem scheduler_assertions_one_core :
    FaultFree [((), .pageFault, 1), ((), .ipi, 2), ((), .sleep 1, 3), ((), .ipi, 4)] oneCore := by
  refine (scheduler_assertions oneCore oneCore_booted _).mp ⟨_, rfl⟩

/-- The thread is picked on the second pass and then faults. -/
theorem page_fault_fails_assertion :
    ∃ t, isrRun [((), .ipi, 1), ((), .ipi, 2), ((), .pageFault, 3)] oneCore =
      .error .schedOnlineRunning t :=
  ⟨_, rfl⟩

end JustKernel.Sched
