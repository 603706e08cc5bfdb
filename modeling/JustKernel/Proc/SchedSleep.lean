import JustKernel.Proc.IsrNesting

/-! How long a thread sleeps. The time left is taken down by every scheduling pass on
core 0, whoever asks for it, as if eight ticks had gone by since the last one. The
timer asks once in eight ticks; a pass for an interrupt from another core, for a
system call or at the end of a handler that asks for rescheduling is one too many.
The time itself is kept in microseconds, in 32 bits. -/

namespace JustKernel.Sched

open Halting Runs

variable {C : Type} [DecidableEq C]

/-- The microseconds between two passes of the timer. -/
def passUs : ℕ := 8 * pitSpeedUs

theorem passUs_pos : 0 < passUs := by decide

theorem roundUp_le {a n : ℕ} (h : a ≤ passUs * n) : (a + (passUs - 1)) / passUs ≤ n := by
  have hlt : a + (passUs - 1) < passUs * (n + 1) := by
    have := passUs_pos
    rw [Nat.mul_add_one passUs]
    omega
  exact Nat.lt_succ_iff.mp (Nat.div_lt_of_lt_mul hlt)

/-- A call of `sched_thread_sleep`, and how often `timer_handler` on core 0 has invoked the
scheduler since. -/
structure Nap where
  timeMs : ℕ
  invoked : ℕ

/-- The system, and the last call of each thread. -/
structure Dormitory (C : Type) where
  sys : System C
  naps : ThreadId → Option Nap

/-- The parts of interrupts, on any core and in any order. -/
inductive SleepEvent (C : Type)
  | enter (i : C) (regs : ℕ)
  | handle (i : C) (int : Interrupt)
  | leave (i : C) (regs : ℕ)

def SleepEvent.after (s : System C) : SleepEvent C → System C
  | .enter i regs => s.entered i regs
  | .handle i int => finalState (handler i int s)
  | .leave i regs => finalState (isrTail i regs s)

/-- `timer_handler` on core `i` gets to call `_sched_runner`. -/
def Invokes (s : System C) : Prop :=
  s.ticked.globalTicks % 8 = 0 ∧ s.procList ≠ [] ∧ s.procThreads s.kernelProc ≠ []

instance (s : System C) : Decidable (Invokes s) := inferInstanceAs (Decidable (_ ∧ _))

def SleepEvent.note (m : Dormitory C) : SleepEvent C → ThreadId → Option Nap
  | .handle i (.sleep timeMs) =>
    match (m.sys.cores i).currentThread, (m.sys.cores i).inIrq with
    | some t, true => Function.update m.naps t (some ⟨timeMs, 0⟩)
    | _, _ => m.naps
  | .handle i .timer =>
    if (m.sys.cores i).coreId = 0 ∧ Invokes m.sys then
      fun t => (m.naps t).map fun nap => ⟨nap.timeMs, nap.invoked + 1⟩
    else m.naps
  | _ => m.naps

def Dormitory.next (m : Dormitory C) (e : SleepEvent C) : Dormitory C := ⟨e.after m.sys, e.note m⟩

/-- A thread that wakes up has slept for as many invocations as its time takes, rounded up. -/
def NoEarlyWake (m m' : Dormitory C) : Prop :=
  ∀ t nap, m'.naps t = some nap → (m.sys.threads t).state = .sleeping →
    (m'.sys.threads t).state ≠ .sleeping → (nap.timeMs * 1000 + (passUs - 1)) / passUs ≤ nap.invoked

/-- A pass on core `i` takes no time off anyone's sleep. -/
def TakesNoTime (i : C) (s : System C) : Prop :=
  (s.cores i).coreId ≠ 0 ∨ s.schedLock = true ∨ ∀ t ∈ s.threadList, (s.threads t).state ≠ .sleeping

/-- The time of a call fits in 32 bits of microseconds, and no pass but the timer's takes time
off. -/
def Punctual (s : System C) : SleepEvent C → Prop
  | .handle _ (.sleep timeMs) => timeMs * 1000 < 2 ^ 32
  | .handle i .ipi | .handle i .yield => TakesNoTime i s
  | .leave i _ => (s.cores i).needResched = true → TakesNoTime i s
  | _ => True

/-! ### What happens to one thread -/

/-- At most `d` microseconds are taken off the sleep of a thread. -/
def Dozes (d : ℕ) (t t' : Thread) : Prop :=
  (t'.state = .sleeping → t.state = .sleeping ∧ t.sleepTime ≤ t'.sleepTime + d) ∧
    (t.state = .sleeping → t'.state ≠ .sleeping → t.sleepTime ≤ d)

theorem Dozes.refl (d : ℕ) (t : Thread) : Dozes d t t :=
  ⟨fun h => ⟨h, Nat.le_add_right _ _⟩, fun h h' => absurd h h'⟩

theorem wake_dozes (t : Thread) : Dozes passUs t (wake t) := by
  have hpass : pitSpeedUs * 8 = passUs := Nat.mul_comm _ _
  unfold wake
  by_cases hs : t.state = .sleeping
  · rw [if_pos hs]
    unfold sleepLeft
    rw [hpass]
    constructor
    · intro _
      refine ⟨hs, ?_⟩
      dsimp only
      split_ifs <;> omega
    · intro _ hne
      dsimp only at hne
      by_cases hle : passUs > t.sleepTime
      · omega
      · rw [if_neg hle] at hne
        split_ifs at hne with h0
        · omega
        · exact absurd hs hne
  · rw [if_neg hs]
    exact .refl _ t

omit [DecidableEq C] in
/-- Every thread of a list without repetitions is woken once. -/
theorem foldl_wake_threads (l : List ThreadId) (hl : l.Nodup) (s : System C) (t : ThreadId) :
    (l.foldl (fun s t => s.updateThread t wake) s).threads t =
      if t ∈ l then wake (s.threads t) else s.threads t := by
  induction l generalizing s with
  | nil => rfl
  | cons u rest ih =>
    obtain ⟨hu, hrest⟩ := List.nodup_cons.mp hl
    rw [List.foldl_cons, ih hrest, updateThread_threads]
    by_cases htu : t = u
    · subst htu
      simp [hu]
    · simp [htu]

section Doze

variable {i : C} {s s' : System C}

omit [DecidableEq C] in
theorem updateSleepingThreads_dozes (hl : s.threadList.Nodup) (t : ThreadId) :
    Dozes passUs (s.threads t) ((updateSleepingThreads i s).threads t) := by
  unfold updateSleepingThreads
  split_ifs
  · exact .refl _ _
  · rw [foldl_wake_threads _ hl]
    split_ifs
    · exact wake_dozes _
    · exact .refl _ _

/-- The pass itself leaves sleepers alone once they have been woken. -/
theorem HandOver.dozes (hs : HandOver i s s') (t : ThreadId) :
    (s'.threads t).state = .sleeping ∨ (s.threads t).state = .sleeping → s'.threads t = s.threads t := by
  intro hsleep
  cases hs with
  | switch c u hc hrun hu hstate =>
    have hut : u ≠ c := by
      rintro rfl
      rw [hu.1] at hrun
      cases hrun
    rw [loaded_threads, saved_threads, saved_threads, if_neg hut] at hsleep ⊢
    by_cases htu : t = u
    · subst htu
      rw [if_pos rfl, hu.1] at hsleep
      rcases hsleep with h | h <;> cases h
    · rw [if_neg htu] at hsleep ⊢
      by_cases htc : t = c
      · subst htc
        rw [if_pos rfl, hrun] at hsleep
        rcases hsleep with h | h <;> cases h
      · rw [if_neg htc]
  | load u hc hu hstate =>
    rw [loaded_threads] at hsleep ⊢
    by_cases htu : t = u
    · subst htu
      rw [if_pos rfl, hu.1] at hsleep
      rcases hsleep with h | h <;> cases h
    · rw [if_neg htu]
  | idle hc => rfl

theorem Dozes.of_same {d : ℕ} {t t' t'' : Thread} (h : Dozes d t t')
    (hsame : t''.state = .sleeping ∨ t'.state = .sleeping → t'' = t') : Dozes d t t'' := by
  constructor
  · intro hs
    obtain rfl := hsame (Or.inl hs)
    exact h.1 hs
  · intro hs hne
    refine h.2 hs fun hs' => hne ?_
    rw [hsame (Or.inr hs'), hs']

theorem sched_dozes {d : ℕ} (hwake : ∀ t, Dozes d (s.threads t) ((updateSleepingThreads i s).threads t))
    (t : ThreadId) : Dozes d (s.threads t) ((finalState (sched i s)).threads t) := by
  by_cases hcons : Consistent (updateSleepingThreads i s) i
  · obtain ⟨s', hs', hcase⟩ := sched_of_consistent hcons
    rw [hs']
    rcases hcase with rfl | hhand
    · exact hwake t
    · exact (hwake t).of_same (hhand.dozes t)
  · obtain ⟨a, ha⟩ := sched_of_not_consistent hcons
    rw [ha]
    exact hwake t

theorem schedRunner_dozes {d : ℕ} (hwake : s.schedLock = false →
      ∀ t, Dozes d (s.threads t) ((updateSleepingThreads i { s with schedLock := true }).threads t))
    (t : ThreadId) : Dozes d (s.threads t) ((finalState (schedRunner i s)).threads t) := by
  rcases schedRunner_final i s with hsame | ⟨hlock, b, hfinal⟩
  · rw [hsame]
    exact .refl _ _
  · rw [hfinal]
    exact sched_dozes (s := { s with schedLock := true }) (hwake hlock) t

theorem schedRunner_dozes_pass (hl : s.threadList.Nodup) (t : ThreadId) :
    Dozes passUs (s.threads t) ((finalState (schedRunner i s)).threads t) := by
  refine schedRunner_dozes (fun _ u => ?_) t
  exact updateSleepingThreads_dozes (s := { s with schedLock := true }) hl u

/-- A pass that takes no time off. -/
theorem TakesNoTime.dozes (h : TakesNoTime i s) (t : ThreadId) :
    Dozes 0 (s.threads t) ((finalState (schedRunner i s)).threads t) := by
  refine schedRunner_dozes (fun hlock u => ?_) t
  have hsame : updateSleepingThreads i { s with schedLock := true } = { s with schedLock := true } := by
    rcases h with hid | hlock' | hawake
    · exact if_pos hid
    · rw [hlock] at hlock'
      cases hlock'
    · exact updateSleepingThreads_of_awake hawake
  rw [hsame]
  exact .refl _ _

/-- A thread that leaves its core was not asleep. -/
theorem leaveCore_dozes (ho : Owned s) (state : ThreadState) (record : Thread → Thread)
    (hrec : ∀ u, (record u).state = u.state) (t : ThreadId)
    (hother : (s.cores i).currentThread = some t → state ≠ .sleeping) :
    Dozes 0 (s.threads t) ((finalState (leaveCore i state record s)).threads t) := by
  rcases leaveCore_run i state record s with hrun | ⟨u, hu, hrun⟩
  · rw [hrun]
    exact .refl _ _
  · rw [hrun]
    change Dozes 0 (s.threads t) ((s.left i u state record).threads t)
    rw [left_threads]
    by_cases htu : t = u
    · subst htu
      rw [if_pos rfl]
      constructor
      · intro hs
        rw [hrec] at hs
        exact absurd hs (hother hu)
      · intro hs
        have := ho.taken i t hu
        rw [hs] at this
        rcases this with h | h <;> cases h
    · rw [if_neg htu]
      exact .refl _ _

theorem faulted_dozes (ho : Owned s) (t : ThreadId) : Dozes 0 (s.threads t) ((s.faulted i).threads t) := by
  rw [faulted_threads]
  split_ifs with hcur
  · constructor
    · exact fun h => nomatch h
    · intro hs
      have := ho.taken i t hcur
      rw [hs] at this
      rcases this with h | h <;> cases h
  · exact .refl _ _

end Doze

/-! ### Whole runs -/

/-- No sleeper has more time behind it than the timer has taken off. -/
structure Dormitory.Fair (m : Dormitory C) : Prop where
  owned : Owned m.sys
  once : m.sys.threadList.Nodup
  left : ∀ t nap, m.naps t = some nap → (m.sys.threads t).state = .sleeping →
    nap.timeMs * 1000 ≤ (m.sys.threads t).sleepTime + passUs * nap.invoked

/-- What an event keeps of the system. -/
def Settles (s s' : System C) : Prop := Owned s' ∧ s'.threadList = s.threadList

section Events

variable {i : C} {s s' : System C}

omit [DecidableEq C] in
theorem updateSleepingThreads_threadList (i : C) (s : System C) :
    (updateSleepingThreads i s).threadList = s.threadList := by
  have hfold : ∀ (l : List ThreadId) (s : System C),
      (l.foldl (fun s t => s.updateThread t wake) s).threadList = s.threadList := by
    intro l
    induction l with
    | nil => exact fun _ => rfl
    | cons u rest ih =>
      intro s
      rw [List.foldl_cons, ih]
      rfl
  unfold updateSleepingThreads
  split_ifs
  · rfl
  · exact hfold _ s

theorem Owned.settles_sched (ho : Owned s) (i : C) : Settles s (finalState (Sched.sched i s)) := by
  refine ⟨ho.sched i, ?_⟩
  rw [← updateSleepingThreads_threadList i s]
  by_cases hcons : Consistent (Sched.updateSleepingThreads i s) i
  · obtain ⟨t, ht, hcase⟩ := sched_of_consistent hcons
    rw [ht]
    rcases hcase with rfl | hhand
    · rfl
    · cases hhand <;> rfl
  · obtain ⟨a, ha⟩ := sched_of_not_consistent hcons
    rw [ha]
    rfl

theorem Owned.settles_schedRunner (ho : Owned s) (i : C) : Settles s (finalState (schedRunner i s)) := by
  rcases schedRunner_final i s with hsame | ⟨-, b, hfinal⟩
  · rw [hsame]
    exact ⟨ho, rfl⟩
  · have ho' : Owned { s with schedLock := true } := ho.of_keeps ⟨rfl, rfl⟩
    obtain ⟨howned, hlist⟩ := ho'.settles_sched i
    rw [hfinal]
    exact ⟨howned.of_keeps ⟨rfl, rfl⟩, hlist⟩

/-- The timer counts a tick, and asks for a pass once in eight of them. -/
theorem timer_final (i : C) (s : System C) :
    ¬Invokes s ∧ finalState (handler i .timer s) = s.ticked ∨
      Invokes s ∧ finalState (handler i .timer s) = finalState (schedRunner i s.ticked) := by
  have hrun : handler i .timer s = (do
      if (← get).globalTicks % 8 = 0 then schedAll i : SchedM C Unit) s.ticked := rfl
  rw [hrun, get_bind_run]
  unfold Invokes
  split_ifs with htick
  · unfold schedAll
    rw [get_bind_run]
    split_ifs with hproc hthread
    · exact Or.inl ⟨fun h => h.2.1 (List.isEmpty_iff.mp hproc), rfl⟩
    · exact Or.inl ⟨fun h => h.2.2 (List.isEmpty_iff.mp hthread), rfl⟩
    · refine Or.inr ⟨⟨htick, ?_, ?_⟩, rfl⟩
      · exact fun h => hproc (List.isEmpty_iff.mpr h)
      · exact fun h => hthread (List.isEmpty_iff.mpr h)
  · exact Or.inl ⟨fun h => htick h.1, rfl⟩

/-- The exit of a handler is a pass, if one is due, and a change of the flags. -/
theorem isrTail_final (i : C) (regs : ℕ) (s : System C) :
    ∃ t, (t = s ∨ (s.cores i).needResched = true ∧ t = finalState (schedRunner i s)) ∧
      (finalState (isrTail i regs s) = t ∨ finalState (isrTail i regs s) = (t.leaving i regs).2) := by
  rw [isrTail_run]
  split_ifs with hres
  · refine ⟨_, Or.inr ⟨hres, rfl⟩, ?_⟩
    cases schedRunner i s with
    | ok a t => exact Or.inr rfl
    | error e t => exact Or.inl rfl
  · exact ⟨s, Or.inl rfl, Or.inr rfl⟩

theorem leaving_settles (ho : Owned s) (i : C) (regs : ℕ) : Settles s (s.leaving i regs).2 := by
  unfold System.leaving
  split_ifs
  · refine ⟨ho.of_eq ?_ ?_ fun _ => ⟨rfl, Or.inl rfl⟩, rfl⟩
    · exact fun j => updateCore_currentThread s i (fun core => { core with nestedIrq := false }) j fun _ => rfl
    · exact fun j => updateCore_coreId s i (fun core => { core with nestedIrq := false }) j fun _ => rfl
  · refine ⟨ho.of_eq ?_ ?_ fun _ => ⟨rfl, Or.inl rfl⟩, rfl⟩
    · exact fun j => updateCore_currentThread s i (fun core => { core with inIrq := false }) j fun _ => rfl
    · exact fun j => updateCore_coreId s i (fun core => { core with inIrq := false }) j fun _ => rfl

theorem entered_settles (ho : Owned s) (i : C) (regs : ℕ) : Settles s (s.entered i regs) := by
  unfold System.entered
  split_ifs
  · refine ⟨ho.of_eq ?_ ?_ fun _ => ⟨rfl, Or.inl rfl⟩, rfl⟩
    · exact fun j => updateCore_currentThread s i (fun core => { core with nestedIrq := true }) j fun _ => rfl
    · exact fun j => updateCore_coreId s i (fun core => { core with nestedIrq := true }) j fun _ => rfl
  · refine ⟨ho.of_eq ?_ ?_ fun _ => ⟨rfl, Or.inl rfl⟩, rfl⟩
    · exact fun j => updateCore_currentThread s i (fun core => { core with inIrq := true, irqRegs := regs }) j
        fun _ => rfl
    · exact fun j => updateCore_coreId s i (fun core => { core with inIrq := true, irqRegs := regs }) j
        fun _ => rfl

theorem leaveCore_settles (ho : Owned s) (state : ThreadState) (record : Thread → Thread)
    (hcpu : ∀ t, (record t).cpu = t.cpu) : Settles s (finalState (leaveCore i state record s)) := by
  refine ⟨ho.leaveCore i state record hcpu, ?_⟩
  rcases leaveCore_run i state record s with hrun | ⟨u, -, hrun⟩
  · rw [hrun]
    rfl
  · rw [hrun]
    rfl

theorem faulted_settles (ho : Owned s) (i : C) : Settles s (s.faulted i) := by
  constructor
  · have := ho.vmmPageFault i
    rwa [vmmPageFault_run] at this
  · unfold System.faulted
    cases (s.cores i).currentThread <;> rfl

end Events

section Fairness

variable {m : Dormitory C} {i : C}

omit [DecidableEq C] in
/-- An event that takes `d` microseconds off is fair if the timer accounts for them. -/
theorem Dormitory.Fair.doze (h : m.Fair) {s : System C} {naps : ThreadId → Option Nap} {d : ℕ}
    (hset : Settles m.sys s) (hdoze : ∀ t, Dozes d (m.sys.threads t) (s.threads t))
    (hnaps : ∀ t nap, naps t = some nap → ∃ old, m.naps t = some old ∧ old.timeMs = nap.timeMs ∧
      passUs * old.invoked + d ≤ passUs * nap.invoked) :
    Dormitory.Fair ⟨s, naps⟩ ∧ NoEarlyWake m ⟨s, naps⟩ := by
  refine ⟨⟨hset.1, by rw [hset.2]; exact h.once, ?_⟩, ?_⟩
  · intro t nap hnap hs
    obtain ⟨old, hold, htime, hinv⟩ := hnaps t nap hnap
    obtain ⟨hs', hle⟩ := (hdoze t).1 hs
    calc nap.timeMs * 1000 = old.timeMs * 1000 := by rw [htime]
      _ ≤ (m.sys.threads t).sleepTime + passUs * old.invoked := h.left t old hold hs'
      _ ≤ (s.threads t).sleepTime + d + passUs * old.invoked := Nat.add_le_add_right hle _
      _ = (s.threads t).sleepTime + (passUs * old.invoked + d) := by rw [Nat.add_assoc, Nat.add_comm d]
      _ ≤ (s.threads t).sleepTime + passUs * nap.invoked := Nat.add_le_add_left hinv _
  · intro t nap hnap hs hne
    obtain ⟨old, hold, htime, hinv⟩ := hnaps t nap hnap
    have hle := (hdoze t).2 hs hne
    apply roundUp_le
    calc nap.timeMs * 1000 = old.timeMs * 1000 := by rw [htime]
      _ ≤ (m.sys.threads t).sleepTime + passUs * old.invoked := h.left t old hold hs
      _ ≤ d + passUs * old.invoked := Nat.add_le_add_right hle _
      _ = passUs * old.invoked + d := Nat.add_comm _ _
      _ ≤ passUs * nap.invoked := hinv

omit [DecidableEq C] in
/-- An event that takes nothing off and that the timer does not count. -/
theorem Dormitory.Fair.still (h : m.Fair) {s : System C} (hset : Settles m.sys s)
    (hdoze : ∀ t, Dozes 0 (m.sys.threads t) (s.threads t)) :
    Dormitory.Fair ⟨s, m.naps⟩ ∧ NoEarlyWake m ⟨s, m.naps⟩ :=
  h.doze hset hdoze fun _ nap hnap => ⟨nap, hnap, rfl, le_rfl⟩

theorem Dormitory.Fair.timer (h : m.Fair) (i : C) :
    (m.next (.handle i .timer)).Fair ∧ NoEarlyWake m (m.next (.handle i .timer)) := by
  have ho : Owned m.sys.ticked := h.owned.of_keeps ⟨rfl, rfl⟩
  simp only [Dormitory.next, SleepEvent.after, SleepEvent.note]
  rcases timer_final i m.sys with ⟨hno, hfinal⟩ | ⟨hinv, hfinal⟩
  · rw [hfinal, if_neg fun hc => hno hc.2]
    exact h.still ⟨ho, rfl⟩ fun _ => .refl _ _
  · rw [hfinal]
    have hset : Settles m.sys (finalState (schedRunner i m.sys.ticked)) := ho.settles_schedRunner i
    split_ifs with hcore
    · refine h.doze hset (schedRunner_dozes_pass (s := m.sys.ticked) h.once) fun t nap hnap => ?_
      obtain ⟨old, hold, rfl⟩ := Option.map_eq_some_iff.mp hnap
      exact ⟨old, hold, rfl, (Nat.mul_add_one passUs old.invoked).ge⟩
    · have hid : (m.sys.cores i).coreId ≠ 0 := fun hid => hcore ⟨hid, hinv⟩
      have hfree : TakesNoTime i m.sys.ticked := Or.inl hid
      exact h.still hset hfree.dozes

theorem Dormitory.Fair.sleep (h : m.Fair) (i : C) {timeMs : ℕ} (htime : timeMs * 1000 < 2 ^ 32) :
    (m.next (.handle i (.sleep timeMs))).Fair ∧ NoEarlyWake m (m.next (.handle i (.sleep timeMs))) := by
  have hset : Settles m.sys (finalState (handler i (.sleep timeMs) m.sys)) :=
    leaveCore_settles h.owned _ _ fun _ => rfl
  simp only [Dormitory.next, SleepEvent.after, SleepEvent.note]
  have hfree : (m.sys.cores i).currentThread = none ∨ (m.sys.cores i).inIrq = false →
      ∀ t, Dozes 0 (m.sys.threads t) ((finalState (handler i (.sleep timeMs) m.sys)).threads t) := by
    intro hfree t
    rw [handler, schedThreadSleep, leaveCore_of_free _ _ hfree]
    exact .refl _ _
  cases hc : (m.sys.cores i).currentThread with
  | none => exact h.still hset (hfree (Or.inl hc))
  | some u =>
    cases hirq : (m.sys.cores i).inIrq with
    | false => exact h.still hset (hfree (Or.inr hirq))
    | true =>
      have hawake : (m.sys.threads u).state ≠ .sleeping := by
        intro hs
        have := h.owned.taken i u hc
        rw [hs] at this
        rcases this with h | h <;> cases h
      have hother : ∀ t ≠ u, Dozes 0 (m.sys.threads t)
          ((finalState (handler i (.sleep timeMs) m.sys)).threads t) := by
        intro t htu
        rw [handler, schedThreadSleep]
        refine leaveCore_dozes h.owned _ _ ?_ t ?_
        · intro _
          rfl
        · intro ht
          rw [hc, Option.some.injEq] at ht
          exact absurd ht.symm htu
      have hcaller : (finalState (handler i (.sleep timeMs) m.sys)).threads u =
          { m.sys.threads u with
            state := .sleeping, regs := (m.sys.cores i).irqRegs, sleepTime := timeMs * 1000 } := by
        rw [handler, schedThreadSleep, leaveCore_of_current _ _ hc hirq]
        simp only [finalState]
        rw [left_threads, if_pos rfl, Nat.mod_eq_of_lt htime]
      refine ⟨⟨hset.1, by rw [hset.2]; exact h.once, ?_⟩, ?_⟩
      · intro t nap hnap hs
        dsimp only at hnap hs ⊢
        by_cases htu : t = u
        · subst htu
          rw [Function.update_self, Option.some.injEq] at hnap
          subst hnap
          rw [hcaller]
          exact Nat.le_add_right _ _
        · rw [Function.update_of_ne htu] at hnap
          obtain ⟨hs', hle⟩ := (hother t htu).1 hs
          exact (h.left t nap hnap hs').trans (Nat.add_le_add_right hle _)
      · intro t nap hnap hs hne
        dsimp only at hnap hs hne
        by_cases htu : t = u
        · subst htu
          exact absurd hs hawake
        · rw [Function.update_of_ne htu] at hnap
          have hle := (hother t htu).2 hs hne
          have := h.left t nap hnap hs
          rw [Nat.le_zero.mp hle, Nat.zero_add] at this
          exact roundUp_le this

theorem Dormitory.Fair.next (h : m.Fair) {e : SleepEvent C} (he : Punctual m.sys e) :
    (m.next e).Fair ∧ NoEarlyWake m (m.next e) := by
  cases e with
  | enter i regs =>
    refine h.still (entered_settles h.owned i regs) fun t => ?_
    have hthreads : (m.sys.entered i regs).threads = m.sys.threads := by
      unfold System.entered
      split_ifs <;> rfl
    rw [SleepEvent.after, hthreads]
    exact .refl _ _
  | handle i int =>
    cases int with
    | timer => exact h.timer i
    | ipi => exact h.still (h.owned.settles_schedRunner i) he.dozes
    | exit code =>
      simp only [Dormitory.next, SleepEvent.after, SleepEvent.note, handler, schedThreadExit]
      refine h.still (leaveCore_settles h.owned _ _ ?_) fun t => leaveCore_dozes h.owned _ _ ?_ t ?_
      · intro _
        rfl
      · intro _
        rfl
      · intro _
        decide
    | sleep timeMs => exact h.sleep i he
    | yield => exact h.still (h.owned.settles_schedRunner i) he.dozes
    | pageFault =>
      have hrun : finalState (handler i .pageFault m.sys) = m.sys.faulted i := by
        rw [handler, vmmPageFault_run]
        rfl
      have hnext : m.next (.handle i .pageFault) = ⟨m.sys.faulted i, m.naps⟩ := by
        rw [Dormitory.next, SleepEvent.after, hrun]
        rfl
      rw [hnext]
      exact h.still (faulted_settles h.owned i) (faulted_dozes h.owned)
  | leave i regs =>
    obtain ⟨t, hpass, hfinal⟩ := isrTail_final i regs m.sys
    have ht : Settles m.sys t ∧ ∀ u, Dozes 0 (m.sys.threads u) (t.threads u) := by
      rcases hpass with rfl | ⟨hres, rfl⟩
      · exact ⟨⟨h.owned, rfl⟩, fun _ => .refl _ _⟩
      · exact ⟨h.owned.settles_schedRunner i, (he hres).dozes⟩
    have hthreads : (t.leaving i regs).2.threads = t.threads := by
      unfold System.leaving
      split_ifs <;> rfl
    simp only [Dormitory.next, SleepEvent.after, SleepEvent.note]
    rcases hfinal with hfinal | hfinal
    · rw [hfinal]
      exact h.still ht.1 ht.2
    · obtain ⟨howned, hlist⟩ := leaving_settles ht.1.1 i regs
      rw [hfinal]
      refine h.still ⟨howned, hlist.trans ht.1.2⟩ fun u => ?_
      rw [hthreads]
      exact ht.2 u

/-- In every run in which the times fit and no pass but the timer's takes time off, a thread
that called `sched_thread_sleep` wakes up only after as many invocations by the timer on core 0
as its time takes. -/
theorem no_early_wake (init : System C) (hinit : ∀ i, (init.cores i).currentThread = none)
    (honce : init.threadList.Nodup)
    (hrun : Reaches (fun a b => ∃ e, Punctual a.sys e ∧ b = a.next e) ⟨init, fun _ => none⟩ m)
    {e : SleepEvent C} (he : Punctual m.sys e) : NoEarlyWake m (m.next e) := by
  have hstart : Dormitory.Fair (⟨init, fun _ => none⟩ : Dormitory C) := by
    refine ⟨⟨?_, ?_, ?_⟩, honce, fun _ _ h => nomatch h⟩
    all_goals
      intro i
      simp [hinit i]
  have hfair : m.Fair := by
    refine Reaches.invariant Dormitory.Fair ?_ hrun hstart
    rintro a b h ⟨e, he, rfl⟩
    exact (h.next he).1
  exact (hfair.next he).2

end Fairness

/-! One core with one thread, which gets the core and sleeps. -/

def beforeSleep : Dormitory Unit :=
  (((⟨oneCore, fun _ => none⟩ : Dormitory Unit).next (.handle () .ipi)).next (.handle () .ipi)).next (.enter () 3)

def asleep (timeMs : ℕ) : Dormitory Unit := beforeSleep.next (.handle () (.sleep timeMs))

/-- For 40 ms, of which `n` ticks have gone by. -/
def ticked (n : ℕ) : Dormitory Unit := (fun m => m.next (.handle () .timer))^[n] (asleep 40)

theorem ticked_reached (n : ℕ) :
    Reaches (fun a b => ∃ e, Punctual a.sys e ∧ b = a.next e) ⟨oneCore, fun _ => none⟩ (ticked n) := by
  induction n with
  | zero =>
    refine .head ⟨.handle () .ipi, ?_, rfl⟩ (.head ⟨.handle () .ipi, ?_, rfl⟩
      (.head ⟨.enter () 3, trivial, rfl⟩ (.single ⟨.handle () (.sleep 40), ?_, rfl⟩)))
    · exact Or.inr (Or.inr (by decide))
    · exact Or.inr (Or.inr (by decide))
    · exact (by decide : 40 * 1000 < 2 ^ 32)
  | succ n ih =>
    rw [ticked, Function.iterate_succ_apply']
    exact ih.tail ⟨.handle () .timer, trivial, rfl⟩

/-- The second invocation wakes the thread and gives it the core. -/
theorem no_early_wake_second_pass : NoEarlyWake (ticked 15) ((ticked 15).next (.handle () .timer)) ∧
    ((ticked 15).sys.threads 7).state = .sleeping ∧
    (((ticked 15).next (.handle () .timer)).sys.threads 7).state = .running :=
  ⟨no_early_wake oneCore (fun _ => rfl) (by decide) (ticked_reached 15) trivial,
    by decide +kernel, by decide +kernel⟩

/-- An interrupt from another core wakes the thread before the timer has run at all. -/
theorem ipi_wakes_early : ¬∀ m : Dormitory Unit,
    Reaches (fun a b => ∃ e, b = a.next e) ⟨oneCore, fun _ => none⟩ m → ∀ e, NoEarlyWake m (m.next e) := by
  intro hall
  have hrun : Reaches (fun a b => ∃ e, b = a.next e) (⟨oneCore, fun _ => none⟩ : Dormitory Unit) (asleep 1) :=
    .head ⟨.handle () .ipi, rfl⟩ (.head ⟨.handle () .ipi, rfl⟩ (.head ⟨.enter () 3, rfl⟩
      (.single ⟨.handle () (.sleep 1), rfl⟩)))
  have hearly := hall (asleep 1) hrun (.handle () .ipi) 7 ⟨1, 0⟩ (by rfl) (by rfl) (by decide)
  exact absurd hearly (by decide)

end JustKernel.Sched
