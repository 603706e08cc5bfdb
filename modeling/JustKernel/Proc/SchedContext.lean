import JustKernel.Proc.SchedAssertions

/-! The frames that cores and threads hand to each other. An interrupt leaves the
frame it interrupted in `irq_regs`; `save_thread` copies it to the thread that loses
the core, `load_thread` copies the frame of the thread that gets the core back. Within
one interrupt this may happen any number of times. What stays true throughout is that
`irq_regs` is the frame of the current thread as long as there is one, and that the
record of every other thread holds the frame it was last interrupted with. -/

namespace JustKernel.Sched

open Halting Runs

variable {C : Type} [DecidableEq C]

/-- The calls an interrupt may make. -/
inductive ContextCall
  | sched
  | exit (code : ℕ)
  | sleep (timeMs : ℕ)
  | yield

def ContextCall.action (i : C) : ContextCall → SchedM C Unit
  | .sched => Sched.sched i
  | .exit code => schedThreadExit i code
  | .sleep timeMs => schedThreadSleep i timeMs
  | .yield => schedThreadYield i

/-- The system, and for every thread the frame it was last interrupted with. -/
structure Traced (C : Type) where
  sys : System C
  last : ThreadId → ℕ

/-- The frame `regs` interrupts core `i`. -/
def Traced.interrupted (m : Traced C) (i : C) (regs : ℕ) : Traced C where
  sys := m.sys.entered i regs
  last := match (m.sys.cores i).currentThread with
    | some t => Function.update m.last t regs
    | none => m.last

/-- The end of an interrupt that is not nested. -/
def System.exited (s : System C) (i : C) : System C :=
  s.updateCore i fun core => { core with inIrq := false }

/-- Interrupts that do not nest, on any number of cores. -/
inductive ContextStep (m : Traced C) : Traced C → Prop
  | enter (i : C) (regs : ℕ) : (m.sys.cores i).inIrq = false → ContextStep m (m.interrupted i regs)
  | call (i : C) (c : ContextCall) : (m.sys.cores i).inIrq = true →
      ContextStep m ⟨finalState (c.action i m.sys), m.last⟩
  | leave (i : C) : (m.sys.cores i).inIrq = true →
      ContextStep m ⟨m.sys.exited i, m.last⟩

/-- Frames are where they belong. -/
structure Traced.Kept (m : Traced C) : Prop where
  owned : Owned m.sys
  inside : ∀ i t, (m.sys.cores i).inIrq = true → (m.sys.cores i).currentThread = some t →
    (m.sys.cores i).irqRegs = m.last t
  away : ∀ t, (∀ i, (m.sys.cores i).currentThread ≠ some t) → (m.sys.threads t).regs = m.last t

/-! ### The frames of threads that no core has -/

/-- A step leaves the saved frames of threads alone that core `i` does not have. -/
def SparesFrames (i : C) (s s' : System C) : Prop :=
  ∀ t, (s.cores i).currentThread ≠ some t → (s'.threads t).regs = (s.threads t).regs

omit [DecidableEq C] in
theorem updateSleepingThreads_regs (i : C) (s : System C) (t : ThreadId) :
    ((updateSleepingThreads i s).threads t).regs = (s.threads t).regs := by
  have hwake : ∀ u : Thread, (wake u).regs = u.regs := by
    intro u
    unfold wake
    split_ifs <;> rfl
  have hfold : ∀ (l : List ThreadId) (s : System C),
      ((l.foldl (fun s t => s.updateThread t wake) s).threads t).regs = (s.threads t).regs := by
    intro l
    induction l with
    | nil => exact fun _ => rfl
    | cons u rest ih =>
      intro s
      rw [List.foldl_cons, ih, updateThread_threads]
      split_ifs with htu
      · rw [hwake, htu]
      · rfl
  unfold updateSleepingThreads
  split_ifs
  · rfl
  · exact hfold _ s

section Hand

variable {s s' : System C} {i : C} {last : ThreadId → ℕ}

theorem HandOver.sparesFrames (hs : HandOver i s s') : SparesFrames i s s' := by
  intro u hu
  cases hs with
  | switch c t hc hrun ht hstate =>
    have huc : u ≠ c := by
      rintro rfl
      exact hu hc
    rw [loaded_threads, saved_threads, saved_threads, if_neg huc]
    split_ifs <;> simp_all
  | load t hc ht hstate =>
    rw [loaded_threads]
    split_ifs with hut
    · rw [hut]
    · rfl
  | idle hc => rfl

omit [DecidableEq C] in
/-- The rule for steps that change no core. -/
theorem Traced.Kept.of_cores (h : Traced.Kept ⟨s, last⟩) (hcores : s'.cores = s.cores)
    (hthreads : ∀ t, Woken (s.threads t) (s'.threads t))
    (hregs : ∀ t, (s'.threads t).regs = (s.threads t).regs) : Traced.Kept ⟨s', last⟩ := by
  refine ⟨h.owned.of_eq (fun j => by rw [hcores]) (fun j => by rw [hcores]) hthreads, ?_, ?_⟩
  · intro j t hirq hcur
    simp only [hcores] at hirq hcur ⊢
    exact h.inside j t hirq hcur
  · intro t hcur
    simp only [hcores] at hcur
    rw [hregs t]
    exact h.away t hcur

theorem loaded_irqRegs (s : System C) (i : C) (t : ThreadId) :
    ((s.loaded i t).cores i).irqRegs = (s.threads t).regs := by
  rw [System.loaded, updateThread_cores, updateCore_cores, if_pos rfl]

/-- A thread that is loaded with its last frame puts that frame into `irq_regs`. -/
theorem loaded_inside {t : ThreadId}
    (hinside : ∀ j u, (s.cores j).inIrq = true → (s.cores j).currentThread = some u → (s.cores j).irqRegs = last u)
    (ht : (s.threads t).regs = last t) (j : C) (u : ThreadId) (hj : ((s.loaded i t).cores j).inIrq = true)
    (hcur : ((s.loaded i t).cores j).currentThread = some u) : ((s.loaded i t).cores j).irqRegs = last u := by
  by_cases hji : j = i
  · subst hji
    simp only [loaded_currentThread, if_true, Option.some.injEq] at hcur
    rw [loaded_irqRegs, ht, hcur]
  · simp only [loaded_core _ _ _ _ hji] at hj hcur ⊢
    exact hinside j u hj hcur

/-- A pass that hands the core over. -/
theorem Traced.Kept.handOver (h : Traced.Kept ⟨s, last⟩) (hirq : (s.cores i).inIrq = true)
    (hs : HandOver i s s') : Traced.Kept ⟨s', last⟩ := by
  have howned : Owned s' := h.owned.handOver hs
  have hspares := hs.sparesFrames
  cases hs with
  | switch c t hc hrun ht hstate =>
    have htc : t ≠ c := by
      rintro rfl
      rw [ht.1] at hrun
      cases hrun
    refine ⟨howned, loaded_inside (fun j u hj hcur => ?_) ?_, fun u hcur => ?_⟩
    · simp only [saved_cores] at hj hcur ⊢
      exact h.inside j u hj hcur
    · rw [saved_threads, if_neg htc]
      exact h.away t (h.owned.not_current ht.1)
    · simp only [loaded_currentThread, saved_cores] at hcur
      have hut : u ≠ t := by
        rintro rfl
        exact hcur i (if_pos rfl)
      by_cases huc : u = c
      · subst huc
        simp only [loaded_threads, if_neg hut, saved_threads, if_true]
        exact h.inside i u hirq hc
      · rw [hspares u (by simpa [hc] using Ne.symm huc)]
        refine h.away u fun j hj => ?_
        by_cases hji : j = i
        · subst hji
          rw [hc, Option.some.injEq] at hj
          exact huc hj.symm
        · exact hcur j (by rw [if_neg hji]; exact hj)
  | load t hc ht hstate =>
    refine ⟨howned, loaded_inside h.inside (h.away t (h.owned.not_current ht.1)), fun u hcur => ?_⟩
    · simp only [loaded_currentThread] at hcur
      rw [hspares u (by simp [hc])]
      refine h.away u fun j hj => ?_
      by_cases hji : j = i
      · subst hji
        rw [hc] at hj
        cases hj
      · exact hcur j (by rw [if_neg hji]; exact hj)
  | idle hc =>
    refine ⟨howned, ?_, ?_⟩
    · intro j u hj hcur
      simp only [idled_currentThread] at hcur
      by_cases hji : j = i
      · subst hji
        rw [hc] at hcur
        cases hcur
      · simp only [System.idled, updateCore_cores, if_neg hji] at hj ⊢
        exact h.inside j u hj hcur
    · intro u hcur
      simp only [idled_currentThread] at hcur
      exact h.away u hcur

theorem Traced.Kept.sched (h : Traced.Kept ⟨s, last⟩) (hirq : (s.cores i).inIrq = true) :
    Traced.Kept ⟨finalState (Sched.sched i s), last⟩ ∧ SparesFrames i s (finalState (Sched.sched i s)) := by
  have h₁ : Traced.Kept ⟨updateSleepingThreads i s, last⟩ :=
    h.of_cores (updateSleepingThreads_cores i s) (updateSleepingThreads_threads i s)
      (updateSleepingThreads_regs i s)
  have hspares : SparesFrames i s (updateSleepingThreads i s) :=
    fun t _ => updateSleepingThreads_regs i s t
  have hirq₁ : ((updateSleepingThreads i s).cores i).inIrq = true := by
    rw [updateSleepingThreads_cores]
    exact hirq
  by_cases hcons : Consistent (updateSleepingThreads i s) i
  · obtain ⟨t, ht, hcase⟩ := sched_of_consistent hcons
    rw [ht]
    rcases hcase with rfl | hhand
    · exact ⟨h₁, hspares⟩
    · refine ⟨h₁.handOver hirq₁ hhand, fun u hu => ?_⟩
      rw [← hspares u hu]
      exact hhand.sparesFrames u (by rw [updateSleepingThreads_cores]; exact hu)
  · obtain ⟨a, ha⟩ := sched_of_not_consistent hcons
    rw [ha]
    exact ⟨h₁, hspares⟩

theorem Traced.Kept.schedRunner (h : Traced.Kept ⟨s, last⟩) (hirq : (s.cores i).inIrq = true) :
    Traced.Kept ⟨finalState (Sched.schedRunner i s), last⟩ ∧
      SparesFrames i s (finalState (Sched.schedRunner i s)) := by
  rcases schedRunner_final i s with hsame | ⟨-, b, hfinal⟩
  · rw [hsame]
    exact ⟨h, fun _ _ => rfl⟩
  · have h' : Traced.Kept ⟨{ s with schedLock := true }, last⟩ :=
      h.of_cores rfl (fun _ => ⟨rfl, Or.inl rfl⟩) fun _ => rfl
    obtain ⟨hkept, hspares⟩ := h'.sched (i := i) hirq
    rw [hfinal]
    exact ⟨hkept.of_cores rfl (fun _ => ⟨rfl, Or.inl rfl⟩) fun _ => rfl, hspares⟩

theorem Traced.Kept.leaveCore (h : Traced.Kept ⟨s, last⟩) (hirq : (s.cores i).inIrq = true)
    (state : ThreadState) (record : Thread → Thread) (hcpu : ∀ t, (record t).cpu = t.cpu)
    (hrec : ∀ t, (record t).regs = t.regs) :
    Traced.Kept ⟨finalState (Sched.leaveCore i state record s), last⟩ ∧
      SparesFrames i s (finalState (Sched.leaveCore i state record s)) := by
  have howned := h.owned.leaveCore i state record hcpu
  rcases leaveCore_run i state record s with hrun | ⟨t, ht, hrun⟩
  · rw [hrun]
    exact ⟨h, fun _ _ => rfl⟩
  · rw [hrun] at howned ⊢
    simp only [finalState] at howned ⊢
    have hspares : SparesFrames i s (s.left i t state record) := by
      intro u hu
      have hut : u ≠ t := by
        rintro rfl
        exact hu ht
      rw [left_threads, if_neg hut]
    refine ⟨⟨howned, ?_, ?_⟩, hspares⟩
    · intro j u hj hcur
      simp only [left_currentThread] at hcur
      by_cases hji : j = i
      · rw [if_pos hji] at hcur
        cases hcur
      · rw [if_neg hji] at hcur
        simp only [System.left, System.idled, updateCore_cores, if_neg hji] at hj ⊢
        exact h.inside j u hj hcur
    · intro u hcur
      simp only [left_currentThread] at hcur
      by_cases hut : u = t
      · subst hut
        simp only [left_threads, if_true, hrec]
        exact h.inside i u hirq ht
      · rw [hspares u (by simpa [ht] using Ne.symm hut)]
        refine h.away u fun j hj => ?_
        by_cases hji : j = i
        · subst hji
          rw [ht, Option.some.injEq] at hj
          exact hut hj.symm
        · exact hcur j (by rw [if_neg hji]; exact hj)

theorem Traced.Kept.action (h : Traced.Kept ⟨s, last⟩) (hirq : (s.cores i).inIrq = true) (c : ContextCall) :
    Traced.Kept ⟨finalState (c.action i s), last⟩ ∧ SparesFrames i s (finalState (c.action i s)) := by
  cases c with
  | sched => exact h.sched hirq
  | exit code => exact h.leaveCore hirq _ _ (fun _ => rfl) fun _ => rfl
  | sleep timeMs => exact h.leaveCore hirq _ _ (fun _ => rfl) fun _ => rfl
  | yield => exact h.schedRunner hirq

end Hand

/-! ### Whole runs -/

omit [DecidableEq C] in
theorem interrupted_last [DecidableEq C] (m : Traced C) (i : C) (regs : ℕ) (t : ThreadId) :
    (m.interrupted i regs).last t = if (m.sys.cores i).currentThread = some t then regs else m.last t := by
  unfold Traced.interrupted
  cases hc : (m.sys.cores i).currentThread with
  | none => simp
  | some c =>
    by_cases htc : t = c
    · simp [htc]
    · simp [htc, Ne.symm htc]

theorem Traced.Kept.interrupted {m : Traced C} (h : m.Kept) (i : C) (regs : ℕ)
    (hirq : (m.sys.cores i).inIrq = false) : (m.interrupted i regs).Kept := by
  have hsys : (m.interrupted i regs).sys =
      m.sys.updateCore i fun core => { core with inIrq := true, irqRegs := regs } := by
    simp [Traced.interrupted, System.entered, hirq]
  have hcur : ∀ j, ((m.interrupted i regs).sys.cores j).currentThread = (m.sys.cores j).currentThread :=
    entered_currentThread m.sys i regs
  refine ⟨h.owned.of_eq hcur ?_ ?_, ?_, ?_⟩
  · intro j
    rw [hsys]
    exact updateCore_coreId m.sys i _ j fun _ => rfl
  · intro t
    rw [hsys]
    exact ⟨rfl, Or.inl rfl⟩
  · intro j t hj ht
    rw [hcur] at ht
    rw [interrupted_last]
    by_cases hji : j = i
    · subst hji
      rw [if_pos ht, hsys, updateCore_cores, if_pos rfl]
    · rw [if_neg fun hi => hji (h.owned.single j i t ht hi)]
      rw [hsys, updateCore_cores, if_neg hji] at hj ⊢
      exact h.inside j t hj ht
  · intro t ht
    simp only [hcur] at ht
    rw [interrupted_last, if_neg (ht i), hsys]
    exact h.away t ht

theorem Traced.Kept.step {m m' : Traced C} (h : m.Kept) (hstep : ContextStep m m') :
    m'.Kept ∧ ∀ t, (∀ i, (m.sys.cores i).currentThread ≠ some t) →
      (m'.sys.threads t).regs = (m.sys.threads t).regs := by
  cases hstep with
  | enter i regs hirq =>
    refine ⟨h.interrupted i regs hirq, fun t _ => ?_⟩
    simp [Traced.interrupted, System.entered, hirq]
  | call i c hirq =>
    obtain ⟨hkept, hspares⟩ := @Traced.Kept.action C _ m.sys i m.last h hirq c
    exact ⟨hkept, fun t ht => hspares t (ht i)⟩
  | leave i hirq =>
    have hcur : ∀ j, ((m.sys.exited i).cores j).currentThread = (m.sys.cores j).currentThread :=
      fun j => updateCore_currentThread m.sys i _ j fun _ => rfl
    refine ⟨⟨h.owned.of_eq hcur ?_ fun _ => ⟨rfl, Or.inl rfl⟩, ?_, ?_⟩, fun _ _ => rfl⟩
    · exact fun j => updateCore_coreId m.sys i (fun core => { core with inIrq := false }) j fun _ => rfl
    · intro j t hj ht
      rw [hcur] at ht
      by_cases hji : j = i
      · simp [System.exited, updateCore_cores, hji] at hj
      · simp only [System.exited, updateCore_cores, if_neg hji] at hj ⊢
        exact h.inside j t hj ht
    · intro t ht
      simp only [hcur] at ht
      exact h.away t ht

/-- From a system in which no core has a thread yet: in every interrupt, `irq_regs` is the frame
that the current thread was last interrupted with, so that a thread that gets a core back goes
on where it was; and no step changes the saved frame of a thread that no core has. -/
theorem context_integrity (init : System C) (hinit : ∀ i, (init.cores i).currentThread = none)
    (m : Traced C) (hrun : Reaches ContextStep ⟨init, fun t => (init.threads t).regs⟩ m) :
    (∀ i t, (m.sys.cores i).inIrq = true → (m.sys.cores i).currentThread = some t →
      (m.sys.cores i).irqRegs = m.last t) ∧
    ∀ m', ContextStep m m' → ∀ t, (∀ i, (m.sys.cores i).currentThread ≠ some t) →
      (m'.sys.threads t).regs = (m.sys.threads t).regs := by
  have hstart : Traced.Kept ⟨init, fun t => (init.threads t).regs⟩ := by
    refine ⟨⟨?_, ?_, ?_⟩, ?_, fun _ _ => rfl⟩
    all_goals
      intro i
      simp [hinit i]
  have hkept : m.Kept :=
    Reaches.invariant Traced.Kept (fun _ _ h hstep => (h.step hstep).1) hrun hstart
  exact ⟨hkept.inside, fun _ hstep => (hkept.step hstep).2⟩

/-- Thread 7 gets core `true` in its second interrupt and is interrupted with the frame 55; it
falls asleep, the core idles, and two passes on core `false` wake it and give it that core. -/
theorem context_integrity_two_cores : ∃ m : Traced Bool,
    Reaches ContextStep ⟨{ twoCores with threads := fun t => ⟨t, .stopped, -1, 0, 0, 0, 0⟩, threadList := [7] },
      fun t => t⟩ m ∧
    (m.sys.cores false).currentThread = some 7 ∧ (m.sys.cores false).irqRegs = 55 := by
  have hrun : Reaches ContextStep
      ⟨{ twoCores with threads := fun t => ⟨t, .stopped, -1, 0, 0, 0, 0⟩, threadList := [7] }, fun t => t⟩ _ :=
    .head (.enter true 50 rfl) (.head (.call true .sched rfl) (.head (.call true .sched rfl)
      (.head (.leave true rfl) (.head (.enter true 55 rfl) (.head (.call true (.sleep 1) rfl)
        (.head (.enter false 60 rfl) (.head (.call false .sched rfl) (.single (.call false .sched rfl)))))))))
  exact ⟨_, hrun, rfl, (context_integrity _ (fun _ => rfl) _ hrun).1 false 7 rfl rfl⟩

end JustKernel.Sched
