import JustKernel.Proc.SchedSmpContext

/-! Kernel stacks at the grain of single memory accesses. The handler of an interrupt runs on the
stack of the thread that it interrupted until `isr_common` takes the frame to go back to, and that
is after `_sched_lock` has been freed, or after `sched_thread_sleep` has given the thread up without
the lock. In between the thread can be picked by another core and run there, on the same stack. That
is the only way for a stack to have two cores on it: in every run in which no pass gives a core a
thread whose stack another core has not left, every stack has one. -/

namespace JustKernel.SchedSmp

open Runs Sched

variable {C : Type} [DecidableEq C]

/-- The system, and for every core the thread on whose stack it is; none is the stack of the idle
thread or of the boot. -/
structure Grounded (C : Type) where
  smp : Smp C
  ground : C → Option ThreadId

/-- A core changes the stack at the end of `isr_handler`. -/
def Grounded.advance (m : Grounded C) (i : C) : Grounded C where
  smp := m.smp.advance i
  ground := if m.smp.pos i = .leave then Function.update m.ground i (m.smp.sys.cores i).currentThread
    else m.ground

/-- The thread that `i` is about to get as its current one has its stack to itself. -/
def Grounded.Deserted (m : Grounded C) (i : C) : Prop :=
  ∀ new j, m.smp.pos i = .loadRegs new → j ≠ i → m.ground j ≠ some new

/-- What can happen next; when it is `guarded`, no core gets a thread on whose stack another one
still is. -/
inductive GroundedStep (guarded : Prop) (m : Grounded C) : Grounded C → Prop
  | interrupt (i : C) (int : Interrupt) (regs : ℕ) : m.smp.pos i = .away →
      GroundedStep guarded m ⟨m.smp.interrupted i int regs, m.ground⟩
  | panicInterrupt (i : C) (regs : ℕ) : m.smp.pos i = .away →
      GroundedStep guarded m ⟨m.smp.panicked i regs, m.ground⟩
  | call (i : C) (job : Job) : m.smp.pos i = .away →
      GroundedStep guarded m ⟨m.smp.goto i (.runLock job), m.ground⟩
  | advance (i : C) : (guarded → m.Deserted i) → GroundedStep guarded m (m.advance i)

theorem GroundedStep.step {guarded : Prop} {m m' : Grounded C} (h : GroundedStep guarded m m') :
    Step True m.smp m'.smp := by
  cases h with
  | interrupt i int regs hp => exact .interrupt i int regs hp fun _ _ => trivial
  | panicInterrupt i regs hp => exact .panicInterrupt i regs hp
  | call i job hp => exact .call i job hp
  | advance i _ => exact .advance i

/-- The core has the thread, or is about to have it. -/
def Smp.Has (s : Smp C) (i : C) (t : ThreadId) : Prop := s.owned i = some t ∨ s.pos i = .loadState t

/-- Outside handlers: the thread's own code, or `sched_run_thread` or `sched_run_proc` under it. -/
@[simp] def Position.calling : Position → Bool
  | .away | .runLock _ | .runBody _ | .runTest _ _ | .runLink _ _ _ | .runUnlock => true
  | _ => false

section Has

variable {s s' : Smp C} {i j : C} {t : ThreadId} {mayFault : Prop} {pins : ThreadId → ℤ} {ids : C → ℕ}

omit [DecidableEq C] in
/-- A core that is out of the scheduler has its current thread to itself. -/
theorem Smp.Sound.has_inj (h : s.Sound mayFault pins ids) (hi : s.owned i = some t) (hj : s.Has j t) : i = j := by
  rcases hj with hj | hj
  · exact h.owned_inj hi hj
  · exact absurd (by rw [hj]; rfl) (h.owned_ne_choice hi j)

omit [DecidableEq C] in
theorem Frame.has (hf : Frame i s s') (hj : j ≠ i) (h : s'.Has j t) : s.Has j t := by
  unfold Smp.Has at *
  rwa [hf.owned hj, hf.pos j hj] at h

theorem decide_current (s : Smp C) (i : C) (new : Option ThreadId) :
    ((s.decide i new).sys.cores i).currentThread = (s.sys.cores i).currentThread := by
  unfold Smp.decide
  split
  · split
    · simp
    · split_ifs <;> simp
  · split_ifs <;> simp
  · split_ifs <;> simp [System.idled, updateCore_cores]
  · simp

theorem decide_pos (s : Smp C) (i : C) (new : Option ThreadId) : (s.decide i new).pos i ≠ .loadState t := by
  unfold Smp.decide
  split
  · split
    · simp
    · split_ifs <;> cases new <;> simp
  · split_ifs <;> cases new <;> simp
  · split_ifs <;> simp
  · simp

theorem decide_calling (s : Smp C) (i : C) (new : Option ThreadId) : ((s.decide i new).pos i).calling = false := by
  unfold Smp.decide
  split
  · split
    · simp
    · split_ifs <;> cases new <;> simp
  · split_ifs <;> cases new <;> simp
  · split_ifs <;> simp
  · simp

/-- A core gets a thread at one place only. -/
theorem advance_current (h : ((s.advance i).sys.cores i).currentThread = some t) :
    (s.sys.cores i).currentThread = some t ∨ s.pos i = .loadRegs t := by
  cases hp : s.pos i with
  | loadRegs new => exact Or.inr (by simpa [Smp.advance, hp, updateCore_cores] using h)
  | switch new => exact Or.inl (by simpa [Smp.advance, hp, decide_current] using h)
  | fault =>
    cases hc : (s.sys.cores i).currentThread with
    | none => simp [Smp.advance, hp, hc, updateCore_cores] at h
    | some u => exact Or.inl (by simpa [Smp.advance, hp, hc, updateCore_cores] using h)
  | quitRecord u q => simp [Smp.advance, hp, updateCore_cores, System.idled] at h
  | tail | tryLock | runLock job =>
    simp only [Smp.advance, hp] at h
    split_ifs at h <;> exact Or.inl (by simpa using h)
  | runBody job =>
    cases job with
    | thread u => exact Or.inl (by simpa [Smp.advance, hp] using h)
    | proc p =>
      by_cases hempty : s.sys.procThreads p = [] <;> exact Or.inl (by simpa [Smp.advance, hp, hempty] using h)
  | wake l | runTest a l => cases l <;> exact Or.inl (by simpa [Smp.advance, hp] using h)
  | pick l picked minPriority => cases l <;> exact Or.inl (by simpa [Smp.advance, hp] using h)
  | _ => exact Or.inl (by simpa [Smp.advance, hp, updateCore_cores, System.idled] using h)

theorem advance_pos_loadState (h : (s.advance i).pos i = .loadState t) : s.pos i = .loadRegs t := by
  cases hp : s.pos i with
  | loadRegs new => simpa [Smp.advance, hp] using h
  | away | failed a | halted => simp [Smp.advance, hp] at h
  | timer =>
    simp only [Smp.advance, hp, goto_pos_self] at h
    rcases afterTick_cases { s.sys with globalTicks := (s.sys.globalTicks + 1) % 2 ^ 32 } with hto | hto <;>
      · rw [hto] at h
        cases h
  | tryLock =>
    rcases afterRunner_cases s i with hto | hto <;>
      · simp only [Smp.advance, hp, hto] at h
        split_ifs at h <;> simp at h
  | unlock => rcases afterRunner_cases s i with hto | hto <;> simp [Smp.advance, hp, hto] at h
  | switch new =>
    simp only [Smp.advance, hp] at h
    exact absurd h (decide_pos s i new)
  | tail | pass | runLock job =>
    simp only [Smp.advance, hp] at h
    split_ifs at h <;> simp [hp] at h
  | runBody job =>
    cases job with
    | thread u => simp [Smp.advance, hp] at h
    | proc p => by_cases hempty : s.sys.procThreads p = [] <;> simp [Smp.advance, hp, hempty] at h
  | wake l =>
    cases l with
    | nil => simp [Smp.advance, hp] at h
    | cons u l => simp only [Smp.advance, hp, goto_pos_self] at h; split_ifs at h
  | runTest a l =>
    cases l with
    | nil => simp [Smp.advance, hp] at h
    | cons u l => simp only [Smp.advance, hp, goto_pos_self] at h; split_ifs at h
  | wakeTest u l => simp only [Smp.advance, hp, goto_pos_self] at h; split_ifs at h
  | pick l picked minPriority =>
    cases l with
    | nil => simp [Smp.advance, hp] at h
    | cons u l => simp only [Smp.advance, hp, goto_pos_self] at h; split_ifs at h
  | _ => simp [Smp.advance, hp] at h

/-- A core comes back to its thread from `sched_run_thread`, `sched_run_proc` or a handler only. -/
theorem advance_calling (h : ((s.advance i).pos i).calling = true) (hleave : s.pos i ≠ .leave) :
    (s.pos i).calling = true ∧ ((s.advance i).sys.cores i).currentThread = (s.sys.cores i).currentThread := by
  cases hp : s.pos i with
  | away | runLink u a l | runUnlock => simp [Smp.advance, hp]
  | leave => exact absurd hp hleave
  | failed a | halted => simp [Smp.advance, hp] at h
  | timer =>
    simp only [Smp.advance, hp, goto_pos_self] at h
    rcases afterTick_cases { s.sys with globalTicks := (s.sys.globalTicks + 1) % 2 ^ 32 } with hto | hto <;>
      · rw [hto] at h
        cases h
  | tryLock =>
    rcases afterRunner_cases s i with hto | hto <;>
      · simp only [Smp.advance, hp, hto] at h
        split_ifs at h <;> simp at h
  | unlock => rcases afterRunner_cases s i with hto | hto <;> simp [Smp.advance, hp, hto] at h
  | switch new =>
    simp only [Smp.advance, hp] at h
    rw [decide_calling] at h
    cases h
  | tail | pass =>
    simp only [Smp.advance, hp] at h
    split_ifs at h <;> simp at h
  | runLock job =>
    simp only [Smp.advance, hp]
    split_ifs <;> simp
  | runBody job =>
    cases job with
    | thread u => simp [Smp.advance, hp]
    | proc p => by_cases hempty : s.sys.procThreads p = [] <;> simp [Smp.advance, hp, hempty]
  | wake l =>
    cases l with
    | nil => simp [Smp.advance, hp] at h
    | cons u l => simp only [Smp.advance, hp, goto_pos_self] at h; split_ifs at h <;> cases h
  | runTest a l => cases l <;> simp [Smp.advance, hp]
  | wakeTest u l => simp only [Smp.advance, hp, goto_pos_self] at h; split_ifs at h <;> cases h
  | pick l picked minPriority =>
    cases l with
    | nil => simp [Smp.advance, hp] at h
    | cons u l => simp only [Smp.advance, hp, goto_pos_self] at h; split_ifs at h <;> cases h
  | _ => simp [Smp.advance, hp] at h

theorem has_advance (hok : s.Ok mayFault) (h : (s.advance i).Has i t) : s.Has i t ∨ s.pos i = .loadRegs t := by
  have hset := (hok i).1
  rcases h with hown | hload
  · unfold Smp.owned at hown
    split_ifs at hown with hbetween
    rcases advance_current hown with hcur | hload
    · cases hp : s.pos i with
      | quitRegs u q => simp [Smp.advance, hp] at hbetween
      | quitRecord u q => simp [Smp.advance, hp, System.idled, updateCore_cores] at hown
      | saveRegs u new => simp [Smp.advance, hp] at hbetween
      | loadRegs new => simp [Smp.advance, hp] at hbetween
      | loadState new =>
        rw [hp] at hset
        obtain rfl : new = t := by simpa [hcur] using hset.1.symm
        exact Or.inl (Or.inr hp)
      | _ => exact Or.inl (Or.inl (by simp [Smp.owned, hp, hcur]))
    · exact Or.inr hload
  · exact Or.inr (advance_pos_loadState hload)

end Has

/-! ### Whole runs -/

/-- The stacks of the threads that a core has are its own, and outside a handler it is on the stack
of its thread. -/
structure Grounded.Apart (m : Grounded C) : Prop where
  calling : ∀ i, (m.smp.pos i).calling = true → m.ground i = (m.smp.sys.cores i).currentThread
  has : ∀ i j t, m.smp.Has i t → j ≠ i → m.ground j ≠ some t
  single : ∀ i j t, m.ground i = some t → m.ground j = some t → i = j

section Runs

variable {m m' : Grounded C} {s : Smp C} {i j : C} {t : ThreadId} {pins : ThreadId → ℤ} {ids : C → ℕ}

omit [DecidableEq C] in
theorem handlerStart_calling (core : Core) (int : Interrupt) : (handlerStart core int).calling = false := by
  cases int with
  | timer | ipi | yield | pageFault => simp [handlerStart]
  | exit code | sleep timeMs =>
    unfold handlerStart
    cases core.currentThread <;> simp

/-- A step at the end of which the core is on the stack it was on. -/
theorem Grounded.Apart.stay (h : m.Apart) (hf : Frame i m.smp s)
    (hcalling : (s.pos i).calling = true →
      (m.smp.pos i).calling = true ∧ (s.sys.cores i).currentThread = (m.smp.sys.cores i).currentThread)
    (hhas : ∀ t j, s.Has i t → j ≠ i → m.ground j ≠ some t) : (⟨s, m.ground⟩ : Grounded C).Apart where
  calling k hk := by
    by_cases hki : k = i
    · subst hki
      obtain ⟨hold, hcur⟩ := hcalling hk
      exact (h.calling k hold).trans hcur.symm
    · have hold := h.calling k ((congrArg Position.calling (hf.pos k hki)).symm.trans hk)
      exact hold.trans (congrArg Core.currentThread (hf.cores k hki)).symm
  has k j u hk hj := by
    by_cases hki : k = i
    · subst hki
      exact hhas u j hk hj
    · exact h.has k j u (hf.has hki hk) hj
  single := h.single

/-- At the end of its handler a core goes over to the stack of its thread. -/
theorem Grounded.Apart.leave (h : m.Apart) (hsound : m.smp.Sound True pins ids) (hp : m.smp.pos i = .leave) :
    (m.advance i).Apart := by
  have hf := advance_frame m.smp i
  have hown : m.smp.owned i = (m.smp.sys.cores i).currentThread := by simp [Smp.owned, hp]
  have hcur : ((m.smp.advance i).sys.cores i).currentThread = (m.smp.sys.cores i).currentThread := by
    simp [Smp.advance, hp, updateCore_cores]
  have hground : (m.advance i).ground = Function.update m.ground i (m.smp.sys.cores i).currentThread := if_pos hp
  constructor
  · intro k hk
    rw [hground]
    by_cases hki : k = i
    · subst hki
      rw [Function.update_self]
      exact hcur.symm
    · rw [Function.update_of_ne hki]
      have hold := h.calling k ((congrArg Position.calling (hf.pos k hki)).symm.trans hk)
      exact hold.trans (congrArg Core.currentThread (hf.cores k hki)).symm
  · intro k j u hk hj hgj
    have hold : m.smp.Has k u := by
      by_cases hki : k = i
      · subst hki
        rcases has_advance hsound.1 hk with hhas | hload
        · exact hhas
        · rw [hp] at hload
          cases hload
      · exact hf.has hki hk
    rw [hground] at hgj
    by_cases hji : j = i
    · subst hji
      rw [Function.update_self] at hgj
      exact hj (hsound.has_inj (hown.trans hgj) hold)
    · rw [Function.update_of_ne hji] at hgj
      exact h.has k j u hold hj hgj
  · intro k j u hk hj
    rw [hground] at hk hj
    by_cases hki : k = i <;> by_cases hji : j = i
    · rw [hki, hji]
    · subst hki
      rw [Function.update_self] at hk
      rw [Function.update_of_ne hji] at hj
      exact absurd hj (h.has k j u (Or.inl (hown.trans hk)) hji)
    · subst hji
      rw [Function.update_self] at hj
      rw [Function.update_of_ne hki] at hk
      exact absurd hk (h.has j k u (Or.inl (hown.trans hj)) hki)
    · rw [Function.update_of_ne hki] at hk
      rw [Function.update_of_ne hji] at hj
      exact h.single k j u hk hj

theorem GroundedStep.apart (hst : GroundedStep True m m') (h : m.Apart) (hsound : m.smp.Sound True pins ids) :
    m'.Apart := by
  cases hst with
  | interrupt i int regs hp =>
    obtain ⟨-, hbetween, -, -⟩ := handlerStart_outside (m.smp.sys.cores i) int
    apply h.stay (((Frame.refl i m.smp).writeCore (by intro; rfl)).goto _)
    · intro hcalling
      rw [goto_pos_self, handlerStart_calling] at hcalling
      cases hcalling
    · intro u j hu
      apply h.has i j u
      rcases hu with hu | hu
      · left
        unfold Smp.owned at hu ⊢
        rw [goto_pos_self, hbetween, if_neg Bool.false_ne_true] at hu
        rw [hp]
        simpa [updateCore_cores] using hu
      · rw [goto_pos_self] at hu
        exact absurd hu ((handlerStart_saved _ int).2 u)
  | panicInterrupt i regs hp =>
    apply h.stay (((Frame.refl i m.smp).writeCore (by intro; rfl)).goto _)
    · intro hcalling
      simp at hcalling
    · intro u j hu
      apply h.has i j u
      left
      simpa [Smp.Has, Smp.owned, hp, updateCore_cores] using hu
  | call i job hp =>
    apply h.stay ((Frame.refl i m.smp).goto _)
    · intro _
      rw [hp]
      exact ⟨rfl, rfl⟩
    · intro u j hu
      apply h.has i j u
      left
      simpa [Smp.Has, Smp.owned, hp] using hu
  | advance i hdes =>
    by_cases hp : m.smp.pos i = .leave
    · exact h.leave hsound hp
    · have hground : m.advance i = ⟨m.smp.advance i, m.ground⟩ := by rw [Grounded.advance, if_neg hp]
      rw [hground]
      apply h.stay (advance_frame m.smp i)
      · exact fun hcalling => advance_calling hcalling hp
      · intro u j hu hj
        rcases has_advance hsound.1 hu with hhas | hload
        · exact h.has i j u hhas hj
        · exact hdes trivial u j hload hj

omit [DecidableEq C] in
theorem start_apart {init : System C} (hcur : ∀ i, (init.cores i).currentThread = none) :
    (⟨start init, fun _ => none⟩ : Grounded C).Apart where
  calling i _ := (hcur i).symm
  has i j t hi := by simp
  single i j t hi := by simp at hi

end Runs

/-- However the accesses of the cores interleave: if no core gets a thread on whose kernel stack
another one still is, no two cores are ever on the stack of one thread; and a core outside of
handlers is on the stack of its current thread. -/
theorem stacks_exclusive (init : System C) (hcur : ∀ i, (init.cores i).currentThread = none)
    (hstate : ∀ i, (init.cores i).state ≠ .online) (hlock : init.schedLock = false) (m : Grounded C)
    (hrun : Reaches (GroundedStep True) ⟨start init, fun _ => none⟩ m) :
    (∀ i j t, m.ground i = some t → m.ground j = some t → i = j) ∧
      ∀ i, m.smp.pos i = .away → m.ground i = (m.smp.sys.cores i).currentThread := by
  obtain ⟨-, hapart⟩ := Reaches.invariant (fun m : Grounded C => m.smp.Sound True _ _ ∧ m.Apart)
    (fun m m' hs (hst : GroundedStep True m m') => ⟨hst.step.sound hs.1, hst.apart hs.2 hs.1⟩) hrun
    ⟨start_sound hcur hstate hlock, start_apart hcur⟩
  exact ⟨hapart.single, fun i hi => hapart.calling i (by rw [hi]; rfl)⟩

/-- Steps of one core while the others are on no thread's stack. -/
theorem Reaches.grounded_advances {guarded : Prop} (i : C) (n : ℕ) (m : Grounded C)
    (hothers : guarded → ∀ j, j ≠ i → m.ground j = none) :
    Reaches (GroundedStep guarded) m ((fun m => Grounded.advance m i)^[n] m) := by
  induction n generalizing m with
  | zero => exact .refl
  | succ n ih =>
    have hnext : guarded → ∀ j, j ≠ i → (m.advance i).ground j = none := by
      intro hg j hj
      unfold Grounded.advance
      dsimp only
      split_ifs
      · rw [Function.update_of_ne hj]
        exact hothers hg j hj
      · exact hothers hg j hj
    apply (ih (m.advance i) hnext).head (.advance i _)
    intro hg new j _ hj
    rw [hothers hg j hj]
    simp

/-- Thread 7 runs on core `true`, and its next interrupt is on its stack. -/
theorem stacks_exclusive_run :
    ∃ m : Grounded Bool, Reaches (GroundedStep True) ⟨start twoCores, fun _ => none⟩ m ∧
      m.smp.pos true = .tail ∧ m.ground true = some 7 ∧ m.ground false ≠ some 7 := by
  have hlisted : Reaches (GroundedStep True) ⟨start twoCores, fun _ => none⟩ _ :=
    (Relation.ReflTransGen.single (GroundedStep.call false (.thread 7) rfl)).trans
      (Reaches.grounded_advances false 6 _ (by simp))
  have hidle : Reaches (GroundedStep True) ⟨start twoCores, fun _ => none⟩ _ :=
    (hlisted.tail (GroundedStep.interrupt true .ipi 0 rfl)).trans
      (Reaches.grounded_advances true 8 _ fun _ j hj => by rw [Bool.eq_not_of_ne hj]; rfl)
  have hruns : Reaches (GroundedStep True) ⟨start twoCores, fun _ => none⟩ _ :=
    (hidle.tail (GroundedStep.interrupt true .ipi 0 rfl)).trans
      (Reaches.grounded_advances true 10 _ fun _ j hj => by rw [Bool.eq_not_of_ne hj]; rfl)
  have hagain : Reaches (GroundedStep True) ⟨start twoCores, fun _ => none⟩ _ :=
    (hruns.tail (GroundedStep.interrupt true .ipi 5 rfl)).trans
      (Reaches.grounded_advances true 6 _ fun _ j hj => by rw [Bool.eq_not_of_ne hj]; rfl)
  refine ⟨_, hagain, rfl, rfl, fun hfalse => ?_⟩
  have hone := (stacks_exclusive twoCores (fun _ => rfl) (fun b => by cases b <;> decide) rfl _ hagain).1
  cases hone true false 7 rfl hfalse

/-- Core `true` hands over from thread 3 to thread 5 and has freed the lock, but is on the stack of
thread 3 still, when core `false` picks thread 3 and returns to it. -/
theorem shared_stack :
    ∃ m : Grounded Bool, Reaches (GroundedStep False) ⟨start twoCores, fun _ => none⟩ m ∧
      m.ground true = some 3 ∧ m.ground false = some 3 := by
  have hfalse : Reaches (GroundedStep False) ⟨start twoCores, fun _ => none⟩ _ :=
    (Relation.ReflTransGen.single (GroundedStep.interrupt false .ipi 0 rfl)).trans
      (Reaches.grounded_advances false 8 _ (by simp))
  have hlisted : Reaches (GroundedStep False) ⟨start twoCores, fun _ => none⟩ _ :=
    (hfalse.tail (GroundedStep.call false (.thread 3) rfl)).trans (Reaches.grounded_advances false 6 _ (by simp))
  have hidle : Reaches (GroundedStep False) ⟨start twoCores, fun _ => none⟩ _ :=
    (hlisted.tail (GroundedStep.interrupt true .ipi 0 rfl)).trans (Reaches.grounded_advances true 8 _ (by simp))
  have hruns : Reaches (GroundedStep False) ⟨start twoCores, fun _ => none⟩ _ :=
    (hidle.tail (GroundedStep.interrupt true .ipi 0 rfl)).trans (Reaches.grounded_advances true 10 _ (by simp))
  have hsecond : Reaches (GroundedStep False) ⟨start twoCores, fun _ => none⟩ _ :=
    (hruns.tail (GroundedStep.call false (.thread 5) rfl)).trans (Reaches.grounded_advances false 6 _ (by simp))
  have hgives : Reaches (GroundedStep False) ⟨start twoCores, fun _ => none⟩ _ :=
    (hsecond.tail (GroundedStep.interrupt true .ipi 5 rfl)).trans (Reaches.grounded_advances true 11 _ (by simp))
  have htakes : Reaches (GroundedStep False) ⟨start twoCores, fun _ => none⟩ _ :=
    (hgives.tail (GroundedStep.interrupt false .ipi 0 rfl)).trans (Reaches.grounded_advances false 14 _ (by simp))
  exact ⟨_, htakes, rfl, rfl⟩

end JustKernel.SchedSmp
