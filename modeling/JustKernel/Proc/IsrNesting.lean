import JustKernel.Proc.SchedAssertions

/-! Handlers inside handlers. `isr_handler` keeps two flags on each core: `in_irq` from
the entry of the first handler, and `nested_irq` from the entry of a handler that finds
`in_irq` set. The flag is cleared by the first exit that finds it, so it can tell two
handlers apart and no more: of three, the innermost exit clears it, and the one in the
middle then leaves as if it were the outermost. A handler that is nested also shares
`irq_regs` with the outermost one, and changes it if it makes a scheduling pass that
hands the core over. -/

namespace JustKernel.Sched

open Halting Runs

variable {C : Type} [DecidableEq C]

/-- The system, and the frames of the handlers that are active on the core, innermost first. -/
structure Nest (C : Type) where
  sys : System C
  active : List ℕ

/-- `exit own back` is the exit of the handler with the frame `own`, which goes back to `back`;
`other` is a step of the rest of the system. -/
inductive NestEvent
  | enter (regs : ℕ)
  | call (int : Interrupt)
  | exit (own back : ℕ)
  | other

/-- Well-nested entries and exits of `isr_handler` on core `i`. -/
inductive NestStep (i : C) (m : Nest C) : NestEvent → Nest C → Prop
  | enter (regs : ℕ) : NestStep i m (.enter regs) ⟨m.sys.entered i regs, regs :: m.active⟩
  | call {int : Interrupt} {s : System C} : m.active ≠ [] → handler i int m.sys = .ok () s →
      NestStep i m (.call int) ⟨s, m.active⟩
  | exit {own back : ℕ} {rest : List ℕ} {s : System C} : m.active = own :: rest →
      isrTail i own m.sys = .ok back s → NestStep i m (.exit own back) ⟨s, rest⟩
  | other {s : System C} : s.cores i = m.sys.cores i → NestStep i m .other ⟨s, m.active⟩

/-- What an event has to do: the outermost exit goes back to `irq_regs` and every other exit to
its own frame, and nothing that a nested handler does changes `irq_regs`. -/
structure Orderly (i : C) (m : Nest C) (e : NestEvent) (m' : Nest C) : Prop where
  back : ∀ own back, e = .exit own back →
    if m'.active = [] then back = (m'.sys.cores i).irqRegs else back = own
  shared : 2 ≤ m.active.length ∨ 2 ≤ m'.active.length →
    (m'.sys.cores i).irqRegs = (m.sys.cores i).irqRegs

/-- A pass that has woken the sleepers hands core `i` over. -/
def HandsOver (i : C) (s : System C) : Prop :=
  match (s.cores i).state with
  | .online | .idle => pickThread i s ≠ none
  | .booting => True
  | .offline => False

/-- A pass through `_sched_runner` on core `i` gets the lock and hands the core over. -/
def Switches (i : C) (s : System C) : Prop :=
  s.schedLock = false ∧ HandsOver i (updateSleepingThreads i { s with schedLock := true })

/-- The state after a tick has been counted. -/
def System.ticked (s : System C) : System C :=
  { s with globalTicks := (s.globalTicks + 1) % 2 ^ 32 }

/-- The handler of an interrupt hands the core over. -/
def SwitchesOn (i : C) (s : System C) : Interrupt → Prop
  | .timer => s.ticked.globalTicks % 8 = 0 ∧ s.procList ≠ [] ∧ s.procThreads s.kernelProc ≠ [] ∧
      Switches i s.ticked
  | .ipi | .yield => Switches i s
  | .exit _ | .sleep _ => (s.cores i).currentThread ≠ none
  | .pageFault => False

/-- At most two handlers are active, and the inner one does not hand the core over. -/
def Shallow (i : C) (m : Nest C) : NestEvent → Prop
  | .enter _ => m.active.length ≤ 1
  | .call int => m.active.length ≤ 1 ∨ ¬SwitchesOn i m.sys int
  | .exit _ _ => m.active.length ≤ 1 ∨ ((m.sys.cores i).needResched = true → ¬Switches i m.sys)
  | .other => True

/-! ### What the handlers leave alone -/

/-- The flags of `isr_handler` on core `i` are the same. -/
def SameFlags (i : C) (s s' : System C) : Prop :=
  (s'.cores i).inIrq = (s.cores i).inIrq ∧ (s'.cores i).nestedIrq = (s.cores i).nestedIrq

section Flags

variable {i : C} {s s' : System C}

omit [DecidableEq C] in
theorem SameFlags.refl (i : C) (s : System C) : SameFlags i s s := ⟨rfl, rfl⟩

omit [DecidableEq C] in
theorem SameFlags.trans {t : System C} (h : SameFlags i s t) (h' : SameFlags i t s') : SameFlags i s s' :=
  ⟨h'.1.trans h.1, h'.2.trans h.2⟩

theorem updateCore_sameFlags (s : System C) (i : C) (f : Core → Core)
    (hf : ∀ core, (f core).inIrq = core.inIrq ∧ (f core).nestedIrq = core.nestedIrq) :
    SameFlags i s (s.updateCore i f) := by
  unfold SameFlags
  rw [updateCore_cores, if_pos rfl]
  exact hf _

theorem loaded_sameFlags (s : System C) (i : C) (t : ThreadId) : SameFlags i s (s.loaded i t) := by
  unfold SameFlags
  rw [System.loaded, updateThread_cores, updateCore_cores, if_pos rfl]
  exact ⟨rfl, rfl⟩

theorem idled_sameFlags (s : System C) (i : C) : SameFlags i s (s.idled i) :=
  updateCore_sameFlags s i _ fun _ => ⟨rfl, rfl⟩

/-- A pass keeps the flags, and keeps `irq_regs` if it does not hand the core over. -/
theorem passed_keeps (i : C) (s : System C) :
    SameFlags i s (s.passed i) ∧
      (((s.passed i).cores i).irqRegs = (s.cores i).irqRegs ∨ HandsOver i s) := by
  unfold System.passed HandsOver
  cases hstate : (s.cores i).state with
  | online =>
    cases hc : (s.cores i).currentThread with
    | none => exact ⟨.refl i s, Or.inl rfl⟩
    | some c =>
      cases hpick : pickThread i s with
      | none => exact ⟨.refl i s, Or.inl rfl⟩
      | some t => exact ⟨loaded_sameFlags (s.saved i c .stopped) i t, Or.inr (by simp)⟩
  | idle =>
    cases hpick : pickThread i s with
    | none => exact ⟨.refl i s, Or.inl rfl⟩
    | some t => exact ⟨loaded_sameFlags s i t, Or.inr (by simp)⟩
  | booting => exact ⟨idled_sameFlags s i, Or.inr trivial⟩
  | offline => exact ⟨.refl i s, Or.inl rfl⟩

/-- A step keeps the flags, and keeps `irq_regs` unless it hands the core over. -/
def Keeps (i : C) (s s' : System C) (switches : Prop) : Prop :=
  SameFlags i s s' ∧ (¬switches → (s'.cores i).irqRegs = (s.cores i).irqRegs)

theorem schedRunner_keeps (hrun : schedRunner i s = .ok () s') : Keeps i s s' (Switches i s) := by
  unfold schedRunner at hrun
  rw [get_bind_run] at hrun
  cases hlock : s.schedLock with
  | true =>
    simp only [hlock, if_true] at hrun
    cases hrun
    exact ⟨.refl i s, fun _ => rfl⟩
  | false =>
    simp only [hlock, Bool.false_eq_true, if_false, modify_bind_run] at hrun
    obtain ⟨_, t, hsched, hdone⟩ := bind_eq_ok.mp hrun
    cases hdone
    obtain rfl := sched_ok hsched
    obtain ⟨hflags, hregs⟩ := passed_keeps i (updateSleepingThreads i { s with schedLock := true })
    unfold SameFlags at hflags
    rw [updateSleepingThreads_cores] at hflags hregs
    refine ⟨hflags, fun hno => ?_⟩
    rcases hregs with h | h
    · exact h
    · exact absurd ⟨hlock, h⟩ hno

theorem leaveCore_keeps (state : ThreadState) (record : Thread → Thread)
    (hrun : leaveCore i state record s = .ok () s') :
    Keeps i s s' ((s.cores i).currentThread ≠ none) := by
  rcases leaveCore_run i state record s with h | ⟨t, ht, h⟩
  · rw [h] at hrun
    cases hrun
    exact ⟨.refl i s, fun _ => rfl⟩
  · rw [h] at hrun
    cases hrun
    refine ⟨SameFlags.trans ?_ (idled_sameFlags _ i), fun hno => absurd (by simp [ht]) hno⟩
    exact updateCore_sameFlags ((s.saved i t state).updateThread t record) i _ fun _ => ⟨rfl, rfl⟩

theorem faulted_keeps (i : C) (s : System C) : Keeps i s (s.faulted i) False := by
  have hcore : (s.faulted i).cores i = { s.cores i with needResched := true } := by
    unfold System.faulted
    rw [updateCore_cores, if_pos rfl]
    cases (s.cores i).currentThread <;> rfl
  unfold Keeps SameFlags
  rw [hcore]
  exact ⟨⟨rfl, rfl⟩, fun _ => rfl⟩

/-- What a handler leaves alone. -/
theorem handler_keeps {int : Interrupt} (hrun : handler i int s = .ok () s') :
    Keeps i s s' (SwitchesOn i s int) := by
  cases int with
  | timer =>
    have hrun' : (do
        if (← get).globalTicks % 8 = 0 then schedAll i : SchedM C Unit) s.ticked = .ok () s' := hrun
    rw [get_bind_run] at hrun'
    split_ifs at hrun' with htick
    · unfold schedAll at hrun'
      rw [get_bind_run] at hrun'
      split_ifs at hrun' with hproc hthread
      · cases hrun'
        exact ⟨.refl i s, fun _ => rfl⟩
      · cases hrun'
        exact ⟨.refl i s, fun _ => rfl⟩
      · obtain ⟨hflags, hregs⟩ := schedRunner_keeps hrun'
        refine ⟨hflags, fun hno => hregs fun hsw => hno ⟨htick, ?_, ?_, hsw⟩⟩
        · exact fun h => hproc (List.isEmpty_iff.mpr h)
        · exact fun h => hthread (List.isEmpty_iff.mpr h)
    · cases hrun'
      exact ⟨.refl i s, fun _ => rfl⟩
  | ipi => exact schedRunner_keeps hrun
  | exit code => exact leaveCore_keeps _ _ hrun
  | sleep timeMs => exact leaveCore_keeps _ _ hrun
  | yield => exact schedRunner_keeps hrun
  | pageFault =>
    have hrun' : (.ok () (s.faulted i) : EStateM.Result Assertion _ _) = .ok () s' :=
      (vmmPageFault_run i s).symm.trans hrun
    cases hrun'
    exact faulted_keeps i s

end Flags

/-! ### Whole runs -/

/-- The flags tell how many handlers are active, of two at most. -/
structure Nest.Counted (i : C) (m : Nest C) : Prop where
  two : m.active.length ≤ 2
  inIrq : (m.sys.cores i).inIrq = true ↔ m.active ≠ []
  nestedIrq : (m.sys.cores i).nestedIrq = true ↔ m.active.length = 2

section Runs

variable {i : C} {m m' : Nest C} {e : NestEvent}

/-- The exit of a handler: a pass if one is due, and the flags. -/
theorem isrTail_spec {own back : ℕ} {s s' : System C} (hrun : isrTail i own s = .ok back s') :
    ∃ t, Keeps i s t ((s.cores i).needResched = true ∧ Switches i s) ∧ (back, s') = t.leaving i own := by
  rw [isrTail_run] at hrun
  split_ifs at hrun with hres
  · cases hpass : schedRunner i s with
    | ok a t =>
      rw [hpass] at hrun
      cases hrun
      obtain ⟨hflags, hregs⟩ := schedRunner_keeps hpass
      exact ⟨t, ⟨hflags, fun hno => hregs fun hsw => hno ⟨hres, hsw⟩⟩, rfl⟩
    | error e t =>
      rw [hpass] at hrun
      cases hrun
  · cases hrun
    exact ⟨s, ⟨.refl i s, fun _ => rfl⟩, rfl⟩

theorem Nest.Counted.enter (h : m.Counted i) (regs : ℕ) (he : m.active.length ≤ 1) :
    Nest.Counted i ⟨m.sys.entered i regs, regs :: m.active⟩ ∧
      Orderly i m (.enter regs) ⟨m.sys.entered i regs, regs :: m.active⟩ := by
  have hin := h.inIrq
  have hne := h.nestedIrq
  unfold System.entered
  cases hirq : (m.sys.cores i).inIrq with
  | true =>
    rw [hirq] at hin
    have hlen : m.active.length = 1 := by
      have := List.length_pos_iff.mpr (hin.mp rfl)
      omega
    refine ⟨⟨?_, ?_, ?_⟩, ?_, ?_⟩
    · simp [hlen]
    · simp [updateCore_cores, hirq]
    · simp [updateCore_cores, hlen]
    · exact fun _ _ h => nomatch h
    · simp [updateCore_cores]
  | false =>
    rw [hirq] at hin
    have hnil : m.active = [] := by
      by_contra hne
      exact absurd (hin.mpr hne) (by decide)
    rw [hnil] at hne
    refine ⟨⟨?_, ?_, ?_⟩, ?_, ?_⟩
    · simp [hnil]
    · simp [updateCore_cores]
    · simpa [updateCore_cores, hnil] using hne
    · exact fun _ _ h => nomatch h
    · simp [hnil]

omit [DecidableEq C] in
/-- The rule for steps inside a handler. -/
theorem Nest.Counted.keeps (h : m.Counted i) {s : System C} {p : Prop} (hk : Keeps i m.sys s p)
    (hp : m.active.length ≤ 1 ∨ ¬p) (he : ∀ own back, e ≠ .exit own back) :
    Nest.Counted i ⟨s, m.active⟩ ∧ Orderly i m e ⟨s, m.active⟩ := by
  obtain ⟨⟨hin, hne⟩, hregs⟩ := hk
  refine ⟨⟨h.two, ?_, ?_⟩, fun own back heq => absurd heq (he own back), ?_⟩
  · rw [hin]
    exact h.inIrq
  · rw [hne]
    exact h.nestedIrq
  · intro hlen
    simp only [or_self] at hlen
    exact hregs (hp.resolve_left (by omega))

/-- With two active handlers at most, every exit finds the flags it needs. -/
theorem Nest.Counted.exit (h : m.Counted i) {own back : ℕ} {rest : List ℕ} {s : System C}
    (hactive : m.active = own :: rest) (hrun : isrTail i own m.sys = .ok back s)
    (he : Shallow i m (.exit own back)) :
    Nest.Counted i ⟨s, rest⟩ ∧ Orderly i m (.exit own back) ⟨s, rest⟩ := by
  obtain ⟨t, ⟨⟨hin, hne⟩, hregs⟩, hback⟩ := isrTail_spec hrun
  have hlen := h.two
  have hin' := h.inIrq
  have hne' := h.nestedIrq
  rw [← hin] at hin'
  rw [← hne] at hne'
  rw [hactive] at hlen hin' hne'
  unfold System.leaving at hback
  match rest with
  | [] =>
    rw [if_neg (by rw [hne']; simp), Prod.mk.injEq] at hback
    obtain ⟨rfl, rfl⟩ := hback
    refine ⟨⟨by simp, ?_, ?_⟩, ?_, ?_⟩
    · simp [updateCore_cores]
    · simpa [updateCore_cores] using hne'
    · intro _ _ heq
      cases heq
      simp [updateCore_cores]
    · simp [hactive]
  | [outer] =>
    rw [if_pos (by rw [hne']; rfl), Prod.mk.injEq] at hback
    obtain ⟨rfl, rfl⟩ := hback
    refine ⟨⟨by simp, ?_, ?_⟩, ?_, ?_⟩
    · simpa [updateCore_cores] using hin'
    · simp [updateCore_cores]
    · intro _ _ heq
      cases heq
      simp
    · intro _
      have hno : ¬((m.sys.cores i).needResched = true ∧ Switches i m.sys) := by
        rcases he with hle | hno
        · simp [hactive] at hle
        · exact fun hsw => hno hsw.1 hsw.2
      simpa [updateCore_cores] using hregs hno
  | _ :: _ :: _ => simp at hlen

theorem Nest.Counted.step (h : m.Counted i) (he : Shallow i m e) (hstep : NestStep i m e m') :
    m'.Counted i ∧ Orderly i m e m' := by
  cases hstep with
  | enter regs => exact h.enter regs he
  | call _ hrun => exact h.keeps (handler_keeps hrun) he fun _ _ heq => nomatch heq
  | exit hactive hrun => exact h.exit hactive hrun he
  | other hcore =>
    have hk : Keeps i m.sys _ False := ⟨⟨by rw [hcore], by rw [hcore]⟩, fun _ => by rw [hcore]⟩
    exact h.keeps hk (Or.inr id) fun _ _ heq => nomatch heq

/-- In every run with two active handlers at most, of which the inner one does not hand the core
over, `in_irq` is set exactly while a handler is active, and entries and exits are orderly. -/
theorem nesting_discipline (init : System C) (hin : (init.cores i).inIrq = false)
    (hne : (init.cores i).nestedIrq = false)
    (hrun : Reaches (fun a b => ∃ e, Shallow i a e ∧ NestStep i a e b) ⟨init, []⟩ m) :
    ((m.sys.cores i).inIrq = true ↔ m.active ≠ []) ∧
      ∀ e m', Shallow i m e → NestStep i m e m' → Orderly i m e m' := by
  have hinv : m.Counted i := by
    refine Reaches.invariant (Nest.Counted i) ?_ hrun ⟨by simp, by simp [hin], by simp [hne]⟩
    rintro a b h ⟨e, he, hstep⟩
    exact (h.step he hstep).1
  exact ⟨hinv.inIrq, fun e m' he hstep => (hinv.step he hstep).2⟩

end Runs

/-- One handler inside another. -/
theorem nesting_discipline_two : ∃ m : Nest Unit,
    Reaches (fun a b => ∃ e, Shallow () a e ∧ NestStep () a e b) ⟨oneCore, []⟩ m ∧ m.active = [1] ∧
      (m.sys.cores ()).inIrq = true := by
  have hrun : Reaches (fun a b => ∃ e, Shallow () a e ∧ NestStep () a e b) (⟨oneCore, []⟩ : Nest Unit)
      ⟨_, [1]⟩ :=
    .head ⟨.enter 1, Nat.zero_le _, .enter 1⟩ (.head ⟨.enter 2, le_rfl, .enter 2⟩
      (.single ⟨.exit 2 2, Or.inr (fun h => nomatch h), .exit rfl rfl⟩))
  exact ⟨_, hrun, rfl, (nesting_discipline oneCore rfl rfl hrun).1.mpr (by simp)⟩

/-- Three handlers: the one in the middle goes back to the frame of the outermost one, and
`in_irq` is cleared while that is still active. -/
theorem three_handlers_lose_count : ¬∀ m : Nest Unit,
    Reaches (fun a b => ∃ e, NestStep () a e b) ⟨oneCore, []⟩ m →
    ((m.sys.cores ()).inIrq = true ↔ m.active ≠ []) ∧
      ∀ e m', NestStep () m e m' → Orderly () m e m' := by
  intro hall
  have hrun : Reaches (fun a b => ∃ e, NestStep () a e b) (⟨oneCore, []⟩ : Nest Unit) ⟨_, [1]⟩ :=
    .head ⟨.enter 1, .enter 1⟩ (.head ⟨.enter 2, .enter 2⟩ (.head ⟨.enter 3, .enter 3⟩
      (.head ⟨.exit 3 3, .exit rfl rfl⟩ (.single ⟨.exit 2 1, .exit rfl rfl⟩))))
  exact absurd ((hall _ hrun).1.mpr (by simp)) (by decide)

end JustKernel.Sched
