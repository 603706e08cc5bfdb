import JustKernel.Proc.Sched
import JustKernel.Base.Runs
import Mathlib.Tactic.SplitIfs
import Mathlib.Data.Set.Basic

/-! Who owns a thread. A scheduling pass can do one of four things to a core
whose locals agree with its state, and nothing but fail an assertion on any
other core; each other scheduler step is a single hand-over. From this list of
effects it follows that a thread is the current thread of at most one core, that
a current thread is never one `pick_thread` or the sleep timer may take, and
that a pinned thread only runs on its own core, in every state reached by any
interleaving of the steps of any number of cores. -/

namespace JustKernel.Sched

open Halting Runs

variable {C : Type} [DecidableEq C]

/-! ### What the parts of a pass do -/

omit [DecidableEq C] in
@[simp] theorem updateThread_cores (s : System C) (t : ThreadId) (f : Thread → Thread) :
    (s.updateThread t f).cores = s.cores := rfl

omit [DecidableEq C] in
theorem updateThread_threads (s : System C) (t : ThreadId) (f : Thread → Thread) (u : ThreadId) :
    (s.updateThread t f).threads u = if u = t then f (s.threads t) else s.threads u := by
  simp [System.updateThread, Function.update_apply]

@[simp] theorem updateCore_threads (s : System C) (i : C) (f : Core → Core) :
    (s.updateCore i f).threads = s.threads := rfl

theorem updateCore_cores (s : System C) (i : C) (f : Core → Core) (j : C) :
    (s.updateCore i f).cores j = if j = i then f (s.cores i) else s.cores j := by
  simp [System.updateCore, Function.update_apply]

/-- What the sleep timer may do to a thread: nothing that shows, or wake it. -/
def Woken (t u : Thread) : Prop :=
  u.cpu = t.cpu ∧ (u.state = t.state ∨ (t.state = .sleeping ∧ u.state = .stopped))

theorem Woken.trans {t u v : Thread} (h : Woken t u) (h' : Woken u v) : Woken t v := by
  obtain ⟨hc, hs⟩ := h
  obtain ⟨hc', hs'⟩ := h'
  refine ⟨hc'.trans hc, ?_⟩
  rcases hs with hs | ⟨hs, hu⟩
  · rwa [hs] at hs'
  · rcases hs' with hs' | ⟨hs', -⟩
    · exact Or.inr ⟨hs, hs'.trans hu⟩
    · rw [hu] at hs'
      cases hs'

theorem wake_woken (t : Thread) : Woken t (wake t) := by
  unfold wake
  by_cases hs : t.state = .sleeping
  · rw [if_pos hs]
    by_cases hleft : sleepLeft t.sleepTime = 0
    · exact ⟨rfl, Or.inr ⟨hs, if_pos hleft⟩⟩
    · exact ⟨rfl, Or.inl (if_neg hleft)⟩
  · rw [if_neg hs]
    exact ⟨rfl, Or.inl rfl⟩

omit [DecidableEq C] in
theorem foldl_wake (l : List ThreadId) (s : System C) :
    (l.foldl (fun s t => s.updateThread t wake) s).cores = s.cores ∧
    (l.foldl (fun s t => s.updateThread t wake) s).schedLock = s.schedLock ∧
    ∀ t, Woken (s.threads t) ((l.foldl (fun s t => s.updateThread t wake) s).threads t) := by
  induction l generalizing s with
  | nil => exact ⟨rfl, rfl, fun t => ⟨rfl, Or.inl rfl⟩⟩
  | cons u rest ih =>
    obtain ⟨hcores, hlock, hthreads⟩ := ih (s.updateThread u wake)
    refine ⟨hcores, hlock, fun t => Woken.trans ?_ (hthreads t)⟩
    rw [updateThread_threads]
    split_ifs with htu
    · rw [htu]; exact wake_woken _
    · exact ⟨rfl, Or.inl rfl⟩

omit [DecidableEq C] in
theorem updateSleepingThreads_cores (i : C) (s : System C) :
    (updateSleepingThreads i s).cores = s.cores := by
  unfold updateSleepingThreads
  split_ifs
  · rfl
  · exact (foldl_wake _ _).1

omit [DecidableEq C] in
theorem updateSleepingThreads_schedLock (i : C) (s : System C) :
    (updateSleepingThreads i s).schedLock = s.schedLock := by
  unfold updateSleepingThreads
  split_ifs
  · rfl
  · exact (foldl_wake _ _).2.1

omit [DecidableEq C] in
theorem updateSleepingThreads_threads (i : C) (s : System C) (t : ThreadId) :
    Woken (s.threads t) ((updateSleepingThreads i s).threads t) := by
  unfold updateSleepingThreads
  split_ifs
  · exact ⟨rfl, Or.inl rfl⟩
  · exact (foldl_wake _ _).2.2 t

omit [DecidableEq C] in
theorem updateSleepingThreads_of_awake {i : C} {s : System C}
    (h : ∀ t ∈ s.threadList, (s.threads t).state ≠ .sleeping) : updateSleepingThreads i s = s := by
  have hfold : ∀ l : List ThreadId, (∀ t ∈ l, (s.threads t).state ≠ .sleeping) →
      l.foldl (fun s t => s.updateThread t wake) s = s := by
    intro l hl
    induction l with
    | nil => rfl
    | cons t rest ih =>
      have hwake : s.updateThread t wake = s := by
        rw [System.updateThread, wake, if_neg (hl t (by simp)), Function.update_eq_self]
      rw [List.foldl_cons, hwake]
      exact ih fun u hu => hl u (by simp [hu])
  unfold updateSleepingThreads
  split_ifs
  · rfl
  · exact hfold _ h

/-- A thread `pick_thread` may return on a core. -/
def Pickable (coreId : ℕ) (t : Thread) : Prop :=
  t.state = .stopped ∧ (t.cpu = -1 ∨ t.cpu = (coreId : ℤ))

theorem Pickable.pinned {coreId : ℕ} {t : Thread} (h : Pickable coreId t) (h0 : 0 ≤ t.cpu) :
    t.cpu = (coreId : ℤ) := by
  rcases h.2 with hcpu | hcpu
  · rw [hcpu] at h0; cases h0
  · exact hcpu

omit [DecidableEq C] in
theorem pickThreadLoop_pickable (s : System C) (coreId : ℕ) (l : List ThreadId)
    (picked : Option ThreadId) (minPriority : ℕ)
    (hpicked : ∀ t, picked = some t → Pickable coreId (s.threads t)) :
    ∀ t, pickThreadLoop s coreId l picked minPriority = some t → Pickable coreId (s.threads t) := by
  induction l generalizing picked minPriority with
  | nil => exact hpicked
  | cons u rest ih =>
    intro t ht
    unfold pickThreadLoop at ht
    split_ifs at ht with hu
    · refine ih (some u) _ (fun v hv => ?_) t ht
      cases hv
      exact ⟨hu.2.1, hu.1⟩
    · exact ih picked minPriority hpicked t ht

omit [DecidableEq C] in
theorem pickThread_pickable {i : C} {s : System C} {t : ThreadId} (h : pickThread i s = some t) :
    Pickable (s.cores i).coreId (s.threads t) :=
  pickThreadLoop_pickable s _ _ none _ (fun _ h => by cases h) t h

/-! ### What a pass does as a whole -/

/-- The locals of a core agree with its state, as the assertions of `_sched` demand. -/
def Consistent (s : System C) (i : C) : Prop :=
  match (s.cores i).state with
  | .online => ∃ c, (s.cores i).currentThread = some c ∧ (s.threads c).state = .running
  | .idle => (s.cores i).currentThread = none
  | .booting => (s.cores i).currentThread = none
  | .offline => True

/-- The three ways a pass hands a core over. -/
inductive HandOver (i : C) (s : System C) : System C → Prop
  | switch (c t : ThreadId) (hc : (s.cores i).currentThread = some c)
      (hrun : (s.threads c).state = .running) (ht : Pickable (s.cores i).coreId (s.threads t))
      (hstate : (s.cores i).state = .online) :
      HandOver i s ((s.saved i c .stopped).loaded i t)
  | load (t : ThreadId) (hc : (s.cores i).currentThread = none)
      (ht : Pickable (s.cores i).coreId (s.threads t)) (hstate : (s.cores i).state = .idle) :
      HandOver i s (s.loaded i t)
  | idle (hc : (s.cores i).currentThread = none) : HandOver i s (s.idled i)

/-- On a consistent core no assertion fails: the pass wakes sleepers, and then
leaves the core alone or hands it over once. -/
theorem sched_of_consistent {i : C} {s : System C} (h : Consistent (updateSleepingThreads i s) i) :
    ∃ t, sched i s = .ok () t ∧
      (t = updateSleepingThreads i s ∨ HandOver i (updateSleepingThreads i s) t) := by
  generalize hs : updateSleepingThreads i s = s₁ at h
  unfold Consistent at h
  unfold sched
  simp only [modify_bind_run, get_bind_run, hs]
  cases hstate : (s₁.cores i).state with
  | online =>
    simp only [hstate] at h
    obtain ⟨c, hc, hrun⟩ := h
    cases hpick : pickThread i s₁ with
    | none => exact ⟨s₁, by simp [assert, isRunning, hc, hrun], Or.inl rfl⟩
    | some t =>
      exact ⟨_, by simp [assert, isRunning, hc, hrun, saveThread, loadThread],
        Or.inr (.switch c t hc hrun (pickThread_pickable hpick) hstate)⟩
  | idle =>
    simp only [hstate] at h
    cases hpick : pickThread i s₁ with
    | none => exact ⟨s₁, by simp [assert, h], Or.inl rfl⟩
    | some t =>
      exact ⟨_, by simp [assert, h, loadThread],
        Or.inr (.load t h (pickThread_pickable hpick) hstate)⟩
  | booting =>
    simp only [hstate] at h
    exact ⟨_, by simp [assert, h, enterIdle], Or.inr (.idle h)⟩
  | offline => exact ⟨s₁, by simp, Or.inl rfl⟩

/-- On any other core the pass fails an assertion before it hands anything over. -/
theorem sched_of_not_consistent {i : C} {s : System C}
    (h : ¬Consistent (updateSleepingThreads i s) i) :
    ∃ a, sched i s = .error a (updateSleepingThreads i s) := by
  generalize hs : updateSleepingThreads i s = s₁ at h
  unfold Consistent at h
  unfold sched
  simp only [modify_bind_run, get_bind_run, hs]
  cases hstate : (s₁.cores i).state with
  | online =>
    simp only [hstate, not_exists, not_and] at h
    cases hc : (s₁.cores i).currentThread with
    | none => exact ⟨.schedOnlineThread, by simp [assert]⟩
    | some c => exact ⟨.schedOnlineRunning, by simp [assert, isRunning, h c hc]⟩
  | idle =>
    simp only [hstate] at h
    exact ⟨.schedIdle, by simp [assert, h]⟩
  | booting =>
    simp only [hstate] at h
    exact ⟨.schedBooting, by simp [assert, h]⟩
  | offline => simp [hstate] at h

/-- The state after a pass that has woken the sleepers. -/
def System.passed (s : System C) (i : C) : System C :=
  match (s.cores i).state, (s.cores i).currentThread, pickThread i s with
  | .online, some c, some t => (s.saved i c .stopped).loaded i t
  | .idle, _, some t => s.loaded i t
  | .booting, _, _ => s.idled i
  | _, _, _ => s

theorem sched_eq_passed {i : C} {s : System C} (h : Consistent (updateSleepingThreads i s) i) :
    sched i s = .ok () ((updateSleepingThreads i s).passed i) := by
  generalize hs : updateSleepingThreads i s = s₁ at h
  unfold Consistent at h
  unfold sched System.passed
  simp only [modify_bind_run, get_bind_run, hs]
  cases hstate : (s₁.cores i).state with
  | online =>
    simp only [hstate] at h
    obtain ⟨c, hc, hrun⟩ := h
    cases hpick : pickThread i s₁ with
    | none => simp [assert, isRunning, hc, hrun]
    | some t => simp [assert, isRunning, hc, hrun, saveThread, loadThread]
  | idle =>
    simp only [hstate] at h
    cases hpick : pickThread i s₁ with
    | none => simp [assert, h]
    | some t => simp [assert, h, loadThread]
  | booting =>
    simp only [hstate] at h
    simp [assert, h, enterIdle]
  | offline => simp

theorem sched_ok {i : C} {s t : System C} (h : sched i s = .ok () t) :
    t = (updateSleepingThreads i s).passed i := by
  by_cases hcons : Consistent (updateSleepingThreads i s) i
  · rw [sched_eq_passed hcons] at h
    cases h
    rfl
  · obtain ⟨a, ha⟩ := sched_of_not_consistent hcons
    rw [ha] at h
    cases h

/-- `_sched_runner` makes a pass if it gets the lock, and does nothing else. -/
theorem schedRunner_final (i : C) (s : System C) :
    finalState (schedRunner i s) = s ∨ s.schedLock = false ∧ ∃ b, finalState (schedRunner i s) =
      { finalState (sched i { s with schedLock := true }) with schedLock := b } := by
  unfold schedRunner
  rw [get_bind_run]
  cases hlock : s.schedLock with
  | true => exact Or.inl rfl
  | false =>
    right
    simp only [Bool.false_eq_true, if_false, modify_bind_run]
    cases hrun : sched i { s with schedLock := true } with
    | ok a t =>
      rw [bind_of_ok hrun]
      exact ⟨trivial, false, rfl⟩
    | error e t =>
      rw [bind_of_error hrun]
      exact ⟨trivial, t.schedLock, rfl⟩

/-! ### Ownership -/

/-- A current thread belongs to one core, is out of reach of `pick_thread` and the
sleep timer, and runs where it is pinned. -/
structure Owned (s : System C) : Prop where
  taken : ∀ i t, (s.cores i).currentThread = some t →
    (s.threads t).state = .running ∨ (s.threads t).state = .terminated
  single : ∀ i j t, (s.cores i).currentThread = some t → (s.cores j).currentThread = some t → i = j
  pinned : ∀ i t, (s.cores i).currentThread = some t → 0 ≤ (s.threads t).cpu →
    (s.threads t).cpu = ((s.cores i).coreId : ℤ)

omit [DecidableEq C] in
/-- Ownership only looks at the cores' current threads and the threads' states and pins. -/
theorem Owned.of_eq {s s' : System C} (h : Owned s)
    (hcur : ∀ i, (s'.cores i).currentThread = (s.cores i).currentThread)
    (hid : ∀ i, (s'.cores i).coreId = (s.cores i).coreId)
    (hthreads : ∀ t, Woken (s.threads t) (s'.threads t)) : Owned s' := by
  refine ⟨fun i t ht => ?_, fun i j t hi hj => ?_, fun i t ht h0 => ?_⟩
  · rw [hcur] at ht
    have := h.taken i t ht
    rcases (hthreads t).2 with heq | ⟨hsleep, -⟩
    · rwa [heq]
    · rw [hsleep] at this
      rcases this with h' | h' <;> cases h'
  · rw [hcur] at hi hj
    exact h.single i j t hi hj
  · rw [hcur] at ht
    rw [(hthreads t).1, hid] at *
    exact h.pinned i t ht h0

omit [DecidableEq C] in
theorem Owned.updateSleepingThreads {s : System C} (h : Owned s) (i : C) :
    Owned (updateSleepingThreads i s) :=
  h.of_eq (fun j => by rw [updateSleepingThreads_cores])
    (fun j => by rw [updateSleepingThreads_cores]) (updateSleepingThreads_threads i s)

omit [DecidableEq C] in
/-- A thread that may be picked is nobody's current thread. -/
theorem Owned.not_current {s : System C} (h : Owned s) {t : ThreadId}
    (ht : (s.threads t).state = .stopped) (j : C) : (s.cores j).currentThread ≠ some t := by
  intro hj
  have := h.taken j t hj
  rw [ht] at this
  rcases this with h' | h' <;> cases h'

/-- The rule for every step of one core: the other cores keep their threads
untouched, and the thread the core has afterwards is rightly its own. -/
theorem Owned.reassign {s s' : System C} (h : Owned s) (i : C)
    (hcur : ∀ j, j ≠ i → (s'.cores j).currentThread = (s.cores j).currentThread)
    (hid : ∀ j, (s'.cores j).coreId = (s.cores j).coreId)
    (hcpu : ∀ t, (s'.threads t).cpu = (s.threads t).cpu)
    (hother : ∀ j t, j ≠ i → (s.cores j).currentThread = some t →
      (s'.threads t).state = (s.threads t).state)
    (hnew : ∀ t, (s'.cores i).currentThread = some t →
      ((s'.threads t).state = .running ∨ (s'.threads t).state = .terminated) ∧
      (∀ j, j ≠ i → (s.cores j).currentThread ≠ some t) ∧
      (0 ≤ (s.threads t).cpu → (s.threads t).cpu = ((s.cores i).coreId : ℤ))) : Owned s' := by
  constructor
  · intro j t hj
    by_cases hji : j = i
    · subst hji
      exact (hnew t hj).1
    · rw [hcur j hji] at hj
      rw [hother j t hji hj]
      exact h.taken j t hj
  · intro j k t hj hk
    by_cases hji : j = i <;> by_cases hki : k = i
    · rw [hji, hki]
    · subst hji
      rw [hcur k hki] at hk
      exact absurd hk ((hnew t hj).2.1 k hki)
    · subst hki
      rw [hcur j hji] at hj
      exact absurd hj ((hnew t hk).2.1 j hji)
    · rw [hcur j hji] at hj
      rw [hcur k hki] at hk
      exact h.single j k t hj hk
  · intro j t hj h0
    rw [hcpu] at h0 ⊢
    rw [hid]
    by_cases hji : j = i
    · subst hji
      exact (hnew t hj).2.2 h0
    · rw [hcur j hji] at hj
      exact h.pinned j t hj h0

omit [DecidableEq C] in
theorem saved_threads (s : System C) (i : C) (t : ThreadId) (st : ThreadState) (u : ThreadId) :
    (s.saved i t st).threads u =
      if u = t then { s.threads t with state := st, regs := (s.cores i).irqRegs } else s.threads u :=
  updateThread_threads _ _ _ _

omit [DecidableEq C] in
@[simp] theorem saved_cores (s : System C) (i : C) (t : ThreadId) (st : ThreadState) :
    (s.saved i t st).cores = s.cores := rfl

theorem loaded_threads (s : System C) (i : C) (t u : ThreadId) :
    (s.loaded i t).threads u = if u = t then { s.threads t with state := .running } else s.threads u :=
  updateThread_threads _ _ _ _

theorem loaded_currentThread (s : System C) (i : C) (t : ThreadId) (j : C) :
    ((s.loaded i t).cores j).currentThread = if j = i then some t else (s.cores j).currentThread := by
  rw [System.loaded, updateThread_cores, updateCore_cores]
  by_cases h : j = i
  · rw [if_pos h, if_pos h]
  · rw [if_neg h, if_neg h]

/-- No step changes which core is which. -/
theorem updateCore_coreId (s : System C) (i : C) (f : Core → Core) (j : C)
    (hf : ∀ core, (f core).coreId = core.coreId) :
    ((s.updateCore i f).cores j).coreId = (s.cores j).coreId := by
  rw [updateCore_cores]
  by_cases h : j = i
  · rw [if_pos h, hf, h]
  · rw [if_neg h]

theorem updateCore_currentThread (s : System C) (i : C) (f : Core → Core) (j : C)
    (hf : ∀ core, (f core).currentThread = core.currentThread) :
    ((s.updateCore i f).cores j).currentThread = (s.cores j).currentThread := by
  rw [updateCore_cores]
  by_cases h : j = i
  · rw [if_pos h, hf, h]
  · rw [if_neg h]

theorem loaded_coreId (s : System C) (i : C) (t : ThreadId) (j : C) :
    ((s.loaded i t).cores j).coreId = (s.cores j).coreId := by
  rw [System.loaded, updateThread_cores]
  exact updateCore_coreId s i _ j fun _ => rfl

theorem idled_currentThread (s : System C) (i j : C) :
    ((s.idled i).cores j).currentThread = (s.cores j).currentThread :=
  updateCore_currentThread s i _ j fun _ => rfl

theorem idled_coreId (s : System C) (i j : C) : ((s.idled i).cores j).coreId = (s.cores j).coreId :=
  updateCore_coreId s i _ j fun _ => rfl

/-- A pass that hands a core over keeps ownership. -/
theorem Owned.handOver {s s' : System C} {i : C} (h : Owned s) (hs : HandOver i s s') : Owned s' := by
  cases hs with
  | switch c t hc hrun ht hstate =>
    have htc : t ≠ c := by rintro rfl; rw [ht.1] at hrun; cases hrun
    refine h.reassign i (fun j hj => ?_) (fun j => ?_) (fun u => ?_) (fun j u hj hu => ?_) (fun u hu => ?_)
    · rw [loaded_currentThread, if_neg hj, saved_cores]
    · rw [loaded_coreId, saved_cores]
    · rw [loaded_threads, saved_threads, saved_threads]
      split_ifs <;> simp_all
    · have huc : u ≠ c := by rintro rfl; exact hj (h.single j i u hu hc)
      have hut : u ≠ t := by rintro rfl; exact h.not_current ht.1 j hu
      rw [loaded_threads, if_neg hut, saved_threads, if_neg huc]
    · rw [loaded_currentThread, if_pos rfl, Option.some.injEq] at hu
      subst hu
      exact ⟨Or.inl (by rw [loaded_threads, if_pos rfl]), fun j _ => h.not_current ht.1 j, ht.pinned⟩
  | load t hc ht hstate =>
    refine h.reassign i (fun j hj => ?_) (fun j => ?_) (fun u => ?_) (fun j u hj hu => ?_) (fun u hu => ?_)
    · rw [loaded_currentThread, if_neg hj]
    · rw [loaded_coreId]
    · rw [loaded_threads]
      split_ifs <;> simp_all
    · have hut : u ≠ t := by rintro rfl; exact h.not_current ht.1 j hu
      rw [loaded_threads, if_neg hut]
    · rw [loaded_currentThread, if_pos rfl, Option.some.injEq] at hu
      subst hu
      exact ⟨Or.inl (by rw [loaded_threads, if_pos rfl]), fun j _ => h.not_current ht.1 j, ht.pinned⟩
  | idle hc =>
    exact h.of_eq (idled_currentThread s i) (idled_coreId s i) (fun t => ⟨rfl, Or.inl rfl⟩)

theorem Owned.sched {s : System C} (h : Owned s) (i : C) : Owned (finalState (sched i s)) := by
  have h₁ := h.updateSleepingThreads i
  by_cases hcons : Consistent (Sched.updateSleepingThreads i s) i
  · obtain ⟨t, ht, hcase⟩ := sched_of_consistent hcons
    rw [ht]
    rcases hcase with rfl | hhand
    · exact h₁
    · exact h₁.handOver hhand
  · obtain ⟨a, ha⟩ := sched_of_not_consistent hcons
    rw [ha]
    exact h₁

/-- The state after a thread has left its core. -/
def System.left (s : System C) (i : C) (t : ThreadId) (state : ThreadState) (record : Thread → Thread) :
    System C :=
  (((s.saved i t state).updateThread t record).updateCore i
    fun core => { core with currentThread := none }).idled i

theorem leaveCore_of_current {i : C} {s : System C} {t : ThreadId} (state : ThreadState)
    (record : Thread → Thread) (hc : (s.cores i).currentThread = some t) (hirq : (s.cores i).inIrq = true) :
    leaveCore i state record s = .ok () (s.left i t state record) := by
  unfold leaveCore
  simp only [get_bind_run, hc, hirq]
  simp [saveThread, enterIdle, assert, System.left, updateCore_cores]

theorem leaveCore_of_free {i : C} {s : System C} (state : ThreadState) (record : Thread → Thread)
    (h : (s.cores i).currentThread = none ∨ (s.cores i).inIrq = false) :
    leaveCore i state record s = .ok () s := by
  unfold leaveCore
  rw [get_bind_run]
  rcases h with hc | hirq
  · rw [hc]
    rfl
  · rw [hirq]
    cases (s.cores i).currentThread <;> rfl

/-- `sched_thread_exit` and `sched_thread_sleep` do nothing outside an interrupt or
on a free core, and otherwise take the thread off the core; their assertions hold. -/
theorem leaveCore_run (i : C) (state : ThreadState) (record : Thread → Thread) (s : System C) :
    leaveCore i state record s = .ok () s ∨
    ∃ t, (s.cores i).currentThread = some t ∧ leaveCore i state record s = .ok () (s.left i t state record) := by
  cases hc : (s.cores i).currentThread with
  | none => exact Or.inl (leaveCore_of_free state record (Or.inl hc))
  | some t =>
    cases hirq : (s.cores i).inIrq with
    | false => exact Or.inl (leaveCore_of_free state record (Or.inr hirq))
    | true => exact Or.inr ⟨t, rfl, leaveCore_of_current state record hc hirq⟩

theorem left_currentThread (s : System C) (i : C) (t : ThreadId) (state : ThreadState)
    (record : Thread → Thread) (j : C) :
    ((s.left i t state record).cores j).currentThread =
      if j = i then none else (s.cores j).currentThread := by
  rw [System.left, idled_currentThread, updateCore_cores]
  by_cases h : j = i
  · rw [if_pos h, if_pos h]
  · rw [if_neg h, if_neg h]
    rfl

theorem left_coreId (s : System C) (i : C) (t : ThreadId) (state : ThreadState)
    (record : Thread → Thread) (j : C) :
    ((s.left i t state record).cores j).coreId = (s.cores j).coreId := by
  rw [System.left, idled_coreId]
  exact updateCore_coreId ((s.saved i t state).updateThread t record) i _ j fun _ => rfl

theorem left_threads (s : System C) (i : C) (t : ThreadId) (state : ThreadState)
    (record : Thread → Thread) (u : ThreadId) :
    (s.left i t state record).threads u =
      if u = t then record { s.threads t with state := state, regs := (s.cores i).irqRegs }
      else s.threads u := by
  change ((s.saved i t state).updateThread t record).threads u = _
  rw [updateThread_threads, saved_threads, saved_threads, if_pos rfl]
  by_cases h : u = t
  · rw [if_pos h, if_pos h]
  · rw [if_neg h, if_neg h, if_neg h]

theorem Owned.leaveCore {s : System C} (h : Owned s) (i : C) (state : ThreadState)
    (record : Thread → Thread) (hrec : ∀ t, (record t).cpu = t.cpu) :
    Owned (finalState (leaveCore i state record s)) := by
  rcases leaveCore_run i state record s with hrun | ⟨t, ht, hrun⟩
  · rw [hrun]; exact h
  · rw [hrun]
    refine h.reassign i (fun j hj => ?_) (fun j => ?_) (fun u => ?_) (fun j u hj hu => ?_) (fun u hu => ?_)
    · exact (left_currentThread s i t state record j).trans (if_neg hj)
    · exact left_coreId s i t state record j
    · change ((s.left i t state record).threads u).cpu = _
      rw [left_threads]
      by_cases hut : u = t
      · rw [if_pos hut, hrec, hut]
      · rw [if_neg hut]
    · have hut : u ≠ t := by rintro rfl; exact hj (h.single j i u hu ht)
      change ((s.left i t state record).threads u).state = _
      rw [left_threads, if_neg hut]
    · rw [show (finalState (.ok () (s.left i t state record) : EStateM.Result Assertion _ _)) =
        s.left i t state record from rfl, left_currentThread, if_pos rfl] at hu
      cases hu

/-- The state after a page fault on a core: its thread, if it has one, is terminated. -/
def System.faulted (s : System C) (i : C) : System C :=
  (match (s.cores i).currentThread with
    | some t => s.updateThread t fun thread => { thread with state := .terminated }
    | none => s).updateCore i fun core => { core with needResched := true }

theorem vmmPageFault_run (i : C) (s : System C) : vmmPageFault i s = .ok () (s.faulted i) := by
  unfold vmmPageFault System.faulted
  simp only [get_bind_run]
  cases (s.cores i).currentThread <;> rfl

theorem faulted_currentThread (s : System C) (i j : C) :
    ((s.faulted i).cores j).currentThread = (s.cores j).currentThread := by
  unfold System.faulted
  rw [updateCore_currentThread _ _ _ _ (by intro core; rfl)]
  cases (s.cores i).currentThread <;> rfl

theorem faulted_coreId (s : System C) (i j : C) :
    ((s.faulted i).cores j).coreId = (s.cores j).coreId := by
  unfold System.faulted
  rw [updateCore_coreId _ _ _ _ (by intro core; rfl)]
  cases (s.cores i).currentThread <;> rfl

theorem faulted_threads (s : System C) (i : C) (t : ThreadId) :
    (s.faulted i).threads t =
      if (s.cores i).currentThread = some t then { s.threads t with state := .terminated }
      else s.threads t := by
  unfold System.faulted
  rw [updateCore_threads]
  cases hc : (s.cores i).currentThread with
  | none => simp
  | some c =>
    by_cases htc : t = c
    · subst htc
      simp [updateThread_threads]
    · simp [updateThread_threads, htc, Ne.symm htc]

theorem Owned.vmmPageFault {s : System C} (h : Owned s) (i : C) :
    Owned (finalState (vmmPageFault i s)) := by
  rw [vmmPageFault_run]
  change Owned (s.faulted i)
  refine h.reassign i (fun j _ => faulted_currentThread s i j) (faulted_coreId s i) (fun t => ?_)
    (fun j t hj ht => ?_) (fun t ht => ?_)
  · rw [faulted_threads]
    split_ifs <;> rfl
  · rw [faulted_threads, if_neg (fun hi => hj (h.single j i t ht hi))]
  · rw [faulted_currentThread] at ht
    exact ⟨Or.inr (by rw [faulted_threads, if_pos ht]), fun j hj hj' => hj (h.single j i t hj' ht),
      h.pinned i t ht⟩

omit [DecidableEq C] in
theorem addThreads_keeps (l : List ThreadId) (s : System C) :
    (finalState (addThreads l s)).cores = s.cores ∧ (finalState (addThreads l s)).threads = s.threads := by
  induction l generalizing s with
  | nil => exact ⟨rfl, rfl⟩
  | cons t rest ih =>
    unfold addThreads
    simp only [get_bind_run]
    by_cases ht : (s.threads t).state = .stopped
    · simp only [assert, ht, decide_true, if_true, pure_bind_run, modify_bind_run]
      exact ih _
    · simp only [assert, ht, decide_false, Bool.false_eq_true, if_false, throw_bind_run]
      exact ⟨rfl, rfl⟩

omit [DecidableEq C] in
theorem schedRunThread_keeps (t : ThreadId) (s : System C) :
    (finalState (schedRunThread t s)).cores = s.cores ∧
    (finalState (schedRunThread t s)).threads = s.threads := by
  unfold schedRunThread
  simp only [get_bind_run]
  cases s.schedLock with
  | true => exact ⟨rfl, rfl⟩
  | false =>
    by_cases ht : (s.threads t).state = .stopped
    · simp only [assert, ht, decide_true, if_true]
      exact ⟨rfl, rfl⟩
    · simp only [assert, ht, decide_false]
      exact ⟨rfl, rfl⟩

omit [DecidableEq C] in
theorem schedRunProc_keeps (p : ProcId) (s : System C) :
    (finalState (schedRunProc p s)).cores = s.cores ∧
    (finalState (schedRunProc p s)).threads = s.threads := by
  unfold schedRunProc
  simp only [get_bind_run]
  cases s.schedLock with
  | true => exact ⟨rfl, rfl⟩
  | false =>
    cases hempty : (s.procThreads p).isEmpty with
    | true => exact ⟨rfl, rfl⟩
    | false => exact addThreads_keeps (s.procThreads p) { s with procList := s.procList ++ [p] }

omit [DecidableEq C] in
theorem Owned.of_keeps {s s' : System C} (h : Owned s) (hk : s'.cores = s.cores ∧ s'.threads = s.threads) :
    Owned s' :=
  h.of_eq (fun i => by rw [hk.1]) (fun i => by rw [hk.1]) (fun t => by rw [hk.2]; exact ⟨rfl, Or.inl rfl⟩)

/-! ### Any interleaving -/

/-- The atomic scheduler steps, each with the core that takes it. `interrupt` is the
entry or return of a handler, which sets the core's interrupt flag and frame. -/
inductive Event (C : Type)
  | sched (i : C)
  | exit (i : C) (code : ℕ)
  | sleep (i : C) (timeMs : ℕ)
  | runThread (i : C) (t : ThreadId)
  | runProc (i : C) (p : ProcId)
  | updateSleeping (i : C)
  | pageFault (i : C)
  | interrupt (i : C) (inIrq : Bool) (regs : ℕ)

def Event.core : Event C → C
  | .sched i | .exit i _ | .sleep i _ | .runThread i _ | .runProc i _ | .updateSleeping i
  | .pageFault i | .interrupt i _ _ => i

def Event.action : Event C → SchedM C Unit
  | .sched i => Sched.sched i
  | .exit i code => schedThreadExit i code
  | .sleep i timeMs => schedThreadSleep i timeMs
  | .runThread _ t => schedRunThread t
  | .runProc _ p => schedRunProc p
  | .updateSleeping i => modify (updateSleepingThreads i)
  | .pageFault i => Sched.vmmPageFault i
  | .interrupt i inIrq regs =>
    modify fun s => s.updateCore i fun core => { core with inIrq := inIrq, irqRegs := regs }

/-- Threads are put on the list once. -/
def Event.Allowed (s : System C) : Event C → Prop
  | .runThread _ t => t ∉ s.threadList
  | .runProc _ p => ∀ t ∈ s.procThreads p, t ∉ s.threadList
  | _ => True

/-- A core that fails an assertion halts; the other cores go on. -/
structure Machine (C : Type) where
  sys : System C
  halted : Set C

inductive Step (m : Machine C) : Machine C → Prop
  | run (e : Event C) {s : System C} (hlive : e.core ∉ m.halted) (hallowed : e.Allowed m.sys)
      (h : e.action m.sys = .ok () s) : Step m ⟨s, m.halted⟩
  | halt (e : Event C) {a : Assertion} {s : System C} (hlive : e.core ∉ m.halted)
      (hallowed : e.Allowed m.sys) (h : e.action m.sys = .error a s) :
      Step m ⟨s, insert e.core m.halted⟩

theorem Owned.action {s : System C} (h : Owned s) (e : Event C) : Owned (finalState (e.action s)) := by
  cases e with
  | sched i => exact h.sched i
  | exit i code => exact h.leaveCore i _ _ fun _ => rfl
  | sleep i timeMs => exact h.leaveCore i _ _ fun _ => rfl
  | runThread i t => exact h.of_keeps (schedRunThread_keeps t s)
  | runProc i p => exact h.of_keeps (schedRunProc_keeps p s)
  | updateSleeping i => exact h.updateSleepingThreads i
  | pageFault i => exact h.vmmPageFault i
  | interrupt i inIrq regs =>
    change Owned (s.updateCore i fun core => { core with inIrq := inIrq, irqRegs := regs })
    exact h.of_eq (fun j => updateCore_currentThread s i _ j fun _ => rfl)
      (fun j => updateCore_coreId s i _ j fun _ => rfl) (fun t => ⟨rfl, Or.inl rfl⟩)

theorem Owned.step {m m' : Machine C} (h : Owned m.sys) (hst : Step m m') : Owned m'.sys := by
  cases hst with
  | run e _ _ he =>
    have := h.action e
    rwa [he] at this
  | halt e _ _ he =>
    have := h.action e
    rwa [he] at this

/-- However the cores' steps interleave, a thread is current on at most one core, a
current thread can be neither picked nor woken, and a pinned thread is current on its
own core only. -/
theorem single_ownership (init : System C) (hinit : ∀ i, (init.cores i).currentThread = none)
    (m : Machine C) (hrun : Reaches Step ⟨init, ∅⟩ m) :
    (∀ i j t, (m.sys.cores i).currentThread = some t → (m.sys.cores j).currentThread = some t → i = j) ∧
    (∀ i t, (m.sys.cores i).currentThread = some t →
      (m.sys.threads t).state ≠ .stopped ∧ (m.sys.threads t).state ≠ .sleeping) ∧
    (∀ i t, (m.sys.cores i).currentThread = some t → 0 ≤ (m.sys.threads t).cpu →
      (m.sys.threads t).cpu = ((m.sys.cores i).coreId : ℤ)) := by
  have hstart : Owned init := by
    constructor <;> intro i <;> simp [hinit i]
  have howned : Owned m.sys :=
    Reaches.invariant (fun m => Owned m.sys) (fun _ _ hs hst => hs.step hst) hrun hstart
  refine ⟨howned.single, fun i t ht => ?_, howned.pinned⟩
  rcases howned.taken i t ht with h | h <;> rw [h] <;> exact ⟨by decide, by decide⟩

/-- Two booting cores, `true` with id 1, and thread 7 pinned to it. -/
def twoCores : System Bool where
  cores b := ⟨false, false, false, 0, .booting, none, 100, if b then 1 else 0, 0⟩
  threads t := ⟨t, .stopped, if t = 7 then 1 else -1, 0, 0, 0, 0⟩
  threadList := []
  procList := []
  procThreads _ := []
  kernelProc := 0
  schedLock := false
  globalTicks := 0

theorem single_ownership_two_cores :
    ∃ m : Machine Bool, Reaches Step ⟨twoCores, ∅⟩ m ∧ (m.sys.cores true).currentThread = some 7 ∧
      (m.sys.cores false).currentThread ≠ some 7 := by
  have hrun : Reaches Step ⟨twoCores, ∅⟩ _ :=
    ((((Relation.ReflTransGen.refl.tail
      (Step.run (.runThread false 7) (Set.notMem_empty _) (by simp [Event.Allowed, twoCores]) rfl)).tail
      (Step.run (.sched true) (Set.notMem_empty _) trivial rfl)).tail
      (Step.run (.sched true) (Set.notMem_empty _) trivial rfl)).tail
      (Step.run (.sched false) (Set.notMem_empty _) trivial rfl)).tail
      (Step.run (.pageFault true) (Set.notMem_empty _) trivial rfl)
  refine ⟨_, hrun, rfl, fun hfalse => ?_⟩
  have := (single_ownership twoCores (fun _ => rfl) _ hrun).1 true false 7 rfl hfalse
  cases this

end JustKernel.Sched
