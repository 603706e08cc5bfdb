import JustKernel.Proc.SchedAssertions
import Mathlib.Data.List.Find
import Mathlib.Tactic.IntervalCases

/-! Who gets the core. Among threads of equal priority that may run anywhere,
`pick_thread` takes the first stopped one of the list. The thread that a pass takes
off the core is stopped when the next pass looks for one, so the first two threads
of the list take turns, and no other thread is picked again. A thread whose priority
is the starting value of `min_priority` is never picked at all. -/

namespace JustKernel.Sched

open Halting

variable {C : Type} [DecidableEq C]

/-! ### The pick -/

omit [DecidableEq C] in
/-- Once a thread is picked, no thread of the same priority takes its place. -/
theorem pickThreadLoop_keeps (s : System C) (coreId : ℕ) (p : ℕ) (l : List ThreadId)
    (picked : Option ThreadId) (hp : ∀ t ∈ l, (s.threads t).priority = p) :
    pickThreadLoop s coreId l picked p = picked := by
  induction l with
  | nil => rfl
  | cons t rest ih =>
    rw [pickThreadLoop, if_neg (by rw [hp t (by simp)]; omega)]
    exact ih fun u hu => hp u (by simp [hu])

omit [DecidableEq C] in
theorem pickThreadLoop_first (s : System C) (coreId : ℕ) {p : ℕ} (hmax : p < 0xFFFFFFFF)
    (l : List ThreadId) (hcpu : ∀ t ∈ l, (s.threads t).cpu = -1)
    (hp : ∀ t ∈ l, (s.threads t).priority = p) :
    pickThreadLoop s coreId l none 0xFFFFFFFF = l.find? fun t => (s.threads t).state = .stopped := by
  induction l with
  | nil => rfl
  | cons t rest ih =>
    have hcpu' := hcpu t (by simp)
    have hp' := hp t (by simp)
    rw [pickThreadLoop]
    by_cases ht : (s.threads t).state = .stopped
    · rw [if_pos ⟨Or.inl hcpu', ht, by rw [hp']; exact hmax⟩, hp',
        pickThreadLoop_keeps s coreId p rest _ fun u hu => hp u (by simp [hu])]
      simp [ht]
    · rw [if_neg (fun h => ht h.2.1), ih (fun u hu => hcpu u (by simp [hu])) fun u hu => hp u (by simp [hu])]
      simp [ht]

/-! ### Contenders -/

/-- The threads of the list are always runnable, of one priority, and may run anywhere; core `i`
is the one that runs them. -/
structure Contenders (s : System C) (i : C) (p : ℕ) : Prop where
  nonempty : s.threadList ≠ []
  once : s.threadList.Nodup
  anywhere : ∀ t ∈ s.threadList, (s.threads t).cpu = -1
  priority : ∀ t ∈ s.threadList, (s.threads t).priority = p
  runnable : ∀ t ∈ s.threadList, (s.threads t).state =
    if (s.cores i).currentThread = some t then .running else .stopped
  state : match (s.cores i).state with
    | .online => ∃ c ∈ s.threadList, (s.cores i).currentThread = some c
    | .offline => False
    | _ => (s.cores i).currentThread = none

/-- `n` passes on core `i`. -/
def passes (i : C) (s : System C) : ℕ → System C
  | 0 => s
  | n + 1 => finalState (sched i (passes i s n))

/-- In any `k + 1` consecutive passes, with `k` the number of threads, every thread is current
at least once. -/
def EveryoneRuns (i : C) (s : System C) : Prop :=
  ∀ n, ∀ t ∈ s.threadList, ∃ j, 1 ≤ j ∧ j ≤ s.threadList.length + 1 ∧
    ((passes i s (n + j)).cores i).currentThread = some t

section Contend

variable {s : System C} {i : C} {p : ℕ}

omit [DecidableEq C] in
theorem Contenders.awake (h : Contenders s i p) : updateSleepingThreads i s = s := by
  apply updateSleepingThreads_of_awake
  intro t ht
  rw [h.runnable t ht]
  split_ifs <;> decide

omit [DecidableEq C] in
theorem Contenders.consistent (h : Contenders s i p) : Consistent s i := by
  have hstate := h.state
  unfold Consistent
  cases hs : (s.cores i).state with
  | online =>
    rw [hs] at hstate
    obtain ⟨c, hc, hcur⟩ := hstate
    exact ⟨c, hcur, by rw [h.runnable c hc, if_pos hcur]⟩
  | idle => rw [hs] at hstate; exact hstate
  | booting => rw [hs] at hstate; exact hstate
  | offline => trivial

omit [DecidableEq C] in
/-- The pick is the first thread that is not the current one. -/
theorem Contenders.pick (h : Contenders s i p) (hmax : p < 0xFFFFFFFF) :
    pickThread i s = s.threadList.find? fun t => (s.cores i).currentThread ≠ some t := by
  rw [pickThread, pickThreadLoop_first s _ hmax _ h.anywhere h.priority]
  apply List.find?_congr
  intro t ht
  rw [h.runnable t ht]
  by_cases hc : (s.cores i).currentThread = some t
  · simp [hc]
  · simp [hc]

omit [DecidableEq C] in
/-- A priority that no priority is below is never picked. -/
theorem Contenders.pick_none (h : Contenders s i 0xFFFFFFFF) : pickThread i s = none :=
  pickThreadLoop_keeps s _ _ _ none h.priority

theorem Contenders.switch (h : Contenders s i p) {c t : ThreadId} (hstate : (s.cores i).state = .online)
    (hc : (s.cores i).currentThread = some c) (ht : t ∈ s.threadList) (htc : t ≠ c) :
    Contenders ((s.saved i c .stopped).loaded i t) i p := by
  have hthreads : ∀ u, (((s.saved i c .stopped).loaded i t).threads u).cpu = (s.threads u).cpu ∧
      (((s.saved i c .stopped).loaded i t).threads u).priority = (s.threads u).priority := by
    intro u
    rw [loaded_threads, saved_threads, saved_threads]
    split_ifs <;> simp_all
  refine ⟨h.nonempty, h.once, ?_, ?_, ?_, ?_⟩
  · intro u hu
    rw [(hthreads u).1]
    exact h.anywhere u hu
  · intro u hu
    rw [(hthreads u).2]
    exact h.priority u hu
  · intro u hu
    rw [loaded_currentThread, if_pos rfl, loaded_threads]
    by_cases hut : u = t
    · simp [hut]
    · have := h.runnable u hu
      rw [hc] at this
      rw [if_neg hut, saved_threads]
      by_cases huc : u = c
      · simp [huc, htc]
      · rw [if_neg huc, this, if_neg (by simpa using Ne.symm huc), if_neg (by simpa using Ne.symm hut)]
  · rw [loaded_currentThread, if_pos rfl, loaded_state (s.saved i c .stopped) i t (Or.inl hstate)]
    exact ⟨t, ht, rfl⟩

theorem Contenders.load (h : Contenders s i p) {t : ThreadId} (hstate : (s.cores i).state = .idle)
    (hc : (s.cores i).currentThread = none) (ht : t ∈ s.threadList) : Contenders (s.loaded i t) i p := by
  refine ⟨h.nonempty, h.once, ?_, ?_, ?_, ?_⟩
  · intro u hu
    rw [loaded_threads]
    split_ifs with hut
    · exact h.anywhere t ht
    · exact h.anywhere u hu
  · intro u hu
    rw [loaded_threads]
    split_ifs with hut
    · exact h.priority t ht
    · exact h.priority u hu
  · intro u hu
    rw [loaded_currentThread, if_pos rfl, loaded_threads]
    by_cases hut : u = t
    · simp [hut]
    · have := h.runnable u hu
      rw [hc] at this
      rw [if_neg hut, this, if_neg (by simp), if_neg (by simpa using Ne.symm hut)]
  · rw [loaded_currentThread, if_pos rfl, loaded_state _ _ _ (Or.inr hstate)]
    exact ⟨t, ht, rfl⟩

theorem Contenders.idle (h : Contenders s i p) (hc : (s.cores i).currentThread = none) :
    Contenders (s.idled i) i p := by
  refine ⟨h.nonempty, h.once, h.anywhere, h.priority, ?_, ?_⟩
  · intro u hu
    rw [idled_currentThread]
    exact h.runnable u hu
  · rw [idled_currentThread, hc, System.idled, updateCore_cores, if_pos rfl]

/-- What one pass does: a booting core becomes idle, any other core runs the thread that is
picked, or goes on as it was. -/
theorem Contenders.pass (h : Contenders s i p) (hp : p < 2 ^ 32) :
    ∃ s', finalState (sched i s) = s' ∧ Contenders s' i p ∧ s'.threadList = s.threadList ∧
      (s'.cores i).state ≠ .booting ∧
      ((s.cores i).state = .booting ∧ (s'.cores i).currentThread = none ∨
        (s.cores i).state ≠ .booting ∧
          (s'.cores i).currentThread = (pickThread i s).or (s.cores i).currentThread) := by
  have hpick : ∀ t, pickThread i s = some t →
      t ∈ s.threadList ∧ (s.cores i).currentThread ≠ some t := by
    intro t ht
    by_cases hmax : p < 0xFFFFFFFF
    · rw [h.pick hmax] at ht
      exact ⟨List.mem_of_find?_eq_some ht, by simpa using List.find?_some ht⟩
    · obtain rfl : p = 0xFFFFFFFF := by omega
      rw [h.pick_none] at ht
      cases ht
  have hrun : finalState (sched i s) = s.passed i := by
    rw [sched_eq_passed (by rw [h.awake]; exact h.consistent), h.awake]
    rfl
  have hst := h.state
  refine ⟨_, hrun, ?_⟩
  unfold System.passed
  cases hstate : (s.cores i).state with
  | online =>
    rw [hstate] at hst
    obtain ⟨c, hc, hcur⟩ := hst
    rw [hcur]
    cases hpk : pickThread i s with
    | none => exact ⟨h, rfl, by simp [hstate], Or.inr ⟨by decide, hcur⟩⟩
    | some t =>
      obtain ⟨ht, hne⟩ := hpick t hpk
      rw [hcur] at hne
      refine ⟨h.switch hstate hcur ht (by simpa using Ne.symm hne), rfl, ?_, Or.inr ⟨by decide, ?_⟩⟩
      · dsimp only
        rw [loaded_state (s.saved i c .stopped) i t (Or.inl hstate)]
        decide
      · dsimp only
        rw [loaded_currentThread, if_pos rfl]
        rfl
  | idle =>
    rw [hstate] at hst
    cases hpk : pickThread i s with
    | none => exact ⟨h, rfl, by simp [hstate], Or.inr ⟨by decide, rfl⟩⟩
    | some t =>
      refine ⟨h.load hstate hst (hpick t hpk).1, rfl, ?_, Or.inr ⟨by decide, ?_⟩⟩
      · dsimp only
        rw [loaded_state _ _ _ (Or.inr hstate)]
        decide
      · dsimp only
        rw [loaded_currentThread, if_pos rfl]
        rfl
  | booting =>
    rw [hstate] at hst
    refine ⟨h.idle hst, rfl, ?_, Or.inl ⟨rfl, ?_⟩⟩
    · simp [System.idled, updateCore_cores]
    · dsimp only
      rw [idled_currentThread]
      exact hst
  | offline => rw [hstate] at hst; exact hst.elim

theorem Contenders.passes (h : Contenders s i p) (hp : p < 2 ^ 32) (n : ℕ) :
    Contenders (Sched.passes i s n) i p ∧ (Sched.passes i s n).threadList = s.threadList := by
  induction n with
  | zero => exact ⟨h, rfl⟩
  | succ n ih =>
    obtain ⟨s', hs', hc, hl, -⟩ := ih.1.pass hp
    rw [Sched.passes, hs']
    exact ⟨hc, hl.trans ih.2⟩

theorem passes_add (n m : ℕ) : passes i s (n + m) = passes i (passes i s n) m := by
  induction m with
  | zero => rfl
  | succ m ih => rw [Nat.add_succ, passes, ih, passes]

/-- The first two threads of the list take turns. -/
theorem find?_not_current {a b : ThreadId} (hab : a ≠ b) (r : List ThreadId) (cur : Option ThreadId) :
    (a :: b :: r).find? (fun t => cur ≠ some t) = some (if cur = some a then b else a) := by
  by_cases ha : cur = some a
  · simp [ha, hab]
  · simp [ha]

/-- The current thread after a pass on a core that is up, with two threads or more. -/
theorem Contenders.turn (h : Contenders s i p) (hmax : p < 0xFFFFFFFF) {a b : ThreadId} {r : List ThreadId}
    (hl : s.threadList = a :: b :: r) (hb : (s.cores i).state ≠ .booting) :
    ((Sched.passes i s 1).cores i).currentThread =
      some (if (s.cores i).currentThread = some a then b else a) := by
  obtain ⟨s', hs', -, -, -, hcase⟩ := h.pass (by omega)
  have hab : a ≠ b := by
    have := h.once
    rw [hl] at this
    simp only [List.nodup_cons, List.mem_cons, not_or] at this
    exact this.1.1
  rw [Sched.passes, Sched.passes, hs']
  rcases hcase with ⟨hboot, -⟩ | ⟨-, hcur⟩
  · exact absurd hboot hb
  · rw [hcur, h.pick hmax, hl, find?_not_current hab]
    rfl

/-- With one thread or two, everyone runs within as many passes once the core is up. -/
theorem Contenders.short_turn (h : Contenders s i p) (hmax : p < 0xFFFFFFFF)
    (hk : s.threadList.length ≤ 2) {t : ThreadId} (ht : t ∈ s.threadList)
    (hb : (s.cores i).state ≠ .booting) :
    ∃ j, 1 ≤ j ∧ j ≤ s.threadList.length ∧ ((Sched.passes i s j).cores i).currentThread = some t := by
  match hl : s.threadList with
  | [] => exact absurd hl h.nonempty
  | [a] =>
    obtain rfl : t = a := by simpa [hl] using ht
    refine ⟨1, le_rfl, by simp, ?_⟩
    obtain ⟨s', hs', -, -, -, ⟨hboot, -⟩ | ⟨-, hcur⟩⟩ := h.pass (by omega)
    · exact absurd hboot hb
    · rw [Sched.passes, Sched.passes, hs', hcur, h.pick hmax, hl]
      by_cases hc : (s.cores i).currentThread = some t
      · simp [hc]
      · simp [hc]
  | [a, b] =>
    obtain ⟨s', hs', h', hl', hb', -⟩ := h.pass (by omega)
    have hturn := h.turn hmax hl hb
    have hturn' := h'.turn hmax (hl'.trans hl) hb'
    have h1 : Sched.passes i s 1 = s' := hs'
    have h2 : Sched.passes i s 2 = Sched.passes i s' 1 := by rw [passes_add 1 1, h1]
    rw [h1] at hturn
    rw [← h2, hturn] at hturn'
    have hab : a ≠ b := by
      have := h.once
      rw [hl] at this
      simpa using this
    rw [hl, List.mem_cons, List.mem_singleton] at ht
    by_cases hc : (s.cores i).currentThread = some a
    · rw [if_pos hc] at hturn hturn'
      rw [if_neg (by simpa using Ne.symm hab)] at hturn'
      rcases ht with rfl | rfl
      · exact ⟨2, by omega, by simp, hturn'⟩
      · exact ⟨1, le_rfl, by simp, by rw [h1, hturn]⟩
    · rw [if_neg hc] at hturn hturn'
      rw [if_pos rfl] at hturn'
      rcases ht with rfl | rfl
      · exact ⟨1, le_rfl, by simp, by rw [h1, hturn]⟩
      · exact ⟨2, by omega, by simp, hturn'⟩
  | _ :: _ :: _ :: _ => simp [hl] at hk

/-- A booting core takes one pass more. -/
theorem Contenders.short_wait (h : Contenders s i p) (hmax : p < 0xFFFFFFFF)
    (hk : s.threadList.length ≤ 2) {t : ThreadId} (ht : t ∈ s.threadList) :
    ∃ j, 1 ≤ j ∧ j ≤ s.threadList.length + 1 ∧
      ((Sched.passes i s j).cores i).currentThread = some t := by
  by_cases hb : (s.cores i).state = .booting
  · obtain ⟨s', hs', h', hl', hb', -⟩ := h.pass (by omega)
    obtain ⟨j, hj1, hj2, hcur⟩ := h'.short_turn hmax (by rw [hl']; exact hk) (by rw [hl']; exact ht) hb'
    refine ⟨1 + j, by omega, by rw [hl'] at hj2; omega, ?_⟩
    rw [passes_add 1 j, show Sched.passes i s 1 = s' from hs', hcur]
  · obtain ⟨j, hj1, hj2, hcur⟩ := h.short_turn hmax hk ht hb
    exact ⟨j, hj1, by omega, hcur⟩

/-- A thread behind the first two is never current after a pass. -/
theorem Contenders.starved (h : Contenders s i p) (hmax : p < 0xFFFFFFFF) {a b d : ThreadId}
    {r : List ThreadId} (hl : s.threadList = a :: b :: d :: r) (n : ℕ) :
    ((Sched.passes i s (n + 1)).cores i).currentThread ≠ some d := by
  obtain ⟨hn, hln⟩ := h.passes (by omega) n
  obtain ⟨s', hs', -, -, -, hcase⟩ := hn.pass (by omega)
  have honce := h.once
  rw [hl] at honce hln
  simp only [List.nodup_cons, List.mem_cons, not_or] at honce
  rw [Sched.passes, hs']
  rcases hcase with ⟨-, hcur⟩ | ⟨hb, hcur⟩
  · rw [hcur]
    simp
  · rw [hcur, hn.pick hmax, hln, find?_not_current honce.1.1]
    by_cases hc : ((Sched.passes i s n).cores i).currentThread = some a
    · simp [hc, honce.2.1.1]
    · simp [hc, honce.1.2.1]

/-- Nothing changes for threads that are never picked. -/
theorem Contenders.stuck (h : Contenders s i 0xFFFFFFFF) (n : ℕ) :
    ((Sched.passes i s n).cores i).currentThread = (s.cores i).currentThread := by
  induction n with
  | zero => rfl
  | succ n ih =>
    obtain ⟨hn, -⟩ := h.passes (by omega) n
    obtain ⟨s', hs', -, -, -, hcase⟩ := hn.pass (by omega)
    rw [Sched.passes, hs', ← ih]
    rcases hcase with ⟨hboot, hcur⟩ | ⟨-, hcur⟩
    · have hst := hn.state
      rw [hboot] at hst
      rw [hcur, hst]
    · rw [hcur, hn.pick_none]
      rfl

/-- Every one of the threads is current at least once in any `k + 1` consecutive passes if and
only if there are at most two of them and their priority can be picked, or the only one has the
core already. -/
theorem everyone_runs_iff (h : Contenders s i p) (hp : p < 2 ^ 32) :
    EveryoneRuns i s ↔ (s.threadList.length ≤ 2 ∧ p < 0xFFFFFFFF) ∨
      (s.threadList.length = 1 ∧ (s.cores i).state = .online) := by
  constructor
  · intro hall
    by_cases hmax : p < 0xFFFFFFFF
    · refine Or.inl ⟨?_, hmax⟩
      by_contra hk
      match hl : s.threadList with
      | [] => simp [hl] at hk
      | [_] => simp [hl] at hk
      | [_, _] => simp [hl] at hk
      | a :: b :: d :: r =>
        obtain ⟨j, hj, -, hcur⟩ := hall 0 d (by simp [hl])
        obtain ⟨m, rfl⟩ : ∃ m, j = m + 1 := ⟨j - 1, by omega⟩
        rw [Nat.zero_add] at hcur
        exact h.starved hmax hl m hcur
    · obtain rfl : p = 0xFFFFFFFF := by omega
      right
      -- the current thread of the core is the only one that ever runs
      have hone : ∀ t ∈ s.threadList, (s.cores i).currentThread = some t := by
        intro t ht
        obtain ⟨j, -, -, hcur⟩ := hall 0 t ht
        rwa [h.stuck] at hcur
      obtain ⟨t, ht⟩ := List.exists_mem_of_ne_nil _ h.nonempty
      constructor
      · match hl : s.threadList with
        | [] => exact absurd hl h.nonempty
        | [_] => rfl
        | a :: b :: r =>
          have ha := hone a (by simp [hl])
          rw [hone b (by simp [hl]), Option.some.injEq] at ha
          have := h.once
          rw [hl, ha] at this
          simp at this
      · have hst := h.state
        have hcur := hone t ht
        cases hstate : (s.cores i).state with
        | online => rfl
        | offline => rw [hstate] at hst; exact hst.elim
        | idle => rw [hstate] at hst; rw [hst] at hcur; cases hcur
        | booting => rw [hstate] at hst; rw [hst] at hcur; cases hcur
  · intro hcond n t ht
    obtain ⟨hn, hln⟩ := h.passes hp n
    by_cases hmax : p < 0xFFFFFFFF
    · have hk : s.threadList.length ≤ 2 := by omega
      obtain ⟨j, hj1, hj2, hcur⟩ := hn.short_wait hmax (by rw [hln]; exact hk) (by rw [hln]; exact ht)
      rw [hln] at hj2
      exact ⟨j, hj1, hj2, by rw [passes_add, hcur]⟩
    · obtain rfl : p = 0xFFFFFFFF := by omega
      rcases hcond with ⟨-, hlt⟩ | ⟨hk, hstate⟩
      · exact absurd hlt hmax
      · have hst := h.state
        rw [hstate] at hst
        obtain ⟨c, hc, hcur⟩ := hst
        obtain ⟨a, hl⟩ := List.length_eq_one_iff.mp hk
        rw [hl, List.mem_singleton] at hc ht
        exact ⟨1, le_rfl, by omega, by rw [h.stuck, hcur, hc, ht]⟩

end Contend

/-- One core that is up, and the threads of the list `1, …, k`. -/
def oneCoreWith (k : ℕ) : System Unit where
  cores _ := ⟨false, false, false, 0, .idle, none, 100, 0, 0⟩
  threads t := ⟨t, .stopped, -1, 0, 0, 0, 0⟩
  threadList := List.range' 1 k
  procList := []
  procThreads _ := []
  kernelProc := 0
  schedLock := false
  globalTicks := 0

theorem oneCoreWith_contenders {k : ℕ} (hk : 1 ≤ k) : Contenders (oneCoreWith k) () 0 := by
  refine ⟨?_, List.nodup_range', fun _ _ => rfl, fun _ _ => rfl, fun _ _ => rfl, rfl⟩
  simp only [oneCoreWith, ne_eq, List.range'_eq_nil_iff]
  omega

theorem everyone_runs_two : EveryoneRuns () (oneCoreWith 2) :=
  (everyone_runs_iff (oneCoreWith_contenders (by decide)) (by decide)).mpr (Or.inl ⟨by decide, by decide⟩)

/-- The third of three threads is not current after any of four passes. -/
theorem third_thread_starves : ¬∀ k, 1 ≤ k → EveryoneRuns () (oneCoreWith k) := by
  intro hall
  obtain ⟨j, hj1, hj4, hcur⟩ := hall 3 (by decide) 0 3 (by decide)
  have hk : (oneCoreWith 3).threadList.length = 3 := rfl
  rw [hk] at hj4
  interval_cases j <;> exact absurd hcur (by decide)

end JustKernel.Sched
