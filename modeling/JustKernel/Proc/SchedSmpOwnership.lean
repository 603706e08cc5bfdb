import JustKernel.Proc.SchedSmp
import JustKernel.Proc.SchedOwnership
import JustKernel.Base.Tenancy

/-! No thread runs on two cores, at the grain of single memory accesses. The cores'
steps simulate the tenancy protocol: a core is inside while it holds `_sched_lock`, a
thread is free, taken, parked or dead as its state says, and the tenant of a thread
is the core that has it as its current thread, except between the write that gives
the thread away and the write that replaces it. -/

namespace JustKernel.SchedSmp

open Runs Sched
open Tenancy (Status Estate)

variable {C : Type} [DecidableEq C]

/-! ### The abstraction -/

/-- The core holds `_sched_lock`. An assertion that fails there never lets it go. -/
@[simp] def Position.inside : Position → Bool
  | .pass | .wake _ | .wakeRead _ _ | .wakeWrite _ _ _ | .wakeTest _ _ | .wakeStop _ _
  | .pick _ _ _ | .switch _ | .saveState _ _ | .saveRegs _ _ | .loadRegs _ | .loadState _ | .unlock
  | .runBody _ | .runTest _ _ | .runLink _ _ _ | .runUnlock | .failed _ => true
  | .away | .timer | .quitState _ _ | .quitRegs _ _ | .quitRecord _ _ | .fault | .tail | .leave
  | .tryLock | .runLock _ | .halted => false

/-- The core's current thread is no longer, or not yet, its own. -/
@[simp] def Position.between : Position → Bool
  | .quitRegs _ _ | .quitRecord _ _ | .saveRegs _ _ | .loadRegs _ | .loadState _ => true
  | _ => false

@[simp] def Position.choice : Position → Option ThreadId
  | .pick _ picked _ => picked
  | .switch new => new
  | .saveState _ new | .saveRegs _ new | .loadRegs new | .loadState new => some new
  | _ => none

@[simp] def Position.marked : Position → Option ThreadId
  | .wakeRead t _ | .wakeWrite t _ _ | .wakeTest t _ | .wakeStop t _ => some t
  | _ => none

def statusOf : ThreadState → Status
  | .stopped => .free
  | .running => .taken
  | .sleeping => .parked
  | .terminated => .dead

/-- The thread a core owns. -/
def Smp.owned (s : Smp C) (i : C) : Option ThreadId :=
  if (s.pos i).between then none else (s.sys.cores i).currentThread

/-- The threads a core may pick, by the pins of the threads and the numbers of the cores. -/
def Fits (pins : ThreadId → ℤ) (ids : C → ℕ) (i : C) (t : ThreadId) : Prop :=
  pins t = -1 ∨ pins t = (ids i : ℤ)

/-- The estate of a system. -/
structure Smp.Abstracts (pins : ThreadId → ℤ) (ids : C → ℕ) (s : Smp C) (e : Estate C ThreadId) :
    Prop where
  status : ∀ t, e.status t = statusOf (s.sys.threads t).state
  tenant : ∀ i, e.tenant i = s.owned i
  inside : ∀ i, e.inside = some i ↔ (s.pos i).inside = true
  lock : s.sys.schedLock = e.inside.isSome
  choice : ∀ i, (s.pos i).inside = true → e.choice = (s.pos i).choice
  marked : ∀ i, (s.pos i).inside = true → e.marked = (s.pos i).marked
  pin : ∀ t, (s.sys.threads t).cpu = pins t
  coreId : ∀ i, (s.sys.cores i).coreId = ids i

/-- What the place of a core says about its locals. -/
def Settled (mayFault : Prop) (core : Core) : Position → Prop
  | .quitState t _ | .quitRegs t _ | .quitRecord t _ => core.currentThread = some t
  | .fault => core.currentThread ≠ none → mayFault
  | .saveState t _ | .saveRegs t _ => core.currentThread = some t ∧ core.state = .online
  | .loadRegs _ => core.state = .online ∨ core.state = .idle
  | .loadState new => core.currentThread = some new ∧ core.state = .online
  | .runTest a _ | .runLink a _ _ => a = .runThread ∨ a = .runProcThread
  | .failed a => a = .runThread ∨ a = .runProcThread ∨ a = .runProcEmpty ∨ mayFault ∧ a = .schedOnlineRunning
  | _ => True

/-- A core has a current thread exactly when it is online. -/
def Busy (core : Core) : Prop :=
  match core.state with
  | .online => core.currentThread.isSome = true
  | .idle | .booting => core.currentThread = none
  | .offline => True

def Smp.Ok (mayFault : Prop) (s : Smp C) : Prop :=
  ∀ i, Settled mayFault (s.sys.cores i) (s.pos i) ∧ Busy (s.sys.cores i)

/-! ### What a step of a core leaves alone -/

@[simp] theorem goto_sys (s : Smp C) (i : C) (p : Position) : (s.goto i p).sys = s.sys := rfl

@[simp] theorem goto_pos_self (s : Smp C) (i : C) (p : Position) : (s.goto i p).pos i = p :=
  Function.update_self ..

theorem goto_pos_of_ne (s : Smp C) {i j : C} (h : j ≠ i) (p : Position) : (s.goto i p).pos j = s.pos j :=
  Function.update_of_ne h ..

omit [DecidableEq C] in
@[simp] theorem writeThread_pos (s : Smp C) (t : ThreadId) (f : Thread → Thread) :
    (s.writeThread t f).pos = s.pos := rfl

omit [DecidableEq C] in
@[simp] theorem writeThread_sys (s : Smp C) (t : ThreadId) (f : Thread → Thread) :
    (s.writeThread t f).sys = s.sys.updateThread t f := rfl

@[simp] theorem writeCore_pos (s : Smp C) (i : C) (f : Core → Core) : (s.writeCore i f).pos = s.pos := rfl

@[simp] theorem writeCore_sys (s : Smp C) (i : C) (f : Core → Core) :
    (s.writeCore i f).sys = s.sys.updateCore i f := rfl

omit [DecidableEq C] in
@[simp] theorem setLock_sys (s : Smp C) (b : Bool) : (s.setLock b).sys = { s.sys with schedLock := b } := rfl

@[simp] theorem setExtra_sys (s : Smp C) (i : C) (b : Bool) : (s.setExtra i b).sys = s.sys := rfl

omit [DecidableEq C] in
theorem updateThread_state (s : System C) (t : ThreadId) (f : Thread → Thread) (u : ThreadId) :
    ((s.updateThread t f).threads u).state =
      if u = t then (f (s.threads t)).state else (s.threads u).state := by
  rw [updateThread_threads, apply_ite Thread.state]

omit [DecidableEq C] in
theorem updateThread_state_same (s : System C) (t : ThreadId) (f : Thread → Thread)
    (hf : ∀ thread, (f thread).state = thread.state) (u : ThreadId) :
    ((s.updateThread t f).threads u).state = (s.threads u).state := by
  rw [updateThread_state]
  split_ifs with hut
  · rw [hf, hut]
  · rfl

omit [DecidableEq C] in
theorem afterTick_cases (s : System C) : afterTick s = .tryLock ∨ afterTick s = .tail := by
  unfold afterTick
  split_ifs
  · exact Or.inl rfl
  · exact Or.inr rfl

omit [DecidableEq C] in
theorem afterRunner_cases (s : Smp C) (i : C) : s.afterRunner i = .leave ∨ s.afterRunner i = .tail := by
  unfold Smp.afterRunner
  split_ifs
  · exact Or.inl rfl
  · exact Or.inr rfl

/-- Only core `i` moves and changes its locals, and no thread is pinned elsewhere. -/
structure Frame (i : C) (s s' : Smp C) : Prop where
  pos : ∀ j, j ≠ i → s'.pos j = s.pos j
  cores : ∀ j, j ≠ i → s'.sys.cores j = s.sys.cores j
  coreId : (s'.sys.cores i).coreId = (s.sys.cores i).coreId
  cpu : ∀ t, (s'.sys.threads t).cpu = (s.sys.threads t).cpu

variable {i : C} {s s' s'' : Smp C}

omit [DecidableEq C] in
theorem Frame.refl (i : C) (s : Smp C) : Frame i s s :=
  ⟨fun _ _ => rfl, fun _ _ => rfl, rfl, fun _ => rfl⟩

omit [DecidableEq C] in
theorem Frame.trans (h : Frame i s s') (h' : Frame i s' s'') : Frame i s s'' :=
  ⟨fun j hj => (h'.pos j hj).trans (h.pos j hj), fun j hj => (h'.cores j hj).trans (h.cores j hj),
    h'.coreId.trans h.coreId, fun t => (h'.cpu t).trans (h.cpu t)⟩

omit [DecidableEq C] in
theorem Frame.of_eq {sys : System C} (hcores : sys.cores = s.sys.cores)
    (hthreads : sys.threads = s.sys.threads) : Frame i s { s with sys := sys } :=
  ⟨fun _ _ => rfl, fun j _ => congrFun hcores j, by rw [hcores], fun t => by rw [hthreads]⟩

theorem Frame.goto (h : Frame i s s') (p : Position) : Frame i s (s'.goto i p) :=
  h.trans ⟨fun _ hj => Function.update_of_ne hj .., fun _ _ => rfl, rfl, fun _ => rfl⟩

omit [DecidableEq C] in
theorem Frame.writeThread (h : Frame i s s') (t : ThreadId) {f : Thread → Thread}
    (hf : ∀ thread, (f thread).cpu = thread.cpu) : Frame i s (s'.writeThread t f) := by
  refine h.trans ⟨fun _ _ => rfl, fun _ _ => rfl, rfl, fun u => ?_⟩
  rw [writeThread_sys, updateThread_threads]
  split_ifs with hut
  · rw [hf, hut]
  · rfl

theorem Frame.writeCore (h : Frame i s s') {f : Core → Core}
    (hf : ∀ core, (f core).coreId = core.coreId) : Frame i s (s'.writeCore i f) := by
  refine h.trans ⟨fun _ _ => rfl, fun j hj => ?_, ?_, fun _ => rfl⟩
  · rw [writeCore_sys, updateCore_cores, if_neg hj]
  · rw [writeCore_sys, updateCore_cores, if_pos rfl, hf]

theorem Frame.idled (h : Frame i s s') : Frame i s { s' with sys := s'.sys.idled i } :=
  h.writeCore fun _ => rfl

omit [DecidableEq C] in
theorem Frame.setLock (h : Frame i s s') (b : Bool) : Frame i s (s'.setLock b) :=
  h.trans ⟨fun _ _ => rfl, fun _ _ => rfl, rfl, fun _ => rfl⟩

theorem Frame.setExtra (h : Frame i s s') (b : Bool) : Frame i s (s'.setExtra i b) :=
  h.trans ⟨fun _ _ => rfl, fun _ _ => rfl, rfl, fun _ => rfl⟩

theorem decide_frame (s : Smp C) (i : C) (new : Option ThreadId) : Frame i s (s.decide i new) := by
  have hr := Frame.refl i s
  unfold Smp.decide
  cases (s.sys.cores i).state with
  | online =>
    cases (s.sys.cores i).currentThread with
    | none => exact hr.goto _
    | some t => dsimp only; split_ifs <;> exact hr.goto _
  | idle => dsimp only; split_ifs <;> exact hr.goto _
  | booting =>
    dsimp only
    split_ifs
    · exact hr.idled.goto _
    · exact hr.goto _
  | offline => exact hr.goto _

theorem advance_frame (s : Smp C) (i : C) : Frame i s (s.advance i) := by
  have hr := Frame.refl i s
  unfold Smp.advance
  split
  case h_1 => exact hr
  case h_2 => exact Frame.goto (Frame.of_eq (by rfl) (by rfl)) _
  case h_3 => exact (hr.writeThread _ (by intro; rfl)).goto _
  case h_4 => exact (hr.writeThread _ (by intro; rfl)).goto _
  case h_5 t q _ =>
    have hquit : ∀ thread, (q.record thread).cpu = thread.cpu := by cases q <;> exact fun _ => rfl
    exact ((hr.writeThread t hquit).writeCore (by intro; rfl)).idled.goto _
  case h_6 =>
    cases (s.sys.cores i).currentThread with
    | none => exact (hr.writeCore (by intro; rfl)).goto _
    | some t => exact ((hr.writeThread t (by intro; rfl)).writeCore (by intro; rfl)).goto _
  case h_7 =>
    split_ifs
    · exact (hr.setExtra _).goto _
    · exact hr.goto _
  case h_8 => exact ((hr.setExtra _).writeCore (by intro; rfl)).goto _
  case h_9 =>
    split_ifs
    · exact hr.goto _
    · exact (hr.setLock _).goto _
  case h_10 => exact hr.goto _
  case h_11 => exact hr.goto _
  case h_12 => exact hr.goto _
  case h_13 => exact hr.goto _
  case h_14 => exact (hr.writeThread _ (by intro; rfl)).goto _
  case h_15 => exact hr.goto _
  case h_16 => exact (hr.writeThread _ (by intro; rfl)).goto _
  case h_17 => exact hr.goto _
  case h_18 => exact hr.goto _
  case h_19 => exact decide_frame s i _
  case h_20 => exact (hr.writeThread _ (by intro; rfl)).goto _
  case h_21 => exact (hr.writeThread _ (by intro; rfl)).goto _
  case h_22 => exact (hr.writeCore (by intro; rfl)).goto _
  case h_23 => exact ((hr.writeThread _ (by intro; rfl)).writeCore (by intro; rfl)).goto _
  case h_24 => exact (hr.setLock _).goto _
  case h_25 =>
    split_ifs
    · exact hr
    · exact (hr.setLock _).goto _
  case h_26 => exact hr.goto _
  case h_27 =>
    split_ifs
    · exact hr.goto _
    · exact Frame.goto (Frame.of_eq (by rfl) (by rfl)) _
  case h_28 => exact hr.goto _
  case h_29 => exact hr.goto _
  case h_30 => exact Frame.goto (Frame.of_eq (by rfl) (by rfl)) _
  case h_31 => exact (hr.setLock _).goto _
  case h_32 => exact hr
  case h_33 => exact hr

/-! ### The simulation -/

section Simulation

variable {pins : ThreadId → ℤ} {ids : C → ℕ} {e e' : Estate C ThreadId}

omit [DecidableEq C] in
theorem Frame.owned (hf : Frame i s s') {j : C} (hj : j ≠ i) : s'.owned j = s.owned j := by
  rw [Smp.owned, Smp.owned, hf.pos j hj, hf.cores j hj]

omit [DecidableEq C] in
/-- While a core is inside no other core is. -/
theorem Smp.Abstracts.outside (h : s.Abstracts pins ids e) (hin : (s.pos i).inside = true) {j : C}
    (hj : j ≠ i) : (s.pos j).inside = false := by
  rw [← Bool.not_eq_true, ← h.inside j, (h.inside i).mpr hin, Option.some.injEq]
  exact hj.symm

omit [DecidableEq C] in
/-- A step of core `i` that neither gets nor frees the lock. -/
theorem Smp.Abstracts.step (h : s.Abstracts pins ids e) (hf : Frame i s s')
    (hlock : s'.sys.schedLock = s.sys.schedLock) (hinside : (s'.pos i).inside = (s.pos i).inside)
    (he : e'.inside = e.inside) (hstatus : ∀ t, e'.status t = statusOf (s'.sys.threads t).state)
    (htenant : e'.tenant i = s'.owned i) (htenants : ∀ j, j ≠ i → e'.tenant j = e.tenant j)
    (hchoice : e'.choice = if (s.pos i).inside then (s'.pos i).choice else e.choice)
    (hmarked : e'.marked = if (s.pos i).inside then (s'.pos i).marked else e.marked) :
    s'.Abstracts pins ids e' := by
  refine ⟨hstatus, fun j => ?_, fun j => ?_, ?_, fun j hj => ?_, fun j hj => ?_, fun t => ?_, fun j => ?_⟩
  · by_cases hji : j = i
    · rw [hji, htenant]
    · rw [htenants j hji, hf.owned hji, h.tenant]
  · rw [he, h.inside]
    by_cases hji : j = i
    · rw [hji, hinside]
    · rw [hf.pos j hji]
  · rw [hlock, he, h.lock]
  · by_cases hji : j = i
    · subst hji
      rw [hinside] at hj
      rw [hchoice, if_pos hj]
    · rw [hf.pos j hji] at hj ⊢
      rw [hchoice, h.outside hj (Ne.symm hji), if_neg (by decide), h.choice j hj]
  · by_cases hji : j = i
    · subst hji
      rw [hinside] at hj
      rw [hmarked, if_pos hj]
    · rw [hf.pos j hji] at hj ⊢
      rw [hmarked, h.outside hj (Ne.symm hji), if_neg (by decide), h.marked j hj]
  · rw [hf.cpu, h.pin]
  · by_cases hji : j = i
    · rw [hji, hf.coreId, h.coreId]
    · rw [hf.cores j hji, h.coreId]

omit [DecidableEq C] in
/-- A step that the estate does not show. -/
theorem Smp.Abstracts.quiet (h : s.Abstracts pins ids e) (hf : Frame i s s')
    (hlock : s'.sys.schedLock = s.sys.schedLock) (hinside : (s'.pos i).inside = (s.pos i).inside)
    (hstate : ∀ t, (s'.sys.threads t).state = (s.sys.threads t).state) (howned : s'.owned i = s.owned i)
    (hchoice : (s'.pos i).choice = (s.pos i).choice) (hmarked : (s'.pos i).marked = (s.pos i).marked) :
    s'.Abstracts pins ids e := by
  refine h.step hf hlock hinside rfl (fun t => ?_) ?_ (fun _ _ => rfl) ?_ ?_
  · rw [hstate, h.status]
  · rw [howned, h.tenant]
  · split_ifs with hin
    · rw [hchoice, h.choice i hin]
    · rfl
  · split_ifs with hin
    · rw [hmarked, h.marked i hin]
    · rfl

omit [DecidableEq C] in
/-- A step that gets the lock. -/
theorem Smp.Abstracts.enter (h : s.Abstracts pins ids e) (hf : Frame i s s') (hlock : s'.sys.schedLock = true)
    (hfree : e.inside = none) (hin : (s'.pos i).inside = true)
    (hstate : ∀ t, (s'.sys.threads t).state = (s.sys.threads t).state) (howned : s'.owned i = s.owned i)
    (hchoice : (s'.pos i).choice = none) (hmarked : (s'.pos i).marked = none) :
    s'.Abstracts pins ids { e with inside := some i, choice := none, marked := none } := by
  have hothers : ∀ j, j ≠ i → (s'.pos j).inside = false := by
    intro j hj
    rw [hf.pos j hj, ← Bool.not_eq_true, ← h.inside j, hfree]
    exact Option.some_ne_none j ∘ Eq.symm
  have honly : ∀ j, (s'.pos j).inside = true → j = i := by
    intro j hj
    by_contra hji
    rw [hothers j hji] at hj
    cases hj
  refine ⟨fun t => ?_, fun j => ?_, fun j => ?_, hlock, fun j hj => ?_, fun j hj => ?_, fun t => ?_, fun j => ?_⟩
  · rw [hstate, ← h.status]
  · by_cases hji : j = i
    · rw [hji, howned, ← h.tenant]
    · rw [hf.owned hji, ← h.tenant]
  · constructor
    · intro hj
      cases hj
      exact hin
    · intro hj
      rw [honly j hj]
  · rw [honly j hj, hchoice]
  · rw [honly j hj, hmarked]
  · rw [hf.cpu, h.pin]
  · by_cases hji : j = i
    · rw [hji, hf.coreId, h.coreId]
    · rw [hf.cores j hji, h.coreId]

omit [DecidableEq C] in
/-- A step that frees the lock. -/
theorem Smp.Abstracts.exit (h : s.Abstracts pins ids e) (hf : Frame i s s') (hlock : s'.sys.schedLock = false)
    (hin : (s.pos i).inside = true) (hout : (s'.pos i).inside = false)
    (hstate : ∀ t, (s'.sys.threads t).state = (s.sys.threads t).state) (howned : s'.owned i = s.owned i) :
    s'.Abstracts pins ids { e with inside := none, choice := none, marked := none } := by
  have hothers : ∀ j, (s'.pos j).inside = false := by
    intro j
    by_cases hji : j = i
    · rw [hji, hout]
    · rw [hf.pos j hji, h.outside hin hji]
  refine ⟨fun t => ?_, fun j => ?_, fun j => ?_, hlock, fun j hj => ?_, fun j hj => ?_, fun t => ?_, fun j => ?_⟩
  · rw [hstate, ← h.status]
  · by_cases hji : j = i
    · rw [hji, howned, ← h.tenant]
    · rw [hf.owned hji, ← h.tenant]
  · rw [hothers j]
    simp
  · rw [hothers j] at hj
    cases hj
  · rw [hothers j] at hj
    cases hj
  · rw [hf.cpu, h.pin]
  · by_cases hji : j = i
    · rw [hji, hf.coreId, h.coreId]
    · rw [hf.cores j hji, h.coreId]

theorem Smp.Abstracts.goto (h : s.Abstracts pins ids e) {p : Position} (hinside : p.inside = (s.pos i).inside)
    (hbetween : p.between = (s.pos i).between) (hchoice : p.choice = (s.pos i).choice)
    (hmarked : p.marked = (s.pos i).marked) : (s.goto i p).Abstracts pins ids e := by
  refine h.quiet ((Frame.refl i s).goto p) rfl ?_ (fun _ => rfl) ?_ ?_ ?_
  · rw [goto_pos_self, hinside]
  · rw [Smp.owned, goto_pos_self, hbetween]
    rfl
  · rw [goto_pos_self, hchoice]
  · rw [goto_pos_self, hmarked]

/-- A core inside that chooses, forgets or marks moves on, and nothing else changes. -/
theorem Smp.Abstracts.mark (h : s.Abstracts pins ids e) {p : Position} (hin : (s.pos i).inside = true)
    (hinside : p.inside = true) (hbetween : p.between = (s.pos i).between) :
    (s.goto i p).Abstracts pins ids { e with choice := p.choice, marked := p.marked } := by
  refine h.step ((Frame.refl i s).goto p) rfl ?_ rfl h.status ?_ (fun _ _ => rfl) ?_ ?_
  · rw [goto_pos_self, hinside, hin]
  · rw [Smp.owned, goto_pos_self, hbetween]
    exact h.tenant i
  · rw [goto_pos_self, if_pos hin]
  · rw [goto_pos_self, if_pos hin]

/-- The write of a thread's state. -/
theorem Smp.Abstracts.writeState (h : s.Abstracts pins ids e) (hf : Frame i s s') (t : ThreadId)
    (st : ThreadState) (hlock : s'.sys.schedLock = s.sys.schedLock)
    (hinside : (s'.pos i).inside = (s.pos i).inside)
    (hstate : ∀ u, (s'.sys.threads u).state = if u = t then st else (s.sys.threads u).state) :
    s'.Abstracts pins ids
      { e with
        status := Function.update e.status t (statusOf st)
        tenant := Function.update e.tenant i (s'.owned i)
        choice := if (s.pos i).inside then (s'.pos i).choice else e.choice
        marked := if (s.pos i).inside then (s'.pos i).marked else e.marked } := by
  refine h.step hf hlock hinside rfl (fun u => ?_) (Function.update_self ..)
    (fun j hj => Function.update_of_ne hj ..) rfl rfl
  rw [hstate]
  dsimp only
  by_cases hut : u = t
  · rw [if_pos hut, hut, Function.update_self]
  · rw [if_neg hut, Function.update_of_ne hut, h.status]

/-- The estate can follow a step that leads to `s'`. -/
def Simulated (mayFault : Prop) (pins : ThreadId → ℤ) (ids : C → ℕ) (e : Estate C ThreadId) (s' : Smp C) :
    Prop :=
  ∃ e', (e' = e ∨ Tenancy.Step (Fits pins ids) mayFault e e') ∧ s'.Abstracts pins ids e'

variable {mayFault : Prop}

theorem Smp.Abstracts.stay (h : s'.Abstracts pins ids e) : Simulated mayFault pins ids e s' :=
  ⟨e, Or.inl rfl, h⟩

/-- `sched_thread_exit` and `sched_thread_sleep`: the lock is not held. -/
theorem simulates_quit (h : s.Abstracts pins ids e) (hok : s.Ok mayFault) {t : ThreadId} {q : Quit}
    (hp : s.pos i = .quitState t q ∨ s.pos i = .quitRegs t q ∨ s.pos i = .quitRecord t q) :
    Simulated mayFault pins ids e (s.advance i) := by
  have hset := (hok i).1
  have hf := advance_frame s i
  rcases hp with hp | hp | hp
  · have hten : e.tenant i = some t := by
      rw [hp] at hset
      rw [h.tenant, Smp.owned, hp]
      exact hset
    have hnone : (s.advance i).owned i = none := by simp [Smp.advance, hp, Smp.owned]
    have hst : statusOf q.state = .parked ∨ statusOf q.state = .dead := by
      cases q
      · exact Or.inr rfl
      · exact Or.inl rfl
    have habs := h.writeState hf t q.state (by simp [Smp.advance, hp]; rfl)
      (by simp [Smp.advance, hp]) (fun u => by simp [Smp.advance, hp, updateThread_state])
    rw [hnone, hp] at habs
    exact ⟨_, Or.inr (.abandon i t _ hten hst), habs⟩
  · refine (h.quiet hf ?_ ?_ (fun u => ?_) ?_ ?_ ?_).stay <;> simp only [Smp.advance, hp]
    · rfl
    · simp
    · rw [goto_sys, writeThread_sys]
      exact updateThread_state_same s.sys t _ (by intro; rfl) u
    · simp [Smp.owned, hp]
    · simp
    · simp
  · have hrec : ∀ thread, (q.record thread).state = thread.state := by cases q <;> exact fun _ => rfl
    refine (h.quiet hf ?_ ?_ (fun u => ?_) ?_ ?_ ?_).stay <;> simp only [Smp.advance, hp]
    · rfl
    · simp
    · exact updateThread_state_same s.sys t _ hrec u
    · simp [Smp.owned, hp, idled_currentThread, updateCore_cores]
    · simp
    · simp

/-- `vmm_page_fault`: the lock is not held. -/
theorem simulates_fault (h : s.Abstracts pins ids e) (hok : s.Ok mayFault) (hp : s.pos i = .fault) :
    Simulated mayFault pins ids e (s.advance i) := by
  have hset := (hok i).1
  have hf := advance_frame s i
  rw [hp] at hset
  have howned : (s.advance i).owned i = (s.sys.cores i).currentThread := by
    simp only [Smp.advance, hp, Smp.owned]
    cases hc : (s.sys.cores i).currentThread <;> simp [updateCore_cores, hc]
  cases hc : (s.sys.cores i).currentThread with
  | none =>
    refine (h.quiet hf ?_ ?_ (fun u => ?_) ?_ ?_ ?_).stay
    · simp [Smp.advance, hp, hc]; rfl
    · simp [Smp.advance, hp, hc]
    · simp [Smp.advance, hp, hc]
    · rw [howned, Smp.owned, hp]; rfl
    · simp [Smp.advance, hp, hc]
    · simp [Smp.advance, hp, hc]
  | some t =>
    have hten : e.tenant i = some t := by
      rw [h.tenant, Smp.owned, hp]
      exact hc
    have hmay : mayFault := hset (by rw [hc]; exact Option.some_ne_none t)
    have habs := h.writeState hf t .terminated (by simp [Smp.advance, hp, hc]; rfl)
      (by simp [Smp.advance, hp, hc]) (fun u => by simp [Smp.advance, hp, hc, updateThread_state])
    rw [howned, hc, ← hten, Function.update_eq_self, hp] at habs
    exact ⟨_, Or.inr (.die i t hmay hten), habs⟩

/-- The lock is got or freed. -/
theorem simulates_lock (h : s.Abstracts pins ids e)
    (hp : s.pos i = .tryLock ∨ s.pos i = .unlock ∨ (∃ job, s.pos i = .runLock job) ∨ s.pos i = .runUnlock) :
    Simulated mayFault pins ids e (s.advance i) := by
  have hf := advance_frame s i
  have hfree : s.sys.schedLock = false → e.inside = none := by
    intro hlock
    rwa [h.lock, Option.isSome_eq_false_iff, Option.isNone_iff_eq_none] at hlock
  have hafter := afterRunner_cases s i
  rcases hp with hp | hp | ⟨job, hp⟩ | hp
  · cases hlock : s.sys.schedLock with
    | true =>
      simp only [Smp.advance, hp, hlock, if_true]
      rcases hafter with hto | hto <;> rw [hto] <;> refine (h.goto ?_ ?_ ?_ ?_).stay <;> rw [hp] <;> rfl
    | false =>
      refine ⟨_, Or.inr (.enter i (hfree hlock)), h.enter hf ?_ (hfree hlock) ?_ (fun u => ?_) ?_ ?_ ?_⟩ <;>
        simp [Smp.advance, hp, hlock, Smp.owned]
  · refine ⟨_, Or.inr (.exit i ((h.inside i).mpr (by rw [hp]; rfl))),
      h.exit hf ?_ ?_ ?_ (fun u => ?_) ?_⟩ <;>
      rcases hafter with hto | hto <;> simp [Smp.advance, hp, Smp.owned, hto]
  · cases hlock : s.sys.schedLock with
    | true =>
      simp only [Smp.advance, hp, hlock, if_true]
      exact h.stay
    | false =>
      refine ⟨_, Or.inr (.enter i (hfree hlock)), h.enter hf ?_ (hfree hlock) ?_ (fun u => ?_) ?_ ?_ ?_⟩ <;>
        simp [Smp.advance, hp, hlock, Smp.owned]
  · refine ⟨_, Or.inr (.exit i ((h.inside i).mpr (by rw [hp]; rfl))),
      h.exit hf ?_ ?_ ?_ (fun u => ?_) ?_⟩ <;>
      simp [Smp.advance, hp, Smp.owned]

/-- A pass looks for sleepers to wake. -/
theorem simulates_wake (h : s.Abstracts pins ids e) (hin : e.inside = some i)
    (hp : (∃ l, s.pos i = .wake l) ∨ (∃ t l, s.pos i = .wakeRead t l) ∨
      (∃ t left l, s.pos i = .wakeWrite t left l) ∨ (∃ t l, s.pos i = .wakeTest t l) ∨
      ∃ t l, s.pos i = .wakeStop t l) : Simulated mayFault pins ids e (s.advance i) := by
  have hf := advance_frame s i
  rcases hp with ⟨l, hp⟩ | ⟨t, l, hp⟩ | ⟨t, left, l, hp⟩ | ⟨t, l, hp⟩ | ⟨t, l, hp⟩
  · have hch := h.choice i (by rw [hp]; rfl)
    have hmk := h.marked i (by rw [hp]; rfl)
    rw [hp] at hch hmk
    cases l with
    | nil =>
      simp only [Smp.advance, hp]
      exact (h.goto (by rw [hp]; rfl) (by rw [hp]; rfl) (by rw [hp]; rfl) (by rw [hp]; rfl)).stay
    | cons t l =>
      simp only [Smp.advance, hp]
      by_cases hst : (s.sys.threads t).state = .sleeping
      · rw [if_pos hst]
        have habs := h.mark (p := .wakeRead t l) (by rw [hp]; rfl) rfl (by rw [hp]; rfl)
        rw [show (Position.wakeRead t l).choice = e.choice from hch.symm] at habs
        exact ⟨_, Or.inr (.mark i t hin (by rw [h.status, hst]; rfl)), habs⟩
      · rw [if_neg hst]
        exact (h.goto (by rw [hp]; rfl) (by rw [hp]; rfl) (by rw [hp]; rfl) (by rw [hp]; rfl)).stay
  · simp only [Smp.advance, hp]
    exact (h.goto (by rw [hp]; rfl) (by rw [hp]; rfl) (by rw [hp]; rfl) (by rw [hp]; rfl)).stay
  · refine (h.quiet hf ?_ ?_ (fun u => ?_) ?_ ?_ ?_).stay <;> simp only [Smp.advance, hp]
    · rfl
    · simp
    · rw [goto_sys, writeThread_sys]
      exact updateThread_state_same s.sys t _ (by intro; rfl) u
    · simp [Smp.owned, hp]
    · simp
    · simp
  · have hch := h.choice i (by rw [hp]; rfl)
    rw [hp] at hch
    simp only [Smp.advance, hp]
    by_cases hleft : (s.sys.threads t).sleepTime = 0
    · rw [if_pos hleft]
      exact (h.goto (by rw [hp]; rfl) (by rw [hp]; rfl) (by rw [hp]; rfl) (by rw [hp]; rfl)).stay
    · rw [if_neg hleft]
      have habs := h.mark (p := .wake l) (by rw [hp]; rfl) rfl (by rw [hp]; rfl)
      rw [show (Position.wake l).choice = e.choice from hch.symm] at habs
      exact ⟨_, Or.inr (.unmark i hin), habs⟩
  · have hch := h.choice i (by rw [hp]; rfl)
    have hmk := h.marked i (by rw [hp]; rfl)
    rw [hp] at hch hmk
    have howned : (s.advance i).owned i = e.tenant i := by
      rw [h.tenant]
      simp [Smp.advance, hp, Smp.owned]
    have habs := h.writeState hf t .stopped (by simp [Smp.advance, hp]; rfl)
      (by simp [Smp.advance, hp]) (fun u => by simp [Smp.advance, hp, updateThread_state])
    rw [howned, Function.update_eq_self, hp] at habs
    simp only [Smp.advance, hp, goto_pos_self] at habs ⊢
    exact ⟨_, Or.inr (.unpark i t hin hmk), by rw [hch]; exact habs⟩

/-- A pass picks a thread. -/
theorem simulates_pick (h : s.Abstracts pins ids e) (hin : e.inside = some i) {l : List ThreadId}
    {picked : Option ThreadId} {minPriority : ℕ} (hp : s.pos i = .pick l picked minPriority) :
    Simulated mayFault pins ids e (s.advance i) := by
  have hmk := h.marked i (by rw [hp]; rfl)
  rw [hp] at hmk
  cases l with
  | nil =>
    simp only [Smp.advance, hp]
    exact (h.goto (by rw [hp]; rfl) (by rw [hp]; rfl) (by rw [hp]; rfl) (by rw [hp]; rfl)).stay
  | cons t l =>
    simp only [Smp.advance, hp]
    split_ifs with ht
    · have habs := h.mark (p := .pick l (some t) (s.sys.threads t).priority) (by rw [hp]; rfl) rfl
        (by rw [hp]; rfl)
      rw [show (Position.pick l (some t) _).marked = e.marked from hmk.symm] at habs
      refine ⟨_, Or.inr (.choose i t hin ?_ ?_), habs⟩
      · rw [h.status, ht.2.1]
        rfl
      · have hpin := ht.1
        rwa [h.pin, h.coreId] at hpin
    · exact (h.goto (by rw [hp]; rfl) (by rw [hp]; rfl) (by rw [hp]; rfl) (by rw [hp]; rfl)).stay

/-- The `switch` of `_sched`. -/
theorem simulates_switch (h : s.Abstracts pins ids e) (hin : e.inside = some i) {new : Option ThreadId}
    (hp : s.pos i = .switch new) : Simulated mayFault pins ids e (s.advance i) := by
  have hch := h.choice i (by rw [hp]; rfl)
  have hmk := h.marked i (by rw [hp]; rfl)
  have howned := h.tenant i
  rw [hp] at hch hmk
  -- giving up on the choice
  have hforget : ∀ p : Position, p.inside = true → p.between = false → p.choice = none → p.marked = none →
      Simulated mayFault pins ids e (s.goto i p) := by
    intro p hpin hpb hpc hpm
    have habs := h.mark (p := p) (by rw [hp]; rfl) hpin (by rw [hp, hpb]; rfl)
    rw [hpc, hpm.trans hmk.symm] at habs
    exact ⟨_, Or.inr (.forget i hin), habs⟩
  have hunlock := hforget .unlock rfl rfl rfl rfl
  have hfailed := fun a => hforget (.failed a) rfl rfl rfl rfl
  simp only [Smp.advance, hp]
  unfold Smp.decide
  cases hstate : (s.sys.cores i).state with
  | online =>
    dsimp only
    cases hcur : (s.sys.cores i).currentThread with
    | none => exact hfailed _
    | some t =>
      dsimp only
      split_ifs with hrun
      · cases new with
        | none => exact hunlock
        | some n => exact (h.goto (by rw [hp]; rfl) (by rw [hp]; rfl) (by rw [hp]; rfl) (by rw [hp]; rfl)).stay
      · exact hfailed _
  | idle =>
    dsimp only
    split_ifs with hcur
    · cases new with
      | none => exact hunlock
      | some n =>
        refine (h.quiet ((Frame.refl i s).goto _) rfl ?_ (fun _ => rfl) ?_ ?_ ?_).stay <;>
          simp [hp, Smp.owned, hcur]
    · exact hfailed _
  | booting =>
    dsimp only
    split_ifs with hcur
    · have hf : Frame i s (({ s with sys := s.sys.idled i } : Smp C).goto i .unlock) :=
        (Frame.refl i s).idled.goto _
      refine ⟨{ e with choice := none }, Or.inr (.forget i hin),
        h.step hf rfl ?_ rfl h.status ?_ (fun _ _ => rfl) ?_ ?_⟩
      · simp [hp]
      · rw [howned, Smp.owned, Smp.owned, goto_pos_self, hp, goto_sys, idled_currentThread]
        rfl
      · simp [hp]
      · simpa [hp] using hmk
    · exact hfailed _
  | offline => exact hunlock

/-- A pass hands the core over. -/
theorem simulates_handOver (h : s.Abstracts pins ids e) (hok : s.Ok mayFault) (hin : e.inside = some i)
    (hp : (∃ t new, s.pos i = .saveState t new) ∨ (∃ t new, s.pos i = .saveRegs t new) ∨
      (∃ new, s.pos i = .loadRegs new) ∨ ∃ new, s.pos i = .loadState new) :
    Simulated mayFault pins ids e (s.advance i) := by
  have hset := (hok i).1
  have hf := advance_frame s i
  rcases hp with ⟨t, new, hp⟩ | ⟨t, new, hp⟩ | ⟨new, hp⟩ | ⟨new, hp⟩
  · have hch := h.choice i (by rw [hp]; rfl)
    have hmk := h.marked i (by rw [hp]; rfl)
    rw [hp] at hset hch hmk
    have hten : e.tenant i = some t := by
      rw [h.tenant, Smp.owned, hp]
      exact hset.1
    have hnone : (s.advance i).owned i = none := by simp [Smp.advance, hp, Smp.owned]
    have habs := h.writeState hf t .stopped (by simp [Smp.advance, hp]; rfl)
      (by simp [Smp.advance, hp]) (fun u => by simp [Smp.advance, hp, updateThread_state])
    rw [hnone, hp] at habs
    simp only [Smp.advance, hp, goto_pos_self] at habs ⊢
    exact ⟨_, Or.inr (.giveBack i t hin hten), by rw [hch, hmk]; exact habs⟩
  · refine (h.quiet hf ?_ ?_ (fun u => ?_) ?_ ?_ ?_).stay <;> simp only [Smp.advance, hp]
    · rfl
    · simp
    · rw [goto_sys, writeThread_sys]
      exact updateThread_state_same s.sys t _ (by intro; rfl) u
    · simp [Smp.owned, hp]
    · simp
    · simp
  · refine (h.quiet hf ?_ ?_ (fun u => ?_) ?_ ?_ ?_).stay <;> simp [Smp.advance, hp, Smp.owned]
    rfl
  · have hch := h.choice i (by rw [hp]; rfl)
    have hmk := h.marked i (by rw [hp]; rfl)
    rw [hp] at hset hch hmk
    have hten : e.tenant i = none := by rw [h.tenant, Smp.owned, hp]; rfl
    have howned : (s.advance i).owned i = some new := by
      simp [Smp.advance, hp, Smp.owned, updateCore_cores, hset.1]
    have habs := h.writeState hf new .running (by simp [Smp.advance, hp]; rfl)
      (by simp [Smp.advance, hp]) (fun u => by simp [Smp.advance, hp, updateThread_state])
    rw [howned, hp] at habs
    simp only [Smp.advance, hp, goto_pos_self] at habs ⊢
    exact ⟨_, Or.inr (.take i new hin hch hten), by rw [hmk]; exact habs⟩

/-- Every step of every core is a step of the estate, or none. -/
theorem advance_simulates (h : s.Abstracts pins ids e) (hok : s.Ok mayFault) (i : C) :
    Simulated mayFault pins ids e (s.advance i) := by
  have hin : (s.pos i).inside = true → e.inside = some i := (h.inside i).mpr
  have hgoto : ∀ p : Position, p.inside = (s.pos i).inside → p.between = (s.pos i).between →
      p.choice = (s.pos i).choice → p.marked = (s.pos i).marked →
      Simulated mayFault pins ids e (s.goto i p) := fun p h1 h2 h3 h4 => (h.goto h1 h2 h3 h4).stay
  cases hp : s.pos i with
  | quitState t q => exact simulates_quit h hok (Or.inl hp)
  | quitRegs t q => exact simulates_quit h hok (Or.inr (Or.inl hp))
  | quitRecord t q => exact simulates_quit h hok (Or.inr (Or.inr hp))
  | fault => exact simulates_fault h hok hp
  | tryLock => exact simulates_lock h (Or.inl hp)
  | unlock => exact simulates_lock h (Or.inr (Or.inl hp))
  | runLock job => exact simulates_lock h (Or.inr (Or.inr (Or.inl ⟨job, hp⟩)))
  | runUnlock => exact simulates_lock h (Or.inr (Or.inr (Or.inr hp)))
  | wake l => exact simulates_wake h (hin (by rw [hp]; rfl)) (Or.inl ⟨l, hp⟩)
  | wakeRead t l => exact simulates_wake h (hin (by rw [hp]; rfl)) (Or.inr (Or.inl ⟨t, l, hp⟩))
  | wakeWrite t left l =>
    exact simulates_wake h (hin (by rw [hp]; rfl)) (Or.inr (Or.inr (Or.inl ⟨t, left, l, hp⟩)))
  | wakeTest t l =>
    exact simulates_wake h (hin (by rw [hp]; rfl)) (Or.inr (Or.inr (Or.inr (Or.inl ⟨t, l, hp⟩))))
  | wakeStop t l =>
    exact simulates_wake h (hin (by rw [hp]; rfl)) (Or.inr (Or.inr (Or.inr (Or.inr ⟨t, l, hp⟩))))
  | pick l picked minPriority => exact simulates_pick h (hin (by rw [hp]; rfl)) hp
  | switch new => exact simulates_switch h (hin (by rw [hp]; rfl)) hp
  | saveState t new => exact simulates_handOver h hok (hin (by rw [hp]; rfl)) (Or.inl ⟨t, new, hp⟩)
  | saveRegs t new => exact simulates_handOver h hok (hin (by rw [hp]; rfl)) (Or.inr (Or.inl ⟨t, new, hp⟩))
  | loadRegs new =>
    exact simulates_handOver h hok (hin (by rw [hp]; rfl)) (Or.inr (Or.inr (Or.inl ⟨new, hp⟩)))
  | loadState new =>
    exact simulates_handOver h hok (hin (by rw [hp]; rfl)) (Or.inr (Or.inr (Or.inr ⟨new, hp⟩)))
  | away | failed a | halted =>
    simp only [Smp.advance, hp]
    exact h.stay
  | timer =>
    obtain hto | hto := afterTick_cases { s.sys with globalTicks := (s.sys.globalTicks + 1) % 2 ^ 32 } <;>
      refine (h.quiet (advance_frame s i) ?_ ?_ (fun u => ?_) ?_ ?_ ?_).stay <;>
      simp only [Smp.advance, hp, hto, goto_sys, goto_pos_self, Smp.owned] <;> rfl
  | tail =>
    refine (h.quiet (advance_frame s i) ?_ ?_ (fun u => ?_) ?_ ?_ ?_).stay <;>
      cases hre : (s.sys.cores i).needResched <;> simp [Smp.advance, hp, hre, Smp.owned]
  | leave =>
    refine (h.quiet (advance_frame s i) ?_ ?_ (fun u => ?_) ?_ ?_ ?_).stay <;>
      simp [Smp.advance, hp, Smp.owned, updateCore_cores]
    rfl
  | pass =>
    simp only [Smp.advance, hp]
    split_ifs <;> exact hgoto _ (by rw [hp]; rfl) (by rw [hp]; rfl) (by rw [hp]; rfl) (by rw [hp]; rfl)
  | runBody job =>
    cases job with
    | thread t =>
      simp only [Smp.advance, hp]
      exact hgoto _ (by rw [hp]; rfl) (by rw [hp]; rfl) (by rw [hp]; rfl) (by rw [hp]; rfl)
    | proc p =>
      by_cases hempty : s.sys.procThreads p = []
      · simp only [Smp.advance, hp, if_pos hempty]
        exact hgoto _ (by rw [hp]; rfl) (by rw [hp]; rfl) (by rw [hp]; rfl) (by rw [hp]; rfl)
      · refine (h.quiet (advance_frame s i) ?_ ?_ (fun u => ?_) ?_ ?_ ?_).stay <;>
          simp [Smp.advance, hp, hempty, Smp.owned]
  | runTest a l =>
    cases l with
    | nil =>
      simp only [Smp.advance, hp]
      exact hgoto _ (by rw [hp]; rfl) (by rw [hp]; rfl) (by rw [hp]; rfl) (by rw [hp]; rfl)
    | cons t l =>
      simp only [Smp.advance, hp]
      split_ifs <;> exact hgoto _ (by rw [hp]; rfl) (by rw [hp]; rfl) (by rw [hp]; rfl) (by rw [hp]; rfl)
  | runLink a t l =>
    refine (h.quiet (advance_frame s i) ?_ ?_ (fun u => ?_) ?_ ?_ ?_).stay <;>
      simp [Smp.advance, hp, Smp.owned]

end Simulation

/-! ### What the places say about the locals -/

variable {mayFault : Prop} {pins : ThreadId → ℤ} {ids : C → ℕ} {e : Estate C ThreadId}

/-- A core that moves without touching its locals. -/
theorem Smp.Ok.goto (h : s.Ok mayFault) {sys : System C} (hcores : sys.cores = s.sys.cores) {p : Position}
    (hp : Settled mayFault (s.sys.cores i) p) : (({ s with sys := sys } : Smp C).goto i p).Ok mayFault := by
  intro j
  rw [goto_sys, hcores]
  refine ⟨?_, (h j).2⟩
  by_cases hji : j = i
  · rw [hji, goto_pos_self]
    exact hp
  · rw [goto_pos_of_ne _ hji]
    exact (h j).1

/-- A core that moves and changes its locals. -/
theorem Smp.Ok.writeCore (h : s.Ok mayFault) {sys : System C} {f : Core → Core} {p : Position}
    (hcores : sys.cores = (s.sys.updateCore i f).cores)
    (hp : Settled mayFault (f (s.sys.cores i)) p ∧ Busy (f (s.sys.cores i))) :
    (({ s with sys := sys } : Smp C).goto i p).Ok mayFault := by
  intro j
  rw [goto_sys, hcores, updateCore_cores]
  by_cases hji : j = i
  · rw [hji, goto_pos_self, if_pos rfl]
    exact hp
  · rw [if_neg hji, goto_pos_of_ne _ hji]
    exact h j

omit [DecidableEq C] in
theorem afterRunner_settled (s : Smp C) (i : C) (core : Core) : Settled mayFault core (s.afterRunner i) := by
  rcases afterRunner_cases s i with hto | hto <;> rw [hto] <;> trivial

theorem handlerStart_settled {core : Core} {int : Interrupt} {regs : ℕ}
    (h : int = .pageFault → core.currentThread ≠ none → mayFault) :
    Settled mayFault { core with inIrq := true, irqRegs := regs } (handlerStart core int) := by
  cases int with
  | timer | ipi | yield => trivial
  | exit code | sleep timeMs =>
    unfold handlerStart
    cases hc : core.currentThread with
    | none => trivial
    | some t => exact rfl
  | pageFault => exact h rfl

theorem decide_ok (habs : s.Abstracts pins ids e) (hsound : e.Sound (Fits pins ids) mayFault)
    (h : s.Ok mayFault) {new : Option ThreadId} (hp : s.pos i = .switch new) :
    (s.decide i new).Ok mayFault := by
  have hbusy := (h i).2
  unfold Busy at hbusy
  unfold Smp.decide
  cases hstate : (s.sys.cores i).state with
  | online =>
    rw [hstate] at hbusy
    dsimp only
    cases hc : (s.sys.cores i).currentThread with
    | none => rw [hc] at hbusy; cases hbusy
    | some t =>
      dsimp only
      split_ifs with hrun
      · refine h.goto rfl ?_
        cases new with
        | none => trivial
        | some n => exact ⟨hc, hstate⟩
      · refine h.goto rfl (Or.inr (Or.inr (Or.inr ⟨?_, rfl⟩)))
        -- the thread is owned, so it is running unless it has been faulted
        have hten : e.tenant i = some t := by
          rw [habs.tenant, Smp.owned, hp]
          exact hc
        rcases hsound.taken i t hten with htaken | ⟨hmay, -⟩
        · rw [habs.status] at htaken
          cases hst : (s.sys.threads t).state <;> rw [hst] at htaken hrun <;>
            first | exact absurd rfl hrun | cases htaken
        · exact hmay
  | idle =>
    rw [hstate] at hbusy
    dsimp only
    rw [if_pos hbusy]
    refine h.goto rfl ?_
    cases new with
    | none => trivial
    | some n => exact Or.inr hstate
  | booting =>
    rw [hstate] at hbusy
    dsimp only
    rw [if_pos hbusy]
    exact h.writeCore (i := i) rfl ⟨trivial, hbusy⟩
  | offline => exact h.goto rfl trivial

theorem advance_ok (habs : s.Abstracts pins ids e) (hsound : e.Sound (Fits pins ids) mayFault)
    (h : s.Ok mayFault) (i : C) : (s.advance i).Ok mayFault := by
  obtain ⟨hset, hbusy⟩ := h i
  cases hp : s.pos i with
  | away | failed a | halted =>
    simp only [Smp.advance, hp]
    exact h
  | timer =>
    simp only [Smp.advance, hp]
    refine h.goto rfl ?_
    obtain hto | hto := afterTick_cases { s.sys with globalTicks := (s.sys.globalTicks + 1) % 2 ^ 32 } <;>
      rw [hto] <;> trivial
  | quitState t q | quitRegs t q | saveState t new =>
    simp only [Smp.advance, hp]
    rw [hp] at hset
    exact h.goto rfl hset
  | saveRegs t new =>
    simp only [Smp.advance, hp]
    rw [hp] at hset
    exact h.goto rfl (Or.inl hset.2)
  | quitRecord t q =>
    simp only [Smp.advance, hp]
    refine Smp.Ok.writeCore h (i := i) (f := fun core => { core with
      currentThread := none
      state := .idle
      irqRegs := ((s.writeThread t q.record).sys.threads core.idleThread).regs
      kernelStack := ((s.writeThread t q.record).sys.threads core.idleThread).kernelStack })
      ?_ ⟨trivial, rfl⟩
    funext j
    simp only [writeCore_sys, System.idled, updateCore_cores]
    split_ifs with hji
    · simp [writeThread_sys]
    · rfl
  | fault =>
    simp only [Smp.advance, hp]
    cases (s.sys.cores i).currentThread <;>
      exact h.writeCore (f := fun core => { core with needResched := true }) rfl ⟨trivial, hbusy⟩
  | tail =>
    simp only [Smp.advance, hp]
    split_ifs
    · exact Smp.Ok.goto (s := s.setExtra i true) h rfl trivial
    · exact h.goto rfl trivial
  | leave =>
    simp only [Smp.advance, hp]
    exact Smp.Ok.writeCore (s := s.setExtra i false) h rfl ⟨trivial, hbusy⟩
  | tryLock =>
    simp only [Smp.advance, hp]
    split_ifs
    · exact h.goto rfl (afterRunner_settled s i _)
    · exact h.goto rfl trivial
  | unlock =>
    simp only [Smp.advance, hp]
    exact h.goto rfl (afterRunner_settled s i _)
  | pass =>
    simp only [Smp.advance, hp]
    refine h.goto rfl ?_
    split_ifs <;> trivial
  | wake l =>
    cases l <;> simp only [Smp.advance, hp] <;> refine h.goto rfl ?_
    · trivial
    · split_ifs <;> trivial
  | wakeRead t l | wakeWrite t left l | wakeStop t l =>
    simp only [Smp.advance, hp]
    exact h.goto rfl trivial
  | wakeTest t l =>
    simp only [Smp.advance, hp]
    refine h.goto rfl ?_
    split_ifs <;> trivial
  | pick l picked minPriority =>
    cases l <;> simp only [Smp.advance, hp] <;> refine h.goto rfl ?_
    · trivial
    · split_ifs <;> trivial
  | switch new =>
    simp only [Smp.advance, hp]
    exact decide_ok habs hsound h hp
  | loadRegs new =>
    simp only [Smp.advance, hp]
    rw [hp] at hset
    have honline : (if (s.sys.cores i).state = .idle then CoreState.online else (s.sys.cores i).state) =
        .online := by
      rcases hset with hon | hidle
      · rw [hon]; rfl
      · rw [hidle]; rfl
    refine h.writeCore (f := fun core => { core with
      state := if core.state = .idle then .online else core.state
      currentThread := some new
      irqRegs := (s.sys.threads new).regs }) rfl ⟨⟨rfl, honline⟩, ?_⟩
    rw [Busy]
    dsimp only
    rw [honline]
    rfl
  | loadState new =>
    simp only [Smp.advance, hp]
    exact h.writeCore (f := fun core => { core with kernelStack := (s.sys.threads new).kernelStack }) rfl
      ⟨trivial, hbusy⟩
  | runLock job =>
    simp only [Smp.advance, hp]
    split_ifs
    · exact h
    · exact h.goto rfl trivial
  | runBody job =>
    cases job with
    | thread t =>
      simp only [Smp.advance, hp]
      exact h.goto rfl (Or.inl rfl)
    | proc p =>
      simp only [Smp.advance, hp]
      split_ifs
      · exact h.goto rfl (Or.inr (Or.inr (Or.inl rfl)))
      · exact h.goto rfl (Or.inr rfl)
  | runTest a l =>
    rw [hp] at hset
    cases l with
    | nil =>
      simp only [Smp.advance, hp]
      exact h.goto rfl trivial
    | cons t l =>
      simp only [Smp.advance, hp]
      refine h.goto rfl ?_
      split_ifs
      · exact hset
      · exact hset.imp_right Or.inl
  | runLink a t l =>
    simp only [Smp.advance, hp]
    rw [hp] at hset
    exact h.goto rfl hset
  | runUnlock =>
    simp only [Smp.advance, hp]
    exact h.goto rfl trivial

/-! ### Whole runs -/

omit [DecidableEq C] in
theorem handlerStart_outside (core : Core) (int : Interrupt) :
    (handlerStart core int).inside = false ∧ (handlerStart core int).between = false ∧
    (handlerStart core int).choice = none ∧ (handlerStart core int).marked = none := by
  cases int with
  | timer | ipi | yield | pageFault => exact ⟨rfl, rfl, rfl, rfl⟩
  | exit code | sleep timeMs =>
    unfold handlerStart
    cases core.currentThread <;> exact ⟨rfl, rfl, rfl, rfl⟩

/-- An interrupt takes a core into a handler. -/
theorem Smp.Abstracts.arrive (h : s.Abstracts pins ids e) (hp : s.pos i = .away) {f : Core → Core}
    (hcur : ∀ core, (f core).currentThread = core.currentThread)
    (hid : ∀ core, (f core).coreId = core.coreId) {p : Position}
    (hto : p.inside = false ∧ p.between = false ∧ p.choice = none ∧ p.marked = none) :
    ((s.writeCore i f).goto i p).Abstracts pins ids e := by
  refine h.quiet (((Frame.refl i s).writeCore hid).goto p) rfl ?_ (fun _ => rfl) ?_ ?_ ?_
  · rw [goto_pos_self, hto.1, hp]; rfl
  · rw [Smp.owned, Smp.owned, goto_pos_self, hto.2.1, hp, goto_sys, writeCore_sys, updateCore_cores,
      if_pos rfl, hcur]
    rfl
  · rw [goto_pos_self, hto.2.2.1, hp]; rfl
  · rw [goto_pos_self, hto.2.2.2, hp]; rfl

/-- The cores' places fit the estate, and the estate is sound. -/
def Smp.Sound (mayFault : Prop) (pins : ThreadId → ℤ) (ids : C → ℕ) (s : Smp C) : Prop :=
  s.Ok mayFault ∧ ∃ e : Estate C ThreadId, s.Abstracts pins ids e ∧ e.Sound (Fits pins ids) mayFault

theorem Step.sound (hst : Step mayFault s s') (h : s.Sound mayFault pins ids) :
    s'.Sound mayFault pins ids := by
  obtain ⟨hok, e, habs, hsound⟩ := h
  cases hst with
  | interrupt i int regs hp hfault =>
    exact ⟨Smp.Ok.writeCore hok (f := fun core => { core with inIrq := true, irqRegs := regs }) rfl
      ⟨handlerStart_settled hfault, (hok i).2⟩, e,
      habs.arrive hp (by intro; rfl) (by intro; rfl) (handlerStart_outside _ int), hsound⟩
  | panicInterrupt i regs hp =>
    exact ⟨Smp.Ok.writeCore hok
      (f := fun core => { core with inIrq := true, irqRegs := regs, state := .offline }) rfl
      ⟨trivial, trivial⟩, e,
      habs.arrive hp (by intro; rfl) (by intro; rfl) ⟨rfl, rfl, rfl, rfl⟩, hsound⟩
  | call i job hp =>
    exact ⟨hok.goto rfl trivial, e,
      habs.goto (by rw [hp]; rfl) (by rw [hp]; rfl) (by rw [hp]; rfl) (by rw [hp]; rfl), hsound⟩
  | advance i =>
    obtain ⟨e', hmove, habs'⟩ := advance_simulates habs hok i
    refine ⟨advance_ok habs hsound hok i, e', habs', ?_⟩
    rcases hmove with rfl | hmove
    · exact hsound
    · exact hmove.sound hsound

/-- A system outside the scheduler. -/
def start (init : System C) : Smp C := ⟨init, fun _ => .away, fun _ => false⟩

omit [DecidableEq C] in
theorem start_sound {init : System C} (hcur : ∀ i, (init.cores i).currentThread = none)
    (hstate : ∀ i, (init.cores i).state ≠ .online) (hlock : init.schedLock = false) :
    (start init).Sound mayFault (fun t => (init.threads t).cpu) fun i => (init.cores i).coreId := by
  refine ⟨fun i => ⟨trivial, ?_⟩, ⟨fun t => statusOf (init.threads t).state, fun _ => none, none, none, none⟩,
    ⟨fun _ => rfl, fun i => (hcur i).symm, fun i => ?_, hlock, fun i hi => ?_, fun i hi => ?_,
      fun _ => rfl, fun _ => rfl⟩, ?_⟩
  · have hi := hcur i
    unfold Busy start
    dsimp only
    cases hst : (init.cores i).state with
    | online => exact absurd hst (hstate i)
    | idle | booting => exact hi
    | offline => trivial
  · constructor <;> intro hi <;> cases hi
  · cases hi
  · cases hi
  · constructor <;> intros <;> rename_i hnone <;> cases hnone

/-- However the accesses of the cores interleave, at most one core is between getting and
freeing `_sched_lock`; two cores have the same current thread only while one of them is
between giving it away and replacing it; and a core runs no thread that is stopped or
asleep or that is pinned to another core. -/
theorem no_thread_on_two_cores (init : System C) (hcur : ∀ i, (init.cores i).currentThread = none)
    (hstate : ∀ i, (init.cores i).state ≠ .online) (hlock : init.schedLock = false) (s : Smp C)
    (hrun : Reaches (Step True) (start init) s) :
    (∀ i j, (s.pos i).inside = true → (s.pos j).inside = true → i = j) ∧
    (∀ i j t, (s.pos i).between = false → (s.pos j).between = false →
      (s.sys.cores i).currentThread = some t → (s.sys.cores j).currentThread = some t → i = j) ∧
    (∀ i t, (s.pos i).between = false → (s.sys.cores i).currentThread = some t →
      ((s.sys.threads t).state = .running ∨ (s.sys.threads t).state = .terminated) ∧
      (0 ≤ (s.sys.threads t).cpu → (s.sys.threads t).cpu = ((s.sys.cores i).coreId : ℤ))) := by
  obtain ⟨-, e, habs, hsound⟩ := Reaches.invariant (Smp.Sound True _ _) (fun _ _ hs hst => hst.sound hs) hrun
    (start_sound hcur hstate hlock)
  have htenant : ∀ i t, (s.pos i).between = false → (s.sys.cores i).currentThread = some t →
      e.tenant i = some t := by
    intro i t hi ht
    rw [habs.tenant, Smp.owned, hi]
    exact ht
  refine ⟨fun i j hi hj => ?_, fun i j t hi hj hti htj => hsound.single i j t (htenant i t hi hti)
    (htenant j t hj htj), fun i t hi ht => ⟨?_, fun h0 => ?_⟩⟩
  · have hii := (habs.inside i).mpr hi
    rw [(habs.inside j).mpr hj, Option.some.injEq] at hii
    exact hii.symm
  · have htaken := hsound.taken i t (htenant i t hi ht)
    rw [habs.status] at htaken
    cases hst : (s.sys.threads t).state <;> rw [hst] at htaken <;> simp [statusOf] at htaken ⊢
  · rcases hsound.fit i t (htenant i t hi ht) with hany | hpin
    · have hneg := (habs.pin t).trans hany
      rw [hneg] at h0
      cases h0
    · exact (habs.pin t).trans (hpin.trans (congrArg Nat.cast (habs.coreId i).symm))

/-- Between accesses of the other cores, too, the assertions of a pass hold: only the
callers of `sched_run_thread` and `sched_run_proc` can fail one. A page fault of a
thread is the exception. -/
theorem pass_assertions (init : System C) (hcur : ∀ i, (init.cores i).currentThread = none)
    (hstate : ∀ i, (init.cores i).state ≠ .online) (hlock : init.schedLock = false) (s : Smp C)
    (hrun : Reaches (Step False) (start init) s) (i : C) (a : Assertion) (ha : s.pos i = .failed a) :
    a = .runThread ∨ a = .runProcThread ∨ a = .runProcEmpty := by
  obtain ⟨hok, -⟩ := Reaches.invariant (Smp.Sound False _ _) (fun _ _ hs hst => hst.sound hs) hrun
    (start_sound hcur hstate hlock)
  have hset := (hok i).1
  rw [ha] at hset
  exact hset.imp_right fun hrest => hrest.imp_right fun hlast => hlast.resolve_right And.left

theorem Reaches.advances (i : C) (n : ℕ) (s : Smp C) :
    Reaches (Step mayFault) s ((fun s => Smp.advance s i)^[n] s) := by
  induction n generalizing s with
  | zero => exact .refl
  | succ n ih => exact (ih (s.advance i)).head (.advance i)

/-- Core `false` puts thread 7 on the list; core `true` becomes idle and picks it. While it
runs there, `false` is inside the lock. -/
theorem no_thread_on_two_cores_run :
    ∃ s : Smp Bool, Reaches (Step True) (start twoCores) s ∧ (s.sys.cores true).currentThread = some 7 ∧
      (s.pos false).inside = true ∧ (s.sys.cores false).currentThread ≠ some 7 := by
  have hlisted : Reaches (Step True) (start twoCores) _ :=
    (Relation.ReflTransGen.single (Step.call false (.thread 7) rfl)).trans (Reaches.advances false 6 _)
  have hidle : Reaches (Step True) (start twoCores) _ :=
    (hlisted.tail (Step.interrupt true .ipi 0 rfl (by simp))).trans (Reaches.advances true 8 _)
  have hruns : Reaches (Step True) (start twoCores) _ :=
    (hidle.tail (Step.interrupt true .ipi 0 rfl (by simp))).trans (Reaches.advances true 10 _)
  have hinside : Reaches (Step True) (start twoCores) _ :=
    (hruns.tail (Step.interrupt false .ipi 0 rfl (by simp))).trans (Reaches.advances false 2 _)
  refine ⟨_, hinside, rfl, rfl, fun hfalse => ?_⟩
  have := (no_thread_on_two_cores twoCores (fun _ => rfl) (fun b => by cases b <;> decide) rfl _ hinside).2.1
    true false 7 rfl rfl rfl hfalse
  cases this

/-- `sched_run_proc` of a process without threads fails its own assertion, under the lock. -/
theorem pass_assertions_run :
    ∃ s : Smp Bool, Reaches (Step False) (start twoCores) s ∧ s.pos false = .failed .runProcEmpty ∧
      (Assertion.runProcEmpty = .runThread ∨ Assertion.runProcEmpty = .runProcThread ∨
        Assertion.runProcEmpty = .runProcEmpty) := by
  have hfails : Reaches (Step False) (start twoCores) _ :=
    (Relation.ReflTransGen.single (Step.call false (.proc 0) rfl)).trans (Reaches.advances false 2 _)
  exact ⟨_, hfails, rfl,
    pass_assertions twoCores (fun _ => rfl) (fun b => by cases b <;> decide) rfl _ hfails false _ rfl⟩

end JustKernel.SchedSmp
