import JustKernel.Proc.SchedSmpOwnership

/-! Frames at the grain of single memory accesses. `save_thread` writes the state of a
thread before its frame. Under `_sched_lock` that does no harm, but a thread that goes
to sleep is open between the two writes: if the sleep timer of another core sees it
asleep there and finds no sleep time left, it is run from the frame it was saved with
the last time. That is the only way to lose a frame. In every run in which no pass
looks at a thread in this gap, a core goes back to the frame its thread was last
interrupted with. -/

namespace JustKernel.SchedSmp

open Runs Sched
open Tenancy (Estate)

variable {C : Type} [DecidableEq C]

/-- The system, and for every thread the frame it was last interrupted with. -/
structure Recorded (C : Type) where
  smp : Smp C
  last : ThreadId → ℕ

/-- The frame `regs` interrupts core `i`. -/
def Recorded.interrupted (m : Recorded C) (i : C) (int : Interrupt) (regs : ℕ) : Recorded C where
  smp := m.smp.interrupted i int regs
  last := match (m.smp.sys.cores i).currentThread with
    | some t => Function.update m.last t regs
    | none => m.last

/-- No thread on its way off a core is at the head of the list that `i` is walking. -/
def Smp.Untorn (s : Smp C) (i : C) : Prop :=
  ∀ t l j q, s.pos i = .wake (t :: l) → s.pos j ≠ .quitRegs t q

/-- The steps in which the sleep timer stays out of the gap. -/
inductive RecordedStep (m : Recorded C) : Recorded C → Prop
  | interrupt (i : C) (int : Interrupt) (regs : ℕ) : m.smp.pos i = .away →
      RecordedStep m (m.interrupted i int regs)
  | panicInterrupt (i : C) (regs : ℕ) : m.smp.pos i = .away →
      RecordedStep m ⟨m.smp.panicked i regs, m.last⟩
  | call (i : C) (job : Job) : m.smp.pos i = .away → RecordedStep m ⟨m.smp.goto i (.runLock job), m.last⟩
  | advance (i : C) : m.smp.Untorn i → RecordedStep m ⟨m.smp.advance i, m.last⟩

theorem RecordedStep.step {m m' : Recorded C} (h : RecordedStep m m') : Step True m.smp m'.smp := by
  cases h with
  | interrupt i int regs hp => exact .interrupt i int regs hp fun _ _ => trivial
  | panicInterrupt i regs hp => exact .panicInterrupt i regs hp
  | call i job hp => exact .call i job hp
  | advance i _ => exact .advance i

/-- The core is in a handler and has not replaced its frame yet, or has just done so. -/
@[simp] def Position.handling : Position → Bool
  | .timer | .quitState _ _ | .fault | .tail | .leave | .tryLock | .pass | .wake _ | .wakeRead _ _
  | .wakeWrite _ _ _ | .wakeTest _ _ | .wakeStop _ _ | .pick _ _ _ | .switch _ | .saveState _ _
  | .unlock => true
  | _ => false

/-- The thread whose state `save_thread` has written, but not its frame. -/
@[simp] def Position.unsaved : Position → Option ThreadId
  | .quitRegs t _ | .saveRegs t _ => some t
  | _ => none

/-- Frames are where they belong. -/
structure Smp.Kept (s : Smp C) (last : ThreadId → ℕ) : Prop where
  handled : ∀ i t, s.owned i = some t → (s.pos i).handling = true → (s.sys.cores i).irqRegs = last t
  unsaved : ∀ i t, (s.pos i).unsaved = some t → (s.sys.cores i).irqRegs = last t ∧
    (∀ j, s.owned j ≠ some t) ∧ (∀ j, (s.pos j).unsaved = some t → j = i) ∧
    (∀ j, (s.pos j).choice ≠ some t) ∧ ∀ j, (s.pos j).marked ≠ some t
  quitting : ∀ i t q, s.pos i = .quitRegs t q → (s.sys.threads t).state ≠ .stopped
  loading : ∀ i new, s.pos i = .loadState new → (s.sys.cores i).irqRegs = last new
  resting : ∀ t, (∀ i, s.owned i ≠ some t) → (∀ i, (s.pos i).unsaved ≠ some t) →
    (s.sys.threads t).regs = last t

/-! ### What the tenancy says about the places -/

section Places

variable {s : Smp C} {mayFault : Prop} {pins : ThreadId → ℤ} {ids : C → ℕ} {i j : C} {t : ThreadId}

theorem inside_of_choice {p : Position} (h : p.choice = some t) : p.inside = true := by
  cases p <;> first | rfl | cases h

theorem inside_of_marked {p : Position} (h : p.marked = some t) : p.inside = true := by
  cases p <;> first | rfl | cases h

omit [DecidableEq C] in
theorem Smp.Sound.inside_inj (h : s.Sound mayFault pins ids) (hi : (s.pos i).inside = true)
    (hj : (s.pos j).inside = true) : i = j := by
  obtain ⟨-, e, habs, -⟩ := h
  have hin := (habs.inside i).mpr hi
  rw [(habs.inside j).mpr hj, Option.some.injEq] at hin
  exact hin.symm

omit [DecidableEq C] in
theorem Smp.Sound.owned_inj (h : s.Sound mayFault pins ids) (hi : s.owned i = some t)
    (hj : s.owned j = some t) : i = j := by
  obtain ⟨-, e, habs, hsound⟩ := h
  exact hsound.single i j t ((habs.tenant i).trans hi) ((habs.tenant j).trans hj)

omit [DecidableEq C] in
theorem Smp.Sound.owned_ne_choice (h : s.Sound mayFault pins ids) (hi : s.owned i = some t) (j : C) :
    (s.pos j).choice ≠ some t := by
  obtain ⟨-, e, habs, hsound⟩ := h
  intro hj
  refine hsound.tenant_ne_choice ((habs.tenant i).trans hi) ?_
  rw [habs.choice j (inside_of_choice hj), hj]

omit [DecidableEq C] in
theorem Smp.Sound.owned_ne_marked (h : s.Sound mayFault pins ids) (hi : s.owned i = some t) (j : C) :
    (s.pos j).marked ≠ some t := by
  obtain ⟨-, e, habs, hsound⟩ := h
  intro hj
  refine hsound.tenant_ne_marked ((habs.tenant i).trans hi) ?_
  rw [habs.marked j (inside_of_marked hj), hj]

end Places

/-! ### The steps -/

section Steps

variable {s s' : Smp C} {last : ThreadId → ℕ} {i : C}

/-- A step of core `i` that moves no frame. -/
theorem Smp.Kept.quiet (h : s.Kept last) (hf : Frame i s s') {pins : ThreadId → ℤ} {ids : C → ℕ}
    (hsound : s.Sound True pins ids)
    (hregs : ∀ t, (s'.sys.threads t).regs = (s.sys.threads t).regs)
    (hstate : ∀ t, (s'.sys.threads t).state = .stopped →
      (s.sys.threads t).state = .stopped ∨ (s.pos i).marked = some t)
    (howned : s'.owned i = s.owned i)
    (hhandled : ∀ t, s'.owned i = some t → (s'.pos i).handling = true →
      (s.pos i).handling = true ∧ (s'.sys.cores i).irqRegs = (s.sys.cores i).irqRegs)
    (hbefore : (s.pos i).unsaved = none) (hafter : (s'.pos i).unsaved = none)
    (hload : ∀ new, s'.pos i ≠ .loadState new)
    (hchoice : ∀ t, (s'.pos i).choice = some t → (s.pos i).choice = some t ∨
      (s.sys.threads t).state = .stopped ∧ (s.pos i).inside = true)
    (hmarked : ∀ t, (s'.pos i).marked = some t → (s.pos i).marked = some t ∨
      (s.pos i).inside = true ∧ ∀ j q, s.pos j ≠ .quitRegs t q) : s'.Kept last := by
  have hown : ∀ j, s'.owned j = s.owned j := by
    intro j
    by_cases hji : j = i
    · rw [hji, howned]
    · exact hf.owned hji
  have hunsaved : ∀ j, (s'.pos j).unsaved = (s.pos j).unsaved := by
    intro j
    by_cases hji : j = i
    · rw [hji, hbefore, hafter]
    · rw [hf.pos j hji]
  have hne : ∀ j t, (s.pos j).unsaved = some t → j ≠ i := by
    rintro j t hj rfl
    rw [hbefore] at hj
    cases hj
  -- a thread that is on its way off a core under the lock is safe from the other cores
  have hquit : ∀ j t, (s.pos j).unsaved = some t → (s.pos i).inside = true → ∃ q, s.pos j = .quitRegs t q := by
    intro j t hj hin
    cases hp : s.pos j <;> rw [hp] at hj <;> cases hj
    · exact ⟨_, rfl⟩
    · exact absurd (hsound.inside_inj hin (by rw [hp]; rfl)) (hne j t (by rw [hp]; rfl)).symm
  refine ⟨fun j t hj hh => ?_, fun j t hj => ?_, fun j t q hj hst => ?_, fun j new hj => ?_,
    fun t hnone hno => ?_⟩
  · by_cases hji : j = i
    · subst hji
      obtain ⟨hold, hirq⟩ := hhandled t hj hh
      rw [hirq]
      exact h.handled j t (howned ▸ hj) hold
    · rw [hf.cores j hji]
      rw [hf.pos j hji] at hh
      exact h.handled j t (hf.owned hji ▸ hj) hh
  · rw [hunsaved] at hj
    obtain ⟨hirq, hnone, hone, hch, hmk⟩ := h.unsaved j t hj
    refine ⟨by rw [hf.cores j (hne j t hj), hirq], fun k => by rw [hown]; exact hnone k,
      fun k hk => hone k (by rwa [hunsaved] at hk), fun k hk => ?_, fun k hk => ?_⟩
    · by_cases hki : k = i
      · subst hki
        rcases hchoice t hk with hold | ⟨hstop, hin⟩
        · exact hch k hold
        · obtain ⟨q, hq⟩ := hquit j t hj hin
          exact h.quitting j t q hq hstop
      · rw [hf.pos k hki] at hk
        exact hch k hk
    · by_cases hki : k = i
      · subst hki
        rcases hmarked t hk with hold | ⟨hin, huntorn⟩
        · exact hmk k hold
        · obtain ⟨q, hq⟩ := hquit j t hj hin
          exact huntorn j q hq
      · rw [hf.pos k hki] at hk
        exact hmk k hk
  · have hji : j ≠ i := by
      rintro rfl
      rw [hj] at hafter
      cases hafter
    rw [hf.pos j hji] at hj
    rcases hstate t hst with hold | hm
    · exact h.quitting j t q hj hold
    · exact (h.unsaved j t (by rw [hj]; rfl)).2.2.2.2 i hm
  · have hji : j ≠ i := by
      rintro rfl
      exact hload new hj
    rw [hf.pos j hji] at hj
    rw [hf.cores j hji]
    exact h.loading j new hj
  · rw [hregs]
    exact h.resting t (fun k => by rw [← hown]; exact hnone k) fun k => by rw [← hunsaved]; exact hno k

/-- The write of the state that gives a thread away: its frame is still with the core. -/
theorem Smp.Kept.surrender (h : s.Kept last) (hf : Frame i s s') {pins : ThreadId → ℤ} {ids : C → ℕ}
    (hsound : s.Sound True pins ids) {t : ThreadId} (howner : s.owned i = some t)
    (hhandling : (s.pos i).handling = true) (hirq : (s'.sys.cores i).irqRegs = (s.sys.cores i).irqRegs)
    (hregs : ∀ u, (s'.sys.threads u).regs = (s.sys.threads u).regs)
    (hstate : ∀ u, u ≠ t → (s'.sys.threads u).state = (s.sys.threads u).state)
    (howned : s'.owned i = none) (hafter : (s'.pos i).unsaved = some t)
    (hquit : ∀ u q, s'.pos i = .quitRegs u q → (s'.sys.threads u).state ≠ .stopped)
    (hchoice : (s'.pos i).choice = (s.pos i).choice) (hmarked : (s'.pos i).marked = (s.pos i).marked) :
    s'.Kept last := by
  have hbefore : (s.pos i).unsaved = none := by
    cases hp : s.pos i <;> rw [hp] at hhandling <;> first | rfl | cases hhandling
  have hch : ∀ k, (s'.pos k).choice = (s.pos k).choice ∧ (s'.pos k).marked = (s.pos k).marked := by
    intro k
    by_cases hki : k = i
    · rw [hki]; exact ⟨hchoice, hmarked⟩
    · rw [hf.pos k hki]; exact ⟨rfl, rfl⟩
  have hown : ∀ k u, s'.owned k = some u → k ≠ i ∧ s.owned k = some u := by
    intro k u hk
    have hki : k ≠ i := by rintro rfl; rw [howned] at hk; cases hk
    exact ⟨hki, hf.owned hki ▸ hk⟩
  -- a thread that another core is saving is not `t`
  have hother : ∀ k u, k ≠ i → (s'.pos k).unsaved = some u → (s.pos k).unsaved = some u ∧ u ≠ t := by
    intro k u hki hk
    rw [hf.pos k hki] at hk
    refine ⟨hk, ?_⟩
    rintro rfl
    exact (h.unsaved k u hk).2.1 i howner
  refine ⟨fun k u hk hh => ?_, fun k u hk => ?_, fun k u q hk hst => ?_, fun k new hk => ?_,
    fun u hnone hno => ?_⟩
  · obtain ⟨hki, hold⟩ := hown k u hk
    rw [hf.cores k hki]
    rw [hf.pos k hki] at hh
    exact h.handled k u hold hh
  · by_cases hki : k = i
    · subst hki
      rw [hafter, Option.some.injEq] at hk
      subst hk
      refine ⟨hirq.trans (h.handled k t howner hhandling), fun j hj => ?_, fun j hj => ?_, fun j => ?_,
        fun j => ?_⟩
      · obtain ⟨hjk, hold⟩ := hown j t hj
        exact hjk (hsound.owned_inj hold howner)
      · by_contra hjk
        exact (hother j t hjk hj).2 rfl
      · rw [(hch j).1]; exact hsound.owned_ne_choice howner j
      · rw [(hch j).2]; exact hsound.owned_ne_marked howner j
    · obtain ⟨hold, hut⟩ := hother k u hki hk
      obtain ⟨hirq', hnone, hone, hch', hmk'⟩ := h.unsaved k u hold
      refine ⟨by rw [hf.cores k hki, hirq'], fun j hj => hnone j (hown j u hj).2, fun j hj => ?_,
        fun j => by rw [(hch j).1]; exact hch' j, fun j => by rw [(hch j).2]; exact hmk' j⟩
      by_cases hji : j = i
      · rw [hji, hafter, Option.some.injEq] at hj
        exact absurd hj.symm hut
      · exact hone j (hother j u hji hj).1
  · by_cases hki : k = i
    · subst hki
      exact hquit u q hk hst
    · have hold := hother k u hki (by rw [hk]; rfl)
      rw [hstate u hold.2] at hst
      rw [hf.pos k hki] at hk
      exact h.quitting k u q hk hst
  · have hki : k ≠ i := by rintro rfl; rw [hk] at hafter; cases hafter
    rw [hf.pos k hki] at hk
    rw [hf.cores k hki]
    exact h.loading k new hk
  · have hut : u ≠ t := by rintro rfl; exact hno i hafter
    rw [hregs]
    refine h.resting u (fun k hk => ?_) (fun k hk => ?_)
    · by_cases hki : k = i
      · rw [hki, howner, Option.some.injEq] at hk
        exact hut hk.symm
      · exact hnone k ((hf.owned hki).trans hk)
    · by_cases hki : k = i
      · rw [hki, hbefore] at hk
        cases hk
      · exact hno k ((congrArg Position.unsaved (hf.pos k hki)).trans hk)

/-- The write of the frame. -/
theorem Smp.Kept.store (h : s.Kept last) (hf : Frame i s s') {t : ThreadId}
    (hbefore : (s.pos i).unsaved = some t)
    (hregs : ∀ u, (s'.sys.threads u).regs = if u = t then (s.sys.cores i).irqRegs else (s.sys.threads u).regs)
    (hstate : ∀ u, (s'.sys.threads u).state = (s.sys.threads u).state) (howned : s'.owned i = s.owned i)
    (hhandling : (s'.pos i).handling = false) (hafter : (s'.pos i).unsaved = none)
    (hload : ∀ new, s'.pos i ≠ .loadState new)
    (hchoice : (s'.pos i).choice = (s.pos i).choice) (hmarked : (s'.pos i).marked = (s.pos i).marked) :
    s'.Kept last := by
  have hch : ∀ k, (s'.pos k).choice = (s.pos k).choice ∧ (s'.pos k).marked = (s.pos k).marked := by
    intro k
    by_cases hki : k = i
    · rw [hki]; exact ⟨hchoice, hmarked⟩
    · rw [hf.pos k hki]; exact ⟨rfl, rfl⟩
  have hown : ∀ k, s'.owned k = s.owned k := by
    intro k
    by_cases hki : k = i
    · rw [hki, howned]
    · exact hf.owned hki
  have hne : ∀ k u, (s'.pos k).unsaved = some u → k ≠ i := by
    rintro k u hk rfl
    rw [hafter] at hk
    cases hk
  refine ⟨fun k u hk hh => ?_, fun k u hk => ?_, fun k u q hk => ?_, fun k new hk => ?_, fun u hnone hno => ?_⟩
  · have hki : k ≠ i := by rintro rfl; rw [hhandling] at hh; cases hh
    rw [hf.cores k hki]
    rw [hf.pos k hki] at hh
    exact h.handled k u (hown k ▸ hk) hh
  · have hki := hne k u hk
    rw [hf.pos k hki] at hk
    obtain ⟨hirq, hnone, hone, hch', hmk'⟩ := h.unsaved k u hk
    refine ⟨by rw [hf.cores k hki, hirq], fun j => by rw [hown]; exact hnone j, fun j hj => ?_,
      fun j => by rw [(hch j).1]; exact hch' j, fun j => by rw [(hch j).2]; exact hmk' j⟩
    have hji := hne j u hj
    rw [hf.pos j hji] at hj
    exact hone j hj
  · have hki := hne k u (by rw [hk]; rfl)
    rw [hf.pos k hki] at hk
    rw [hstate]
    exact h.quitting k u q hk
  · have hki : k ≠ i := by rintro rfl; exact hload new hk
    rw [hf.pos k hki] at hk
    rw [hf.cores k hki]
    exact h.loading k new hk
  · rw [hregs]
    split_ifs with hut
    · rw [hut]
      exact (h.unsaved i t hbefore).1
    · refine h.resting u (fun k => by rw [← hown]; exact hnone k) (fun k hk => ?_)
      by_cases hki : k = i
      · rw [hki, hbefore, Option.some.injEq] at hk
        exact hut hk.symm
      · exact hno k ((congrArg Position.unsaved (hf.pos k hki)).trans hk)

/-- The frame of the thread that has been picked is read. -/
theorem Smp.Kept.loadRegs (h : s.Kept last) {pins : ThreadId → ℤ} {ids : C → ℕ}
    (hsound : s.Sound True pins ids) {new : ThreadId} (hp : s.pos i = .loadRegs new) :
    (s.advance i).Kept last := by
  have hf := advance_frame s i
  have hpos : (s.advance i).pos i = .loadState new := by simp [Smp.advance, hp]
  have hirq : ((s.advance i).sys.cores i).irqRegs = (s.sys.threads new).regs := by
    simp [Smp.advance, hp, updateCore_cores]
  have hthreads : (s.advance i).sys.threads = s.sys.threads := by simp only [Smp.advance, hp]; rfl
  have hown : ∀ k, (s.advance i).owned k = s.owned k := by
    intro k
    by_cases hki : k = i
    · subst hki
      simp [Smp.owned, hpos, hp]
    · exact hf.owned hki
  have hplaces : ∀ k, ((s.advance i).pos k).unsaved = (s.pos k).unsaved ∧
      ((s.advance i).pos k).choice = (s.pos k).choice ∧ ((s.advance i).pos k).marked = (s.pos k).marked := by
    intro k
    by_cases hki : k = i
    · rw [hki, hpos, hp]; exact ⟨rfl, rfl, rfl⟩
    · rw [hf.pos k hki]; exact ⟨rfl, rfl, rfl⟩
  have hchosen : (s.pos i).choice = some new := by rw [hp]; rfl
  refine ⟨fun k u hk hh => ?_, fun k u hk => ?_, fun k u q hk => ?_, fun k u hk => ?_, fun u hnone hno => ?_⟩
  · have hki : k ≠ i := by rintro rfl; rw [hpos] at hh; cases hh
    rw [hf.cores k hki]
    rw [hf.pos k hki] at hh
    exact h.handled k u (hown k ▸ hk) hh
  · have hki : k ≠ i := by rintro rfl; rw [hpos] at hk; cases hk
    rw [(hplaces k).1] at hk
    obtain ⟨hirq', hnone, hone, hch', hmk'⟩ := h.unsaved k u hk
    exact ⟨by rw [hf.cores k hki, hirq'], fun j => by rw [hown]; exact hnone j,
      fun j hj => hone j (by rwa [(hplaces j).1] at hj), fun j => by rw [(hplaces j).2.1]; exact hch' j,
      fun j => by rw [(hplaces j).2.2]; exact hmk' j⟩
  · have hki : k ≠ i := by rintro rfl; rw [hpos] at hk; cases hk
    rw [hf.pos k hki] at hk
    rw [hthreads]
    exact h.quitting k u q hk
  · by_cases hki : k = i
    · subst hki
      rw [hpos] at hk
      cases hk
      rw [hirq]
      exact h.resting new (fun j hj => hsound.owned_ne_choice hj k hchosen)
        fun j hj => (h.unsaved j new hj).2.2.2.1 k hchosen
    · rw [hf.pos k hki] at hk
      rw [hf.cores k hki]
      exact h.loading k u hk
  · rw [hthreads]
    exact h.resting u (fun k => by rw [← hown]; exact hnone k) fun k => by rw [← (hplaces k).1]; exact hno k

/-- The thread that has been picked belongs to the core. -/
theorem Smp.Kept.loadState (h : s.Kept last) (hok : s.Ok True) {new : ThreadId}
    (hp : s.pos i = .loadState new) : (s.advance i).Kept last := by
  have hset := (hok i).1
  rw [hp] at hset
  have hf := advance_frame s i
  have hpos : (s.advance i).pos i = .unlock := by simp [Smp.advance, hp]
  have hirq : ((s.advance i).sys.cores i).irqRegs = (s.sys.cores i).irqRegs := by
    simp [Smp.advance, hp, updateCore_cores]
  have hregs : ∀ u, ((s.advance i).sys.threads u).regs = (s.sys.threads u).regs := by
    intro u
    simp only [Smp.advance, hp, goto_sys, writeCore_sys, updateCore_threads, writeThread_sys,
      updateThread_threads]
    split_ifs with hu
    · rw [hu]
    · rfl
  have hnew : (s.advance i).owned i = some new := by
    simp [Smp.advance, hp, Smp.owned, updateCore_cores, hset.1]
  have hnone : s.owned i = none := by rw [Smp.owned, hp]; rfl
  have hchosen : (s.pos i).choice = some new := by rw [hp]; rfl
  have hne : ∀ k u, ((s.advance i).pos k).unsaved = some u → k ≠ i ∧ (s.pos k).unsaved = some u := by
    intro k u hk
    have hki : k ≠ i := by rintro rfl; rw [hpos] at hk; cases hk
    rw [hf.pos k hki] at hk
    exact ⟨hki, hk⟩
  refine ⟨fun k u hk hh => ?_, fun k u hk => ?_, fun k u q hk => ?_, fun k u hk => ?_, fun u hno hno' => ?_⟩
  · by_cases hki : k = i
    · subst hki
      rw [hnew, Option.some.injEq] at hk
      rw [hirq, ← hk]
      exact h.loading k new hp
    · rw [hf.cores k hki]
      rw [hf.pos k hki] at hh
      exact h.handled k u (hf.owned hki ▸ hk) hh
  · obtain ⟨hki, hk⟩ := hne k u hk
    obtain ⟨hirq', hfree, hone, hch', hmk'⟩ := h.unsaved k u hk
    refine ⟨by rw [hf.cores k hki, hirq'], fun j hj => ?_, fun j hj => hone j (hne j u hj).2, fun j hj => ?_,
      fun j hj => ?_⟩
    · by_cases hji : j = i
      · rw [hji, hnew, Option.some.injEq] at hj
        exact hch' i (hj ▸ hchosen)
      · exact hfree j ((hf.owned hji).symm.trans hj)
    · by_cases hji : j = i
      · rw [hji, hpos] at hj
        cases hj
      · rw [hf.pos j hji] at hj
        exact hch' j hj
    · by_cases hji : j = i
      · rw [hji, hpos] at hj
        cases hj
      · rw [hf.pos j hji] at hj
        exact hmk' j hj
  · have hki : k ≠ i := by rintro rfl; rw [hpos] at hk; cases hk
    rw [hf.pos k hki] at hk
    have hun : u ≠ new := by
      rintro rfl
      exact (h.unsaved k u (by rw [hk]; rfl)).2.2.2.1 i hchosen
    have hst : ((s.advance i).sys.threads u).state = (s.sys.threads u).state := by
      simp [Smp.advance, hp, updateThread_state, hun]
    rw [hst]
    exact h.quitting k u q hk
  · have hki : k ≠ i := by rintro rfl; rw [hpos] at hk; cases hk
    rw [hf.pos k hki] at hk
    rw [hf.cores k hki]
    exact h.loading k u hk
  · rw [hregs]
    refine h.resting u (fun k hk => ?_) (fun k hk => ?_)
    · by_cases hki : k = i
      · rw [hki, hnone] at hk
        cases hk
      · exact hno k ((hf.owned hki).trans hk)
    · have hki : k ≠ i := by rintro rfl; rw [hp] at hk; cases hk
      exact hno' k ((congrArg Position.unsaved (hf.pos k hki)).trans hk)

/-- A move that touches neither locals nor threads. -/
theorem Smp.Kept.move (h : s.Kept last) {pins : ThreadId → ℤ} {ids : C → ℕ}
    (hsound : s.Sound True pins ids) {sys : System C} {p : Position}
    (hsys : sys.cores = s.sys.cores ∧ sys.threads = s.sys.threads)
    (hbetween : p.between = (s.pos i).between) (hhandling : p.handling = true → (s.pos i).handling = true)
    (hplace : (s.pos i).unsaved = none ∧ p.unsaved = none ∧ ∀ new, p ≠ .loadState new)
    (hchoice : ∀ t, p.choice = some t → (s.pos i).choice = some t ∨
      (s.sys.threads t).state = .stopped ∧ (s.pos i).inside = true)
    (hmarked : ∀ t, p.marked = some t → (s.pos i).marked = some t ∨
      (s.pos i).inside = true ∧ ∀ j q, s.pos j ≠ .quitRegs t q) :
    (({ s with sys := sys } : Smp C).goto i p).Kept last := by
  refine h.quiet (i := i) ((Frame.of_eq hsys.1 hsys.2).goto p) hsound (fun t => ?_) (fun t ht => Or.inl ?_) ?_
    (fun t _ hh => ⟨?_, ?_⟩) hplace.1 ?_ ?_ ?_ ?_
  · rw [goto_sys, hsys.2]
  · rwa [goto_sys, hsys.2] at ht
  · rw [Smp.owned, goto_pos_self, hbetween, goto_sys, hsys.1]
    rfl
  · rw [goto_pos_self] at hh
    exact hhandling hh
  · rw [goto_sys, hsys.1]
  · rw [goto_pos_self]; exact hplace.2.1
  · rw [goto_pos_self]; exact hplace.2.2
  · rw [goto_pos_self]; exact hchoice
  · rw [goto_pos_self]; exact hmarked

/-- A move that chooses and marks nothing new. -/
theorem Smp.Kept.goto (h : s.Kept last) {pins : ThreadId → ℤ} {ids : C → ℕ}
    (hsound : s.Sound True pins ids) {sys : System C} {p : Position}
    (hsys : sys.cores = s.sys.cores ∧ sys.threads = s.sys.threads)
    (hbetween : p.between = (s.pos i).between) (hhandling : p.handling = true → (s.pos i).handling = true)
    (hplace : (s.pos i).unsaved = none ∧ p.unsaved = none ∧ ∀ new, p ≠ .loadState new)
    (hchoice : p.choice = none ∨ p.choice = (s.pos i).choice)
    (hmarked : p.marked = none ∨ p.marked = (s.pos i).marked) :
    (({ s with sys := sys } : Smp C).goto i p).Kept last := by
  refine h.move hsound hsys hbetween hhandling hplace (fun t ht => Or.inl ?_) (fun t ht => Or.inl ?_)
  · rcases hchoice with hc | hc <;> rw [hc] at ht
    · cases ht
    · exact ht
  · rcases hmarked with hm | hm <;> rw [hm] at ht
    · cases ht
    · exact ht

theorem Smp.Kept.decide (h : s.Kept last) {pins : ThreadId → ℤ} {ids : C → ℕ}
    (hsound : s.Sound True pins ids) {new : Option ThreadId} (hp : s.pos i = .switch new) :
    (s.decide i new).Kept last := by
  have hgoto : ∀ p : Position, p.between = false → p.unsaved = none → (∀ n, p ≠ .loadState n) →
      (p.choice = none ∨ p.choice = new) → p.marked = none → (s.goto i p).Kept last := by
    intro p hb hu hl hc hm
    exact h.goto hsound ⟨rfl, rfl⟩ (by rw [hb, hp]; rfl) (fun _ => by rw [hp]; rfl)
      ⟨by rw [hp]; rfl, hu, hl⟩ (by rw [hp]; exact hc) (Or.inl hm)
  have hunlock := hgoto .unlock rfl rfl (by simp) (Or.inl rfl) rfl
  have hfailed := fun a => hgoto (.failed a) rfl rfl (by simp) (Or.inl rfl) rfl
  unfold Smp.decide
  cases (s.sys.cores i).state with
  | online =>
    dsimp only
    cases (s.sys.cores i).currentThread with
    | none => exact hfailed _
    | some t =>
      dsimp only
      split_ifs
      · cases new with
        | none => exact hunlock
        | some n => exact hgoto _ rfl rfl (by simp) (Or.inr rfl) rfl
      · exact hfailed _
  | idle =>
    dsimp only
    split_ifs with hcur
    · cases new with
      | none => exact hunlock
      | some n =>
        refine h.quiet (i := i) ((Frame.refl i s).goto _) hsound (fun _ => rfl) (fun _ ht => Or.inl ht) ?_
          (fun t _ hh => ?_) ?_ ?_ ?_ (fun t ht => Or.inl ?_) (fun t ht => ?_)
        · simp [Smp.owned, hp, hcur]
        · simp at hh
        · simp [hp]
        · simp
        · simp
        · simpa [hp] using ht
        · simp at ht
    · exact hfailed _
  | booting =>
    dsimp only
    split_ifs with hcur
    · refine h.quiet (i := i) ((Frame.refl i s).idled.goto _) hsound (fun _ => rfl) (fun _ ht => Or.inl ht) ?_
        (fun t ht _ => ?_) ?_ ?_ ?_ (fun t ht => ?_) (fun t ht => ?_)
      · simp [Smp.owned, hp, idled_currentThread]
      · simp [Smp.owned, idled_currentThread, hcur] at ht
      · simp [hp]
      · simp
      · simp
      · simp at ht
      · simp at ht
    · exact hfailed _
  | offline => exact hunlock

theorem Smp.Kept.quit (h : s.Kept last) {pins : ThreadId → ℤ} {ids : C → ℕ}
    (hsound : s.Sound True pins ids) {t : ThreadId} {q : Quit}
    (hp : s.pos i = .quitState t q ∨ s.pos i = .quitRegs t q ∨ s.pos i = .quitRecord t q) :
    (s.advance i).Kept last := by
  have hf := advance_frame s i
  have hset := (hsound.1 i).1
  rcases hp with hp | hp | hp
  · rw [hp] at hset
    refine h.surrender hf hsound (t := t) ?_ ?_ ?_ (fun u => ?_) (fun u hu => ?_) ?_ ?_ (fun u q' hu => ?_)
      ?_ ?_
    · rw [Smp.owned, hp]
      exact hset
    · rw [hp]; rfl
    · simp [Smp.advance, hp]
    · simp only [Smp.advance, hp, goto_sys, writeThread_sys, updateThread_threads]
      split_ifs with hut
      · rw [hut]
      · rfl
    · simp [Smp.advance, hp, updateThread_state, hu]
    · simp [Smp.advance, hp, Smp.owned]
    · simp [Smp.advance, hp]
    · simp only [Smp.advance, hp, goto_pos_self, Position.quitRegs.injEq] at hu
      obtain ⟨rfl, rfl⟩ := hu
      cases q <;> simp [Smp.advance, hp, updateThread_state, Quit.state]
    · simp [Smp.advance, hp]
    · simp [Smp.advance, hp]
  · refine h.store hf (t := t) ?_ (fun u => ?_) (fun u => ?_) ?_ ?_ ?_ ?_ ?_ ?_
    · rw [hp]; rfl
    · simp only [Smp.advance, hp, goto_sys, writeThread_sys, updateThread_threads]
      split_ifs <;> rfl
    · simp only [Smp.advance, hp, goto_sys, writeThread_sys]
      exact updateThread_state_same s.sys t _ (by intro; rfl) u
    all_goals simp [Smp.advance, hp, Smp.owned]
  · have hrec : ∀ thread, (q.record thread).regs = thread.regs ∧ (q.record thread).state = thread.state := by
      cases q <;> exact fun _ => ⟨rfl, rfl⟩
    have hnone : (s.advance i).owned i = none := by
      simp [Smp.advance, hp, Smp.owned, idled_currentThread, updateCore_cores]
    refine h.quiet hf hsound (fun u => ?_) (fun u hu => Or.inl ?_) ?_ (fun u hu _ => ?_) ?_ ?_ ?_
      (fun u hu => ?_) (fun u hu => ?_)
    · simp only [Smp.advance, hp]
      change ((s.sys.updateThread t q.record).threads u).regs = _
      rw [updateThread_threads]
      split_ifs with hut
      · rw [(hrec _).1, hut]
      · rfl
    · simp only [Smp.advance, hp] at hu
      rwa [← updateThread_state_same s.sys t q.record (fun thread => (hrec thread).2) u]
    · rw [hnone, Smp.owned, hp]; rfl
    · rw [hnone] at hu
      cases hu
    · rw [hp]; rfl
    · simp [Smp.advance, hp]
    · simp [Smp.advance, hp]
    · simp [Smp.advance, hp] at hu
    · simp [Smp.advance, hp] at hu

/-- Moves of a core that is in a handler and not between two threads. -/
theorem Smp.Kept.plain (h : s.Kept last) {pins : ThreadId → ℤ} {ids : C → ℕ}
    (hsound : s.Sound True pins ids) {sys : System C} {p : Position}
    (hsys : sys.cores = s.sys.cores ∧ sys.threads = s.sys.threads)
    (hfrom : (s.pos i).handling = true ∨ p.handling = false)
    (hplaces : (s.pos i).between = false ∧ p.between = false)
    (hchoice : p.choice = none ∨ p.choice = (s.pos i).choice)
    (hmarked : p.marked = none ∨ p.marked = (s.pos i).marked) :
    (({ s with sys := sys } : Smp C).goto i p).Kept last := by
  have hunsaved : ∀ p : Position, p.between = false → p.unsaved = none ∧ ∀ new, p ≠ .loadState new := by
    intro p hp
    cases p <;> simp at hp ⊢
  refine h.goto hsound hsys (hplaces.2.trans hplaces.1.symm) (fun hp => ?_)
    ⟨(hunsaved _ hplaces.1).1, hunsaved _ hplaces.2⟩ hchoice hmarked
  rcases hfrom with hfrom | hfrom
  · exact hfrom
  · rw [hfrom] at hp
    cases hp

/-- `_sched_runner` gets the lock or not, and frees it. -/
theorem Smp.Kept.lock (h : s.Kept last) {pins : ThreadId → ℤ} {ids : C → ℕ}
    (hsound : s.Sound True pins ids)
    (hp : s.pos i = .tryLock ∨ s.pos i = .unlock ∨ (∃ job, s.pos i = .runLock job) ∨ s.pos i = .runUnlock) :
    (s.advance i).Kept last := by
  have hafter := afterRunner_cases s i
  rcases hp with hp | hp | ⟨job, hp⟩ | hp <;> simp only [Smp.advance, hp]
  · split_ifs
    · rcases hafter with hto | hto <;> rw [hto] <;>
        exact h.plain hsound ⟨rfl, rfl⟩ (Or.inl (by rw [hp]; rfl)) ⟨by rw [hp]; rfl, rfl⟩ (Or.inl rfl)
          (Or.inl rfl)
    · exact h.plain hsound ⟨rfl, rfl⟩ (Or.inl (by rw [hp]; rfl)) ⟨by rw [hp]; rfl, rfl⟩ (Or.inl rfl)
        (Or.inl rfl)
  · rcases hafter with hto | hto <;> rw [hto] <;>
      exact h.plain hsound ⟨rfl, rfl⟩ (Or.inl (by rw [hp]; rfl)) ⟨by rw [hp]; rfl, rfl⟩ (Or.inl rfl)
        (Or.inl rfl)
  · split_ifs
    · exact h
    · exact h.plain hsound ⟨rfl, rfl⟩ (Or.inr rfl) ⟨by rw [hp]; rfl, rfl⟩ (Or.inl rfl) (Or.inl rfl)
  · exact h.plain hsound ⟨rfl, rfl⟩ (Or.inr rfl) ⟨by rw [hp]; rfl, rfl⟩ (Or.inl rfl) (Or.inl rfl)

/-- The sleep timer looks at threads that are not open. -/
theorem Smp.Kept.wake (h : s.Kept last) {pins : ThreadId → ℤ} {ids : C → ℕ}
    (hsound : s.Sound True pins ids) (huntorn : s.Untorn i)
    (hp : (∃ l, s.pos i = .wake l) ∨ (∃ t l, s.pos i = .wakeRead t l) ∨
      (∃ t left l, s.pos i = .wakeWrite t left l) ∨ (∃ t l, s.pos i = .wakeTest t l) ∨
      ∃ t l, s.pos i = .wakeStop t l) : (s.advance i).Kept last := by
  have hf := advance_frame s i
  rcases hp with ⟨l, hp⟩ | ⟨t, l, hp⟩ | ⟨t, left, l, hp⟩ | ⟨t, l, hp⟩ | ⟨t, l, hp⟩
  · cases l with
    | nil =>
      simp only [Smp.advance, hp]
      exact h.plain hsound ⟨rfl, rfl⟩ (Or.inl (by rw [hp]; rfl)) ⟨by rw [hp]; rfl, rfl⟩ (Or.inl rfl)
        (Or.inl rfl)
    | cons t l =>
      simp only [Smp.advance, hp]
      split_ifs
      · refine h.move hsound ⟨rfl, rfl⟩ (by rw [hp]; rfl) (fun _ => by rw [hp]; rfl)
          ⟨by rw [hp]; rfl, rfl, by simp⟩ (fun u hu => ?_) (fun u hu => Or.inr ⟨by rw [hp]; rfl, ?_⟩)
        · cases hu
        · cases hu
          exact fun j q => huntorn t l j q hp
      · exact h.plain hsound ⟨rfl, rfl⟩ (Or.inl (by rw [hp]; rfl)) ⟨by rw [hp]; rfl, rfl⟩ (Or.inl rfl)
          (Or.inl rfl)
  · simp only [Smp.advance, hp]
    exact h.plain hsound ⟨rfl, rfl⟩ (Or.inl (by rw [hp]; rfl)) ⟨by rw [hp]; rfl, rfl⟩ (Or.inl rfl)
      (Or.inr (by rw [hp]; rfl))
  · refine h.quiet hf hsound (fun u => ?_) (fun u hu => Or.inl ?_) ?_ (fun u _ _ => ⟨by rw [hp]; rfl, ?_⟩)
      ?_ ?_ ?_ (fun u hu => ?_) (fun u hu => Or.inl ?_)
    · simp only [Smp.advance, hp, goto_sys, writeThread_sys, updateThread_threads]
      split_ifs with hut
      · rw [hut]
      · rfl
    · simp only [Smp.advance, hp, goto_sys, writeThread_sys] at hu
      rwa [updateThread_state_same s.sys t _ (by intro; rfl) u] at hu
    · simp [Smp.advance, hp, Smp.owned]
    · simp [Smp.advance, hp]
    · rw [hp]; rfl
    · simp [Smp.advance, hp]
    · simp [Smp.advance, hp]
    · simp [Smp.advance, hp] at hu
    · simpa [Smp.advance, hp] using hu
  · simp only [Smp.advance, hp]
    split_ifs
    · exact h.plain hsound ⟨rfl, rfl⟩ (Or.inl (by rw [hp]; rfl)) ⟨by rw [hp]; rfl, rfl⟩ (Or.inl rfl)
        (Or.inr (by rw [hp]; rfl))
    · exact h.plain hsound ⟨rfl, rfl⟩ (Or.inl (by rw [hp]; rfl)) ⟨by rw [hp]; rfl, rfl⟩ (Or.inl rfl)
        (Or.inl rfl)
  · refine h.quiet hf hsound (fun u => ?_) (fun u hu => ?_) ?_ (fun u _ _ => ⟨by rw [hp]; rfl, ?_⟩)
      ?_ ?_ ?_ (fun u hu => ?_) (fun u hu => ?_)
    · simp only [Smp.advance, hp, goto_sys, writeThread_sys, updateThread_threads]
      split_ifs with hut
      · rw [hut]
      · rfl
    · simp only [Smp.advance, hp, goto_sys, writeThread_sys, updateThread_state] at hu
      split_ifs at hu with hut
      · exact Or.inr (by rw [hp, hut]; rfl)
      · exact Or.inl hu
    · simp [Smp.advance, hp, Smp.owned]
    · simp [Smp.advance, hp]
    · rw [hp]; rfl
    · simp [Smp.advance, hp]
    · simp [Smp.advance, hp]
    · simp [Smp.advance, hp] at hu
    · simp [Smp.advance, hp] at hu

/-- A pass picks a thread, and gives the old one away. -/
theorem Smp.Kept.pick (h : s.Kept last) {pins : ThreadId → ℤ} {ids : C → ℕ}
    (hsound : s.Sound True pins ids)
    (hp : (∃ l picked minPriority, s.pos i = .pick l picked minPriority) ∨
      (∃ t new, s.pos i = .saveState t new) ∨ ∃ t new, s.pos i = .saveRegs t new) :
    (s.advance i).Kept last := by
  have hf := advance_frame s i
  have hset := (hsound.1 i).1
  rcases hp with ⟨l, picked, minPriority, hp⟩ | ⟨t, new, hp⟩ | ⟨t, new, hp⟩
  · cases l with
    | nil =>
      simp only [Smp.advance, hp]
      exact h.plain hsound ⟨rfl, rfl⟩ (Or.inl (by rw [hp]; rfl)) ⟨by rw [hp]; rfl, rfl⟩
        (Or.inr (by rw [hp]; rfl)) (Or.inl rfl)
    | cons t l =>
      simp only [Smp.advance, hp]
      split_ifs with ht
      · refine h.move hsound ⟨rfl, rfl⟩ (by rw [hp]; rfl) (fun _ => by rw [hp]; rfl)
          ⟨by rw [hp]; rfl, rfl, by simp⟩ (fun u hu => Or.inr ?_) (fun u hu => ?_)
        · cases hu
          exact ⟨ht.2.1, by rw [hp]; rfl⟩
        · cases hu
      · exact h.plain hsound ⟨rfl, rfl⟩ (Or.inl (by rw [hp]; rfl)) ⟨by rw [hp]; rfl, rfl⟩
          (Or.inr (by rw [hp]; rfl)) (Or.inl rfl)
  · rw [hp] at hset
    refine h.surrender hf hsound (t := t) ?_ ?_ ?_ (fun u => ?_) (fun u hu => ?_) ?_ ?_ (fun u q' hu => ?_)
      ?_ ?_
    · rw [Smp.owned, hp]
      exact hset.1
    · rw [hp]; rfl
    · simp [Smp.advance, hp]
    · simp only [Smp.advance, hp, goto_sys, writeThread_sys, updateThread_threads]
      split_ifs with hut
      · rw [hut]
      · rfl
    · simp [Smp.advance, hp, updateThread_state, hu]
    · simp [Smp.advance, hp, Smp.owned]
    · simp [Smp.advance, hp]
    · simp [Smp.advance, hp] at hu
    · simp [Smp.advance, hp]
    · simp [Smp.advance, hp]
  · refine h.store hf (t := t) ?_ (fun u => ?_) (fun u => ?_) ?_ ?_ ?_ ?_ ?_ ?_
    · rw [hp]; rfl
    · simp only [Smp.advance, hp, goto_sys, writeThread_sys, updateThread_threads]
      split_ifs <;> rfl
    · simp only [Smp.advance, hp, goto_sys, writeThread_sys]
      exact updateThread_state_same s.sys t _ (by intro; rfl) u
    all_goals simp [Smp.advance, hp, Smp.owned]

theorem Smp.Kept.fault (h : s.Kept last) {pins : ThreadId → ℤ} {ids : C → ℕ}
    (hsound : s.Sound True pins ids) (hp : s.pos i = .fault) : (s.advance i).Kept last := by
  have hf := advance_frame s i
  refine h.quiet hf hsound (fun u => ?_) (fun u hu => Or.inl ?_) ?_ (fun u _ _ => ⟨by rw [hp]; rfl, ?_⟩)
    ?_ ?_ ?_ (fun u hu => ?_) (fun u hu => ?_)
  · simp only [Smp.advance, hp]
    cases (s.sys.cores i).currentThread with
    | none => rfl
    | some t =>
      simp only [goto_sys, writeCore_sys, updateCore_threads, writeThread_sys, updateThread_threads]
      split_ifs with hut
      · rw [hut]
      · rfl
  · simp only [Smp.advance, hp] at hu
    cases hc : (s.sys.cores i).currentThread with
    | none => rwa [hc] at hu
    | some t =>
      rw [hc] at hu
      simp only [goto_sys, writeCore_sys, updateCore_threads, writeThread_sys, updateThread_state] at hu
      split_ifs at hu
      exact hu
  all_goals cases hc : (s.sys.cores i).currentThread <;>
    simp_all [Smp.advance, Smp.owned, updateCore_cores]

theorem Smp.Kept.advance (h : s.Kept last) {pins : ThreadId → ℤ} {ids : C → ℕ}
    (hsound : s.Sound True pins ids) (huntorn : s.Untorn i) : (s.advance i).Kept last := by
  cases hp : s.pos i with
  | away | failed a | halted =>
    simp only [Smp.advance, hp]
    exact h
  | quitState t q => exact h.quit hsound (Or.inl hp)
  | quitRegs t q => exact h.quit hsound (Or.inr (Or.inl hp))
  | quitRecord t q => exact h.quit hsound (Or.inr (Or.inr hp))
  | fault => exact h.fault hsound hp
  | tryLock => exact h.lock hsound (Or.inl hp)
  | unlock => exact h.lock hsound (Or.inr (Or.inl hp))
  | runLock job => exact h.lock hsound (Or.inr (Or.inr (Or.inl ⟨job, hp⟩)))
  | runUnlock => exact h.lock hsound (Or.inr (Or.inr (Or.inr hp)))
  | wake l => exact h.wake hsound huntorn (Or.inl ⟨l, hp⟩)
  | wakeRead t l => exact h.wake hsound huntorn (Or.inr (Or.inl ⟨t, l, hp⟩))
  | wakeWrite t left l => exact h.wake hsound huntorn (Or.inr (Or.inr (Or.inl ⟨t, left, l, hp⟩)))
  | wakeTest t l => exact h.wake hsound huntorn (Or.inr (Or.inr (Or.inr (Or.inl ⟨t, l, hp⟩))))
  | wakeStop t l => exact h.wake hsound huntorn (Or.inr (Or.inr (Or.inr (Or.inr ⟨t, l, hp⟩))))
  | pick l picked minPriority => exact h.pick hsound (Or.inl ⟨l, picked, minPriority, hp⟩)
  | saveState t new => exact h.pick hsound (Or.inr (Or.inl ⟨t, new, hp⟩))
  | saveRegs t new => exact h.pick hsound (Or.inr (Or.inr ⟨t, new, hp⟩))
  | loadRegs new => exact h.loadRegs hsound hp
  | loadState new => exact h.loadState hsound.1 hp
  | switch new =>
    simp only [Smp.advance, hp]
    exact h.decide hsound hp
  | timer =>
    simp only [Smp.advance, hp]
    obtain hto | hto := afterTick_cases { s.sys with globalTicks := (s.sys.globalTicks + 1) % 2 ^ 32 } <;>
      rw [hto] <;>
      exact h.plain hsound ⟨rfl, rfl⟩ (Or.inl (by rw [hp]; rfl)) ⟨by rw [hp]; rfl, rfl⟩ (Or.inl rfl)
        (Or.inl rfl)
  | tail =>
    simp only [Smp.advance, hp]
    split_ifs
    · refine h.quiet (i := i) (((Frame.refl i s).setExtra true).goto _) hsound (fun _ => rfl)
        (fun _ hu => Or.inl hu) ?_ (fun u _ _ => ⟨by rw [hp]; rfl, rfl⟩) ?_ ?_ ?_ (fun u hu => ?_)
        (fun u hu => ?_)
      · simp [Smp.owned, hp]
      · rw [hp]; rfl
      · simp
      · simp
      · simp at hu
      · simp at hu
    · exact h.plain hsound ⟨rfl, rfl⟩ (Or.inl (by rw [hp]; rfl)) ⟨by rw [hp]; rfl, rfl⟩ (Or.inl rfl)
        (Or.inl rfl)
  | leave =>
    simp only [Smp.advance, hp]
    refine h.quiet (i := i) ((((Frame.refl i s).setExtra false).writeCore (by intro; rfl)).goto _) hsound
      (fun _ => rfl) (fun _ hu => Or.inl hu) ?_ (fun u _ hh => ?_) ?_ ?_ ?_ (fun u hu => ?_) (fun u hu => ?_)
    · simp [Smp.owned, hp, updateCore_cores]
    · simp at hh
    · rw [hp]; rfl
    · simp
    · simp
    · simp at hu
    · simp at hu
  | pass =>
    simp only [Smp.advance, hp]
    split_ifs <;>
      exact h.plain hsound ⟨rfl, rfl⟩ (Or.inl (by rw [hp]; rfl)) ⟨by rw [hp]; rfl, rfl⟩ (Or.inl rfl)
        (Or.inl rfl)
  | runBody job =>
    cases job with
    | thread t =>
      simp only [Smp.advance, hp]
      exact h.plain hsound ⟨rfl, rfl⟩ (Or.inr rfl) ⟨by rw [hp]; rfl, rfl⟩ (Or.inl rfl) (Or.inl rfl)
    | proc p =>
      simp only [Smp.advance, hp]
      split_ifs <;>
        exact h.plain hsound ⟨rfl, rfl⟩ (Or.inr rfl) ⟨by rw [hp]; rfl, rfl⟩ (Or.inl rfl) (Or.inl rfl)
  | runTest a l =>
    cases l with
    | nil =>
      simp only [Smp.advance, hp]
      exact h.plain hsound ⟨rfl, rfl⟩ (Or.inr rfl) ⟨by rw [hp]; rfl, rfl⟩ (Or.inl rfl) (Or.inl rfl)
    | cons t l =>
      simp only [Smp.advance, hp]
      split_ifs <;>
        exact h.plain hsound ⟨rfl, rfl⟩ (Or.inr rfl) ⟨by rw [hp]; rfl, rfl⟩ (Or.inl rfl) (Or.inl rfl)
  | runLink a t l =>
    simp only [Smp.advance, hp]
    exact h.plain hsound ⟨rfl, rfl⟩ (Or.inr rfl) ⟨by rw [hp]; rfl, rfl⟩ (Or.inl rfl) (Or.inl rfl)

omit [DecidableEq C] in
theorem handlerStart_saved (core : Core) (int : Interrupt) : (handlerStart core int).unsaved = none ∧
    ∀ new, handlerStart core int ≠ .loadState new := by
  cases int with
  | timer | ipi | yield | pageFault => simp [handlerStart]
  | exit code | sleep timeMs =>
    unfold handlerStart
    cases core.currentThread <;> simp

/-- A new frame is recorded for the thread that the interrupt finds. -/
theorem Smp.Kept.interrupted {m : Recorded C} (h : m.smp.Kept m.last) {pins : ThreadId → ℤ} {ids : C → ℕ}
    (hsound : m.smp.Sound True pins ids) {int : Interrupt} {regs : ℕ} (hp : m.smp.pos i = .away) :
    (m.interrupted i int regs).smp.Kept (m.interrupted i int regs).last := by
  have hf : Frame i m.smp (m.smp.interrupted i int regs) :=
    ((Frame.refl i m.smp).writeCore (by intro; rfl)).goto _
  have hpos : (m.smp.interrupted i int regs).pos i = handlerStart (m.smp.sys.cores i) int := goto_pos_self ..
  have hirq : ((m.smp.interrupted i int regs).sys.cores i).irqRegs = regs := by
    simp [Smp.interrupted, updateCore_cores]
  obtain ⟨-, hbetween, hchoice, hmarked⟩ := handlerStart_outside (m.smp.sys.cores i) int
  obtain ⟨hunsaved, hload⟩ := handlerStart_saved (m.smp.sys.cores i) int
  have hown : ∀ k, (m.smp.interrupted i int regs).owned k = m.smp.owned k := by
    intro k
    by_cases hki : k = i
    · subst hki
      rw [Smp.owned, Smp.owned, hpos, hbetween, hp]
      simp [Smp.interrupted, updateCore_cores]
    · exact hf.owned hki
  have hch : ∀ k u, ((m.smp.interrupted i int regs).pos k).choice = some u ∨
      ((m.smp.interrupted i int regs).pos k).marked = some u →
      (m.smp.pos k).choice = some u ∨ (m.smp.pos k).marked = some u := by
    intro k u hk
    by_cases hki : k = i
    · rw [hki, hpos, hchoice, hmarked] at hk
      rcases hk with hk | hk <;> cases hk
    · rwa [hf.pos k hki] at hk
  have hne : ∀ k u, ((m.smp.interrupted i int regs).pos k).unsaved = some u →
      k ≠ i ∧ (m.smp.pos k).unsaved = some u := by
    intro k u hk
    have hki : k ≠ i := by rintro rfl; rw [hpos, hunsaved] at hk; cases hk
    rw [hf.pos k hki] at hk
    exact ⟨hki, hk⟩
  -- only the frame of the core's own thread is recorded anew
  have hlast : ∀ u, m.smp.owned i ≠ some u → (m.interrupted i int regs).last u = m.last u := by
    intro u hu
    unfold Recorded.interrupted
    rw [Smp.owned, hp] at hu
    cases hc : (m.smp.sys.cores i).currentThread with
    | none => rfl
    | some t =>
      rw [hc] at hu
      have hut : u ≠ t := by rintro rfl; exact hu rfl
      exact Function.update_of_ne hut ..
  refine ⟨fun k u hk hh => ?_, fun k u hk => ?_, fun k u q hk => ?_, fun k u hk => ?_, fun u hnone hno => ?_⟩
  · change (m.smp.interrupted i int regs).owned k = some u at hk
    rw [hown] at hk
    by_cases hki : k = i
    · subst hki
      refine hirq.trans ?_
      rw [Smp.owned, hp] at hk
      have hc : (m.smp.sys.cores k).currentThread = some u := hk
      simp [Recorded.interrupted, hc]
    · refine (congrArg Core.irqRegs (hf.cores k hki)).trans ?_
      rw [hlast u fun hi => hki (hsound.owned_inj hk hi)]
      exact h.handled k u hk ((congrArg Position.handling (hf.pos k hki)).symm.trans hh)
  · obtain ⟨hki, hk⟩ := hne k u hk
    obtain ⟨hirq', hfree, hone, hch', hmk'⟩ := h.unsaved k u hk
    refine ⟨?_, fun j hj => hfree j ((hown j).symm.trans hj), fun j hj => hone j (hne j u hj).2,
      fun j hj => ?_, fun j hj => ?_⟩
    · rw [hlast u (hfree i)]
      exact (congrArg Core.irqRegs (hf.cores k hki)).trans hirq'
    · exact (hch j u (Or.inl hj)).elim (hch' j) (hmk' j)
    · exact (hch j u (Or.inr hj)).elim (hch' j) (hmk' j)
  · obtain ⟨hki, -⟩ := hne k u ((congrArg Position.unsaved hk).trans rfl)
    exact h.quitting k u q ((hf.pos k hki).symm.trans hk)
  · have hki : k ≠ i := by rintro rfl; exact hload u (hpos.symm.trans hk)
    have hold := (hf.pos k hki).symm.trans hk
    rw [hlast u fun hi => hsound.owned_ne_choice hi k (by rw [hold]; rfl)]
    exact (congrArg Core.irqRegs (hf.cores k hki)).trans (h.loading k u hold)
  · rw [hlast u fun hi => hnone i ((hown i).trans hi)]
    refine h.resting u (fun k hk => hnone k ((hown k).trans hk)) fun k hk => ?_
    have hki : k ≠ i := by rintro rfl; rw [hp] at hk; cases hk
    exact hno k ((congrArg Position.unsaved (hf.pos k hki)).trans hk)

theorem RecordedStep.kept {m m' : Recorded C} (hst : RecordedStep m m') (h : m.smp.Kept m.last)
    {pins : ThreadId → ℤ} {ids : C → ℕ} (hsound : m.smp.Sound True pins ids) : m'.smp.Kept m'.last := by
  cases hst with
  | interrupt i int regs hp => exact h.interrupted hsound hp
  | panicInterrupt i regs hp =>
    refine h.quiet (i := i) (((Frame.refl i m.smp).writeCore (by intro; rfl)).goto _) hsound
      (fun _ => rfl) (fun _ hu => Or.inl hu) ?_ (fun u _ hh => ?_) ?_ ?_ ?_ (fun u hu => ?_) (fun u hu => ?_)
    · simp [Smp.panicked, Smp.owned, hp, updateCore_cores]
    · simp [Smp.panicked] at hh
    · rw [hp]; rfl
    · simp [Smp.panicked]
    · simp [Smp.panicked]
    · simp [Smp.panicked] at hu
    · simp [Smp.panicked] at hu
  | call i job hp =>
    exact h.plain hsound ⟨rfl, rfl⟩ (Or.inr rfl) ⟨by rw [hp]; rfl, rfl⟩ (Or.inl rfl) (Or.inl rfl)
  | advance i huntorn => exact h.advance hsound huntorn

end Steps

/-! ### Whole runs -/

omit [DecidableEq C] in
theorem start_kept {init : System C} (hcur : ∀ i, (init.cores i).currentThread = none) :
    (start init).Kept fun t => (init.threads t).regs := by
  constructor
  · intro i t ht
    have hnone : (start init).owned i = none := hcur i
    rw [hnone] at ht
    cases ht
  · intro i t ht
    cases ht
  · intro i t q ht
    cases ht
  · intro i t ht
    cases ht
  · exact fun _ _ _ => rfl

/-- If no pass looks at a thread that is between the two writes of `save_thread` in
`sched_thread_exit` or `sched_thread_sleep`, then, however the accesses of the cores
interleave, a core that is about to return to a thread returns to the frame that this
thread was last interrupted with, on whatever core that was. -/
theorem returns_to_last_frame (init : System C) (hcur : ∀ i, (init.cores i).currentThread = none)
    (hstate : ∀ i, (init.cores i).state ≠ .online) (hlock : init.schedLock = false) (m : Recorded C)
    (hrun : Reaches RecordedStep ⟨start init, fun t => (init.threads t).regs⟩ m) (i : C) (t : ThreadId)
    (hleave : m.smp.pos i = .leave) (ht : (m.smp.sys.cores i).currentThread = some t) :
    (m.smp.sys.cores i).irqRegs = m.last t := by
  have hkept := Reaches.invariant
    (fun m : Recorded C => m.smp.Sound True _ _ ∧ m.smp.Kept m.last)
    (fun m m' hs (hst : RecordedStep m m') => ⟨hst.step.sound hs.1, hst.kept hs.2 hs.1⟩) hrun
    ⟨start_sound hcur hstate hlock, start_kept hcur⟩
  exact hkept.2.handled i t (by rw [Smp.owned, hleave]; exact ht) (by rw [hleave]; rfl)

theorem Reaches.recorded_advances (i : C) (n : ℕ) (m : Recorded C) (hothers : ∀ j, j ≠ i → m.smp.pos j = .away) :
    Reaches RecordedStep m ⟨(fun s => Smp.advance s i)^[n] m.smp, m.last⟩ := by
  induction n generalizing m with
  | zero => exact .refl
  | succ n ih =>
    have huntorn : m.smp.Untorn i := by
      intro t l j q hi hj
      by_cases hji : j = i
      · rw [hji, hi] at hj
        cases hj
      · rw [hothers j hji] at hj
        cases hj
    refine (ih ⟨m.smp.advance i, m.last⟩ fun j hj => ?_).head (.advance i huntorn)
    exact ((advance_frame m.smp i).pos j hj).trans (hothers j hj)

/-- Thread 7 runs on core `true` and is interrupted there with frame 5. -/
theorem returns_to_last_frame_run :
    ∃ m : Recorded Bool, Reaches RecordedStep ⟨start twoCores, fun t => (twoCores.threads t).regs⟩ m ∧
      m.last 7 = 5 ∧ (m.smp.sys.cores true).irqRegs = m.last 7 := by
  have hothers : ∀ (s : Smp Bool) i, s.pos (!i) = .away → ∀ j, j ≠ i → s.pos j = .away := by
    intro s i h j hj
    rwa [Bool.eq_not_of_ne hj]
  have hlisted : Reaches RecordedStep ⟨start twoCores, fun t => (twoCores.threads t).regs⟩ _ :=
    (Relation.ReflTransGen.single (RecordedStep.call false (.thread 7) rfl)).trans
      (Reaches.recorded_advances false 6 _ (hothers _ _ rfl))
  have hidle : Reaches RecordedStep ⟨start twoCores, fun t => (twoCores.threads t).regs⟩ _ :=
    (hlisted.tail (RecordedStep.interrupt true .ipi 0 rfl)).trans
      (Reaches.recorded_advances true 8 _ (hothers _ _ rfl))
  have hruns : Reaches RecordedStep ⟨start twoCores, fun t => (twoCores.threads t).regs⟩ _ :=
    (hidle.tail (RecordedStep.interrupt true .ipi 0 rfl)).trans
      (Reaches.recorded_advances true 10 _ (hothers _ _ rfl))
  have hreturns : Reaches RecordedStep ⟨start twoCores, fun t => (twoCores.threads t).regs⟩ _ :=
    (hruns.tail (RecordedStep.interrupt true .ipi 5 rfl)).trans
      (Reaches.recorded_advances true 7 _ (hothers _ _ rfl))
  exact ⟨_, hreturns, rfl, returns_to_last_frame twoCores (fun _ => rfl) (fun b => by cases b <;> decide) rfl
    _ hreturns true 7 rfl rfl⟩

/-- Thread 3 goes to sleep on core `true` with frame 5, the timer of core `false` looks at it
before the frame is saved, and `false` is about to run it from its old frame 3. -/
theorem torn_sleep :
    ∃ s s' : Smp Bool, Reaches (Step True) (start twoCores) s ∧ s.pos true = .away ∧
      (s.sys.cores true).currentThread = some 3 ∧
      Reaches (Step True) (s.interrupted true (.sleep 1) 5) s' ∧ s'.pos false = .leave ∧
      (s'.sys.cores false).currentThread = some 3 ∧ (s'.sys.cores false).irqRegs = 3 := by
  have hfalse : Reaches (Step True) (start twoCores) _ :=
    (Relation.ReflTransGen.single (Step.interrupt false .ipi 0 rfl (by simp))).trans (Reaches.advances false 8 _)
  have hlisted : Reaches (Step True) (start twoCores) _ :=
    (hfalse.tail (Step.call false (.thread 3) rfl)).trans (Reaches.advances false 6 _)
  have hidle : Reaches (Step True) (start twoCores) _ :=
    (hlisted.tail (Step.interrupt true .ipi 0 rfl (by simp))).trans (Reaches.advances true 8 _)
  have hruns : Reaches (Step True) (start twoCores) _ :=
    (hidle.tail (Step.interrupt true .ipi 0 rfl (by simp))).trans (Reaches.advances true 10 _)
  exact ⟨_, _, hruns, rfl, rfl,
    ((Reaches.advances true 1 _).tail (Step.interrupt false .ipi 0 rfl (by simp))).trans
      (Reaches.advances false 15 _), rfl, rfl, rfl⟩

end JustKernel.SchedSmp
