import JustKernel.Base.FirstLeast
import JustKernel.Proc.SchedOwnership

/-! Which thread `pick_thread` picks. The scan keeps the first of the ready threads of least
priority, but it starts from the bound `0xFFFFFFFF` and replaces strictly below it, so it looks
past every thread of the greatest priority. -/

namespace JustKernel.Sched

open FirstLeast

variable {C : Type}

/-- What a core wants from `pick_thread`: no thread when none on the list is ready for the
core, or else the earliest listed of those of least priority. -/
def Optimal (s : System C) (coreId : ℕ) (picked : Option ThreadId) : Prop :=
  Best (fun t => Pickable coreId (s.threads t)) (fun t => (s.threads t).priority) s.threadList picked

/-- The threads the scan admits. -/
def Admitted (s : System C) (coreId : ℕ) (t : ThreadId) : Prop :=
  Pickable coreId (s.threads t) ∧ (s.threads t).priority < 0xFFFFFFFF

/-- The scan behind the part `l` of the list: the bound is the priority of the thread picked so
far, or the one the scan starts from. -/
theorem pickThreadLoop_best (s : System C) (coreId : ℕ) (l rest : List ThreadId)
    (picked : Option ThreadId) (minPriority : ℕ)
    (hbest : Best (Admitted s coreId) (fun t => (s.threads t).priority) l picked)
    (hmin : minPriority = picked.elim 0xFFFFFFFF fun t => (s.threads t).priority) :
    Best (Admitted s coreId) (fun t => (s.threads t).priority) (l ++ rest)
      (pickThreadLoop s coreId rest picked minPriority) := by
  induction rest generalizing l picked minPriority with
  | nil => rwa [List.append_nil]
  | cons t rest ih =>
    have hle : minPriority ≤ 0xFFFFFFFF := by
      cases picked with
      | none => exact hmin.le
      | some u => exact hmin.le.trans (hbest.least u rfl).admitted.2.le
    rw [List.append_cons, pickThreadLoop]
    split_ifs with ht
    · obtain ⟨hcpu, hstate, hlt⟩ := ht
      refine ih _ _ _ (hbest.replace ⟨⟨hstate, hcpu⟩, hlt.trans_le hle⟩ fun u hu => ?_) rfl
      rwa [hmin, hu] at hlt
    · refine ih _ _ _ ?_ hmin
      by_cases hadmit : Admitted s coreId t
      · -- an admitted thread that is not taken loses against the one picked so far
        obtain ⟨⟨hstate, hcpu⟩, hbound⟩ := hadmit
        have hge : minPriority ≤ (s.threads t).priority :=
          not_lt.mp fun hlt => ht ⟨hcpu, hstate, hlt⟩
        cases picked with
        | none => exact absurd (hmin.symm.trans_le hge) hbound.not_ge
        | some u => exact hbest.keep (hmin.symm.trans_le hge)
      · exact hbest.skip hadmit

theorem pickThread_best (i : C) (s : System C) :
    Best (Admitted s (s.cores i).coreId) (fun t => (s.threads t).priority) s.threadList
      (pickThread i s) :=
  pickThreadLoop_best s _ [] s.threadList none _ best_nil rfl

/-- The pick is right unless every ready thread has the greatest priority. -/
theorem pickThread_optimal_iff (i : C) (s : System C) :
    Optimal s (s.cores i).coreId (pickThread i s) ↔
      ((∃ t ∈ s.threadList, Pickable (s.cores i).coreId (s.threads t)) →
        ∃ t ∈ s.threadList, Pickable (s.cores i).coreId (s.threads t) ∧
          (s.threads t).priority < 0xFFFFFFFF) :=
  (pickThread_best i s).below_iff

/-- One core and one ready thread of the greatest priority. -/
def starved : System Unit where
  cores _ := ⟨false, false, false, 0, .idle, none, 0, 0, 0⟩
  threads _ := ⟨0, .stopped, -1, 0, 0, 0, 0xFFFFFFFF⟩
  threadList := [1]
  procList := []
  procThreads _ := []
  kernelProc := 0
  schedLock := false
  globalTicks := 0

theorem pickThread_starved :
    pickThread () starved = none ∧ ¬Optimal starved (starved.cores ()).coreId (pickThread () starved) := by
  have hpick : pickThread () starved = none := by decide
  refine ⟨hpick, fun h => h.none_iff.mp hpick 1 (by decide) ⟨rfl, Or.inl rfl⟩⟩

end JustKernel.Sched
