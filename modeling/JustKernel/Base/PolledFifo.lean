import JustKernel.Base.Runs
import Mathlib.Data.Fintype.Card
import Mathlib.Data.List.Nodup

/-! Writers that poll a device before they write. The device has a queue of `size` places and takes
from it in its own time; an element for which there is no place is lost. A writer looks whether the
queue is empty and puts one element in when it was, however long after that, and other writers look
and put in between. Every element in the queue is from another writer, and none of a writer that
has looked and not yet put: so there is always a place, as long as the writers are no more than the
places. -/

namespace JustKernel.PolledFifo

open Runs

variable {W A : Type*} [DecidableEq W]

/-- What the writers have yet to put, which of them have seen the queue empty, the queue and what
the device has taken, each element with its writer. -/
structure State (W A : Type*) where
  todo : W → List A
  seen : W → Bool
  queue : List (W × A)
  out : List (W × A)

inductive Step (size : ℕ) (s : State W A) : State W A → Prop
  | look (i : W) : s.queue = [] → Step size s { s with seen := Function.update s.seen i true }
  | put (i : W) (a : A) (rest : List A) : s.seen i = true → s.todo i = a :: rest → Step size s
      { todo := Function.update s.todo i rest
        seen := Function.update s.seen i false
        queue := if s.queue.length < size then s.queue ++ [(i, a)] else s.queue
        out := s.out }
  | take (x : W × A) (rest : List (W × A)) : s.queue = x :: rest →
      Step size s { s with queue := rest, out := s.out ++ [x] }

/-- What has come from a writer. -/
def sentBy (i : W) (l : List (W × A)) : List A := (l.filter (·.1 = i)).map (·.2)

theorem sentBy_append (i : W) (l r : List (W × A)) : sentBy i (l ++ r) = sentBy i l ++ sentBy i r := by
  simp [sentBy]

/-- The writers in the queue are different ones, and none of them is about to put. -/
structure Single (s : State W A) : Prop where
  nodup : (s.queue.map (·.1)).Nodup
  seen : ∀ i, s.seen i = true → i ∉ s.queue.map (·.1)

variable {size : ℕ} {s t : State W A}

theorem Step.single (hst : Step size s t) (h : Single s) : Single t := by
  cases hst with
  | look i hempty => constructor <;> simp [hempty]
  | put i a rest hseen _ =>
    constructor
    · dsimp only
      split_ifs
      · rw [List.map_append, List.nodup_append]
        refine ⟨h.nodup, by simp, ?_⟩
        rintro j hj k hk rfl
        obtain rfl : j = i := by simpa using hk
        exact h.seen j hseen hj
      · exact h.nodup
    · intro j hj
      have hji : j ≠ i := by
        rintro rfl
        simp at hj
      have hjs : s.seen j = true := by simpa [hji] using hj
      have hnot := h.seen j hjs
      dsimp only
      split_ifs
      · simpa [hji] using hnot
      · exact hnot
  | take x rest hq =>
    have hnodup := h.nodup
    rw [hq, List.map_cons, List.nodup_cons] at hnodup
    refine ⟨hnodup.2, fun i hi hmem => h.seen i hi ?_⟩
    rw [hq]
    exact List.mem_cons_of_mem _ hmem

omit [DecidableEq W] in
/-- A writer that has seen the queue empty finds a place. -/
theorem Single.room [Fintype W] (h : Single s) {i : W} (hi : s.seen i = true) :
    s.queue.length < Fintype.card W := by
  have hnodup : (i :: s.queue.map (·.1)).Nodup := List.nodup_cons.mpr ⟨h.seen i hi, h.nodup⟩
  exact Nat.lt_of_succ_le (by simpa using hnodup.length_le_card)

/-- Nothing is lost: what has come from a writer and what it has yet to put is its text. -/
theorem Step.conserved [Fintype W] (hst : Step size s t) (h : Single s) (hsize : Fintype.card W ≤ size) (j : W) :
    sentBy j (t.out ++ t.queue) ++ t.todo j = sentBy j (s.out ++ s.queue) ++ s.todo j := by
  cases hst with
  | look i _ => rfl
  | put i a rest hseen htodo =>
    have hroom := (h.room hseen).trans_le hsize
    dsimp only
    rw [if_pos hroom, ← List.append_assoc, sentBy_append j (s.out ++ s.queue)]
    by_cases hji : j = i
    · subst hji
      simp [sentBy, htodo]
    · have hij : i ≠ j := Ne.symm hji
      simp [sentBy, hji, hij]
  | take x rest hq =>
    dsimp only
    rw [hq, List.append_assoc, List.singleton_append]

theorem Reaches.single_conserved [Fintype W] (hrun : Reaches (Step size) s t) (h : Single s)
    (hsize : Fintype.card W ≤ size) :
    Single t ∧ ∀ j, sentBy j (t.out ++ t.queue) ++ t.todo j = sentBy j (s.out ++ s.queue) ++ s.todo j := by
  apply hrun.invariant (fun t => Single t ∧ ∀ j,
    sentBy j (t.out ++ t.queue) ++ t.todo j = sentBy j (s.out ++ s.queue) ++ s.todo j)
  · rintro t u ⟨hsingle, hsame⟩ hst
    exact ⟨hst.single hsingle, fun j => (hst.conserved hsingle hsize j).trans (hsame j)⟩
  · exact ⟨h, fun _ => rfl⟩

end JustKernel.PolledFifo
