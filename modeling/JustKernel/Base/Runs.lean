import Mathlib.Logic.Relation

/-! Runs of a transition relation and the invariant rule. A run is a finite
chain of steps; a property that holds at the start and that every step keeps
holds in every state a run reaches. -/

namespace JustKernel.Runs

variable {σ : Type*} {R : σ → σ → Prop}

/-- The states a run of `R` can reach from `s`. -/
abbrev Reaches (R : σ → σ → Prop) : σ → σ → Prop := Relation.ReflTransGen R

theorem Reaches.invariant (Inv : σ → Prop) (hstep : ∀ s t, Inv s → R s t → Inv t) {s t : σ}
    (h : Reaches R s t) (hs : Inv s) : Inv t := by
  induction h with
  | refl => exact hs
  | tail _ hlast ih => exact hstep _ _ ih hlast

end JustKernel.Runs
