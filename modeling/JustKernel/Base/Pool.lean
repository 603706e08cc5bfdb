import Mathlib.Data.Set.Lattice
import Mathlib.Order.CompletePartialOrder
import Mathlib.Logic.Relation

/-! Exclusive ownership of cells. A pool knows which cells are used and which
blocks of cells are handed out. Taking a block needs all its cells unused, and
giving back one of the handed-out blocks frees exactly its cells. Along every
run the handed-out blocks stay pairwise disjoint, stay clear of the cells that
were used at the start, and account for every other used cell. -/

namespace JustKernel.Pool

variable {α : Type*}

structure State (α : Type*) where
  used : Set α
  blocks : List (Set α)

inductive Step : State α → State α → Prop
  | take {s : State α} (B : Set α) (h : Disjoint B s.used) : Step s ⟨B ∪ s.used, B :: s.blocks⟩
  | give {s : State α} (B : Set α) (rest : List (Set α)) (h : s.blocks.Perm (B :: rest)) :
      Step s ⟨s.used \ B, rest⟩
  | skip {s : State α} : Step s s

/-- The blocks own their cells exclusively, over the cells `base` used at the start. -/
structure Exclusive (base : Set α) (s : State α) : Prop where
  pairwise : s.blocks.Pairwise Disjoint
  fresh : ∀ B ∈ s.blocks, Disjoint B base
  used_iff : ∀ x, x ∈ s.used ↔ x ∈ base ∨ ∃ B ∈ s.blocks, x ∈ B

theorem exclusive_init (base : Set α) : Exclusive base ⟨base, []⟩ where
  pairwise := List.Pairwise.nil
  fresh := by simp
  used_iff := by simp

theorem Exclusive.perm {base used : Set α} {bs bs' : List (Set α)}
    (h : Exclusive base ⟨used, bs⟩) (hp : bs.Perm bs') : Exclusive base ⟨used, bs'⟩ where
  pairwise := (hp.pairwise_iff fun hd => hd.symm).mp h.pairwise
  fresh B hB := h.fresh B (hp.mem_iff.mpr hB)
  used_iff x := by
    rw [h.used_iff x]
    simp only [hp.mem_iff]

theorem Exclusive.take {base : Set α} {s : State α} (h : Exclusive base s) {B : Set α}
    (hB : Disjoint B s.used) : Exclusive base ⟨B ∪ s.used, B :: s.blocks⟩ where
  pairwise := by
    refine List.Pairwise.cons (fun C hC => ?_) h.pairwise
    refine hB.mono_right fun x hx => ?_
    exact (h.used_iff x).mpr (Or.inr ⟨C, hC, hx⟩)
  fresh C hC := by
    rcases List.mem_cons.mp hC with rfl | hC
    · exact hB.mono_right fun x hx => (h.used_iff x).mpr (Or.inl hx)
    · exact h.fresh C hC
  used_iff x := by
    simp only [Set.mem_union, h.used_iff, List.mem_cons, exists_eq_or_imp]
    tauto

theorem Exclusive.give {base : Set α} {s : State α} (h : Exclusive base s) {B : Set α}
    {rest : List (Set α)} (hp : s.blocks.Perm (B :: rest)) : Exclusive base ⟨s.used \ B, rest⟩ := by
  have h' := h.perm hp
  obtain ⟨hB, hrest⟩ := List.pairwise_cons.mp h'.pairwise
  refine ⟨hrest, fun C hC => h'.fresh C (List.mem_cons_of_mem _ hC), fun x => ?_⟩
  rw [Set.mem_sdiff, h'.used_iff x]
  constructor
  · rintro ⟨hx | ⟨C, hC, hx⟩, hn⟩
    · exact Or.inl hx
    · rcases List.mem_cons.mp hC with rfl | hC
      · exact absurd hx hn
      · exact Or.inr ⟨C, hC, hx⟩
  · rintro (hx | ⟨C, hC, hx⟩)
    · exact ⟨Or.inl hx, Set.disjoint_right.mp (h'.fresh B List.mem_cons_self) hx⟩
    · exact ⟨Or.inr ⟨C, List.mem_cons_of_mem _ hC, hx⟩, Set.disjoint_right.mp (hB C hC) hx⟩

theorem Exclusive.step {base : Set α} {s t : State α} (h : Exclusive base s) (hst : Step s t) :
    Exclusive base t := by
  cases hst with
  | take B hB => exact h.take hB
  | give B rest hp => exact h.give hp
  | skip => exact h

end JustKernel.Pool
