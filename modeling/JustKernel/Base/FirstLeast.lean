import Mathlib.Data.List.Basic
import Mathlib.Order.Lattice

/-! First elements. The first element that a predicate admits is the one a search returns. A scan
from the left keeps the element of least key among those it has admitted so far and replaces it
only by one of smaller key, so what it holds at every point is the earliest of the least elements
of the part it has passed. -/

namespace JustKernel.FirstLeast

variable {α κ : Type*} [LinearOrder κ] {p : α → Prop} {key : α → κ} {l : List α} {a b : α}

/-- `a` is the earliest admitted element. -/
structure First (p : α → Prop) (l : List α) (a : α) : Prop where
  admitted : p a
  first : ∃ before after, l = before ++ a :: after ∧ ∀ b ∈ before, ¬p b

/-- `a` is the earliest of the admitted elements of least key. -/
structure Least (p : α → Prop) (key : α → κ) (l : List α) (a : α) : Prop where
  admitted : p a
  first : ∃ before after, l = before ++ a :: after ∧
    (∀ b ∈ before, p b → key a < key b) ∧ ∀ b ∈ after, p b → key a ≤ key b

/-- What a scan of `l` returns: nothing when nothing is admitted, or else the first least. -/
structure Best (p : α → Prop) (key : α → κ) (l : List α) (o : Option α) : Prop where
  none_iff : o = none ↔ ∀ b ∈ l, ¬p b
  least : ∀ a, o = some a → Least p key l a

/-! ### The first element -/

theorem First.mem (h : First p l a) : a ∈ l := by
  obtain ⟨before, after, rfl, -⟩ := h.first
  exact List.mem_append_right _ List.mem_cons_self

theorem first_cons_self (h : p a) : First p (a :: l) a :=
  ⟨h, [], l, rfl, by simp⟩

theorem First.cons (h : First p l a) (hb : ¬p b) : First p (b :: l) a := by
  obtain ⟨before, after, rfl, hbefore⟩ := h.first
  refine ⟨h.admitted, b :: before, after, rfl, ?_⟩
  simpa [hb] using hbefore

theorem First.of_cons (h : First p (b :: l) a) : a = b ∧ p b ∨ ¬p b ∧ First p l a := by
  obtain ⟨before, after, hl, hbefore⟩ := h.first
  cases before with
  | nil =>
    obtain ⟨rfl, -⟩ := List.cons.inj hl
    exact Or.inl ⟨rfl, h.admitted⟩
  | cons c before =>
    obtain ⟨rfl, htail⟩ := List.cons.inj hl
    exact Or.inr ⟨hbefore b List.mem_cons_self,
      h.admitted, before, after, htail, fun c hc => hbefore c (List.mem_cons_of_mem _ hc)⟩

theorem First.append (h : First p l a) (m : List α) : First p (l ++ m) a := by
  obtain ⟨before, after, rfl, hbefore⟩ := h.first
  exact ⟨h.admitted, before, after ++ m, by simp, hbefore⟩

theorem First.eq (ha : First p l a) (hb : First p l b) : a = b := by
  induction l with
  | nil => exact absurd ha.mem List.not_mem_nil
  | cons c l ih =>
    rcases ha.of_cons with ⟨rfl, hc⟩ | ⟨hc, ha⟩
    · rcases hb.of_cons with ⟨rfl, -⟩ | ⟨hc', -⟩
      · rfl
      · exact absurd hc hc'
    · rcases hb.of_cons with ⟨-, hc'⟩ | ⟨-, hb⟩
      · exact absurd hc' hc
      · exact ih ha hb

/-- Only the admitted elements decide which one is the first. -/
theorem first_iff_filter [DecidablePred p] : First p l a ↔ (l.filter p).head? = some a := by
  induction l with
  | nil => exact iff_of_false (fun h => absurd h.mem List.not_mem_nil) (by simp)
  | cons b l ih =>
    by_cases hb : p b
    · rw [List.filter_cons_of_pos (by simpa using hb), List.head?_cons, Option.some.injEq]
      exact ⟨fun h => h.eq (first_cons_self hb) ▸ rfl, fun h => h ▸ first_cons_self hb⟩
    · rw [List.filter_cons_of_neg (by simpa using hb), ← ih]
      exact ⟨fun h => (h.of_cons.resolve_left fun hself => hb hself.2).2, fun h => h.cons hb⟩

/-- The first admitted element, or else `c`. -/
theorem first_or_iff_filter [DecidablePred p] {c : α} :
    First p l a ∨ (∀ b ∈ l, ¬p b) ∧ a = c ↔ (l.filter p).head?.getD c = a := by
  rw [first_iff_filter]
  cases hfilter : l.filter p with
  | nil =>
    have hnone : ∀ b ∈ l, ¬p b := by simpa using hfilter
    rw [and_iff_right hnone]
    simp [eq_comm]
  | cons b rest =>
    have hb : b ∈ l ∧ p b := by simpa using List.mem_filter.mp (hfilter ▸ List.mem_cons_self : b ∈ l.filter p)
    simp only [List.head?_cons, Option.getD_some, Option.some.injEq, or_iff_left_iff_imp]
    exact fun hnone => absurd hb.2 (hnone.1 b hb.1)

theorem exists_first (h : ∃ a ∈ l, p a) : ∃ a, First p l a := by
  classical
  induction l with
  | nil => simp at h
  | cons b l ih =>
    by_cases hb : p b
    · exact ⟨b, first_cons_self hb⟩
    · obtain ⟨a, ha⟩ := ih (by simpa [hb] using h)
      exact ⟨a, ha.cons hb⟩

/-! ### The first least element -/

theorem Least.mem (h : Least p key l a) : a ∈ l := by
  obtain ⟨before, after, rfl, -, -⟩ := h.first
  exact List.mem_append_right _ List.mem_cons_self

theorem Least.le (h : Least p key l a) (hb : b ∈ l) (hp : p b) : key a ≤ key b := by
  obtain ⟨before, after, rfl, hbefore, hafter⟩ := h.first
  rcases List.mem_append.mp hb with hb | hb
  · exact (hbefore b hb hp).le
  · rcases List.mem_cons.mp hb with rfl | hb
    · exact le_rfl
    · exact hafter b hb hp

/-! ### The scan -/

theorem best_nil : Best p key ([] : List α) none :=
  ⟨by simp, by simp⟩

/-- An element that is not admitted changes nothing. -/
theorem Best.skip {o : Option α} (h : Best p key l o) (ha : ¬p a) : Best p key (l ++ [a]) o where
  none_iff := by
    rw [h.none_iff]
    simp only [List.mem_append, List.mem_singleton]
    constructor
    · rintro hl b (hb | rfl)
      · exact hl b hb
      · exact ha
    · exact fun hl b hb => hl b (Or.inl hb)
  least b hb := by
    obtain ⟨before, after, rfl, hbefore, hafter⟩ := (h.least b hb).first
    refine ⟨(h.least b hb).admitted, before, after ++ [a], by simp, hbefore, ?_⟩
    intro c hc hp
    rcases List.mem_append.mp hc with hc | hc
    · exact hafter c hc hp
    · exact absurd (List.mem_singleton.mp hc ▸ hp) ha

/-- An element of no smaller key leaves the first least. -/
theorem Best.keep (h : Best p key l (some b)) (hle : key b ≤ key a) :
    Best p key (l ++ [a]) (some b) where
  none_iff := by
    have hb := h.least b rfl
    simp only [reduceCtorEq, false_iff, not_forall, not_not]
    exact ⟨b, List.mem_append_left _ hb.mem, hb.admitted⟩
  least c hc := by
    cases hc
    have hb := h.least b rfl
    obtain ⟨before, after, rfl, hbefore, hafter⟩ := hb.first
    refine ⟨hb.admitted, before, after ++ [a], by simp, hbefore, ?_⟩
    intro c hc hp
    rcases List.mem_append.mp hc with hc | hc
    · exact hafter c hc hp
    · rwa [List.mem_singleton.mp hc]

/-- An admitted element of smaller key than all before becomes the first least. -/
theorem Best.replace {o : Option α} (h : Best p key l o) (ha : p a)
    (hlt : ∀ b, o = some b → key a < key b) : Best p key (l ++ [a]) (some a) where
  none_iff := by
    simp only [reduceCtorEq, false_iff, not_forall, not_not]
    exact ⟨a, by simp, ha⟩
  least c hc := by
    cases hc
    refine ⟨ha, l, [], rfl, ?_, by simp⟩
    intro b hb hp
    cases o with
    | none => exact absurd hp (h.none_iff.mp rfl b hb)
    | some c => exact (hlt c rfl).trans_le ((h.least c rfl).le hb hp)

/-! ### Admitting fewer elements -/

/-- A scan that also drops the elements of key `bound` or more returns the first least unless
it drops all there is. -/
theorem Best.below_iff {o : Option α} {bound : κ} (h : Best (fun a => p a ∧ key a < bound) key l o) :
    Best p key l o ↔ ((∃ a ∈ l, p a) → ∃ a ∈ l, p a ∧ key a < bound) := by
  constructor
  · rintro hbest ⟨a, ha, hp⟩
    by_contra hnone
    push Not at hnone
    have ho : o = none := h.none_iff.mpr fun b hb ⟨hpb, hlt⟩ => (hnone b hb hpb).not_gt hlt
    exact hbest.none_iff.mp ho a ha hp
  · intro hsome
    constructor
    · rw [h.none_iff]
      constructor
      · intro hnone b hb hp
        obtain ⟨a, ha, hpa, hlt⟩ := hsome ⟨b, hb, hp⟩
        exact hnone a ha ⟨hpa, hlt⟩
      · exact fun hnone b hb hp => hnone b hb hp.1
    · intro a ha
      have hl := h.least a ha
      obtain ⟨before, after, hsplit, hbefore, hafter⟩ := hl.first
      refine ⟨hl.admitted.1, before, after, hsplit, fun b hb hp => ?_, fun b hb hp => ?_⟩
      · rcases lt_or_ge (key b) bound with hlt | hge
        · exact hbefore b hb ⟨hp, hlt⟩
        · exact hl.admitted.2.trans_le hge
      · rcases lt_or_ge (key b) bound with hlt | hge
        · exact hafter b hb ⟨hp, hlt⟩
        · exact (hl.admitted.2.trans_le hge).le

/-- Admitting only elements that come before all others in the order of `key` leaves the first
least, unless nothing is left. -/
theorem Best.narrow {κ' : Type*} [LinearOrder κ'] {q : α → Prop} {key' : α → κ'} {o : Option α}
    (h : Best p key l o) (hsub : ∀ a, q a → p a) (hsome : (∃ a ∈ l, p a) → ∃ a ∈ l, q a)
    (hclosed : ∀ a b, q a → p b → key b ≤ key a → q b)
    (hkey : ∀ a b, q a → q b → (key' a ≤ key' b ↔ key a ≤ key b)) : Best q key' l o where
  none_iff := by
    rw [h.none_iff]
    constructor
    · exact fun hnone b hb hq => hnone b hb (hsub b hq)
    · intro hnone b hb hp
      obtain ⟨a, ha, hq⟩ := hsome ⟨b, hb, hp⟩
      exact hnone a ha hq
  least a ha := by
    have hl := h.least a ha
    obtain ⟨b, hb, hq⟩ := hsome ⟨a, hl.mem, hl.admitted⟩
    have hqa : q a := hclosed b a hq hl.admitted (hl.le hb (hsub b hq))
    obtain ⟨before, after, hsplit, hbefore, hafter⟩ := hl.first
    refine ⟨hqa, before, after, hsplit, fun c hc hqc => ?_, fun c hc hqc => ?_⟩
    · exact not_le.mp fun hle => (hbefore c hc (hsub c hqc)).not_ge ((hkey c a hqc hqa).mp hle)
    · exact (hkey a c hqa hqc).mpr (hafter c hc (hsub c hqc))

end JustKernel.FirstLeast
