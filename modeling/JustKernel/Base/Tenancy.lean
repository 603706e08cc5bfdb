import JustKernel.Base.Runs
import Mathlib.Data.Option.Basic
import Mathlib.Logic.Function.Basic

/-! Tenancy under one lock. Places work on resources, each on at most one, and
hand them to each other. A resource that somebody wants to work on must be free,
and to choose a free one, to take it, to give the old one back or to free one
that was parked a place has to be inside the lock; but a place may turn away from
its own resource at any time, and leave it parked or dead. The protocol keeps
resources apart although the last kind of step is not protected, because whoever
is inside looks for free and for parked resources only, and those have no tenant. -/

namespace JustKernel.Tenancy

open Runs

/-- What everybody can see of a resource. -/
inductive Status
  | free | taken | parked | dead
  deriving DecidableEq

/-- Who is inside the lock, with the resource it has chosen to take and the one it is
about to free, and who works on what. -/
structure Estate (P R : Type*) where
  status : R → Status
  tenant : P → Option R
  inside : Option P
  choice : Option R
  marked : Option R

variable {P R : Type*} [DecidableEq P] [DecidableEq R]

/-- The steps. `fits` says which resources a place may choose, and `mayDie` whether a
resource may die under its tenant. -/
inductive Step (fits : P → R → Prop) (mayDie : Prop) (e : Estate P R) : Estate P R → Prop
  | enter (p : P) : e.inside = none →
      Step fits mayDie e { e with inside := some p, choice := none, marked := none }
  | exit (p : P) : e.inside = some p →
      Step fits mayDie e { e with inside := none, choice := none, marked := none }
  | mark (p : P) (r : R) : e.inside = some p → e.status r = .parked →
      Step fits mayDie e { e with marked := some r }
  | unmark (p : P) : e.inside = some p → Step fits mayDie e { e with marked := none }
  | unpark (p : P) (r : R) : e.inside = some p → e.marked = some r →
      Step fits mayDie e { e with status := Function.update e.status r .free, marked := none }
  | choose (p : P) (r : R) : e.inside = some p → e.status r = .free → fits p r →
      Step fits mayDie e { e with choice := some r }
  | forget (p : P) : e.inside = some p → Step fits mayDie e { e with choice := none }
  | giveBack (p : P) (r : R) : e.inside = some p → e.tenant p = some r →
      Step fits mayDie e { e with
        status := Function.update e.status r .free, tenant := Function.update e.tenant p none }
  | take (p : P) (r : R) : e.inside = some p → e.choice = some r → e.tenant p = none →
      Step fits mayDie e { e with
        status := Function.update e.status r .taken
        tenant := Function.update e.tenant p (some r)
        choice := none }
  | abandon (p : P) (r : R) (st : Status) : e.tenant p = some r → st = .parked ∨ st = .dead →
      Step fits mayDie e { e with
        status := Function.update e.status r st, tenant := Function.update e.tenant p none }
  | die (p : P) (r : R) : mayDie → e.tenant p = some r →
      Step fits mayDie e { e with status := Function.update e.status r .dead }

/-- What the protocol keeps. -/
structure Estate.Sound (fits : P → R → Prop) (mayDie : Prop) (e : Estate P R) : Prop where
  single : ∀ p q r, e.tenant p = some r → e.tenant q = some r → p = q
  taken : ∀ p r, e.tenant p = some r → e.status r = .taken ∨ mayDie ∧ e.status r = .dead
  fit : ∀ p r, e.tenant p = some r → fits p r
  chosen : ∀ r, e.choice = some r → e.status r = .free ∧ ∀ p, e.inside = some p → fits p r
  marked : ∀ r, e.marked = some r → e.status r = .parked

variable {fits : P → R → Prop} {mayDie : Prop} {e e' : Estate P R}

omit [DecidableEq P] [DecidableEq R] in
/-- A free resource and a parked one have no tenant. -/
theorem Estate.Sound.no_tenant (h : e.Sound fits mayDie) {r : R}
    (hr : e.status r = .free ∨ e.status r = .parked) (p : P) : e.tenant p ≠ some r := by
  intro hp
  rcases h.taken p r hp with ht | ⟨-, ht⟩ <;> rw [ht] at hr <;> rcases hr with hr | hr <;> cases hr

omit [DecidableEq P] in
/-- A change of the status of a resource that has no tenant and is neither chosen nor marked
afterwards. -/
theorem Estate.Sound.restatus (h : e.Sound fits mayDie) {r : R} {st : Status} {ch mk : Option R}
    (hfree : ∀ p, e.tenant p ≠ some r) (hch : ch = none ∨ ch = e.choice) (hmk : mk = none ∨ mk = e.marked)
    (hr : (ch ≠ some r ∨ st = .free) ∧ mk ≠ some r) :
    ({ e with status := Function.update e.status r st, choice := ch, marked := mk } :
      Estate P R).Sound fits mayDie := by
  refine ⟨h.single, fun p q hq => ?_, h.fit, fun q hq => ?_, fun q hq => ?_⟩
  · have hne : q ≠ r := by rintro rfl; exact hfree p hq
    have hsame : Function.update e.status r st q = e.status q := Function.update_of_ne hne ..
    dsimp only
    rw [hsame]
    exact h.taken p q hq
  · have hq' : e.choice = some q := by
      rcases hch with rfl | rfl
      · cases hq
      · exact hq
    refine ⟨?_, (h.chosen q hq').2⟩
    by_cases hne : q = r
    · subst hne
      rcases hr.1 with hno | hst
      · exact absurd hq hno
      · exact (Function.update_self ..).trans hst
    · exact (Function.update_of_ne hne ..).trans (h.chosen q hq').1
  · have hq' : e.marked = some q := by
      rcases hmk with rfl | rfl
      · cases hq
      · exact hq
    have hne : q ≠ r := by rintro rfl; exact hr.2 hq
    exact (Function.update_of_ne hne ..).trans (h.marked q hq')

omit [DecidableEq R] in
/-- A place without its resource. -/
theorem Estate.Sound.vacate (h : e.Sound fits mayDie) (p : P) :
    ({ e with tenant := Function.update e.tenant p none } : Estate P R).Sound fits mayDie := by
  have hold : ∀ q r, Function.update e.tenant p none q = some r → e.tenant q = some r := by
    intro q r hq
    by_cases hqp : q = p
    · rw [hqp, Function.update_self] at hq
      cases hq
    · rwa [Function.update_of_ne hqp] at hq
  exact ⟨fun q q' r hq hq' => h.single q q' r (hold q r hq) (hold q' r hq'),
    fun q r hq => h.taken q r (hold q r hq), fun q r hq => h.fit q r (hold q r hq), h.chosen, h.marked⟩

omit [DecidableEq R] in
theorem Estate.Sound.vacated (h : e.Sound fits mayDie) {p : P} {r : R} (hp : e.tenant p = some r) (q : P) :
    Function.update e.tenant p none q ≠ some r := by
  intro hq
  by_cases hqp : q = p
  · rw [hqp, Function.update_self] at hq
    cases hq
  · rw [Function.update_of_ne hqp] at hq
    exact hqp (h.single q p r hq hp)

omit [DecidableEq P] [DecidableEq R] in
theorem Estate.Sound.tenant_ne_choice (h : e.Sound fits mayDie) {p : P} {r : R}
    (hp : e.tenant p = some r) : e.choice ≠ some r :=
  fun hc => h.no_tenant (Or.inl (h.chosen r hc).1) p hp

omit [DecidableEq P] [DecidableEq R] in
theorem Estate.Sound.tenant_ne_marked (h : e.Sound fits mayDie) {p : P} {r : R}
    (hp : e.tenant p = some r) : e.marked ≠ some r :=
  fun hm => h.no_tenant (Or.inr (h.marked r hm)) p hp

theorem Step.sound (hst : Step fits mayDie e e') (h : e.Sound fits mayDie) : e'.Sound fits mayDie := by
  cases hst with
  | enter p _ => exact ⟨h.single, h.taken, h.fit, by simp, by simp⟩
  | exit p _ => exact ⟨h.single, h.taken, h.fit, by simp, by simp⟩
  | mark p r _ hr =>
    refine ⟨h.single, h.taken, h.fit, h.chosen, fun q hq => ?_⟩
    cases hq
    exact hr
  | unmark p _ => exact ⟨h.single, h.taken, h.fit, h.chosen, by simp⟩
  | unpark p r _ hr =>
    exact h.restatus (h.no_tenant (Or.inr (h.marked r hr))) (Or.inr rfl) (Or.inl rfl)
      ⟨Or.inr rfl, by simp⟩
  | choose p r hp hr hfit =>
    refine ⟨h.single, h.taken, h.fit, fun q hq => ?_, h.marked⟩
    cases hq
    refine ⟨hr, fun p' hp' => ?_⟩
    rw [hp, Option.some.injEq] at hp'
    exact hp' ▸ hfit
  | forget p _ => exact ⟨h.single, h.taken, h.fit, by simp, h.marked⟩
  | giveBack p r _ hp =>
    exact (h.vacate p).restatus (h.vacated hp) (Or.inr rfl) (Or.inr rfl)
      ⟨Or.inr rfl, h.tenant_ne_marked hp⟩
  | take p r hin hr hp =>
    obtain ⟨hfree, hfit⟩ := h.chosen r hr
    have hnone := h.no_tenant (Or.inl hfree)
    have hmk : e.marked ≠ some r := fun hm => by cases hfree.symm.trans (h.marked r hm)
    have hkept : ({ e with status := Function.update e.status r .taken, choice := none } :
        Estate P R).Sound fits mayDie :=
      h.restatus hnone (Or.inl rfl) (Or.inr rfl) ⟨Or.inl (by simp), hmk⟩
    -- only the tenancy of `p` is new
    have hcases : ∀ q s, Function.update e.tenant p (some r) q = some s →
        (q = p ∧ s = r) ∨ (q ≠ p ∧ e.tenant q = some s) := by
      intro q s hq
      by_cases hqp : q = p
      · rw [hqp, Function.update_self, Option.some.injEq] at hq
        exact Or.inl ⟨hqp, hq.symm⟩
      · rw [Function.update_of_ne hqp] at hq
        exact Or.inr ⟨hqp, hq⟩
    refine ⟨fun q q' s hq hq' => ?_, fun q s hq => ?_, fun q s hq => ?_, hkept.chosen, hkept.marked⟩
    · rcases hcases q s hq with ⟨rfl, rfl⟩ | ⟨-, ht⟩ <;> rcases hcases q' s hq' with ⟨rfl, hs⟩ | ⟨-, ht'⟩
      · rfl
      · exact absurd ht' (hnone q')
      · exact absurd (hs ▸ ht) (hnone q)
      · exact h.single q q' s ht ht'
    · rcases hcases q s hq with ⟨rfl, rfl⟩ | ⟨-, ht⟩
      · exact Or.inl (Function.update_self ..)
      · exact hkept.taken q s ht
    · rcases hcases q s hq with ⟨rfl, rfl⟩ | ⟨-, ht⟩
      · exact hfit q hin
      · exact h.fit q s ht
  | abandon p r st hp _ =>
    exact (h.vacate p).restatus (h.vacated hp) (Or.inr rfl) (Or.inr rfl)
      ⟨Or.inl (h.tenant_ne_choice hp), h.tenant_ne_marked hp⟩
  | die p r hmay hp =>
    refine ⟨h.single, fun q s hq => ?_, h.fit, fun s hs => ?_, fun s hs => ?_⟩
    · by_cases hsr : s = r
      · subst hsr
        exact Or.inr ⟨hmay, Function.update_self ..⟩
      · have hsame : Function.update e.status r .dead s = e.status s := Function.update_of_ne hsr ..
        dsimp only
        rw [hsame]
        exact h.taken q s hq
    · have hsr : s ≠ r := by rintro rfl; exact h.tenant_ne_choice hp hs
      exact ⟨(Function.update_of_ne hsr ..).trans (h.chosen s hs).1, (h.chosen s hs).2⟩
    · have hsr : s ≠ r := by rintro rfl; exact h.tenant_ne_marked hp hs
      exact (Function.update_of_ne hsr ..).trans (h.marked s hs)

end JustKernel.Tenancy
