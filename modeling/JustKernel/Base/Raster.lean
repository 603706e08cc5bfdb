import Mathlib.Data.List.Basic
import Mathlib.Data.Nat.Notation

/-! Pictures in memory, row by row. A pixel has `size` bytes, and a row `pitch` bytes, of which its
pixels take the first. What a drawing routine does is said by the pixels it draws: these come to
have the bytes of a colour, and all others keep theirs. Drawings compose, and so do the steps of a
loop. -/

namespace JustKernel.Raster

variable {B : Type*}

structure Layout where
  width : ℕ
  size : ℕ
  pitch : ℕ
  fits : width * size ≤ pitch

variable (L : Layout)

/-- The first byte of a pixel. -/
def Layout.offset (x y : ℕ) : ℕ := y * L.pitch + x * L.size

def Layout.pixel (m : ℕ → B) (x y : ℕ) : List B := (List.range L.size).map fun k => m (L.offset x y + k)

theorem quotient_inj {n a b r s : ℕ} (hr : r < n) (hs : s < n) (h : a * n + r = b * n + s) : a = b ∧ r = s := by
  have hquotient : ∀ {c t : ℕ}, t < n → (c * n + t) / n = c := by
    intro c t ht
    rw [Nat.add_comm, Nat.add_mul_div_right _ _ (Nat.zero_lt_of_lt ht), Nat.div_eq_of_lt ht, Nat.zero_add]
  have hab : a = b := by rw [← hquotient (c := a) hr, h, hquotient hs]
  subst hab
  exact ⟨rfl, Nat.add_left_cancel h⟩

variable {L} {m m' m'' : ℕ → B} {x y x' y' k k' : ℕ}

theorem Layout.offset_lt (hx : x < L.width) (hk : k < L.size) : x * L.size + k < L.pitch := by
  have hrow : (x + 1) * L.size ≤ L.pitch := Nat.le_trans (Nat.mul_le_mul_right _ hx) L.fits
  rw [Nat.add_mul, Nat.one_mul] at hrow
  omega

/-- Different pixels have different bytes. -/
theorem Layout.offset_inj (hx : x < L.width) (hx' : x' < L.width) (hk : k < L.size) (hk' : k' < L.size)
    (h : L.offset x y + k = L.offset x' y' + k') : x = x' ∧ y = y' := by
  unfold Layout.offset at h
  rw [Nat.add_assoc, Nat.add_assoc] at h
  obtain ⟨hrow, hcolumn⟩ := quotient_inj (L.offset_lt hx hk) (L.offset_lt hx' hk') h
  exact ⟨(quotient_inj hk hk' hcolumn).1, hrow⟩

theorem Layout.pixel_congr (h : ∀ k < L.size, m' (L.offset x' y' + k) = m (L.offset x y + k)) :
    L.pixel m' x' y' = L.pixel m x y := by
  apply List.map_congr_left
  intro k hk
  exact h k (List.mem_range.mp hk)

/-- The pixels in `P` are drawn in the colours `c`. -/
structure Layout.Draws (L : Layout) (c : ℕ → ℕ → List B) (P : ℕ → ℕ → Prop) (m m' : ℕ → B) : Prop where
  drawn : ∀ x y, x < L.width → P x y → L.pixel m' x y = c x y
  kept : ∀ x y, x < L.width → ¬P x y → L.pixel m' x y = L.pixel m x y

variable {c : ℕ → ℕ → List B} {P Q : ℕ → ℕ → Prop}

theorem Layout.Draws.nothing (m : ℕ → B) (h : ∀ x y, ¬P x y) : L.Draws c P m m :=
  ⟨fun x y _ hxy => absurd hxy (h x y), fun _ _ _ _ => rfl⟩

theorem Layout.Draws.trans (h : L.Draws c P m m') (h' : L.Draws c Q m' m'') :
    L.Draws c (fun x y => P x y ∨ Q x y) m m'' := by
  constructor
  · intro x y hx hxy
    by_cases hQ : Q x y
    · exact h'.drawn x y hx hQ
    · rw [h'.kept x y hx hQ]
      exact h.drawn x y hx (hxy.resolve_right hQ)
  · intro x y hx hxy
    rw [not_or] at hxy
    rw [h'.kept x y hx hxy.2, h.kept x y hx hxy.1]

theorem Layout.Draws.congr (h : L.Draws c P m m') (hPQ : ∀ x y, P x y ↔ Q x y) : L.Draws c Q m m' :=
  ⟨fun x y hx hxy => h.drawn x y hx ((hPQ x y).mpr hxy), fun x y hx hxy => h.kept x y hx (mt (hPQ x y).mp hxy)⟩

/-- A loop whose every turn draws. -/
theorem Layout.Draws.foldl {S ι : Type*} (view : S → ℕ → B) (f : S → ι → S) {P : ι → ℕ → ℕ → Prop} {l : List ι}
    (h : ∀ i ∈ l, ∀ s, L.Draws c (P i) (view s) (view (f s i))) (s : S) :
    L.Draws c (fun x y => ∃ i ∈ l, P i x y) (view s) (view (l.foldl f s)) := by
  induction l generalizing s with
  | nil => exact .nothing _ (by simp)
  | cons i l ih =>
    have hfirst := h i List.mem_cons_self s
    have hrest := ih (fun j hj => h j (List.mem_cons_of_mem i hj)) (f s i)
    exact (hfirst.trans hrest).congr (by simp)

/-- One pixel, byte by byte. -/
theorem Layout.Draws.plot {bytes : List B} (hx : x < L.width) (hlength : bytes.length = L.size)
    (hhere : ∀ k (hk : k < bytes.length), m' (L.offset x y + k) = bytes[k])
    (helse : ∀ i, (∀ k < L.size, L.offset x y + k ≠ i) → m' i = m i) (hc : c x y = bytes) :
    L.Draws c (fun x' y' => x' = x ∧ y' = y) m m' := by
  constructor
  · rintro x' y' - ⟨rfl, rfl⟩
    rw [hc]
    apply List.ext_getElem
    · simp [Layout.pixel, hlength]
    · intro k h₁ h₂
      simp [Layout.pixel, hhere k h₂]
  · intro x' y' hx' hother
    apply L.pixel_congr
    intro k hk
    apply helse
    intro k' hk' heq
    obtain ⟨rfl, rfl⟩ := L.offset_inj hx hx' hk' hk heq
    exact hother ⟨rfl, rfl⟩

end JustKernel.Raster
