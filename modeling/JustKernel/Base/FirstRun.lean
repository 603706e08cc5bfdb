import Mathlib.Order.Basic
import Mathlib.Data.Nat.Find

/-! Runs of clear cells. A scan from the left that counts the clear cells it has just passed
and starts over at every other cell meets the lowest run of `n` cells first: at each cell it
knows the length of the clear stretch that ends there and that no run has ended before. -/

namespace JustKernel.FirstRun

variable {clear : ℕ → Prop} {m m' n p i k : ℕ}

/-- The `n` cells from `p` on are clear, and they lie below `m`. -/
structure Run (clear : ℕ → Prop) (m n p : ℕ) : Prop where
  fits : p + n ≤ m
  all : ∀ q, p ≤ q → q < p + n → clear q

/-- No run of `n` cells starts before the one at `p`. -/
structure Lowest (clear : ℕ → Prop) (m n p : ℕ) : Prop extends Run clear m n p where
  least : ∀ q < p, ¬Run clear m n q

theorem Run.mono (h : Run clear m n p) (hle : m ≤ m') : Run clear m' n p :=
  ⟨h.fits.trans hle, h.all⟩

theorem Run.exists_lowest (h : Run clear m n p) : ∃ q, Lowest clear m n q := by
  classical
  have hex : ∃ q, Run clear m n q := ⟨p, h⟩
  exact ⟨Nat.find hex, Nat.find_spec hex, fun q hq => Nat.find_min hex hq⟩

theorem Lowest.eq (h : Lowest clear m n p) (h' : Lowest clear m n k) : p = k := by
  rcases Nat.lt_trichotomy p k with hlt | heq | hgt
  · exact absurd h.toRun (h'.least p hlt)
  · exact heq
  · exact absurd h'.toRun (h.least k hgt)

/-- A lowest run that fits under a lower bound is the lowest there as well. -/
theorem Lowest.restrict (h : Lowest clear m n p) (hle : m' ≤ m) (hfits : p + n ≤ m') : Lowest clear m' n p :=
  ⟨⟨hfits, h.all⟩, fun q hq hrun => h.least q hq (hrun.mono hle)⟩

/-- The scan has passed `i` cells, the last `k` of them clear, and has met no run of `n`. -/
structure Scan (clear : ℕ → Prop) (n i k : ℕ) : Prop where
  short : k < n
  le : k ≤ i
  stretch : ∀ q, i - k ≤ q → q < i → clear q
  stopped : k < i → ¬clear (i - k - 1)
  none : ∀ p, ¬Run clear i n p

theorem scan_start (hn : 0 < n) : Scan clear n 0 0 where
  short := hn
  le := le_rfl
  stretch q _ hq := absurd hq (Nat.not_lt_zero q)
  stopped h := absurd h (Nat.lt_irrefl 0)
  none p h := by
    have := h.fits
    omega

/-- The cell is not clear. -/
theorem Scan.other (h : Scan clear n i k) (hi : ¬clear i) : Scan clear n (i + 1) 0 where
  short := by have := h.short; omega
  le := Nat.zero_le _
  stretch q h1 h2 := by omega
  stopped _ := hi
  none p hrun := by
    have hfits := hrun.fits
    rcases Nat.lt_or_ge i (p + n) with hlt | hge
    · exact hi (hrun.all i (by have := h.short; omega) hlt)
    · exact h.none p ⟨hge, hrun.all⟩

/-- The stretch with one more cell. -/
theorem Scan.longer (h : Scan clear n i k) (hi : clear i) : ∀ q, i - k ≤ q → q < i + 1 → clear q := by
  intro q h1 h2
  rcases Nat.lt_or_ge q i with hq | hq
  · exact h.stretch q h1 hq
  · rwa [show q = i by omega]

/-- A run that ends behind the clear cell `i` starts in the stretch before it. -/
theorem Scan.run_start (h : Scan clear n i k) (hrun : Run clear (i + 1) n p) : i - k ≤ p := by
  have hfits := hrun.fits
  have hshort := h.short
  rcases Nat.lt_or_ge i (p + n) with hlt | hge
  · by_contra hp
    exact h.stopped (by omega) (hrun.all _ (by omega) (by omega))
  · exact absurd ⟨hge, hrun.all⟩ (h.none p)

/-- The cell is clear, and the stretch is still too short. -/
theorem Scan.next (h : Scan clear n i k) (hi : clear i) (hk : k + 1 < n) : Scan clear n (i + 1) (k + 1) where
  short := hk
  le := by have := h.le; omega
  stretch q h1 h2 := h.longer hi q (by omega) h2
  stopped hlt := by
    rw [show i + 1 - (k + 1) - 1 = i - k - 1 by omega]
    exact h.stopped (by omega)
  none p hrun := by
    have hstart := h.run_start hrun
    have hfits := hrun.fits
    have := h.le
    omega

/-- The cell is clear, and the stretch is long enough: it is the lowest run. -/
theorem Scan.found (h : Scan clear n i k) (hi : clear i) (hk : k + 1 = n) (hm : i < m) :
    Lowest clear m n (i - k) where
  fits := by have := h.le; omega
  all q h1 h2 := h.longer hi q h1 (by have := h.le; omega)
  least q hq hrun := by
    have hle := h.le
    have hstart := h.run_start (p := q) ⟨by omega, hrun.all⟩
    omega

end JustKernel.FirstRun
