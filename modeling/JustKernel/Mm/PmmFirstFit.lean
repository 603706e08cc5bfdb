import JustKernel.Base.FirstRun
import JustKernel.Mm.PmmAccounting

/-! The search of `pmm_alloc` against the bitmap it searches, and `pmm_unalloc` against the
allocation it takes back. The bitmap has eight bits for each of its `BITMAP_MAX_PAGE` bytes,
but the search stops after `BITMAP_MAX_PAGE` pages and `pmm_unalloc` refuses pages from there
on, so that the upper seven eighths of the bits can be had only by `pmm_alloc_from`, and not
given back. -/

namespace JustKernel.Pmm

open FirstRun

/-- The bit of the page is clear. -/
def IsClear (s : State) (page : ℕ) : Prop := ¬IsUsed s page

/-- `size` in pages, rounded up as a number. -/
def ceilPages (size : ℕ) : ℕ := (size + 4095) / 4096

/-! ### The search -/

section Search

variable {s : State} {pages r n i k : ℕ}

/-- The counters of the loop are those of a scan: `first_page` is where the stretch of clear
pages began, and 0 if there is none, which is safe because page 0 is used. -/
theorem findFreePageLoop_scan (h0 : IsUsed s 0) :
    ∀ (n i k : ℕ), Scan (IsClear s) pages i k →
      (∃ r, findFreePageLoop pages s n i k (if k = 0 then 0 else i - k) = some r ∧
        Lowest (IsClear s) (i + n) pages r) ∨
      (findFreePageLoop pages s n i k (if k = 0 then 0 else i - k) = none ∧
        ∀ p, ¬Run (IsClear s) (i + n) pages p)
  | 0, i, k, h => Or.inr ⟨rfl, h.none⟩
  | n + 1, i, k, h => by
    have hlong : i + (n + 1) = i + 1 + n := by omega
    by_cases hclear : pmmGetBit i s = 0
    · have hi : IsClear s i := not_not_intro hclear
      have hpos : i ≠ 0 := by
        rintro rfl
        exact h0 hclear
      have hle := h.le
      -- the stretch does not begin at page 0
      have hfirst : (if (if k = 0 then 0 else i - k) = 0 then i else if k = 0 then 0 else i - k) = i - k := by
        by_cases hk : k = 0
        · simp [hk]
        · have hstart : i - k ≠ 0 := fun hz => h.stretch 0 (by omega) (by omega) h0
          simp [hk, hstart]
      rw [findFreePageLoop]
      simp only [hclear, if_true, hfirst]
      by_cases hfound : k + 1 = pages
      · rw [if_pos hfound]
        exact Or.inl ⟨i - k, rfl, h.found hi hfound (by omega)⟩
      · have hnext := findFreePageLoop_scan h0 n (i + 1) (k + 1) (h.next hi (by have := h.short; omega))
        rw [if_neg (by omega), show i + 1 - (k + 1) = i - k by omega] at hnext
        rw [if_neg hfound, hlong]
        exact hnext
    · have hnext := findFreePageLoop_scan h0 n (i + 1) 0 (h.other (not_not_intro hclear))
      rw [if_pos rfl] at hnext
      rw [findFreePageLoop]
      simp only [hclear, if_false]
      rw [if_neg (by have := h.short; omega), hlong]
      exact hnext

/-- `find_free_page` finds the lowest run among the pages it looks at, or there is none. -/
theorem findFreePage_lowest (h0 : IsUsed s 0) (hpages : 0 < pages) :
    (∃ r, findFreePage pages s = some r ∧ Lowest (IsClear s) bitmapMaxPage pages r) ∨
      (findFreePage pages s = none ∧ ∀ p, ¬Run (IsClear s) bitmapMaxPage pages p) := by
  have hscan := findFreePageLoop_scan h0 bitmapMaxPage 0 0 (scan_start hpages)
  rwa [Nat.zero_add, if_pos rfl] at hscan

end Search

/-! ### The allocation -/

/-- The request is served from the lowest run of clear bits of the whole bitmap, of which
exactly that run gets used, and halts only if there is no run. -/
structure FirstFit (s : State) (size : ℕ) : Prop where
  serves : ∀ p, Lowest (IsClear s) bitmapPages (ceilPages size) p → ∃ t,
    pmmAlloc size s = some (p * pageSize, t) ∧
      ∀ q, IsUsed t q ↔ (p ≤ q ∧ q < p + ceilPages size) ∨ IsUsed s q
  halts : pmmAlloc size s = none → ∀ p, ¬Run (IsClear s) bitmapPages (ceilPages size) p

section Alloc

variable {s t : State} {size p : ℕ}

/-- The bitmap has fewer pages than a size whose rounding wraps. -/
theorem pageCount_of_run (hsize : 1 ≤ size) (h : Run (IsClear s) bitmapPages (ceilPages size) p) :
    pageCount size = ceilPages size := by
  have hfits := h.fits
  rw [bitmapPages_eq] at hfits
  unfold ceilPages at hfits ⊢
  unfold pageCount pageSize
  omega

theorem pmmAlloc_of_find (hfind : findFreePage (pageCount size) s = some p) (hlow : p ≤ bitmapMaxPage) :
    ∃ t, pmmAlloc size s = some (p * pageSize, t) ∧
      ∀ q, IsUsed t q ↔ (p ≤ q ∧ q < p + pageCount size) ∨ IsUsed s q := by
  have haddr : p * pageSize % 2 ^ 32 = p * pageSize := by
    apply Nat.mod_eq_of_lt
    rw [bitmapMaxPage_eq] at hlow
    unfold pageSize
    omega
  have hrun := pmmAlloc.eq_1 size s
  simp only [hfind, haddr] at hrun
  refine ⟨_, hrun, fun q => ?_⟩
  rw [isUsed_countTaken, isUsed_setLoop]

theorem pmmAlloc_eq_none (h : pmmAlloc size s = none) : findFreePage (pageCount size) s = none := by
  rw [pmmAlloc] at h
  split at h
  · assumption
  · cases h

theorem bitmapMaxPage_le : bitmapMaxPage ≤ bitmapPages := by
  rw [bitmapPages]
  omega

/-- `pmm_alloc` is first-fit over the whole bitmap exactly if the lowest run, where there is
one, ends among the pages that the search looks at. -/
theorem pmmAlloc_firstFit_iff (h0 : IsUsed s 0) (hsize : 1 ≤ size) :
    FirstFit s size ↔
      ∀ p, Lowest (IsClear s) bitmapPages (ceilPages size) p → p + ceilPages size ≤ bitmapMaxPage := by
  have hpos : 0 < ceilPages size := by
    unfold ceilPages
    omega
  constructor
  · intro hfit p hp
    obtain ⟨t, hrun, -⟩ := hfit.serves p hp
    obtain ⟨-, -, -, hend, -⟩ := pmmAlloc_spec h0 hrun
    rwa [pageCount_of_run hsize hp.toRun, Nat.mul_div_cancel _ (by decide)] at hend
  · intro hlow
    constructor
    · intro p hp
      have hcount := pageCount_of_run hsize hp.toRun
      have hp' := hp.restrict bitmapMaxPage_le (hlow p hp)
      rcases findFreePage_lowest h0 hpos with ⟨r, hfind, hr⟩ | ⟨-, hnone⟩
      · obtain rfl := hr.eq hp'
        rw [← hcount] at hfind ⊢
        exact pmmAlloc_of_find hfind (by have := hlow r hp; omega)
      · exact absurd hp'.toRun (hnone p)
    · intro hnone p hrun
      obtain ⟨r, hr⟩ := hrun.exists_lowest
      have hcount := pageCount_of_run hsize hrun
      have hfind := pmmAlloc_eq_none hnone
      rw [hcount] at hfind
      rcases findFreePage_lowest h0 hpos with ⟨r', hfind', -⟩ | ⟨-, hnone'⟩
      · rw [hfind] at hfind'
        cases hfind'
      · exact hnone' r (hr.restrict bitmapMaxPage_le (hlow r hr)).toRun

end Alloc

theorem pmmAlloc_firstFit_threePages : FirstFit threePages 0x1000 := by
  refine (pmmAlloc_firstFit_iff (by decide +kernel) (by decide)).mpr fun p hp => ?_
  have hrun : Run (IsClear threePages) bitmapPages (ceilPages 0x1000) 256 := by
    refine ⟨by rw [bitmapPages_eq]; decide, fun q h1 h2 => ?_⟩
    have hq : q = 256 := by
      unfold ceilPages at h2
      omega
    subst hq
    exact (by decide +kernel : ¬IsUsed threePages 256)
  have hle : p ≤ 256 := Nat.le_of_not_lt fun hlt => hp.least 256 hlt hrun
  rw [bitmapMaxPage_eq, ceilPages]
  omega

/-- The first half gigabyte is used, the rest is free. -/
def lowUsed : State := ⟨fun i => if i < 16384 then 0xFF#8 else 0#8, 0, 0, 0⟩

theorem isUsed_lowUsed (q : ℕ) : IsUsed lowUsed q ↔ q < 131072 := by
  rw [isUsed_iff, lowUsed]
  dsimp only
  split_ifs with hlow
  · rw [show 0xFF#8 = BitVec.allOnes 8 by decide, BitVec.getLsbD_allOnes]
    simp only [decide_eq_true_eq]
    omega
  · simp only [BitVec.getLsbD_zero, Bool.false_eq_true, false_iff]
    omega

/-- With seven eighths of the bitmap clear a request for one page halts. -/
theorem free_page_not_found : ¬∀ (s : State) (size : ℕ), IsUsed s 0 → 1 ≤ size → size < 2 ^ 32 →
    FirstFit s size := by
  intro hall
  have hnone : findFreePage (pageCount 0x1000) lowUsed = none := by
    have hused := @findFreePageLoop_used (pageCount 0x1000) lowUsed (by decide) 0 bitmapMaxPage 0
      fun q _ hq => (isUsed_lowUsed q).mpr (by rw [bitmapMaxPage_eq] at hq; omega)
    rw [Nat.add_zero] at hused
    exact hused
  have hhalt : pmmAlloc 0x1000 lowUsed = none := by rw [pmmAlloc, hnone]
  have hfit := hall lowUsed 0x1000 ((isUsed_lowUsed 0).mpr (by decide)) (by decide) (by decide)
  refine hfit.halts hhalt 131072 ⟨by rw [bitmapPages_eq]; decide, fun q h1 _ hq => ?_⟩
  have := (isUsed_lowUsed q).mp hq
  omega

/-! ### Giving a block back -/

section Undo

variable {s t : State} {size addr p : ℕ}

/-- A state is its bits and its counters. -/
theorem state_ext (hbits : ∀ q, IsUsed s q ↔ IsUsed t q) (hcount : counters s = counters t) : s = t := by
  have hmap : s.bitmap = t.bitmap := by
    funext i
    apply BitVec.eq_of_getLsbD_eq
    intro j hj
    have hbit := hbits (8 * i + j)
    rw [isUsed_iff, isUsed_iff, show (8 * i + j) / 8 = i by omega, show (8 * i + j) % 8 = j by omega] at hbit
    exact Bool.eq_iff_iff.mpr hbit
  obtain ⟨b, c₁, c₂, c₃⟩ := s
  obtain ⟨b', d₁, d₂, d₃⟩ := t
  simp only [counters, Prod.mk.injEq] at hcount
  obtain ⟨rfl, rfl, rfl⟩ := hcount
  rw [State.mk.injEq]
  exact ⟨hmap, rfl, rfl, rfl⟩

/-- `pmm_unalloc` of a block that was clear before it was taken. -/
theorem pmmUnalloc_of_taken (hcount : counters t = counters (countTaken (pageCount size) s))
    (hused : ∀ q, IsUsed t q ↔ q ∈ (Block.mk p size).pages ∨ IsUsed s q)
    (hfree : ∀ q ∈ (Block.mk p size).pages, ¬IsUsed s q) (hfits : p / pageSize + pageCount size ≤ bitmapMaxPage) :
    pmmUnalloc p size t = some s := by
  have hrun : ∃ u, pmmUnalloc p size t = some u := by
    rw [pmmUnalloc, if_neg (by omega)]
    exact ⟨_, rfl⟩
  obtain ⟨u, hu⟩ := hrun
  rw [hu, Option.some.injEq]
  refine state_ext (fun q => ?_) ?_
  · rw [pmmUnalloc_spec (b := ⟨p, size⟩) hu, hused]
    have := hfree q
    tauto
  · rw [pmmUnalloc_counters (b := ⟨p, size⟩) hu]
    simp only [counters, countGiven, countTaken, Prod.mk.injEq] at hcount ⊢
    obtain ⟨h1, h2, h3⟩ := hcount
    rw [h1, h2, h3]
    exact ⟨rfl, BitVec.add_sub_cancel _ _, BitVec.sub_add_cancel _ _⟩

/-- With page 0 used, `pmm_unalloc` takes back every block of `pmm_alloc`, and a block of
`pmm_alloc_from` exactly if it ends at or below page `BITMAP_MAX_PAGE`. -/
theorem pmmUnalloc_undoes (h0 : IsUsed s 0) :
    (∀ size p t, pmmAlloc size s = some (p, t) → pmmUnalloc p size t = some s) ∧
    ∀ addr size p t, addr % pageSize = 0 → pmmAllocFrom addr size s = (p, t) → p ≠ 0 →
      (pmmUnalloc p size t = some s ↔ addr / pageSize + pageCount size ≤ bitmapMaxPage) := by
  constructor
  · intro size p t hrun
    obtain ⟨-, hused, hfree, hfits, -⟩ := pmmAlloc_spec h0 hrun
    exact pmmUnalloc_of_taken (pmmAlloc_counters hrun) hused hfree hfits
  · intro addr size p t haddr hrun hp
    rcases pmmAllocFrom_spec hrun with ⟨hp0, -, -⟩ | ⟨hp', hused, hfree⟩
    · exact absurd hp0 hp
    have hpaddr : p = addr := by
      unfold pageSize at haddr hp'
      omega
    subst hpaddr
    constructor
    · intro hundo
      by_contra hlarge
      rw [pmmUnalloc, if_pos (by omega)] at hundo
      cases hundo
    · exact pmmUnalloc_of_taken (pmmAllocFrom_counters hrun hfree) hused hfree

end Undo

theorem pmmUnalloc_undoes_threePages :
    pmmUnalloc 0x101000 0x1000 (pmmAllocFrom 0x101000 0x1000 threePages).2 = some threePages := by
  have hcall : pmmAllocFrom 0x101000 0x1000 threePages =
      (0x101000, (pmmAllocFrom 0x101000 0x1000 threePages).2) :=
    Prod.ext (by decide +kernel) rfl
  refine ((pmmUnalloc_undoes (by decide +kernel)).2 0x101000 0x1000 _ _ (by decide) hcall (by decide)).mpr ?_
  rw [bitmapMaxPage_eq]
  decide

/-- The manager after setup on a map with one available page at half a gigabyte. -/
def highPage : State := pmmMemorySetup [⟨0x20000000, 0x1000, memoryAvailable⟩] ⟨fun _ => 0, 0, 0, 0⟩

/-- The page can be had, and giving it back halts. -/
theorem high_page_not_taken_back : ¬∀ (s : State) (addr size p : ℕ) (t : State), IsUsed s 0 →
    addr % pageSize = 0 → addr / pageSize < bitmapPages → pmmAllocFrom addr size s = (p, t) → p ≠ 0 →
    pmmUnalloc p size t = some s := by
  intro hall
  have hcall : pmmAllocFrom 0x20000000 0x1000 highPage =
      (0x20000000, (pmmAllocFrom 0x20000000 0x1000 highPage).2) :=
    Prod.ext (by decide +kernel) rfl
  have hundo := hall highPage 0x20000000 0x1000 _ _ (by decide +kernel) (by decide)
    (by rw [bitmapPages_eq]; decide) hcall (by decide)
  rw [pmmUnalloc, if_pos (by rw [bitmapMaxPage_eq]; decide)] at hundo
  cases hundo

end JustKernel.Pmm
