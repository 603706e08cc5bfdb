import JustKernel.Mm.Pmm
import JustKernel.Base.Pool
import JustKernel.Base.Runs
import Mathlib.Order.Interval.Set.Basic

/-! Runs of the physical memory manager. After `pmm_memory_setup` the system
takes blocks with `pmm_alloc` and `pmm_alloc_from` and gives outstanding ones
back with `pmm_unalloc`. Every such step is a step of the ownership pool whose
used cells are the pages with a set bit, so the pool's invariant carries over:
outstanding blocks are disjoint, were free after setup, and are the only pages
marked since. The soundness of `find_free_page` rests on page 0 being used,
because the loop reads `first_page == 0` as "no run yet". -/

namespace JustKernel.Pmm

open Runs

/-! ### The search -/

/-- The loop's two counters describe the run of clear pages that ends at `i`. -/
def RunAt (s : State) (i foundPages firstPage : ℕ) : Prop :=
  (foundPages = 0 ∧ firstPage = 0) ∨
    (1 ≤ firstPage ∧ 1 ≤ foundPages ∧ firstPage + foundPages = i ∧
      ∀ q, firstPage ≤ q → q < i → ¬IsUsed s q)

/-- One page further, the counters describe the run that ends there. -/
theorem RunAt.next {s : State} {i foundPages firstPage : ℕ} (h0 : IsUsed s 0)
    (h : RunAt s i foundPages firstPage) :
    RunAt s (i + 1) (if pmmGetBit i s = 0 then foundPages + 1 else 0)
      (if pmmGetBit i s = 0 then (if firstPage = 0 then i else firstPage) else 0) := by
  by_cases hclear : pmmGetBit i s = 0
  · have hi : i ≠ 0 := by rintro rfl; exact h0 hclear
    have hfree : ¬IsUsed s i := not_not_intro hclear
    simp only [hclear, if_true]
    rcases h with ⟨rfl, rfl⟩ | ⟨h1, h2, h3, h4⟩
    · rw [if_pos rfl]
      refine Or.inr ⟨by omega, by omega, by omega, fun q hq1 hq2 => ?_⟩
      rwa [show q = i by omega]
    · rw [if_neg (by omega)]
      refine Or.inr ⟨h1, by omega, by omega, fun q hq1 hq2 => ?_⟩
      rcases Nat.lt_or_ge q i with hq | hq
      · exact h4 q hq1 hq
      · rwa [show q = i by omega]
  · rw [if_neg hclear, if_neg hclear]
    exact Or.inl ⟨rfl, rfl⟩

theorem findFreePageLoop_spec {pages r : ℕ} {s : State} (h0 : IsUsed s 0) :
    ∀ (n i foundPages firstPage : ℕ), RunAt s i foundPages firstPage →
      findFreePageLoop pages s n i foundPages firstPage = some r →
      (pages = 0 ∧ r = 0) ∨ (0 < pages ∧ 1 ≤ r ∧ r + pages ≤ i + n ∧
        ∀ q, r ≤ q → q < r + pages → ¬IsUsed s q)
  | 0, _, _, _, _, h => by simp [findFreePageLoop] at h
  | n + 1, i, foundPages, firstPage, hrun, h => by
    have hnext := hrun.next h0
    rw [findFreePageLoop] at h
    generalize (if pmmGetBit i s = 0 then foundPages + 1 else 0) = found at h hnext
    generalize (if pmmGetBit i s = 0 then (if firstPage = 0 then i else firstPage) else 0) = first
      at h hnext
    split_ifs at h with hfound
    · -- the run has the wanted length here
      obtain rfl := hfound
      obtain rfl := Option.some.inj h
      rcases hnext with ⟨rfl, rfl⟩ | ⟨h1, h2, h3, h4⟩
      · exact Or.inl ⟨rfl, rfl⟩
      · refine Or.inr ⟨h2, h1, by omega, fun q hq1 hq2 => h4 q hq1 (by omega)⟩
    · have := findFreePageLoop_spec h0 n (i + 1) _ _ hnext h
      rwa [show i + 1 + n = i + (n + 1) by omega] at this

/-- `find_free_page` returns the start of a run of clear pages that avoids page 0. -/
theorem findFreePage_spec {pages r : ℕ} {s : State} (h0 : IsUsed s 0)
    (h : findFreePage pages s = some r) :
    (pages = 0 ∧ r = 0) ∨ (0 < pages ∧ 1 ≤ r ∧ r + pages ≤ bitmapMaxPage ∧
      ∀ q, r ≤ q → q < r + pages → ¬IsUsed s q) := by
  rw [findFreePage] at h
  have := findFreePageLoop_spec h0 bitmapMaxPage 0 0 0 (Or.inl ⟨rfl, rfl⟩) h
  rwa [Nat.zero_add] at this

/-! ### Setup -/

/-- The available entries end inside the range the bitmap describes. -/
def InRange (mmap : List MemoryMap) : Prop :=
  ∀ e ∈ mmap, e.type = memoryAvailable → e.addr + e.len ≤ 8 * bitmapMaxPage * pageSize

theorem setupEntry_page_zero {s : State} {e : MemoryMap} (h0 : IsUsed s 0)
    (he : e.type = memoryAvailable → e.addr + e.len ≤ 8 * bitmapMaxPage * pageSize) :
    IsUsed (setupEntry s e) 0 := by
  rw [setupEntry]
  split_ifs with hcond
  · have hend := he hcond.1
    have hstart : 0 < roundUp (e.addr % 2 ^ 32) / pageSize := by
      have := hcond.2
      simp only [roundUp, pageSize, bitmapMaxPage_eq] at hend ⊢
      omega
    simp only [isUsed_countFound, Nat.add_comm _ (roundUp (e.addr % 2 ^ 32) / pageSize)]
    rw [isUsed_clearLoop]
    exact ⟨by omega, h0⟩
  · exact h0

theorem foldl_setupEntry_page_zero {mmap : List MemoryMap} {s : State} (h0 : IsUsed s 0)
    (h : InRange mmap) : IsUsed (mmap.foldl setupEntry s) 0 := by
  induction mmap generalizing s with
  | nil => exact h0
  | cons e rest ih =>
    exact ih (setupEntry_page_zero h0 (h e List.mem_cons_self))
      (fun e' he' => h e' (List.mem_cons_of_mem _ he'))

theorem pmmMemorySetup_page_zero {mmap : List MemoryMap} (s : State) (h : InRange mmap) :
    IsUsed (pmmMemorySetup mmap s) 0 := by
  have hfull : IsUsed { s with bitmap := fun i => if i < bitmapMaxPage then 0xFF#8 else s.bitmap i } 0 := by
    have hpos : 0 < bitmapMaxPage := by rw [bitmapMaxPage_eq]; decide
    simp [isUsed_iff, hpos]
  exact foldl_setupEntry_page_zero hfull h

/-! ### First fit -/

/-- The search passes over used pages. -/
theorem findFreePageLoop_used {pages : ℕ} {s : State} (hpages : 0 < pages) (n : ℕ) :
    ∀ (k i : ℕ), (∀ q, i ≤ q → q < i + k → IsUsed s q) →
      findFreePageLoop pages s (k + n) i 0 0 = findFreePageLoop pages s n (i + k) 0 0
  | 0, i, _ => by rw [Nat.zero_add, Nat.add_zero]
  | k + 1, i, h => by
    have hused : ¬pmmGetBit i s = 0 := h i le_rfl (by omega)
    rw [show k + 1 + n = k + n + 1 by omega, findFreePageLoop]
    simp only [hused, if_false]
    rw [if_neg (by omega), findFreePageLoop_used hpages n k (i + 1) fun q h1 h2 => h q (by omega) (by omega),
      show i + 1 + k = i + (k + 1) by omega]

/-- The search ends with the run that it counts. -/
theorem findFreePageLoop_clear {pages first : ℕ} {s : State} (hfirst : 0 < first) (n : ℕ) :
    ∀ (k j : ℕ), j + (k + 1) = pages → (∀ q, first + j ≤ q → q < first + pages → ¬IsUsed s q) →
      findFreePageLoop pages s (k + 1 + n) (first + j) j (if j = 0 then 0 else first) = some first
  | 0, j, hj, h => by
    have hclear : pmmGetBit (first + j) s = 0 := not_not.mp (h _ le_rfl (by omega))
    rw [show 0 + 1 + n = n + 1 by omega, findFreePageLoop]
    simp only [hclear, if_true]
    rw [if_pos (by omega)]
    by_cases hj0 : j = 0
    · simp [hj0]
    · simp [hj0, hfirst.ne']
  | k + 1, j, hj, h => by
    have hclear : pmmGetBit (first + j) s = 0 := not_not.mp (h _ le_rfl (by omega))
    rw [show k + 1 + 1 + n = k + 1 + n + 1 by omega, findFreePageLoop]
    simp only [hclear, if_true]
    rw [if_neg (by omega)]
    have hnext := findFreePageLoop_clear hfirst n k (j + 1) (by omega) fun q h1 h2 => h q (by omega) h2
    rw [if_neg (by omega)] at hnext
    by_cases hj0 : j = 0
    · subst hj0
      simpa using hnext
    · simpa [hj0, hfirst.ne', Nat.add_assoc] using hnext

/-- The pages below `n` are used, and those from there to `m` are free. -/
structure FreeFrom (s : State) (n m : ℕ) : Prop where
  pos : 0 < n
  used : ∀ q < n, IsUsed s q
  free : ∀ q, n ≤ q → q < m → ¬IsUsed s q
  fits : m ≤ bitmapMaxPage

/-- The block is the first that is free. -/
theorem FreeFrom.pmmAlloc_spec {s : State} {n m size : ℕ} (h : FreeFrom s n m) (hpages : 0 < pageCount size)
    (hfit : n + pageCount size ≤ m) :
    ∃ t, pmmAlloc size s = some (n * pageSize, t) ∧ FreeFrom t (n + pageCount size) m := by
  have hfits := h.fits
  have hfind : findFreePage (pageCount size) s = some n := by
    have hskip := findFreePageLoop_used hpages (bitmapMaxPage - n) n 0 fun q _ hq => h.used q (by omega)
    have hcount : findFreePageLoop (pageCount size) s
        (pageCount size - 1 + 1 + (bitmapMaxPage - n - pageCount size)) (n + 0) 0 (if 0 = 0 then 0 else n) = some n :=
      findFreePageLoop_clear h.pos _ (pageCount size - 1) 0 (by omega) fun q h1 h2 =>
        h.free q (by omega) (by omega)
    rw [findFreePage, show bitmapMaxPage = n + (bitmapMaxPage - n) by omega, hskip, Nat.zero_add]
    rwa [if_pos rfl, Nat.add_zero, show pageCount size - 1 + 1 + (bitmapMaxPage - n - pageCount size) =
      bitmapMaxPage - n by omega] at hcount
  have haddr : n * pageSize % 2 ^ 32 = n * pageSize := by
    apply Nat.mod_eq_of_lt
    rw [bitmapMaxPage_eq] at hfits
    unfold pageSize
    omega
  have hrun := pmmAlloc.eq_1 size s
  simp only [hfind, haddr] at hrun
  refine ⟨_, hrun, by omega, fun q hq => ?_, fun q h1 h2 => ?_, hfits⟩
  · rw [isUsed_countTaken, isUsed_setLoop]
    by_cases hqn : q < n
    · exact Or.inr (h.used q hqn)
    · exact Or.inl (by omega)
  · rw [isUsed_countTaken, isUsed_setLoop]
    rintro (hin | hused)
    · omega
    · exact h.free q (by omega) h2 hused

/-- After setup on a map with one available entry. -/
theorem freeFrom_setup {addr len : ℕ} (haddr : addr % 4096 = 0) (hlen : len % 4096 = 0)
    (hlow : 0x100000 ≤ addr) (hhigh : (addr + len) / 4096 ≤ bitmapMaxPage) (s : State) :
    FreeFrom (pmmMemorySetup [⟨addr, len, memoryAvailable⟩] s) (addr / 4096) ((addr + len) / 4096) := by
  rw [bitmapMaxPage_eq] at hhigh
  have hused : ∀ q < bitmapMaxPage, (IsUsed (pmmMemorySetup [⟨addr, len, memoryAvailable⟩] s) q ↔
      ¬(addr / 4096 ≤ q ∧ q < (addr + len) / 4096)) := by
    intro q hq
    have hstart : roundUp (addr % 2 ^ 32) = addr := by
      unfold roundUp pageSize
      omega
    have hend : roundUp ((addr + len) % 2 ^ 32) = addr + len := by
      unfold roundUp pageSize
      omega
    have hsub : (addr + len + 2 ^ 32 - addr) % 2 ^ 32 = len := by omega
    have hfull : IsUsed { s with bitmap := fun i => if i < bitmapMaxPage then 0xFF#8 else s.bitmap i } q := by
      have hbit : q % 8 < 8 := Nat.mod_lt _ (by decide)
      rw [isUsed_iff]
      dsimp only
      rw [if_pos (by omega), show 0xFF#8 = BitVec.allOnes 8 by decide, BitVec.getLsbD_allOnes]
      exact decide_eq_true hbit
    have hcond : memoryAvailable = memoryAvailable ∧ 0x100000 ≤ addr % 2 ^ 32 := ⟨rfl, by omega⟩
    show IsUsed (setupEntry { s with bitmap := fun i => if i < bitmapMaxPage then 0xFF#8 else s.bitmap i }
      ⟨addr, len, memoryAvailable⟩) q ↔ _
    rw [setupEntry]
    dsimp only
    rw [if_pos hcond, isUsed_countFound, hstart, hend, hsub]
    simp only [Nat.add_comm _ (addr / pageSize)]
    rw [isUsed_clearLoop]
    unfold pageSize
    simp only [hfull, and_true]
    omega
  rw [← bitmapMaxPage_eq] at hhigh
  refine ⟨by omega, fun q hq => (hused q (by omega)).mpr (by omega),
    fun q h1 h2 => fun hu => (hused q (by omega)).mp hu ⟨h1, h2⟩, hhigh⟩

/-! ### Runs -/

/-- A block as its owner knows it: the address returned and the size asked for. -/
structure Block where
  addr : ℕ
  size : ℕ
  deriving DecidableEq

/-- The pages of a block, as many as the source's own rounding gives its size. -/
def Block.pages (b : Block) : Set ℕ :=
  Set.Ico (b.addr / pageSize) (b.addr / pageSize + pageCount b.size)

/-- The manager and the blocks its clients hold. -/
structure Sys where
  pmm : State
  blocks : List Block

/-- One client call that returns. A call that halts has no step. -/
inductive Step : Sys → Sys → Prop
  | alloc {s : Sys} {size p : ℕ} {t : State} (hsize : size < 2 ^ 32)
      (h : pmmAlloc size s.pmm = some (p, t)) : Step s ⟨t, ⟨p, size⟩ :: s.blocks⟩
  | allocFrom {s : Sys} {addr size p : ℕ} {t : State} (haddr : addr % pageSize = 0)
      (hrange : addr + size ≤ 8 * bitmapMaxPage * pageSize)
      (h : pmmAllocFrom addr size s.pmm = (p, t)) (hp : p ≠ 0) : Step s ⟨t, ⟨p, size⟩ :: s.blocks⟩
  | allocFromFailed {s : Sys} {addr size : ℕ} {t : State} (haddr : addr % pageSize = 0)
      (hrange : addr + size ≤ 8 * bitmapMaxPage * pageSize)
      (h : pmmAllocFrom addr size s.pmm = (0, t)) : Step s ⟨t, s.blocks⟩
  | unalloc {s : Sys} {b : Block} {t : State} (hb : b ∈ s.blocks)
      (h : pmmUnalloc b.addr b.size s.pmm = some t) : Step s ⟨t, s.blocks.erase b⟩

/-- The ownership pool a system state stands for. -/
def Sys.pool (s : Sys) : Pool.State ℕ := ⟨{q | IsUsed s.pmm q}, s.blocks.map Block.pages⟩

/-- The page count is the ceiling of the size unless the rounding wraps, and then it is zero. -/
theorem pageCount_eq_ceil {size : ℕ} (hsize : size < 2 ^ 32) (h : pageCount size ≠ 0) :
    pageCount size = (size + pageSize - 1) / pageSize := by
  simp only [pageCount, pageSize] at h ⊢
  omega

/-- What a returning `pmm_alloc` does. -/
theorem pmmAlloc_spec {size p : ℕ} {s t : State} (h0 : IsUsed s 0) (h : pmmAlloc size s = some (p, t)) :
    p % pageSize = 0 ∧
    (∀ q, IsUsed t q ↔ q ∈ (Block.mk p size).pages ∨ IsUsed s q) ∧
    (∀ q ∈ (Block.mk p size).pages, ¬IsUsed s q) ∧
    p / pageSize + pageCount size ≤ bitmapMaxPage ∧ (p = 0 ↔ pageCount size = 0) := by
  rw [pmmAlloc] at h
  split at h
  · contradiction
  · rename_i r hr
    obtain ⟨hp, ht⟩ := Prod.mk.inj (Option.some.inj h)
    have hspec := findFreePage_spec h0 hr
    have hle : r ≤ bitmapMaxPage := by rcases hspec with ⟨-, h2⟩ | ⟨-, -, h3, -⟩ <;> omega
    have hr' : p = r * pageSize := by
      rw [← hp]
      exact Nat.mod_eq_of_lt (by simp only [bitmapMaxPage_eq, pageSize] at hle ⊢; omega)
    have hdiv : p / pageSize = r := by rw [hr', Nat.mul_div_cancel _ (by decide)]
    refine ⟨by rw [hr', Nat.mul_mod_left], fun q => ?_, fun q hq => ?_, ?_, ?_⟩
    · rw [← ht, isUsed_countTaken, isUsed_setLoop, Block.pages, Set.mem_Ico, hdiv]
    · simp only [Block.pages, Set.mem_Ico, hdiv] at hq
      rcases hspec with ⟨h1, h2⟩ | ⟨-, -, -, h4⟩
      · omega
      · exact h4 q hq.1 hq.2
    · rw [hdiv]
      rcases hspec with ⟨h1, h2⟩ | ⟨-, -, h3, -⟩ <;> omega
    · simp only [pageSize] at hr'
      rcases hspec with ⟨h1, h2⟩ | ⟨h1, h2, -, -⟩ <;> omega

/-- What a `pmm_alloc_from` does: it fails without effect, or takes its range. -/
theorem pmmAllocFrom_spec {addr size p : ℕ} {s t : State} (h : pmmAllocFrom addr size s = (p, t)) :
    (p = 0 ∧ t = s ∧ ∃ q ∈ (Block.mk addr size).pages, IsUsed s q) ∨
    (p = addr / pageSize * pageSize ∧
      (∀ q, IsUsed t q ↔ q ∈ (Block.mk addr size).pages ∨ IsUsed s q) ∧
      ∀ q ∈ (Block.mk addr size).pages, ¬IsUsed s q) := by
  rw [pmmAllocFrom] at h
  split_ifs at h with hany
  · obtain ⟨hp, ht⟩ := Prod.mk.inj h
    refine Or.inl ⟨hp.symm, ht.symm, ?_⟩
    by_contra hno
    have : anyUsed (addr / pageSize) s (pageCount size) = false :=
      (anyUsed_eq_false _ _ _).mpr fun q h1 h2 hq => hno ⟨q, ⟨h1, h2⟩, hq⟩
    simp [this] at hany
  · obtain ⟨hp, ht⟩ := Prod.mk.inj h
    have hfree := (anyUsed_eq_false _ _ _).mp (Bool.eq_false_iff.mpr hany)
    refine Or.inr ⟨hp.symm, fun q => ?_, fun q hq => hfree q hq.1 hq.2⟩
    rw [← ht, isUsed_countTaken, isUsed_setLoop, Block.pages, Set.mem_Ico]

/-- With page 0 used, a `pmm_alloc_from` that returns 0 has changed nothing. -/
theorem pmmAllocFrom_zero {addr size : ℕ} {s t : State} (h0 : IsUsed s 0)
    (h : pmmAllocFrom addr size s = (0, t)) : t = s := by
  rw [pmmAllocFrom] at h
  split_ifs at h with hany
  · exact (Prod.mk.inj h).2.symm
  · obtain ⟨hp, ht⟩ := Prod.mk.inj h
    have hfree := (anyUsed_eq_false _ _ _).mp (Bool.eq_false_iff.mpr hany)
    have hcount : pageCount size = 0 := by
      by_contra hne
      have h0' : addr / pageSize = 0 := by simp only [pageSize] at hp ⊢; omega
      exact hfree 0 (by omega) (by omega) h0
    rw [← ht, hcount]
    simp [forPages, countTaken]

theorem pmmUnalloc_spec {b : Block} {s t : State} (h : pmmUnalloc b.addr b.size s = some t) (q : ℕ) :
    IsUsed t q ↔ q ∉ b.pages ∧ IsUsed s q := by
  rw [pmmUnalloc] at h
  split_ifs at h
  rw [← Option.some.inj h, isUsed_countGiven, isUsed_clearLoop, Block.pages, Set.mem_Ico]

/-! ### Every run keeps the blocks exclusive -/

/-- Marking the clear pages of a new block takes it from the pool. -/
theorem pool_take {s : Sys} {b : Block} {t : State}
    (hused : ∀ q, IsUsed t q ↔ q ∈ b.pages ∨ IsUsed s.pmm q) (hfree : ∀ q ∈ b.pages, ¬IsUsed s.pmm q) :
    Pool.Step s.pool (Sys.mk t (b :: s.blocks)).pool := by
  have : (Sys.mk t (b :: s.blocks)).pool = ⟨b.pages ∪ s.pool.used, b.pages :: s.pool.blocks⟩ := by
    simp only [Sys.pool, List.map_cons, hused]
    rfl
  rw [this]
  exact Pool.Step.take _ (Set.disjoint_left.mpr hfree)

/-- Clearing the pages of a block gives it back to the pool. -/
theorem pool_give {s : Sys} {b : Block} {t : State} (hb : b ∈ s.blocks)
    (h : pmmUnalloc b.addr b.size s.pmm = some t) :
    Pool.Step s.pool (Sys.mk t (s.blocks.erase b)).pool := by
  have hperm := (List.perm_cons_erase hb).map Block.pages
  rw [List.map_cons] at hperm
  have : (Sys.mk t (s.blocks.erase b)).pool =
      ⟨s.pool.used \ b.pages, (s.blocks.erase b).map Block.pages⟩ := by
    simp only [Sys.pool, pmmUnalloc_spec h]
    congr 1
    ext q
    exact and_comm
  rw [this]
  exact Pool.Step.give _ _ hperm

/-- Every call that returns is a step of the ownership pool. -/
theorem Step.pool {s t : Sys} (h0 : IsUsed s.pmm 0) (h : Step s t) : Pool.Step s.pool t.pool := by
  cases h with
  | @alloc size p t _ h =>
    obtain ⟨-, hused, hfree, -, -⟩ := pmmAlloc_spec h0 h
    exact pool_take hused hfree
  | @allocFrom addr size p t haddr _ h hp =>
    rcases pmmAllocFrom_spec h with ⟨h0, -, -⟩ | ⟨hp', hused, hfree⟩
    · exact absurd h0 hp
    · have hpa : p = addr := by rw [hp']; exact Nat.div_mul_cancel (Nat.dvd_of_mod_eq_zero haddr)
      subst hpa
      exact pool_take hused hfree
  | @allocFromFailed addr size t _ _ h =>
    rw [pmmAllocFrom_zero h0 h]
    exact Pool.Step.skip
  | unalloc hb h => exact pool_give hb h

/-- The address and length of a block lie in the bitmap, and a block whose address
is not 0 has as many pages as its size needs. -/
def Block.Fits (b : Block) : Prop :=
  b.addr % pageSize = 0 ∧ b.addr / pageSize + pageCount b.size ≤ 8 * bitmapMaxPage ∧
    (b.addr ≠ 0 → pageCount b.size = (b.size + pageSize - 1) / pageSize)

/-- What holds in every state of a run that starts from `base`. -/
structure Inv (base : State) (s : Sys) : Prop where
  exclusive : Pool.Exclusive {q | IsUsed base q} s.pool
  fits : ∀ b ∈ s.blocks, b.Fits

theorem Inv.pageZero {base : State} {s : Sys} (h0 : IsUsed base 0) (h : Inv base s) :
    IsUsed s.pmm 0 :=
  (h.exclusive.used_iff 0).mpr (Or.inl h0)

theorem Step.fits {s t : Sys} (h0 : IsUsed s.pmm 0) (hs : ∀ b ∈ s.blocks, b.Fits) (h : Step s t) :
    ∀ b ∈ t.blocks, b.Fits := by
  cases h with
  | @alloc size p t hsize h =>
    obtain ⟨halign, -, -, hend, hzero⟩ := pmmAlloc_spec h0 h
    refine List.forall_mem_cons.mpr ⟨⟨halign, ?_, fun hp => ?_⟩, hs⟩
    · have : bitmapMaxPage ≤ 8 * bitmapMaxPage := by omega
      exact hend.trans this
    · exact pageCount_eq_ceil hsize (fun hc => hp (hzero.mpr hc))
  | @allocFrom addr size p t haddr hrange h hp =>
    have hpa : p = addr := by
      rcases pmmAllocFrom_spec h with ⟨h0, -, -⟩ | ⟨hp', -, -⟩
      · exact absurd h0 hp
      · rw [hp']; exact Nat.div_mul_cancel (Nat.dvd_of_mod_eq_zero haddr)
    subst hpa
    refine List.forall_mem_cons.mpr ⟨⟨haddr, ?_, fun _ => ?_⟩, hs⟩
    · simp only [pageCount, pageSize, bitmapMaxPage_eq] at haddr hrange ⊢
      omega
    · simp only [pageCount, pageSize, bitmapMaxPage_eq] at haddr hrange ⊢
      omega
  | allocFromFailed => exact hs
  | unalloc => exact fun b hb => hs b (List.mem_of_mem_erase hb)

theorem Inv.step {base : State} (h0 : IsUsed base 0) {s t : Sys} (hinv : Inv base s) (h : Step s t) :
    Inv base t :=
  ⟨hinv.exclusive.step (h.pool (hinv.pageZero h0)), h.fits (hinv.pageZero h0) hinv.fits⟩

/-- In every state reached from a fresh setup, the outstanding blocks occupy disjoint
ranges of pages that were free after setup, page 0 not among them, and exactly these
pages have been marked since. A failing `pmm_alloc_from` changes nothing. -/
theorem pmm_exclusive (init : State) (mmap : List MemoryMap) (hmap : InRange mmap) (s : Sys)
    (hrun : Reaches Step ⟨pmmMemorySetup mmap init, []⟩ s) :
    s.blocks.Pairwise (fun b c => Disjoint b.pages c.pages) ∧
    (∀ b ∈ s.blocks, b.Fits ∧ 0 ∉ b.pages ∧ ∀ q ∈ b.pages, ¬IsUsed (pmmMemorySetup mmap init) q) ∧
    (∀ q, IsUsed s.pmm q ↔ IsUsed (pmmMemorySetup mmap init) q ∨ ∃ b ∈ s.blocks, q ∈ b.pages) ∧
    ∀ addr size t, pmmAllocFrom addr size s.pmm = (0, t) → t = s.pmm := by
  have h0 := pmmMemorySetup_page_zero init hmap
  have hinv : Inv (pmmMemorySetup mmap init) s :=
    Reaches.invariant (Inv _) (fun _ _ hs hst => Inv.step h0 hs hst) hrun
      ⟨Pool.exclusive_init _, fun _ hb => absurd hb List.not_mem_nil⟩
  have hfresh : ∀ b ∈ s.blocks, ∀ q ∈ b.pages, ¬IsUsed (pmmMemorySetup mmap init) q :=
    fun b hb => Set.disjoint_left.mp (hinv.exclusive.fresh _ (List.mem_map_of_mem hb))
  refine ⟨List.pairwise_map.mp hinv.exclusive.pairwise, fun b hb => ?_, fun q => ?_, ?_⟩
  · exact ⟨hinv.fits b hb, fun hz => hfresh b hb 0 hz h0, hfresh b hb⟩
  · have := hinv.exclusive.used_iff q
    simpa [Sys.pool] using this
  · exact fun addr size t h => pmmAllocFrom_zero (hinv.pageZero h0) h

/-- The manager after setup on a map with three available pages at 1 MiB. -/
def threePages : State := pmmMemorySetup [⟨0x100000, 0x3000, memoryAvailable⟩] ⟨fun _ => 0, 0, 0, 0⟩

theorem inRange_threePages : InRange [⟨0x100000, 0x3000, memoryAvailable⟩] := by
  intro e he _
  rw [List.mem_singleton.mp he, bitmapMaxPage_eq]
  decide

/-- Two blocks, the first of which comes back; then the page of the second is in the way. -/
theorem two_blocks_run : ∃ m₁ m₂ m₃, pmmAlloc 0x2000 threePages = some (0x100000, m₁) ∧
    pmmAllocFrom 0x102000 0x1000 m₁ = (0x102000, m₂) ∧ pmmUnalloc 0x100000 0x2000 m₂ = some m₃ ∧
    (pmmAllocFrom 0x101000 0x2000 m₃).1 = 0 := by
  have hrun : ((pmmAlloc 0x2000 threePages).bind fun r =>
      (pmmUnalloc 0x100000 0x2000 (pmmAllocFrom 0x102000 0x1000 r.2).2).map fun m =>
        (r.1, (pmmAllocFrom 0x102000 0x1000 r.2).1, (pmmAllocFrom 0x101000 0x2000 m).1)) =
      some (0x100000, 0x102000, 0) := by decide +kernel
  obtain ⟨⟨p, m₁⟩, hfirst, hrest⟩ := Option.bind_eq_some_iff.mp hrun
  obtain ⟨m₃, hgiven, haddrs⟩ := Option.map_eq_some_iff.mp hrest
  simp only [Prod.mk.injEq] at haddrs
  obtain ⟨rfl, hsecond, hfail⟩ := haddrs
  exact ⟨m₁, _, m₃, hfirst, Prod.ext hsecond rfl, hgiven, hfail⟩

theorem pmm_exclusive_two_blocks : ∃ m₁ m₂ m₃, pmmAlloc 0x2000 threePages = some (0x100000, m₁) ∧
    pmmAllocFrom 0x102000 0x1000 m₁ = (0x102000, m₂) ∧ pmmUnalloc 0x100000 0x2000 m₂ = some m₃ ∧
    Disjoint (Block.mk 0x102000 0x1000).pages (Block.mk 0x100000 0x2000).pages ∧
    (∀ q, IsUsed m₃ q ↔ IsUsed threePages q ∨ q ∈ (Block.mk 0x102000 0x1000).pages) ∧
    pmmAllocFrom 0x101000 0x2000 m₃ = (0, m₃) := by
  obtain ⟨m₁, m₂, m₃, hfirst, hsecond, hgiven, hfail⟩ := two_blocks_run
  have hboth : Reaches Step ⟨threePages, []⟩ ⟨m₂, [⟨0x102000, 0x1000⟩, ⟨0x100000, 0x2000⟩]⟩ :=
    .head (.alloc (by decide) hfirst)
      (.single (.allocFrom (by decide) (by rw [bitmapMaxPage_eq]; decide) hsecond (by decide)))
  have hstep : Step ⟨m₂, [⟨0x102000, 0x1000⟩, ⟨0x100000, 0x2000⟩]⟩ ⟨m₃, [⟨0x102000, 0x1000⟩]⟩ :=
    .unalloc (b := ⟨0x100000, 0x2000⟩) (List.mem_cons_of_mem _ List.mem_cons_self) hgiven
  obtain ⟨hpairs, -, -, -⟩ := pmm_exclusive ⟨fun _ => 0, 0, 0, 0⟩ _ inRange_threePages _ hboth
  obtain ⟨-, -, hused, hzero⟩ := pmm_exclusive ⟨fun _ => 0, 0, 0, 0⟩ _ inRange_threePages _ (hboth.tail hstep)
  refine ⟨m₁, m₂, m₃, hfirst, hsecond, hgiven, ?_, fun q => ?_, ?_⟩
  · exact List.rel_of_pairwise_cons hpairs (List.mem_singleton_self _)
  · exact (hused q).trans (or_congr Iff.rfl (by simp))
  · exact Prod.ext hfail (hzero 0x101000 0x2000 _ (Prod.ext hfail rfl))

end JustKernel.Pmm
