import JustKernel.Mm.PmmSetup

/-! The indices with which the physical memory manager reaches into its bitmap. Each function
is run a second time with a record of the byte index of every `pmm_set_bit`, `pmm_clear_bit`
and `pmm_get_bit` it makes, whether it returns or halts; without the record it is the function
of `Mm/Pmm.lean`. The bitmap has `BITMAP_MAX_PAGE` bytes, one less than 4 GiB of memory needs.
`find_free_page` and `pmm_unalloc` compare page numbers with that number of bytes and so stay
far below the end; setup and `pmm_alloc_from` compare with nothing. -/

namespace JustKernel.Pmm

/-- The manager with the byte indices used so far, the latest first. -/
structure Traced where
  pmm : State
  bytes : List ℕ

namespace Traced

/-- `pmm_set_bit`. -/
def setBit (page : ℕ) (s : Traced) : Traced := ⟨pmmSetBit page s.pmm, page / 8 :: s.bytes⟩

/-- `pmm_clear_bit`. -/
def clearBit (page : ℕ) (s : Traced) : Traced := ⟨pmmClearBit page s.pmm, page / 8 :: s.bytes⟩

/-- The index of a `pmm_get_bit`, whose value is `pmmGetBit page s.pmm`. -/
def getBit (page : ℕ) (s : Traced) : Traced := ⟨s.pmm, page / 8 :: s.bytes⟩

/-- The counters change and no byte is used. -/
def count (f : State → State) (s : Traced) : Traced := ⟨f s.pmm, s.bytes⟩

/-- `for (i = 0; i < n; i++) body(i)`. -/
def forPages (body : ℕ → Traced → Traced) : ℕ → Traced → Traced
  | 0, s => s
  | n + 1, s => body n (forPages body n s)

/-- The body of the loop over the memory map. -/
def setupEntry (s : Traced) (e : MemoryMap) : Traced :=
  let blockStart := roundUp (e.addr % 2 ^ 32)
  let blockEnd := roundUp ((e.addr + e.len) % 2 ^ 32)
  let blockLen := (blockEnd + 2 ^ 32 - blockStart) % 2 ^ 32
  if e.type = memoryAvailable ∧ 0x100000 ≤ e.addr % 2 ^ 32 then
    count (countFound blockLen)
      (forPages (fun i => clearBit (i + blockStart / pageSize)) (blockLen / pageSize) s)
  else s

/-- `pmm_memory_setup`. The bitmap is filled by `memset`. -/
def memorySetup (mmap : List MemoryMap) (s : Traced) : Traced :=
  let s := s.count fun m => { m with bitmap := fun i => if i < bitmapMaxPage then 0xFF#8 else m.bitmap i }
  let s := mmap.foldl setupEntry s
  s.count fun m => { m with totalMemory := m.availableMemory }

/-- The search loop, with `n` pages left to look at, the next of them `i`. -/
def findFreePageLoop (pages : ℕ) : ℕ → ℕ → ℕ → ℕ → Traced → Option ℕ × Traced
  | 0, _, _, _, s => (none, s)
  | n + 1, i, foundPages, firstPage, s =>
    let clear := pmmGetBit i s.pmm = 0
    let s := s.getBit i
    let foundPages := if clear then foundPages + 1 else 0
    let firstPage := if clear then (if firstPage = 0 then i else firstPage) else 0
    if foundPages = pages then (some firstPage, s)
    else findFreePageLoop pages n (i + 1) foundPages firstPage s

def findFreePage (pages : ℕ) (s : Traced) : Option ℕ × Traced :=
  findFreePageLoop pages bitmapMaxPage 0 0 0 s

/-- `pmm_alloc`, with `none` if it halts. -/
def alloc (size : ℕ) (s : Traced) : Option ℕ × Traced :=
  let pages := pageCount size
  match findFreePage pages s with
  | (none, t) => (none, t)
  | (some freePage, t) =>
    (some (freePage * pageSize % 2 ^ 32),
      count (countTaken pages) (forPages (fun i => setBit (freePage + i)) pages t))

/-- The scan of `pmm_alloc_from`, which returns at the first used page. -/
def scan (startPage : ℕ) : ℕ → ℕ → Traced → Bool × Traced
  | 0, _, s => (false, s)
  | n + 1, i, s =>
    if pmmGetBit (startPage + i) s.pmm ≠ 0 then (true, s.getBit (startPage + i))
    else scan startPage n (i + 1) (s.getBit (startPage + i))

/-- `pmm_alloc_from`. -/
def allocFrom (addr size : ℕ) (s : Traced) : ℕ × Traced :=
  let pages := pageCount size
  let startPage := addr / pageSize
  match scan startPage pages 0 s with
  | (true, t) => (0, t)
  | (false, t) =>
    (startPage * pageSize, count (countTaken pages) (forPages (fun i => setBit (startPage + i)) pages t))

/-- `pmm_unalloc`, with `false` if it halts. -/
def unalloc (addr size : ℕ) (s : Traced) : Bool × Traced :=
  let page := addr / pageSize
  let pages := pageCount size
  if page + pages > bitmapMaxPage then (false, s)
  else (true, count (countGiven pages) (forPages (fun i => clearBit (page + i)) pages s))

/-! ### Without the record -/

section Erase

variable {body : ℕ → State → State} {tbody : ℕ → Traced → Traced}

theorem forPages_pmm (h : ∀ i s, (tbody i s).pmm = body i s.pmm) (n : ℕ) (s : Traced) :
    (forPages tbody n s).pmm = Pmm.forPages body n s.pmm := by
  induction n with
  | zero => rfl
  | succ n ih => rw [forPages, h, ih, Pmm.forPages]

theorem setupEntry_pmm (s : Traced) (e : MemoryMap) : (setupEntry s e).pmm = Pmm.setupEntry s.pmm e := by
  rw [setupEntry, Pmm.setupEntry]
  split_ifs
  · exact congrArg (countFound _) (forPages_pmm (fun _ _ => rfl) _ s)
  · rfl

theorem memorySetup_pmm (mmap : List MemoryMap) (s : Traced) :
    (memorySetup mmap s).pmm = pmmMemorySetup mmap s.pmm := by
  have hfold : ∀ s : Traced, (mmap.foldl setupEntry s).pmm = mmap.foldl Pmm.setupEntry s.pmm := by
    induction mmap with
    | nil => exact fun _ => rfl
    | cons e rest ih =>
      intro s
      rw [List.foldl_cons, ih, setupEntry_pmm, List.foldl_cons]
  rw [memorySetup, pmmMemorySetup]
  dsimp only [count]
  rw [hfold]

/-- The traced search finds what the plain one does, and writes nothing. -/
theorem findFreePageLoop_pmm (pages : ℕ) : ∀ (n i foundPages firstPage : ℕ) (s : Traced),
    (findFreePageLoop pages n i foundPages firstPage s).1 =
        Pmm.findFreePageLoop pages s.pmm n i foundPages firstPage ∧
      (findFreePageLoop pages n i foundPages firstPage s).2.pmm = s.pmm
  | 0, _, _, _, _ => ⟨rfl, rfl⟩
  | n + 1, i, foundPages, firstPage, s => by
    have hrest := fun found first => findFreePageLoop_pmm pages n (i + 1) found first (s.getBit i)
    rw [findFreePageLoop, Pmm.findFreePageLoop]
    generalize (if pmmGetBit i s.pmm = 0 then foundPages + 1 else 0) = found
    generalize (if pmmGetBit i s.pmm = 0 then (if firstPage = 0 then i else firstPage) else 0) = first
    split
    · exact ⟨rfl, rfl⟩
    · exact hrest _ _

theorem alloc_pmm (size : ℕ) (s : Traced) :
    pmmAlloc size s.pmm = (alloc size s).1.map fun p => (p, (alloc size s).2.pmm) := by
  obtain ⟨hfind, hsame⟩ := findFreePageLoop_pmm (pageCount size) bitmapMaxPage 0 0 0 s
  rw [pmmAlloc, alloc, findFreePage, Pmm.findFreePage, ← hfind]
  generalize findFreePageLoop (pageCount size) bitmapMaxPage 0 0 0 s = r at hsame
  obtain ⟨_ | freePage, t⟩ := r
  · rfl
  · dsimp only at hsame ⊢
    have hloop : (forPages (fun i => setBit (freePage + i)) (pageCount size) t).pmm =
        Pmm.forPages (fun i => pmmSetBit (freePage + i)) (pageCount size) t.pmm :=
      forPages_pmm (fun _ _ => rfl) _ t
    rw [hsame] at hloop
    exact congrArg (fun m => some (freePage * pageSize % 2 ^ 32, countTaken (pageCount size) m)) hloop.symm

theorem scan_pmm (startPage : ℕ) : ∀ (n i : ℕ) (s : Traced), (scan startPage n i s).2.pmm = s.pmm
  | 0, _, _ => rfl
  | n + 1, i, s => by
    rw [scan]
    split
    · rfl
    · exact scan_pmm startPage n (i + 1) (s.getBit (startPage + i))

/-- The scan meets a used page, or all of its pages are clear. -/
theorem scan_fst (startPage : ℕ) : ∀ (n i : ℕ) (s : Traced),
    (scan startPage n i s).1 = false ↔ ∀ q, startPage + i ≤ q → q < startPage + i + n → ¬IsUsed s.pmm q
  | 0, i, s => by
    rw [scan]
    exact iff_of_true rfl fun q h1 h2 => by omega
  | n + 1, i, s => by
    rw [scan]
    split
    · rename_i hused
      exact iff_of_false Bool.true_eq_false_eq_False fun h => h _ le_rfl (by omega) hused
    · rename_i hclear
      rw [scan_fst startPage n (i + 1)]
      constructor
      · intro h q h1 h2
        rcases Nat.eq_or_lt_of_le h1 with rfl | h1
        · exact hclear
        · exact h q h1 (by omega)
      · intro h q h1 h2
        exact h q (by omega) (by omega)

theorem scan_eq_anyUsed (startPage n : ℕ) (s : Traced) :
    (scan startPage n 0 s).1 = anyUsed startPage s.pmm n := by
  have hscan := scan_fst startPage n 0 s
  rw [Nat.add_zero, ← anyUsed_eq_false] at hscan
  exact Bool.eq_iff_iff.mpr (by rw [← Bool.not_eq_false, ← Bool.not_eq_false, hscan])

theorem allocFrom_pmm (addr size : ℕ) (s : Traced) :
    pmmAllocFrom addr size s.pmm = ((allocFrom addr size s).1, (allocFrom addr size s).2.pmm) := by
  have hscan := scan_eq_anyUsed (addr / pageSize) (pageCount size) s
  have hsame := scan_pmm (addr / pageSize) (pageCount size) 0 s
  rw [pmmAllocFrom, allocFrom, ← hscan]
  generalize scan (addr / pageSize) (pageCount size) 0 s = r at hsame
  obtain ⟨_ | _, t⟩ := r
  · dsimp only at hsame ⊢
    have hloop : (forPages (fun i => setBit (addr / pageSize + i)) (pageCount size) t).pmm =
        Pmm.forPages (fun i => pmmSetBit (addr / pageSize + i)) (pageCount size) t.pmm :=
      forPages_pmm (fun _ _ => rfl) _ t
    rw [hsame] at hloop
    exact congrArg (fun m => (addr / pageSize * pageSize, countTaken (pageCount size) m)) hloop.symm
  · exact congrArg (Prod.mk 0) hsame.symm

theorem unalloc_pmm (addr size : ℕ) (s : Traced) :
    pmmUnalloc addr size s.pmm =
      if (unalloc addr size s).1 then some (unalloc addr size s).2.pmm else none := by
  rw [pmmUnalloc, unalloc]
  by_cases hlarge : addr / pageSize + pageCount size > bitmapMaxPage
  · rw [if_pos hlarge, if_pos hlarge]
    rfl
  · have hloop : (forPages (fun i => clearBit (addr / pageSize + i)) (pageCount size) s).pmm =
        Pmm.forPages (fun i => pmmClearBit (addr / pageSize + i)) (pageCount size) s.pmm :=
      forPages_pmm (fun _ _ => rfl) _ s
    rw [if_neg hlarge, if_neg hlarge]
    exact congrArg (fun m => some (countGiven (pageCount size) m)) hloop.symm

end Erase

/-! ### The indices -/

/-- Every byte used so far is a byte of the bitmap. -/
def Within (s : Traced) : Prop := ∀ b ∈ s.bytes, b < bitmapMaxPage

theorem index_lt {page : ℕ} : page / 8 < bitmapMaxPage ↔ page < bitmapPages := by
  rw [bitmapPages]
  omega

theorem within_cons {m m' : State} {page : ℕ} {bytes : List ℕ} :
    Within ⟨m, page / 8 :: bytes⟩ ↔ page < bitmapPages ∧ Within ⟨m', bytes⟩ :=
  List.forall_mem_cons.trans (and_congr_left fun _ => index_lt)

theorem within_count (f : State → State) (s : Traced) : Within (count f s) ↔ Within s := by
  unfold Within count
  exact Iff.rfl

section Within

variable {s : Traced} {n i a : ℕ}

/-- A loop over pages stays within the bitmap exactly if each of its pages has a bit. -/
theorem within_forPages {body : ℕ → Traced → Traced} (h : ∀ i s, (body i s).bytes = (a + i) / 8 :: s.bytes)
    (n : ℕ) (s : Traced) :
    Within (forPages body n s) ↔ (∀ q, a ≤ q → q < a + n → q < bitmapPages) ∧ Within s := by
  induction n with
  | zero =>
    rw [forPages]
    exact (and_iff_right fun q h1 h2 => by omega).symm
  | succ n ih =>
    have hlast : Within (forPages body (n + 1) s) ↔ a + n < bitmapPages ∧ Within (forPages body n s) := by
      rw [← within_cons (m := s.pmm), ← h n (forPages body n s)]
      rfl
    rw [hlast, ih, ← and_assoc]
    refine and_congr_left fun _ => ⟨?_, ?_⟩
    · rintro ⟨htop, hlow⟩ q h1 h2
      rcases Nat.lt_or_ge q (a + n) with hq | hq
      · exact hlow q h1 hq
      · omega
    · intro hall
      exact ⟨hall _ (by omega) (by omega), fun q h1 h2 => hall q h1 (by omega)⟩

/-- For an entry below 4 GiB the pages are those that start in it. -/
theorem within_setupEntry {e : MemoryMap} (hlow : e.type = memoryAvailable → e.addr + e.len ≤ 2 ^ 32) (s : Traced) :
    Within (setupEntry s e) ↔
      (Accepted e → ∀ q, e.addr ≤ q * 4096 → q * 4096 < e.addr + e.len → q < bitmapPages) ∧ Within s := by
  rw [setupEntry]
  split_ifs with hcond
  · have hacc : Accepted e := hcond
    have hbody : ∀ i s, (clearBit (i + freedFrom e) s).bytes = (freedFrom e + i) / 8 :: s.bytes := by
      intro i s
      rw [Nat.add_comm (freedFrom e)]
      rfl
    have hpages : ∀ q, (freedFrom e ≤ q ∧ q < freedFrom e + freedCount e) ↔
        (e.addr ≤ q * 4096 ∧ q * 4096 < e.addr + e.len) := fun q => frees_iff (hlow hacc.1) hacc
    rw [within_count]
    simp only [imp_iff_right hacc, ← and_imp, ← hpages]
    simp only [and_imp]
    exact within_forPages hbody (freedCount e) s
  · exact (and_iff_right fun hacc => absurd hacc hcond).symm

theorem within_memorySetup {mmap : List MemoryMap}
    (hlow : ∀ e ∈ mmap, e.type = memoryAvailable → e.addr + e.len ≤ 2 ^ 32) (s : Traced) :
    Within (memorySetup mmap s) ↔
      (∀ e ∈ mmap, Accepted e → ∀ q, e.addr ≤ q * 4096 → q * 4096 < e.addr + e.len → q < bitmapPages) ∧ Within s := by
  have hfold : ∀ s : Traced, Within (mmap.foldl setupEntry s) ↔
      (∀ e ∈ mmap, Accepted e → ∀ q, e.addr ≤ q * 4096 → q * 4096 < e.addr + e.len → q < bitmapPages) ∧ Within s := by
    induction mmap with
    | nil => exact fun s => (and_iff_right (List.forall_mem_nil _)).symm
    | cons e rest ih =>
      intro s
      obtain ⟨he, hrest⟩ := List.forall_mem_cons.mp hlow
      rw [List.foldl_cons, ih hrest, within_setupEntry he, List.forall_mem_cons]
      tauto
  rw [memorySetup, within_count, hfold, within_count]

/-- The search looks at pages below `BITMAP_MAX_PAGE` only. -/
theorem within_findFreePageLoop (pages : ℕ) : ∀ (n i foundPages firstPage : ℕ) (s : Traced),
    i + n ≤ bitmapPages → Within s → Within (findFreePageLoop pages n i foundPages firstPage s).2
  | 0, _, _, _, _, _, hs => hs
  | n + 1, i, foundPages, firstPage, s, hi, hs => by
    have hget : Within (s.getBit i) := within_cons.mpr ⟨by omega, hs⟩
    rw [findFreePageLoop]
    generalize (if pmmGetBit i s.pmm = 0 then foundPages + 1 else 0) = found
    generalize (if pmmGetBit i s.pmm = 0 then (if firstPage = 0 then i else firstPage) else 0) = first
    split
    · exact hget
    · exact within_findFreePageLoop pages n (i + 1) found first (s.getBit i) (by omega) hget

/-- What the search finds is no longer than what it has looked at. -/
theorem findFreePageLoop_le {pages r : ℕ} {m : State} : ∀ (n i foundPages firstPage : ℕ),
    foundPages ≤ i → firstPage ≤ i → Pmm.findFreePageLoop pages m n i foundPages firstPage = some r →
    r ≤ i + n ∧ pages ≤ i + n
  | 0, _, _, _, _, _, h => nomatch h
  | n + 1, i, foundPages, firstPage, hfound, hfirst, h => by
    have hfound' : (if pmmGetBit i m = 0 then foundPages + 1 else 0) ≤ i + 1 := by
      split <;> omega
    have hfirst' : (if pmmGetBit i m = 0 then (if firstPage = 0 then i else firstPage) else 0) ≤ i + 1 := by
      split
      · split <;> omega
      · omega
    rw [Pmm.findFreePageLoop] at h
    generalize (if pmmGetBit i m = 0 then foundPages + 1 else 0) = found at h hfound'
    generalize (if pmmGetBit i m = 0 then (if firstPage = 0 then i else firstPage) else 0) = first at h hfirst'
    split_ifs at h with hdone
    · obtain rfl := Option.some.inj h
      omega
    · have := findFreePageLoop_le n (i + 1) found first hfound' hfirst' h
      omega

/-- `pmm_alloc` stays within the bitmap, whatever its state. -/
theorem within_alloc (size : ℕ) (hs : Within s) : Within (alloc size s).2 := by
  have hfind := within_findFreePageLoop (pageCount size) bitmapMaxPage 0 0 0 s
    (by rw [bitmapPages]; omega) hs
  have hle := fun r => @findFreePageLoop_le (pageCount size) r s.pmm bitmapMaxPage 0 0 0 le_rfl le_rfl
  rw [alloc, findFreePage]
  rw [← (findFreePageLoop_pmm ..).1] at hle
  generalize findFreePageLoop (pageCount size) bitmapMaxPage 0 0 0 s = r at hfind hle
  obtain ⟨_ | freePage, t⟩ := r
  · exact hfind
  · obtain ⟨hpage, hcount⟩ := hle freePage rfl
    refine (within_count _ _).mpr ((within_forPages (fun _ _ => rfl) (pageCount size) t).mpr ⟨fun q _ hq => ?_, hfind⟩)
    rw [bitmapPages]
    omega

/-- The scan reads up to the first used page. -/
theorem within_scan (a : ℕ) : ∀ (n i : ℕ) (s : Traced), Within (scan a n i s).2 ↔
    (∀ q, a + i ≤ q → q < a + i + n → (∀ p, a + i ≤ p → p < q → ¬IsUsed s.pmm p) → q < bitmapPages) ∧ Within s
  | 0, i, s => by
    rw [scan]
    exact (and_iff_right fun q h1 h2 => by omega).symm
  | n + 1, i, s => by
    have hget : Within (s.getBit (a + i)) ↔ a + i < bitmapPages ∧ Within s := within_cons
    rw [scan]
    split
    · rename_i hused
      rw [hget]
      refine and_congr_left fun _ => ⟨fun h q h1 h2 hclear => ?_, fun h => h _ le_rfl (by omega) fun p => by omega⟩
      rcases Nat.eq_or_lt_of_le h1 with rfl | h1
      · exact h
      · exact absurd hused (hclear _ le_rfl h1)
    · rename_i hclear
      rw [within_scan a n (i + 1), hget, ← and_assoc]
      refine and_congr_left fun _ => ⟨?_, fun h => ⟨?_, ?_⟩⟩
      · rintro ⟨hrest, hfirst⟩ q h1 h2 hall
        rcases Nat.eq_or_lt_of_le h1 with rfl | h1
        · exact hfirst
        · exact hrest q h1 (by omega) fun p hp hp' => hall p (by omega) hp'
      · intro q h1 h2 hall
        refine h q (by omega) (by omega) fun p hp hp' => ?_
        rcases Nat.eq_or_lt_of_le hp with rfl | hp
        · exact hclear
        · exact hall p hp hp'
      · exact h _ le_rfl (by omega) fun p => by omega

/-- `pmm_alloc_from` stays within the bitmap if its pages have bits, or if it is refused for
one that has. -/
theorem within_allocFrom (addr size : ℕ) (s : Traced) :
    Within (allocFrom addr size s).2 ↔
      ((∀ q ∈ (Block.mk addr size).pages, q < bitmapPages) ∨
        ∃ q ∈ (Block.mk addr size).pages, q < bitmapPages ∧ IsUsed s.pmm q) ∧ Within s := by
  have hscan := within_scan (addr / pageSize) (pageCount size) 0 s
  have hfst := scan_fst (addr / pageSize) (pageCount size) 0 s
  have hmem : ∀ q, q ∈ (Block.mk addr size).pages ↔
      addr / pageSize ≤ q ∧ q < addr / pageSize + pageCount size := fun q => Iff.rfl
  simp only [hmem]
  rw [Nat.add_zero] at hscan hfst
  rw [allocFrom]
  generalize scan (addr / pageSize) (pageCount size) 0 s = r at hscan hfst
  generalize addr / pageSize = a at hscan hfst
  generalize pageCount size = n at hscan hfst
  obtain ⟨_ | _, t⟩ := r
  · have hclear := hfst.mp rfl
    have hloop := within_forPages (fun i s => (rfl : (setBit (a + i) s).bytes = (a + i) / 8 :: s.bytes)) n t
    rw [within_count, hloop, hscan]
    constructor
    · rintro ⟨hin, -, hs⟩
      exact ⟨Or.inl fun q hq => hin q hq.1 hq.2, hs⟩
    · rintro ⟨hin | ⟨q, hq, -, hused⟩, hs⟩
      · exact ⟨fun q h1 h2 => hin q ⟨h1, h2⟩, fun q h1 h2 _ => hin q ⟨h1, h2⟩, hs⟩
      · exact absurd hused (hclear q hq.1 hq.2)
  · rw [hscan]
    refine and_congr_left fun _ => ⟨fun hin => ?_, ?_⟩
    · by_cases hused : ∃ q, a ≤ q ∧ q < a + n ∧ IsUsed s.pmm q
      · -- the first used page has been read
        obtain ⟨h1, h2, hq⟩ := Nat.find_spec hused
        have hfirst := hin _ h1 h2 fun p hp hp' hpused => Nat.find_min hused hp' ⟨hp, by omega, hpused⟩
        exact Or.inr ⟨_, ⟨h1, h2⟩, hfirst, hq⟩
      · exact Or.inl fun q hq => hin q hq.1 hq.2 fun p hp hp' hpused => hused ⟨p, hp, by have := hq.2; omega, hpused⟩
    · rintro (hin | ⟨p, hp, hlt, hused⟩) q h1 h2 hclear
      · exact hin q ⟨h1, h2⟩
      · refine lt_of_le_of_lt (Nat.le_of_not_lt fun hpq => ?_) hlt
        exact hclear p hp.1 hpq hused

theorem within_unalloc (addr size : ℕ) (hs : Within s) : Within (unalloc addr size s).2 := by
  rw [unalloc]
  split_ifs with hlarge
  · exact hs
  · refine (within_count _ _).mpr ((within_forPages (fun _ _ => rfl) (pageCount size) s).mpr ⟨fun q _ hq => ?_, hs⟩)
    rw [bitmapPages]
    omega

end Within

end Traced

/-! ### Any use of the manager -/

/-- Setup, or a call, with any arguments. -/
inductive Use
  | setup (mmap : List MemoryMap)
  | alloc (size : ℕ)
  | allocFrom (addr size : ℕ)
  | unalloc (addr size : ℕ)

/-- The arguments are 32-bit words, and the available entries of a memory map end below 4 GiB. -/
def Use.Admissible : Use → Prop
  | setup mmap => ∀ e ∈ mmap, e.type = memoryAvailable → e.addr + e.len ≤ 2 ^ 32
  | alloc size => size < 2 ^ 32
  | allocFrom addr size => addr < 2 ^ 32 ∧ size < 2 ^ 32
  | unalloc addr size => addr < 2 ^ 32 ∧ size < 2 ^ 32

def Use.run : Use → Traced → Traced
  | setup mmap, s => s.memorySetup mmap
  | alloc size, s => (s.alloc size).2
  | allocFrom addr size, s => (s.allocFrom addr size).2
  | unalloc addr size, s => (s.unalloc addr size).2

/-- Each page that starts in an entry that setup takes has a bit; the pages of a
`pmm_alloc_from` have bits, or one that has is used. -/
def Use.InBitmap (s : State) : Use → Prop
  | setup mmap => ∀ e ∈ mmap, Accepted e →
    ∀ q, e.addr ≤ q * 4096 → q * 4096 < e.addr + e.len → q < bitmapPages
  | alloc _ => True
  | allocFrom addr size => (∀ q ∈ (Block.mk addr size).pages, q < bitmapPages) ∨
    ∃ q ∈ (Block.mk addr size).pages, q < bitmapPages ∧ IsUsed s q
  | unalloc _ _ => True

/-- In every state the byte indices of a use are in range exactly if its pages are in the
bitmap. -/
theorem bitmap_indices_iff (s : State) (u : Use) (hu : u.Admissible) :
    (∀ b ∈ (u.run ⟨s, []⟩).bytes, b < bitmapMaxPage) ↔ u.InBitmap s := by
  have hstart : Traced.Within ⟨s, []⟩ := List.forall_mem_nil _
  cases u with
  | setup mmap => exact (Traced.within_memorySetup hu ⟨s, []⟩).trans (and_iff_left hstart)
  | alloc size => exact iff_of_true (Traced.within_alloc size hstart) trivial
  | allocFrom addr size => exact (Traced.within_allocFrom addr size ⟨s, []⟩).trans (and_iff_left hstart)
  | unalloc addr size => exact iff_of_true (Traced.within_unalloc addr size hstart) trivial

theorem bitmap_indices_threePages :
    (∀ b ∈ ((Use.alloc 0x1000).run ⟨threePages, []⟩).bytes, b < bitmapMaxPage) ↔ (Use.alloc 0x1000).InBitmap threePages :=
  bitmap_indices_iff threePages (.alloc 0x1000) (by decide : 0x1000 < 2 ^ 32)

/-- A `pmm_alloc_from` of the last eight pages below 4 GiB reads the byte behind the bitmap. -/
theorem byte_behind_bitmap : ¬∀ (s : State) (u : Use), u.Admissible →
    ∀ b ∈ (u.run ⟨s, []⟩).bytes, b < bitmapMaxPage := by
  intro hall
  have hbyte := hall threePages (.allocFrom 0xFFFF8000 0x1000) ⟨by decide, by decide⟩ 131071 (by decide +kernel)
  rw [bitmapMaxPage_eq] at hbyte
  exact absurd hbyte (by decide)

end JustKernel.Pmm
