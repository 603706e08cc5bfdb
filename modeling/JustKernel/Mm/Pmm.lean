import JustKernel.Base.Memory
import Mathlib.Tactic.NormNum

/-! The physical memory manager, `mm/pmm.c`. One bit per page frame, set while
the frame is used; the bitmap is filled with ones and the available entries of
the boot loader's memory map are cleared. Allocation is a first-fit search for a
run of clear bits that starts over whenever it meets a used page, with
`first_page == 0` standing for "no run yet". Functions that end in the halt loop
return `none`. Addresses, sizes and page numbers are natural numbers reduced
modulo `2 ^ 32` where the source's `uint32_t` arithmetic can wrap; the counters
are 32-bit words. -/

namespace JustKernel.Pmm

open Memory (Byte)

abbrev pageSize : ℕ := 0x1000

/-- `BITMAP_MAX_PAGE`. The source uses it both as the number of bitmap bytes and
as the number of pages `find_free_page` looks at. -/
def bitmapMaxPage : ℕ := 0xFFFFFFFF / pageSize / 8

theorem bitmapMaxPage_eq : bitmapMaxPage = 131071 := by norm_num [bitmapMaxPage]

/-- The bitmap and the three counters. -/
structure State where
  bitmap : ℕ → Byte
  totalMemory : BitVec 32
  usedMemory : BitVec 32
  availableMemory : BitVec 32

def pmmSetBit (page : ℕ) (s : State) : State :=
  { s with bitmap := Function.update s.bitmap (page / 8) (s.bitmap (page / 8) ||| 1#8 <<< (page % 8)) }

def pmmClearBit (page : ℕ) (s : State) : State :=
  { s with bitmap := Function.update s.bitmap (page / 8) (s.bitmap (page / 8) &&& ~~~(1#8 <<< (page % 8))) }

def pmmGetBit (page : ℕ) (s : State) : Byte := s.bitmap (page / 8) &&& 1#8 <<< (page % 8)

/-- `for (i = 0; i < n; i++) body(i)`. -/
def forPages (body : ℕ → State → State) : ℕ → State → State
  | 0, s => s
  | n + 1, s => body n (forPages body n s)

/-- An entry of the boot loader's memory map. -/
structure MemoryMap where
  addr : ℕ
  len : ℕ
  type : ℕ

def memoryAvailable : ℕ := 1

/-- `ROUND_UP(n, PAGE_SIZE)` on `uint32_t`. -/
def roundUp (n : ℕ) : ℕ := (n + pageSize - 1) % 2 ^ 32 / pageSize * pageSize

/-- `available_memory += len`. -/
def countFound (len : ℕ) (s : State) : State :=
  { s with availableMemory := s.availableMemory + BitVec.ofNat 32 len }

/-- The body of the loop over the memory map. -/
def setupEntry (s : State) (e : MemoryMap) : State :=
  let blockStart := roundUp (e.addr % 2 ^ 32)
  let blockEnd := roundUp ((e.addr + e.len) % 2 ^ 32)
  let blockLen := (blockEnd + 2 ^ 32 - blockStart) % 2 ^ 32
  if e.type = memoryAvailable ∧ 0x100000 ≤ e.addr % 2 ^ 32 then
    countFound blockLen
      (forPages (fun i => pmmClearBit (i + blockStart / pageSize)) (blockLen / pageSize) s)
  else s

/-- `pmm_memory_setup`; the local `mem_length` is computed and never used. -/
def pmmMemorySetup (mmap : List MemoryMap) (s : State) : State :=
  let s := { s with bitmap := fun i => if i < bitmapMaxPage then 0xFF#8 else s.bitmap i }
  let s := mmap.foldl setupEntry s
  { s with totalMemory := s.availableMemory }

/-- The search loop, with `n` pages left to look at, the next of them `i`. -/
def findFreePageLoop (pages : ℕ) (s : State) : ℕ → ℕ → ℕ → ℕ → Option ℕ
  | 0, _, _, _ => none
  | n + 1, i, foundPages, firstPage =>
    let clear := pmmGetBit i s = 0
    let foundPages := if clear then foundPages + 1 else 0
    let firstPage := if clear then (if firstPage = 0 then i else firstPage) else 0
    if foundPages = pages then some firstPage
    else findFreePageLoop pages s n (i + 1) foundPages firstPage

def findFreePage (pages : ℕ) (s : State) : Option ℕ :=
  findFreePageLoop pages s bitmapMaxPage 0 0 0

/-- `(size + PAGE_SIZE - 1) / PAGE_SIZE` on `uint32_t`. -/
def pageCount (size : ℕ) : ℕ := (size + pageSize - 1) % 2 ^ 32 / pageSize

/-- The counters after `pages` pages have been handed out. -/
def countTaken (pages : ℕ) (s : State) : State :=
  { s with
    availableMemory := s.availableMemory - BitVec.ofNat 32 (pages * pageSize)
    usedMemory := s.usedMemory + BitVec.ofNat 32 (pages * pageSize) }

/-- The counters after `pages` pages have come back. -/
def countGiven (pages : ℕ) (s : State) : State :=
  { s with
    availableMemory := s.availableMemory + BitVec.ofNat 32 (pages * pageSize)
    usedMemory := s.usedMemory - BitVec.ofNat 32 (pages * pageSize) }

def pmmAlloc (size : ℕ) (s : State) : Option (ℕ × State) :=
  let pages := pageCount size
  match findFreePage pages s with
  | none => none
  | some freePage =>
    some (freePage * pageSize % 2 ^ 32,
      countTaken pages (forPages (fun i => pmmSetBit (freePage + i)) pages s))

/-- Whether the scan of `pmm_alloc_from` meets a used page among `n`. -/
def anyUsed (startPage : ℕ) (s : State) : ℕ → Bool
  | 0 => false
  | n + 1 => anyUsed startPage s n || pmmGetBit (startPage + n) s != 0

def pmmAllocFrom (addr size : ℕ) (s : State) : ℕ × State :=
  let pages := pageCount size
  let startPage := addr / pageSize
  if anyUsed startPage s pages then (0, s)
  else (startPage * pageSize, countTaken pages (forPages (fun i => pmmSetBit (startPage + i)) pages s))

/-- `pmm_unalloc`; a misaligned address is only reported on the serial line. -/
def pmmUnalloc (addr size : ℕ) (s : State) : Option State :=
  let page := addr / pageSize
  let pages := pageCount size
  if page + pages > bitmapMaxPage then none
  else some (countGiven pages (forPages (fun i => pmmClearBit (page + i)) pages s))

/-! ### What each operation does to the bits -/

/-- The bit of `page` is set. -/
def IsUsed (s : State) (page : ℕ) : Prop := pmmGetBit page s ≠ 0

instance (s : State) (page : ℕ) : Decidable (IsUsed s page) :=
  inferInstanceAs (Decidable (_ ≠ _))

theorem isUsed_iff (s : State) (page : ℕ) :
    IsUsed s page ↔ (s.bitmap (page / 8)).getLsbD (page % 8) = true := by
  have hlt : page % 8 < 8 := Nat.mod_lt _ (by decide)
  rw [IsUsed, pmmGetBit, ← BitVec.twoPow_eq, BitVec.and_twoPow]
  split_ifs with h
  · simp only [h, iff_true]
    intro h0
    have := congrArg (fun v : Byte => v.getLsbD (page % 8)) h0
    simp [hlt] at this
  · simp [h]

/-! The counters do not touch the bits. -/

theorem isUsed_countFound (n : ℕ) (s : State) (q : ℕ) :
    IsUsed (countFound n s) q ↔ IsUsed s q := by
  simp only [isUsed_iff, countFound]

theorem isUsed_countTaken (n : ℕ) (s : State) (q : ℕ) :
    IsUsed (countTaken n s) q ↔ IsUsed s q := by
  simp only [isUsed_iff, countTaken]

theorem isUsed_countGiven (n : ℕ) (s : State) (q : ℕ) :
    IsUsed (countGiven n s) q ↔ IsUsed s q := by
  simp only [isUsed_iff, countGiven]

theorem isUsed_pmmSetBit (s : State) (p q : ℕ) :
    IsUsed (pmmSetBit p s) q ↔ q = p ∨ IsUsed s q := by
  have hlt : p % 8 < 8 := Nat.mod_lt _ (by decide)
  simp only [isUsed_iff, pmmSetBit]
  by_cases hbyte : q / 8 = p / 8
  · have hbit : q = p ↔ p % 8 = q % 8 := by omega
    rw [hbyte, Function.update_self, BitVec.getLsbD_or, ← BitVec.twoPow_eq, BitVec.getLsbD_twoPow,
      Bool.or_eq_true, hbit]
    simp only [hlt, decide_true, Bool.true_and, decide_eq_true_eq]
    exact or_comm
  · have hne : q ≠ p := by rintro rfl; exact hbyte rfl
    rw [Function.update_of_ne hbyte]
    simp [hne]

theorem isUsed_pmmClearBit (s : State) (p q : ℕ) :
    IsUsed (pmmClearBit p s) q ↔ q ≠ p ∧ IsUsed s q := by
  have hlt : p % 8 < 8 := Nat.mod_lt _ (by decide)
  simp only [isUsed_iff, pmmClearBit]
  by_cases hbyte : q / 8 = p / 8
  · have hbit : q = p ↔ p % 8 = q % 8 := by omega
    rw [hbyte, Function.update_self, BitVec.getLsbD_and, BitVec.getLsbD_not, ← BitVec.twoPow_eq,
      BitVec.getLsbD_twoPow, Bool.and_eq_true, ne_eq, hbit]
    have hq : q % 8 < 8 := Nat.mod_lt _ (by decide)
    simp only [hlt, hq, decide_true, Bool.true_and, Bool.not_eq_true', decide_eq_false_iff_not]
    exact and_comm
  · have hne : q ≠ p := by rintro rfl; exact hbyte rfl
    rw [Function.update_of_ne hbyte]
    simp [hne]

/-- A loop of `pmm_set_bit` marks exactly the `n` pages from `base` on. -/
theorem isUsed_setLoop (base n : ℕ) (s : State) (q : ℕ) :
    IsUsed (forPages (fun i => pmmSetBit (base + i)) n s) q ↔
      (base ≤ q ∧ q < base + n) ∨ IsUsed s q := by
  induction n with
  | zero =>
    rw [forPages, or_iff_right (by omega)]
  | succ n ih =>
    rw [forPages, isUsed_pmmSetBit, ih]
    by_cases hq : IsUsed s q <;> simp only [hq, or_true, or_false]
    omega

/-- A loop of `pmm_clear_bit` frees exactly the `n` pages from `base` on. -/
theorem isUsed_clearLoop (base n : ℕ) (s : State) (q : ℕ) :
    IsUsed (forPages (fun i => pmmClearBit (base + i)) n s) q ↔
      ¬(base ≤ q ∧ q < base + n) ∧ IsUsed s q := by
  induction n with
  | zero =>
    rw [forPages, and_iff_right (by omega)]
  | succ n ih =>
    rw [forPages, isUsed_pmmClearBit, ih]
    by_cases hq : IsUsed s q <;> simp only [hq, and_true, and_false]
    omega

theorem anyUsed_eq_false (base n : ℕ) (s : State) :
    anyUsed base s n = false ↔ ∀ q, base ≤ q → q < base + n → ¬IsUsed s q := by
  induction n with
  | zero => simp only [anyUsed, true_iff]; omega
  | succ n ih =>
    rw [anyUsed, Bool.or_eq_false_iff, ih, bne_eq_false_iff_eq]
    constructor
    · rintro ⟨hlow, htop⟩ q h1 h2
      rcases Nat.lt_or_ge q (base + n) with h | h
      · exact hlow q h1 h
      · rw [show q = base + n by omega]
        exact not_not_intro htop
    · intro h
      exact ⟨fun q h1 h2 => h q h1 (by omega), not_not.mp (h (base + n) (by omega) (by omega))⟩

end JustKernel.Pmm
