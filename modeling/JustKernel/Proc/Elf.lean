import JustKernel.Mm.VmmMapped
import JustKernel.Mm.VmmFreeCr3
import JustKernel.Base.Memory

/-! Loading a program: `proc_create_from_elf` of `proc/proc.c`. Every `PT_LOAD`
header gets a block of frames from `pmm_alloc`, which the kernel writes at its
physical address and then maps into the directory of the process. Physical
memory is the memory of the page tables, read by bytes here. The bytes at
`hdr->header` are a function of their distance from it, which the load does not
change. Of `proc_alloc` only the directory matters: a fork of the kernel's for
ring 3, with a heap of its own, and else the kernel's own. The allocations from
the kernel heap in it and `createHeap` are parameters. -/

namespace JustKernel.Elf

open TwoLevel Halting Vmm
open Memory (Byte)

section Bytes

variable {σ : Type}

/-- The index of the 32-bit word of an address in its page. -/
def wordOf (a : BitVec 32) : Index := a.extractLsb' 2 10

/-- The place of a byte in its word. -/
def laneOf (a : BitVec 32) : ℕ := (a.extractLsb' 0 2).toNat

/-- The byte at a physical address. -/
def byteAt (s : State σ) (a : BitVec 32) : Byte :=
  (s.frames (pageOf a) (wordOf a)).extractLsb' (8 * laneOf a) 8

/-- A word with one byte replaced. -/
def withByte (w : Entry) (lane : ℕ) (b : Byte) : Entry :=
  (w &&& ~~~((0xff : BitVec 32) <<< (8 * lane))) ||| (b.setWidth 32 <<< (8 * lane))

def setByte (a : BitVec 32) (b : Byte) (s : State σ) : State σ :=
  let word := withByte (s.frames (pageOf a) (wordOf a)) (laneOf a) b
  { s with frames := put s.frames (pageOf a) (wordOf a) word }

/-- The first `n` bytes from `dst` on. -/
def writeBytes (f : ℕ → Byte) (dst : BitVec 32) : ℕ → State σ → State σ
  | 0, s => s
  | n + 1, s => setByte (dst + BitVec.ofNat 32 n) (f n) (writeBytes f dst n s)

def memset (dst : BitVec 32) (data : Byte) (count : ℕ) (s : State σ) : State σ :=
  writeBytes (fun _ => data) dst count s

/-- `memcpy`, whose source comes first. -/
def memcpy (src : BitVec 32 → Byte) (dst : BitVec 32) (count : ℕ) (s : State σ) : State σ :=
  writeBytes (fun i => src (BitVec.ofNat 32 i)) dst count s

/-- The byte a process sees at a virtual address. -/
def seenByte (s : State σ) (d : Frame) (virt : BitVec 32) : Option Byte :=
  (entryAt s d (pageOf virt)).map fun e =>
    byteAt s (pageAddr (address e) + (vmmVirtToOffs virt).off.setWidth 32)

end Bytes

def ptLoad : BitVec 32 := 1

/-- The fields of `ELF32ProgramHeader_t` that say what a segment is. The loader does not look
at `filesz`. -/
structure ProgramHeader where
  type : BitVec 32
  offset : BitVec 32
  vaddr : BitVec 32
  filesz : BitVec 32
  memsz : BitVec 32
  deriving DecidableEq

/-- `ELF32Obj_t`: the bytes at `header` and the program headers. -/
structure ElfObj where
  header : BitVec 32 → Byte
  programs : List ProgramHeader

/-- `ALIGN(addr)`. -/
def align (addr : BitVec 32) : BitVec 32 := (addr + pageSize - 1) &&& ~~~(pageSize - 1)

section Model

variable {σ : Type} (P : FramePool σ) (L : Layout)

/-- `pmm_alloc(size)`. -/
def pmmAlloc (size : BitVec 32) : VmmM σ (BitVec 32) := do
  let s ← get
  match P.allocPages ((size + pageSize - 1) / pageSize).toNat s.pmm with
  | none => throw .pmmAlloc
  | some (p, pmm) =>
    set { s with pmm := pmm }
    return pageAddr p

/-- The body of the loop over the program headers. -/
def loadSegment (hdr : ElfObj) (cr3 : Frame) (ph : ProgramHeader) : VmmM σ Unit := do
  if ph.type = ptLoad then
    let pages := (align ph.memsz / pageSize).toNat
    let paddr ← pmmAlloc P ph.memsz
    modify (memset paddr 0 ph.memsz.toNat)
    modify (memcpy (fun i => hdr.header (ph.offset + i)) paddr ph.memsz.toNat)
    let _ ← vmmMapPages P.toFrameAlloc L paddr ph.vaddr (pageAddr cr3) pages 7

def loadSegments (hdr : ElfObj) (cr3 : Frame) : List ProgramHeader → VmmM σ Unit
  | [] => pure ()
  | ph :: rest => do
    loadSegment P L hdr cr3 ph
    loadSegments hdr cr3 rest

/-- What `proc_alloc` calls besides `vmm_fork_kernel_space`: `kmalloc` for the process and for
the heap record, which tells whether there was memory, and `createHeap` for a directory. -/
structure HeapCalls (σ : Type) where
  kmalloc : VmmM σ Bool
  createHeap : Frame → VmmM σ Unit

/-- `proc_alloc`: the directory of the new process. -/
def procAlloc (heap : HeapCalls σ) (base : Frame) (ring : BitVec 8) : VmmM σ (Option Frame) := do
  let proc ← heap.kmalloc
  if proc then
    if ring = 3 then
      let _ ← heap.kmalloc
      let cr3 ← vmmForkKernelSpace P.toFrameAlloc L base
      heap.createHeap (pageOf cr3)
      return some (pageOf cr3)
    else return some base
  else return none

def procCreateFromElf (heap : HeapCalls σ) (base : Frame) (hdr : ElfObj) (ring : BitVec 8) :
    VmmM σ (Option Frame) := do
  let proc ← procAlloc P L heap base ring
  match proc with
  | none => return none
  | some cr3 =>
    loadSegments P L hdr cr3 hdr.programs
    return some cr3

end Model

/-! ### Bytes of words -/

theorem getLsbD_mask (lane i : ℕ) (hi : i < 32) :
    ((0xff : BitVec 32) <<< (8 * lane)).getLsbD i = decide (8 * lane ≤ i ∧ i < 8 * lane + 8) := by
  rw [BitVec.getLsbD_shiftLeft, show (0xff : BitVec 32) = BitVec.setWidth 32 (BitVec.allOnes 8) by decide,
    BitVec.getLsbD_setWidth, BitVec.getLsbD_allOnes]
  by_cases h : i < 8 * lane
  · simp [h, show ¬8 * lane ≤ i by omega]
  · simp only [hi, h, decide_true, decide_false, Bool.not_false, Bool.true_and]
    by_cases h' : i - 8 * lane < 8
    · simp [h', show i - 8 * lane < 32 by omega, show 8 * lane ≤ i by omega,
        show i < 8 * lane + 8 by omega]
    · simp [h', show ¬i < 8 * lane + 8 by omega]

theorem withByte_same (w : Entry) {lane : ℕ} (hlane : lane < 4) (b : Byte) :
    (withByte w lane b).extractLsb' (8 * lane) 8 = b := by
  apply BitVec.eq_of_getLsbD_eq
  intro i hi
  rw [BitVec.getLsbD_extractLsb', withByte, BitVec.getLsbD_or, BitVec.getLsbD_and, BitVec.getLsbD_not,
    getLsbD_mask lane _ (by omega), BitVec.getLsbD_shiftLeft, BitVec.getLsbD_setWidth]
  simp [hi, show 8 * lane + i < 32 by omega, show i < 32 by omega]

theorem withByte_other (w : Entry) {lane lane' : ℕ} (hlane : lane' < 4) (hne : lane' ≠ lane) (b : Byte) :
    (withByte w lane b).extractLsb' (8 * lane') 8 = w.extractLsb' (8 * lane') 8 := by
  apply BitVec.eq_of_getLsbD_eq
  intro i hi
  have hout : ¬(8 * lane ≤ 8 * lane' + i ∧ 8 * lane' + i < 8 * lane + 8) := by omega
  rw [BitVec.getLsbD_extractLsb', BitVec.getLsbD_extractLsb', withByte, BitVec.getLsbD_or,
    BitVec.getLsbD_and, BitVec.getLsbD_not, getLsbD_mask lane _ (by omega), BitVec.getLsbD_shiftLeft,
    BitVec.getLsbD_setWidth]
  simp only [hout, decide_false, Bool.not_false, show 8 * lane' + i < 32 by omega, decide_true,
    Bool.and_true, Bool.true_and, hi]
  by_cases h : 8 * lane' + i < 8 * lane
  · simp [h]
  · have hhigh : b.getLsbD (8 * lane' + i - 8 * lane) = false :=
      BitVec.getLsbD_of_ge _ _ (by omega)
    simp [hhigh]

theorem laneOf_lt (a : BitVec 32) : laneOf a < 4 := (a.extractLsb' 0 2).isLt

/-- A byte is found by its page, its word and its place in the word. -/
theorem eq_of_place {a b : BitVec 32} (hpage : pageOf a = pageOf b) (hword : wordOf a = wordOf b)
    (hlane : laneOf a = laneOf b) : a = b := by
  have hlow : a.extractLsb' 0 2 = b.extractLsb' 0 2 := BitVec.eq_of_toNat_eq hlane
  apply BitVec.eq_of_getLsbD_eq
  intro i hi
  rcases Nat.lt_or_ge i 2 with h2 | h2
  · have := congrArg (fun x : BitVec 2 => x.getLsbD i) hlow
    simpa [h2] using this
  rcases Nat.lt_or_ge i 12 with h12 | h12
  · have := congrArg (fun x : BitVec 10 => x.getLsbD (i - 2)) hword
    simpa [wordOf, show i - 2 < 10 by omega, show 2 + (i - 2) = i by omega] using this
  · have := congrArg (fun x : BitVec 20 => x.getLsbD (i - 12)) hpage
    simpa [pageOf, show i - 12 < 20 by omega, show 12 + (i - 12) = i by omega] using this

section Bytes

variable {σ : Type} {s : State σ}

theorem byteAt_setByte (a a' : BitVec 32) (b : Byte) :
    byteAt (setByte a b s) a' = if a' = a then b else byteAt s a' := by
  by_cases ha : a' = a
  · subst ha
    rw [if_pos rfl, byteAt, setByte]
    dsimp only
    rw [put_self, withByte_same _ (laneOf_lt _)]
  · rw [if_neg ha, byteAt, setByte, byteAt]
    dsimp only
    by_cases hpage : pageOf a' = pageOf a
    · by_cases hword : wordOf a' = wordOf a
      · have hlane : laneOf a' ≠ laneOf a := fun hlane => ha (eq_of_place hpage hword hlane)
        rw [hpage, hword, put_self, withByte_other _ (laneOf_lt _) hlane]
      · rw [put_of_index_ne _ _ _ _ hword]
    · rw [put_of_frame_ne _ _ _ hpage]

theorem writeBytes_pmm (f : ℕ → Byte) (dst : BitVec 32) (n : ℕ) :
    (writeBytes f dst n s).pmm = s.pmm := by
  induction n with
  | zero => rfl
  | succ n ih => exact ih

/-- Pages without a byte of the range stay as they were. -/
theorem writeBytes_frames (f : ℕ → Byte) (dst : BitVec 32) (n : ℕ) {g : Frame}
    (hg : ∀ i < n, g ≠ pageOf (dst + BitVec.ofNat 32 i)) :
    (writeBytes f dst n s).frames g = s.frames g := by
  induction n with
  | zero => rfl
  | succ n ih =>
    rw [writeBytes, setByte]
    exact (put_of_frame_ne _ _ _ (hg n (by omega))).trans (ih fun i hi => hg i (by omega))

/-- The bytes that have been written. -/
theorem writeBytes_byteAt (f : ℕ → Byte) (dst : BitVec 32) (n : ℕ) (hn : n ≤ 2 ^ 32) {i : ℕ} (hi : i < n) :
    byteAt (writeBytes f dst n s) (dst + BitVec.ofNat 32 i) = f i := by
  induction n with
  | zero => exact absurd hi (Nat.not_lt_zero _)
  | succ n ih =>
    rw [writeBytes, byteAt_setByte]
    by_cases hin : i = n
    · rw [hin, if_pos rfl]
    · have hne : dst + BitVec.ofNat 32 i ≠ dst + BitVec.ofNat 32 n := by
        intro heq
        have := congrArg BitVec.toNat (BitVec.add_right_inj dst |>.mp heq)
        rw [BitVec.toNat_ofNat, BitVec.toNat_ofNat] at this
        omega
      rw [if_neg hne]
      exact ih (by omega) (by omega)

end Bytes

/-! ### Sizes and pages -/

/-- The pages of a segment: `ALIGN(memsz) / PAGE_SIZE`. -/
def pagesOf (ph : ProgramHeader) : ℕ := (align ph.memsz / pageSize).toNat

theorem toNat_pageSize : pageSize.toNat = 4096 := rfl

theorem align_eq (a : BitVec 32) : align a = pageAddr (pageOf (a + pageSize - 1)) := by
  rw [align, show (pageSize - 1 : BitVec 32) = 0xfff by decide]
  exact and_mask _

/-- `pmm_alloc` and the mapping count the same pages. -/
theorem pagesOf_eq (ph : ProgramHeader) :
    ((ph.memsz + pageSize - 1) / pageSize).toNat = pagesOf ph := by
  rw [pagesOf, align_eq, BitVec.toNat_udiv, BitVec.toNat_udiv, toNat_pageAddr, toNat_pageOf, toNat_pageSize,
    Nat.mul_div_cancel _ (by omega)]

/-- A size that does not wrap needs this many pages. -/
theorem pagesOf_spec {ph : ProgramHeader} (h : ph.memsz.toNat ≤ 0xFFFFF000) :
    ph.memsz.toNat ≤ pagesOf ph * 4096 ∧ pagesOf ph * 4096 < ph.memsz.toNat + 4096 := by
  have hsum : (ph.memsz + pageSize - 1).toNat = ph.memsz.toNat + 4095 := by
    rw [show pageSize = (4096 : BitVec 32) from rfl]
    bv_omega
  rw [← pagesOf_eq, BitVec.toNat_udiv, hsum, toNat_pageSize]
  omega

end JustKernel.Elf
