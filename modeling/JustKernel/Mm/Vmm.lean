import JustKernel.Base.TwoLevel
import JustKernel.Base.Halting
import Mathlib.Algebra.Group.Nat.Defs
import Mathlib.Data.Nat.Notation

/-! The virtual memory manager, `mm/vmm.c`, with paging on. A directory frame
names table frames, and a table's entries name the mapped frames. The kernel
reaches a directory or a table that is not mapped anywhere through two windows:
the pages of the arrays `_dir` and `_table` are mapped by two entries of the
array `_base_table`, and opening a window points such an entry at another frame.
Every access to `_dir` and `_table` below therefore goes through the entry of
`_base_table` as it stands at that moment. `_base_table` itself is reached at its own
page, which is mapped to itself in every directory that is active: the operations are
not for a range with that page, behind which they could not close the windows. The
translation buffer is flushed by `vmm_invlpg` after each change of a window and does
not appear. A new table comes from `pmm_alloc`, which is a parameter; where it does
not return, the operation does not either. -/

namespace JustKernel.Vmm

open TwoLevel Halting

/-- A frame or page number. -/
abbrev Frame := BitVec 20

abbrev Index := BitVec 10

/-- `vmm_entry_t`. -/
abbrev Entry := BitVec 32

abbrev Frames := Frame → Index → Entry

def present (e : Entry) : Bool := e.getLsbD 0

/-- The bit field `address`. -/
def address (e : Entry) : Frame := e.extractLsb' 12 20

/-- The low twelve bits of an entry. -/
def permsOf (e : Entry) : BitVec 12 := e.setWidth 12

/-- `VMM_PRESENT | VMM_WRITE | VMM_USER`. -/
def vmmPresentWriteUser : BitVec 32 := 7

def vmm4kPermMask : BitVec 32 := ~~~0xfff

def pageSize : BitVec 32 := 0x1000

/-- `frame << 12`. -/
def pageAddr (f : Frame) : BitVec 32 := f ++ 0#12

/-- `addr >> 12`. -/
def pageOf (addr : BitVec 32) : Frame := addr.extractLsb' 12 20

/-- `vmm_table_off_t`. -/
structure TableOff where
  tid : Index
  pid : Index
  off : BitVec 12

def vmmVirtToOffs (virt : BitVec 32) : TableOff where
  tid := virt.extractLsb' 22 10
  pid := virt.extractLsb' 12 10
  off := virt.extractLsb' 0 12

/-- Where the linker has put `_base_table`, `_dir` and `_table`: the page frames of these
arrays, which are mapped to themselves. Both windows lie in the four megabytes that
`_base_table` maps and are different pages. -/
structure Layout where
  baseTable : Frame
  dir : Frame
  table : Frame
  distinct : dir.setWidth 10 ≠ table.setWidth 10

/-- The index in `_base_table` of the entry that maps `_dir`. -/
def Layout.dirPid (L : Layout) : Index := (vmmVirtToOffs (pageAddr L.dir)).pid

def Layout.tablePid (L : Layout) : Index := (vmmVirtToOffs (pageAddr L.table)).pid

/-- `pmm_alloc(PAGE_SIZE)`: it halts, or returns a frame that was not taken and is from
then on. -/
structure FrameAlloc (σ : Type) where
  alloc : σ → Option (Frame × σ)
  taken : σ → Frame → Prop
  fresh : ∀ {s s' f}, alloc s = some (f, s') → ¬taken s f
  takes : ∀ {s s' f}, alloc s = some (f, s') → taken s' f
  keeps : ∀ {s s' f g}, alloc s = some (f, s') → taken s g → taken s' g

structure State (σ : Type) where
  frames : Frames
  pmm : σ

/-- The one way not to return. -/
inductive OutOfFrames where
  | pmmAlloc

abbrev VmmM (σ : Type) := EStateM OutOfFrames (State σ)

section Model

variable {σ : Type} (A : FrameAlloc σ) (L : Layout)

/-- `_base_table.entries[i].raw = e`, at the page that is mapped to itself as long as nothing unmaps it. -/
def setBaseEntry (i : Index) (e : Entry) (s : State σ) : State σ :=
  { s with frames := put s.frames L.baseTable i e }

def openDir (pageDir : BitVec 32) (s : State σ) : State σ :=
  if address (s.frames L.baseTable L.dirPid) = pageOf pageDir then s
  else setBaseEntry L L.dirPid (pageDir ||| vmmPresentWriteUser) s

def openTable (pageTable : BitVec 32) (s : State σ) : State σ :=
  if address (s.frames L.baseTable L.tablePid) = pageOf pageTable then s
  else setBaseEntry L L.tablePid (pageTable ||| vmmPresentWriteUser) s

def closeDir (s : State σ) : State σ :=
  if address (s.frames L.baseTable L.dirPid) = pageOf (pageAddr L.dir) then s
  else setBaseEntry L L.dirPid (pageAddr L.dir ||| vmmPresentWriteUser) s

def closeTable (s : State σ) : State σ :=
  if address (s.frames L.baseTable L.tablePid) = pageOf (pageAddr L.table) then s
  else setBaseEntry L L.tablePid (pageAddr L.table ||| vmmPresentWriteUser) s

/-- The frame behind the window `_dir`. -/
def dirFrame (s : State σ) : Frame := address (s.frames L.baseTable L.dirPid)

/-- The frame behind the window `_table`. -/
def tableFrame (s : State σ) : Frame := address (s.frames L.baseTable L.tablePid)

def traverseDirEntry (offset : TableOff) (s : State σ) : Entry := s.frames (dirFrame L s) offset.tid

def traverseTable (offset : TableOff) (s : State σ) : BitVec 32 :=
  pageAddr (address (traverseDirEntry L offset s))

def traverseTableEntry (offset : TableOff) (s : State σ) : Entry :=
  s.frames (tableFrame L s) offset.pid

def traversePage (offset : TableOff) (s : State σ) : BitVec 32 :=
  pageAddr (address (traverseTableEntry L offset s))

/-- `_dir.entries[i].raw = e`. -/
def setDirEntry (i : Index) (e : Entry) (s : State σ) : State σ :=
  { s with frames := put s.frames (dirFrame L s) i e }

/-- `_table.entries[i].raw = e`. -/
def setTableEntry (i : Index) (e : Entry) (s : State σ) : State σ :=
  { s with frames := put s.frames (tableFrame L s) i e }

def virtToPhys (virt pageDir : BitVec 32) (s : State σ) : BitVec 32 × State σ :=
  let offset := vmmVirtToOffs virt
  let s := openDir L pageDir s
  if present (traverseDirEntry L offset s) then
    let s := openTable L (traverseTable L offset s) s
    let phys := if present (traverseTableEntry L offset s) then
        traversePage L offset s + offset.off.setWidth 32
      else 0xFFFFFFFF
    (phys, closeDir L (closeTable L s))
  else (0xFFFFFFFF, closeDir L (closeTable L s))

/-- The first `n` iterations of the loop that clears `_table`. -/
def clearTable : ℕ → State σ → State σ
  | 0, s => s
  | n + 1, s => setTableEntry L (BitVec.ofNat 10 n) 0 (clearTable n s)

def ensureTable (offset : TableOff) : VmmM σ Unit := do
  let s ← get
  if present (traverseDirEntry L offset s) then pure ()
  else
    match A.alloc s.pmm with
    | none => throw .pmmAlloc
    | some (f, pmm) =>
      let newTable := pageAddr f
      modify fun s => { s with pmm := pmm }
      modify (openTable L newTable)
      modify (clearTable L 1024)
      modify (closeTable L)
      modify (setDirEntry L offset.tid (newTable ||| vmmPresentWriteUser))

/-- The lines the three loops share: the table of a page is made if it is missing, and
opened. -/
def enterTable (offset : TableOff) : VmmM σ Unit := do
  ensureTable A L offset
  let s ← get
  modify (openTable L (traverseTable L offset s))

/-- The loop of `vmm_map_pages`. A page that is mapped already is met again in the next
iteration, because `continue` skips the increments. -/
def mapLoop (perms : BitVec 16) : ℕ → BitVec 32 → BitVec 32 → ℕ → VmmM σ ℕ
  | 0, _, _, ret => pure ret
  | n + 1, curPhys, curVirt, ret => do
    let offset := vmmVirtToOffs curVirt
    enterTable A L offset
    let s ← get
    if !present (traverseTableEntry L offset s) then
      modify (setTableEntry L offset.pid (curPhys ||| perms.setWidth 32))
      mapLoop perms n (curPhys + pageSize) (curVirt + pageSize) ret
    else mapLoop perms n curPhys curVirt 1

def vmmMapPages (phys virt pageDir : BitVec 32) (count : ℕ) (perms : BitVec 16) : VmmM σ ℕ := do
  let curVirt := virt &&& vmm4kPermMask
  let curPhys := phys &&& vmm4kPermMask
  modify (openDir L pageDir)
  let ret ← mapLoop A L perms count curPhys curVirt 0
  modify (closeTable L)
  modify (closeDir L)
  return ret

def remapLoop (perms : BitVec 16) : ℕ → BitVec 32 → BitVec 32 → VmmM σ Unit
  | 0, _, _ => pure ()
  | n + 1, curPhys, curVirt => do
    let offset := vmmVirtToOffs curVirt
    enterTable A L offset
    modify (setTableEntry L offset.pid (curPhys ||| perms.setWidth 32))
    remapLoop perms n (curPhys + pageSize) (curVirt + pageSize)

def vmmRemapPages (phys virt pageDir : BitVec 32) (count : ℕ) (perms : BitVec 16) : VmmM σ ℕ := do
  let curVirt := virt &&& vmm4kPermMask
  let curPhys := phys &&& vmm4kPermMask
  modify (openDir L pageDir)
  remapLoop A L perms count curPhys curVirt
  modify (closeTable L)
  modify (closeDir L)
  return 0

def unmapLoop : ℕ → BitVec 32 → ℕ → VmmM σ ℕ
  | 0, _, ret => pure ret
  | n + 1, curVirt, ret => do
    let offset := vmmVirtToOffs curVirt
    enterTable A L offset
    let s ← get
    if present (traverseTableEntry L offset s) then
      modify (setTableEntry L offset.pid 0)
      unmapLoop n (curVirt + pageSize) ret
    else unmapLoop n (curVirt + pageSize) 1

def vmmUnmapPages (virt pageDir : BitVec 32) (count : ℕ) : VmmM σ ℕ := do
  let curVirt := virt &&& vmm4kPermMask
  modify (openDir L pageDir)
  let ret ← unmapLoop A L count curVirt 0
  modify (closeTable L)
  modify (closeDir L)
  return ret

end Model

/-! ### Addresses, pages and entries -/

theorem pageOf_pageAddr (f : Frame) : pageOf (pageAddr f) = f := by
  apply BitVec.eq_of_getLsbD_eq
  intro i hi
  rw [pageOf, pageAddr, BitVec.getLsbD_extractLsb', BitVec.getLsbD_append]
  simp [hi]

theorem toNat_pageAddr (f : Frame) : (pageAddr f).toNat = f.toNat * 4096 := by
  rw [pageAddr, BitVec.toNat_append, Nat.shiftLeft_eq]
  simp

theorem toNat_pageOf (a : BitVec 32) : (pageOf a).toNat = a.toNat / 4096 := by
  rw [pageOf, BitVec.extractLsb'_toNat, Nat.shiftRight_eq_div_pow]
  have := a.isLt
  omega

theorem pageAddr_add (f : Frame) : pageAddr f + pageSize = pageAddr (f + 1) := by
  apply BitVec.eq_of_toNat_eq
  have hf := f.isLt
  rw [BitVec.toNat_add, toNat_pageAddr, toNat_pageAddr, BitVec.toNat_add,
    show (1 : Frame).toNat = 1 by decide, show pageSize.toNat = 4096 by decide]
  omega

theorem and_mask (a : BitVec 32) : a &&& vmm4kPermMask = pageAddr (pageOf a) := by
  apply BitVec.eq_of_getLsbD_eq
  intro i hi
  have hlow : (0xfff : BitVec 32).getLsbD i = decide (i < 12) := by
    rw [show (0xfff : BitVec 32) = BitVec.setWidth 32 (BitVec.allOnes 12) by decide,
      BitVec.getLsbD_setWidth, BitVec.getLsbD_allOnes]
    simp [hi]
  rw [vmm4kPermMask, BitVec.getLsbD_and, BitVec.getLsbD_not, hlow, pageAddr, BitVec.getLsbD_append,
    pageOf, BitVec.getLsbD_extractLsb']
  by_cases h12 : i < 12
  · simp [h12]
  · simp [h12, hi, show i - 12 < 20 by omega, show 12 + (i - 12) = i by omega]

/-- The two indices of a page. -/
def split (v : Frame) : Index × Index := (v.extractLsb' 10 10, v.setWidth 10)

theorem split_inj {v w : Frame} (h : split v = split w) : v = w := by
  obtain ⟨h1, h2⟩ := Prod.mk.inj h
  apply BitVec.eq_of_getLsbD_eq
  intro i hi
  by_cases h10 : i < 10
  · have := congrArg (fun b : BitVec 10 => b.getLsbD i) h2
    simpa [h10] using this
  · have := congrArg (fun b : BitVec 10 => b.getLsbD (i - 10)) h1
    simpa [show i - 10 < 10 by omega, show 10 + (i - 10) = i by omega] using this

theorem vmmVirtToOffs_split (virt : BitVec 32) :
    ((vmmVirtToOffs virt).tid, (vmmVirtToOffs virt).pid) = split (pageOf virt) := by
  apply Prod.ext
  · apply BitVec.eq_of_getLsbD_eq
    intro i hi
    simp [vmmVirtToOffs, split, pageOf, hi, show 10 + i < 20 by omega,
      show 12 + (10 + i) = 22 + i by omega]
  · apply BitVec.eq_of_getLsbD_eq
    intro i hi
    simp [vmmVirtToOffs, split, pageOf, hi, show i < 20 by omega]

theorem getLsbD_or_pageAddr_low (f : Frame) (p : BitVec 32) {i : ℕ} (hi : i < 12) :
    (pageAddr f ||| p).getLsbD i = p.getLsbD i := by
  rw [BitVec.getLsbD_or, pageAddr, BitVec.getLsbD_append]
  simp [hi]

/-- An entry made of a frame and permissions below `0x1000` holds both. -/
theorem address_or (f : Frame) {p : BitVec 32} (hp : p.toNat < 0x1000) :
    address (pageAddr f ||| p) = f := by
  apply BitVec.eq_of_getLsbD_eq
  intro i hi
  have hhigh : p.getLsbD (12 + i) = false := by
    apply Nat.testBit_lt_two_pow
    exact Nat.lt_of_lt_of_le hp (Nat.pow_le_pow_right Nat.two_pos (Nat.le_add_right 12 i))
  rw [address, BitVec.getLsbD_extractLsb', BitVec.getLsbD_or, hhigh, pageAddr, BitVec.getLsbD_append]
  simp [hi]

theorem present_or (f : Frame) (p : BitVec 32) : present (pageAddr f ||| p) = p.getLsbD 0 :=
  getLsbD_or_pageAddr_low f p (by omega)

theorem permsOf_or (f : Frame) (p : BitVec 32) : permsOf (pageAddr f ||| p) = p.setWidth 12 := by
  apply BitVec.eq_of_getLsbD_eq
  intro i hi
  rw [permsOf, BitVec.getLsbD_setWidth, BitVec.getLsbD_setWidth, getLsbD_or_pageAddr_low f p hi]

end JustKernel.Vmm
