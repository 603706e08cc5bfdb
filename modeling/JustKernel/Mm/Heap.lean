import JustKernel.Base.Memory
import JustKernel.Base.Halting
import JustKernel.Base.Links
import Mathlib.Data.Nat.Notation

/-! The kernel heap, `mm/heap.c`, with the list operations of `klibc/llist.h` it
uses. A chunk is a block of memory with a two-word header: `prevFoot` at offset 0,
which belongs to the chunk before it as long as that one is in use, and `head` at
offset 4, the size with the flags `PINUSE` and `CINUSE` in its low bits. The next
two words link a free chunk into the free list. All of it lives in byte memory,
the list head included; only the other fields of `Heap_t` are a record. Words are
numbers below `2 ^ 32` and the arithmetic on them wraps.

Every access to a word of a chunk is checked against the bounds of the heap as they
stand at that moment, and the ones that miss are noted in `outside`. They go on
as on the machine, which reads and writes there all the same where the page is
mapped. Memory the heap does not own holds what others have put there, also in
the pages `expand` has yet to map. The page frames come from the physical and
virtual memory managers, which are a parameter; where one of them does not
return, the operation does not either. Log output is left out. -/

namespace JustKernel.Heap

open Memory Halting Links

/-! ### Words and macros -/

def add32 (a b : ℕ) : ℕ := (a + b) % 2 ^ 32

def sub32 (a b : ℕ) : ℕ := (a + 2 ^ 32 - b) % 2 ^ 32

abbrev pageSize : ℕ := 0x1000

abbrev heapMinSize : ℕ := 0x100000

abbrev minChunkSize : ℕ := 16

abbrev minRequest : ℕ := 11

abbrev chunkOverhead : ℕ := 4

abbrev pinuseBit : ℕ := 1

abbrev cinuseBit : ℕ := 2

/-- `~FLAG_BITS`, which is `~KMALLOC_ALIGN_MASK` too. -/
abbrev sizeMask : ℕ := 0xFFFFFFF8

/-- `-PAGE_SIZE`. -/
abbrev pageMask : ℕ := 0xFFFFF000

def padRequest (req : ℕ) : ℕ := add32 req (chunkOverhead + 7) &&& sizeMask

def request2size (req : ℕ) : ℕ := if req < minRequest then minChunkSize else padRequest req

def chunk2mem (p : ℕ) : ℕ := add32 p 8

def mem2chunk (p : ℕ) : ℕ := sub32 p 8

/-- The rounding that `expand` and `contract` share. -/
def roundToPage (newSize : ℕ) : ℕ :=
  if newSize % pageSize ≠ 0 then add32 (newSize &&& pageMask) pageSize else newSize

/-! ### The machine -/

/-- The fields of `Heap_t`; `head` is the address of the list head in it. -/
structure HeapT where
  startAddr : ℕ
  endAddr : ℕ
  maxAddr : ℕ
  cr3 : ℕ
  perms : BitVec 16
  head : ℕ

def okAddress (p : ℕ) (h : HeapT) : Bool := h.startAddr ≤ p && p < h.endAddr

structure State (σ : Type) where
  mem : Mem
  heap : HeapT
  pages : σ
  /-- The words of chunks that were accessed outside the heap. -/
  outside : List ℕ

/-- The ways not to return. -/
inductive Halt
  | assert (statement : String)
  | panic (msg : String)
  | paging
  | endless
  deriving DecidableEq

abbrev HeapM (σ : Type) := EStateM Halt (State σ)

/-- The functions of `mm/pmm.c` and `mm/vmm.c` that the heap calls. The law is what the search
of `pmm_alloc` over its bitmap comes to: it never finds more pages than it looks at. -/
structure Paging (σ : Type) where
  pmmAlloc : (size : ℕ) → σ → Option (ℕ × σ)
  pmmUnalloc : (phys size : ℕ) → σ → Option σ
  vmmMapPages : (phys virt cr3 count : ℕ) → BitVec 16 → σ → Option σ
  vmmMap : (phys virt count : ℕ) → BitVec 16 → σ → Option σ
  vmmUnmapPages : (virt cr3 count : ℕ) → σ → Option σ
  isMapped : (virt cr3 : ℕ) → σ → Bool × σ
  virtToPhys : (virt cr3 : ℕ) → σ → ℕ × σ
  pmmAlloc_le : ∀ {size s phys s'}, size % pageSize = 0 → size < 2 ^ 32 →
    pmmAlloc size s = some (phys, s') → size ≤ 131071 * pageSize

section Model

variable {σ : Type}

/-- A word of a chunk at `a` is in the heap, or the word is one of the list head. -/
def inBounds (h : HeapT) (a : ℕ) : Prop :=
  (h.startAddr ≤ a ∧ a + 4 ≤ h.endAddr) ∨ a = h.head ∨ a = h.head + 4

instance (h : HeapT) (a : ℕ) : Decidable (inBounds h a) := inferInstanceAs (Decidable (_ ∨ _))

def State.touch (s : State σ) (a : ℕ) : State σ :=
  if inBounds s.heap a then s else { s with outside := a :: s.outside }

def State.setMem (s : State σ) (m : Mem) : State σ := { s with mem := m }

def State.setEnd (s : State σ) (e : ℕ) : State σ := { s with heap := { s.heap with endAddr := e } }

def State.setHeap (s : State σ) (h : HeapT) : State σ := { s with heap := h }

def getWord (a : ℕ) : HeapM σ ℕ := do
  modify fun s => s.touch a
  let s ← get
  return read32 s.mem a

def setWord (a v : ℕ) : HeapM σ Unit := do
  modify fun s => s.touch a
  modify fun s => s.setMem (write32 s.mem a v)

def getHeap : HeapM σ HeapT := do
  let s ← get
  return s.heap

def assert (statement : String) (b : Bool) : HeapM σ Unit :=
  if b then pure () else throw (.assert statement)

def panicUnless (msg : String) (b : Bool) : HeapM σ Unit :=
  if b then pure () else throw (.panic msg)

/-- A call into the memory managers. -/
def call {α : Type} (f : σ → Option (α × σ)) : HeapM σ α := do
  let s ← get
  match f s.pages with
  | none => throw .paging
  | some (a, pages) =>
    modify fun s => { s with pages := pages }
    return a

/-- A call without a result. -/
def callUnit (f : σ → Option σ) : HeapM σ Unit :=
  call fun p => (f p).map fun p => ((), p)

/-! ### Chunks -/

def prevFoot (p : ℕ) : HeapM σ ℕ := getWord p

def setPrevFoot (p v : ℕ) : HeapM σ Unit := setWord p v

def getHead (p : ℕ) : HeapM σ ℕ := getWord (add32 p 4)

def setHead (p v : ℕ) : HeapM σ Unit := setWord (add32 p 4) v

def chunksize (p : ℕ) : HeapM σ ℕ := do
  return (← getHead p) &&& sizeMask

def pinuse (p : ℕ) : HeapM σ Bool := do
  return (← getHead p) &&& pinuseBit != 0

def cinuse (p : ℕ) : HeapM σ Bool := do
  return (← getHead p) &&& cinuseBit != 0

def okInuse (p : ℕ) : HeapM σ Bool := do
  return (← getHead p) &&& (pinuseBit ||| cinuseBit) != pinuseBit

def clearPinuse (p : ℕ) : HeapM σ Unit := do
  let head ← getHead p
  setHead p (head &&& 0xFFFFFFFE)

def setInuse (p s : ℕ) : HeapM σ Unit := do
  let head ← getHead p
  setHead p (head &&& pinuseBit ||| cinuseBit ||| s)
  let next := add32 p s
  let head ← getHead next
  setHead next (head ||| pinuseBit)

def setSizeAndPinuse (p s : ℕ) : HeapM σ Unit := setHead p (s ||| pinuseBit)

def setFoot (p s : ℕ) : HeapM σ Unit := setPrevFoot (add32 p s) s

/-! ### The free list -/

def getNext (node : ℕ) : HeapM σ ℕ := getWord node

def getPrev (node : ℕ) : HeapM σ ℕ := getWord (add32 node 4)

def setNext (node v : ℕ) : HeapM σ Unit := setWord node v

def setPrev (node v : ℕ) : HeapM σ Unit := setWord (add32 node 4) v

/-- `&chunk->list`. -/
def listNode (chunk : ℕ) : ℕ := add32 chunk 8

/-- `list_entry(iter, HeapChunk_t, list)`. -/
def listEntry (iter : ℕ) : ℕ := sub32 iter 8

/-- `__list_add(new, prev, next)`. -/
def listAdd (new prev next : ℕ) : HeapM σ Unit := do
  setPrev next new
  setNext new next
  setPrev new prev
  setNext prev new

def listAddTail (new head : ℕ) : HeapM σ Unit := do
  let prev ← getPrev head
  listAdd new prev head

/-- `__list_del(prev, next)`. -/
def listDel (prev next : ℕ) : HeapM σ Unit := do
  setPrev next prev
  setNext prev next

def listDelEntry (entry : ℕ) : HeapM σ Unit := do
  let prev ← getPrev entry
  let next ← getNext entry
  listDel prev next

def listEmpty (head : ℕ) : HeapM σ Bool := do
  let next ← getNext head
  return next == head || next == 0

/-- More iterations than a list without a repeated node can have. -/
abbrev listFuel : ℕ := 2 ^ 32

/-- The loop of `findSmallestChunk` and `insertChunk`: the first entry, from `iter` on, of a
chunk that has the size, or else the head. -/
def seekChunk (size head : ℕ) : ℕ → ℕ → HeapM σ ℕ
  | 0, _ => throw .endless
  | n + 1, iter =>
    if iter = head then pure iter
    else do
      let tmp := listEntry iter
      if size ≤ (← chunksize tmp) then pure iter
      else do
        let next ← getNext iter
        seekChunk size head n next

def findSmallestChunk (size : ℕ) : HeapM σ ℕ := do
  let h ← getHeap
  let first ← getNext h.head
  let iter ← seekChunk size h.head listFuel first
  if iter = h.head then pure 0 else pure (listEntry iter)

def insertChunk (chunk : ℕ) : HeapM σ Unit := do
  let h ← getHeap
  if ← listEmpty h.head then listAddTail (listNode chunk) h.head
  else do
    let csize ← chunksize chunk
    let first ← getNext h.head
    let iter ← seekChunk csize h.head listFuel first
    listAddTail (listNode chunk) iter

def removeChunk (chunk : ℕ) : HeapM σ Unit := listDelEntry (listNode chunk)

/-- The loop of `alloc` that looks for the entry with the highest address. -/
def highestLoop (head : ℕ) : ℕ → ℕ → ℕ → HeapM σ ℕ
  | 0, _, _ => throw .endless
  | n + 1, iter, tmp =>
    if iter = head then pure tmp
    else do
      let next ← getNext iter
      highestLoop head n next (if iter > tmp then iter else tmp)

def highestEntry : HeapM σ ℕ := do
  let h ← getHeap
  if ← listEmpty h.head then pure 0
  else do
    let first ← getNext h.head
    highestLoop h.head listFuel first 0

/-! ### Growing and shrinking -/

variable (P : Paging σ)

def vmmPresent : BitVec 16 := 1

def expand (newSize : ℕ) : HeapM σ Unit := do
  let h ← getHeap
  assert "newSize > heap->endAddr - heap->startAddr" (newSize > sub32 h.endAddr h.startAddr)
  let newSize := roundToPage newSize
  assert "heap->startAddr + newSize <= heap->maxAddr" (add32 h.startAddr newSize ≤ h.maxAddr)
  let oldEnd := h.endAddr
  let newEnd := add32 h.startAddr newSize
  modify fun s => s.setEnd newEnd
  let size := sub32 newEnd oldEnd
  let phys ← call (P.pmmAlloc size)
  callUnit (P.vmmMap phys oldEnd (size / pageSize) (h.perms ||| vmmPresent))

/-- The size `contract` settles for. -/
def contractedSize (newSize : ℕ) : ℕ :=
  if roundToPage newSize < heapMinSize then heapMinSize else roundToPage newSize

/-- The pages that `contract` takes away. -/
def unmapTail (h : HeapT) (newEnd size : ℕ) : HeapM σ Unit := do
  let _ ← call fun p => some (P.isMapped newEnd h.cr3 p)
  callUnit (P.vmmUnmapPages newEnd h.cr3 (size / pageSize))
  let phys ← call fun p => some (P.virtToPhys newEnd h.cr3 p)
  if phys ≠ 0xFFFFFFFF then callUnit (P.pmmUnalloc phys size) else pure ()

def contract (newSize : ℕ) : HeapM σ ℕ := do
  let h ← getHeap
  assert "newSize < heap->endAddr - heap->startAddr" (newSize < sub32 h.endAddr h.startAddr)
  let newSize := contractedSize newSize
  let newEnd := add32 h.startAddr newSize
  modify fun s => s.setEnd newEnd
  unmapTail P h newEnd (sub32 h.endAddr newEnd)
  return newSize

/-! ### The operations -/

def createHeap (placementAddr cr3 start size max : ℕ) (perms : BitVec 16) : HeapM σ Unit := do
  let endAddr := add32 start size
  assert "start % PAGE_SIZE == 0" (start % pageSize = 0)
  assert "end % PAGE_SIZE == 0" (endAddr % pageSize = 0)
  let head := add32 placementAddr 20
  modify fun s => s.setHeap ⟨start, endAddr, max, cr3, perms, head⟩
  setNext head head
  setPrev head head
  let phys ← call (P.pmmAlloc size)
  callUnit (P.vmmMapPages phys start cr3 (size / pageSize) (perms ||| vmmPresent))
  setPrevFoot start 0
  setSizeAndPinuse start size
  insertChunk start

/-- The test of `alloc` on the top chunk. -/
def checkTop (top : ℕ) : HeapM σ Unit := do
  if ← pinuse top then pure ()
  else do
    let c ← cinuse top
    panicUnless "(alloc) Memory Corrupt" !c

/-- The top chunk of `alloc` after an expansion: the highest free chunk if it ended at the old
end of the heap, with its new size, or else the new memory. -/
def topChunk (oldEndAddr : ℕ) : HeapM σ (ℕ × ℕ) := do
  let tmp ← highestEntry
  let h ← getHeap
  if tmp = 0 then pure (oldEndAddr, sub32 h.endAddr oldEndAddr)
  else do
    let top := listEntry tmp
    checkTop top
    let oldCsize ← chunksize top
    if add32 top oldCsize ≠ oldEndAddr then pure (oldEndAddr, sub32 h.endAddr oldEndAddr)
    else do
      removeChunk top
      pure (top, sub32 h.endAddr top)

/-- The branch of `alloc` for a request that no hole can hold. -/
def growFor (nb : ℕ) : HeapM σ Unit := do
  let h ← getHeap
  let oldSize := sub32 h.endAddr h.startAddr
  let oldEndAddr := h.endAddr
  expand P (add32 oldSize nb)
  let top ← topChunk oldEndAddr
  setSizeAndPinuse top.1 top.2
  insertChunk top.1

/-- The branch of `alloc` for a request that `hole` can hold. -/
def useHole (hole nb : ℕ) : HeapM σ ℕ := do
  assert "chunksize(hole) >= nb" (nb ≤ (← chunksize hole))
  removeChunk hole
  let csize ← chunksize hole
  if add32 nb minChunkSize ≤ csize then do
    let nsize := sub32 csize nb
    let new := add32 hole nb
    setHead new nsize
    insertChunk new
    setInuse hole nb
  else
    setInuse hole csize
  return chunk2mem hole

/-- `alloc`, which calls itself after an expansion. -/
def allocLoop : ℕ → ℕ → HeapM σ ℕ
  | 0, _ => throw .endless
  | n + 1, size => do
    let nb := request2size size
    let hole ← findSmallestChunk nb
    if hole = 0 then do
      growFor P nb
      allocLoop n size
    else useHole hole nb

def alloc (size : ℕ) : HeapM σ ℕ := allocLoop P listFuel size

/-- The backward merge of `free`. -/
def mergePrev (block size : ℕ) : HeapM σ (ℕ × ℕ) := do
  if ← pinuse block then pure (block, size)
  else do
    let prevsize ← prevFoot block
    let prev := sub32 block prevsize
    let h ← getHeap
    panicUnless "(free) Memory Corrupt" (okAddress prev h)
    removeChunk prev
    pure (prev, add32 size prevsize)

/-- `_Lassert2`. -/
def assert2 (block : ℕ) : HeapM σ ℕ := do
  insertChunk block
  throw (.panic "(free) Memory Corrupt")

/-- The forward merge of `free`, with the size of the merged block. The test of the address is
the source's, and so is its sense. -/
def mergeNext (block size : ℕ) : HeapM σ ℕ := do
  let next := add32 block size
  let h ← getHeap
  if okAddress next h then pure size
  else if !(← pinuse next) then assert2 block
  else if ← cinuse next then do
    clearPinuse next
    pure size
  else do
    let nextsize ← chunksize next
    if add32 next nextsize > h.endAddr then assert2 block
    else do
      removeChunk next
      pure (add32 size nextsize)

/-- The branch of `free` for a block at the end of the heap: the heap shrinks around it, and
what is left of the block is returned. -/
def shrinkAround (block size : ℕ) : HeapM σ (ℕ × ℕ) := do
  let h ← getHeap
  let oldSize := sub32 h.endAddr h.startAddr
  let newSize := sub32 block h.startAddr
  let newSize := if newSize % pageSize ≠ 0 then add32 newSize minChunkSize else newSize
  let newSize ← contract P newSize
  if size > sub32 oldSize newSize then pure (block, sub32 size (sub32 oldSize newSize))
  else pure (0, 0)

/-- The other branch. -/
def footBlock (block size : ℕ) : HeapM σ (ℕ × ℕ) := do
  setFoot block size
  pure (block, size)

/-- What is left of the block goes back to the list. -/
def relistBlock (block size : ℕ) : HeapM σ Unit :=
  if block ≠ 0 ∧ size ≠ 0 then do
    setSizeAndPinuse block size
    insertChunk block
  else pure ()

/-- The end of `free`. -/
def releaseBlock (block size : ℕ) : HeapM σ Unit := do
  let h ← getHeap
  let left ←
    if add32 block size = h.endAddr then shrinkAround P block size else footBlock block size
  relistBlock left.1 left.2

def free (ptr : ℕ) : HeapM σ Unit :=
  if ptr = 0 then pure ()
  else do
    let h ← getHeap
    panicUnless "(free) Memory Corrupt" (okAddress ptr h)
    let block := mem2chunk ptr
    panicUnless "(free) Memory Corrupt" (← okInuse block)
    let size ← chunksize block
    let merged ← mergePrev block size
    let size ← mergeNext merged.1 merged.2
    releaseBlock P merged.1 size

/-- Where the aligned chunk starts in a chunk whose memory is not aligned. -/
def alignedPos (chunk mem : ℕ) : ℕ :=
  let br := mem2chunk (add32 (mem &&& pageMask) pageSize)
  if minChunkSize ≤ sub32 br chunk then br else add32 br pageSize

/-- The part of `palignedAlloc` that cuts the lead off. -/
def splitLead (chunk mem : ℕ) : HeapM σ ℕ :=
  if mem % pageSize ≠ 0 then do
    let newChunk := alignedPos chunk mem
    let leadsize := sub32 newChunk chunk
    let newSize := sub32 (← chunksize chunk) leadsize
    setInuse newChunk newSize
    setSizeAndPinuse chunk leadsize
    setPrevFoot newChunk leadsize
    insertChunk chunk
    pure newChunk
  else pure chunk

/-- The part of `palignedAlloc` that cuts the remainder off. -/
def splitRemainder (chunk nb : ℕ) : HeapM σ Unit := do
  let csize ← chunksize chunk
  if csize > add32 nb minChunkSize then do
    let remainderSize := sub32 csize nb
    let remainder := add32 chunk nb
    setInuse chunk nb
    setInuse remainder remainderSize
    free P (chunk2mem remainder)
  else pure ()

/-- The size that `palignedAlloc` asks `alloc` for. -/
def alignedRequest (size : ℕ) : ℕ :=
  sub32 (add32 (add32 (request2size size) pageSize) minChunkSize) chunkOverhead

def palignedAlloc (size : ℕ) : HeapM σ ℕ := do
  let nb := request2size size
  let mem ← alloc P (alignedRequest size)
  if mem = 0 then pure mem
  else do
    let chunk ← splitLead (mem2chunk mem) mem
    splitRemainder P chunk nb
    let mem := chunk2mem chunk
    assert "chunksize(chunk) >= nb" (nb ≤ (← chunksize chunk))
    assert "((size_t)mem % PAGE_SIZE) == 0" (mem % pageSize = 0)
    assert "cinuse(chunk)" (← cinuse chunk)
    return mem

end Model

/-! ### Sizes and flags as numbers -/

theorem and_high (k j : ℕ) {x : ℕ} (hx : x < 2 ^ (j + k)) :
    x &&& (2 ^ j - 1) <<< k = x / 2 ^ k * 2 ^ k := by
  apply Nat.eq_of_testBit_eq
  intro i
  rw [← Nat.shiftLeft_eq, ← Nat.shiftRight_eq_div_pow, Nat.testBit_and, Nat.testBit_shiftLeft,
    Nat.testBit_shiftLeft, Nat.testBit_shiftRight, Nat.testBit_two_pow_sub_one]
  by_cases hi : k ≤ i
  · by_cases hj : i - k < j
    · simp [hi, hj]
    · have hbit : x.testBit i = false :=
        Nat.testBit_lt_two_pow (hx.trans_le (Nat.pow_le_pow_right Nat.two_pos (by omega)))
      simp [hi, hbit]
  · simp [hi]

theorem and_sizeMask {x : ℕ} (hx : x < 2 ^ 32) : x &&& sizeMask = x / 8 * 8 :=
  and_high 3 29 hx

theorem and_pageMask {x : ℕ} (hx : x < 2 ^ 32) : x &&& pageMask = x / pageSize * pageSize :=
  and_high 12 20 hx

theorem and_pinuseBit (x : ℕ) : x &&& pinuseBit = x % 2 := Nat.and_one_is_mod x

theorem and_cinuseBit (x : ℕ) : x &&& cinuseBit = x / 2 % 2 * 2 := by
  have := Nat.and_two_pow x 1
  rw [show cinuseBit = 2 ^ 1 by rfl, this, Nat.testBit_eq_decide_div_mod_eq]
  rcases Nat.mod_two_eq_zero_or_one (x / 2) with h | h <;> simp [h]

theorem and_inuseBits (x : ℕ) : x &&& (pinuseBit ||| cinuseBit) = x % 4 :=
  Nat.and_two_pow_sub_one_eq_mod x 2

theorem or_low {s f : ℕ} (hs : s % 8 = 0) (hf : f < 8) : s ||| f = s + f := by
  have h := Nat.two_pow_add_eq_or_of_lt (i := 3) (b := f) (by omega) (s / 8)
  rw [show 2 ^ 3 * (s / 8) = s by omega] at h
  exact h.symm

theorem or_pinuseBit (x : ℕ) : x ||| pinuseBit = x / 2 * 2 + 1 := by
  have hsplit : ∀ b < 2 ^ 1, 2 ^ 1 * (x / 2) + b = 2 ^ 1 * (x / 2) ||| b :=
    fun b hb => Nat.two_pow_add_eq_or_of_lt hb (x / 2)
  have hbit : x % 2 ||| pinuseBit = 1 := by
    rcases Nat.mod_two_eq_zero_or_one x with h | h <;> rw [h] <;> rfl
  have hx : 2 ^ 1 * (x / 2) + x % 2 = x := by omega
  calc x ||| pinuseBit = (2 ^ 1 * (x / 2) ||| x % 2) ||| pinuseBit := by
        rw [← hsplit _ (by omega), hx]
    _ = 2 ^ 1 * (x / 2) ||| 1 := by rw [Nat.or_assoc, hbit]
    _ = x / 2 * 2 + 1 := by rw [← hsplit 1 (by omega)]; omega

theorem or_inuse (p : ℕ) {s : ℕ} (hs : s % 8 = 0) :
    p &&& pinuseBit ||| cinuseBit ||| s = s + 2 + p % 2 := by
  have hbits : p % 2 ||| cinuseBit = 2 + p % 2 := by
    rcases Nat.mod_two_eq_zero_or_one p with h | h <;> rw [h] <;> rfl
  rw [and_pinuseBit, hbits, Nat.or_comm, or_low hs (by omega)]
  omega

end JustKernel.Heap
