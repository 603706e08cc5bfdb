import JustKernel.Mm.HeapRuns

/-! How `free` trims the end of the heap. A block that ends the heap leaves with its pages, or
what is left of it after `contract` stays behind as a free chunk. The block's offset in its
page decides how much that is; for a block of the minimal size the offset that is asked of
`contract` is the whole heap, and its assertion fails. -/

namespace JustKernel.Heap

open Memory Halting Links

section Trim

variable {σ : Type} {P : Paging σ} {s t : State σ} {b : Chunk}

abbrev contractAssertion : String := "newSize < heap->endAddr - heap->startAddr"

/-- After the trim the block is gone, or what is left of it ends the heap. -/
structure TrimmedTo (h : HeapT) (b : Chunk) (left : ℕ × ℕ) : Prop where
  aligned : h.endAddr % pageSize = 0
  min_le : h.startAddr + heapMinSize ≤ h.endAddr
  left : left = (0, 0) ∧ b.addr = h.endAddr ∨
    ∃ k, left = (b.addr, k) ∧ minChunkSize ≤ k ∧ b.addr + k = h.endAddr

/-- What is left of the block, in a heap whose other chunks are in order, is on the free list or
gone from the heap. -/
def LeftFree (t : State σ) (b : Chunk) : Prop :=
  b.addr = t.heap.endAddr ∨ OnFreeList t b.addr ∧ usedAt t.mem b.addr = 0 ∧
    minChunkSize ≤ sizeAt t.mem b.addr ∧ b.addr + sizeAt t.mem b.addr = t.heap.endAddr

/-- The contraction branch of `free` for the block `b`: the assertion of `contract` holds, the
heap ends at a page boundary that `b` ends at or is gone from, and so it is after `free` has put
what is left of the block back to the list. -/
structure Trims (P : Paging σ) (s : State σ) (b : Chunk) : Prop where
  assertion : ∀ t, shrinkAround P b.addr b.size s ≠ .error (.assert contractAssertion) t
  left : ∀ left t, shrinkAround P b.addr b.size s = .ok left t → TrimmedTo t.heap b left
  free : ∀ free used t, Arranged s.heap s.mem free used → Loose s.heap free used b →
    releaseBlock P b.addr b.size s = .ok () t → t.heap.endAddr % pageSize = 0 ∧
      t.heap.startAddr + heapMinSize ≤ t.heap.endAddr ∧ LeftFree t b

/-! ### The assertion -/

theorem call_error {α : Type} {f : σ → Option (α × σ)} {e : Halt} (h : call f s = .error e t) : e = .paging := by
  cases hf : f s.pages with
  | none =>
    rw [call, get_bind_run, hf] at h
    cases h
    rfl
  | some v =>
    rw [call, get_bind_run, hf] at h
    cases h

/-- Taking the pages away fails in the memory managers only. -/
theorem unmapTail_error {h : HeapT} {newEnd size : ℕ} {e : Halt} (hrun : unmapTail P h newEnd size s = .error e t) :
    e = .paging := by
  rw [unmapTail] at hrun
  rcases bind_eq_error.mp hrun with hrun | ⟨_, _, -, hrun⟩
  · exact call_error hrun
  rcases bind_eq_error.mp hrun with hrun | ⟨_, _, -, hrun⟩
  · exact call_error hrun
  rcases bind_eq_error.mp hrun with hrun | ⟨_, _, -, hrun⟩
  · exact call_error hrun
  split at hrun
  · exact call_error hrun
  · cases hrun

/-- The size that the block asks of `contract`. -/
theorem trimmed_size (hg : PagedHeap s.heap) (hb : LastBlock s.heap b) :
    sub32 s.heap.endAddr s.heap.startAddr = b.addr - s.heap.startAddr + b.size ∧
      (if sub32 b.addr s.heap.startAddr % pageSize ≠ 0 then add32 (sub32 b.addr s.heap.startAddr) minChunkSize
        else sub32 b.addr s.heap.startAddr) =
      if (b.addr - s.heap.startAddr) % 4096 = 0 then b.addr - s.heap.startAddr
      else b.addr - s.heap.startAddr + 16 := by
  have hlt := hg.end_lt
  have hmin := hb.min_le
  have hstart := hb.start_le
  have htop := hb.top_eq
  unfold Chunk.top at htop
  have hoff : sub32 b.addr s.heap.startAddr = b.addr - s.heap.startAddr := sub32_eq (by omega) hstart
  rw [hoff, add32_eq (by unfold minChunkSize at *; omega), sub32_eq (by omega) (by omega)]
  unfold pageSize minChunkSize
  refine ⟨by omega, ?_⟩
  split_ifs
  all_goals omega

/-- The assertion of `contract` fails for a block of the minimal size. -/
theorem shrinkAround_min (hg : PagedHeap s.heap) (hb : LastBlock s.heap b) (hsize : b.size = minChunkSize) :
    shrinkAround P b.addr b.size s = .error (.assert contractAssertion) s := by
  obtain ⟨htotal, hasked⟩ := trimmed_size hg hb
  -- the block starts 16 bytes before a page boundary
  have hoff : (b.addr - s.heap.startAddr) % 4096 ≠ 0 := by
    have hsa := hg.start_aligned
    have hea := hg.end_aligned
    have hstart := hb.start_le
    have htop := hb.top_eq
    unfold pageSize at hsa hea
    unfold Chunk.top minChunkSize at *
    omega
  rw [if_neg hoff] at hasked
  have hfalse : decide (b.addr - s.heap.startAddr + 16 < b.addr - s.heap.startAddr + b.size) = false := by
    rw [decide_eq_false_iff_not, hsize]
    unfold minChunkSize
    omega
  have hcontract : contract P (b.addr - s.heap.startAddr + 16) s = .error (.assert contractAssertion) s := by
    rw [contract, bind_of_ok (getHeap_run s), htotal, hfalse]
    rfl
  rw [shrinkAround, bind_of_ok (getHeap_run s), hasked]
  exact bind_of_error hcontract

/-- For every larger block it holds. -/
theorem shrinkAround_assertion (hg : PagedHeap s.heap) (hb : LastBlock s.heap b) (hsize : b.size ≠ minChunkSize) :
    shrinkAround P b.addr b.size s ≠ .error (.assert contractAssertion) t := by
  intro hrun
  obtain ⟨htotal, hasked⟩ := trimmed_size hg hb
  rw [shrinkAround, bind_of_ok (getHeap_run s), hasked] at hrun
  have htrue : ∀ n, (n = b.addr - s.heap.startAddr ∨ n = b.addr - s.heap.startAddr + 16) →
      decide (n < b.addr - s.heap.startAddr + b.size) = true := by
    intro n hn
    have := hb.min_le
    rw [decide_eq_true_eq]
    unfold minChunkSize at *
    omega
  generalize hn : (if (b.addr - s.heap.startAddr) % 4096 = 0 then b.addr - s.heap.startAddr
    else b.addr - s.heap.startAddr + 16) = n at hrun
  have hn' : n = b.addr - s.heap.startAddr ∨ n = b.addr - s.heap.startAddr + 16 := by
    rw [← hn]
    split_ifs
    · exact Or.inl rfl
    · exact Or.inr rfl
  rcases bind_eq_error.mp hrun with hrun | ⟨_, _, -, hrun⟩
  · rw [contract, bind_of_ok (getHeap_run s), htotal, htrue n hn', assert, if_pos rfl, pure_bind_run,
      modify_bind_run] at hrun
    rcases bind_eq_error.mp hrun with hrun | ⟨_, _, -, hrun⟩
    · cases unmapTail_error hrun
    · cases hrun
  · split at hrun
    · cases hrun
    · cases hrun

/-! ### The new end -/

theorem shrinkAround_trims (hg : PagedHeap s.heap) (hb : LastBlock s.heap b) {left : ℕ × ℕ}
    (hrun : shrinkAround P b.addr b.size s = .ok left t) : TrimmedTo t.heap b left := by
  have hends := shrinkAround_ends (P := P) hg hb
  rw [hrun] at hends
  obtain ⟨-, e, hheap, -, hpage, hmin, -, hleft⟩ := hends
  rw [hheap]
  refine ⟨hpage, hmin, ?_⟩
  rcases hleft with ⟨he, hl⟩ | ⟨hroom, hl⟩
  · exact Or.inl ⟨hl, he.symm⟩
  · exact Or.inr ⟨e - b.addr, hl, Nat.le_sub_of_add_le' hroom, Nat.add_sub_of_le (by omega)⟩

/-- What `free` leaves in an arranged heap. -/
theorem releaseBlock_leftFree {free used : List Chunk} (ha : Arranged s.heap s.mem free used)
    (hx : Loose s.heap free used b) (htop : b.top = s.heap.endAddr) (hrun : releaseBlock P b.addr b.size s = .ok () t) :
    t.heap.endAddr % pageSize = 0 ∧ t.heap.startAddr + heapMinSize ≤ t.heap.endAddr ∧ LeftFree t b := by
  have hends := releaseBlock_end (P := P) ha hx htop
  rw [hrun] at hends
  obtain ⟨free', hrel, ha', -⟩ := hends
  refine ⟨ha'.geo.end_aligned, ha'.geo.min_le, ?_⟩
  have hfree : ∀ y ∈ free', y.addr = b.addr → y.top = t.heap.endAddr → LeftFree t b := by
    intro y hy haddr hytop
    obtain ⟨hsize, hused⟩ := ha'.freeHead y hy
    rw [haddr] at hsize hused
    unfold Chunk.top at hytop
    refine Or.inr ⟨(onFreeList_iff ha').mpr ⟨y, hy, haddr⟩, hused, ?_, ?_⟩
    · rw [hsize]
      exact (ha'.fits y (List.mem_append_left _ hy)).min_le
    · rw [hsize, ← haddr]
      exact hytop
  generalize htheap : t.heap = h' at hrel
  generalize htmem : t.mem = m' at hrel
  cases hrel with
  | footed hne => exact absurd htop hne
  | gone _ hm =>
    left
    rw [htheap]
    rfl
  | @shrunk _ _ _ _ e y _ hroom hy _ _ _ =>
    refine hfree y (by simp) (by rw [hy]) ?_
    rw [htheap, hy]
    show b.addr + (e - b.addr) = e
    omega

/-- A block that ends the heap is trimmed, unless it has the minimal size. -/
theorem trims_iff (hg : PagedHeap s.heap) (hb : LastBlock s.heap b) : Trims P s b ↔ b.size ≠ minChunkSize := by
  constructor
  · intro h hsize
    exact h.assertion s (shrinkAround_min hg hb hsize)
  · intro hsize
    exact ⟨fun t => shrinkAround_assertion hg hb hsize, fun left t => shrinkAround_trims hg hb,
      fun free used t ha hx => releaseBlock_leftFree ha hx hb.top_eq⟩

end Trim

/-! A heap that is filled up but for its last 16 bytes, and a block of these. -/

def afterFilled : State Unit := finalState (alloc readyPaging 0xFFFEC newHeap)

def afterLast : State Unit := finalState (alloc readyPaging 8 afterFilled)

theorem pagedHeap_afterLast : PagedHeap afterLast.heap :=
  ⟨by decide +kernel, by decide +kernel, by decide +kernel, by decide +kernel⟩

theorem last_block_not_trimmed : (∃ t, free readyPaging 0x10FFFF8 afterLast = .error (.assert contractAssertion) t) ∧
    ¬∀ b, LastBlock afterLast.heap b → Trims readyPaging afterLast b := by
  refine ⟨⟨_, error_of_halted (by decide +kernel)⟩, fun h => ?_⟩
  have hb : LastBlock afterLast.heap ⟨0x10FFFF0, 16⟩ :=
    ⟨by decide, by decide, by decide +kernel, by decide +kernel⟩
  exact (h _ hb).assertion afterLast (shrinkAround_min pagedHeap_afterLast hb rfl)

/-! The block of the rest of the heap, behind one of 104 bytes. -/

def afterRest : State Unit := finalState (alloc readyPaging 0xFFF94 (finalState (alloc readyPaging 100 newHeap)))

theorem trims_rest : Trims readyPaging afterRest ⟨0x1000068, 0xFFF98⟩ := by
  have hg : PagedHeap afterRest.heap := ⟨by decide +kernel, by decide +kernel, by decide +kernel, by decide +kernel⟩
  have hb : LastBlock afterRest.heap ⟨0x1000068, 0xFFF98⟩ :=
    ⟨by decide, by decide, by decide +kernel, by decide +kernel⟩
  exact (trims_iff hg hb).mpr (by decide)

end JustKernel.Heap
