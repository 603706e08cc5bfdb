import JustKernel.Mm.HeapWellFormed

/-! What a request gets. `palignedAlloc` asks `alloc` for a page and 12 bytes more than its
padded request, cuts off a lead that brings the memory to a page boundary and gives back a
remainder; the slack is enough for every offset of the chunk. The sizes are computed modulo
`2 ^ 32`, and a request within 11 bytes of the end of the range comes out as next to
nothing. -/

namespace JustKernel.Heap

open Memory Halting Links

section Carving

variable {σ : Type} {P : Paging σ} {s : State σ} {free used : List Chunk} {size : ℕ}

/-- The block of `bsize` bytes at `block` is carved for `nb` bytes from the `total` bytes of the
chunk at `chunk`: it starts at a page boundary, a lead before it is a chunk of its own, and so is
a remainder behind it. -/
structure CarvedFrom (nb chunk total block bsize : ℕ) : Prop where
  aligned : (block + 8) % pageSize = 0
  enough : nb ≤ bsize
  parts : ∃ lead rest, block = chunk + lead ∧ lead + bsize + rest = total ∧
    (lead = 0 ∨ minChunkSize ≤ lead ∧ lead % 8 = 0) ∧ (rest = 0 ∨ minChunkSize < rest)

/-- Whatever chunk `alloc` returns, the block is carved from it, and once it is carved the
assertions of `palignedAlloc` hold. -/
def Carves (P : Paging σ) (s : State σ) (size : ℕ) : Prop :=
  ∀ mem t₁ block t₂ t₃, alloc P (alignedRequest size) s = .ok mem t₁ →
    splitLead (mem2chunk mem) mem t₁ = .ok block t₂ → splitRemainder P block (request2size size) t₂ = .ok () t₃ →
    CarvedFrom (request2size size) (mem2chunk mem) (sizeAt t₁.mem (mem2chunk mem)) block (sizeAt t₃.mem block) ∧
      ∃ t, palignedAlloc P size s = .ok (block + 8) t

/-- The pieces of the chunk `n` without its remainder. -/
theorem Trimmed.parts {h h' : HeapT} {m m' : Mem} {free' : List Chunk} {n q : Chunk} {nb : ℕ}
    (ht : Trimmed h m free n nb h' m' free' q) :
    q.addr = n.addr ∧ ∃ rest, q.size + rest = n.size ∧ (rest = 0 ∨ minChunkSize < rest) := by
  cases ht with
  | fitting => exact ⟨rfl, 0, rfl, Or.inl rfl⟩
  | cut hbig hq =>
    rw [hq]
    refine ⟨rfl, n.size - nb, ?_, Or.inr ?_⟩
    · show nb + (n.size - nb) = n.size
      omega
    · unfold minChunkSize
      omega

/-- Once the block is carved, only the assertions are left. -/
theorem palignedAlloc_of_carved {mem block : ℕ} {t₁ t₂ t₃ : State σ} (hne : mem ≠ 0)
    (h₁ : alloc P (alignedRequest size) s = .ok mem t₁) (h₂ : splitLead (mem2chunk mem) mem t₁ = .ok block t₂)
    (h₃ : splitRemainder P block (request2size size) t₂ = .ok () t₃) :
    palignedAlloc P size s = (do
      let mem := chunk2mem block
      assert "chunksize(chunk) >= nb" (request2size size ≤ (← chunksize block))
      assert "((size_t)mem % PAGE_SIZE) == 0" (mem % pageSize = 0)
      assert "cinuse(chunk)" (← cinuse block)
      return mem : HeapM σ ℕ) t₃ := by
  rw [palignedAlloc, bind_of_ok h₁, if_neg hne, bind_of_ok h₂, bind_of_ok h₃]

/-- The carving is right for every heap in order, unless a remainder at the end of the heap meets
an odd header behind it. -/
theorem palignedAlloc_carves (ha : Arranged s.heap s.mem free used) (hsize : size + 11 < 2 ^ 32)
    (hreq : request2size size + 4119 < 2 ^ 32) (hrem : RemainderOk s size) : Carves P s size := by
  obtain ⟨h8, h16, -, -⟩ := request2size_spec hsize
  obtain ⟨hreq₁, hreq₂⟩ := aligned_request hsize hreq
  have hserved := remainderOk_served ha rfl hrem
  have halloc := alloc_ends (P := P) ha (show request2size size + 4108 + 11 < 4294967296 by omega)
  rw [hreq₂] at halloc
  intro mem t₁ block t₂ t₃ hrun₁ hrun₂ hrun₃
  have hcall : alignedRequest size = request2size size + 4108 := hreq₁
  have hrun := fun hne => palignedAlloc_of_carved hne hrun₁ hrun₂ hrun₃
  rw [hcall] at hrun₁
  rw [hrun₁] at halloc
  obtain ⟨free₁, hole, c, rfl, hsv, harr₁, -⟩ := halloc
  generalize request2size size = nb at *
  -- the chunk that `alloc` returned
  obtain ⟨haddr, hle, -, -⟩ := hsv.facts ha
  have hcfit := harr₁.fits c (by simp)
  have hclt := hcfit.placed.lt harr₁.spans
  have hchunk : mem2chunk (c.addr + 8) = c.addr := mem2chunk_add (by omega)
  rw [hchunk] at hrun₂ ⊢
  -- without its lead
  obtain ⟨t₂', free₂, n, hlead, hheap₂, hnaddr, hntop, hled, hlaid₂, -⟩ := splitLead_spec harr₁.toLaid (by omega)
  have harr₂ := hlaid₂.arranged harr₁.geo
  obtain ⟨rfl, rfl⟩ := EStateM.Result.ok.inj (hrun₂.symm.trans hlead)
  obtain ⟨hk8, hkle, hpage, hklow⟩ := leadSize_spec hcfit.addr_aligned
  have hntotal : n.size = c.size - leadSize c.addr := by
    unfold Chunk.top at hntop
    omega
  have harr₂' : Arranged t₂.heap t₂.mem free₂ (n :: used) := hheap₂ ▸ harr₂
  have hbad : nb + 16 < n.size → n.top = t₂.heap.endAddr → ¬BadEnd t₂.mem t₂.heap.endAddr := by
    rw [hheap₂]
    exact hled.end_ok hsv ha harr₁ harr₂ hnaddr hntop (hserved _ _ _ _ _ hsv)
  -- and without its remainder
  have hends := splitRemainder_ends (P := P) harr₂' h8 h16 (by omega) hbad
  rw [hrun₃] at hends
  obtain ⟨free', q, hqaddr, hqle, htrim, harr₃, -⟩ := hends
  obtain ⟨-, rest, hsum, hrest⟩ := htrim.parts
  have hpage' : (q.addr + 8) % pageSize = 0 := by
    rw [hqaddr, hnaddr]
    exact hpage
  rw [(harr₁.usedHead c (by simp)).1, ← hqaddr, (harr₃.usedHead q (by simp)).1]
  refine ⟨⟨hpage', hqle, leadSize c.addr, rest, hqaddr.trans hnaddr, by omega, ?_, hrest⟩, t₃, ?_⟩
  · rcases hklow with ⟨h0, -⟩ | ⟨hk16, -⟩
    · exact Or.inl h0
    · exact Or.inr ⟨hk16, hk8⟩
  · rw [hrun (by omega), ← hqaddr, assertions_hold harr₃.toLaid hqle hpage']

end Carving

theorem remainderOk_page : RemainderOk newHeap 4096 := by
  have hfind := ok_of_returned (show returned (findSmallestChunk 0x2018 newHeap) = some 0x1000000 by decide +kernel)
  have hbig : 0x2018 + 16 ≤ sizeAt newHeap.mem 0x1000000 := by decide +kernel
  have hreq : request2size 4096 + 4112 = 0x2018 := by decide
  intro a k e hserves hsmall
  rw [hreq] at hserves hsmall
  obtain ⟨-, rfl, -⟩ := serves_unique hfind (by decide) hserves
  omega

theorem palignedAlloc_carves_page : Carves readyPaging newHeap 4096 :=
  palignedAlloc_carves (wellFormed_created created_newHeap).arranged (by decide) (by decide) remainderOk_page

/-! Behind the heap there is a word that looks like the header of an empty free chunk, with links
to the block to be carved. Giving back the remainder unlinks that chunk, into the header of the
block. -/

def oddEnd : State Unit :=
  newHeap.setMem (write32 (write32 newHeap.mem 0x1100008 0x1000FF8) 0x110000C 0x100)

/-- What stands behind the heap does not matter. -/
theorem WellFormed.setMem_behind {s : State σ} {free used : List Chunk} {m : Mem} (hw : WellFormed s free used)
    (hm : ∀ x < s.heap.endAddr, m x = s.mem x) : WellFormed (s.setMem m) free used :=
  ⟨⟨(hw.arranged.of_below hm).toLaid, hw.tiled, hw.bySize⟩, hw.geo⟩

theorem wellFormed_oddEnd : WellFormed oddEnd [⟨0x1000000, 0x100000⟩] [] := by
  have hstart : newHeap.heap.startAddr = 0x1000000 := by decide +kernel
  have hend : newHeap.heap.endAddr = 0x1100000 := by decide +kernel
  have hw := wellFormed_created created_newHeap
  rw [oddEnd]
  generalize newHeap = s at *
  rw [hstart, hend] at hw
  refine hw.setMem_behind fun x hx => ?_
  rw [hend] at hx
  have h1 : write32 (write32 s.mem 0x1100008 0x1000FF8) 0x110000C 0x100 x = write32 s.mem 0x1100008 0x1000FF8 x :=
    store_apply_of_not_mem _ _ _ _ _ (by omega)
  have h2 : write32 s.mem 0x1100008 0x1000FF8 x = s.mem x := store_apply_of_not_mem _ _ _ _ _ (by omega)
  exact h1.trans h2

theorem odd_end_breaks_carving : WellFormed oddEnd [⟨0x1000000, 0x100000⟩] [] ∧ ¬Carves readyPaging oddEnd 0xFEFEC := by
  refine ⟨wellFormed_oddEnd, fun h => ?_⟩
  have h₁ := ok_of_returned (show returned (alloc readyPaging (alignedRequest 0xFEFEC) oddEnd) = some 0x1000008 by
    decide +kernel)
  have hchunk : mem2chunk 0x1000008 = 0x1000000 := by decide
  have h₂ := ok_of_returned (show returned (splitLead 0x1000000 0x1000008
    (finalState (alloc readyPaging (alignedRequest 0xFEFEC) oddEnd))) = some 0x1000FF8 by decide +kernel)
  have h₃ := ok_of_returned (show returned (splitRemainder readyPaging 0x1000FF8 (request2size 0xFEFEC)
    (finalState (splitLead 0x1000000 0x1000008 (finalState (alloc readyPaging (alignedRequest 0xFEFEC) oddEnd))))) =
      some () by decide +kernel)
  obtain ⟨-, t, ht⟩ := h _ _ _ _ _ h₁ (by rw [hchunk]; exact h₂) h₃
  have herror := error_of_halted (show halted (palignedAlloc readyPaging 0xFEFEC oddEnd) =
    some (.assert "chunksize(chunk) >= nb") by decide +kernel)
  rw [ht] at herror
  cases herror

/-! ### Sizes -/

section Sizes

variable {σ : Type} {P : Paging σ} {s t : State σ} {free used : List Chunk} {size p : ℕ}

/-- The chunk behind the pointer `p` is not on the free list and has room for `size` bytes. -/
structure Honoured (t : State σ) (p size : ℕ) : Prop where
  taken : ¬OnFreeList t (p - 8)
  enough : size + 4 ≤ sizeAt t.mem (p - 8)

theorem Arranged.honoured {q : Chunk} (ha : Arranged t.heap t.mem free (q :: used)) (hq : size + 4 ≤ q.size) :
    Honoured t (q.addr + 8) size := by
  have hqAll : q ∈ free ++ q :: used := by simp
  constructor
  · rw [Nat.add_sub_cancel, onFreeList_iff ha]
    rintro ⟨d, hd, haddr⟩
    have hdq := ha.addr_inj (List.mem_append_left _ hd) hqAll haddr
    exact ha.not_used hd (hdq ▸ List.mem_cons_self)
  · rw [Nat.add_sub_cancel, (ha.usedHead q (by simp)).1]
    exact hq

theorem alloc_honoured (hw : WellFormed s free used) (hsize : size + 11 < 2 ^ 32) (hrun : alloc P size s = .ok p t) :
    Honoured t p size := by
  have hends := alloc_ends (P := P) hw.arranged hsize
  rw [hrun] at hends
  obtain ⟨free', hole, c, rfl, hsv, harr, -⟩ := hends
  obtain ⟨-, -, hroom, -⟩ := request2size_spec hsize
  obtain ⟨-, hle, -, -⟩ := hsv.facts hw.arranged
  exact harr.honoured (by omega)

theorem palignedAlloc_honoured (hw : WellFormed s free used) (hsize : size + 11 < 2 ^ 32)
    (hreq : request2size size + 4119 < 2 ^ 32) (hrem : RemainderOk s size)
    (hrun : palignedAlloc P size s = .ok p t) : Honoured t p size := by
  have hends := palignedAlloc_ends (P := P) hw.arranged hsize rfl hreq (remainderOk_served hw.arranged rfl hrem)
  rw [hrun] at hends
  obtain ⟨_, _, _, _, _, _, _, _, free', q, rfl, hle, -, -, -, -, -, harr, -⟩ := hends
  obtain ⟨-, -, hroom, -⟩ := request2size_spec hsize
  exact harr.honoured (by omega)

/-- A request only counts with its padding. -/
theorem allocLoop_congr {a b : ℕ} (h : request2size a = request2size b) (n : ℕ) :
    allocLoop P n a = allocLoop P n b := by
  induction n with
  | zero => rfl
  | succ n ih => rw [allocLoop, allocLoop, h, ih]

theorem request2size_wraps (hsize : size < 2 ^ 32) (hwrap : 2 ^ 32 ≤ size + 11) :
    request2size size = 0 ∨ request2size size = 8 := by
  unfold request2size minRequest
  rw [if_neg (by omega), padRequest, add32, and_sizeMask (Nat.mod_lt _ (by decide))]
  unfold chunkOverhead
  omega

end Sizes

/-- A request whose padding wraps is served with a chunk of 0 or 8 bytes. -/
theorem wrapped_request_served {size : ℕ} (hsize : size < 2 ^ 32) (hwrap : 2 ^ 32 ≤ size + 11) :
    ∃ t, alloc readyPaging size newHeap = .ok 0x1000008 t ∧ sizeAt t.mem 0x1000000 ≤ 8 := by
  rcases request2size_wraps hsize hwrap with hreq | hreq
  · rw [alloc, allocLoop_congr (hreq.trans (by decide : 0 = request2size 0xFFFFFFF5))]
    exact ⟨_, ok_of_returned (by decide +kernel), by decide +kernel⟩
  · rw [alloc, allocLoop_congr (hreq.trans (by decide : 8 = request2size 0xFFFFFFFF))]
    exact ⟨_, ok_of_returned (by decide +kernel), by decide +kernel⟩

/-- `alloc` gives every heap in order what it was asked for exactly if the padding does not wrap, and
`palignedAlloc` does if neither padding wraps and no odd header is behind a remainder. -/
theorem requests_honoured (size : ℕ) (hsize : size < 2 ^ 32) :
    ((∀ (σ : Type) (P : Paging σ) (s : State σ) (free used : List Chunk), WellFormed s free used →
        ∀ p t, alloc P size s = .ok p t → Honoured t p size) ↔ size + 11 < 2 ^ 32) ∧
      (size + 11 < 2 ^ 32 → request2size size + 4119 < 2 ^ 32 →
        ∀ (σ : Type) (P : Paging σ) (s : State σ) (free used : List Chunk), WellFormed s free used →
          RemainderOk s size → ∀ p t, palignedAlloc P size s = .ok p t → Honoured t p size) := by
  refine ⟨⟨fun h => ?_, fun hlt σ P s free used hw p t => alloc_honoured hw hlt⟩,
    fun hlt hreq σ P s free used hw hrem p t => palignedAlloc_honoured hw hlt hreq hrem⟩
  by_contra hwrap
  obtain ⟨t, hrun, hsmall⟩ := wrapped_request_served hsize (by omega)
  have := (h Unit readyPaging newHeap _ _ (wellFormed_created created_newHeap) _ t hrun).enough
  simp only [Nat.reduceSub] at this
  omega

theorem requests_honoured_page :
    ∃ t, palignedAlloc readyPaging 4096 newHeap = .ok 0x1001000 t ∧ Honoured t 0x1001000 4096 := by
  have hrun : palignedAlloc readyPaging 4096 newHeap = .ok 0x1001000 _ := ok_of_returned (by decide +kernel)
  exact ⟨_, hrun, (requests_honoured 4096 (by decide)).2 (by decide) (by decide) Unit readyPaging newHeap _ _
    (wellFormed_created created_newHeap) remainderOk_page _ _ hrun⟩

theorem huge_request_not_honoured : ¬∀ (s : State Unit) (free used : List Chunk), WellFormed s free used →
    ∀ p t, alloc readyPaging 0xFFFFFFF5 s = .ok p t → Honoured t p 0xFFFFFFF5 := by
  intro h
  obtain ⟨t, hrun, hsmall⟩ := wrapped_request_served (show 0xFFFFFFF5 < 2 ^ 32 by decide) (by decide)
  have := (h newHeap _ _ (wellFormed_created created_newHeap) _ t hrun).enough
  simp only [Nat.reduceSub] at this
  omega

end JustKernel.Heap
