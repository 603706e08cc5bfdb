import JustKernel.Mm.HeapAligned
import JustKernel.Base.Runs
import Mathlib.Data.List.Forall2

/-! Runs of the heap. A run starts with `createHeap`; callers then ask for blocks,
free the ones they have, and write into the bytes they asked for, while the rest of
the system writes to memory outside the heap. The blocks in the hands of callers are
part of the state of a run. As long as every call finds the tags it relies on in
order, the heap stays arranged, with one used chunk behind every block. -/

namespace JustKernel.Heap

open Memory Halting Links Runs

/-- A block in the hands of a caller: the pointer, and the size that was asked for. -/
structure Block where
  ptr : ℕ
  size : ℕ

structure Run (σ : Type) where
  state : State σ
  live : List Block

inductive Call
  | alloc (size : ℕ)
  | palignedAlloc (size : ℕ)
  | free (b : Block)
  | write (a : ℕ) (v : Byte)
  | other (a : ℕ) (v : Byte)

/-- One event of a run. A call that does not return ends the run. -/
inductive Step {σ : Type} (P : Paging σ) : Run σ → Call → Run σ → Prop
  | alloc {s t : State σ} {live : List Block} {size p : ℕ} : size < 2 ^ 32 →
      Heap.alloc P size s = .ok p t → Step P ⟨s, live⟩ (.alloc size) ⟨t, ⟨p, size⟩ :: live⟩
  | palignedAlloc {s t : State σ} {live : List Block} {size p : ℕ} : size < 2 ^ 32 →
      Heap.palignedAlloc P size s = .ok p t →
      Step P ⟨s, live⟩ (.palignedAlloc size) ⟨t, ⟨p, size⟩ :: live⟩
  | free {s t : State σ} {l r : List Block} {b : Block} : Heap.free P b.ptr s = .ok () t →
      Step P ⟨s, l ++ b :: r⟩ (.free b) ⟨t, l ++ r⟩
  | write {s : State σ} {live : List Block} {b : Block} {a : ℕ} {v : Byte} : b ∈ live →
      b.ptr ≤ a → a < b.ptr + b.size →
      Step P ⟨s, live⟩ (.write a v) ⟨s.setMem (Function.update s.mem a v), live⟩
  | other {s : State σ} {live : List Block} {a : ℕ} {v : Byte} :
      (a < s.heap.startAddr ∨ s.heap.endAddr ≤ a) → (a < s.heap.head ∨ s.heap.head + 8 ≤ a) →
      Step P ⟨s, live⟩ (.other a v) ⟨s.setMem (Function.update s.mem a v), live⟩

/-- A new heap, with the arguments of the kernel's calls: the `Heap_t` lies below the heap, which
has the minimal size at least and lies in the lower half of the address space. -/
def Created {σ : Type} (P : Paging σ) (s : State σ) : Prop :=
  ∃ s₀ placementAddr cr3 start size max perms, placementAddr + 28 ≤ start ∧ heapMinSize ≤ size ∧
    start + size ≤ max ∧ max ≤ 2147483648 ∧ s₀.outside = [] ∧
    createHeap P placementAddr cr3 start size max perms s₀ = .ok () s

/-- The chunk at `c` is on the free list. -/
def OnFreeList {σ : Type} (s : State σ) (c : ℕ) : Prop := Met (nextOf s.mem) s.heap.head (c + 8)

section Create

variable {σ : Type} {P : Paging σ} {s : State σ}

theorem ring_empty {m : Mem} {h : ℕ} (hn : nextOf m h = h) (hp : prevOf m h = h) :
    Ring (nextOf m) (prevOf m) h [] :=
  ⟨by simp, by simp [Follows, hn, hp]⟩

/-- The last lines of `createHeap` put one chunk on the empty list. -/
theorem firstChunk_spec {c : Chunk} (ha : Laid s.heap s.mem [] []) (hc : Fits s.heap c) :
    ∃ m, (do
        setPrevFoot c.addr 0
        setSizeAndPinuse c.addr c.size
        insertChunk c.addr : HeapM σ Unit) s = .ok () (s.setMem m) ∧
      Laid s.heap m [c] [] ∧ pinAt m c.addr = 1 := by
  have hloose : Loose s.heap [] [] c := ⟨hc, by simp⟩
  have hmin := hc.min_le
  have hlt := hc.lt ha.spans
  have harr : Laid s.heap (write32 s.mem c.addr 0) [] [] := by
    refine ha.of_loose hloose ?_
    intro x hx
    unfold Chunk.top at hx
    exact store_apply_of_not_mem _ _ _ _ _ (by omega)
  have hin : inBounds s.heap c.addr := hc.placed.word (k := 0) (by omega)
  have hhead := headIs_write32 ha.spans hc (f := 1) (by omega) (write32 s.mem c.addr 0)
  obtain ⟨l, r, m, hlr, -, hins, harr', hsame⟩ := harr.list_spec hloose (c.size + 1) hhead (.refl _ _)
  obtain ⟨rfl, rfl⟩ := List.append_eq_nil_iff.mp hlr.symm
  refine ⟨m, ?_, harr', ?_⟩
  · rw [setPrevFoot, bind_of_ok (setWord_ok hin _),
      bind_of_ok (setSizeAndPinuse_ok (s := s.setMem (write32 s.mem c.addr 0)) ha.spans hc), setMem_setMem,
      setMem_mem, hins]
  · have hone : ∀ d ∈ [c], Fits s.heap d ∧ (d = c ∨ Apart c d) := by simp [hc]
    have hread : read32 m (c.addr + 4) = _ := hsame.read32 fun u hu => by
      have := off_links ha.spans hc hone u hu
      omega
    have := hc.size_aligned
    unfold Chunk.top at hlt
    rw [pinAt, hread, read32_write32 _ _ _ (by omega)]
    omega

theorem createHeap_ends {placementAddr start size max : ℕ} (cr3 : ℕ) (perms : BitVec 16)
    (hplace : placementAddr + 28 ≤ start) (hmin : heapMinSize ≤ size) (hmax : start + size ≤ max)
    (hlim : max ≤ 2147483648) :
    Ends (fun _ t => t.heap.startAddr = start ∧ t.heap.endAddr = start + size ∧
        Arranged t.heap t.mem [⟨start, size⟩] [] ∧ pinAt t.mem start = 1 ∧ t.outside = s.outside)
      (fun t => t.outside = s.outside) (createHeap P placementAddr cr3 start size max perms s) := by
  have hend : add32 start size = start + size := add32_eq (by omega)
  have hhead : add32 placementAddr 20 = placementAddr + 20 := add32_eq (by omega)
  rw [createHeap, hend, hhead]
  refine (assert_ends _ _ s).bind ?_
  rintro - t ⟨rfl, hstart⟩
  refine (assert_ends _ _ t).bind ?_
  rintro - t ⟨rfl, hpage⟩
  simp only [decide_eq_true_eq] at hstart hpage
  rw [modify_bind_run]
  generalize hh : (⟨start, start + size, max, cr3, perms, placementAddr + 20⟩ : HeapT) = h
  have hhd : h.head = placementAddr + 20 := by rw [← hh]
  have hst : h.startAddr = start := by rw [← hh]
  have hen : h.endAddr = start + size := by rw [← hh]
  have hg : Geometry h := by
    rw [← hh]
    exact ⟨hplace, hstart, hpage, by simp only; omega, hmax, hlim⟩
  have hin : inBounds (t.setHeap h).heap h.head ∧ inBounds (t.setHeap h).heap (h.head + 4) :=
    ⟨Or.inr (Or.inl rfl), Or.inr (Or.inr rfl)⟩
  rw [← hhd, bind_of_ok (setNext_ok hin.1 _), bind_of_ok (setPrev_ok (by exact hin.2) (by omega) _)]
  -- the empty list
  generalize hm : write32 (write32 t.mem h.head h.head) (h.head + 4) h.head = m
  have hring : FreeRing h m [] := by
    rw [← hm]
    apply ring_empty
    · rw [nextOf_writePrev (Or.inl rfl), nextOf_writeNext_same (by omega)]
    · exact prevOf_writePrev_same (by omega)
  have hempty : Laid h m [] [] :=
    ⟨hg.spans, hring, by simp, by simp, by simp, by simp⟩
  refine (call_ends _ _).bind ?_
  intro phys t₁ ht₁
  refine Ends.bind ((callUnit_ends _ _).mono (fun _ _ h => h) fun _ h => h.trans ht₁.2.2.1) ?_
  intro _ t₂ ht₂
  have hmem : t₂.mem = m := (ht₂.1.trans ht₁.1).trans hm
  have hheap : t₂.heap = h := ht₂.2.1.trans ht₁.2.1
  -- the one chunk
  have hfit : Fits t₂.heap ⟨start, size⟩ := by
    rw [hheap]
    unfold pageSize at hstart hpage
    unfold heapMinSize at hmin
    exact fits_mk (by omega) (by omega) (by omega) hst.le hen.ge
  have hempty₂ : Laid t₂.heap t₂.mem [] [] := by
    rw [hheap, hmem]
    exact hempty
  refine (firstChunk_spec hempty₂ hfit).elim ?_
  intro m' hfirst
  have hrun := hfirst.1
  simp only at hrun
  rw [hrun]
  refine ⟨?_, ?_, hfirst.2.1.arranged (hheap ▸ hg), hfirst.2.2, ht₂.2.2.trans ht₁.2.2.1⟩
  · rw [setMem_heap, hheap, hst]
  · rw [setMem_heap, hheap, hen]

end Create

/-! ### What a call finds -/

section Conditions

variable {σ : Type}

/-- Where free memory at the end of the heap begins: at the free chunk that ends there, or at
the end itself. -/
def TopAt (s : State σ) (a : ℕ) : Prop :=
  (OnFreeList s a ∧ a + sizeAt s.mem a = s.heap.endAddr) ∨
    (a = s.heap.endAddr ∧ ∀ d, OnFreeList s d → d + sizeAt s.mem d ≠ s.heap.endAddr)

/-- A request for `nb` bytes will be served from a hole of `k` bytes at `a`, in a heap that ends
at `e`: from the chunk that `findSmallestChunk` finds, or else from the free memory at the end
of the expanded heap. -/
inductive Serves (s : State σ) (nb : ℕ) : ℕ → ℕ → ℕ → Prop
  | hole {t : State σ} {a : ℕ} : findSmallestChunk nb s = .ok a t → a ≠ 0 →
      Serves s nb a (sizeAt s.mem a) s.heap.endAddr
  | grown {t : State σ} {a : ℕ} : findSmallestChunk nb s = .ok 0 t → TopAt s a →
      Serves s nb a (grownEnd s.heap nb - a) (grownEnd s.heap nb)

/-- `PINUSE` of the block is set, or its `prevFoot` is the size of a free chunk that ends there. -/
def BackwardOk (s : State σ) (b : Block) : Prop :=
  pinAt s.mem (b.ptr - 8) = 1 ∨ ∃ d, OnFreeList s d ∧
    d + read32 s.mem (b.ptr - 8) = b.ptr - 8 ∧ sizeAt s.mem d = read32 s.mem (b.ptr - 8)

/-- The chunk of the block is the last one. -/
def EndsHeap (s : State σ) (b : Block) : Prop :=
  b.ptr - 8 + sizeAt s.mem (b.ptr - 8) = s.heap.endAddr

/-- An aligned request leaves no remainder at the end of the heap, or the word behind the heap
does not look like the header of a free chunk that cannot be. -/
def RemainderOk (s : State σ) (size : ℕ) : Prop :=
  ∀ a k e, Serves s (request2size size + 4112) a k e → k < request2size size + 4112 + 16 →
    a + k = e → request2size size + 16 < k - leadSize a → ¬BadEnd s.mem e

end Conditions

/-! ### The chunks behind the blocks -/

/-- `c` is the chunk of the block `b` and has room for what was asked for. -/
def Holds (b : Block) (c : Chunk) : Prop := b.ptr = c.addr + 8 ∧ b.size + 4 ≤ c.size

/-- The heap of a run is arranged, and every live block has its own used chunk. -/
structure Tracked {σ : Type} (r : Run σ) (free used : List Chunk) : Prop where
  arranged : Arranged r.state.heap r.state.mem free used
  holds : List.Forall₂ Holds r.live used

section Tracking

variable {σ : Type} {P : Paging σ} {s t : State σ} {live l r : List Block} {free used : List Chunk}
  {b : Block}

theorem forall₂_middle {α β : Type} {R : α → β → Prop} {l r : List α} {a : α} {bs : List β}
    (h : List.Forall₂ R (l ++ a :: r) bs) :
    ∃ l' b r', bs = l' ++ b :: r' ∧ R a b ∧ List.Forall₂ R (l ++ r) (l' ++ r') := by
  induction l generalizing bs with
  | nil =>
    cases h with
    | cons hab hr => exact ⟨[], _, _, rfl, hab, hr⟩
  | cons x l ih =>
    cases h with
    | cons hx hrest =>
      obtain ⟨l', b, r', rfl, hab, hlr⟩ := ih hrest
      exact ⟨_ :: l', b, r', rfl, hab, .cons hx hlr⟩

theorem onFreeList_iff (ha : Arranged s.heap s.mem free used) {a : ℕ} :
    OnFreeList s a ↔ ∃ c ∈ free, c.addr = a := by
  unfold OnFreeList
  rw [ha.ring.met_iff, List.mem_map]
  constructor
  · rintro ⟨c, hc, heq⟩
    unfold Chunk.node at heq
    exact ⟨c, hc, by omega⟩
  · rintro ⟨c, hc, rfl⟩
    exact ⟨c, hc, rfl⟩

theorem first_unique {l r l' r' : List Chunk} {c c' : Chunk} {nb : ℕ} (heq : l ++ c :: r = l' ++ c' :: r')
    (hl : ∀ d ∈ l, d.size < nb) (hc : nb ≤ c.size) (hl' : ∀ d ∈ l', d.size < nb) (hc' : nb ≤ c'.size) :
    c = c' := by
  have hfind : ∀ {k q : List Chunk} {d : Chunk}, (∀ e ∈ k, e.size < nb) → nb ≤ d.size →
      (k ++ d :: q).find? (fun e => nb ≤ e.size) = some d := by
    intro k q d hk hd
    rw [List.find?_append, List.find?_eq_none.mpr fun e he => by simpa using hk e he]
    simp [hd]
  have h1 := hfind (q := r) hl hc
  rw [heq, hfind hl' hc'] at h1
  exact (Option.some.inj h1).symm

/-- The hole that a request was served from is the one the state before it names. -/
theorem Served.serves {h' : HeapT} {m' : Mem} {free' : List Chunk} {nb : ℕ} {hole c : Chunk}
    (hsv : Served s.heap s.mem free used nb h' m' free' hole c)
    (ha : Arranged s.heap s.mem free used) : Serves s nb hole.addr hole.size h'.endAddr := by
  have hfind := findSmallestChunk_spec ha.spans ha.walkable nb
  cases hsv with
  | @found _ _ l r _ _ hfree hle hfirst _ =>
    rcases hfind with ⟨-, hsmall⟩ | ⟨l', c', r', hfree', hrun, hne, hle', hfirst'⟩
    · have := hsmall hole (by rw [hfree]; simp)
      omega
    · obtain rfl := first_unique (hfree.symm.trans hfree') hfirst hle hfirst' hle'
      have hsize := (ha.freeHead hole (by rw [hfree]; simp)).1
      have := Serves.hole hrun hne
      rwa [hsize] at this
  | grown hsmall hgrown _ _ _ =>
    rcases hfind with ⟨hrun, -⟩ | ⟨l', c', r', hfree', -, -, hle', -⟩
    · have htop : TopAt s hole.addr := by
        cases hgrown with
        | @extend l r _ _ old _ hfree hold htop _ _ =>
          left
          have hmem : old ∈ free := by rw [hfree]; simp
          have haddr : hole.addr = old.addr := by rw [htop]
          rw [haddr, onFreeList_iff ha, (ha.freeHead old hmem).1]
          exact ⟨⟨old, hmem, rfl⟩, hold⟩
        | fresh hnone htop _ _ =>
          right
          refine ⟨by rw [htop], ?_⟩
          intro d hd
          obtain ⟨c, hc, rfl⟩ := (onFreeList_iff ha).mp hd
          rw [(ha.freeHead c hc).1]
          exact hnone c hc
      obtain ⟨-, -, hend, -⟩ := hgrown.top_spec ha.geo
      have hsize : hole.size = grownEnd s.heap nb - hole.addr := by
        unfold Chunk.top at hend
        omega
      rw [hsize]
      exact .grown hrun htop
    · have := hsmall c' (by rw [hfree']; simp)
      omega

/-- The chunk that `findSmallestChunk` finds is the one the request is served from. -/
theorem serves_unique {nb a a' k e : ℕ} (hfind : findSmallestChunk nb s = .ok a t) (ha : a ≠ 0)
    (hserves : Serves s nb a' k e) : a' = a ∧ k = sizeAt s.mem a ∧ e = s.heap.endAddr := by
  cases hserves with
  | hole hfind' =>
    obtain ⟨rfl, -⟩ := EStateM.Result.ok.inj (hfind.symm.trans hfind')
    exact ⟨rfl, rfl, rfl⟩
  | grown hfind' =>
    obtain ⟨rfl, -⟩ := EStateM.Result.ok.inj (hfind.symm.trans hfind')
    exact absurd rfl ha

theorem Tracked.alloc_spec {size : ℕ} (ht : Tracked ⟨s, live⟩ free used)
    (hsize : size + 11 < 4294967296) {p : ℕ} (hrun : alloc P size s = .ok p t) :
    ∃ free' hole c, Tracked ⟨t, ⟨p, size⟩ :: live⟩ free' (c :: used) ∧
      Served s.heap s.mem free used (request2size size) t.heap t.mem free' hole c ∧
      (request2size size + 16 ≤ hole.size ∨ hole.top ≠ t.heap.endAddr → t.outside = s.outside) := by
  have hends := alloc_ends (P := P) ht.arranged hsize
  rw [hrun] at hends
  obtain ⟨free', hole, c, rfl, hsv, harr, hout⟩ := hends
  obtain ⟨-, -, hroom, -⟩ := request2size_spec hsize
  obtain ⟨-, hle, -, -⟩ := hsv.facts ht.arranged
  have hfit : size + 4 ≤ c.size := by omega
  exact ⟨free', hole, c, ⟨harr, .cons ⟨rfl, hfit⟩ ht.holds⟩, hsv, hout⟩

theorem Tracked.block_spec (ht : Tracked ⟨s, l ++ b :: r⟩ free used) :
    ∃ l' c r', used = l' ++ c :: r' ∧ Holds b c ∧ List.Forall₂ Holds (l ++ r) (l' ++ r') ∧
      b.ptr - 8 = c.addr ∧ sizeAt s.mem c.addr = c.size := by
  obtain ⟨l', c, r', rfl, hbc, hlr⟩ := forall₂_middle ht.holds
  have haddr : b.ptr - 8 = c.addr := by rw [hbc.1]; omega
  exact ⟨l', c, r', rfl, hbc, hlr, haddr, (ht.arranged.usedHead c (by simp)).1⟩

theorem Tracked.footOk (ha : Arranged s.heap s.mem free used) (hback : BackwardOk s b) {c : Chunk}
    (haddr : b.ptr - 8 = c.addr) : FootOk s.mem free c := by
  intro h0
  rw [BackwardOk, haddr] at hback
  rcases hback with h1 | ⟨d, hd, htop, hsize⟩
  · omega
  · obtain ⟨e, he, rfl⟩ := (onFreeList_iff ha).mp hd
    exact ⟨e, he, htop, (ha.freeHead e he).1.symm.trans hsize⟩

theorem Tracked.free_spec (ht : Tracked ⟨s, l ++ b :: r⟩ free used) (hback : BackwardOk s b)
    (hend : EndsHeap s b → ¬WildEnd s.heap s.mem) (hrun : Heap.free P b.ptr s = .ok () t) :
    ∃ l' c r' m rest x free', used = l' ++ c :: r' ∧ Holds b c ∧
      Tracked ⟨t, l ++ r⟩ free' (l' ++ r') ∧ x.top = c.top ∧
      Merged s.heap s.mem free c m rest x ∧ Released s.heap m rest x t.heap t.mem free' ∧
      (c.top ≠ s.heap.endAddr → t.outside = s.outside) ∧
      (c.top = s.heap.endAddr → t.heap.endAddr = cutEnd s.heap x.addr) := by
  obtain ⟨l', c, r', rfl, hbc, hlr, haddr, hsize⟩ := ht.block_spec
  have hends := free_ends (P := P) ht.arranged (Tracked.footOk ht.arranged hback haddr) fun htop => by
    apply hend
    rw [EndsHeap, haddr, hsize]
    exact htop
  rw [← hbc.1, hrun] at hends
  obtain ⟨m, rest, x, free', hxtop, hmerged, hrel, harr, hout, hcut⟩ := hends
  exact ⟨l', c, r', m, rest, x, free', rfl, hbc, ⟨harr, hlr⟩, hxtop, hmerged, hrel, hout, hcut⟩

theorem remainderOk_served {size nb : ℕ} (ha : Arranged s.heap s.mem free used)
    (hnb : request2size size = nb) (hrem : RemainderOk s size) :
    ∀ h' m' free' hole c, Served s.heap s.mem free used (nb + 4112) h' m' free' hole c →
      hole.size < nb + 4112 + 16 → hole.top = h'.endAddr →
      nb + 16 < hole.size - leadSize hole.addr → ¬BadEnd s.mem h'.endAddr := by
  intro h' m' free' hole c hsv hsmall htop hbig
  rw [RemainderOk, hnb] at hrem
  exact hrem _ _ _ (hsv.serves ha) hsmall htop hbig

theorem Tracked.palignedAlloc_spec {size nb : ℕ} (ht : Tracked ⟨s, live⟩ free used)
    (hsize : size + 11 < 4294967296) (hnb : request2size size = nb) (hreq : nb + 4119 < 4294967296)
    (hrem : RemainderOk s size) {p : ℕ} (hrun : palignedAlloc P size s = .ok p t) :
    ∃ h₁ m₁ free₁ hole c m₂ free₂ n free' q, Tracked ⟨t, ⟨p, size⟩ :: live⟩ free' (q :: used) ∧
      Served s.heap s.mem free used (nb + 4112) h₁ m₁ free₁ hole c ∧
      Arranged h₁ m₁ free₁ (c :: used) ∧ Led h₁ m₁ free₁ c m₂ free₂ n ∧
      Arranged h₁ m₂ free₂ (n :: used) ∧ Trimmed h₁ m₂ free₂ n nb t.heap t.mem free' q ∧
      (nb + 4112 + 16 ≤ hole.size ∨ hole.top ≠ h₁.endAddr → t.outside = s.outside) := by
  have hends := palignedAlloc_ends (P := P) ht.arranged hsize hnb hreq
    (remainderOk_served ht.arranged hnb hrem)
  rw [hrun] at hends
  obtain ⟨h₁, m₁, free₁, hole, c, m₂, free₂, n, free', q, rfl, hle, hsv, ha₁, hled, ha₂, htrim, harr, hout⟩ :=
    hends
  obtain ⟨-, -, hroom, -⟩ := request2size_spec hsize
  have hfit : size + 4 ≤ q.size := by omega
  exact ⟨h₁, m₁, free₁, hole, c, m₂, free₂, n, free', q, ⟨harr, .cons ⟨rfl, hfit⟩ ht.holds⟩, hsv, ha₁,
    hled, ha₂, htrim, hout⟩

/-- A caller's write to its own bytes. -/
theorem Tracked.write_spec (ht : Tracked ⟨s, live⟩ free used) (hb : b ∈ live) {a : ℕ} (hle : b.ptr ≤ a)
    (hlt : a < b.ptr + b.size) (v : Byte) :
    Tracked ⟨s.setMem (Function.update s.mem a v), live⟩ free used := by
  obtain ⟨l, r, rfl⟩ := List.append_of_mem hb
  obtain ⟨l', c, r', rfl, ⟨hptr, hsize⟩, -, -, -⟩ := ht.block_spec
  refine ⟨?_, ht.holds⟩
  have hfit := ht.arranged.fits c (by simp)
  have haway : ∀ d ∈ free ++ (l' ++ c :: r'), d = c ∨ c.top + 4 ≤ d.addr + 4 ∨ d.addr + 16 ≤ c.addr := by
    intro d hd
    by_cases hdc : d = c
    · exact Or.inl hdc
    · right
      have hap := ht.arranged.apart_of_ne hd (by simp) hdc
      have := (ht.arranged.fits d hd).min_le
      unfold Apart Chunk.top at hap
      unfold Chunk.top
      omega
  have hne : ∀ d ∈ free, d ≠ c := by
    rintro d hd rfl
    have h0 := (ht.arranged.freeHead d hd).2
    have h1 := (ht.arranged.usedHead d (by simp)).2
    omega
  refine (ht.arranged.of_region (c.addr + 8) (c.top + 4) (by have := hfit.start_le; omega) ?_ ?_ ?_ ?_).arranged
    ht.arranged.geo
  · intro d hd
    rcases haway d (List.mem_append_left _ hd) with h | h
    · exact absurd h (hne d hd)
    · omega
  · intro d hd
    rcases haway d (List.mem_append_right _ hd) with rfl | h | h
    · omega
    · omega
    · omega
  · have := hfit.top_le
    omega
  · intro x hx
    rw [setMem_mem]
    exact Function.update_of_ne (by unfold Chunk.top at hx; omega) _ _

/-- A write outside the heap. -/
theorem Tracked.other_spec (ht : Tracked ⟨s, live⟩ free used) {a : ℕ}
    (hout : a < s.heap.startAddr ∨ s.heap.endAddr ≤ a) (hhead : a < s.heap.head ∨ s.heap.head + 8 ≤ a)
    (v : Byte) : Tracked ⟨s.setMem (Function.update s.mem a v), live⟩ free used := by
  refine ⟨(ht.arranged.of_bytes ?_ ?_).arranged ht.arranged.geo, ht.holds⟩
  · intro c hc x h1 h2
    have hp := (ht.arranged.fits c hc).placed
    have := hp.start_le
    have := hp.le_end
    exact Function.update_of_ne (by simp only at *; omega) _ _
  · intro u hu x h1 h2
    apply Function.update_of_ne
    rcases List.mem_cons.mp hu with rfl | hu
    · simp only at *
      omega
    · obtain ⟨c, hc, rfl⟩ := List.mem_map.mp hu
      have hp := (ht.arranged.fits c (List.mem_append_left _ hc)).placed
      have := hp.start_le
      have := hp.le_end
      unfold Chunk.node at h1 h2
      simp only at *
      omega

theorem tracked_created (hs : Created P s) :
    ∃ c, Tracked ⟨s, []⟩ [c] [] ∧ c.addr = s.heap.startAddr ∧ c.top = s.heap.endAddr ∧
      pinAt s.mem c.addr = 1 ∧ s.outside = [] := by
  obtain ⟨s₀, placementAddr, cr3, start, size, max, perms, h1, h2, h3, h4, h5, hrun⟩ := hs
  have hends := createHeap_ends (P := P) (s := s₀) cr3 perms h1 h2 h3 h4
  rw [hrun] at hends
  obtain ⟨hstart, hend, harr, hpin, hout⟩ := hends
  exact ⟨⟨start, size⟩, ⟨harr, .nil⟩, hstart.symm, hend.symm, hpin, hout.trans h5⟩

end Tracking

/-! ### A heap to run on

The memory managers that always succeed, as far as the law of `pmm_alloc` allows, and the kernel
heap that `createHeap` makes with them, on memory that holds only zeroes. -/

def readyPaging : Paging Unit where
  pmmAlloc size _ := if size ≤ 131071 * pageSize then some (0x2000000, ()) else none
  pmmUnalloc _ _ _ := some ()
  vmmMapPages _ _ _ _ _ _ := some ()
  vmmMap _ _ _ _ _ := some ()
  vmmUnmapPages _ _ _ _ := some ()
  isMapped _ _ _ := (true, ())
  virtToPhys _ _ _ := (0xFFFFFFFF, ())
  pmmAlloc_le := by
    intro size s phys s' _ _ h
    by_contra hle
    simp [hle] at h

def zeroState : State Unit := ⟨fun _ => 0, ⟨0, 0, 0, 0, 0, 0⟩, (), []⟩

def newHeap : State Unit :=
  finalState (createHeap readyPaging 0x800000 0x5000 0x1000000 0x100000 0x2000000 2 zeroState)

theorem created_newHeap : Created readyPaging newHeap :=
  ⟨zeroState, 0x800000, 0x5000, 0x1000000, 0x100000, 0x2000000, 2, by decide, by decide, by decide,
    by decide, rfl, ok_of_returned (by decide +kernel)⟩

end JustKernel.Heap
