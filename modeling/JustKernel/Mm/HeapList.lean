import JustKernel.Mm.Heap
import Mathlib.Data.List.Perm.Subperm
import Mathlib.Tactic.SplitIfs

/-! The free list of the heap. A free chunk is a node of a ring through the list
head, and the operations of `mm/heap.c` on the list read and write nothing but the
words of chunks in the heap and of the list head: they search the ring, take a
chunk out of it, or put one into it, and leave every byte alone that is no link
of a node. -/

namespace JustKernel.Heap

open Memory Halting Links

variable {σ : Type}

/-! ### Single accesses -/

@[simp] theorem touch_mem (s : State σ) (a : ℕ) : (s.touch a).mem = s.mem := by
  rw [State.touch]; split_ifs <;> rfl

@[simp] theorem touch_heap (s : State σ) (a : ℕ) : (s.touch a).heap = s.heap := by
  rw [State.touch]; split_ifs <;> rfl

@[simp] theorem touch_pages (s : State σ) (a : ℕ) : (s.touch a).pages = s.pages := by
  rw [State.touch]; split_ifs <;> rfl

theorem touch_of_inBounds {s : State σ} {a : ℕ} (h : inBounds s.heap a) : s.touch a = s := if_pos h

@[simp] theorem setMem_mem (s : State σ) (m : Mem) : (s.setMem m).mem = m := rfl

@[simp] theorem setMem_heap (s : State σ) (m : Mem) : (s.setMem m).heap = s.heap := rfl

@[simp] theorem setMem_setMem (s : State σ) (m m' : Mem) : (s.setMem m).setMem m' = s.setMem m' := rfl

theorem getHeap_run (s : State σ) : getHeap s = .ok s.heap s := rfl

theorem getWord_run (a : ℕ) (s : State σ) : getWord a s = .ok (read32 s.mem a) (s.touch a) := by
  have h : getWord a s = .ok (read32 (s.touch a).mem a) (s.touch a) := rfl
  rw [h, touch_mem]

theorem setWord_run (a v : ℕ) (s : State σ) :
    setWord a v s = .ok () ((s.touch a).setMem (write32 s.mem a v)) := by
  have h : setWord a v s = .ok () ((s.touch a).setMem (write32 (s.touch a).mem a v)) := rfl
  rw [h, touch_mem]

theorem getWord_ok {a : ℕ} {s : State σ} (h : inBounds s.heap a) :
    getWord a s = .ok (read32 s.mem a) s := by
  rw [getWord_run, touch_of_inBounds h]

theorem setWord_ok {a : ℕ} {s : State σ} (h : inBounds s.heap a) (v : ℕ) :
    setWord a v s = .ok () (s.setMem (write32 s.mem a v)) := by
  rw [setWord_run, touch_of_inBounds h]

theorem add32_eq {a b : ℕ} (h : a + b < 4294967296) : add32 a b = a + b := Nat.mod_eq_of_lt h

theorem sub32_eq {a b : ℕ} (ha : a < 4294967296) (h : b ≤ a) : sub32 a b = a - b := by
  rw [sub32]; omega

theorem mem2chunk_add {c : ℕ} (hc : c + 8 < 4294967296) : mem2chunk (c + 8) = c := by
  rw [mem2chunk, sub32_eq hc (by omega), Nat.add_sub_cancel]

theorem okAddress_of_le {p : ℕ} {h : HeapT} (hlow : h.startAddr ≤ p) (hhigh : p < h.endAddr) : okAddress p h = true := by
  simp only [okAddress, Bool.and_eq_true, decide_eq_true_eq]
  exact ⟨hlow, hhigh⟩

/-! ### The shape of the heap -/

/-- What the list needs of the bounds: the heap is in memory, and the head of the list neither in it
nor in the word behind its end. -/
structure Spans (h : HeapT) : Prop where
  start_ge : 16 ≤ h.startAddr
  end_mod : h.endAddr % 8 = 0
  end_lt : h.endAddr < 4294967296
  head_apart : h.head + 8 ≤ h.startAddr ∨ h.endAddr + 8 ≤ h.head
  head_top : h.head + 8 ≤ 4294967296

/-- What every heap the kernel creates keeps: its `Heap_t` lies below it, its bounds are page
boundaries, and it never falls below the minimal size. -/
structure Geometry (h : HeapT) : Prop where
  head_le : h.head + 8 ≤ h.startAddr
  start_aligned : h.startAddr % pageSize = 0
  end_aligned : h.endAddr % pageSize = 0
  min_le : h.startAddr + heapMinSize ≤ h.endAddr
  end_le : h.endAddr ≤ h.maxAddr
  max_le : h.maxAddr ≤ 2147483648

structure Chunk where
  addr : ℕ
  size : ℕ
  deriving DecidableEq

/-- The address of the list node in a chunk. -/
def Chunk.node (c : Chunk) : ℕ := c.addr + 8

/-- The address after the last byte of a chunk. -/
def Chunk.top (c : Chunk) : ℕ := c.addr + c.size

/-- The header and the links of a chunk at `c` are in the heap. -/
structure Placed (h : HeapT) (c : ℕ) : Prop where
  aligned : c % 8 = 0
  start_le : h.startAddr ≤ c
  le_end : c + 16 ≤ h.endAddr

theorem mem_middle {α : Type} {l r : List α} {a b : α} : b ∈ l ++ a :: r ↔ b = a ∨ b ∈ l ++ r := by
  simp only [List.mem_append, List.mem_cons]
  exact or_left_comm

/-- The nodes of the chunks on the free list. -/
abbrev nodes (cs : List Chunk) : List ℕ := cs.map Chunk.node

/-- The free list holds the chunks `free` in this order. -/
def FreeRing (h : HeapT) (m : Mem) (free : List Chunk) : Prop :=
  Ring (nextOf m) (prevOf m) h.head (nodes free)

/-- The size that a chunk's header tells. -/
def sizeAt (m : Mem) (c : ℕ) : ℕ := read32 m (c + 4) / 8 * 8

/-- The list can be walked. -/
structure Walkable (h : HeapT) (m : Mem) (free : List Chunk) : Prop where
  ring : FreeRing h m free
  placed : ∀ c ∈ free, Placed h c.addr
  size : ∀ c ∈ free, sizeAt m c.addr = c.size

section Bounds

variable {h : HeapT} {c : ℕ}

theorem Placed.word (hc : Placed h c) {k : ℕ} (hk : k + 4 ≤ 16) : inBounds h (c + k) := by
  obtain ⟨-, h1, h2⟩ := hc
  exact Or.inl ⟨by omega, by omega⟩

theorem Placed.lt (hc : Placed h c) (hs : Spans h) : c + 16 < 4294967296 := hc.le_end.trans_lt hs.end_lt

theorem Placed.ge (hc : Placed h c) (hs : Spans h) : 16 ≤ c := hs.start_ge.trans hc.start_le

/-- The head of the list is none of the nodes. -/
theorem Placed.head_apart (hc : Placed h c) (hs : Spans h) : h.head + 16 ≤ c + 8 ∨ c + 16 < h.head := by
  have := hc.start_le
  have := hc.le_end
  have := hs.head_apart
  omega

theorem Geometry.spans (hg : Geometry h) : Spans h := by
  obtain ⟨hhead, hstart, hend, hmin, hle, hmax⟩ := hg
  unfold pageSize heapMinSize at *
  exact ⟨by omega, by omega, by omega, Or.inl hhead, by omega⟩

/-- The list head and the nodes of chunks in the heap share no byte. -/
theorem separated_nodes (hs : Spans h) {cs : List Chunk} (hcs : ∀ c ∈ cs, Placed h c.addr) :
    Separated (h.head :: nodes cs) := by
  have hnode : ∀ u ∈ nodes cs, u % 8 = 0 ∧ (h.head + 8 ≤ u ∨ u + 8 ≤ h.head) := by
    intro u hu
    obtain ⟨c, hc, rfl⟩ := List.mem_map.mp hu
    have := (hcs c hc).aligned
    have := (hcs c hc).head_apart hs
    unfold Chunk.node
    omega
  intro u hu v hv
  rcases List.mem_cons.mp hu with rfl | hu <;> rcases List.mem_cons.mp hv with rfl | hv
  · exact Or.inl rfl
  · have := hnode v hv
    omega
  · have := hnode u hu
    omega
  · have := hnode u hu
    have := hnode v hv
    omega

theorem nodes_lt (hs : Spans h) {cs : List Chunk} (hcs : ∀ c ∈ cs, Placed h c.addr) :
    ∀ u ∈ h.head :: nodes cs, u < 4294967296 := by
  intro u hu
  rcases List.mem_cons.mp hu with rfl | hu
  · have := hs.head_top
    omega
  · obtain ⟨c, hc, rfl⟩ := List.mem_map.mp hu
    have := (hcs c hc).lt hs
    unfold Chunk.node
    omega

/-- Both words of a node on the list may be touched. -/
theorem node_inBounds {cs : List Chunk} (hcs : ∀ c ∈ cs, Placed h c.addr) {u : ℕ}
    (hu : u ∈ h.head :: nodes cs) : inBounds h u ∧ inBounds h (u + 4) := by
  rcases List.mem_cons.mp hu with rfl | hu
  · exact ⟨Or.inr (Or.inl rfl), Or.inr (Or.inr rfl)⟩
  · obtain ⟨c, hc, rfl⟩ := List.mem_map.mp hu
    exact ⟨(hcs c hc).word (by omega), (hcs c hc).word (k := 12) (by omega)⟩

end Bounds

/-! ### Headers of placed chunks -/

section Headers

variable {s : State σ} {c : ℕ}

theorem getHead_run (hc : c + 4 < 4294967296) (s : State σ) :
    getHead c s = .ok (read32 s.mem (c + 4)) (s.touch (c + 4)) := by
  rw [getHead, add32_eq hc, getWord_run]

theorem setHead_run (hc : c + 4 < 4294967296) (v : ℕ) (s : State σ) :
    setHead c v s = .ok () ((s.touch (c + 4)).setMem (write32 s.mem (c + 4) v)) := by
  rw [setHead, add32_eq hc, setWord_run]

theorem chunksize_run (hc : c + 4 < 4294967296) (s : State σ) :
    chunksize c s = .ok (sizeAt s.mem c) (s.touch (c + 4)) := by
  rw [chunksize, bind_of_ok (getHead_run hc s), pure_run, and_sizeMask (read32_lt s.mem _), sizeAt]

theorem chunksize_ok (hs : Spans s.heap) (hc : Placed s.heap c) :
    chunksize c s = .ok (sizeAt s.mem c) s := by
  have hlt := hc.lt hs
  rw [chunksize_run (by omega), touch_of_inBounds (hc.word (by omega))]

theorem setHead_ok (hs : Spans s.heap) (hc : Placed s.heap c) (v : ℕ) :
    setHead c v s = .ok () (s.setMem (write32 s.mem (c + 4) v)) := by
  have hlt := hc.lt hs
  rw [setHead_run (by omega), touch_of_inBounds (hc.word (by omega))]

end Headers

/-! ### Unlinking and linking -/

section Links

variable {s : State σ}

theorem getPrev_ok {u : ℕ} (hu : inBounds s.heap (u + 4)) (hlt : u + 4 < 4294967296) :
    getPrev u s = .ok (prevOf s.mem u) s := by
  rw [getPrev, add32_eq hlt, getWord_ok hu, prevOf]

theorem setPrev_ok {u : ℕ} (hu : inBounds s.heap (u + 4)) (hlt : u + 4 < 4294967296) (v : ℕ) :
    setPrev u v s = .ok () (s.setMem (write32 s.mem (u + 4) v)) := by
  rw [setPrev, add32_eq hlt, setWord_ok hu]

theorem getNext_ok {u : ℕ} (hu : inBounds s.heap u) : getNext u s = .ok (nextOf s.mem u) s :=
  getWord_ok hu

theorem setNext_ok {u : ℕ} (hu : inBounds s.heap u) (v : ℕ) :
    setNext u v s = .ok () (s.setMem (write32 s.mem u v)) :=
  setWord_ok hu v

theorem listDelEntry_run {u p n : ℕ} (hp : prevOf s.mem u = p) (hn : nextOf s.mem u = n)
    (hu : inBounds s.heap u ∧ inBounds s.heap (u + 4)) (hpb : inBounds s.heap p)
    (hnb : inBounds s.heap (n + 4)) (hult : u + 4 < 4294967296) (hnlt : n + 4 < 4294967296) :
    listDelEntry u s = .ok () (s.setMem (unlink s.mem p n)) := by
  rw [listDelEntry, bind_of_ok (getPrev_ok hu.2 hult), bind_of_ok (getNext_ok hu.1), hp, hn, listDel,
    bind_of_ok (setPrev_ok hnb hnlt p), setNext_ok (by exact hpb)]
  rfl

theorem listAddTail_run {x p n : ℕ} (hp : prevOf s.mem n = p)
    (hx : inBounds s.heap x ∧ inBounds s.heap (x + 4)) (hpb : inBounds s.heap p)
    (hnb : inBounds s.heap (n + 4)) (hxlt : x + 4 < 4294967296) (hnlt : n + 4 < 4294967296) :
    listAddTail x n s = .ok () (s.setMem (link s.mem x p n)) := by
  rw [listAddTail, bind_of_ok (getPrev_ok hnb hnlt), hp, listAdd, bind_of_ok (setPrev_ok hnb hnlt x),
    bind_of_ok (setNext_ok (by exact hx.1) n), bind_of_ok (setPrev_ok (by exact hx.2) hxlt p),
    setNext_ok (by exact hpb)]
  rfl

/-- `removeChunk` takes a chunk of the list out of it. -/
theorem removeChunk_spec {l r : List Chunk} {x : Chunk} (hs : Spans s.heap)
    (hring : FreeRing s.heap s.mem (l ++ x :: r)) (hpl : ∀ c ∈ l ++ x :: r, Placed s.heap c.addr) :
    ∃ m, removeChunk x.addr s = .ok () (s.setMem m) ∧ FreeRing s.heap m (l ++ r) ∧
      SameOff (s.heap.head :: nodes (l ++ r)) s.mem m := by
  have hpl' : ∀ c ∈ l ++ r, Placed s.heap c.addr := fun c hc => hpl c (mem_middle.mpr (Or.inr hc))
  have hsep := separated_nodes hs hpl'
  have hlt := nodes_lt hs hpl'
  unfold FreeRing at hring ⊢
  simp only [nodes, List.map_append, List.map_cons] at hring hsep hlt ⊢
  have hp := getLastD_mem s.heap.head (nodes l)
  have hn := headD_mem s.heap.head (nodes r)
  have hp' : (nodes l).getLastD s.heap.head ∈ s.heap.head :: (nodes l ++ nodes r) := by
    simp only [List.mem_cons, List.mem_append] at hp ⊢; tauto
  have hn' : (nodes r).headD s.heap.head ∈ s.heap.head :: (nodes l ++ nodes r) := by
    simp only [List.mem_cons, List.mem_append] at hn ⊢; tauto
  have hx := hpl x (by simp)
  have hxlt := hx.lt hs
  refine ⟨_, ?_, hring.unlink_spec hsep hlt, sameOff_unlink hp' hn' s.mem⟩
  rw [removeChunk, listNode, add32_eq (by omega)]
  have hpb := (node_inBounds (fun c hc => hpl' c (List.mem_append_left _ hc)) hp).1
  have hnb := (node_inBounds (fun c hc => hpl' c (List.mem_append_right _ hc)) hn).2
  have hnlt : (nodes r).headD s.heap.head + 4 < 4294967296 := by
    rcases List.mem_cons.mp hn with heq | hmem
    · have := hs.head_top
      omega
    · obtain ⟨c, hc, heq⟩ := List.mem_map.mp hmem
      have := (hpl' c (List.mem_append_right _ hc)).lt hs
      unfold Chunk.node at heq
      omega
  exact listDelEntry_run hring.prv_eq hring.nxt_eq ⟨hx.word (by omega), hx.word (k := 12) (by omega)⟩
    hpb hnb (by omega) hnlt

/-- The list entry that a search of the list ends at, when `r` is what it has not passed. -/
def entryAt (h : HeapT) (r : List Chunk) : ℕ := (nodes r).headD h.head

theorem entryAt_lt {h : HeapT} {r : List Chunk} (hs : Spans h) (hpl : ∀ c ∈ r, Placed h c.addr) :
    entryAt h r + 4 < 4294967296 := by
  rcases List.mem_cons.mp (headD_mem h.head (nodes r)) with heq | hmem
  · have := hs.head_top
    rw [entryAt, heq]
    omega
  · obtain ⟨c, hc, heq⟩ := List.mem_map.mp hmem
    have := (hpl c hc).lt hs
    rw [entryAt, ← heq, Chunk.node]
    omega

/-- `list_add_tail` at an entry of the list puts a chunk before it. -/
theorem listAddTail_spec {l r : List Chunk} {x : Chunk} (hs : Spans s.heap)
    (hring : FreeRing s.heap s.mem (l ++ r)) (hpl : ∀ c ∈ l ++ r, Placed s.heap c.addr)
    (hx : Placed s.heap x.addr) (hnew : ∀ c ∈ l ++ r, c.addr ≠ x.addr) :
    ∃ m, listAddTail x.node (entryAt s.heap r) s = .ok () (s.setMem m) ∧
      FreeRing s.heap m (l ++ x :: r) ∧ SameOff (s.heap.head :: nodes (x :: (l ++ r))) s.mem m := by
  have hall : ∀ c ∈ x :: (l ++ r), Placed s.heap c.addr := by
    intro c hc
    rcases List.mem_cons.mp hc with rfl | hc
    · exact hx
    · exact hpl c hc
  have hmem : ∀ u, u ∈ x.node :: s.heap.head :: (nodes l ++ nodes r) →
      u ∈ s.heap.head :: nodes (x :: (l ++ r)) := by
    intro u hu
    simp only [nodes, List.map_cons, List.map_append, List.mem_cons] at hu ⊢
    tauto
  have hsep : Separated (x.node :: s.heap.head :: (nodes l ++ nodes r)) := fun u hu v hv =>
    separated_nodes hs hall u (hmem u hu) v (hmem v hv)
  have hlt : ∀ u ∈ x.node :: s.heap.head :: (nodes l ++ nodes r), u < 4294967296 := fun u hu =>
    nodes_lt hs hall u (hmem u hu)
  have hxnew : x.node ∉ s.heap.head :: (nodes l ++ nodes r) := by
    intro hm
    rcases List.mem_cons.mp hm with heq | hm
    · have := hx.head_apart hs
      unfold Chunk.node at heq
      omega
    · rw [← List.map_append] at hm
      obtain ⟨c, hc, heq⟩ := List.mem_map.mp hm
      unfold Chunk.node at heq
      exact hnew c hc (by omega)
  have hp := getLastD_mem s.heap.head (nodes l)
  have hn := headD_mem s.heap.head (nodes r)
  have hring' : Ring (nextOf s.mem) (prevOf s.mem) s.heap.head (nodes l ++ nodes r) := by
    rw [← List.map_append]
    exact hring
  have hxlt := hx.lt hs
  have hnlt := entryAt_lt hs fun c hc => hpl c (List.mem_append_right _ hc)
  refine ⟨link s.mem x.node ((nodes l).getLastD s.heap.head) (entryAt s.heap r), ?_, ?_, ?_⟩
  · refine listAddTail_run hring'.follows.2 ⟨hx.word (by omega), hx.word (k := 12) (by omega)⟩ ?_ ?_
      (by unfold Chunk.node; omega) (by omega)
    · exact (node_inBounds (fun c hc => hpl c (List.mem_append_left _ hc)) hp).1
    · exact (node_inBounds (fun c hc => hpl c (List.mem_append_right _ hc)) hn).2
  · have hmap : nodes (l ++ x :: r) = nodes l ++ x.node :: nodes r := List.map_append
    rw [FreeRing, hmap]
    exact hring'.link_spec hxnew hsep hlt
  · apply sameOff_link
    · exact hmem _ List.mem_cons_self
    · simp only [nodes, List.map_cons, List.map_append, List.mem_cons, List.mem_append] at hp ⊢
      tauto
    · simp only [entryAt, nodes, List.map_cons, List.map_append, List.mem_cons, List.mem_append] at hn ⊢
      tauto

end Links

/-! ### Searching the list -/

section Search

variable {s : State σ} {free : List Chunk}

/-- There are fewer chunks on the list than iterations to look at them. -/
theorem Walkable.length_lt (hw : Walkable s.heap s.mem free) (hs : Spans s.heap) :
    free.length + 1 < listFuel := by
  have hsub : nodes free ⊆ List.range 4294967288 := by
    intro u hu
    obtain ⟨c, hc, rfl⟩ := List.mem_map.mp hu
    have := (hw.placed c hc).lt hs
    exact List.mem_range.mpr (by unfold Chunk.node; omega)
  have hlen := ((List.nodup_cons.mp hw.ring.nodup).2.subperm hsub).length_le
  rw [List.length_map, List.length_range] at hlen
  unfold listFuel
  omega

/-- The search passes the chunks that are too small and ends at the first that is not, or at
the list head. -/
theorem seekChunk_spec (hs : Spans s.heap) (hw : Walkable s.heap s.mem free) (size : ℕ)
    (l r : List Chunk) (hfree : free = l ++ r) (n : ℕ) (hn : r.length < n) :
    ∃ l' r', r = l' ++ r' ∧ seekChunk size s.heap.head n (entryAt s.heap r) s =
        .ok (entryAt s.heap r') s ∧
      (∀ c ∈ l', c.size < size) ∧ (∀ c ∈ r'.head?, size ≤ c.size) := by
  induction r generalizing l n with
  | nil =>
    obtain ⟨n, rfl⟩ : ∃ k, n = k + 1 := ⟨n - 1, by omega⟩
    refine ⟨[], [], rfl, ?_, by simp, by simp⟩
    rw [seekChunk, if_pos (by rfl)]
    rfl
  | cons c r ih =>
    obtain ⟨n, rfl⟩ : ∃ k, n = k + 1 := ⟨n - 1, by omega⟩
    have hmem : c ∈ free := by rw [hfree]; simp
    have hc := hw.placed c hmem
    have hclt := hc.lt hs
    have hentry : entryAt s.heap (c :: r) = c.addr + 8 := rfl
    have hne : c.addr + 8 ≠ s.heap.head := by
      have := hc.head_apart hs
      omega
    have hsize : chunksize (listEntry (c.addr + 8)) s = .ok c.size s := by
      rw [listEntry, sub32_eq (by omega) (by omega), Nat.add_sub_cancel, chunksize_ok hs hc,
        hw.size c hmem]
    rw [hentry, seekChunk, if_neg hne, bind_of_ok hsize]
    by_cases hle : size ≤ c.size
    · refine ⟨[], c :: r, rfl, ?_, by simp, by simpa using hle⟩
      rw [if_pos hle]
      rfl
    · have hnext : getNext (c.addr + 8) s = .ok (entryAt s.heap r) s := by
        have hring : Ring (nextOf s.mem) (prevOf s.mem) s.heap.head (nodes l ++ c.node :: nodes r) := by
          have := hw.ring
          rw [hfree, FreeRing, nodes, List.map_append] at this
          exact this
        rw [getNext_ok (hc.word (by omega))]
        exact congrArg (EStateM.Result.ok · s) hring.nxt_eq
      obtain ⟨l', r', hr, hrun, hsmall, hfirst⟩ :=
        ih (l ++ [c]) (by simp [hfree]) n (by simpa using hn)
      refine ⟨c :: l', r', by rw [hr]; rfl, ?_, ?_, hfirst⟩
      · rw [if_neg hle, bind_of_ok hnext, hrun]
      · intro d hd
        rcases List.mem_cons.mp hd with rfl | hd
        · omega
        · exact hsmall d hd

theorem getNext_head (hw : Walkable s.heap s.mem free) :
    getNext s.heap.head s = .ok (entryAt s.heap free) s := by
  rw [getNext_ok (Or.inr (Or.inl rfl))]
  exact congrArg (EStateM.Result.ok · s) hw.ring.nxt_head

theorem entryAt_eq_head {h : HeapT} {r : List Chunk} (hs : Spans h)
    (hpl : ∀ c ∈ r, Placed h c.addr) : entryAt h r = h.head ↔ r = [] := by
  cases r with
  | nil => simp [entryAt]
  | cons c r =>
    have := (hpl c (by simp)).head_apart hs
    have hentry : entryAt h (c :: r) = c.addr + 8 := rfl
    simp only [reduceCtorEq, iff_false, hentry]
    omega

/-- `findSmallestChunk` returns the first chunk that is large enough. -/
theorem findSmallestChunk_spec (hs : Spans s.heap) (hw : Walkable s.heap s.mem free) (nb : ℕ) :
    (findSmallestChunk nb s = .ok 0 s ∧ ∀ c ∈ free, c.size < nb) ∨
      ∃ l c r, free = l ++ c :: r ∧ findSmallestChunk nb s = .ok c.addr s ∧ c.addr ≠ 0 ∧
        nb ≤ c.size ∧ ∀ d ∈ l, d.size < nb := by
  obtain ⟨l, r, hfree, hrun, hsmall, hfirst⟩ :=
    seekChunk_spec hs hw nb [] free rfl listFuel (by have := hw.length_lt hs; omega)
  have hplr : ∀ c ∈ r, Placed s.heap c.addr := fun c hc =>
    hw.placed c (hfree ▸ List.mem_append_right _ hc)
  have hfind : findSmallestChunk nb s =
      if entryAt s.heap r = s.heap.head then .ok 0 s else .ok (listEntry (entryAt s.heap r)) s := by
    rw [findSmallestChunk, bind_of_ok (getHeap_run s), bind_of_ok (getNext_head hw), bind_of_ok hrun]
    split_ifs <;> rfl
  cases r with
  | nil =>
    left
    have hnil : entryAt s.heap [] = s.heap.head := rfl
    rw [hfind, if_pos hnil]
    refine ⟨rfl, fun c hc => hsmall c ?_⟩
    rw [hfree, List.append_nil] at hc
    exact hc
  | cons c r =>
    right
    have hc := hplr c (by simp)
    have hclt := hc.lt hs
    have := hc.ge hs
    refine ⟨l, c, r, hfree, ?_, by omega, by simpa using hfirst, hsmall⟩
    rw [hfind, if_neg (by rw [entryAt_eq_head hs hplr]; simp)]
    have hentry : entryAt s.heap (c :: r) = c.addr + 8 := rfl
    rw [hentry, listEntry, sub32_eq (by omega) (by omega), Nat.add_sub_cancel]

theorem listEmpty_run (hs : Spans s.heap) (hw : Walkable s.heap s.mem free) :
    listEmpty s.heap.head s = .ok (free.isEmpty) s := by
  have hbool : (entryAt s.heap free == s.heap.head || entryAt s.heap free == 0) = free.isEmpty := by
    cases free with
    | nil => simp [entryAt]
    | cons c r =>
      have hc := hw.placed c (by simp)
      have := hc.head_apart hs
      have hentry : entryAt s.heap (c :: r) = c.addr + 8 := rfl
      simp only [hentry, List.isEmpty_cons, Bool.or_eq_false_iff, beq_eq_false_iff_ne]
      omega
  rw [listEmpty, bind_of_ok (getNext_head hw), ← hbool]
  rfl

/-- The free list is in the order of the sizes. -/
abbrev BySize (cs : List Chunk) : Prop := cs.Pairwise fun c d => c.size ≤ d.size

/-- Where `insertChunk` puts a chunk of `size` bytes: before the first that is as large. -/
structure InsertAt (size : ℕ) (l r : List Chunk) : Prop where
  before : ∀ d ∈ l, d.size < size
  behind : ∀ d ∈ r.head?, size ≤ d.size

theorem InsertAt.bySize {x : Chunk} {l r : List Chunk} (hat : InsertAt x.size l r) (h : BySize (l ++ r)) :
    BySize (l ++ x :: r) := by
  obtain ⟨hl, hr, hlr⟩ := List.pairwise_append.mp h
  have hbehind : ∀ d ∈ r, x.size ≤ d.size := by
    cases r with
    | nil => simp
    | cons c r =>
      have hc := hat.behind c rfl
      intro d hd
      rcases List.mem_cons.mp hd with rfl | hd
      · exact hc
      · exact hc.trans ((List.pairwise_cons.mp hr).1 d hd)
  refine List.pairwise_append.mpr ⟨hl, List.pairwise_cons.mpr ⟨hbehind, hr⟩, fun c hc d hd => ?_⟩
  rcases List.mem_cons.mp hd with rfl | hd
  · exact (hat.before c hc).le
  · exact hlr c hc d hd

/-- `insertChunk` puts a chunk into the list. -/
theorem insertChunk_spec {x : Chunk} (hs : Spans s.heap) (hw : Walkable s.heap s.mem free)
    (hx : Placed s.heap x.addr) (hnew : ∀ c ∈ free, c.addr ≠ x.addr) :
    ∃ l r m, free = l ++ r ∧ InsertAt (sizeAt s.mem x.addr) l r ∧ insertChunk x.addr s = .ok () (s.setMem m) ∧
      FreeRing s.heap m (l ++ x :: r) ∧ SameOff (s.heap.head :: nodes (x :: free)) s.mem m := by
  have hxlt := hx.lt hs
  have hnode : listNode x.addr = x.node := add32_eq (by omega)
  -- the entry before which the chunk goes
  obtain ⟨l, r, hfree, hat, hentry⟩ : ∃ l r, free = l ++ r ∧ InsertAt (sizeAt s.mem x.addr) l r ∧
      insertChunk x.addr s = listAddTail x.node (entryAt s.heap r) s := by
    cases hempty : free with
    | nil =>
      refine ⟨[], [], rfl, ⟨by simp, by simp⟩, ?_⟩
      rw [insertChunk, bind_of_ok (getHeap_run s), bind_of_ok (listEmpty_run hs hw), hempty, hnode]
      rfl
    | cons c cs =>
      obtain ⟨l, r, hr, hrun, hsmall, hfirst⟩ := seekChunk_spec hs hw (sizeAt s.mem x.addr) [] free rfl listFuel
        (by have := hw.length_lt hs; omega)
      refine ⟨l, r, hempty ▸ hr, ⟨hsmall, hfirst⟩, ?_⟩
      rw [insertChunk, bind_of_ok (getHeap_run s), bind_of_ok (listEmpty_run hs hw), hempty,
        List.isEmpty_cons, if_neg (by simp), bind_of_ok (chunksize_ok hs hx),
        bind_of_ok (getNext_head hw), bind_of_ok hrun, hnode]
  obtain ⟨m, hrun, hring, hsame⟩ := listAddTail_spec hs (hfree ▸ hw.ring) (hfree ▸ hw.placed) hx
    (hfree ▸ hnew)
  refine ⟨l, r, m, hfree, hat, hentry.trans hrun, hring, ?_⟩
  rw [hfree]
  exact hsame

/-- The loop over the list keeps the highest entry it has seen. -/
theorem highestLoop_spec (hs : Spans s.heap) (hw : Walkable s.heap s.mem free)
    (l r : List Chunk) (hfree : free = l ++ r) (n : ℕ) (hn : r.length < n) (tmp : ℕ) :
    ∃ top, highestLoop s.heap.head n (entryAt s.heap r) tmp s = .ok top s ∧ tmp ≤ top ∧
      (∀ c ∈ r, c.node ≤ top) ∧ (top = tmp ∨ ∃ c ∈ r, top = c.node) := by
  induction r generalizing l n tmp with
  | nil =>
    obtain ⟨n, rfl⟩ : ∃ k, n = k + 1 := ⟨n - 1, by omega⟩
    refine ⟨tmp, ?_, le_rfl, by simp, Or.inl rfl⟩
    rw [highestLoop, if_pos (by rfl)]
    rfl
  | cons c r ih =>
    obtain ⟨n, rfl⟩ : ∃ k, n = k + 1 := ⟨n - 1, by omega⟩
    have hmem : c ∈ free := by rw [hfree]; simp
    have hc := hw.placed c hmem
    have hentry : entryAt s.heap (c :: r) = c.node := rfl
    have hne : c.node ≠ s.heap.head := by
      have := hc.head_apart hs
      unfold Chunk.node
      omega
    have hnext : getNext c.node s = .ok (entryAt s.heap r) s := by
      have hring : Ring (nextOf s.mem) (prevOf s.mem) s.heap.head (nodes l ++ c.node :: nodes r) := by
        have := hw.ring
        rw [hfree, FreeRing, nodes, List.map_append] at this
        exact this
      have hbound : inBounds s.heap c.node := hc.word (by omega)
      rw [getNext_ok hbound]
      exact congrArg (EStateM.Result.ok · s) hring.nxt_eq
    obtain ⟨top, hrun, hle, hall, hor⟩ := ih (l ++ [c]) (by simp [hfree]) n (by simpa using hn)
      (if c.node > tmp then c.node else tmp)
    refine ⟨top, ?_, ?_, ?_, ?_⟩
    · rw [hentry, highestLoop, if_neg hne, bind_of_ok hnext, hrun]
    · split_ifs at hle <;> omega
    · intro d hd
      rcases List.mem_cons.mp hd with rfl | hd
      · split_ifs at hle <;> omega
      · exact hall d hd
    · rcases hor with htop | ⟨d, hd, htop⟩
      · split_ifs at htop
        · exact Or.inr ⟨c, by simp, htop⟩
        · exact Or.inl htop
      · exact Or.inr ⟨d, List.mem_cons_of_mem _ hd, htop⟩

/-- The entry of the highest free chunk, or 0. -/
theorem highestEntry_spec (hs : Spans s.heap) (hw : Walkable s.heap s.mem free) :
    (free = [] ∧ highestEntry s = .ok 0 s) ∨
      ∃ c ∈ free, highestEntry s = .ok c.node s ∧ ∀ d ∈ free, d.addr ≤ c.addr := by
  have hlen := hw.length_lt hs
  cases hempty : free with
  | nil =>
    left
    refine ⟨rfl, ?_⟩
    rw [highestEntry, bind_of_ok (getHeap_run s), bind_of_ok (listEmpty_run hs hw), hempty]
    rfl
  | cons c cs =>
    right
    rw [← hempty]
    obtain ⟨top, hrun, -, hall, hor⟩ := highestLoop_spec hs hw [] free rfl listFuel (by omega) 0
    have hpos : 0 < top := by
      have := hall c (by rw [hempty]; simp)
      unfold Chunk.node at this
      omega
    obtain ⟨d, hd, htop⟩ := hor.resolve_left (by omega)
    refine ⟨d, hd, ?_, ?_⟩
    · rw [highestEntry, bind_of_ok (getHeap_run s), bind_of_ok (listEmpty_run hs hw), hempty,
        List.isEmpty_cons, if_neg (by simp), bind_of_ok (getNext_head hw), hrun, htop]
    · intro e he
      have := hall e he
      unfold Chunk.node at this htop
      omega

end Search

end JustKernel.Heap
