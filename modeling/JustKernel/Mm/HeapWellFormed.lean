import JustKernel.Mm.HeapDisjoint

/-! What one request does to a heap in order. The chunks tile the heap, and the free list
holds the ones that are not in use by size. A request takes the first of the smallest chunks
that have room, and gives back what is left of it. If no chunk has room, the heap grows
first, by the last free chunk if that one ends the heap; then the second look at the list
finds the new chunk, so that `alloc` calls itself once at most. -/

namespace JustKernel.Heap

open Memory Halting Links

/-- The chunks follow one another from the first address to the second. -/
inductive Tiles : ℕ → ℕ → List Chunk → Prop
  | nil {a : ℕ} : Tiles a a []
  | cons {c : Chunk} {e : ℕ} {cs : List Chunk} : Tiles c.top e cs → Tiles c.addr e (c :: cs)

section Tiling

variable {a b e : ℕ} {l r cs : List Chunk} {c : Chunk}

theorem Tiles.append (hl : Tiles a b l) (hr : Tiles b e r) : Tiles a e (l ++ r) := by
  induction hl with
  | nil => exact hr
  | cons _ ih => exact .cons (ih hr)

theorem Tiles.single (htop : c.top = e) : Tiles c.addr e [c] :=
  .cons (htop ▸ .nil)

/-- A tiling is cut before and behind one of its chunks. -/
theorem Tiles.cut (h : Tiles a e (l ++ c :: r)) : Tiles a c.addr l ∧ Tiles c.top e r := by
  induction l generalizing a with
  | nil =>
    cases h with
    | cons hr => exact ⟨.nil, hr⟩
  | cons d l ih =>
    cases h with
    | cons h =>
      obtain ⟨hl, hr⟩ := ih h
      exact ⟨.cons hl, hr⟩

theorem Tiles.le (h : Tiles a e cs) (hcs : ∀ d ∈ cs, 16 ≤ d.size) : a + cs.length ≤ e := by
  induction h with
  | nil => simp
  | @cons c e cs _ ih =>
    have hc := hcs c (by simp)
    have := ih fun d hd => hcs d (List.mem_cons_of_mem _ hd)
    unfold Chunk.top at this
    rw [List.length_cons]
    omega

theorem Tiles.eq_nil (h : Tiles a a cs) (hcs : ∀ d ∈ cs, 16 ≤ d.size) : cs = [] := by
  have := h.le hcs
  exact List.length_eq_zero_iff.mp (by omega)

/-- A tiling is cut at one of the free chunks. -/
theorem Tiles.cut_free {used : List Chunk} (h : Tiles a e cs) (hperm : cs.Perm ((l ++ c :: r) ++ used)) :
    ∃ l₀ r₀, Tiles a c.addr l₀ ∧ Tiles c.top e r₀ ∧ (l₀ ++ r₀).Perm (l ++ r ++ used) := by
  have hfirst : cs.Perm (c :: (l ++ r ++ used)) := by
    refine hperm.trans ?_
    rw [List.append_assoc, List.cons_append, List.append_assoc]
    exact List.perm_middle
  obtain ⟨l₀, r₀, rfl⟩ := List.append_of_mem (hfirst.mem_iff.mpr List.mem_cons_self)
  obtain ⟨hlow, hhigh⟩ := h.cut
  exact ⟨l₀, r₀, hlow, hhigh, (List.perm_cons c).mp (List.perm_middle.symm.trans hfirst)⟩

/-- The new chunk at the end goes to its place on the list. -/
theorem perm_put {used : List Chunk} (hperm : cs.Perm (l ++ r ++ used)) :
    (cs ++ [c]).Perm ((l ++ c :: r) ++ used) :=
  calc (cs ++ [c]).Perm (c :: cs) := List.perm_append_singleton c cs
    _ |>.Perm (c :: (l ++ r ++ used)) := hperm.cons c
    _ |>.Perm ((l ++ c :: r) ++ used) := List.perm_middle.symm.append_right used

end Tiling

/-- A heap in order: its chunks have a size of 16 or more and a multiple of 8 each and tile the
heap, and the free list holds those without `CINUSE`, each once, by size. -/
structure Ordered {σ : Type} (s : State σ) (free used : List Chunk) : Prop where
  laid : Laid s.heap s.mem free used
  tiled : ∃ cs, Tiles s.heap.startAddr s.heap.endAddr cs ∧ cs.Perm (free ++ used)
  bySize : BySize free

/-- The same of a heap as the kernel creates them. -/
structure WellFormed {σ : Type} (s : State σ) (free used : List Chunk) : Prop extends Ordered s free used where
  geo : Geometry s.heap

theorem WellFormed.arranged {σ : Type} {s : State σ} {free used : List Chunk} (hw : WellFormed s free used) :
    Arranged s.heap s.mem free used := hw.laid.arranged hw.geo

section Tilings

variable {h : HeapT} {m m' : Mem} {free free' used rest : List Chunk} {hole c top : Chunk} {nb e : ℕ}

/-- A hole is taken whole or cut in two. -/
theorem Taken.tiled {l r : List Chunk} (ht : Taken h m nb (l ++ r) hole m' free' c)
    (h0 : ∃ cs, Tiles h.startAddr h.endAddr cs ∧ cs.Perm ((l ++ hole :: r) ++ used)) :
    ∃ cs, Tiles h.startAddr h.endAddr cs ∧ cs.Perm (free' ++ c :: used) := by
  obtain ⟨cs, htiles, hperm⟩ := h0
  obtain ⟨l₀, r₀, hlow, hhigh, hrest⟩ := htiles.cut_free hperm
  cases ht with
  | whole =>
    refine ⟨l₀ ++ (hole :: r₀), hlow.append (.cons hhigh), ?_⟩
    calc (l₀ ++ (hole :: r₀)).Perm (hole :: (l₀ ++ r₀)) := List.perm_middle
      _ |>.Perm (hole :: (l ++ r ++ used)) := hrest.cons hole
      _ |>.Perm (l ++ r ++ hole :: used) := List.perm_middle.symm
  | @split l' r' _ new hbig hc hnew hlr =>
    have hcaddr : c.addr = hole.addr := by rw [hc]
    have hctop : new.addr = c.top := by rw [hc, hnew]; rfl
    have hntop : new.top = hole.top := by
      rw [hnew]
      unfold Chunk.top
      simp only
      omega
    refine ⟨l₀ ++ (c :: new :: r₀), hlow.append ?_, ?_⟩
    · rw [← hcaddr]
      refine .cons ?_
      rw [← hctop]
      exact .cons (hntop ▸ hhigh)
    · have hfree' : (l' ++ new :: r').Perm (new :: (l ++ r)) := by
        rw [hlr]
        exact List.perm_middle
      calc (l₀ ++ (c :: new :: r₀)).Perm (c :: (l₀ ++ new :: r₀)) := List.perm_middle
        _ |>.Perm (c :: new :: (l₀ ++ r₀)) := List.perm_middle.cons c
        _ |>.Perm (c :: new :: (l ++ r ++ used)) := (hrest.cons new).cons c
        _ |>.Perm (c :: ((l' ++ new :: r') ++ used)) := ((hfree'.symm).append_right used).cons c
        _ |>.Perm ((l' ++ new :: r') ++ c :: used) := List.perm_middle.symm

/-- The new memory is added to the last chunk or is a chunk of its own. -/
theorem Grown.tiled (hg : Grown h m free e m' free' top) (ha : Laid h m free used) (he : h.endAddr + 16 ≤ e)
    (h0 : ∃ cs, Tiles h.startAddr h.endAddr cs ∧ cs.Perm (free ++ used)) :
    ∃ cs, Tiles h.startAddr e cs ∧ cs.Perm (free' ++ used) := by
  obtain ⟨cs, htiles, hperm⟩ := h0
  cases hg with
  | @extend l r l' r' old _ hfree hold htop hlr _ =>
    subst hfree
    obtain ⟨l₀, r₀, hlow, hhigh, hrest⟩ := htiles.cut_free hperm
    have hnil : r₀ = [] := by
      rw [hold] at hhigh
      refine hhigh.eq_nil fun d hd => (ha.fits d ?_).min_le
      have hd' := hrest.mem_iff.mp (List.mem_append_right _ hd)
      rw [List.append_assoc] at hd' ⊢
      exact mem_middle.mpr (Or.inr hd')
    rw [hnil, List.append_nil, hlr] at hrest
    have haddr : top.addr = old.addr := by rw [htop]
    have hend : top.top = e := by
      rw [htop]
      unfold Chunk.top at hold ⊢
      simp only
      omega
    exact ⟨l₀ ++ [top], hlow.append (haddr ▸ Tiles.single hend), perm_put hrest⟩
  | @fresh l r _ _ htop hfree _ =>
    have haddr : top.addr = h.endAddr := by rw [htop]
    have hend : top.top = e := by
      rw [htop]
      unfold Chunk.top
      simp only
      omega
    exact ⟨cs ++ [top], htiles.append (haddr ▸ Tiles.single hend), perm_put (hfree ▸ hperm)⟩

/-- The new list: the top chunk in place of a free chunk that ended the heap. -/
theorem Grown.mem_iff (hg : Grown h m free e m' free' top) (ha : Laid h m free used) (d : Chunk) :
    d ∈ free' ↔ d = top ∨ d ∈ free ∧ d.top ≠ h.endAddr := by
  cases hg with
  | @extend l r l' r' old _ hfree hold htop hlr _ =>
    subst hfree
    have hnot : ∀ d ∈ l ++ r, d.top ≠ h.endAddr := by
      intro d hd hdtop
      have hdAll : d ∈ (l ++ old :: r) ++ used := List.mem_append_left _ (mem_middle.mpr (Or.inr hd))
      have heq := ha.top_inj hdAll (by simp : old ∈ (l ++ old :: r) ++ used) (hdtop.trans hold.symm)
      exact ha.not_mem_free_rest (heq ▸ hd)
    rw [mem_middle, mem_middle, ← hlr]
    constructor
    · rintro (h1 | h2)
      · exact Or.inl h1
      · exact Or.inr ⟨Or.inr h2, hnot d h2⟩
    · rintro (h1 | ⟨h2 | h2, h3⟩)
      · exact Or.inl h1
      · exact absurd (h2 ▸ hold) h3
      · exact Or.inr h2
  | @fresh l r _ hnone _ hfree _ =>
    rw [mem_middle, ← hfree]
    constructor
    · rintro (h1 | h2)
      · exact Or.inl h1
      · exact Or.inr ⟨h2, hnone d h2⟩
    · rintro (h1 | ⟨h2, -⟩)
      · exact Or.inl h1
      · exact Or.inr h2

/-- The new memory goes to the highest free chunk if that one ended the heap, and only then. -/
theorem Grown.merged_iff (hg : Grown h m free e m' free' top) (ha : Laid h m free used) {hi : Chunk}
    (hhi : hi ∈ free) (hmax : ∀ d ∈ free, d.addr ≤ hi.addr) : top.addr = hi.addr ↔ hi.top = h.endAddr := by
  have hhiAll := List.mem_append_left used hhi
  have hfit := (ha.fits hi hhiAll).placed.le_end
  cases hg with
  | @extend l r l' r' old _ hfree hold htop hlr _ =>
    have holdMem : old ∈ free := by rw [hfree]; simp
    have heq : hi = old := by
      by_contra hne
      have hbelow := ha.below_last (List.mem_append_left _ holdMem) hold hi hhiAll hne
      have := hmax old holdMem
      have := (ha.fits hi hhiAll).min_le
      unfold Chunk.top at hbelow
      omega
    rw [heq, htop]
    exact ⟨fun _ => hold, fun _ => rfl⟩
  | fresh hnone htop _ _ =>
    rw [htop]
    refine ⟨fun haddr => ?_, fun h1 => absurd h1 (hnone hi hhi)⟩
    simp only at haddr
    omega

theorem Grown.fresh_addr (hg : Grown h m free e m' free' top) (hnone : ∀ d ∈ free, d.top ≠ h.endAddr) :
    top.addr = h.endAddr := by
  cases hg with
  | extend hfree hold => exact absurd hold (hnone _ (by rw [hfree]; simp))
  | fresh _ htop => rw [htop]

end Tilings

/-! ### A request that fits -/

section Requests

variable {σ : Type} {P : Paging σ} {s t : State σ} {free used : List Chunk} {size : ℕ}

/-- The hole that `alloc` uses for `nb` bytes: the first of the smallest chunks on the list that
have room for them. -/
structure FirstSmallest (free : List Chunk) (nb : ℕ) (hole : Chunk) : Prop where
  enough : nb ≤ hole.size
  smallest : ∀ d ∈ free, nb ≤ d.size → hole.size ≤ d.size
  first : ∃ l r, free = l ++ hole :: r ∧ ∀ d ∈ l, d.size < hole.size

/-- In a list by size, the first chunk that is large enough is the first of the smallest ones. -/
theorem firstSmallest_of_bySize {l r : List Chunk} {nb : ℕ} {hole : Chunk} (h : BySize (l ++ hole :: r))
    (hle : nb ≤ hole.size) (hfirst : ∀ d ∈ l, d.size < nb) : FirstSmallest (l ++ hole :: r) nb hole where
  enough := hle
  smallest d hd hd' := by
    have hr := (List.pairwise_cons.mp (List.pairwise_append.mp h).2.1).1
    rcases List.mem_append.mp hd with hd | hd
    · have := hfirst d hd
      omega
    · rcases List.mem_cons.mp hd with rfl | hd
      · exact le_rfl
      · exact hr d hd
  first := ⟨l, r, rfl, fun d hd => (hfirst d hd).trans_le hle⟩

/-- The chunk `c` has been cut off `hole` for `size` bytes, and what is left, if it is enough for
a chunk, is on the list. -/
structure CutFor (size : ℕ) (hole c : Chunk) (free' : List Chunk) : Prop where
  addr_eq : c.addr = hole.addr
  size_eq : c.size = request2size size ∨ c.size = request2size size + 8
  usable : size ≤ c.size - chunkOverhead
  rest : c.size + minChunkSize ≤ hole.size → ⟨c.top, hole.size - c.size⟩ ∈ free'
  whole : hole.size < c.size + minChunkSize → c.size = hole.size

theorem Taken.cutFor {h : HeapT} {m m' : Mem} {rest free' : List Chunk} {hole c : Chunk}
    (ht : Taken h m (request2size size) rest hole m' free' c) (hfit : Fits h hole) (hsize : size + 11 < 4294967296)
    (hle : request2size size ≤ hole.size) : CutFor size hole c free' := by
  obtain ⟨h8, h16, hroom, -⟩ := request2size_spec hsize
  have hole8 := hfit.size_aligned
  cases ht with
  | whole hsmall =>
    refine ⟨rfl, by omega, ?_, fun hbig => ?_, fun _ => rfl⟩
    · unfold chunkOverhead
      omega
    · unfold minChunkSize at hbig
      omega
  | split hbig hc hnew _ _ =>
    subst hc
    refine ⟨rfl, Or.inl rfl, ?_, fun _ => ?_, fun hsmall => ?_⟩
    · unfold chunkOverhead
      simp only
      omega
    · rw [hnew]
      unfold Chunk.top
      simp
    · unfold minChunkSize at hsmall
      simp only at hsmall
      omega

theorem alloc_of_hole {hole : ℕ} (hfind : findSmallestChunk (request2size size) s = .ok hole s) (hne : hole ≠ 0) :
    alloc P size s = useHole hole (request2size size) s := by
  obtain ⟨n, hn⟩ : ∃ n, listFuel = n + 1 := ⟨listFuel - 1, by unfold listFuel; omega⟩
  rw [alloc, hn, allocLoop, bind_of_ok hfind, if_neg hne]

/-- A request for which some free chunk is large enough is served from the first of the smallest
such chunks, and leaves the heap in order. -/
theorem alloc_fits (hw : Ordered s free used) (hsize : size + 11 < 2 ^ 32)
    (hfit : ∃ d ∈ free, request2size size ≤ d.size) :
    ∃ t hole c free', FirstSmallest free (request2size size) hole ∧ CutFor size hole c free' ∧
      alloc P size s = .ok (c.addr + 8) t ∧ (c.addr + 8) % 8 = 0 ∧ Ordered t free' (c :: used) ∧
      t.heap = s.heap := by
  obtain ⟨h8, h16, -, -⟩ := request2size_spec hsize
  rcases findSmallestChunk_spec hw.laid.spans hw.laid.walkable (request2size size) with
    ⟨-, hsmall⟩ | ⟨l, hole, r, rfl, hfind, hne, hle, hfirst⟩
  · obtain ⟨d, hd, hd'⟩ := hfit
    have := hsmall d hd
    omega
  · obtain ⟨t, free', c, hrun, hheap, htaken, harr, hbySize, -⟩ := useHole_spec hw.laid h8 h16 hle
    have hcut := htaken.cutFor (hw.laid.fits hole (by simp)) hsize hle
    have haligned := (harr.fits c (by simp)).addr_aligned
    refine ⟨t, hole, c, free', firstSmallest_of_bySize hw.bySize hle hfirst, hcut, ?_, by omega, ?_, hheap⟩
    · rw [alloc_of_hole hfind hne, hrun]
    · exact ⟨hheap ▸ harr, hheap ▸ htaken.tiled hw.tiled, hbySize hw.bySize⟩

/-! ### A request that does not fit -/

/-- The heap has grown: the new list has `top` in place of a free chunk that ended the old heap,
and `top` starts at the highest free chunk if and only if that chunk did. -/
structure GrownBy (s t : State σ) (free free' : List Chunk) (top : Chunk) : Prop where
  aligned : t.heap.endAddr % pageSize = 0
  le_max : t.heap.endAddr ≤ t.heap.maxAddr
  top_eq : top.top = t.heap.endAddr
  mem_iff : ∀ d, d ∈ free' ↔ d = top ∨ d ∈ free ∧ d.top ≠ s.heap.endAddr
  merged_iff : ∀ hi ∈ free, (∀ d ∈ free, d.addr ≤ hi.addr) → (top.addr = hi.addr ↔ hi.top = s.heap.endAddr)
  fresh : (∀ d ∈ free, d.top ≠ s.heap.endAddr) → top.addr = s.heap.endAddr

/-- If no free chunk is large enough and the heap can be expanded, the request is served by the
second look at the list, from the chunk at the end, and the heap is in order before it. -/
theorem alloc_grows (hw : WellFormed s free used) (hsize : size + 11 < 2 ^ 32)
    (hnone : ∀ d ∈ free, d.size < request2size size)
    (hexp : expand P (add32 (sub32 s.heap.endAddr s.heap.startAddr) (request2size size)) s = .ok () t) :
    ∃ u free' top, growFor P (request2size size) s = .ok () u ∧ WellFormed u free' used ∧
      GrownBy s u free free' top ∧ findSmallestChunk (request2size size) u = .ok top.addr u ∧
      request2size size ≤ top.size ∧ ∃ p v, useHole top.addr (request2size size) u = .ok p v ∧
        (∀ n, allocLoop P (n + 2) size s = .ok p v) ∧ alloc P size s = .ok p v := by
  obtain ⟨h8, h16, -, hlt⟩ := request2size_spec hsize
  generalize hnb : request2size size = nb at *
  have ha := hw.arranged
  have hends := expand_ends (P := P) ha.geo h8 (by omega) hlt
  rw [hexp] at hends
  obtain ⟨hmem, hheap, -, hmax⟩ := hends
  obtain ⟨u, free', top, hrun, hheap', hgrown, harr, hbySize, -⟩ := listTop_spec ha hmem hheap h16 hmax
  have hu : u.heap = s.heap.withEnd (grownEnd s.heap nb) := hheap'.trans hheap
  obtain ⟨halign, hge⟩ := grownEnd_spec ha.geo nb
  obtain ⟨htopMem, htopLe, htopTop, hold⟩ := hgrown.top_spec ha.geo
  have hgrow : growFor P nb s = .ok () u := by
    rw [growFor, bind_of_ok (getHeap_run s), bind_of_ok hexp]
    exact hrun
  -- the only chunk that is large enough is the one at the end
  obtain ⟨l, r, rfl, hfind, hne⟩ : ∃ l r, free' = l ++ top :: r ∧ findSmallestChunk nb u = .ok top.addr u ∧
      top.addr ≠ 0 := by
    rcases findSmallestChunk_spec harr.spans harr.walkable nb with
      ⟨-, hsmall⟩ | ⟨l, hole, r, hfree, hfind, hne, hle, -⟩
    · have := hsmall top htopMem
      omega
    · obtain rfl : hole = top := by
        refine (hold hole (by rw [hfree]; simp)).resolve_right fun h => ?_
        have := hnone hole h
        omega
      exact ⟨l, r, hfree, hfind, hne⟩
  obtain ⟨v, _, c, huse, -⟩ := useHole_spec harr.toLaid h8 h16 htopLe
  have hloop : ∀ n, allocLoop P (n + 2) size s = .ok (c.addr + 8) v := by
    intro n
    have hfind₀ : findSmallestChunk nb s = .ok 0 s := by
      rcases findSmallestChunk_spec ha.spans ha.walkable nb with ⟨h0, -⟩ | ⟨l, hole, r, hfree, -, -, hle, -⟩
      · exact h0
      · have := hnone hole (by rw [hfree]; simp)
        omega
    rw [allocLoop, hnb, bind_of_ok hfind₀, if_pos rfl, bind_of_ok hgrow, allocLoop, hnb, bind_of_ok hfind,
      if_neg hne, huse]
  refine ⟨u, _, top, hgrow, ⟨⟨harr.toLaid, ?_, hbySize hw.bySize⟩, harr.geo⟩,
    ⟨?_, ?_, ?_, hgrown.mem_iff ha.toLaid, ?_, hgrown.fresh_addr⟩,
    hfind, htopLe, c.addr + 8, v, huse, hloop, ?_⟩
  · rw [hu]
    exact hgrown.tiled ha.toLaid (by omega) hw.tiled
  · rw [hu]
    exact halign
  · rw [hu]
    exact hmax
  · rw [hu]
    exact htopTop
  · exact fun hi hhi hmaxi => hgrown.merged_iff ha.toLaid hhi hmaxi
  · obtain ⟨n, hn⟩ : ∃ n, listFuel = n + 2 := ⟨listFuel - 2, by unfold listFuel; omega⟩
    rw [alloc, hn]
    exact hloop n

/-- A new heap is one free chunk. -/
theorem wellFormed_created (hs : Created P s) :
    WellFormed s [⟨s.heap.startAddr, s.heap.endAddr - s.heap.startAddr⟩] [] := by
  obtain ⟨c, ht, hstart, hend, -, -⟩ := tracked_created hs
  obtain rfl : c = ⟨s.heap.startAddr, s.heap.endAddr - s.heap.startAddr⟩ := by
    unfold Chunk.top at hend
    rcases c with ⟨a, k⟩
    simp only at hstart hend ⊢
    rw [← hstart, ← hend, Nat.add_sub_cancel_left]
  exact ⟨⟨ht.arranged.toLaid, ⟨_, Tiles.single hend, List.Perm.refl _⟩, List.pairwise_singleton _ _⟩, ht.arranged.geo⟩

end Requests

/-- A free chunk in front of a block, and the rest of the heap behind it. -/
theorem wellFormed_afterFree :
    WellFormed afterFree [⟨0x1000000, 104⟩, ⟨0x1000138, 0xFFEC8⟩] [⟨0x1000068, 208⟩] := by
  have hstart : afterFree.heap.startAddr = 0x1000000 := by decide +kernel
  have hend : afterFree.heap.endAddr = 0x1100000 := by decide +kernel
  have hgeo : Geometry afterFree.heap :=
    ⟨by decide +kernel, by decide +kernel, by decide +kernel, by decide +kernel, by decide +kernel, by decide +kernel⟩
  have hring : FreeRing afterFree.heap afterFree.mem [⟨0x1000000, 104⟩, ⟨0x1000138, 0xFFEC8⟩] := by
    have hhead : afterFree.heap.head + 16 ≤ 0x1000000 := by decide +kernel
    have hfirst : nextOf afterFree.mem afterFree.heap.head = 0x1000008 ∧
        prevOf afterFree.mem 0x1000008 = afterFree.heap.head := by decide +kernel
    have hsecond : nextOf afterFree.mem 0x1000008 = 0x1000140 ∧ prevOf afterFree.mem 0x1000140 = 0x1000008 := by
      decide +kernel
    have hlast : nextOf afterFree.mem 0x1000140 = afterFree.heap.head ∧
        prevOf afterFree.mem afterFree.heap.head = 0x1000140 := by decide +kernel
    constructor
    · simp [Chunk.node]
      omega
    · exact .cons_cons hfirst (.cons_cons hsecond (.cons_cons hlast (.singleton _)))
  have hhead : HeadIs afterFree.mem ⟨0x1000000, 104⟩ 0 ∧ HeadIs afterFree.mem ⟨0x1000138, 0xFFEC8⟩ 0 ∧
      HeadIs afterFree.mem ⟨0x1000068, 208⟩ 1 := by
    unfold HeadIs
    decide +kernel
  refine ⟨⟨⟨hgeo.spans, hring, ?_, ?_, ?_, ?_⟩,
    ⟨[⟨0x1000000, 104⟩, ⟨0x1000068, 208⟩, ⟨0x1000138, 0xFFEC8⟩], ?_, ?_⟩, ?_⟩, hgeo⟩
  · intro c hc
    simp only [List.cons_append, List.nil_append, List.mem_cons, List.not_mem_nil, or_false] at hc
    rcases hc with rfl | rfl | rfl <;> apply fits_mk <;> decide +kernel
  · simp [Apart, Chunk.top]
  · simp [hhead]
  · simp [hhead]
  · rw [hstart, hend]
    exact (Tiles.single (c := ⟨0x1000000, 104⟩) rfl).append
      ((Tiles.single (c := ⟨0x1000068, 208⟩) rfl).append (Tiles.single (c := ⟨0x1000138, 0xFFEC8⟩) rfl))
  · decide
  · simp [BySize]

theorem alloc_fits_freed_block : ∃ t hole c free', FirstSmallest [⟨0x1000000, 104⟩, ⟨0x1000138, 0xFFEC8⟩] 72 hole ∧
    CutFor 64 hole c free' ∧ alloc readyPaging 64 afterFree = .ok (c.addr + 8) t ∧ (c.addr + 8) % 8 = 0 ∧
    Ordered t free' [c, ⟨0x1000068, 208⟩] ∧ t.heap = afterFree.heap := by
  have hreq : request2size 64 = 72 := by decide
  have hfit := alloc_fits (P := readyPaging) wellFormed_afterFree.toOrdered (show 64 + 11 < 2 ^ 32 by decide)
    ⟨_, List.mem_cons_self, by rw [hreq]; decide⟩
  rwa [hreq] at hfit

theorem alloc_grows_new_heap : ∃ u free' top, growFor readyPaging 0x200008 newHeap = .ok () u ∧
    WellFormed u free' [] ∧ GrownBy newHeap u [⟨0x1000000, 0x100000⟩] free' top ∧
    findSmallestChunk 0x200008 u = .ok top.addr u ∧ 0x200008 ≤ top.size ∧
    ∃ p v, useHole top.addr 0x200008 u = .ok p v ∧
      (∀ n, allocLoop readyPaging (n + 2) 0x200000 newHeap = .ok p v) ∧ alloc readyPaging 0x200000 newHeap = .ok p v := by
  have hstart : newHeap.heap.startAddr = 0x1000000 := by decide +kernel
  have hend : newHeap.heap.endAddr = 0x1100000 := by decide +kernel
  have hw := wellFormed_created created_newHeap
  rw [hstart, hend] at hw
  have hreq : request2size 0x200000 = 0x200008 := by decide
  have hgrow := alloc_grows (P := readyPaging) hw (show 0x200000 + 11 < 2 ^ 32 by decide)
    (by rw [hreq]; decide) (ok_of_returned (by rw [hreq]; decide +kernel))
  rwa [hreq] at hgrow

end JustKernel.Heap
