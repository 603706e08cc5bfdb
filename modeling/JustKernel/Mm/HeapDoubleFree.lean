import JustKernel.Mm.HeapDisjoint

/-! A block that is freed twice. What tells the second `free` is the header of the block: the
first one clears `CINUSE` there, or takes the whole header out of the heap. But a block with
`PINUSE` clear is merged into the chunk before it, which gets the new header. The old one stays
as it was inside the merged chunk, and the second `free` takes it for a block in use: it merges
the two again and returns. -/

namespace JustKernel.Heap

open Memory Halting Links Runs

section DoubleFree

variable {σ : Type} {P : Paging σ} {s t : State σ} {r r' : Run σ} {h h' : HeapT} {m m' : Mem}
  {free used rest : List Chunk} {c x : Chunk}

/-- The first `free` writes the header of the block, or it cuts the heap off below the pointer. -/
def Caught (s : State σ) (b : Block) : Prop :=
  pinAt s.mem (b.ptr - 8) = 1 ∨
    EndsHeap s b ∧ cutEnd s.heap (b.ptr - 8 - read32 s.mem (b.ptr - 8)) ≤ b.ptr

/-- Writes to memory, which come between two calls of the heap. -/
def IsWrite : Call → Prop
  | .write _ _ => True
  | .other _ _ => True
  | _ => False

abbrev freePanic : Halt := .panic "(free) Memory Corrupt"

/-! ### What the first `free` leaves -/

/-- The header at the freed chunk tells that it is free, or is not in the heap any more. -/
def Told (h : HeapT) (m : Mem) (free : List Chunk) (c : Chunk) : Prop :=
  h.endAddr ≤ c.addr + 8 ∨ pinAt m c.addr = 1 ∧ ∃ y ∈ free, y.addr = c.addr

/-- The header at the freed chunk `c` is what it was, inside the free chunk `x`. -/
structure Hidden (h : HeapT) (m : Mem) (free : List Chunk) (c x : Chunk) : Prop where
  mem : x ∈ free
  fits : Fits h c
  room : x.addr + 16 ≤ c.addr
  top_eq : x.top = c.top
  inside : x.top ≠ h.endAddr
  foot : x.addr + read32 m c.addr = c.addr
  head : HeadIs m c 1
  pin : pinAt m c.addr = 0

/-- A chunk that goes to the list has `PINUSE` set in its header. -/
theorem Released.pinAt_eq (hrel : Released h m rest x h' m' free) (ha : Arranged h' m' free used)
    (hgone : h'.endAddr ≠ x.addr) : pinAt m' x.addr = 1 ∧ ∃ y ∈ free, y.addr = x.addr := by
  have hlisted : ∀ {m₁ : Mem} {l r : List Chunk} {y : Chunk}, free = l ++ y :: r → y.addr = x.addr →
      SameOff (h'.head :: nodes (y :: (l ++ r))) (write32 m₁ (y.addr + 4) (y.size + 1)) m' →
      pinAt m' x.addr = 1 ∧ ∃ y ∈ free, y.addr = x.addr := by
    rintro m₁ l r y rfl haddr hsame
    have hfit := ha.fits y (by simp)
    have hcs : ∀ d ∈ y :: (l ++ r), Fits h' d ∧ (d = y ∨ Apart y d) := by
      intro d hd
      rcases List.mem_cons.mp hd with rfl | hd
      · exact ⟨hfit, Or.inl rfl⟩
      · exact ⟨ha.fits d (List.mem_append_left _ (mem_middle.mpr (Or.inr hd))),
          Or.inr (ha.free_apart.1 d (List.mem_append_left _ hd))⟩
    have hread : read32 m' (y.addr + 4) = _ := hsame.read32 fun u hu => by
      have := off_links ha.spans hfit hcs u hu
      omega
    have hlt := hfit.lt ha.spans
    have := hfit.size_aligned
    unfold Chunk.top at hlt
    rw [read32_write32 _ _ _ (by omega)] at hread
    refine ⟨?_, y, by simp, haddr⟩
    rw [← haddr, pinAt, hread]
    omega
  cases hrel with
  | footed _ hrest hsame => exact hlisted rfl rfl (hrest ▸ hsame)
  | shrunk _ _ hy hrest _ hsame => exact hlisted rfl (by rw [hy]) (hrest ▸ hsame)
  | gone => exact absurd rfl hgone

/-- With `PINUSE` set nothing is merged in front of the block. -/
theorem told_of_pinAt (hpin : pinAt s.mem c.addr = 1) (hmerged : Merged s.heap s.mem free c m rest x)
    {free' : List Chunk} (hrel : Released s.heap m rest x t.heap t.mem free')
    (ha : Arranged t.heap t.mem free' used) : Told t.heap t.mem free' c := by
  cases hmerged with
  | prev h0 => omega
  | alone _ =>
    by_cases hgone : t.heap.endAddr = c.addr
    · left
      omega
    · exact Or.inr (hrel.pinAt_eq ha hgone)

/-- The chunk that the block is merged into. -/
theorem Merged.prev_spec {l r : List Chunk} (ha : Arranged h m free (l ++ c :: r)) (hfoot : FootOk m free c)
    (hpin : pinAt m c.addr = 0) (hmerged : Merged h m free c m' rest x) :
    x.addr + read32 m c.addr = c.addr ∧ x.addr + 16 ≤ c.addr ∧ rest ⊆ free ∧
      SameOff (h.head :: nodes rest) m m' := by
  cases hmerged with
  | alone h1 => omega
  | @prev _ l' r' d _ _ hfree htop hx hsame =>
    obtain ⟨e, he, haddr, hsize⟩ := hfoot hpin
    have hd : d ∈ free := by rw [hfree]; simp
    have hde : d = e := by
      refine ha.top_inj (List.mem_append_left _ hd) (List.mem_append_left _ he) ?_
      rw [htop, Chunk.top, hsize]
      exact haddr.symm
    have hmin := (ha.fits d (List.mem_append_left _ hd)).min_le
    have hxa : x.addr = d.addr := by rw [hx]
    rw [hxa, hde]
    rw [hde] at hmin
    refine ⟨haddr, by omega, ?_, hsame⟩
    intro y hy
    rw [hfree]
    exact mem_middle.mpr (Or.inr hy)

/-- With `PINUSE` clear the header outlives the merge, unless the heap is cut. -/
theorem hidden_of_prev {l r : List Chunk} (ha : Arranged s.heap s.mem free (l ++ c :: r))
    (hfoot : FootOk s.mem free c) (hpin : pinAt s.mem c.addr = 0) (hne : c.top ≠ s.heap.endAddr)
    (hmerged : Merged s.heap s.mem free c m rest x) (hxtop : x.top = c.top) {free' : List Chunk}
    (hrel : Released s.heap m rest x t.heap t.mem free') : Hidden t.heap t.mem free' c x := by
  obtain ⟨hxaddr, hroom, hsub, hsame⟩ := hmerged.prev_spec ha hfoot hpin
  have hfit := ha.fits c (by simp)
  have hap : ∀ d ∈ rest, Fits s.heap d ∧ (d = c ∨ Apart c d) := fun d hd =>
    ⟨ha.fits d (List.mem_append_left _ (hsub hd)), Or.inr (ha.used_apart.1 d (List.mem_append_left _ (hsub hd)))⟩
  have hoff := off_links ha.spans hfit hap
  generalize hh : t.heap = h' at hrel ⊢
  generalize hm' : t.mem = m' at hrel ⊢
  cases hrel with
  | shrunk htop => exact absurd (hxtop ▸ htop) hne
  | gone htop => exact absurd (hxtop ▸ htop) hne
  | footed _ hrest hsame' =>
    -- the words of the old header
    have hword : ∀ k ≤ 4, read32 m' (c.addr + k) = read32 s.mem (c.addr + k) := by
      intro k hk
      have hmin := hfit.min_le
      have hctop : c.top = c.addr + c.size := rfl
      have hlinks : ∀ u ∈ s.heap.head :: nodes (x :: rest), c.addr + k + 4 ≤ u ∨ u + 8 ≤ c.addr + k := by
        intro u hu
        rw [nodes, List.map_cons, List.mem_cons, List.mem_cons] at hu
        rcases hu with hu | rfl | hu
        · have := hoff u (List.mem_cons.mpr (Or.inl hu))
          omega
        · unfold Chunk.node
          omega
        · have := hoff u (List.mem_cons_of_mem _ hu)
          omega
      rw [hsame'.read32 hlinks, read32_write32_of_disjoint _ (by omega),
        read32_write32_of_disjoint _ (by omega)]
      exact hsame.read32 fun u hu => by
        have := hoff u hu
        omega
    have hhead := hword 4 le_rfl
    exact {
      mem := by simp
      fits := hfit
      room := hroom
      top_eq := hxtop
      inside := hxtop ▸ hne
      foot := by rw [show read32 m' c.addr = read32 s.mem c.addr from hword 0 (by omega)]; exact hxaddr
      head := (ha.usedHead c (by simp)).of_read hhead
      pin := by rw [pinAt, hhead]; exact hpin }

/-! ### Writes in between -/

/-- A write reaches no byte of a free chunk but its `prevFoot`. -/
theorem Tracked.isWrite_step {e : Call} (ht : Tracked r free used) (he : IsWrite e) (hstep : Step P r e r') :
    Tracked r' free used ∧ r'.state.heap = r.state.heap ∧
      ∀ y ∈ free, ∀ a, y.addr + 4 ≤ a → a < y.top → r'.state.mem a = r.state.mem a := by
  cases hstep with
  | alloc => exact he.elim
  | palignedAlloc => exact he.elim
  | free => exact he.elim
  | @write s live b w v hb hle hlt =>
    refine ⟨ht.write_spec hb hle hlt v, rfl, ?_⟩
    intro y hy a h1 h2
    obtain ⟨l, q, rfl⟩ := List.append_of_mem hb
    obtain ⟨l', c, q', rfl, ⟨hptr, hsize⟩, -⟩ := ht.block_spec
    have hap := ht.arranged.used_apart.1 y (List.mem_append_left _ hy)
    have hmin := (ht.arranged.fits y (List.mem_append_left _ hy)).min_le
    refine Function.update_of_ne ?_ _ _
    unfold Apart Chunk.top at hap
    unfold Chunk.top at h2
    omega
  | @other s live w v hout hhead =>
    refine ⟨ht.other_spec hout hhead v, rfl, ?_⟩
    intro y hy a h1 h2
    have hfit := ht.arranged.fits y (List.mem_append_left _ hy)
    have := hfit.start_le
    have := hfit.top_le
    exact Function.update_of_ne (by simp only at *; omega) _ _

theorem Tracked.told_step {e : Call} (ht : Tracked r free used) (he : IsWrite e) (hstep : Step P r e r')
    (h : Told r.state.heap r.state.mem free c) : Told r'.state.heap r'.state.mem free c := by
  obtain ⟨-, hheap, hsame⟩ := ht.isWrite_step he hstep
  rcases h with hgone | ⟨hpin, y, hy, haddr⟩
  · left
    rwa [hheap]
  · have hmin := (ht.arranged.fits y (List.mem_append_left _ hy)).min_le
    have hread : read32 r'.state.mem (y.addr + 4) = read32 r.state.mem (y.addr + 4) :=
      load_congr fun a h1 h2 => hsame y hy a h1 (by unfold Chunk.top; omega)
    refine Or.inr ⟨?_, y, hy, haddr⟩
    rw [← haddr] at hpin ⊢
    rw [pinAt, hread]
    exact hpin

theorem Tracked.hidden_step {e : Call} (ht : Tracked r free used) (he : IsWrite e) (hstep : Step P r e r')
    (h : Hidden r.state.heap r.state.mem free c x) : Hidden r'.state.heap r'.state.mem free c x := by
  obtain ⟨-, hheap, hsame⟩ := ht.isWrite_step he hstep
  have hroom := h.room
  have hmin := h.fits.min_le
  have htop := h.top_eq
  have hword : ∀ k ≤ 4, read32 r'.state.mem (c.addr + k) = read32 r.state.mem (c.addr + k) := fun k hk =>
    load_congr fun a h1 h2 => hsame x h.mem a (by omega) (by unfold Chunk.top at *; omega)
  have hfoot : read32 r'.state.mem c.addr = read32 r.state.mem c.addr := hword 0 (by omega)
  rw [hheap]
  exact ⟨h.mem, h.fits, hroom, htop, h.inside, hfoot ▸ h.foot, h.head.of_read (hword 4 le_rfl),
    by rw [pinAt, hword 4 le_rfl]; exact h.pin⟩

/-! ### The second `free` -/

/-- It panics before it has written anything. -/
theorem free_told (ha : Arranged s.heap s.mem free used) (h : Told s.heap s.mem free c) :
    Heap.free P (c.addr + 8) s = .error freePanic s := by
  rw [Heap.free, if_neg (by omega), bind_of_ok (getHeap_run s)]
  rcases h with hgone | ⟨hpin, y, hy, haddr⟩
  · have hok : okAddress (c.addr + 8) s.heap = false := by
      simp only [okAddress, Bool.and_eq_false_iff, decide_eq_false_iff_not]
      omega
    rw [hok]
    rfl
  · have hpl := (ha.fits y (List.mem_append_left _ hy)).placed
    have hused := (ha.freeHead y hy).2
    rw [haddr] at hpl hused
    have hlt := hpl.lt ha.spans
    have hstart := hpl.start_le
    have hend := hpl.le_end
    have hflags : read32 s.mem (c.addr + 4) % 4 = 1 := by
      unfold pinAt at hpin
      unfold usedAt at hused
      omega
    rw [okAddress_of_le (by omega) (by omega), panicUnless, if_pos rfl, pure_bind_run, mem2chunk_add (by omega),
      bind_of_ok (okInuse_ok ha.spans hpl), hflags]
    rfl

/-- It merges the old header once more and returns. -/
theorem free_hidden (ha : Arranged s.heap s.mem free used) (h : Hidden s.heap s.mem free c x) :
    ∃ t, Heap.free P (c.addr + 8) s = .ok () t := by
  obtain ⟨l, r, rfl⟩ := List.append_of_mem h.mem
  have hfit := ha.fits x (List.mem_append_left _ h.mem)
  have hlt := hfit.lt ha.spans
  have hfoot := h.foot
  have htop := h.top_eq
  obtain ⟨m, hmerge, harr, hloose, -⟩ := mergePrev_prev ha.toLaid h.fits.placed h.pin h.foot c.size
  have hsize : add32 c.size (read32 s.mem c.addr) = x.size := by
    unfold Chunk.top at *
    rw [add32_eq (by omega)]
    omega
  rw [hsize] at hmerge
  obtain ⟨m', free', hrel, -⟩ := releaseBlock_inside (s := s.setMem m) (P := P) harr hloose h.inside
  have hnext : mergeNext x.addr x.size (s.setMem m) = _ := mergeNext_inside ha.spans hfit h.inside
  rw [free_front ha.spans h.fits.placed h.head, bind_of_ok hmerge]
  exact ⟨_, (bind_of_ok hnext).trans hrel⟩

/-! ### Runs -/

/-- What the run has left of the freed block when `free` is called again. -/
theorem remains_of_free {e : Block} (ht : ∃ free used, Tracked r free used)
    (htrust : TrustedCall r.state (.free e)) (hfree : Step P r (.free e) r')
    {r'' : Run σ} (hw : Reaches (fun a b => ∃ w, IsWrite w ∧ Step P a w b) r' r'') :
    ∃ free used c, Tracked r'' free used ∧ e.ptr = c.addr + 8 ∧
      (Caught r.state e → Told r''.state.heap r''.state.mem free c) ∧
      (pinAt r.state.mem (e.ptr - 8) = 0 → ¬EndsHeap r.state e →
        ∃ x, Hidden r''.state.heap r''.state.mem free c x) := by
  obtain ⟨free, used, ht⟩ := ht
  cases hfree with
  | @free s t l q _ hrun =>
    obtain ⟨l', c, q', m, rest, x, free', hused', hbc, ht', hxtop, hmerged, hrel, -, hcut⟩ :=
      ht.free_spec htrust.1 htrust.2 hrun
    have hptr : e.ptr - 8 = c.addr := by rw [hbc.1]; omega
    obtain ⟨harr, hfootok⟩ : Arranged s.heap s.mem free (l' ++ c :: q') ∧ FootOk s.mem free c :=
      ⟨hused' ▸ ht.arranged, Tracked.footOk ht.arranged htrust.1 hptr⟩
    have hends : EndsHeap s e ↔ c.top = s.heap.endAddr := by
      rw [EndsHeap, hptr, (harr.usedHead c (by simp)).1]
      rfl
    -- after the first call
    have hfirst : (Caught s e → Told t.heap t.mem free' c) ∧
        (pinAt s.mem (e.ptr - 8) = 0 → ¬EndsHeap s e → ∃ x, Hidden t.heap t.mem free' c x) := by
      rw [Caught, hends, hptr, hbc.1]
      refine ⟨fun hcaught => ?_, fun hpin hne => ⟨x, hidden_of_prev harr hfootok hpin hne hmerged hxtop hrel⟩⟩
      by_cases hpin : pinAt s.mem c.addr = 1
      · exact told_of_pinAt hpin hmerged hrel ht'.arranged
      · obtain ⟨htop, hbelow⟩ := hcaught.resolve_left hpin
        have hlt := pinAt_lt s.mem c.addr
        obtain ⟨hxaddr, -⟩ := hmerged.prev_spec harr hfootok (by omega)
        have hx : c.addr - read32 s.mem c.addr = x.addr := by omega
        left
        rw [hcut htop, ← hx]
        exact hbelow
    -- and after the writes
    have hinv := Reaches.invariant (fun a => Tracked a free' (l' ++ q') ∧
      (Caught s e → Told a.state.heap a.state.mem free' c) ∧
      (pinAt s.mem (e.ptr - 8) = 0 → ¬EndsHeap s e → ∃ x, Hidden a.state.heap a.state.mem free' c x))
      (by
        rintro a b ⟨hta, htold, hhidden⟩ ⟨w, hiw, hstep⟩
        refine ⟨(hta.isWrite_step hiw hstep).1, fun h => hta.told_step hiw hstep (htold h), fun h h' => ?_⟩
        obtain ⟨x, hx⟩ := hhidden h h'
        exact ⟨x, hta.hidden_step hiw hstep hx⟩) hw ⟨ht', hfirst⟩
    obtain ⟨ht'', htold, hhidden⟩ := hinv
    exact ⟨free', l' ++ q', c, ht'', hbc.1, htold, hhidden⟩

/-- In every run whose calls can trust the tags they read, a second `free` panics and changes
nothing if the block is one that is caught; and one that does not end the heap is caught only
if its `PINUSE` was set. -/
theorem double_free_panics (hs : Created P s)
    (hr : Reaches (fun a b => ∃ c, PaddedCall c ∧ TrustedCall a.state c ∧ Step P a c b) ⟨s, []⟩ r)
    {b : Block} (htrust : TrustedCall r.state (.free b)) (hfree : Step P r (.free b) r') {r'' : Run σ}
    (hw : Reaches (fun a b => ∃ w, IsWrite w ∧ Step P a w b) r' r'') :
    (Caught r.state b → Heap.free P b.ptr r''.state = .error freePanic r''.state) ∧
    (¬EndsHeap r.state b →
      (Heap.free P b.ptr r''.state = .error freePanic r''.state ↔ Caught r.state b)) := by
  have hinv : ∃ free used, Tracked r free used := by
    refine Reaches.invariant (fun r => ∃ free used, Tracked r free used) ?_ hr ?_
    · rintro a b h ⟨c, hpadded, htrust, hstep⟩
      exact tracked_step hpadded htrust hstep h
    · obtain ⟨c, ht, -⟩ := tracked_created hs
      exact ⟨[c], [], ht⟩
  obtain ⟨free, used, c, ht, hptr, htold, hhidden⟩ := remains_of_free hinv htrust hfree hw
  have hpanics : Caught r.state b → Heap.free P b.ptr r''.state = .error freePanic r''.state := by
    intro h
    rw [hptr]
    exact free_told ht.arranged (htold h)
  refine ⟨hpanics, fun hne => ⟨fun hpanic => Or.inl ?_, hpanics⟩⟩
  by_contra hpin
  have hlt := pinAt_lt r.state.mem (b.ptr - 8)
  obtain ⟨x, hx⟩ := hhidden (by omega) hne
  obtain ⟨t, hok⟩ := free_hidden (P := P) ht.arranged hx
  rw [hptr, hok] at hpanic
  cases hpanic

end DoubleFree

/-! The first of two plain blocks, freed twice. -/

theorem double_free_panics_alloc : Heap.free readyPaging 0x1000008 afterFree = .error freePanic afterFree := by
  obtain ⟨hpin, hend⟩ := afterTwo_told
  exact (double_free_panics (r := ⟨afterTwo, [⟨0x1000070, 200⟩, ⟨0x1000008, 100⟩]⟩) (b := ⟨0x1000008, 100⟩)
    created_newHeap
    (.head ⟨.alloc 100, (by decide : 100 + 11 < 2 ^ 32), trivial, .alloc (by decide) afterOne_run⟩
      (.single ⟨.alloc 200, (by decide : 200 + 11 < 2 ^ 32), trivial, .alloc (by decide) afterTwo_run⟩))
    ⟨Or.inl hpin, fun h => absurd h hend⟩ (Step.free (l := [_]) (r := []) afterFree_run) .refl).1 (Or.inl hpin)

/-! An aligned block, freed twice: it is merged with its lead both times. -/

def afterAlignedFree : State Unit := finalState (free readyPaging 0x1001000 afterAligned)

theorem double_free_unnoticed : ¬∀ (r r' : Run Unit) (b : Block),
    Reaches (fun a c => ∃ e, ModestCall e ∧ Step readyPaging a e c) ⟨newHeap, []⟩ r →
      Step readyPaging r (.free b) r' → Heap.free readyPaging b.ptr r'.state = .error freePanic r'.state := by
  have h1 : palignedAlloc readyPaging 4096 newHeap = .ok 0x1001000 afterAligned :=
    ok_of_returned (by decide +kernel)
  have h2 : free readyPaging 0x1001000 afterAligned = .ok () afterAlignedFree := ok_of_returned (by decide +kernel)
  have h3 : returned (free readyPaging 0x1001000 afterAlignedFree) = some () := by decide +kernel
  intro hall
  have hfree : Step readyPaging ⟨afterAligned, [⟨0x1001000, 4096⟩]⟩ (.free ⟨0x1001000, 4096⟩) ⟨afterAlignedFree, []⟩ :=
    Step.free (l := []) (r := []) h2
  have hpanic := hall _ _ _
    (.single ⟨.palignedAlloc 4096, (by decide : 4096 < 2 ^ 31), .palignedAlloc (by decide) h1⟩) hfree
  simp only at hpanic
  rw [hpanic] at h3
  cases h3

end JustKernel.Heap
