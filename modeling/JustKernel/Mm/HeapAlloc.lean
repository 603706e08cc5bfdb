import JustKernel.Mm.HeapChunks

/-! What `alloc` does to an arranged heap. A request is served from a hole, the
first chunk of the free list that is large enough, and if there is none, from the
chunk at the end of the heap after an expansion. The hole is taken whole or cut
in two. The memory afterwards is given up to the links of the free list, which is
enough to read every header and every `prevFoot` off it. -/

namespace JustKernel.Heap

open Memory Halting Links

/-- `hole` serves a request for `nb` bytes; `rest` is the free list without it. -/
inductive Taken (h : HeapT) (m : Mem) (nb : ℕ) (rest : List Chunk) (hole : Chunk) :
    Mem → List Chunk → Chunk → Prop
  | whole {m' : Mem} : hole.size < nb + 16 →
      SameOff (h.head :: nodes rest) (markUsed m hole) m' → Taken h m nb rest hole m' rest hole
  | split {m' : Mem} {l r : List Chunk} {c new : Chunk} : nb + 16 ≤ hole.size →
      c = ⟨hole.addr, nb⟩ → new = ⟨hole.addr + nb, hole.size - nb⟩ → rest = l ++ r →
      SameOff (h.head :: nodes (new :: rest)) (markUsed (write32 m (new.addr + 4) new.size) c) m' →
      Taken h m nb rest hole m' (l ++ new :: r) c

/-- The end of the heap after an expansion for `nb` bytes. -/
def grownEnd (h : HeapT) (nb : ℕ) : ℕ := (h.endAddr + nb + 4095) / pageSize * pageSize

/-- The heap grows to end at `e`, and `top` is the free chunk there. -/
inductive Grown (h : HeapT) (m : Mem) (free : List Chunk) (e : ℕ) :
    Mem → List Chunk → Chunk → Prop
  | extend {m' : Mem} {l r l' r' : List Chunk} {old top : Chunk} : free = l ++ old :: r →
      old.top = h.endAddr → top = ⟨old.addr, e - old.addr⟩ → l ++ r = l' ++ r' →
      SameOff (h.head :: nodes (top :: (l ++ r))) (write32 m (top.addr + 4) (top.size + 1)) m' →
      Grown h m free e m' (l' ++ top :: r') top
  | fresh {m' : Mem} {l r : List Chunk} {top : Chunk} : (∀ d ∈ free, d.top ≠ h.endAddr) →
      top = ⟨h.endAddr, e - h.endAddr⟩ → free = l ++ r →
      SameOff (h.head :: nodes (top :: free)) (write32 m (top.addr + 4) (top.size + 1)) m' →
      Grown h m free e m' (l ++ top :: r) top

def HeapT.withEnd (h : HeapT) (e : ℕ) : HeapT := { h with endAddr := e }

/-- A request for `nb` bytes is served from `hole` with the chunk `c`. -/
inductive Served (h : HeapT) (m : Mem) (free used : List Chunk) (nb : ℕ) :
    HeapT → Mem → List Chunk → Chunk → Chunk → Prop
  | found {m' : Mem} {free' l r : List Chunk} {hole c : Chunk} : free = l ++ hole :: r →
      nb ≤ hole.size → (∀ d ∈ l, d.size < nb) → Taken h m nb (l ++ r) hole m' free' c →
      Served h m free used nb h m' free' hole c
  | grown {m₁ m' : Mem} {free₁ free' l r : List Chunk} {hole c : Chunk} :
      (∀ d ∈ free, d.size < nb) → Grown h m free (grownEnd h nb) m₁ free₁ hole →
      Arranged (h.withEnd (grownEnd h nb)) m₁ free₁ used → free₁ = l ++ hole :: r →
      Taken (h.withEnd (grownEnd h nb)) m₁ nb (l ++ r) hole m' free' c →
      Served h m free used nb (h.withEnd (grownEnd h nb)) m' free' hole c

section List

variable {σ : Type} {s : State σ} {free used l r : List Chunk} {c : Chunk}

theorem Laid.removeChunk_spec (ha : Laid s.heap s.mem (l ++ c :: r) used) :
    ∃ m, removeChunk c.addr s = .ok () (s.setMem m) ∧ Laid s.heap m (l ++ r) used ∧
      Loose s.heap (l ++ r) used c ∧ SameOff (s.heap.head :: nodes (l ++ r)) s.mem m := by
  obtain ⟨m, hrun, hring, hsame⟩ := Heap.removeChunk_spec ha.spans ha.ring ha.walkable.placed
  obtain ⟨harr, hloose⟩ := ha.take hring hsame
  exact ⟨m, hrun, harr, hloose, hsame⟩

theorem Laid.insertChunk_spec (ha : Laid s.heap s.mem free used)
    (hc : Loose s.heap free used c) (hhead : HeadIs s.mem c 0) :
    ∃ l r m, free = l ++ r ∧ InsertAt c.size l r ∧ insertChunk c.addr s = .ok () (s.setMem m) ∧
      Laid s.heap m (l ++ c :: r) used ∧ SameOff (s.heap.head :: nodes (c :: free)) s.mem m := by
  have hnew : ∀ d ∈ free, d.addr ≠ c.addr := fun d hd =>
    (ha.fits d (List.mem_append_left _ hd)).addr_ne_of_apart hc.fits
      (hc.apart d (List.mem_append_left _ hd)).symm
  obtain ⟨l, r, m, hfree, hat, hrun, hring, hsame⟩ :=
    Heap.insertChunk_spec ha.spans ha.walkable hc.fits.placed hnew
  subst hfree
  exact ⟨l, r, m, rfl, hhead.1 ▸ hat, hrun, ha.give hc hhead hring hsame, hsame⟩

end List

/-- The header that a store of a size with flags makes. -/
theorem headIs_write32 {h : HeapT} {c : Chunk} (hs : Spans h) (hc : Fits h c) {f : ℕ} (hf : f < 4)
    (m : Mem) : HeadIs (write32 m (c.addr + 4) (c.size + f)) c (f / 2) := by
  have := hc.size_aligned
  have hlt := hc.lt hs
  unfold Chunk.top at hlt
  unfold HeadIs sizeAt usedAt
  rw [read32_write32 _ _ _ (by omega)]
  omega

/-- A store to the header of a loose chunk. -/
theorem Laid.write_head {h : HeapT} {m : Mem} {free used : List Chunk} {c : Chunk}
    (ha : Laid h m free used) (hc : Loose h free used c) (v : ℕ) :
    Laid h (write32 m (c.addr + 4) v) free used := by
  refine ha.of_loose hc ?_
  intro x hx
  have := hc.fits.min_le
  unfold Chunk.top at hx
  exact store_apply_of_not_mem _ _ _ _ _ (by omega)

section UseHole

variable {σ : Type} {s : State σ} {m m₀ : Mem} {free rest used l r : List Chunk} {hole c new : Chunk} {nb : ℕ}

/-- A loose chunk gets its header and goes to the list. -/
theorem Laid.list_spec (ha : Laid s.heap m free used) (hc : Loose s.heap free used c) (v : ℕ)
    (hhead : HeadIs (write32 m (c.addr + 4) v) c 0) (hsame : SameOff (s.heap.head :: nodes free) m₀ m) :
    ∃ l r m', free = l ++ r ∧ InsertAt c.size l r ∧
      insertChunk c.addr (s.setMem (write32 m (c.addr + 4) v)) = .ok () (s.setMem m') ∧
      Laid s.heap m' (l ++ c :: r) used ∧
      SameOff (s.heap.head :: nodes (c :: free)) (write32 m₀ (c.addr + 4) v) m' := by
  have harr := ha.write_head hc v
  obtain ⟨l, r, m', hfree, hat, hins, harr', hsame'⟩ :=
    harr.insertChunk_spec (s := s.setMem (write32 m (c.addr + 4) v)) hc hhead
  refine ⟨l, r, m', hfree, hat, hins, harr', SameOff.trans ?_ hsame'⟩
  refine (hsame.write32 _ _).mono ?_
  intro u hu
  simp only [nodes, List.map_cons, List.mem_cons] at hu ⊢
  tauto

theorem Loose.give (hc : Loose s.heap (l ++ r) used c) {d : Chunk} (hcd : Apart c d) :
    Loose s.heap (l ++ d :: r) used c := by
  refine ⟨hc.fits, ?_⟩
  intro e he
  rw [List.append_assoc, List.cons_append] at he
  rcases mem_middle.mp he with rfl | he
  · exact hcd
  · rw [← List.append_assoc] at he
    exact hc.apart e he

/-- The hole is cut: what is left goes to the list, and the first part into use. -/
theorem splitHole_spec (ha : Laid s.heap m rest used) (hloose : Loose s.heap rest used hole)
    (h8 : nb % 8 = 0) (h16 : 16 ≤ nb) (hbig : nb + 16 ≤ hole.size) (hc : c = ⟨hole.addr, nb⟩)
    (hnew : new = ⟨hole.addr + nb, hole.size - nb⟩) (hsame : SameOff (s.heap.head :: nodes rest) m₀ m) :
    ∃ l r m' t, rest = l ++ r ∧ InsertAt new.size l r ∧ Placed s.heap new.addr ∧
      insertChunk new.addr (s.setMem (write32 m (new.addr + 4) new.size)) = .ok () (s.setMem m') ∧
      setInuse c.addr c.size (s.setMem m') = .ok () t ∧ t.heap = s.heap ∧ t.outside = s.outside ∧
      Laid s.heap t.mem (l ++ new :: r) (c :: used) ∧
      SameOff (s.heap.head :: nodes (new :: rest)) (markUsed (write32 m₀ (new.addr + 4) new.size) c) t.mem := by
  obtain ⟨hlow, hhigh, hap⟩ := hloose.split h8 h16 hbig
  rw [← hc] at hlow hap
  rw [← hnew] at hhigh hap
  obtain ⟨l, r, m', hlr, hat, hins, harr, hsame'⟩ :=
    ha.list_spec hhigh new.size (headIs_write32 ha.spans hhigh.fits (f := 0) (by omega) m) hsame
  have hlow' : Loose s.heap (l ++ new :: r) used c := (hlr ▸ hlow).give hap
  obtain ⟨t, hmark, htm, hth, htout⟩ := setInuse_run (s := s.setMem m') ha.spans hlow.fits
  have hinside : c.top ≠ s.heap.endAddr := by
    have := hloose.fits.top_le
    rw [hc]
    unfold Chunk.top at this ⊢
    simp only
    omega
  refine ⟨l, r, m', t, hlr, hat, hhigh.fits.placed, hins, hmark, hth, htout hinside,
    htm ▸ harr.markUsed_spec hlow', ?_⟩
  have hnear : ∀ d ∈ new :: rest, Fits s.heap d ∧ (d = c ∨ Apart c d) := by
    intro d hd
    rcases List.mem_cons.mp hd with rfl | hd
    · exact ⟨hhigh.fits, Or.inr hap⟩
    · have hd' := List.mem_append_left used hd
      exact ⟨ha.fits d hd', Or.inr (hlow.apart d hd')⟩
  rw [htm]
  exact sameOff_markUsed ha.spans hlow.fits hnear hsame'

/-- `alloc` with a hole that is large enough. -/
theorem useHole_spec (ha : Laid s.heap s.mem (l ++ hole :: r) used) (h8 : nb % 8 = 0)
    (h16 : 16 ≤ nb) (hle : nb ≤ hole.size) :
    ∃ t free' c, useHole hole.addr nb s = .ok (c.addr + 8) t ∧ t.heap = s.heap ∧
      Taken s.heap s.mem nb (l ++ r) hole t.mem free' c ∧
      Laid s.heap t.mem free' (c :: used) ∧ (BySize (l ++ hole :: r) → BySize free') ∧
      (nb + 16 ≤ hole.size ∨ hole.top ≠ s.heap.endAddr → t.outside = s.outside) := by
  have hrest : BySize (l ++ hole :: r) → BySize (l ++ r) := fun h =>
    h.sublist ((List.Sublist.refl l).append (List.sublist_cons_self hole r))
  have hfit : Fits s.heap hole := ha.fits hole (by simp)
  have hlt := hfit.lt ha.spans
  have hsize : sizeAt s.mem hole.addr = hole.size := (ha.freeHead hole (by simp)).1
  obtain ⟨m₁, hrem, harr₁, hloose, hsame₁⟩ := ha.removeChunk_spec
  have hmem : chunk2mem hole.addr = hole.addr + 8 := by
    have := hfit.placed.lt ha.spans
    exact add32_eq (by omega)
  have hpref : ∀ d ∈ l ++ r, Fits s.heap d ∧ (d = hole ∨ Apart hole d) := fun d hd =>
    ⟨harr₁.fits d (List.mem_append_left _ hd), Or.inr (hloose.apart d (List.mem_append_left _ hd))⟩
  have hsize₁ : sizeAt m₁ hole.addr = hole.size := by
    unfold sizeAt at hsize ⊢
    rw [hsame₁.read32 fun u hu => by have := off_links ha.spans hfit hpref u hu; omega, hsize]
  -- the operations up to the test of the size
  have hstart : ∀ f : ℕ → HeapM σ ℕ, (do
      assert "chunksize(hole) >= nb" (nb ≤ (← chunksize hole.addr))
      removeChunk hole.addr
      let csize ← chunksize hole.addr
      f csize) s = f hole.size (s.setMem m₁) := by
    intro f
    rw [bind_of_ok (chunksize_ok ha.spans hfit.placed), hsize, assert, if_pos (by simpa using hle),
      pure_bind_run, bind_of_ok hrem, bind_of_ok (chunksize_ok (s := s.setMem m₁) ha.spans hfit.placed),
      setMem_mem, hsize₁]
  have hge := hfit.placed.ge ha.spans
  unfold Chunk.top at hlt
  have hadd : add32 nb minChunkSize = nb + 16 := add32_eq (by unfold minChunkSize; omega)
  rw [useHole, hstart, hadd]
  by_cases hbig : nb + 16 ≤ hole.size
  · generalize hc : (⟨hole.addr, nb⟩ : Chunk) = c
    generalize hn : (⟨hole.addr + nb, hole.size - nb⟩ : Chunk) = new
    have hnew : add32 hole.addr nb = new.addr := by rw [← hn]; exact add32_eq (by omega)
    have hnsize : sub32 hole.size nb = new.size := by rw [← hn]; exact sub32_eq (by omega) (by omega)
    have hcaddr : hole.addr = c.addr := by rw [← hc]
    have hcsize : nb = c.size := by rw [← hc]
    obtain ⟨l', r', m₃, t, hlr, hat, hplaced, hins, hmark, hth, htout, harr, hsame⟩ :=
      splitHole_spec harr₁ hloose h8 h16 hbig hc.symm hn.symm hsame₁
    refine ⟨t, l' ++ new :: r', c, ?_, hth, .split hbig hc.symm hn.symm hlr hsame, harr,
      fun h => hat.bySize (hlr ▸ hrest h), fun _ => htout⟩
    rw [if_pos hbig, hnew, hnsize, bind_of_ok (setHead_ok (s := s.setMem m₁) ha.spans hplaced _), setMem_setMem,
      setMem_mem, bind_of_ok hins, hcsize, hcaddr, bind_of_ok hmark, ← hcaddr, ← hmem]
    rfl
  · obtain ⟨t, hmark, htm, hth, htout⟩ := setInuse_run (s := s.setMem m₁) ha.spans hfit
    refine ⟨t, l ++ r, hole, ?_, hth, .whole (by omega) ?_, htm ▸ harr₁.markUsed_spec hloose, hrest, ?_⟩
    · rw [if_neg hbig, bind_of_ok hmark, ← hmem]
      rfl
    · rw [htm]
      exact sameOff_markUsed ha.spans hfit hpref hsame₁
    · rintro (h | h)
      · exact absurd h hbig
      · exact htout h

end UseHole

/-! ### Expansion -/

section Expansion

variable {σ : Type} {P : Paging σ} {s : State σ} {free used : List Chunk} {nb : ℕ}

/-- A call into the memory managers changes nothing of the heap. -/
theorem call_ends {α : Type} (f : σ → Option (α × σ)) (s : State σ) :
    Ends (fun a t => t.mem = s.mem ∧ t.heap = s.heap ∧ t.outside = s.outside ∧
      ∃ pages, f s.pages = some (a, pages)) (fun t => t.outside = s.outside) (call f s) := by
  cases hf : f s.pages with
  | none =>
    have hrun : call f s = .error .paging s := by rw [call, get_bind_run, hf]; rfl
    rw [hrun]
    exact rfl
  | some v =>
    have hrun : call f s = .ok v.1 { s with pages := v.2 } := by rw [call, get_bind_run, hf]; rfl
    rw [hrun]
    exact ⟨rfl, rfl, rfl, v.2, rfl⟩

theorem callUnit_ends (f : σ → Option σ) (s : State σ) :
    Ends (fun _ t => t.mem = s.mem ∧ t.heap = s.heap ∧ t.outside = s.outside)
      (fun t => t.outside = s.outside) (callUnit f s) :=
  (call_ends _ s).imp fun _ _ ht => ⟨ht.1, ht.2.1, ht.2.2.1⟩

theorem assert_ends (text : String) (b : Bool) (s : State σ) :
    Ends (fun _ t => t = s ∧ b = true) (fun t => t.outside = s.outside) (assert text b s) := by
  cases b with
  | false => exact rfl
  | true => exact ⟨rfl, rfl⟩

theorem roundToPage_eq {n : ℕ} (hn : n < 4294967296) :
    roundToPage n = (n + 4095) / 4096 * 4096 % 4294967296 := by
  unfold roundToPage pageSize
  split_ifs with h
  · rw [and_pageMask hn, add32]
    unfold pageSize
    omega
  · omega

/-- The size of a heap, as `expand` and `contract` compute it. -/
theorem Geometry.size_eq {h : HeapT} (hg : Geometry h) : sub32 h.endAddr h.startAddr = h.endAddr - h.startAddr := by
  have := hg.min_le
  have := hg.end_le
  have := hg.max_le
  exact sub32_eq (by omega) (by omega)

/-- A sum above its first term has not wrapped. -/
theorem add32_of_lt {a b : ℕ} (hb : b < 4294967296) (h : a < add32 a b) : add32 a b = a + b := by
  unfold add32 at h ⊢
  omega

/-- `expand` as `alloc` calls it. The new end is not reduced: an expansion past the end of the
address space asks for more pages than there are. -/
theorem expand_ends (hg : Geometry s.heap) (h8 : nb % 8 = 0) (h0 : 0 < nb) (hnb : nb < 4294967296) :
    Ends (fun _ t => t.mem = s.mem ∧ t.heap = s.heap.withEnd (grownEnd s.heap nb) ∧
        t.outside = s.outside ∧ grownEnd s.heap nb ≤ s.heap.maxAddr)
      (fun t => t.outside = s.outside)
      (expand P (add32 (sub32 s.heap.endAddr s.heap.startAddr) nb) s) := by
  have hold := hg.size_eq
  obtain ⟨-, hstart, hend, hmin, hle, hmax⟩ := hg
  unfold pageSize at hstart hend
  unfold heapMinSize at hmin
  rw [expand, bind_of_ok (getHeap_run s), hold]
  refine (assert_ends _ _ s).bind ?_
  rintro - t ⟨rfl, hgt⟩
  simp only [gt_iff_lt, decide_eq_true_eq] at hgt
  -- the sum did not wrap, or it would be below the old size
  have hsum := add32_of_lt hnb hgt
  rw [hsum, roundToPage_eq (by unfold add32 at hsum; omega)]
  generalize hR : (t.heap.endAddr - t.heap.startAddr + nb + 4095) / 4096 * 4096 = R
  refine (assert_ends _ _ t).bind ?_
  rintro - t ⟨rfl, hfit⟩
  simp only [decide_eq_true_eq] at hfit
  rw [modify_bind_run]
  refine (call_ends _ _).bind ?_
  rintro phys t' ⟨hmem, hheap, hout, pages, halloc⟩
  have hsize : sub32 (add32 t.heap.startAddr (R % 4294967296)) t.heap.endAddr =
      R - (t.heap.endAddr - t.heap.startAddr) := by
    unfold sub32 add32
    unfold add32 at hsum
    omega
  have hsmall := P.pmmAlloc_le (by rw [hsize]; unfold pageSize; omega)
    (by rw [hsize]; unfold add32 at hsum; omega) halloc
  rw [hsize] at hsmall
  unfold pageSize at hsmall
  have hnew : add32 t.heap.startAddr (R % 4294967296) = grownEnd t.heap nb := by
    unfold add32 grownEnd pageSize
    omega
  rw [hnew] at hfit hheap ⊢
  refine (callUnit_ends _ t').mono ?_ ?_
  · rintro - u ⟨hm, hh, ho⟩
    exact ⟨hm.trans hmem, hh.trans hheap, ho.trans hout, hfit⟩
  · intro u hu
    exact hu.trans hout

theorem grownEnd_spec {h : HeapT} (hg : Geometry h) (nb : ℕ) :
    grownEnd h nb % pageSize = 0 ∧ h.endAddr + nb ≤ grownEnd h nb := by
  have := hg.end_aligned
  unfold grownEnd pageSize at *
  omega

theorem Geometry.withEnd_spec {h : HeapT} {e : ℕ} (hg : Geometry h) (he : h.endAddr ≤ e)
    (halign : e % pageSize = 0) (hmax : e ≤ h.maxAddr) : Geometry (h.withEnd e) :=
  ⟨hg.head_le, hg.start_aligned, halign, hg.min_le.trans he, hmax, hg.max_le⟩

theorem Fits.withEnd_spec {h : HeapT} {e : ℕ} {c : Chunk} (hc : Fits h c) (he : c.top ≤ e) :
    Fits (h.withEnd e) c :=
  ⟨hc.addr_aligned, hc.size_aligned, hc.min_le, hc.start_le, he⟩

/-- The bounds of an arranged heap may move as long as every chunk stays inside. -/
theorem Arranged.withEnd_spec {h : HeapT} {m : Mem} {e : ℕ} (ha : Arranged h m free used)
    (hg : Geometry (h.withEnd e)) (he : ∀ c ∈ free ++ used, c.top ≤ e) :
    Arranged (h.withEnd e) m free used :=
  ⟨⟨hg.spans, ha.ring, fun c hc => (ha.fits c hc).withEnd_spec (he c hc), ha.apart, ha.freeHead, ha.usedHead⟩, hg⟩

theorem setSizeAndPinuse_ok {c : Chunk} (hs : Spans s.heap) (hc : Fits s.heap c) :
    setSizeAndPinuse c.addr c.size s = .ok () (s.setMem (write32 s.mem (c.addr + 4) (c.size + 1))) := by
  rw [setSizeAndPinuse, setHead_ok hs hc.placed, or_low hc.size_aligned (by unfold pinuseBit; omega)]

theorem pinuse_run {c : ℕ} (hc : c + 4 < 4294967296) (s : State σ) :
    pinuse c s = .ok (pinAt s.mem c != 0) (s.touch (c + 4)) := by
  rw [pinuse, bind_of_ok (getHead_run hc s), and_pinuseBit]
  rfl

theorem cinuse_run {c : ℕ} (hc : c + 4 < 4294967296) (s : State σ) :
    cinuse c s = .ok (usedAt s.mem c != 0) (s.touch (c + 4)) := by
  rw [cinuse, bind_of_ok (getHead_run hc s), and_cinuseBit, pure_run]
  unfold usedAt
  generalize read32 s.mem (c + 4) / 2 = n
  rcases Nat.mod_two_eq_zero_or_one n with h | h <;> simp [h]

theorem okInuse_ok {c : ℕ} (hs : Spans s.heap) (hc : Placed s.heap c) :
    okInuse c s = .ok (read32 s.mem (c + 4) % 4 != 1) s := by
  have hlt := hc.lt hs
  rw [okInuse, bind_of_ok (getHead_run (by omega) s), touch_of_inBounds (hc.word (by omega)), and_inuseBits, pure_run]

theorem pinuse_ok {c : ℕ} (hs : Spans s.heap) (hc : Placed s.heap c) :
    pinuse c s = .ok (pinAt s.mem c != 0) s := by
  have := hc.lt hs
  rw [pinuse_run (by omega), touch_of_inBounds (hc.word (by omega))]

theorem cinuse_ok {c : ℕ} (hs : Spans s.heap) (hc : Placed s.heap c) :
    cinuse c s = .ok (usedAt s.mem c != 0) s := by
  have := hc.lt hs
  rw [cinuse_run (by omega), touch_of_inBounds (hc.word (by omega))]

theorem checkTop_ok {c : ℕ} (hs : Spans s.heap) (hc : Placed s.heap c) (hfree : usedAt s.mem c = 0) :
    checkTop c s = .ok () s := by
  rw [checkTop, bind_of_ok (pinuse_ok hs hc)]
  split_ifs
  · rfl
  · rw [bind_of_ok (cinuse_ok hs hc), hfree]
    rfl

/-- The new memory as a chunk of its own. -/
theorem Arranged.fresh_top {h : HeapT} {m : Mem} {e : ℕ} (ha : Arranged h m free used)
    (he : h.endAddr + 16 ≤ e) (halign : e % pageSize = 0) :
    Loose (h.withEnd e) free used ⟨h.endAddr, e - h.endAddr⟩ := by
  have hpage := ha.geo.end_aligned
  have hmin := ha.geo.min_le
  unfold pageSize at hpage halign
  have hend : h.endAddr + (e - h.endAddr) ≤ e := by omega
  exact ⟨fits_mk (by omega) (by omega) (by omega) (by simp only [HeapT.withEnd]; omega) hend,
    fun d hd => Or.inr (ha.fits d hd).top_le⟩

/-- The old last chunk with the new memory. -/
theorem Arranged.extended_top {h : HeapT} {m : Mem} {e : ℕ} {l r : List Chunk} {c : Chunk}
    (ha : Arranged h m (l ++ c :: r) used) (he : h.endAddr + 16 ≤ e) (halign : e % pageSize = 0)
    (htop : c.top = h.endAddr) : Loose (h.withEnd e) (l ++ r) used ⟨c.addr, e - c.addr⟩ := by
  have hfit := ha.fits c (by simp)
  have haddr := hfit.addr_aligned
  have hsize := hfit.min_le
  have hend : c.addr + (e - c.addr) ≤ e := by
    unfold Chunk.top at htop
    omega
  unfold pageSize at halign
  constructor
  · unfold Chunk.top at htop
    exact fits_mk haddr (by omega) (by omega) hfit.start_le hend
  · -- the other chunks end where the last one begins or before
    intro d hd
    have hmem : d ∈ (l ++ c :: r) ++ used := by
      rw [List.append_assoc] at hd ⊢
      exact mem_middle.mpr (Or.inr hd)
    have hne : d ≠ c := by
      rintro rfl
      exact apart_self hfit (ha.free_apart.1 d hd)
    exact Or.inr (ha.below_last (by simp) htop d hmem hne)

/-- If the highest free chunk does not end the heap, none does. -/
theorem Arranged.none_last {h : HeapT} {m : Mem} {c : Chunk} (ha : Arranged h m free used) (hc : c ∈ free)
    (hhigh : ∀ d ∈ free, d.addr ≤ c.addr) (htop : c.top ≠ h.endAddr) : ∀ d ∈ free, d.top ≠ h.endAddr := by
  intro d hd hdtop
  have hcAll := List.mem_append_left used hc
  have hne : c ≠ d := by
    rintro rfl
    exact htop hdtop
  have hbelow := ha.below_last (List.mem_append_left _ hd) hdtop c hcAll hne
  have := (ha.fits c hcAll).min_le
  have := hhigh d hd
  unfold Chunk.top at hbelow
  omega

/-- What `topChunk` does after the highest free chunk has been found. -/
theorem topChunk_run {e : ℕ} {c : Chunk} (ha : Laid s.heap s.mem free used) (hend : s.heap.endAddr = e)
    (hc : c ∈ free) (hrun : highestEntry s = .ok c.node s) (oldEnd : ℕ) :
    topChunk oldEnd s = (if c.top ≠ oldEnd then
        pure (oldEnd, sub32 e oldEnd)
      else do
        removeChunk c.addr
        pure (c.addr, sub32 e c.addr) : HeapM σ (ℕ × ℕ)) s := by
  have hfit := ha.fits c (List.mem_append_left _ hc)
  have hlt := hfit.lt ha.spans
  have hpl := hfit.placed.lt ha.spans
  have hentry : listEntry c.node = c.addr := by
    rw [listEntry, Chunk.node, sub32_eq (by omega) (by omega), Nat.add_sub_cancel]
  have hnode : c.node ≠ 0 := by unfold Chunk.node; omega
  have hcheck := checkTop_ok ha.spans hfit.placed (ha.freeHead c hc).2
  have hsize : chunksize c.addr s = .ok c.size s := by
    rw [chunksize_ok ha.spans hfit.placed, (ha.freeHead c hc).1]
  have hadd : add32 c.addr c.size = c.top := add32_eq (by unfold Chunk.top at hlt; omega)
  rw [topChunk, bind_of_ok hrun, bind_of_ok (getHeap_run s), if_neg hnode, hentry, bind_of_ok hcheck,
    bind_of_ok hsize, hadd, hend]

/-- The chunk at the new end of the heap is taken off the list if it is the old last chunk. -/
theorem topChunk_spec {h : HeapT} {e : ℕ} (ha : Arranged h s.mem free used)
    (hheap : s.heap = h.withEnd e) (he : h.endAddr + 16 ≤ e) (halign : e % pageSize = 0)
    (hmax : e ≤ h.maxAddr) :
    ∃ top rest m, topChunk h.endAddr s = .ok (top.addr, top.size) (s.setMem m) ∧
      Arranged s.heap m rest used ∧ Loose s.heap rest used top ∧
      SameOff (s.heap.head :: nodes rest) s.mem m ∧
      ((∃ l old r, free = l ++ old :: r ∧ rest = l ++ r ∧ old.top = h.endAddr ∧
          top = ⟨old.addr, e - old.addr⟩) ∨
        (rest = free ∧ (∀ d ∈ free, d.top ≠ h.endAddr) ∧ top = ⟨h.endAddr, e - h.endAddr⟩)) := by
  have hlim := ha.geo.max_le
  have harr : Arranged s.heap s.mem free used := by
    rw [hheap]
    exact ha.withEnd_spec (ha.geo.withEnd_spec (by omega) halign hmax)
      fun c hc => (ha.fits c hc).top_le.trans (by omega)
  have hend : s.heap.endAddr = e := by rw [hheap]; rfl
  have hnew : Loose s.heap free used ⟨h.endAddr, e - h.endAddr⟩ := hheap ▸ ha.fresh_top he halign
  have hsub : sub32 e h.endAddr = e - h.endAddr := sub32_eq (by omega) (by omega)
  rcases highestEntry_spec harr.spans harr.walkable with ⟨hnil, hrun⟩ | ⟨c, hc, hrun, hhigh⟩
  · refine ⟨⟨h.endAddr, e - h.endAddr⟩, free, s.mem, ?_, harr, hnew, .refl _ _, Or.inr ⟨rfl, ?_, rfl⟩⟩
    · rw [topChunk, bind_of_ok hrun, bind_of_ok (getHeap_run s), if_pos rfl, hend, hsub]
      rfl
    · rw [hnil]
      simp
  · have htopRun := topChunk_run harr.toLaid hend hc hrun h.endAddr
    by_cases htop : c.top = h.endAddr
    · obtain ⟨l, r, rfl⟩ := List.append_of_mem hc
      obtain ⟨m, hrem, hlaid, -, hsame⟩ := harr.removeChunk_spec
      have harr' := hlaid.arranged harr.geo
      have hloose := ha.extended_top he halign htop
      rw [← hheap] at hloose
      have hsub' : sub32 e c.addr = e - c.addr := by
        unfold Chunk.top at htop
        exact sub32_eq (by omega) (by omega)
      refine ⟨⟨c.addr, e - c.addr⟩, l ++ r, m, ?_, harr', hloose, hsame, Or.inl ⟨l, c, r, rfl, rfl, htop, rfl⟩⟩
      rw [htopRun, if_neg (not_not_intro htop), bind_of_ok hrem, hsub']
      rfl
    · refine ⟨⟨h.endAddr, e - h.endAddr⟩, free, s.mem, ?_, harr, hnew, .refl _ _,
        Or.inr ⟨rfl, ha.none_last hc hhigh htop, rfl⟩⟩
      rw [htopRun, if_pos htop, hsub]
      rfl

/-- The top chunk of the expanded heap goes to the list. -/
theorem listTop_spec {t : State σ} (ha : Arranged s.heap s.mem free used) (hmem : t.mem = s.mem)
    (hheap : t.heap = s.heap.withEnd (grownEnd s.heap nb)) (h16 : 16 ≤ nb) (hmax : grownEnd s.heap nb ≤ s.heap.maxAddr) :
    ∃ u free' top, (do
        let top ← topChunk s.heap.endAddr
        setSizeAndPinuse top.1 top.2
        insertChunk top.1 : HeapM σ Unit) t = .ok () u ∧ u.heap = t.heap ∧
      Grown s.heap s.mem free (grownEnd s.heap nb) u.mem free' top ∧ Arranged u.heap u.mem free' used ∧
      (BySize free → BySize free') ∧ u.outside = t.outside := by
  obtain ⟨halign, hge⟩ := grownEnd_spec ha.geo nb
  obtain ⟨top, rest, m, hrun, harr, hloose, hsame, hcase⟩ :=
    topChunk_spec (s := t) (h := s.heap) (hmem ▸ ha) hheap (by omega) halign hmax
  have hhead := headIs_write32 harr.spans hloose.fits (f := 1) (by omega) m
  obtain ⟨l, r, m', hrest, hat, hins, hlaid, hsame'⟩ := harr.list_spec hloose (top.size + 1) hhead hsame
  rw [bind_of_ok hrun, bind_of_ok (setSizeAndPinuse_ok (s := t.setMem m) harr.spans hloose.fits),
    setMem_setMem, setMem_mem, hins]
  have hsub : rest.Sublist free := by
    rcases hcase with ⟨l₀, old, r₀, hfree, hrest₀, -⟩ | ⟨hrest₀, -⟩
    · rw [hfree, hrest₀]
      exact (List.Sublist.refl l₀).append (List.sublist_cons_self old r₀)
    · rw [hrest₀]
  refine ⟨_, l ++ top :: r, top, rfl, rfl, ?_, hlaid.arranged harr.geo, fun h => hat.bySize (hrest ▸ h.sublist hsub), rfl⟩
  have hhd : t.heap.head = s.heap.head := by rw [hheap]; rfl
  rw [hhd, hmem] at hsame'
  rcases hcase with ⟨l₀, old, r₀, hfree, hrest₀, hold, htop⟩ | ⟨hrest₀, hnone, htop⟩
  · exact .extend hfree hold htop (hrest₀ ▸ hrest) (hrest₀ ▸ hsame')
  · subst hrest₀
    exact .fresh hnone htop hrest hsame'

/-- The branch of `alloc` for a request that no chunk can hold. -/
theorem growFor_ends (ha : Arranged s.heap s.mem free used) (h8 : nb % 8 = 0) (h16 : 16 ≤ nb)
    (hnb : nb < 4294967296) :
    Ends (fun _ t => ∃ free' top, t.heap = s.heap.withEnd (grownEnd s.heap nb) ∧
        Grown s.heap s.mem free (grownEnd s.heap nb) t.mem free' top ∧
        Arranged t.heap t.mem free' used ∧ (BySize free → BySize free') ∧ t.outside = s.outside)
      (fun t => t.outside = s.outside) (growFor P nb s) := by
  rw [growFor, bind_of_ok (getHeap_run s)]
  refine (expand_ends ha.geo h8 (by omega) hnb).bind ?_
  rintro - t ⟨hmem, hheap, hout, hmax⟩
  obtain ⟨u, free', top, hrun, hheap', hgrown, harr, hsize, hout'⟩ := listTop_spec ha hmem hheap h16 hmax
  rw [hrun]
  exact ⟨free', top, hheap'.trans hheap, hgrown, harr, hsize, hout'.trans hout⟩

end Expansion

/-! ### Requests -/

theorem request2size_spec {size : ℕ} (hsize : size + 11 < 4294967296) :
    request2size size % 8 = 0 ∧ 16 ≤ request2size size ∧ size + 4 ≤ request2size size ∧
      request2size size < 4294967296 := by
  unfold request2size minRequest minChunkSize
  split_ifs with h
  · omega
  · have hadd : add32 size (chunkOverhead + 7) = size + 11 := add32_eq hsize
    rw [padRequest, hadd, and_sizeMask hsize]
    omega

section Alloc

variable {σ : Type} {P : Paging σ} {s : State σ} {free used : List Chunk} {size : ℕ}

/-- The chunk at the grown end has room for the request, and nothing else on the list is new. -/
theorem Grown.top_spec {h : HeapT} {m m' : Mem} {free' : List Chunk} {top : Chunk} {nb : ℕ}
    (hgrown : Grown h m free (grownEnd h nb) m' free' top) (hg : Geometry h) :
    top ∈ free' ∧ nb ≤ top.size ∧ top.top = grownEnd h nb ∧ ∀ d ∈ free', d = top ∨ d ∈ free := by
  obtain ⟨-, hge⟩ := grownEnd_spec hg nb
  cases hgrown with
  | @extend l r l' r' old _ hfree hold htop hrest _ =>
    have hsize : top.size = grownEnd h nb - old.addr := by rw [htop]
    have haddr : top.addr = old.addr := by rw [htop]
    unfold Chunk.top at hold ⊢
    refine ⟨by simp, by omega, by omega, ?_⟩
    intro d hd
    refine (mem_middle.mp hd).imp id ?_
    intro hd
    rw [hfree]
    exact mem_middle.mpr (Or.inr (hrest ▸ hd))
  | @fresh l r _ _ htop hfree _ =>
    have hsize : top.size = grownEnd h nb - h.endAddr := by rw [htop]
    have haddr : top.addr = h.endAddr := by rw [htop]
    unfold Chunk.top
    refine ⟨by simp, by omega, by omega, ?_⟩
    intro d hd
    rw [hfree]
    exact mem_middle.mp hd

/-- Growing writes one header, and the links of the new list. -/
theorem Grown.sameOff {h : HeapT} {m m' : Mem} {free' : List Chunk} {e : ℕ} {top : Chunk}
    (hgrown : Grown h m free e m' free' top) :
    SameOff (h.head :: nodes free') (write32 m (top.addr + 4) (top.size + 1)) m' := by
  have hmono : ∀ l r : List Chunk, ∀ u ∈ h.head :: nodes (top :: (l ++ r)),
      u ∈ h.head :: nodes (l ++ top :: r) := by
    intro l r u hu
    refine List.mem_cons.mpr ((List.mem_cons.mp hu).imp id fun hu => ?_)
    obtain ⟨d, hd, rfl⟩ := List.mem_map.mp hu
    exact List.mem_map_of_mem (mem_middle.mpr (List.mem_cons.mp hd))
  cases hgrown with
  | extend _ _ _ hrest hsame =>
    rw [hrest] at hsame
    exact hsame.mono (hmono _ _)
  | fresh _ _ hfree hsame =>
    rw [hfree] at hsame
    exact hsame.mono (hmono _ _)

/-- `alloc` serves the request, or one of its calls for more memory does not return. -/
theorem alloc_ends (ha : Arranged s.heap s.mem free used) (hsize : size + 11 < 4294967296) :
    Ends (fun p t => ∃ free' hole c, p = c.addr + 8 ∧
        Served s.heap s.mem free used (request2size size) t.heap t.mem free' hole c ∧
        Arranged t.heap t.mem free' (c :: used) ∧
        (request2size size + 16 ≤ hole.size ∨ hole.top ≠ t.heap.endAddr → t.outside = s.outside))
      (fun t => t.outside = s.outside) (alloc P size s) := by
  obtain ⟨h8, h16, -, hlt⟩ := request2size_spec hsize
  generalize hnb : request2size size = nb at h8 h16 hlt ⊢
  obtain ⟨n, hn⟩ : ∃ n, listFuel = n + 2 := ⟨listFuel - 2, by unfold listFuel; omega⟩
  rw [alloc, hn, allocLoop, hnb]
  rcases findSmallestChunk_spec ha.spans ha.walkable nb with
    ⟨hfind, hsmall⟩ | ⟨l, hole, r, hfree, hfind, hne, hle, hfirst⟩
  · rw [bind_of_ok hfind, if_pos rfl]
    refine (growFor_ends ha h8 h16 hlt).bind ?_
    rintro - t ⟨free₁, top, hheap, hgrown, harr, -, hout⟩
    obtain ⟨hmem, htop, -, hold⟩ := hgrown.top_spec ha.geo
    rw [allocLoop, hnb]
    -- only the chunk at the end is large enough
    rcases findSmallestChunk_spec harr.spans harr.walkable nb with
      ⟨-, hsmall'⟩ | ⟨l, hole, r, hfree, hfind', hne, hle, -⟩
    · have := hsmall' top hmem
      omega
    · have hhole : hole = top := by
        rcases hold hole (by rw [hfree]; simp) with h | h
        · exact h
        · have := hsmall hole h
          omega
      subst hhole
      obtain ⟨t', free', c, hrun, hheap', htaken, hlaid, -, hout'⟩ := useHole_spec (hfree ▸ harr.toLaid) h8 h16 hle
      rw [bind_of_ok hfind', if_neg hne, hrun]
      refine ⟨free', hole, c, rfl, ?_, hheap' ▸ hlaid.arranged harr.geo, ?_⟩
      · rw [hheap', hheap]
        rw [hheap] at harr htaken
        exact .grown hsmall hgrown harr hfree htaken
      · intro h
        exact (hout' (hheap' ▸ h)).trans hout
  · obtain ⟨t, free', c, hrun, hheap, htaken, hlaid, -, hout⟩ := useHole_spec (hfree ▸ ha.toLaid) h8 h16 hle
    rw [bind_of_ok hfind, if_neg hne, hrun]
    refine ⟨free', hole, c, rfl, ?_, hheap ▸ hlaid.arranged ha.geo, hheap ▸ hout⟩
    rw [hheap]
    exact .found hfree hle hfirst htaken

end Alloc

end JustKernel.Heap
