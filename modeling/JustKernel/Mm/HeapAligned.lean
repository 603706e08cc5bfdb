import JustKernel.Mm.HeapFree

/-! What `palignedAlloc` does to an arranged heap. It asks `alloc` for more than it
needs, cuts off the lead in front of the first address that is good for a page
boundary, and frees what is left behind the block. The lead becomes a free chunk
and the block learns its size through `prevFoot`, but `PINUSE` of the block is
what its memory held before; the remainder is freed with `PINUSE` set. -/

namespace JustKernel.Heap

open Memory Halting Links

/-- The size of the lead of a chunk at `a`, 0 if its memory is aligned. -/
def leadSize (a : ℕ) : ℕ :=
  if (a + 8) % pageSize = 0 then 0
  else if 16 ≤ pageSize - (a + 8) % pageSize then pageSize - (a + 8) % pageSize
  else pageSize - (a + 8) % pageSize + pageSize

/-- The chunk `n` that is left of `c` without its lead. -/
inductive Led (h : HeapT) (m : Mem) (free : List Chunk) (c : Chunk) :
    Mem → List Chunk → Chunk → Prop
  | aligned : leadSize c.addr = 0 → Led h m free c m free c
  | lead {m' : Mem} {l r : List Chunk} {k : ℕ} {n d : Chunk} : k = leadSize c.addr → 16 ≤ k →
      n = ⟨c.addr + k, c.size - k⟩ → d = ⟨c.addr, k⟩ → free = l ++ r →
      SameOff (h.head :: nodes (d :: free))
        (write32 (write32 (markUsed m n) (d.addr + 4) (d.size + 1)) n.addr d.size) m' →
      Led h m free c m' (l ++ d :: r) n

/-- The chunk `q` that is left of `n` without its remainder. -/
inductive Trimmed (h : HeapT) (m : Mem) (free : List Chunk) (n : Chunk) (nb : ℕ) :
    HeapT → Mem → List Chunk → Chunk → Prop
  | fitting : n.size ≤ nb + 16 → Trimmed h m free n nb h m free n
  | cut {h' : HeapT} {m' : Mem} {free' : List Chunk} {q x : Chunk} : nb + 16 < n.size →
      q = ⟨n.addr, nb⟩ → x = ⟨n.addr + nb, n.size - nb⟩ →
      Released h (markUsed (markUsed m q) x) free x h' m' free' → Trimmed h m free n nb h' m' free' q

/-- The word at `e` looks like the header of a chunk that is not in use and does not end behind
`e`, whatever its `PINUSE`. -/
def BadEnd (m : Mem) (e : ℕ) : Prop :=
  usedAt m e = 0 ∧ (sizeAt m e = 0 ∨ 4294967296 ≤ e + sizeAt m e)

theorem leadSize_spec {a : ℕ} (ha : a % 8 = 0) :
    leadSize a % 8 = 0 ∧ leadSize a ≤ 4104 ∧ (a + leadSize a + 8) % pageSize = 0 ∧
      (leadSize a = 0 ∧ (a + 8) % pageSize = 0 ∨ 16 ≤ leadSize a ∧ (a + 8) % pageSize ≠ 0) := by
  unfold leadSize pageSize
  split_ifs <;> omega

section Aligned

variable {σ : Type} {P : Paging σ} {s : State σ} {free used : List Chunk} {c n : Chunk} {nb : ℕ}

theorem alignedPos_eq (hs : Spans s.heap) (hc : Fits s.heap c) (hsize : 4128 ≤ c.size)
    (hne : (c.addr + 8) % pageSize ≠ 0) : alignedPos c.addr (c.addr + 8) = c.addr + leadSize c.addr := by
  have hlt := hc.lt hs
  have := hc.addr_aligned
  unfold Chunk.top at hlt
  unfold pageSize at hne
  have hmask : c.addr + 8 &&& pageMask = (c.addr + 8) / 4096 * 4096 := and_pageMask (by omega)
  have hbr : mem2chunk (add32 ((c.addr + 8) / 4096 * 4096) pageSize) =
      c.addr + (4096 - (c.addr + 8) % 4096) := by
    unfold pageSize
    rw [add32_eq (by omega), mem2chunk, sub32_eq (by omega) (by omega)]
    omega
  unfold alignedPos
  rw [hmask, hbr]
  simp only
  rw [sub32_eq (by omega) (by omega)]
  unfold leadSize pageSize minChunkSize
  rw [if_neg hne]
  split_ifs
  · rfl
  · omega
  · omega
  · rw [add32_eq (by omega)]
    omega

theorem splitLead_aligned (h : (c.addr + 8) % pageSize = 0) :
    splitLead c.addr (c.addr + 8) s = .ok c.addr s := by
  unfold splitLead
  rw [if_neg (not_not_intro h)]
  rfl

theorem Loose.own {h : HeapT} {d : Chunk} (hc : Loose h free used c) (hcd : Apart c d) :
    Loose h free (d :: used) c := by
  refine ⟨hc.fits, ?_⟩
  intro e he
  rcases mem_middle.mp he with rfl | he
  · exact hcd
  · exact hc.apart e he

/-- The lead of a chunk goes to the free list, and the rest stays in use. -/
theorem splitLead_spec (ha : Laid s.heap s.mem free (c :: used)) (hsize : 4128 ≤ c.size) :
    ∃ t free' n, splitLead c.addr (c.addr + 8) s = .ok n.addr t ∧ t.heap = s.heap ∧
      n.addr = c.addr + leadSize c.addr ∧ n.top = c.top ∧
      Led s.heap s.mem free c t.mem free' n ∧ Laid s.heap t.mem free' (n :: used) ∧
      (c.top ≠ s.heap.endAddr → t.outside = s.outside) := by
  have hs := ha.spans
  have hfit := ha.fits c (by simp)
  obtain ⟨hk8, hkle, -, hcase⟩ := leadSize_spec hfit.addr_aligned
  rcases hcase with ⟨hk0, halign⟩ | ⟨hk16, hne⟩
  · exact ⟨s, free, c, splitLead_aligned halign, rfl, by omega, rfl, .aligned hk0, ha, fun _ => rfl⟩
  · have hpos := alignedPos_eq hs hfit hsize hne
    have hlt := hfit.lt hs
    have hcsize : chunksize c.addr s = .ok c.size s := by
      rw [chunksize_ok hs hfit.placed, (ha.usedHead c (by simp)).1]
    obtain ⟨harr, hloose⟩ := Laid.disown (l := []) ha
    obtain ⟨hlead, hrest, hap⟩ := hloose.split hk8 hk16 (by omega)
    unfold Chunk.top at hlt
    have hleadsize : sub32 (c.addr + leadSize c.addr) c.addr = leadSize c.addr := by
      rw [sub32_eq (by omega) (by omega)]
      omega
    have hnewsize : sub32 c.size (leadSize c.addr) = c.size - leadSize c.addr :=
      sub32_eq (by omega) (by omega)
    generalize hk : leadSize c.addr = k at *
    generalize hn : (⟨c.addr + k, c.size - k⟩ : Chunk) = n at hrest hap
    generalize hd : (⟨c.addr, k⟩ : Chunk) = d at hlead hap
    have hna : n.addr = c.addr + k := by rw [← hn]
    have hns : n.size = c.size - k := by rw [← hn]
    have hda : d.addr = c.addr := by rw [← hd]
    have hds : d.size = k := by rw [← hd]
    have hntop : n.top = c.top := by unfold Chunk.top; omega
    -- the memory operations, one after the other
    obtain ⟨t₁, hmark, hm₁, hh₁, hout₁⟩ := setInuse_run hs hrest.fits
    have harr₁ : Laid t₁.heap t₁.mem free (n :: used) := by
      rw [hh₁, hm₁]
      exact harr.markUsed_spec hrest
    have hlead₁ : Loose t₁.heap free (n :: used) d := by
      rw [hh₁]
      exact hlead.own hap
    have harr₂ := harr₁.write_head hlead₁ (d.size + 1)
    have hdtop : d.top = n.addr := by unfold Chunk.top; omega
    have harr₃ : Laid t₁.heap (write32 (write32 t₁.mem (d.addr + 4) (d.size + 1)) n.addr d.size)
        free (n :: used) := by
      refine harr₂.of_loose hlead₁ ?_
      intro x hx
      rw [hdtop] at hx
      have := hlead₁.fits.min_le
      exact store_apply_of_not_mem _ _ _ _ _ (by omega)
    have hhead : HeadIs (write32 (write32 t₁.mem (d.addr + 4) (d.size + 1)) n.addr d.size) d 0 := by
      refine (headIs_write32 harr₁.spans hlead₁.fits (f := 1) (by omega) t₁.mem).of_read ?_
      exact read32_write32_of_disjoint _ (by omega)
    obtain ⟨l, r, m, hfree, -, hins, harr₄, hsame⟩ := harr₃.insertChunk_spec
      (s := t₁.setMem (write32 (write32 t₁.mem (d.addr + 4) (d.size + 1)) n.addr d.size)) hlead₁ hhead
    have hnfoot : inBounds t₁.heap n.addr := (harr₁.fits n (by simp)).placed.word (k := 0) (by omega)
    refine ⟨t₁.setMem m, l ++ d :: r, n, ?_, hh₁, hna, hntop, ?_, ?_, ?_⟩
    · unfold splitLead
      rw [if_pos hne, hpos, bind_of_ok hcsize, hleadsize, hnewsize, ← hna, ← hns, bind_of_ok hmark,
        ← hds, ← hda, bind_of_ok (setSizeAndPinuse_ok harr₁.spans hlead₁.fits), setPrevFoot,
        bind_of_ok (setWord_ok (by exact hnfoot) _), setMem_setMem, setMem_mem, bind_of_ok hins,
        setMem_setMem]
      rfl
    · rw [setMem_heap, setMem_mem, hm₁, hh₁] at hsame
      exact .lead hk.symm hk16 hn.symm hd.symm hfree hsame
    · rw [← hh₁]
      exact harr₄
    · intro htop
      exact hout₁ (hntop ▸ htop)

/-- A block falls into two blocks; the first leaves its flag in the second. -/
theorem halveBlock_spec {q x : Chunk} (ha : Laid s.heap s.mem free (n :: used)) (h8 : nb % 8 = 0) (h16 : 16 ≤ nb)
    (hbig : nb + 16 < n.size) (hq : q = ⟨n.addr, nb⟩) (hx : x = ⟨n.addr + nb, n.size - nb⟩) :
    ∃ t u, setInuse q.addr q.size s = .ok () t ∧ setInuse x.addr x.size t = .ok () u ∧ u.heap = s.heap ∧
      u.mem = markUsed (markUsed s.mem q) x ∧ Laid u.heap u.mem free (x :: q :: used) ∧
      pinAt u.mem x.addr = 1 ∧ (x.top ≠ s.heap.endAddr → u.outside = s.outside) := by
  obtain ⟨harr, hloose⟩ := Laid.disown (l := []) ha
  obtain ⟨hlow, hhigh, hap⟩ := hloose.split h8 h16 (by omega)
  rw [← hq] at hlow hap
  rw [← hx] at hhigh hap
  have hqtop : q.top = x.addr := by rw [hq, hx]; rfl
  have hxtop : x.addr < s.heap.endAddr := by
    have := hhigh.fits.placed.le_end
    omega
  obtain ⟨t, hmark, hm, hh, hout⟩ := setInuse_run ha.spans hlow.fits
  have harr₁ : Laid t.heap t.mem free (q :: used) := by
    rw [hh, hm]
    exact harr.markUsed_spec hlow
  have hhigh₁ : Loose t.heap free (q :: used) x := by
    rw [hh]
    exact hhigh.own hap.symm
  obtain ⟨u, hmark₁, hm₁, hh₁, hout₁⟩ := setInuse_run harr₁.spans hhigh₁.fits
  refine ⟨t, u, hmark, hmark₁, hh₁.trans hh, by rw [hm₁, hm], ?_, ?_, fun hne => ?_⟩
  · rw [hh₁, hm₁]
    exact harr₁.markUsed_spec hhigh₁
  · have hflag := markUsed_top (m := s.mem) (c := q)
    rw [hqtop, ← hm] at hflag
    have hself := markUsed_self (m := t.mem) harr₁.spans hhigh₁.fits
    have hx8 := hhigh.fits.size_aligned
    unfold pinAt at hself ⊢
    rw [hm₁, hself, hflag]
    omega
  · rw [hout₁ (hh ▸ hne), hout (by omega)]

/-- The word behind the heap keeps all but its flag. -/
theorem badEnd_of_halved {h : HeapT} {m : Mem} {q x : Chunk} (hx : Fits h x) (hmid : q.top = x.addr)
    (hq : q.addr + 16 ≤ x.addr) (htop : x.top = h.endAddr) (hw : WildEnd h (markUsed (markUsed m q) x)) :
    BadEnd m h.endAddr := by
  have hflag := markUsed_top (m := markUsed m q) (c := x)
  have hkept : read32 (markUsed m q) (x.top + 4) = read32 m (x.top + 4) := by
    have := hx.min_le
    exact markUsed_other (by unfold Chunk.top; omega) (by rw [hmid]; unfold Chunk.top; omega)
  rw [hkept, htop] at hflag
  obtain ⟨-, h1, h2⟩ := hw
  unfold BadEnd usedAt sizeAt
  unfold usedAt at h1
  unfold sizeAt at h2
  omega

/-- The remainder behind a block goes to the free list, or the heap is cut there. -/
theorem splitRemainder_ends (ha : Arranged s.heap s.mem free (n :: used)) (h8 : nb % 8 = 0)
    (h16 : 16 ≤ nb) (hle : nb ≤ n.size)
    (hend : nb + 16 < n.size → n.top = s.heap.endAddr → ¬BadEnd s.mem s.heap.endAddr) :
    Ends (fun _ t => ∃ free' q, q.addr = n.addr ∧ nb ≤ q.size ∧
        Trimmed s.heap s.mem free n nb t.heap t.mem free' q ∧ Arranged t.heap t.mem free' (q :: used) ∧
        (n.top ≠ s.heap.endAddr → t.outside = s.outside))
      (fun _ => n.top = s.heap.endAddr) (splitRemainder P n.addr nb s) := by
  have hs := ha.spans
  have hfit := ha.fits n (by simp)
  have hlt := hfit.lt hs
  have hcsize : chunksize n.addr s = .ok n.size s := by
    rw [chunksize_ok hs hfit.placed, (ha.usedHead n (by simp)).1]
  have hge := hfit.placed.ge hs
  unfold Chunk.top at hlt
  have hadd : add32 nb minChunkSize = nb + 16 := add32_eq (by unfold minChunkSize; omega)
  rw [splitRemainder, bind_of_ok hcsize, hadd]
  by_cases hbig : nb + 16 < n.size
  · have hrsize : sub32 n.size nb = n.size - nb := sub32_eq (by omega) (by omega)
    have hraddr : add32 n.addr nb = n.addr + nb := add32_eq (by omega)
    generalize hq : (⟨n.addr, nb⟩ : Chunk) = q
    generalize hx : (⟨n.addr + nb, n.size - nb⟩ : Chunk) = x
    obtain ⟨t₁, t₂, hmark₁, hmark₂, hheap, hmem₂, harr₂, hpin, hout₂⟩ :=
      halveBlock_spec ha.toLaid h8 h16 hbig hq.symm hx.symm
    have hqa : q.addr = n.addr := by rw [← hq]
    have hqs : q.size = nb := by rw [← hq]
    have hxa : x.addr = n.addr + nb := by rw [← hx]
    have hxs : x.size = n.size - nb := by rw [← hx]
    have hxtop : x.top = n.top := by unfold Chunk.top; omega
    have hqtop : q.top = x.addr := by unfold Chunk.top; omega
    have hwild : x.top = t₂.heap.endAddr → ¬WildEnd t₂.heap t₂.mem := by
      intro htop hw
      have hxfit := harr₂.fits x (by simp)
      rw [hheap] at htop hw hxfit
      rw [hmem₂] at hw
      exact hend hbig (hxtop ▸ htop) (badEnd_of_halved hxfit hqtop (by omega) htop hw)
    have hfree := free_ends (P := P) (l := []) (r := q :: used) (harr₂.arranged (hheap ▸ ha.geo))
      (fun h0 => absurd h0 (by omega)) hwild
    have hmem : chunk2mem (n.addr + nb) = x.addr + 8 := by
      rw [chunk2mem, add32_eq (by omega), hxa]
    rw [if_pos hbig, hrsize, hraddr, ← hqa, ← hqs, bind_of_ok hmark₁, hqs, hqa, hmem, ← hxa, ← hxs,
      bind_of_ok hmark₂]
    refine hfree.mono ?_ ?_
    · rintro - t ⟨m, rest, x', free', hx'top, hmerged, hrel, harr', hout, -⟩
      cases hmerged with
      | prev h0 => omega
      | alone _ =>
        refine ⟨free', q, hqa, hqs.ge, .cut hbig hq.symm hx.symm ?_, harr', ?_⟩
        · rw [hheap, hmem₂] at hrel
          exact hrel
        · intro hne
          rw [← hxtop] at hne
          rw [hout (by rw [hheap]; exact hne), hout₂ hne]
    · intro t ht
      rw [hheap, hxtop] at ht
      exact ht
  · rw [if_neg hbig]
    exact ⟨free, n, rfl, hle, .fitting (by omega), ha, fun _ => rfl⟩

/-- The links of the free list are not behind the heap. -/
theorem sameOff_behind {h : HeapT} {m m' : Mem} {cs : List Chunk} {a : ℕ} (hg : Geometry h)
    (hcs : ∀ d ∈ cs, Fits h d) (hs : SameOff (h.head :: nodes cs) m m') (ha : h.endAddr ≤ a) :
    read32 m' a = read32 m a := by
  apply hs.read32
  intro u hu
  rcases List.mem_cons.mp hu with rfl | hu
  · have := hg.head_le
    have := hg.min_le
    omega
  · obtain ⟨c, hc, rfl⟩ := List.mem_map.mp hu
    have := (hcs c hc).placed.le_end
    unfold Chunk.node
    omega

theorem BadEnd.of_read {m m' : Mem} {e : ℕ} (hb : BadEnd m' e)
    (hread : read32 m' (e + 4) / 2 = read32 m (e + 4) / 2) : BadEnd m e := by
  unfold BadEnd usedAt sizeAt at *
  omega

/-- A chunk that was served from a hole ends where the hole does, or before the end of the heap. -/
theorem Taken.top_eq {h : HeapT} {m m' : Mem} {rest free' : List Chunk} {hole : Chunk}
    (ht : Taken h m nb rest hole m' free' c) (htop : hole.top ≤ h.endAddr) (hc : c.top = h.endAddr) :
    c = hole ∧ hole.size < nb + 16 := by
  cases ht with
  | whole hsmall _ => exact ⟨rfl, hsmall⟩
  | split hbig hce _ _ _ =>
    subst hce
    unfold Chunk.top at *
    simp only at hc
    omega

/-- The facts about a served request that do not depend on how it was served. -/
theorem Served.facts {h h' : HeapT} {m m' : Mem} {free' : List Chunk} {hole : Chunk}
    (hsv : Served h m free used nb h' m' free' hole c) (ha : Arranged h m free used) :
    hole.addr = c.addr ∧ nb ≤ c.size ∧ hole.top ≤ h'.endAddr ∧
      (c.top = h'.endAddr → c = hole ∧ hole.size < nb + 16) := by
  have hone : ∀ {h₀ : HeapT} {m₀ : Mem} {rest : List Chunk}, Taken h₀ m₀ nb rest hole m' free' c →
      nb ≤ hole.size → hole.top ≤ h₀.endAddr → hole.addr = c.addr ∧ nb ≤ c.size ∧
        (c.top = h₀.endAddr → c = hole ∧ hole.size < nb + 16) := by
    intro h₀ m₀ rest ht hle htop
    refine ⟨?_, ?_, ht.top_eq htop⟩
    · cases ht with
      | whole => rfl
      | split _ hc => rw [hc]
    · cases ht with
      | whole => exact hle
      | split _ hc => rw [hc]
  cases hsv with
  | found hfree hle _ ht =>
    have htop := (ha.fits hole (by rw [hfree]; simp)).top_le
    obtain ⟨h1, h2, h3⟩ := hone ht hle htop
    exact ⟨h1, h2, htop, h3⟩
  | grown _ hgrown harr _ ht =>
    obtain ⟨hmem, hle, -, -⟩ := hgrown.top_spec ha.geo
    have htop := (harr.fits hole (List.mem_append_left _ hmem)).top_le
    obtain ⟨h1, h2, h3⟩ := hone ht hle htop
    exact ⟨h1, h2, htop, h3⟩

/-- Serving a request from the last chunk as a whole touches one flag behind the heap. -/
theorem Served.read_behind {h h' : HeapT} {m m' : Mem} {free' : List Chunk} {hole : Chunk}
    (hsv : Served h m free used nb h' m' free' hole c) (ha : Arranged h m free used)
    (ha' : Arranged h' m' free' (c :: used)) (htop : c.top = h'.endAddr) :
    read32 m' (h'.endAddr + 4) / 2 = read32 m (h'.endAddr + 4) / 2 := by
  obtain ⟨-, -, hle, hwhole⟩ := hsv.facts ha
  obtain ⟨rfl, hsmall⟩ := hwhole htop
  have hone : ∀ {m₀ : Mem} {rest : List Chunk}, Taken h' m₀ nb rest c m' free' c →
      read32 m' (h'.endAddr + 4) / 2 = read32 m₀ (h'.endAddr + 4) / 2 := by
    intro m₀ rest ht
    cases ht with
    | split hbig => omega
    | whole _ hsame =>
      rw [sameOff_behind ha'.geo (fun d hd => ha'.fits d (List.mem_append_left _ hd)) hsame (by omega),
        ← htop, markUsed_top]
      omega
  cases hsv with
  | found _ _ _ ht => exact hone ht
  | grown _ hgrown harr hfree ht =>
    rw [hone ht]
    -- growing writes a header and links below the new end
    have hfit := harr.fits c (by rw [hfree]; simp)
    have hsame := hgrown.sameOff
    have := hfit.placed.le_end
    rw [sameOff_behind harr.geo (fun d hd => harr.fits d (List.mem_append_left used hd)) hsame
      (by exact Nat.le_add_right _ _), read32_write32_of_disjoint _ (by omega)]

/-- Cutting off the lead writes at most the flag behind the chunk. -/
theorem Led.read_behind {h : HeapT} {m m' : Mem} {free' : List Chunk} (hl : Led h m free c m' free' n)
    (ha : Arranged h m' free' (n :: used)) (htop : n.top = h.endAddr) :
    read32 m' (h.endAddr + 4) / 2 = read32 m (h.endAddr + 4) / 2 := by
  cases hl with
  | aligned => rfl
  | @lead _ l r k _ d hk hk16 hn hd hfree hsame =>
    have hmono : ∀ e ∈ d :: free, Fits h e := by
      intro e he
      apply ha.fits
      apply List.mem_append_left
      rw [hfree] at he
      exact mem_middle.mpr (List.mem_cons.mp he)
    have := (hmono d (by simp)).placed.le_end
    have := (ha.fits n (by simp)).placed.le_end
    rw [sameOff_behind ha.geo hmono hsame (by omega), read32_write32_of_disjoint _ (by omega),
      read32_write32_of_disjoint _ (by omega), ← htop, markUsed_top]
    omega

/-- The padding of an aligned request. -/
theorem aligned_request {size : ℕ} (hsize : size + 11 < 4294967296)
    (hreq : request2size size + 4119 < 4294967296) :
    alignedRequest size = request2size size + 4108 ∧
      request2size (request2size size + 4108) = request2size size + 4112 := by
  obtain ⟨h8, h16, -, -⟩ := request2size_spec hsize
  unfold alignedRequest
  generalize request2size size = nb at *
  unfold pageSize minChunkSize chunkOverhead
  have hpage : add32 nb 4096 = nb + 4096 := add32_eq (by omega)
  rw [hpage, add32_eq (by omega), sub32_eq (by omega) (by omega)]
  refine ⟨by omega, ?_⟩
  have hadd : add32 (nb + 4108) (chunkOverhead + 7) = nb + 4108 + 11 := add32_eq (by omega)
  unfold request2size minRequest
  rw [if_neg (by omega), padRequest, hadd, and_sizeMask (by omega)]
  omega

/-- The word behind a remainder at the end of the heap is no odd header if it was none before the
request. -/
theorem Led.end_ok {h h₁ : HeapT} {m m₁ m₂ : Mem} {free₁ free₂ : List Chunk} {hole : Chunk}
    (hled : Led h₁ m₁ free₁ c m₂ free₂ n) (hsv : Served h m free used (nb + 4112) h₁ m₁ free₁ hole c)
    (ha : Arranged h m free used) (ha₁ : Arranged h₁ m₁ free₁ (c :: used)) (ha₂ : Arranged h₁ m₂ free₂ (n :: used))
    (hnaddr : n.addr = c.addr + leadSize c.addr) (hntop : n.top = c.top)
    (hend : hole.size < nb + 4112 + 16 → hole.top = h₁.endAddr → nb + 16 < hole.size - leadSize hole.addr →
      ¬BadEnd m h₁.endAddr) (hbig : nb + 16 < n.size) (htop : n.top = h₁.endAddr) : ¬BadEnd m₂ h₁.endAddr := by
  intro hb
  obtain ⟨-, -, -, hwhole⟩ := hsv.facts ha
  obtain ⟨rfl, hsmall⟩ := hwhole (hntop ▸ htop)
  refine hend hsmall (hntop ▸ htop) ?_ ?_
  · unfold Chunk.top at hntop
    omega
  · apply hb.of_read
    rw [hled.read_behind ha₂ htop, hsv.read_behind ha ha₁ (hntop ▸ htop)]

/-- The assertions at the end of `palignedAlloc`. -/
theorem assertions_hold {q : Chunk} (ha : Laid s.heap s.mem free (q :: used)) (hle : nb ≤ q.size)
    (hpage : (q.addr + 8) % pageSize = 0) : (do
      let mem := chunk2mem q.addr
      assert "chunksize(chunk) >= nb" (nb ≤ (← chunksize q.addr))
      assert "((size_t)mem % PAGE_SIZE) == 0" (mem % pageSize = 0)
      assert "cinuse(chunk)" (← cinuse q.addr)
      return mem : HeapM σ ℕ) s = .ok (q.addr + 8) s := by
  have hfit := ha.fits q (by simp)
  have hlt := hfit.placed.lt ha.spans
  have hhead := ha.usedHead q (by simp)
  have hmem : chunk2mem q.addr = q.addr + 8 := add32_eq (by omega)
  have hcs : chunksize q.addr s = .ok q.size s := by
    rw [chunksize_ok ha.spans hfit.placed, hhead.1]
  rw [hmem, bind_of_ok hcs]
  simp only [assert, hle, hpage, decide_true, if_true, pure_bind_run]
  rw [bind_of_ok (cinuse_ok ha.spans hfit.placed), hhead.2]
  rfl

/-- `palignedAlloc` is a served request, a lead and a remainder. -/
theorem palignedAlloc_ends {size : ℕ} (ha : Arranged s.heap s.mem free used)
    (hsize : size + 11 < 4294967296) (hnb : request2size size = nb) (hreq : nb + 4119 < 4294967296)
    (hend : ∀ h' m' free' hole c, Served s.heap s.mem free used (nb + 4112) h' m' free' hole c →
      hole.size < nb + 4112 + 16 → hole.top = h'.endAddr →
      nb + 16 < hole.size - leadSize hole.addr → ¬BadEnd s.mem h'.endAddr) :
    Ends (fun p t => ∃ h₁ m₁ free₁ hole c m₂ free₂ n free' q, p = q.addr + 8 ∧ nb ≤ q.size ∧
        Served s.heap s.mem free used (nb + 4112) h₁ m₁ free₁ hole c ∧
        Arranged h₁ m₁ free₁ (c :: used) ∧ Led h₁ m₁ free₁ c m₂ free₂ n ∧
        Arranged h₁ m₂ free₂ (n :: used) ∧ Trimmed h₁ m₂ free₂ n nb t.heap t.mem free' q ∧
        Arranged t.heap t.mem free' (q :: used) ∧
        (nb + 4112 + 16 ≤ hole.size ∨ hole.top ≠ h₁.endAddr → t.outside = s.outside))
      (fun t => t.outside = s.outside ∨ ∃ h₁ m₁ free₁ hole c,
        Served s.heap s.mem free used (nb + 4112) h₁ m₁ free₁ hole c ∧
        hole.size < nb + 4112 + 16 ∧ hole.top = h₁.endAddr)
      (palignedAlloc P size s) := by
  obtain ⟨h8, h16, -, -⟩ := request2size_spec hsize
  obtain ⟨hreq₁, hreq₂⟩ := aligned_request hsize (by omega)
  rw [hnb] at h8 h16 hreq₁ hreq₂
  rw [palignedAlloc, hnb, hreq₁]
  have halloc := alloc_ends (P := P) ha (show nb + 4108 + 11 < 4294967296 by omega)
  rw [hreq₂] at halloc
  refine Ends.bind (halloc.mono (fun _ _ h => h) fun _ h => Or.inl h) ?_
  rintro p t₁ ⟨free₁, hole, c, rfl, hsv, harr₁, hout₁⟩
  obtain ⟨haddr, hle, htople, hwhole⟩ := hsv.facts ha
  have hcfit := harr₁.fits c (by simp)
  have hclt := hcfit.placed.lt harr₁.spans
  have hchunk : mem2chunk (c.addr + 8) = c.addr := mem2chunk_add (by omega)
  obtain ⟨t₂, free₂, n, hlead, hheap₂, hnaddr, hntop, hled, hlaid₂, hout₂⟩ :=
    splitLead_spec harr₁.toLaid (by omega)
  have harr₂ := hlaid₂.arranged harr₁.geo
  obtain ⟨hk8, hkle, hpage, -⟩ := leadSize_spec hcfit.addr_aligned
  have hnle : nb ≤ n.size := by
    unfold Chunk.top at hntop
    omega
  have harr₂' : Arranged t₂.heap t₂.mem free₂ (n :: used) := hheap₂ ▸ harr₂
  rw [if_neg (by omega), hchunk, bind_of_ok hlead]
  have hbad : nb + 16 < n.size → n.top = t₂.heap.endAddr → ¬BadEnd t₂.mem t₂.heap.endAddr := by
    rw [hheap₂]
    exact hled.end_ok hsv ha harr₁ harr₂ hnaddr hntop (hend _ _ _ _ _ hsv)
  refine Ends.bind ((splitRemainder_ends (P := P) harr₂' h8 h16 hnle hbad).mono (fun _ _ h => h) ?_) ?_
  · intro t htop
    rw [hheap₂, hntop] at htop
    obtain ⟨rfl, hsmall⟩ := hwhole htop
    exact Or.inr ⟨_, _, _, _, _, hsv, hsmall, htop⟩
  · rintro - t ⟨free', q, hqaddr, hqle, htrim, harr, hout⟩
    have hpage' : (q.addr + 8) % pageSize = 0 := by rw [hqaddr, hnaddr]; exact hpage
    rw [← hqaddr, assertions_hold harr.toLaid hqle hpage']
    refine ⟨_, _, free₁, hole, c, _, free₂, n, free', q, rfl, hqle, hsv, harr₁, hled, harr₂, ?_, harr, ?_⟩
    · rw [← hheap₂]
      exact htrim
    · intro hsafe
      have hcne : c.top ≠ t₁.heap.endAddr := by
        intro htop
        obtain ⟨rfl, hsmall⟩ := hwhole htop
        omega
      rw [hout (by rw [hheap₂, hntop]; exact hcne), hout₂ hcne, hout₁ hsafe]

end Aligned

end JustKernel.Heap
