import JustKernel.Mm.HeapRuns

/-! The boundary tags. A heap as its authors meant it is tiled by chunks; `PINUSE` of a chunk
tells whether the chunk before it is in use, a free chunk leaves its size in the `prevFoot`
behind it, and no two free chunks are neighbours. `createHeap` makes such a heap. A call
keeps it so if it changes nothing behind a free chunk: a hole that is taken whole or ends
the heap, a block that ends the heap. Every other call leaves a stale tag: the split of a
hole in the middle does not tell the next chunk its new size, and a `free` in the middle
neither clears `PINUSE` of the next chunk nor merges with it. -/

namespace JustKernel.Heap

open Memory Halting Links Runs

/-- The chunks that a walk by `chunksize` meets from `a` to `e`. -/
inductive Walk (m : Mem) (e : ℕ) : ℕ → List ℕ → Prop
  | done : Walk m e e []
  | step {a : ℕ} {cs : List ℕ} : a < e → Walk m e (a + sizeAt m a) cs → Walk m e a (a :: cs)

/-- The tags of a chunk at `c` and the next one at `n`. -/
structure TagsAgree (m : Mem) (c n : ℕ) : Prop where
  pinuse : pinAt m n = 1 ↔ usedAt m c = 1
  foot : usedAt m c = 0 → read32 m n = sizeAt m c
  coalesced : ¬(usedAt m c = 0 ∧ usedAt m n = 0)

/-- A walk through the heap reaches its end exactly, and the tags of neighbours agree. -/
def BoundaryTags {σ : Type} (s : State σ) : Prop :=
  ∃ cs, Walk s.mem s.heap.endAddr s.heap.startAddr cs ∧
    ∀ a ∈ cs, a + sizeAt s.mem a < s.heap.endAddr → TagsAgree s.mem a (a + sizeAt s.mem a)

/-- The chunks tile the heap and their tags are in order. -/
structure Tagged (h : HeapT) (m : Mem) (free used : List Chunk) : Prop where
  start : ∃ c ∈ free ++ used, c.addr = h.startAddr
  next : ∀ c ∈ free ++ used, c.top = h.endAddr ∨ ∃ d ∈ free ++ used, d.addr = c.top
  solo : ∀ c ∈ free, ∀ d ∈ free, d.addr ≠ c.top
  foot : ∀ c ∈ free, ∀ d ∈ used, d.addr = c.top → pinAt m d.addr = 0 ∧ read32 m d.addr = c.size
  pin : ∀ d ∈ free ++ used, (∀ c ∈ free, c.top ≠ d.addr) → pinAt m d.addr = 1

section Tags

variable {h : HeapT} {m m' : Mem} {free used : List Chunk} {c d : Chunk}

/-! ### From the invariant to the walk -/

theorem Tagged.walk (ht : Tagged h m free used) (ha : Arranged h m free used) (n : ℕ) :
    ∀ c ∈ free ++ used, h.endAddr ≤ c.addr + n → ∃ cs, Walk m h.endAddr c.addr cs ∧
      ∀ a ∈ cs, ∃ d ∈ free ++ used, d.addr = a := by
  have hsize : ∀ c ∈ free ++ used, sizeAt m c.addr = c.size := by
    intro c hc
    rcases List.mem_append.mp hc with hc | hc
    · exact (ha.freeHead c hc).1
    · exact (ha.usedHead c hc).1
  -- by the distance to the end
  induction n with
  | zero =>
    intro c hc hle
    have := (ha.fits c hc).placed.le_end
    omega
  | succ n ih =>
    intro c hc hle
    have hfit := (ha.fits c hc).placed.le_end
    have hmin := (ha.fits c hc).min_le
    rcases ht.next c hc with hend | ⟨d, hd, htop⟩
    · refine ⟨[c.addr], .step (by omega) ?_, ?_⟩
      · rw [hsize c hc, show c.addr + c.size = h.endAddr from hend]
        exact .done
      · intro a ha'
        exact ⟨c, hc, (List.mem_singleton.mp ha').symm⟩
    · unfold Chunk.top at htop
      obtain ⟨cs, hwalk, hmem⟩ := ih d hd (by omega)
      refine ⟨c.addr :: cs, .step (by omega) ?_, ?_⟩
      · rw [hsize c hc, ← htop]
        exact hwalk
      · intro a ha'
        rcases List.mem_cons.mp ha' with rfl | ha'
        · exact ⟨c, hc, rfl⟩
        · exact hmem a ha'

/-- Neighbours agree. -/
theorem Tagged.agree (ht : Tagged h m free used) (ha : Arranged h m free used) (hc : c ∈ free ++ used)
    (hd : d ∈ free ++ used) (htop : d.addr = c.top) : TagsAgree m c.addr d.addr := by
  rcases List.mem_append.mp hc with hcf | hcu
  · -- a free chunk is followed by a used one
    have hdu : d ∈ used := (List.mem_append.mp hd).resolve_left fun hdf => ht.solo c hcf d hdf htop
    obtain ⟨hpin, hfoot⟩ := ht.foot c hcf d hdu htop
    obtain ⟨hcsize, hcused⟩ := ha.freeHead c hcf
    have hdused := (ha.usedHead d hdu).2
    exact ⟨by omega, fun _ => hfoot.trans hcsize.symm, by omega⟩
  · have hcused := (ha.usedHead c hcu).2
    have hpin : pinAt m d.addr = 1 := by
      refine ht.pin d hd fun f hf hftop => ?_
      have hfc := ha.top_inj (List.mem_append_left _ hf) hc (hftop.trans htop)
      exact ha.not_used hf (hfc ▸ hcu)
    exact ⟨by omega, by omega, by omega⟩

end Tags

theorem Tagged.boundaryTags {σ : Type} {s : State σ} {free used : List Chunk}
    (ht : Tagged s.heap s.mem free used) (ha : Arranged s.heap s.mem free used) : BoundaryTags s := by
  obtain ⟨c, hc, hstart⟩ := ht.start
  obtain ⟨cs, hwalk, hmem⟩ := ht.walk ha s.heap.endAddr c hc (Nat.le_add_left _ _)
  refine ⟨cs, hstart ▸ hwalk, fun a hacs hlt => ?_⟩
  obtain ⟨d, hd, rfl⟩ := hmem a hacs
  have hsize : sizeAt s.mem d.addr = d.size := by
    rcases List.mem_append.mp hd with hd | hd
    · exact (ha.freeHead d hd).1
    · exact (ha.usedHead d hd).1
  rw [hsize] at hlt ⊢
  rcases ht.next d hd with hend | ⟨n, hn, htop⟩
  · unfold Chunk.top at hend
    omega
  · have hagree := ht.agree ha hd hn htop
    rwa [htop] at hagree

/-! ### Tags and stores

Chunks start at multiples of 8, so the tags of one chunk are words apart from those of another. -/

section Words

variable {h : HeapT} {m m' : Mem} {free used : List Chunk} {c d : Chunk} {a x v : ℕ}

theorem pinAt_of_read (hread : read32 m' (a + 4) = read32 m (a + 4)) : pinAt m' a = pinAt m a := by
  unfold pinAt
  rw [hread]

theorem pinAt_write_head (hv : v < 4294967296) : pinAt (write32 m (a + 4) v) a = v % 2 := by
  unfold pinAt
  rw [read32_write32 _ _ _ hv]

theorem pinAt_write_head_of_ne (ha : a % 8 = 0) (hx : x % 8 = 0) (hne : a ≠ x) :
    pinAt (write32 m (x + 4) v) a = pinAt m a :=
  pinAt_of_read (read32_write32_of_disjoint _ (by omega))

theorem foot_write_head (ha : a % 8 = 0) (hx : x % 8 = 0) : read32 (write32 m (x + 4) v) a = read32 m a :=
  read32_write32_of_disjoint _ (by omega)

theorem pinAt_write_foot (ha : a % 8 = 0) (hx : x % 8 = 0) : pinAt (write32 m x v) a = pinAt m a :=
  pinAt_of_read (read32_write32_of_disjoint _ (by omega))

theorem foot_write_foot_of_ne (ha : a % 8 = 0) (hx : x % 8 = 0) (hne : a ≠ x) :
    read32 (write32 m x v) a = read32 m a :=
  read32_write32_of_disjoint _ (by omega)

theorem read32_of_below {e : ℕ} (hm : ∀ x < e, m' x = m x) (hle : a + 4 ≤ e) : read32 m' a = read32 m a :=
  load_congr fun x _ h2 => hm x (by omega)

theorem read32_write32_congr (hread : read32 m' a = read32 m a) (hx : a = x ∨ a + 4 ≤ x ∨ x + 4 ≤ a) :
    read32 (write32 m' x v) a = read32 (write32 m x v) a := by
  rcases hx with rfl | hx
  · unfold read32 write32
    rw [load_store_same, load_store_same]
  · rw [read32_write32_of_disjoint _ (by omega), read32_write32_of_disjoint _ (by omega), hread]

theorem Fits.top_aligned (hc : Fits h c) : c.top % 8 = 0 := by
  have := hc.addr_aligned
  have := hc.size_aligned
  unfold Chunk.top
  omega

theorem pinAt_markUsed_self (hs : Spans h) (hc : Fits h c) : pinAt (markUsed m c) c.addr = pinAt m c.addr := by
  have hself := markUsed_self (m := m) hs hc
  have := hc.size_aligned
  have := pinAt_lt m c.addr
  rw [pinAt, hself]
  omega

theorem pinAt_markUsed_top : pinAt (markUsed m c) c.top = 1 := by
  rw [pinAt, markUsed_top]
  omega

theorem pinAt_markUsed_of_ne (hc : Fits h c) (ha : a % 8 = 0) (hself : a ≠ c.addr) (htop : a ≠ c.top) :
    pinAt (markUsed m c) a = pinAt m a := by
  have := hc.addr_aligned
  have := hc.top_aligned
  exact pinAt_of_read (markUsed_other (by omega) (by omega))

theorem foot_markUsed (hc : Fits h c) (ha : a % 8 = 0) : read32 (markUsed m c) a = read32 m a := by
  have := hc.addr_aligned
  have := hc.top_aligned
  exact markUsed_other (by omega) (by omega)

/-- The flags are as before, and so is every `prevFoot` behind a free chunk. -/
theorem Tagged.of_tags (ht : Tagged h m free used) (hpin : ∀ d ∈ free ++ used, pinAt m' d.addr = pinAt m d.addr)
    (hfoot : ∀ c ∈ free, ∀ d ∈ used, d.addr = c.top → read32 m' d.addr = read32 m d.addr) :
    Tagged h m' free used := by
  refine ⟨ht.start, ht.next, ht.solo, fun c hc d hd htop => ?_, fun d hd hnone => ?_⟩
  · rw [hfoot c hc d hd htop, hpin d (List.mem_append_right _ hd)]
    exact ht.foot c hc d hd htop
  · rw [hpin d hd]
    exact ht.pin d hd hnone

theorem Tagged.congr (ht : Tagged h m free used)
    (heq : ∀ d ∈ free ++ used, read32 m' d.addr = read32 m d.addr ∧ pinAt m' d.addr = pinAt m d.addr) :
    Tagged h m' free used :=
  ht.of_tags (fun d hd => (heq d hd).2) fun _ _ d hd _ => (heq d (List.mem_append_right _ hd)).1

/-- The links of the free list are no tags. -/
theorem Arranged.off_tags {cs : List Chunk} (ha : Arranged h m free used) (hcs : ∀ c ∈ cs, c ∈ free)
    (hd : d ∈ free ++ used) : ∀ u ∈ h.head :: nodes cs, d.addr + 8 ≤ u ∨ u + 8 ≤ d.addr := by
  refine off_links ha.spans (ha.fits d hd) fun c hc => ?_
  have hc' := List.mem_append_left used (hcs c hc)
  refine ⟨ha.fits c hc', ?_⟩
  by_cases hdc : c = d
  · exact Or.inl hdc
  · exact Or.inr (ha.apart_of_ne hd hc' (Ne.symm hdc))

theorem tags_of_sameOff {cs : List ℕ} (hs : SameOff cs m m') (hoff : ∀ u ∈ cs, a + 8 ≤ u ∨ u + 8 ≤ a) :
    read32 m' a = read32 m a ∧ read32 m' (a + 4) = read32 m (a + 4) := by
  refine ⟨hs.read32 fun u hu => ?_, hs.read32 fun u hu => ?_⟩
  · have := hoff u hu
    omega
  · have := hoff u hu
    omega

/-- A change of the links of the free list leaves the tags alone. -/
theorem Tagged.of_sameOff {cs : List Chunk} (ht : Tagged h m free used) (ha : Arranged h m' free used)
    (hs : SameOff (h.head :: nodes cs) m m') (hcs : ∀ c ∈ cs, c ∈ free) : Tagged h m' free used := by
  refine ht.congr fun d hd => ?_
  obtain ⟨hfoot, hhead⟩ := tags_of_sameOff hs (ha.off_tags hcs hd)
  exact ⟨hfoot, pinAt_of_read hhead⟩

end Words

/-! ### Chunks that fall into two -/

section Halves

variable {h : HeapT} {m : Mem} {free free' used used' free₀ used₀ : List Chunk} {c lo hi : Chunk} {k : ℕ}

/-- The chunk `c` falls into `lo` and `hi`. -/
structure Halves (h : HeapT) (free used : List Chunk) (c lo hi : Chunk) : Prop where
  low : Fits h lo
  high : Fits h hi
  addr : lo.addr = c.addr
  mid : hi.addr = lo.top
  top : hi.top = c.top
  apart : ∀ d ∈ free ++ used, Apart c d

theorem Loose.halves (hloose : Loose h free used c) (hk : k % 8 = 0) (h16 : 16 ≤ k)
    (hrest : k + 16 ≤ c.size) (hlo : lo = ⟨c.addr, k⟩) (hhi : hi = ⟨c.addr + k, c.size - k⟩) :
    Halves h free used c lo hi := by
  obtain ⟨hlow, hhigh, -⟩ := hloose.split hk h16 hrest
  refine ⟨hlo ▸ hlow.fits, hhi ▸ hhigh.fits, by rw [hlo], by rw [hlo, hhi]; rfl, ?_, hloose.apart⟩
  rw [hhi]
  unfold Chunk.top
  simp only
  omega

theorem Halves.addr_ne (hv : Halves h free used c lo hi) : lo.addr ≠ hi.addr := by
  have := hv.low.min_le
  have := hv.mid
  unfold Chunk.top at this
  omega

/-- No other chunk starts or ends inside `c`. -/
theorem Halves.outside (hv : Halves h free used c lo hi) {d : Chunk} (hfit : Fits h d) (hd : d ∈ free ++ used) :
    d.addr ≠ lo.addr ∧ d.addr ≠ hi.addr ∧ d.top ≠ hi.addr := by
  have hap := hv.apart d hd
  have := hfit.min_le
  have := hv.low.min_le
  have := hv.high.min_le
  have := hv.addr
  have := hv.mid
  have := hv.top
  unfold Apart Chunk.top at *
  omega

/-- A chunk behind a free one is not the one behind `c`. -/
theorem Halves.not_behind (hv : Halves h free used c lo hi) (ha : Arranged h m free (c :: used)) {f g : Chunk}
    (hf : f ∈ free) (htop : g.addr = f.top) : g.addr ≠ hi.top := by
  intro heq
  have hfc := ha.top_inj (List.mem_append_left _ hf) (by simp : c ∈ free ++ c :: used)
    (htop.symm.trans (heq.trans hv.top))
  exact ha.not_used hf (hfc ▸ List.mem_cons_self)

/-- The tiling after the cut. -/
theorem Halves.tiled (hv : Halves h free used c lo hi) (ht : Tagged h m free₀ used₀)
    (hall : ∀ d, d ∈ free₀ ++ used₀ ↔ d = c ∨ d ∈ free ++ used)
    (hmem : ∀ d, d ∈ free' ++ used' ↔ d = lo ∨ d = hi ∨ d ∈ free ++ used) :
    (∃ d ∈ free' ++ used', d.addr = h.startAddr) ∧
      ∀ d ∈ free' ++ used', d.top = h.endAddr ∨ ∃ g ∈ free' ++ used', g.addr = d.top := by
  -- the chunk at an old address
  have hat : ∀ d ∈ free₀ ++ used₀, ∃ g ∈ free' ++ used', g.addr = d.addr := by
    intro d hd
    rcases (hall d).mp hd with rfl | hd
    · exact ⟨lo, (hmem lo).mpr (Or.inl rfl), hv.addr⟩
    · exact ⟨d, (hmem d).mpr (Or.inr (Or.inr hd)), rfl⟩
  have hnext : ∀ d ∈ free₀ ++ used₀, d.top = h.endAddr ∨ ∃ g ∈ free' ++ used', g.addr = d.top := by
    intro d hd
    refine (ht.next d hd).imp_right ?_
    rintro ⟨g, hg, htop⟩
    obtain ⟨g', hg', haddr⟩ := hat g hg
    exact ⟨g', hg', haddr.trans htop⟩
  constructor
  · obtain ⟨d, hd, hstart⟩ := ht.start
    obtain ⟨g, hg, haddr⟩ := hat d hd
    exact ⟨g, hg, haddr.trans hstart⟩
  · intro d hd
    rcases (hmem d).mp hd with rfl | rfl | hd
    · exact Or.inr ⟨hi, (hmem hi).mpr (Or.inr (Or.inl rfl)), hv.mid⟩
    · rw [hv.top]
      exact hnext c ((hall c).mpr (Or.inl rfl))
    · exact hnext d ((hall d).mpr (Or.inr hd))

end Halves

/-! ### Holes -/

section Holes

variable {h : HeapT} {m : Mem} {free free' used rest : List Chunk} {hole c new : Chunk}

/-- A hole is taken whole. -/
theorem Tagged.whole (ht : Tagged h m free used) (ha : Arranged h m free used)
    (hfree : ∀ d, d ∈ free ↔ d = hole ∨ d ∈ rest) (hrest : hole ∉ rest) :
    Tagged h (markUsed m hole) rest (hole :: used) := by
  have hhole : hole ∈ free := (hfree hole).mpr (Or.inl rfl)
  have hfit := ha.fits hole (List.mem_append_left _ hhole)
  have hmem : ∀ d, d ∈ rest ++ hole :: used ↔ d ∈ free ++ used := by
    intro d
    simp only [List.mem_append, List.mem_cons, hfree]
    tauto
  have hsub : ∀ d ∈ rest, d ∈ free := fun d hd => (hfree d).mpr (Or.inr hd)
  have hne : ∀ d ∈ rest, d.top ≠ hole.top := by
    intro d hd htop
    have := ha.top_inj (List.mem_append_left _ (hsub d hd)) (List.mem_append_left _ hhole) htop
    exact hrest (this ▸ hd)
  refine ⟨?_, ?_, fun c hc d hd => ht.solo c (hsub c hc) d (hsub d hd), fun c hc d hd htop => ?_,
    fun d hd hnone => ?_⟩
  · obtain ⟨c, hc, hstart⟩ := ht.start
    exact ⟨c, (hmem c).mpr hc, hstart⟩
  · intro c hc
    refine (ht.next c ((hmem c).mp hc)).imp_right ?_
    rintro ⟨d, hd, htop⟩
    exact ⟨d, (hmem d).mpr hd, htop⟩
  · rcases List.mem_cons.mp hd with rfl | hd
    · exact absurd htop (ht.solo c (hsub c hc) d hhole)
    · have hdfit := ha.fits d (List.mem_append_right _ hd)
      have hself : d.addr ≠ hole.addr := fun heq =>
        ha.not_used hhole (ha.addr_inj (List.mem_append_right _ hd) (List.mem_append_left _ hhole) heq ▸ hd)
      rw [pinAt_markUsed_of_ne hfit hdfit.addr_aligned hself (htop ▸ hne c hc),
        foot_markUsed hfit hdfit.addr_aligned]
      exact ht.foot c (hsub c hc) d hd htop
  · have hdfit := ha.fits d ((hmem d).mp hd)
    by_cases htop : d.addr = hole.top
    · rw [htop]
      exact pinAt_markUsed_top
    · have hbefore : pinAt m d.addr = 1 := by
        refine ht.pin d ((hmem d).mp hd) fun c hc => ?_
        rcases (hfree c).mp hc with rfl | hc
        · exact Ne.symm htop
        · exact hnone c hc
      by_cases hself : d.addr = hole.addr
      · rw [hself, pinAt_markUsed_self ha.spans hfit, ← hself]
        exact hbefore
      · rw [pinAt_markUsed_of_ne hfit hdfit.addr_aligned hself htop]
        exact hbefore

/-- The last hole is cut in two. -/
theorem Tagged.split (ht : Tagged h m free used) (ha : Arranged h m free used)
    (hfree : ∀ d, d ∈ free ↔ d = hole ∨ d ∈ rest) (hfree' : ∀ d, d ∈ free' ↔ d = new ∨ d ∈ rest)
    (hv : Halves h rest used hole c new) (hend : hole.top = h.endAddr) :
    Tagged h (markUsed (write32 m (new.addr + 4) new.size) c) free' (c :: used) := by
  have hhole : hole ∈ free := (hfree hole).mpr (Or.inl rfl)
  have hsub : ∀ d ∈ rest, d ∈ free := fun d hd => (hfree d).mpr (Or.inr hd)
  have hall : ∀ d, d ∈ free ++ used ↔ d = hole ∨ d ∈ rest ++ used := by
    intro d
    simp only [List.mem_append, hfree]
    tauto
  have hmem : ∀ d, d ∈ free' ++ c :: used ↔ d = c ∨ d = new ∨ d ∈ rest ++ used := by
    intro d
    simp only [List.mem_append, List.mem_cons, hfree']
    tauto
  have hfits : ∀ d ∈ rest ++ used, Fits h d := fun d hd => ha.fits d ((hall d).mpr (Or.inr hd))
  have hc8 := hv.low.addr_aligned
  have hn8 := hv.high.addr_aligned
  -- the second half ends the heap
  have hlast : ∀ d, Fits h d → d.addr ≠ new.top := by
    intro d hd htop
    have := hd.placed.le_end
    rw [hv.top, hend] at htop
    omega
  have hkept : ∀ d ∈ rest ++ used,
      pinAt (markUsed (write32 m (new.addr + 4) new.size) c) d.addr = pinAt m d.addr ∧
        read32 (markUsed (write32 m (new.addr + 4) new.size) c) d.addr = read32 m d.addr := by
    intro d hd
    have h8 := (hfits d hd).addr_aligned
    obtain ⟨h1, h2, -⟩ := hv.outside (hfits d hd) hd
    rw [pinAt_markUsed_of_ne hv.low h8 h1 (hv.mid ▸ h2), pinAt_write_head_of_ne h8 hn8 h2, foot_markUsed hv.low h8,
      foot_write_head h8 hn8]
    exact ⟨rfl, rfl⟩
  obtain ⟨hstart, hnext⟩ := hv.tiled ht hall hmem
  refine ⟨hstart, hnext, fun f hf g hg htop => ?_, fun f hf g hg htop => ?_, fun d hd hnone => ?_⟩
  · rcases (hfree' f).mp hf with rfl | hf <;> rcases (hfree' g).mp hg with rfl | hg
    · exact hlast _ hv.high htop
    · exact hlast g (hfits g (List.mem_append_left _ hg)) htop
    · exact (hv.outside (hfits f (List.mem_append_left _ hf)) (List.mem_append_left _ hf)).2.2 htop.symm
    · exact ht.solo f (hsub f hf) g (hsub g hg) htop
  · rcases (hfree' f).mp hf with rfl | hf <;> rcases List.mem_cons.mp hg with rfl | hg
    · exact absurd htop (hlast g hv.low)
    · exact absurd htop (hlast g (hfits g (List.mem_append_right _ hg)))
    · exact absurd (hv.addr.symm.trans htop) (ht.solo f (hsub f hf) hole hhole)
    · obtain ⟨hpin, hfoot⟩ := hkept g (List.mem_append_right _ hg)
      rw [hpin, hfoot]
      exact ht.foot f (hsub f hf) g hg htop
  · rcases (hmem d).mp hd with rfl | rfl | hd
    · rw [pinAt_markUsed_self ha.spans hv.low, pinAt_write_head_of_ne hc8 hn8 hv.addr_ne, hv.addr]
      exact ht.pin hole ((hall hole).mpr (Or.inl rfl)) fun f hf htop => ht.solo f hf hole hhole htop.symm
    · rw [hv.mid]
      exact pinAt_markUsed_top
    · rw [(hkept d hd).1]
      refine ht.pin d ((hall d).mpr (Or.inr hd)) fun f hf => ?_
      rcases (hfree f).mp hf with rfl | hf
      · exact hv.top ▸ Ne.symm (hlast d (hfits d hd))
      · exact hnone f ((hfree' f).mpr (Or.inr hf))

end Holes

/-! ### The end of the heap -/

section Ends

variable {h : HeapT} {m : Mem} {free free' used used' rest : List Chunk} {y : Chunk} {p e : ℕ}

/-- A chunk starts at `p`, or the heap ends there. -/
def Boundary (h : HeapT) (free used : List Chunk) (p : ℕ) : Prop :=
  (∃ c ∈ free ++ used, c.addr = p) ∨ p = h.endAddr

/-- A boundary goes through no chunk. -/
theorem Arranged.boundary (ha : Arranged h m free used) (hp : Boundary h free used p) {d : Chunk}
    (hd : d ∈ free ++ used) : d.top ≤ p ∨ p ≤ d.addr := by
  rcases hp with ⟨c, hc, rfl⟩ | rfl
  · by_cases hdc : d = c
    · exact Or.inr (by rw [hdc])
    · have hap := ha.apart_of_ne hd hc hdc
      have := (ha.fits c hc).min_le
      unfold Apart Chunk.top at hap
      unfold Chunk.top
      omega
  · exact Or.inl (ha.fits d hd).top_le

theorem Arranged.boundary_bounds (ha : Arranged h m free used) (hp : Boundary h free used p) :
    h.startAddr ≤ p ∧ p ≤ h.endAddr ∧ p % 8 = 0 := by
  rcases hp with ⟨c, hc, rfl⟩ | rfl
  · have hfit := ha.fits c hc
    exact ⟨hfit.start_le, by have := hfit.placed.le_end; omega, hfit.addr_aligned⟩
  · have := ha.geo.min_le
    have := ha.geo.end_aligned
    unfold pageSize at this
    exact ⟨by omega, le_rfl, by omega⟩

/-- The chunks before the boundary `p`. -/
structure Before (free used rest used' : List Chunk) (p : ℕ) : Prop where
  free : ∀ d, d ∈ rest ↔ d ∈ free ∧ d.top ≤ p
  used : ∀ d, d ∈ used' ↔ d ∈ used ∧ d.top ≤ p

theorem Before.mem_iff (hb : Before free used rest used' p) (d : Chunk) :
    d ∈ rest ++ used' ↔ d ∈ free ++ used ∧ d.top ≤ p := by
  simp only [List.mem_append, hb.free, hb.used]
  tauto

/-- The heap is cut at a boundary. -/
theorem Tagged.cut (ht : Tagged h m free used) (ha : Arranged h m free used) (hp : Boundary h free used p)
    (hb : Before free used rest used' p) (hstart : h.startAddr < p) : Tagged (h.withEnd p) m rest used' := by
  refine ⟨?_, fun d hd => ?_, fun f hf g hg => ?_, fun f hf g hg htop => ?_, fun d hd hnone => ?_⟩
  · obtain ⟨c, hc, hcs⟩ := ht.start
    refine ⟨c, (hb.mem_iff c).mpr ⟨hc, (ha.boundary hp hc).resolve_right ?_⟩, hcs⟩
    omega
  · obtain ⟨hd', htop⟩ := (hb.mem_iff d).mp hd
    by_cases hdp : d.top = p
    · exact Or.inl hdp
    · right
      have hle := (ha.boundary_bounds hp).2.1
      rcases ht.next d hd' with hend | ⟨g, hg, hgtop⟩
      · omega
      · exact ⟨g, (hb.mem_iff g).mpr ⟨hg, (ha.boundary hp hg).resolve_right (by omega)⟩, hgtop⟩
  · exact ht.solo f ((hb.free f).mp hf).1 g ((hb.free g).mp hg).1
  · exact ht.foot f ((hb.free f).mp hf).1 g ((hb.used g).mp hg).1 htop
  · obtain ⟨hd', hdp⟩ := (hb.mem_iff d).mp hd
    refine ht.pin d hd' fun f hf htop => ?_
    have := (ha.fits d hd').min_le
    unfold Chunk.top at hdp
    exact hnone f ((hb.free f).mpr ⟨hf, by omega⟩) htop

/-- From a boundary on, the heap is one free chunk. -/
theorem Tagged.retop (ht : Tagged h m free used) (ha : Arranged h m free used) (hp : Boundary h free used p)
    (hsolo : ∀ f ∈ free, f.top ≠ p) (hb : Before free used rest used' p)
    (hfree' : ∀ d, d ∈ free' ↔ d = y ∨ d ∈ rest) (hy : y = ⟨p, e - p⟩) (hroom : p + 16 ≤ e) (he8 : e % 8 = 0)
    (hlim : e ≤ 2147483648) : Tagged (h.withEnd e) (write32 m (y.addr + 4) (y.size + 1)) free' used' := by
  obtain ⟨hpstart, hpend, hp8⟩ := ha.boundary_bounds hp
  have hyaddr : y.addr = p := by rw [hy]
  have hytop : y.top = e := by
    rw [hy]
    unfold Chunk.top
    simp only
    omega
  have hysize : y.size = e - p := by rw [hy]
  have hmem : ∀ d, d ∈ free' ++ used' ↔ d = y ∨ (d ∈ free ++ used ∧ d.top ≤ p) := by
    intro d
    rw [← hb.mem_iff]
    simp only [List.mem_append, hfree']
    tauto
  have hlow : ∀ d ∈ free ++ used, d.top ≤ p → d.addr + 16 ≤ p := by
    intro d hd htop
    have := (ha.fits d hd).min_le
    unfold Chunk.top at htop
    omega
  have hkept : ∀ d ∈ free ++ used, d.top ≤ p →
      pinAt (write32 m (y.addr + 4) (y.size + 1)) d.addr = pinAt m d.addr ∧
        read32 (write32 m (y.addr + 4) (y.size + 1)) d.addr = read32 m d.addr := by
    intro d hd htop
    have := hlow d hd htop
    have h8 := (ha.fits d hd).addr_aligned
    rw [hyaddr]
    exact ⟨pinAt_write_head_of_ne h8 hp8 (by omega), foot_write_head h8 hp8⟩
  refine ⟨?_, fun d hd => ?_, fun f hf g hg htop => ?_, fun f hf g hg htop => ?_, fun d hd hnone => ?_⟩
  · obtain ⟨c, hc, hcs⟩ := ht.start
    rcases ha.boundary hp hc with hctop | hcp
    · exact ⟨c, (hmem c).mpr (Or.inr ⟨hc, hctop⟩), hcs⟩
    · refine ⟨y, (hmem y).mpr (Or.inl rfl), ?_⟩
      show y.addr = h.startAddr
      omega
  · rcases (hmem d).mp hd with rfl | ⟨hd, htop⟩
    · exact Or.inl hytop
    · right
      by_cases hdp : d.top = p
      · exact ⟨y, (hmem y).mpr (Or.inl rfl), hyaddr.trans hdp.symm⟩
      · rcases ht.next d hd with hend | ⟨g, hg, hgtop⟩
        · omega
        · exact ⟨g, (hmem g).mpr (Or.inr ⟨hg, (ha.boundary hp hg).resolve_right (by omega)⟩), hgtop⟩
  · rcases (hfree' f).mp hf with rfl | hf <;> rcases (hfree' g).mp hg with rfl | hg
    · omega
    · obtain ⟨hg, hgp⟩ := (hb.free g).mp hg
      have := hlow g (List.mem_append_left _ hg) hgp
      omega
    · exact hsolo f ((hb.free f).mp hf).1 (htop.symm.trans hyaddr)
    · exact ht.solo f ((hb.free f).mp hf).1 g ((hb.free g).mp hg).1 htop
  · obtain ⟨hg, hgp⟩ := (hb.used g).mp hg
    rcases (hfree' f).mp hf with rfl | hf
    · have := hlow g (List.mem_append_right _ hg) hgp
      omega
    · obtain ⟨hpin, hfoot⟩ := hkept g (List.mem_append_right _ hg) hgp
      rw [hpin, hfoot]
      exact ht.foot f ((hb.free f).mp hf).1 g hg htop
  · rcases (hmem d).mp hd with rfl | ⟨hd, hdp⟩
    · rw [pinAt_write_head (by omega)]
      omega
    · rw [(hkept d hd hdp).1]
      refine ht.pin d hd fun f hf htop => ?_
      have := hlow d hd hdp
      exact hnone f ((hfree' f).mpr (Or.inr ((hb.free f).mpr ⟨hf, by omega⟩))) htop

end Ends

/-! ### Blocks that are cut -/

section Cuts

variable {h : HeapT} {m : Mem} {free free' used : List Chunk} {c lo hi : Chunk}

/-- The lead of a block becomes free. -/
theorem Tagged.led (ht : Tagged h m free (c :: used)) (ha : Arranged h m free (c :: used))
    (hv : Halves h free used c lo hi) (hnone : ∀ f ∈ free, f.top ≠ c.addr) (hpin : pinAt m hi.addr = 0)
    (hfree' : ∀ f, f ∈ free' ↔ f = lo ∨ f ∈ free) :
    Tagged h (write32 (write32 (markUsed m hi) (lo.addr + 4) (lo.size + 1)) hi.addr lo.size) free'
      (hi :: used) := by
  have hmem : ∀ d, d ∈ free' ++ hi :: used ↔ d = lo ∨ d = hi ∨ d ∈ free ++ used := by
    intro d
    simp only [List.mem_append, List.mem_cons, hfree']
    tauto
  have hfits : ∀ d ∈ free ++ used, Fits h d := fun d hd => ha.fits d (mem_middle.mpr (Or.inr hd))
  have hlo8 := hv.low.addr_aligned
  have hhi8 := hv.high.addr_aligned
  have hlt := hv.low.lt ha.spans
  -- the tags of the other chunks, but for the one behind
  have hkept : ∀ d ∈ free ++ used, d.addr ≠ hi.top →
      pinAt (write32 (write32 (markUsed m hi) (lo.addr + 4) (lo.size + 1)) hi.addr lo.size) d.addr =
        pinAt m d.addr := by
    intro d hd htop
    have h8 := (hfits d hd).addr_aligned
    obtain ⟨h1, h2, -⟩ := hv.outside (hfits d hd) hd
    rw [pinAt_write_foot h8 hhi8, pinAt_write_head_of_ne h8 hlo8 h1, pinAt_markUsed_of_ne hv.high h8 h2 htop]
  obtain ⟨hstart, hnext⟩ := hv.tiled ht (fun _ => mem_middle) hmem
  refine ⟨hstart, hnext, fun f hf g hg htop => ?_, fun f hf g hg htop => ?_, fun d hd hfresh => ?_⟩
  · rcases (hfree' f).mp hf with rfl | hf <;> rcases (hfree' g).mp hg with rfl | hg
    · exact hv.addr_ne (htop.trans hv.mid.symm)
    · exact (hv.outside (hfits g (List.mem_append_left _ hg)) (List.mem_append_left _ hg)).2.1
        (htop.trans hv.mid.symm)
    · exact hnone f hf (htop.symm.trans hv.addr)
    · exact ht.solo f hf g hg htop
  · rcases (hfree' f).mp hf with rfl | hf <;> rcases List.mem_cons.mp hg with rfl | hg
    · constructor
      · rw [pinAt_write_foot hhi8 hhi8, pinAt_write_head_of_ne hhi8 hlo8 (Ne.symm hv.addr_ne),
          pinAt_markUsed_self ha.spans hv.high]
        exact hpin
      · unfold Chunk.top at hlt
        exact read32_write32 _ _ _ (by omega)
    · exact absurd (htop.trans hv.mid.symm)
        (hv.outside (hfits g (List.mem_append_right _ hg)) (List.mem_append_right _ hg)).2.1
    · exact absurd htop.symm (hv.outside (hfits f (List.mem_append_left _ hf)) (List.mem_append_left _ hf)).2.2
    · have hgAll : g ∈ free ++ used := List.mem_append_right _ hg
      have h8 := (hfits g hgAll).addr_aligned
      rw [hkept g hgAll (hv.not_behind ha hf htop), foot_write_foot_of_ne h8 hhi8 (hv.outside (hfits g hgAll) hgAll).2.1,
        foot_write_head h8 hlo8, foot_markUsed hv.high h8]
      exact ht.foot f hf g (List.mem_cons_of_mem _ hg) htop
  · rcases (hmem d).mp hd with rfl | rfl | hd
    · have := hv.low.size_aligned
      unfold Chunk.top at hlt
      rw [pinAt_write_foot hlo8 hhi8, pinAt_write_head (by omega)]
      omega
    · exact absurd hv.mid.symm (hfresh lo ((hfree' lo).mpr (Or.inl rfl)))
    · have h8 := (hfits d hd).addr_aligned
      by_cases htop : d.addr = hi.top
      · rw [pinAt_write_foot h8 hhi8, pinAt_write_head_of_ne h8 hlo8 (hv.outside (hfits d hd) hd).1, htop]
        exact pinAt_markUsed_top
      · rw [hkept d hd htop]
        exact ht.pin d (mem_middle.mpr (Or.inr hd)) fun f hf => hfresh f ((hfree' f).mpr (Or.inr hf))

/-- A used chunk falls into two used ones. -/
theorem Tagged.halved (ht : Tagged h m free (c :: used)) (ha : Arranged h m free (c :: used))
    (hv : Halves h free used c lo hi) :
    Tagged h (markUsed (markUsed m lo) hi) free (hi :: lo :: used) ∧
      pinAt (markUsed (markUsed m lo) hi) hi.addr = 1 := by
  have hmem : ∀ d, d ∈ free ++ hi :: lo :: used ↔ d = lo ∨ d = hi ∨ d ∈ free ++ used := by
    intro d
    simp only [List.mem_append, List.mem_cons]
    tauto
  have hfits : ∀ d ∈ free ++ used, Fits h d := fun d hd => ha.fits d (mem_middle.mpr (Or.inr hd))
  have hlo8 := hv.low.addr_aligned
  have hhi8 := hv.high.addr_aligned
  have hhipin : pinAt (markUsed (markUsed m lo) hi) hi.addr = 1 := by
    rw [pinAt_markUsed_self ha.spans hv.high, hv.mid]
    exact pinAt_markUsed_top
  -- the first half keeps the flag of the whole
  have hlopin : pinAt (markUsed (markUsed m lo) hi) lo.addr = pinAt m c.addr := by
    have := hv.low.min_le
    have := hv.high.min_le
    have := hv.mid
    unfold Chunk.top at this
    rw [pinAt_markUsed_of_ne hv.high hlo8 (by omega) (by unfold Chunk.top; omega),
      pinAt_markUsed_self ha.spans hv.low, hv.addr]
  have hfoot : ∀ a, a % 8 = 0 → read32 (markUsed (markUsed m lo) hi) a = read32 m a := fun a ha8 => by
    rw [foot_markUsed hv.high ha8, foot_markUsed hv.low ha8]
  have hkept : ∀ d ∈ free ++ used, d.addr ≠ hi.top →
      pinAt (markUsed (markUsed m lo) hi) d.addr = pinAt m d.addr := by
    intro d hd htop
    have h8 := (hfits d hd).addr_aligned
    obtain ⟨h1, h2, -⟩ := hv.outside (hfits d hd) hd
    rw [pinAt_markUsed_of_ne hv.high h8 h2 htop, pinAt_markUsed_of_ne hv.low h8 h1 (hv.mid ▸ h2)]
  obtain ⟨hstart, hnext⟩ := hv.tiled ht (fun _ => mem_middle) hmem
  refine ⟨⟨hstart, hnext, ht.solo, fun f hf g hg htop => ?_, fun d hd hfresh => ?_⟩, hhipin⟩
  · have hffit := hfits f (List.mem_append_left _ hf)
    rcases List.mem_cons.mp hg with rfl | hg
    · exact absurd htop.symm (hv.outside hffit (List.mem_append_left _ hf)).2.2
    · rcases List.mem_cons.mp hg with rfl | hg
      · rw [hlopin, hfoot _ hlo8, hv.addr]
        exact ht.foot f hf c List.mem_cons_self (hv.addr.symm.trans htop)
      · have hgAll : g ∈ free ++ used := List.mem_append_right _ hg
        rw [hkept g hgAll (hv.not_behind ha hf htop), hfoot _ (hfits g hgAll).addr_aligned]
        exact ht.foot f hf g (List.mem_cons_of_mem _ hg) htop
  · rcases (hmem d).mp hd with rfl | rfl | hd
    · rw [hlopin]
      exact ht.pin c (by simp) fun f hf => hv.addr ▸ hfresh f hf
    · exact hhipin
    · by_cases htop : d.addr = hi.top
      · rw [htop]
        exact pinAt_markUsed_top
      · rw [hkept d hd htop]
        exact ht.pin d (mem_middle.mpr (Or.inr hd)) hfresh

end Cuts

end JustKernel.Heap
