import JustKernel.Mm.HeapList
import Mathlib.Data.List.Pairwise

/-! How the heap is cut into chunks. Some chunks are on the free list and some are
in use; they lie in the heap, no two of them share a byte, and the header of each
tells its size and its state. Nothing is said about `prevFoot` and `PINUSE`, which
are not kept right, nor that the chunks fill the heap. A chunk that is in neither
list is loose: between two operations on the lists its bytes, the `prevFoot`
word behind it and the flag after that word may be written at will. -/

namespace JustKernel.Heap

open Memory Halting Links

/-- The chunks share no byte. -/
def Apart (c d : Chunk) : Prop := c.top ≤ d.addr ∨ d.top ≤ c.addr

theorem Apart.symm {c d : Chunk} (h : Apart c d) : Apart d c := Or.symm h

instance : Std.Symm Apart := ⟨fun _ _ => Apart.symm⟩

/-- A chunk as the heap makes them, inside its bounds. -/
structure Fits (h : HeapT) (c : Chunk) : Prop where
  addr_aligned : c.addr % 8 = 0
  size_aligned : c.size % 8 = 0
  min_le : 16 ≤ c.size
  start_le : h.startAddr ≤ c.addr
  top_le : c.top ≤ h.endAddr

/-- `CINUSE` of the chunk at `c`. -/
def usedAt (m : Mem) (c : ℕ) : ℕ := read32 m (c + 4) / 2 % 2

/-- `PINUSE` of the chunk at `c`. -/
def pinAt (m : Mem) (c : ℕ) : ℕ := read32 m (c + 4) % 2

/-- The header of a chunk. -/
def HeadIs (m : Mem) (c : Chunk) (used : ℕ) : Prop :=
  sizeAt m c.addr = c.size ∧ usedAt m c.addr = used

/-- The free list and the chunks of a heap. -/
structure Laid (h : HeapT) (m : Mem) (free used : List Chunk) : Prop where
  spans : Spans h
  ring : FreeRing h m free
  fits : ∀ c ∈ free ++ used, Fits h c
  apart : (free ++ used).Pairwise Apart
  freeHead : ∀ c ∈ free, HeadIs m c 0
  usedHead : ∀ c ∈ used, HeadIs m c 1

/-- The same of a heap as the kernel creates them. -/
structure Arranged (h : HeapT) (m : Mem) (free used : List Chunk) : Prop extends Laid h m free used where
  geo : Geometry h

/-- A chunk of the heap that is in neither list. -/
structure Loose (h : HeapT) (free used : List Chunk) (c : Chunk) : Prop where
  fits : Fits h c
  apart : ∀ d ∈ free ++ used, Apart c d

section Facts

variable {h : HeapT} {m m' : Mem} {free used : List Chunk} {c d : Chunk}

theorem fits_mk {a k : ℕ} (ha : a % 8 = 0) (hk : k % 8 = 0) (h16 : 16 ≤ k) (hstart : h.startAddr ≤ a)
    (hend : a + k ≤ h.endAddr) : Fits h ⟨a, k⟩ :=
  ⟨ha, hk, h16, hstart, hend⟩

theorem Fits.placed (hc : Fits h c) : Placed h c.addr := by
  obtain ⟨h1, -, h3, h4, h5⟩ := hc
  unfold Chunk.top at h5
  exact ⟨h1, h4, by omega⟩

theorem Fits.lt (hc : Fits h c) (hs : Spans h) : c.top + 8 ≤ 4294967296 := by
  have := hc.top_le
  have := hc.addr_aligned
  have := hc.size_aligned
  have := hs.end_lt
  unfold Chunk.top at *
  omega

theorem Laid.arranged (hl : Laid h m free used) (hg : Geometry h) : Arranged h m free used := ⟨hl, hg⟩

theorem Laid.walkable (ha : Laid h m free used) : Walkable h m free where
  ring := ha.ring
  placed c hc := (ha.fits c (List.mem_append_left _ hc)).placed
  size c hc := (ha.freeHead c hc).1

theorem Laid.apart_of_ne (ha : Laid h m free used) (hc : c ∈ free ++ used)
    (hd : d ∈ free ++ used) (hne : c ≠ d) : Apart c d :=
  ha.apart.forall hc hd hne

theorem Fits.addr_ne_of_apart (hc : Fits h c) (hd : Fits h d) (hcd : Apart c d) :
    c.addr ≠ d.addr := by
  have := hc.min_le
  have := hd.min_le
  unfold Apart Chunk.top at hcd
  omega

/-- The first two words of a chunk are no links of a node. -/
theorem off_links (hs : Spans h) (hc : Fits h c) {cs : List Chunk}
    (hcs : ∀ d ∈ cs, Fits h d ∧ (d = c ∨ Apart c d)) :
    ∀ u ∈ h.head :: nodes cs, c.addr + 8 ≤ u ∨ u + 8 ≤ c.addr := by
  intro u hu
  rcases List.mem_cons.mp hu with rfl | hu
  · have := hc.placed.head_apart hs
    omega
  · obtain ⟨d, hd, rfl⟩ := List.mem_map.mp hu
    obtain ⟨hfd, rfl | hap⟩ := hcs d hd
    · exact Or.inl le_rfl
    · have := hc.min_le
      have := hfd.min_le
      unfold Apart Chunk.top at hap
      unfold Chunk.node
      omega

theorem HeadIs.of_read (hc : HeadIs m c k) (heq : read32 m' (c.addr + 4) = read32 m (c.addr + 4)) :
    HeadIs m' c k := by
  unfold HeadIs sizeAt usedAt at hc ⊢
  rwa [heq]

/-- The header of a chunk outlives a change of the links. -/
theorem HeadIs.of_sameOff {k : ℕ} {cs : List Chunk} (hc : HeadIs m c k) (hspans : Spans h)
    (hf : Fits h c) (hcs : ∀ d ∈ cs, Fits h d ∧ (d = c ∨ Apart c d))
    (hs : SameOff (h.head :: nodes cs) m m') : HeadIs m' c k := by
  apply hc.of_read
  apply hs.read32
  intro u hu
  have := off_links hspans hf hcs u hu
  omega

/-- The arrangement depends on the headers and the links only. -/
theorem Laid.congr (ha : Laid h m free used)
    (hhead : ∀ c ∈ free ++ used, ∀ k, HeadIs m c k → HeadIs m' c k)
    (hlink : ∀ u ∈ h.head :: nodes free, nextOf m' u = nextOf m u ∧ prevOf m' u = prevOf m u) :
    Laid h m' free used where
  spans := ha.spans
  ring := ha.ring.congr (fun u hu => (hlink u hu).1) (fun u hu => (hlink u hu).2)
  fits := ha.fits
  apart := ha.apart
  freeHead c hc := hhead c (List.mem_append_left _ hc) 0 (ha.freeHead c hc)
  usedHead c hc := hhead c (List.mem_append_right _ hc) 1 (ha.usedHead c hc)

/-- A change of memory that leaves the headers of the chunks and the links of the free list. -/
theorem Laid.of_bytes (ha : Laid h m free used)
    (hhead : ∀ c ∈ free ++ used, ∀ x, c.addr + 4 ≤ x → x < c.addr + 8 → m' x = m x)
    (hlink : ∀ u ∈ h.head :: nodes free, ∀ x, u ≤ x → x < u + 8 → m' x = m x) :
    Laid h m' free used := by
  refine ha.congr ?_ ?_
  · intro c hc k hk
    exact hk.of_read (load_congr fun x h1 h2 => hhead c hc x h1 (by omega))
  · intro u hu
    exact ⟨load_congr fun x h1 h2 => hlink u hu x h1 (by omega),
      load_congr fun x h1 h2 => hlink u hu x (by omega) (by omega)⟩

/-- The nodes of the free list lie below the end of the heap. -/
theorem Arranged.node_le_end (ha : Arranged h m free used) {u : ℕ} (hu : u ∈ h.head :: nodes free) :
    u + 8 ≤ h.endAddr := by
  rcases List.mem_cons.mp hu with rfl | hu
  · have := ha.geo.head_le
    have := ha.geo.min_le
    omega
  · obtain ⟨c, hc, rfl⟩ := List.mem_map.mp hu
    have hfits := ha.fits c (List.mem_append_left _ hc)
    have := hfits.placed.le_end
    have := hfits.min_le
    unfold Chunk.node
    omega

/-- Memory outside the heap may change, except for the list head. -/
theorem Arranged.of_below (ha : Arranged h m free used) (hm : ∀ x < h.endAddr, m' x = m x) :
    Arranged h m' free used := by
  refine (ha.of_bytes ?_ ?_).arranged ha.geo
  · intro c hc x h1 h2
    have := (ha.fits c hc).placed.le_end
    exact hm x (by omega)
  · intro u hu x h1 h2
    have := ha.node_le_end hu
    exact hm x (by omega)

/-- Where a change of memory may not reach: the header of every chunk and the links of the
free ones, in a form that is easy to check. -/
theorem Laid.of_region (ha : Laid h m free used) (lo hi : ℕ) (hlo : h.startAddr ≤ lo)
    (hfree : ∀ c ∈ free, hi ≤ c.addr + 4 ∨ c.addr + 16 ≤ lo)
    (hused : ∀ c ∈ used, hi ≤ c.addr + 4 ∨ c.addr + 8 ≤ lo)
    (hhi : hi ≤ h.endAddr + 8) (hm : ∀ x, x < lo ∨ hi ≤ x → m' x = m x) : Laid h m' free used := by
  refine ha.of_bytes ?_ ?_
  · intro c hc x h1 h2
    apply hm
    rcases List.mem_append.mp hc with hc | hc
    · have := hfree c hc
      omega
    · have := hused c hc
      omega
  · intro u hu x h1 h2
    apply hm
    rcases List.mem_cons.mp hu with rfl | hu
    · have := ha.spans.head_apart
      omega
    · obtain ⟨c, hc, rfl⟩ := List.mem_map.mp hu
      have := hfree c hc
      unfold Chunk.node at h1 h2
      omega

/-- The bytes of a loose chunk and the word behind it may change. -/
theorem Laid.of_loose (ha : Laid h m free used) (hc : Loose h free used c)
    (hm : ∀ x, x < c.addr ∨ c.top + 4 ≤ x → m' x = m x) : Laid h m' free used := by
  have haway : ∀ d ∈ free ++ used, c.top + 4 ≤ d.addr + 4 ∨ d.addr + 16 ≤ c.addr := by
    intro d hd
    have hap := hc.apart d hd
    have := (ha.fits d hd).min_le
    unfold Apart Chunk.top at hap
    unfold Chunk.top
    omega
  have htop := hc.fits.top_le
  refine ha.of_region c.addr (c.top + 4) hc.fits.start_le (fun d hd => haway d (List.mem_append_left _ hd)) ?_
    (by omega) hm
  intro d hd
  have := haway d (List.mem_append_right _ hd)
  omega

end Facts

/-! ### Moving chunks between the lists -/

section Moves

variable {h : HeapT} {m m' : Mem} {free used l r : List Chunk} {c d : Chunk}

theorem pairwise_apart_middle : (l ++ c :: r).Pairwise Apart ↔
    (∀ d ∈ l ++ r, Apart c d) ∧ (l ++ r).Pairwise Apart := by
  rw [List.pairwise_middle (fun h => Apart.symm h), List.pairwise_cons]

theorem Laid.free_apart (ha : Laid h m (l ++ c :: r) used) :
    (∀ d ∈ l ++ r ++ used, Apart c d) ∧ (l ++ r ++ used).Pairwise Apart := by
  have hpw := ha.apart
  rwa [List.append_assoc, List.cons_append, pairwise_apart_middle, ← List.append_assoc] at hpw

theorem Laid.used_apart (ha : Laid h m free (l ++ c :: r)) :
    (∀ d ∈ free ++ (l ++ r), Apart c d) ∧ (free ++ (l ++ r)).Pairwise Apart := by
  have hpw := ha.apart
  rwa [← List.append_assoc, pairwise_apart_middle, List.append_assoc] at hpw

/-- A chunk leaves the free list. -/
theorem Laid.take (ha : Laid h m (l ++ c :: r) used) (hring : FreeRing h m' (l ++ r))
    (hs : SameOff (h.head :: nodes (l ++ r)) m m') :
    Laid h m' (l ++ r) used ∧ Loose h (l ++ r) used c := by
  have hmem : ∀ d ∈ l ++ r ++ used, d ∈ l ++ c :: r ++ used := by
    intro d hd
    rw [List.append_assoc] at hd ⊢
    exact mem_middle.mpr (Or.inr hd)
  have hpw := ha.free_apart
  have hsame : ∀ d ∈ l ++ r ++ used, ∀ k, HeadIs m d k → HeadIs m' d k := by
    intro d hd k hk
    refine hk.of_sameOff ha.spans (ha.fits d (hmem d hd)) ?_ hs
    intro e he
    have he' := List.mem_append_left used he
    refine ⟨ha.fits e (hmem e he'), ?_⟩
    by_cases hde : e = d
    · exact Or.inl hde
    · exact Or.inr (hpw.2.forall hd he' (Ne.symm hde))
  constructor
  · exact {
      spans := ha.spans
      ring := hring
      fits := fun d hd => ha.fits d (hmem d hd)
      apart := hpw.2
      freeHead := fun d hd => hsame d (List.mem_append_left _ hd) 0
        (ha.freeHead d (mem_middle.mpr (Or.inr hd)))
      usedHead := fun d hd => hsame d (List.mem_append_right _ hd) 1 (ha.usedHead d hd) }
  · exact ⟨ha.fits c (by simp), hpw.1⟩

/-- A loose chunk with the header of a free one enters the free list. -/
theorem Laid.give (ha : Laid h m (l ++ r) used) (hc : Loose h (l ++ r) used c)
    (hhead : HeadIs m c 0) (hring : FreeRing h m' (l ++ c :: r))
    (hs : SameOff (h.head :: nodes (c :: (l ++ r))) m m') : Laid h m' (l ++ c :: r) used := by
  have hfits : ∀ d ∈ c :: (l ++ r ++ used), Fits h d := by
    intro d hd
    rcases List.mem_cons.mp hd with rfl | hd
    · exact hc.fits
    · exact ha.fits d hd
  have hapart : ∀ d ∈ c :: (l ++ r ++ used), ∀ e ∈ c :: (l ++ r ++ used), e = d ∨ Apart d e := by
    intro d hd e he
    by_cases hde : e = d
    · exact Or.inl hde
    · right
      rcases List.mem_cons.mp hd with hdc | hd <;> rcases List.mem_cons.mp he with hec | he
      · exact absurd (hec.trans hdc.symm) hde
      · exact hdc ▸ hc.apart e he
      · exact hec ▸ (hc.apart d hd).symm
      · exact ha.apart_of_ne hd he (Ne.symm hde)
  have hsame : ∀ d ∈ c :: (l ++ r ++ used), ∀ k, HeadIs m d k → HeadIs m' d k := by
    intro d hd k hk
    refine hk.of_sameOff ha.spans (hfits d hd) ?_ hs
    intro e he
    have he' : e ∈ c :: (l ++ r ++ used) := by
      rw [← List.cons_append]
      exact List.mem_append_left _ he
    exact ⟨hfits e he', hapart d hd e he'⟩
  refine ⟨ha.spans, hring, ?_, ?_, ?_, ?_⟩
  · intro d hd
    rw [List.append_assoc, List.cons_append] at hd
    apply hfits
    rw [List.append_assoc]
    exact List.mem_cons.mpr (mem_middle.mp hd)
  · rw [List.append_assoc, List.cons_append, pairwise_apart_middle, ← List.append_assoc]
    exact ⟨hc.apart, ha.apart⟩
  · intro d hd
    rcases mem_middle.mp hd with rfl | hd
    · exact hsame d List.mem_cons_self 0 hhead
    · exact hsame d (List.mem_cons_of_mem _ (List.mem_append_left _ hd)) 0 (ha.freeHead d hd)
  · intro d hd
    exact hsame d (List.mem_cons_of_mem _ (List.mem_append_right _ hd)) 1 (ha.usedHead d hd)

/-- A loose chunk with the header of a used one is in use. -/
theorem Laid.own (ha : Laid h m free used) (hc : Loose h free used c)
    (hhead : HeadIs m c 1) : Laid h m free (c :: used) where
  spans := ha.spans
  ring := ha.ring
  fits d hd := by
    rcases List.mem_append.mp hd with hd | hd
    · exact ha.fits d (List.mem_append_left _ hd)
    · rcases List.mem_cons.mp hd with rfl | hd
      · exact hc.fits
      · exact ha.fits d (List.mem_append_right _ hd)
  apart := pairwise_apart_middle.mpr ⟨hc.apart, ha.apart⟩
  freeHead := ha.freeHead
  usedHead d hd := by
    rcases List.mem_cons.mp hd with rfl | hd
    · exact hhead
    · exact ha.usedHead d hd

/-- A chunk in use becomes loose. -/
theorem Laid.disown (ha : Laid h m free (l ++ c :: r)) :
    Laid h m free (l ++ r) ∧ Loose h free (l ++ r) c := by
  have hmem : ∀ d ∈ free ++ (l ++ r), d ∈ free ++ (l ++ c :: r) := by
    intro d hd
    rw [← List.append_assoc] at hd ⊢
    exact mem_middle.mpr (Or.inr hd)
  have hpw := ha.used_apart
  constructor
  · exact {
      spans := ha.spans
      ring := ha.ring
      fits := fun d hd => ha.fits d (hmem d hd)
      apart := hpw.2
      freeHead := ha.freeHead
      usedHead := fun d hd => ha.usedHead d (mem_middle.mpr (Or.inr hd)) }
  · exact ⟨ha.fits c (by simp), hpw.1⟩

/-- A loose chunk falls into two. -/
theorem Loose.split (hc : Loose h free used c) {k : ℕ} (hk : k % 8 = 0) (h16 : 16 ≤ k)
    (hrest : k + 16 ≤ c.size) :
    Loose h free used ⟨c.addr, k⟩ ∧ Loose h free used ⟨c.addr + k, c.size - k⟩ ∧
      Apart ⟨c.addr, k⟩ ⟨c.addr + k, c.size - k⟩ := by
  obtain ⟨⟨h1, h2, h3, h4, h5⟩, hap⟩ := hc
  unfold Chunk.top at h5
  have hlow : Fits h ⟨c.addr, k⟩ := fits_mk h1 hk h16 h4 (by omega)
  have hhigh : Fits h ⟨c.addr + k, c.size - k⟩ :=
    fits_mk (by omega) (by omega) (by omega) (by omega) (by omega)
  refine ⟨⟨hlow, ?_⟩, ⟨hhigh, ?_⟩, Or.inl le_rfl⟩
  all_goals
    intro d hd
    have := hap d hd
    simp only [Apart, Chunk.top] at this ⊢
    omega

/-! ### Chunks told apart -/

theorem Laid.addr_inj (ha : Laid h m free used) (hc : c ∈ free ++ used) (hd : d ∈ free ++ used)
    (heq : c.addr = d.addr) : c = d := by
  by_contra hne
  exact (ha.fits c hc).addr_ne_of_apart (ha.fits d hd) (ha.apart_of_ne hc hd hne) heq

theorem Laid.top_inj (ha : Laid h m free used) (hc : c ∈ free ++ used) (hd : d ∈ free ++ used)
    (heq : c.top = d.top) : c = d := by
  by_contra hne
  have hap := ha.apart_of_ne hc hd hne
  have := (ha.fits c hc).min_le
  have := (ha.fits d hd).min_le
  unfold Apart Chunk.top at hap
  unfold Chunk.top at heq
  omega

theorem Laid.not_used (ha : Laid h m free used) (hc : c ∈ free) : c ∉ used := fun hu => by
  have h0 := (ha.freeHead c hc).2
  have h1 := (ha.usedHead c hu).2
  omega

theorem apart_self (hc : Fits h c) : ¬Apart c c := by
  have := hc.min_le
  unfold Apart Chunk.top
  omega

/-- A chunk that ends the heap is above all others. -/
theorem Laid.below_last (ha : Laid h m free used) (hc : c ∈ free ++ used) (htop : c.top = h.endAddr) :
    ∀ d ∈ free ++ used, d ≠ c → d.top ≤ c.addr := by
  intro d hd hne
  have hap := ha.apart_of_ne hd hc hne
  have := (ha.fits d hd).top_le
  have := (ha.fits d hd).min_le
  unfold Apart Chunk.top at *
  omega

theorem Laid.not_mem_free_rest {l r : List Chunk} (ha : Laid h m (l ++ c :: r) used) : c ∉ l ++ r := by
  intro hmem
  exact apart_self (ha.fits c (by simp)) (ha.free_apart.1 c (List.mem_append_left _ hmem))

theorem Laid.not_mem_rest {l r : List Chunk} (ha : Laid h m free (l ++ c :: r)) : c ∉ l ++ r := by
  intro hmem
  exact apart_self (ha.fits c (by simp)) (ha.used_apart.1 c (List.mem_append_right _ hmem))

end Moves

/-! ### Marking a chunk as used -/

/-- What `set_inuse` does to the memory. -/
def markUsed (m : Mem) (c : Chunk) : Mem :=
  write32 (write32 m (c.addr + 4) (c.size + 2 + pinAt m c.addr)) (c.top + 4)
    (read32 m (c.top + 4) / 2 * 2 + 1)

section Marking

variable {h : HeapT} {m m' : Mem} {free used : List Chunk} {c d : Chunk}

theorem pinAt_lt (m : Mem) (a : ℕ) : pinAt m a < 2 := Nat.mod_lt _ (by omega)

theorem markUsed_self (hs : Spans h) (hc : Fits h c) :
    read32 (markUsed m c) (c.addr + 4) = c.size + 2 + pinAt m c.addr := by
  have := hc.min_le
  have hlt := hc.lt hs
  have := pinAt_lt m c.addr
  unfold Chunk.top at hlt
  rw [markUsed, read32_write32_of_disjoint _ (by unfold Chunk.top; omega),
    read32_write32 _ _ _ (by omega)]

theorem markUsed_top : read32 (markUsed m c) (c.top + 4) = read32 m (c.top + 4) / 2 * 2 + 1 := by
  have hlt := read32_lt m (c.top + 4)
  rw [markUsed, read32_write32 _ _ _ (by omega)]

/-- Every other word is left alone. -/
theorem markUsed_other {a : ℕ} (h1 : a + 4 ≤ c.addr + 4 ∨ c.addr + 8 ≤ a)
    (h2 : a + 4 ≤ c.top + 4 ∨ c.top + 8 ≤ a) : read32 (markUsed m c) a = read32 m a := by
  rw [markUsed, read32_write32_of_disjoint _ (by omega), read32_write32_of_disjoint _ (by omega)]

theorem headIs_markUsed (hs : Spans h) (hc : Fits h c) : HeadIs (markUsed m c) c 1 := by
  have := hc.size_aligned
  have := pinAt_lt m c.addr
  unfold HeadIs sizeAt usedAt
  rw [markUsed_self hs hc]
  omega

/-- The flag of the chunk behind `c` says nothing about its size and its state. -/
theorem HeadIs.markUsed_spec {k : ℕ} (hd : HeadIs m d k) (hc : Fits h c) (hfd : Fits h d)
    (hap : Apart c d) : HeadIs (markUsed m c) d k := by
  have := hc.min_le
  have := hc.addr_aligned
  have := hc.size_aligned
  have := hfd.addr_aligned
  have := hfd.min_le
  by_cases htop : d.addr = c.top
  · unfold HeadIs sizeAt usedAt at hd ⊢
    rw [htop] at hd ⊢
    rw [markUsed_top]
    omega
  · apply hd.of_read
    unfold Apart at hap
    apply markUsed_other <;> unfold Chunk.top at * <;> omega

/-- A loose chunk that is marked as used is in use. -/
theorem Laid.markUsed_spec (ha : Laid h m free used) (hc : Loose h free used c) :
    Laid h (markUsed m c) free (c :: used) := by
  have hmarked : Laid h (markUsed m c) free used := by
    refine ha.congr ?_ ?_
    · intro d hd k hk
      exact hk.markUsed_spec hc.fits (ha.fits d hd) (hc.apart d hd)
    · intro u hu
      have hoff : (u + 8 ≤ c.addr + 4 ∨ c.top + 8 ≤ u) := by
        rcases List.mem_cons.mp hu with rfl | hu
        · have := ha.spans.head_apart
          have := hc.fits.start_le
          have := hc.fits.top_le
          omega
        · obtain ⟨d, hd, rfl⟩ := List.mem_map.mp hu
          have hap := hc.apart d (List.mem_append_left _ hd)
          have := (ha.fits d (List.mem_append_left _ hd)).min_le
          unfold Apart Chunk.top at hap
          unfold Chunk.node Chunk.top
          omega
      have := hc.fits.min_le
      unfold Chunk.top at hoff
      exact ⟨markUsed_other (by omega) (by unfold Chunk.top; omega),
        markUsed_other (by omega) (by unfold Chunk.top; omega)⟩
  exact hmarked.own hc (headIs_markUsed ha.spans hc.fits)

/-- Marking commutes with a change of the links. -/
theorem sameOff_markUsed {cs : List Chunk} (hs : Spans h) (hc : Fits h c)
    (hcs : ∀ d ∈ cs, Fits h d ∧ (d = c ∨ Apart c d)) (hsame : SameOff (h.head :: nodes cs) m m') :
    SameOff (h.head :: nodes cs) (markUsed m c) (markUsed m' c) := by
  have hself : read32 m' (c.addr + 4) = read32 m (c.addr + 4) := by
    apply hsame.read32
    intro u hu
    have := off_links hs hc hcs u hu
    omega
  have htop : ∀ u ∈ h.head :: nodes cs, c.top + 8 ≤ u ∨ u + 8 ≤ c.top + 4 := by
    intro u hu
    have := hc.min_le
    rcases List.mem_cons.mp hu with rfl | hu
    · have := hs.head_apart
      have := hc.start_le
      have := hc.top_le
      unfold Chunk.top at *
      omega
    · obtain ⟨d, hd, rfl⟩ := List.mem_map.mp hu
      obtain ⟨hfd, rfl | hap⟩ := hcs d hd
      · unfold Chunk.top Chunk.node
        omega
      · have := hfd.min_le
        unfold Apart Chunk.top at hap
        unfold Chunk.top Chunk.node
        omega
  have hpin : pinAt m' c.addr = pinAt m c.addr := by unfold pinAt; rw [hself]
  have hflag : read32 m' (c.top + 4) = read32 m (c.top + 4) :=
    hsame.read32 fun u hu => by have := htop u hu; omega
  rw [markUsed, markUsed, hpin, hflag]
  exact (hsame.write32 _ _).write32 _ _

variable {σ : Type} {s : State σ}

theorem setMem_touch (s : State σ) (m : Mem) (a : ℕ) : (s.setMem m).touch a = (s.touch a).setMem m := by
  unfold State.touch
  rw [setMem_heap]
  split_ifs <;> rfl

/-- `set_inuse` on a chunk of the heap. Behind the last chunk it reads and writes outside. -/
theorem setInuse_run (hs : Spans s.heap) (hc : Fits s.heap c) :
    ∃ t, setInuse c.addr c.size s = .ok () t ∧ t.mem = markUsed s.mem c ∧ t.heap = s.heap ∧
      (c.top ≠ s.heap.endAddr → t.outside = s.outside) := by
  have hlt := hc.lt hs
  have hp := hc.placed
  have hpl := hp.lt hs
  have hhead : getHead c.addr s = .ok (read32 s.mem (c.addr + 4)) s := by
    rw [getHead_run (by omega), touch_of_inBounds (hp.word (by omega))]
  have hvalue : read32 s.mem (c.addr + 4) &&& pinuseBit ||| cinuseBit ||| c.size =
      c.size + 2 + pinAt s.mem c.addr := or_inuse _ hc.size_aligned
  have hnext : add32 c.addr c.size = c.top := add32_eq (by unfold Chunk.top at hlt; omega)
  have hkept : read32 (write32 s.mem (c.addr + 4) (c.size + 2 + pinAt s.mem c.addr)) (c.top + 4) =
      read32 s.mem (c.top + 4) := by
    have := hc.min_le
    exact read32_write32_of_disjoint _ (by unfold Chunk.top; omega)
  refine ⟨((s.touch (c.top + 4)).touch (c.top + 4)).setMem (markUsed s.mem c), ?_, rfl, by simp, ?_⟩
  · rw [setInuse, bind_of_ok hhead, bind_of_ok (setHead_ok hs hp _), hnext,
      bind_of_ok (getHead_run (by omega) _), setHead_run (by omega), hvalue, touch_mem, setMem_mem,
      hkept, or_pinuseBit, setMem_touch, setMem_touch, setMem_setMem]
    rfl
  · intro hne
    have hin : inBounds s.heap (c.top + 4) := by
      have := hc.top_le
      have := hc.addr_aligned
      have := hc.size_aligned
      have := hs.end_mod
      have := hc.start_le
      unfold Chunk.top at *
      exact Or.inl ⟨by omega, by omega⟩
    rw [touch_of_inBounds hin, touch_of_inBounds hin]
    rfl

end Marking

end JustKernel.Heap
