import JustKernel.Mm.HeapTags
import JustKernel.Mm.HeapDisjoint

/-! Runs that keep the boundary tags. Each call is followed through the chunks it takes, cuts
and gives back; a run keeps the tags in order as long as no call takes less than the whole of
a hole in the middle or releases a block in the middle. -/

namespace JustKernel.Heap

open Memory Halting Links Runs

/-! ### The calls -/

section Calls

variable {h h' : HeapT} {m m' : Mem} {free free' used rest : List Chunk} {hole c n q : Chunk} {nb : ℕ}

/-- A hole that is taken whole or ends the heap. -/
theorem Tagged.taken {l r : List Chunk} (ht : Tagged h m (l ++ hole :: r) used)
    (ha : Arranged h m (l ++ hole :: r) used) (htaken : Taken h m nb (l ++ r) hole m' free' c)
    (ha' : Arranged h m' free' (c :: used)) (h8 : nb % 8 = 0) (h16 : 16 ≤ nb)
    (hsafe : hole.size < nb + 16 ∨ hole.top = h.endAddr) :
    Tagged h m' free' (c :: used) ∧ ∀ f ∈ free', f.top ≠ c.addr := by
  have hhole : hole ∈ l ++ hole :: r := by simp
  have hfree : ∀ d, d ∈ l ++ hole :: r ↔ d = hole ∨ d ∈ l ++ r := fun d => mem_middle
  have hrest := ha.not_mem_free_rest
  have hbefore : ∀ f ∈ l ++ r, f.top ≠ hole.addr := fun f hf htop =>
    ht.solo f ((hfree f).mpr (Or.inr hf)) hole hhole htop.symm
  cases htaken with
  | whole hsmall hsame =>
    exact ⟨(ht.whole ha hfree hrest).of_sameOff ha' hsame fun _ hd => hd, hbefore⟩
  | @split l' r' _ new hbig hc hnew hlr hsame =>
    have hfree' : ∀ d, d ∈ l' ++ new :: r' ↔ d = new ∨ d ∈ l ++ r := fun d => by
      rw [hlr]
      exact mem_middle
    have hloose : Loose h (l ++ r) used hole := ⟨ha.fits hole (by simp), ha.free_apart.1⟩
    have hv := hloose.halves h8 h16 hbig hc hnew
    refine ⟨(ht.split ha hfree hfree' hv (hsafe.resolve_left (by omega))).of_sameOff ha' hsame fun d hd => ?_,
      fun f hf htop => ?_⟩
    · exact (hfree' d).mpr (List.mem_cons.mp hd)
    · rw [hc] at htop
      rcases (hfree' f).mp hf with rfl | hf
      · rw [hnew] at htop
        unfold Chunk.top at htop
        simp only at htop
        omega
      · exact hbefore f hf htop

/-- The heap grows. -/
theorem Tagged.grown {e : ℕ} {top : Chunk} (ht : Tagged h m free used) (ha : Arranged h m free used)
    (hgrown : Grown h m free e m' free' top) (ha' : Arranged (h.withEnd e) m' free' used)
    (he : h.endAddr + 16 ≤ e) : Tagged (h.withEnd e) m' free' used := by
  have hmax := ha'.geo.end_le.trans ha'.geo.max_le
  have halign := ha'.geo.end_aligned
  have he8 : e % 8 = 0 := by
    have : e % 4096 = 0 := halign
    omega
  have hsame := hgrown.sameOff
  refine Tagged.of_sameOff ?_ ha' hsame fun _ hd => hd
  cases hgrown with
  | @extend l r l' r' old _ hfree hold htop hlr _ =>
    subst hfree
    have holdMem : old ∈ l ++ old :: r := by simp
    have holdAll : old ∈ (l ++ old :: r) ++ used := List.mem_append_left _ holdMem
    have hbelow := ha.below_last holdAll hold
    have hnot := ha.not_mem_free_rest
    have hself : ¬old.top ≤ old.addr := by
      have := (ha.fits old holdAll).min_le
      unfold Chunk.top
      omega
    have hbefore : Before (l ++ old :: r) used (l ++ r) used old.addr := by
      refine ⟨fun d => ⟨fun hd => ?_, fun ⟨hd, hdtop⟩ => ?_⟩, fun d => ⟨fun hd => ⟨hd, ?_⟩, And.left⟩⟩
      · have hdfree : d ∈ l ++ old :: r := mem_middle.mpr (Or.inr hd)
        exact ⟨hdfree, hbelow d (List.mem_append_left _ hdfree) fun heq => hnot (heq ▸ hd)⟩
      · exact (mem_middle.mp hd).resolve_left fun heq => hself (heq ▸ hdtop)
      · exact hbelow d (List.mem_append_right _ hd) fun heq => ha.not_used holdMem (heq ▸ hd)
    refine ht.retop ha (Or.inl ⟨old, holdAll, rfl⟩) (fun f hf hftop => ht.solo f hf old holdMem hftop.symm) hbefore
      (fun d => ?_) htop ?_ he8 hmax
    · rw [hlr]
      exact mem_middle
    · unfold Chunk.top at hold
      omega
  | @fresh l r _ hnone htop hfree _ =>
    have hbefore : Before free used free used h.endAddr :=
      ⟨fun d => ⟨fun hd => ⟨hd, (ha.fits d (List.mem_append_left _ hd)).top_le⟩, And.left⟩,
        fun d => ⟨fun hd => ⟨hd, (ha.fits d (List.mem_append_right _ hd)).top_le⟩, And.left⟩⟩
    refine ht.retop ha (Or.inr rfl) hnone hbefore (fun d => ?_) htop he he8 hmax
    rw [hfree]
    exact mem_middle

/-- A request that is served from a hole taken whole or from the last one. -/
theorem Tagged.served (ht : Tagged h m free used) (ha : Arranged h m free used)
    (hsv : Served h m free used nb h' m' free' hole c) (ha' : Arranged h' m' free' (c :: used)) (h8 : nb % 8 = 0)
    (h16 : 16 ≤ nb) (hsafe : hole.size < nb + 16 ∨ hole.top = h'.endAddr) :
    Tagged h' m' free' (c :: used) ∧ ∀ f ∈ free', f.top ≠ c.addr := by
  cases hsv with
  | found hfree _ _ htaken =>
    subst hfree
    exact ht.taken ha htaken ha' h8 h16 hsafe
  | grown _ hgrown harr hfree htaken =>
    obtain ⟨-, hge⟩ := grownEnd_spec ha.geo nb
    have ht₁ := ht.grown ha hgrown harr (by omega)
    subst hfree
    exact ht₁.taken harr htaken ha' h8 h16 hsafe

/-- Where the last block starts after the backward merge. -/
theorem Merged.boundary {l r : List Chunk} {b x : Chunk} {m₁ : Mem} (hmerged : Merged h m free b m₁ rest x)
    (ht : Tagged h m free (l ++ b :: r)) (ha : Arranged h m free (l ++ b :: r)) (htop : b.top = h.endAddr) :
    Boundary h free (l ++ b :: r) x.addr ∧ (∀ f ∈ free, f.top ≠ x.addr) ∧
      Before free (l ++ b :: r) rest (l ++ r) x.addr ∧ SameOff (h.head :: nodes rest) m m₁ := by
  have hbUsed : b ∈ l ++ b :: r := by simp
  have hbAll : b ∈ free ++ (l ++ b :: r) := List.mem_append_right _ hbUsed
  have hbfit := ha.fits b hbAll
  have hbelow := ha.below_last hbAll htop
  have hbnot := ha.not_mem_rest
  have hbself : ¬b.top ≤ b.addr := by
    have := hbfit.min_le
    unfold Chunk.top
    omega
  have hfreeBelow : ∀ f ∈ free, f.top ≤ b.addr := fun f hf =>
    hbelow f (List.mem_append_left _ hf) fun heq => ha.not_used hf (heq ▸ hbUsed)
  have husedBelow : ∀ d ∈ l ++ r, d.top ≤ b.addr := fun d hd =>
    hbelow d (List.mem_append_right _ (mem_middle.mpr (Or.inr hd))) fun heq => hbnot (heq ▸ hd)
  cases hmerged with
  | alone hpin =>
    refine ⟨Or.inl ⟨b, hbAll, rfl⟩, fun f hf hftop => ?_, ⟨fun d => ?_, fun d => ⟨fun hd => ?_, fun ⟨hd, hdtop⟩ => ?_⟩⟩,
      SameOff.refl _ _⟩
    · -- a free chunk before the block would have cleared the flag
      have := (ht.foot f hf b hbUsed hftop.symm).1
      omega
    · exact ⟨fun hd => ⟨hd, hfreeBelow d hd⟩, And.left⟩
    · exact ⟨mem_middle.mpr (Or.inr hd), husedBelow d hd⟩
    · exact (mem_middle.mp hd).resolve_left fun heq => hbself (heq ▸ hdtop)
  | @prev _ l' r' d _ hpin hfree hdtop hx hsame =>
    subst hfree hx
    have hdFree : d ∈ l' ++ d :: r' := by simp
    have hdAll : d ∈ (l' ++ d :: r') ++ (l ++ b :: r) := List.mem_append_left _ hdFree
    have hdfit := ha.fits d hdAll
    have hdnot := ha.not_mem_free_rest
    have hdmin := hdfit.min_le
    -- what is below the block and is not the merged chunk is below that chunk
    have hlow : ∀ g ∈ (l' ++ d :: r') ++ (l ++ b :: r), g ≠ d → g.top ≤ b.addr → g.top ≤ d.addr := by
      intro g hg hne hgtop
      have hap := ha.apart_of_ne hg hdAll hne
      have := (ha.fits g hg).min_le
      unfold Apart Chunk.top at *
      omega
    have hdself : ¬d.top ≤ d.addr := by
      unfold Chunk.top
      omega
    refine ⟨Or.inl ⟨d, hdAll, rfl⟩, fun f hf hftop => ht.solo f hf d hdFree hftop.symm,
      ⟨fun g => ⟨fun hg => ?_, fun ⟨hg, hgtop⟩ => ?_⟩, fun g => ⟨fun hg => ?_, fun ⟨hg, hgtop⟩ => ?_⟩⟩, hsame⟩
    · have hgFree : g ∈ l' ++ d :: r' := mem_middle.mpr (Or.inr hg)
      exact ⟨hgFree, hlow g (List.mem_append_left _ hgFree) (fun heq => hdnot (heq ▸ hg)) (hfreeBelow g hgFree)⟩
    · exact (mem_middle.mp hg).resolve_left fun heq => hdself (heq ▸ hgtop)
    · have hgUsed : g ∈ l ++ b :: r := mem_middle.mpr (Or.inr hg)
      exact ⟨hgUsed, hlow g (List.mem_append_right _ hgUsed) (fun heq => ha.not_used hdFree (heq ▸ hgUsed))
        (husedBelow g hg)⟩
    · refine (mem_middle.mp hg).resolve_left fun heq => hbself ?_
      subst heq
      unfold Chunk.top at hgtop hdtop ⊢
      simp only at hgtop
      omega

/-- The last block is released. -/
theorem Tagged.released {l r : List Chunk} {b x : Chunk} {m₁ : Mem} (ht : Tagged h m free (l ++ b :: r))
    (ha : Arranged h m free (l ++ b :: r)) (hmerged : Merged h m free b m₁ rest x)
    (hrel : Released h m₁ rest x h' m' free') (hxtop : x.top = b.top) (ha' : Arranged h' m' free' (l ++ r))
    (htop : b.top = h.endAddr) : Tagged h' m' free' (l ++ r) := by
  obtain ⟨hp, hsolo, hbefore, hsame⟩ := hmerged.boundary ht ha htop
  have hxroom : x.addr + 8 ≤ h.endAddr := by
    have := (ha.fits b (by simp)).placed.le_end
    cases hmerged with
    | alone => omega
    | prev _ _ hdtop hx _ =>
      rw [hx]
      unfold Chunk.top at hdtop
      simp only
      omega
  -- the chunks that stay are below the end
  have hlow : ∀ d ∈ rest ++ (l ++ r), d.addr + 8 ≤ h.endAddr := by
    intro d hd
    obtain ⟨hd, hdtop⟩ := (hbefore.mem_iff d).mp hd
    have := (ha.fits d hd).placed.le_end
    omega
  cases hrel with
  | footed hne => exact absurd (hxtop.trans htop) hne
  | @shrunk m₂ _ l' r' e y _ hroom hy hrest hbelow hsame' =>
    subst hrest
    have hmax := ha'.geo.end_le.trans ha'.geo.max_le
    have halign : e % 4096 = 0 := ha'.geo.end_aligned
    have hfree' : ∀ d, d ∈ l' ++ y :: r' ↔ d = y ∨ d ∈ l' ++ r' := fun d => mem_middle
    have ht' := ht.retop ha hp hsolo hbefore hfree' hy hroom (by omega) hmax
    refine ht'.congr fun d hd => ?_
    have h8 := (ha'.fits d hd).addr_aligned
    have hy8 := (ha'.fits y (by simp)).addr_aligned
    have hd8 : d.addr + 8 ≤ h.endAddr := by
      rcases mem_middle.mp (List.append_assoc _ _ _ ▸ hd) with rfl | hd
      · rw [hy]
        exact hxroom
      · exact hlow d (by rwa [List.append_assoc])
    obtain ⟨h1, h2⟩ := tags_of_sameOff hsame (ha'.off_tags (fun c hc => mem_middle.mpr (Or.inr hc)) hd)
    obtain ⟨h3, h4⟩ := tags_of_sameOff hsame' (ha'.off_tags (fun c hc => mem_middle.mpr (List.mem_cons.mp hc)) hd)
    have h5 := read32_of_below hbelow (show d.addr + 4 ≤ h.endAddr + 4 by omega)
    have h6 := read32_of_below hbelow (show d.addr + 4 + 4 ≤ h.endAddr + 4 by omega)
    refine ⟨?_, pinAt_of_read ?_⟩
    · rw [h3, foot_write_head h8 hy8, foot_write_head h8 hy8, h5, h1]
    · rw [h4]
      exact read32_write32_congr (h6.trans h2) (by omega)
  | gone _ hbelow =>
    have hmin : h.startAddr + heapMinSize ≤ x.addr := ha'.geo.min_le
    unfold heapMinSize at hmin
    refine (ht.cut ha hp hbefore (by omega)).congr fun d hd => ?_
    have hd8 := hlow d hd
    obtain ⟨h1, h2⟩ := tags_of_sameOff hsame (ha'.off_tags (fun c hc => hc) hd)
    have h5 := read32_of_below hbelow (show d.addr + 4 ≤ h.endAddr + 4 by omega)
    have h6 := read32_of_below hbelow (show d.addr + 4 + 4 ≤ h.endAddr + 4 by omega)
    exact ⟨h5.trans h1, pinAt_of_read (h6.trans h2)⟩

/-! ### The bytes inside a chunk -/

/-- The links of the free list are not inside a chunk, but for its own. -/
theorem Arranged.read_inside {cs : List Chunk} {a : ℕ} (ha : Arranged h m free used) (hc : c ∈ free ++ used)
    (hcs : ∀ d ∈ cs, d ∈ free) {m₀ m₁ : Mem} (hs : SameOff (h.head :: nodes cs) m₀ m₁) (h1 : c.addr + 16 ≤ a)
    (h2 : a + 4 ≤ c.top) : read32 m₁ a = read32 m₀ a := by
  apply hs.read32
  intro u hu
  rcases List.mem_cons.mp hu with rfl | hu
  · have := ha.geo.head_le
    have := (ha.fits c hc).start_le
    omega
  · obtain ⟨d, hd, rfl⟩ := List.mem_map.mp hu
    have hdAll := List.mem_append_left used (hcs d hd)
    have := (ha.fits d hdAll).min_le
    unfold Chunk.node
    by_cases hdc : d = c
    · subst hdc
      omega
    · have hap := ha.apart_of_ne hdAll hc hdc
      unfold Apart Chunk.top at hap
      unfold Chunk.top at h2
      omega

theorem Taken.read_inside {a : ℕ} (htaken : Taken h m nb rest hole m' free' c)
    (ha' : Arranged h m' free' (c :: used)) (h1 : c.addr + 16 ≤ a) (h2 : a + 4 ≤ c.top) :
    read32 m' a = read32 m a := by
  have hcAll : c ∈ free' ++ c :: used := by simp
  cases htaken with
  | whole _ hsame =>
    rw [ha'.read_inside hcAll (fun d hd => hd) hsame h1 h2]
    exact markUsed_other (by omega) (by omega)
  | @split l r _ new _ hc hnew hlr hsame =>
    have hcs : ∀ d ∈ new :: rest, d ∈ l ++ new :: r := fun d hd => by
      rw [hlr] at hd
      exact mem_middle.mpr (List.mem_cons.mp hd)
    have hnaddr : new.addr = c.top := by
      rw [hnew, hc]
      rfl
    rw [ha'.read_inside hcAll hcs hsame h1 h2, markUsed_other (by omega) (by omega),
      read32_write32_of_disjoint _ (by omega)]

theorem Served.read_inside {a : ℕ} (hsv : Served h m free used nb h' m' free' hole c)
    (ha : Arranged h m free used) (ha' : Arranged h' m' free' (c :: used)) (h1 : c.addr + 16 ≤ a)
    (h2 : a + 4 ≤ c.top) : read32 m' a = read32 m a := by
  cases hsv with
  | found _ _ _ htaken => exact htaken.read_inside ha' h1 h2
  | grown _ hgrown harr hfree htaken =>
    rw [htaken.read_inside ha' h1 h2]
    obtain ⟨hmem, -, -, -⟩ := hgrown.top_spec ha.geo
    have hin : hole.addr + 16 ≤ a ∧ a + 4 ≤ hole.top := by
      cases htaken with
      | whole => exact ⟨h1, h2⟩
      | split hbig hc =>
        subst hc
        unfold Chunk.top at *
        simp only at *
        omega
    rw [harr.read_inside (List.mem_append_left _ hmem) (fun d hd => hd) hgrown.sameOff hin.1 hin.2]
    exact read32_write32_of_disjoint _ (by omega)

theorem Taken.eq_mk (htaken : Taken h m nb rest hole m' free' c) :
    c = ⟨hole.addr, if hole.size < nb + 16 then hole.size else nb⟩ := by
  cases htaken with
  | whole hsmall => rw [if_pos hsmall]
  | split hbig hc => rw [if_neg (by omega), hc]

theorem Served.eq_mk (hsv : Served h m free used nb h' m' free' hole c) :
    c = ⟨hole.addr, if hole.size < nb + 16 then hole.size else nb⟩ := by
  cases hsv with
  | found _ _ _ htaken => exact htaken.eq_mk
  | grown _ _ _ _ htaken => exact htaken.eq_mk

theorem Led.eq_mk (hled : Led h m free c m' free' n) :
    n = ⟨c.addr + leadSize c.addr, c.size - leadSize c.addr⟩ := by
  cases hled with
  | aligned h0 => rw [h0, Nat.add_zero, Nat.sub_zero]
  | lead hk _ hn => rw [hn, hk]

/-! ### Aligned requests -/

/-- A lead in front of a word with `PINUSE` clear. -/
theorem Tagged.leaded (ht : Tagged h m free (c :: used)) (ha : Arranged h m free (c :: used))
    (hnone : ∀ f ∈ free, f.top ≠ c.addr) (hled : Led h m free c m' free' n)
    (ha' : Arranged h m' free' (n :: used)) (hsize : 4128 ≤ c.size)
    (hpin : leadSize c.addr = 0 ∨ pinAt m (c.addr + leadSize c.addr) = 0) : Tagged h m' free' (n :: used) := by
  cases hled with
  | aligned => exact ht
  | @lead _ l r k _ d hk h16 hn hd hfree hsame =>
    obtain ⟨hk8, hkle, -, -⟩ := leadSize_spec (ha.fits c (by simp)).addr_aligned
    have hv := (Laid.disown (l := []) ha.toLaid).2.halves (show k % 8 = 0 by omega) h16 (by omega) hd hn
    have hpin' : pinAt m n.addr = 0 := by
      rw [hn, hk]
      exact hpin.resolve_left (by omega)
    refine Tagged.of_sameOff (ht.led ha hv hnone hpin' fun f => ?_) ha' hsame fun f hf => ?_
    · rw [hfree]
      exact mem_middle
    · rw [hfree] at hf
      exact mem_middle.mpr (List.mem_cons.mp hf)

/-- A remainder is given back only at the end of the heap. -/
theorem Tagged.trimmed (ht : Tagged h m free (n :: used)) (ha : Arranged h m free (n :: used))
    (htrim : Trimmed h m free n nb h' m' free' q) (ha' : Arranged h' m' free' (q :: used)) (h8 : nb % 8 = 0)
    (h16 : 16 ≤ nb) (hend : nb + 16 < n.size → n.top = h.endAddr) : Tagged h' m' free' (q :: used) := by
  cases htrim with
  | fitting => exact ht
  | @cut _ _ _ _ x hbig hq hx hrel =>
    obtain ⟨harr, hloose⟩ := Laid.disown (l := []) ha.toLaid
    have hv : Halves h free used n q x := hloose.halves h8 h16 (by omega) hq hx
    obtain ⟨ht', hpin⟩ := ht.halved ha hv
    obtain ⟨hlow, hhigh, hap⟩ := hloose.split h8 h16 (by omega)
    rw [← hq, ← hx] at hap
    rw [← hq] at hlow
    rw [← hx] at hhigh
    have ha₂ : Arranged h (markUsed (markUsed m q) x) free ([] ++ x :: q :: used) :=
      ((harr.markUsed_spec hlow).markUsed_spec (hhigh.own hap.symm)).arranged ha.geo
    exact Tagged.released (l := []) ht' ha₂ (.alone hpin) hrel rfl ha' (hv.top.trans (hend hbig))

/-! ### Writes -/

/-- A caller writes into its block, which reaches to the `prevFoot` behind its chunk. -/
theorem Tagged.written (ht : Tagged h m free used) (ha : Arranged h m free used) (hc : c ∈ used)
    (hm : ∀ x, x < c.addr + 8 ∨ c.top + 4 ≤ x → m' x = m x) : Tagged h m' free used := by
  have hcAll := List.mem_append_right free hc
  have haway : ∀ d ∈ free ++ used, d = c ∨ c.top ≤ d.addr ∨ d.addr + 16 ≤ c.addr := by
    intro d hd
    by_cases hdc : d = c
    · exact Or.inl hdc
    · have hap := ha.apart_of_ne hd hcAll hdc
      have := (ha.fits d hd).min_le
      unfold Apart Chunk.top at *
      omega
  have hmin := (ha.fits c hcAll).min_le
  have hread : ∀ a, a + 4 ≤ c.addr + 8 ∨ c.top + 4 ≤ a → read32 m' a = read32 m a := fun a hout =>
    load_congr fun x h1 h2 => hm x (by omega)
  refine ht.of_tags (fun d hd => pinAt_of_read (hread _ ?_)) fun f hf d hd htop => hread _ ?_
  · rcases haway d hd with rfl | h | h
    · omega
    · omega
    · omega
  · have hdAll := List.mem_append_right free hd
    rcases haway d hdAll with rfl | h | h
    · omega
    · -- the chunk before this one is free, so it is not the block's
      have hne : d.addr ≠ c.top := fun heq =>
        ha.not_used hf (ha.top_inj (List.mem_append_left _ hf) hcAll (htop.symm.trans heq) ▸ hc)
      have := (ha.fits d hdAll).addr_aligned
      have := (ha.fits c hcAll).top_aligned
      omega
    · omega

/-- A write outside the heap. -/
theorem Tagged.outside (ht : Tagged h m free used) (ha : Arranged h m free used)
    (hm : ∀ x, h.startAddr ≤ x → x < h.endAddr → m' x = m x) : Tagged h m' free used := by
  refine ht.congr fun d hd => ?_
  have hpl := (ha.fits d hd).placed
  have := hpl.start_le
  have := hpl.le_end
  exact ⟨load_congr fun x _ _ => hm x (by omega) (by omega),
    pinAt_of_read (load_congr fun x _ _ => hm x (by omega) (by omega))⟩

end Calls

/-! ### Runs -/

section TagRuns

variable {σ : Type} {P : Paging σ} {s : State σ} {r : Run σ}

/-- A hole that serves `nb` bytes is taken whole, or it ends the heap. -/
def Snug (nb a k e : ℕ) : Prop := k < nb + 16 ∨ a + k = e

/-- The size of what an aligned request for `nb` bytes is carved from, without its lead. -/
def carved (nb a k : ℕ) : ℕ := (if k < nb + 4112 + 16 then k else nb + 4112) - leadSize a

/-- An aligned request for `nb` bytes is served from `k` bytes at `a` in a heap that ends at `e`:
the hole is snug, the word that becomes the header behind a lead has `PINUSE` clear, and a
remainder is at the end of the heap, with no odd header behind it. -/
structure AlignedSafe (s : State σ) (nb a k e : ℕ) : Prop where
  snug : Snug (nb + 4112) a k e
  lead : leadSize a = 0 ∨ pinAt s.mem (a + leadSize a) = 0
  remainder : nb + 16 < carved nb a k → k < nb + 4112 + 16 ∧ a + k = e ∧ ¬BadEnd s.mem e

/-- The call leaves no stale tag. -/
def TagSafe (s : State σ) : Call → Prop
  | .alloc size => size + 11 < 2 ^ 32 ∧
      ∀ a k e, Serves s (request2size size) a k e → Snug (request2size size) a k e
  | .palignedAlloc size => size + 11 < 2 ^ 32 ∧ request2size size + 4119 < 2 ^ 32 ∧
      ∀ a k e, Serves s (request2size size + 4112) a k e → AlignedSafe s (request2size size) a k e
  | .free b => EndsHeap s b ∧ ¬WildEnd s.heap s.mem
  | _ => True

/-- The heap of a run is arranged around the blocks, with its tags in order. -/
def InOrder (r : Run σ) : Prop :=
  ∃ free used, Tracked r free used ∧ Tagged r.state.heap r.state.mem free used

/-- The backward merge of a block can trust the tags. -/
theorem Tagged.backwardOk {free used : List Chunk} {b : Block} {c : Chunk} (ht : Tagged s.heap s.mem free used)
    (ha : Arranged s.heap s.mem free used) (hc : c ∈ used) (haddr : b.ptr - 8 = c.addr) : BackwardOk s b := by
  rw [BackwardOk, haddr]
  by_cases hnone : ∀ f ∈ free, f.top ≠ c.addr
  · exact Or.inl (ht.pin c (List.mem_append_right _ hc) hnone)
  · push Not at hnone
    obtain ⟨f, hf, htop⟩ := hnone
    obtain ⟨-, hfoot⟩ := ht.foot f hf c hc htop.symm
    right
    rw [hfoot]
    exact ⟨f.addr, (onFreeList_iff ha).mpr ⟨f, hf, rfl⟩, htop, (ha.freeHead f hf).1⟩

theorem InOrder.alloc {t : State σ} {live : List Block} {size p : ℕ} (h : InOrder ⟨s, live⟩)
    (hsafe : TagSafe s (.alloc size)) (hrun : Heap.alloc P size s = .ok p t) :
    InOrder ⟨t, ⟨p, size⟩ :: live⟩ := by
  obtain ⟨free, used, htr, ht⟩ := h
  obtain ⟨hsize, hsnug⟩ := hsafe
  obtain ⟨h8, h16, -, -⟩ := request2size_spec hsize
  obtain ⟨free', hole, c, htr', hsv, -⟩ := htr.alloc_spec hsize hrun
  have hfits := hsnug _ _ _ (hsv.serves htr.arranged)
  exact ⟨free', c :: used, htr', (ht.served htr.arranged hsv htr'.arranged h8 h16 hfits).1⟩

theorem AlignedSafe.remainderOk {size : ℕ} (h : ∀ a k e, Serves s (request2size size + 4112) a k e →
    AlignedSafe s (request2size size) a k e) : RemainderOk s size := by
  intro a k e hserves hk _ hbig
  refine ((h a k e hserves).remainder ?_).2.2
  rw [carved, if_pos hk]
  exact hbig

theorem InOrder.palignedAlloc {t : State σ} {live : List Block} {size p : ℕ} (h : InOrder ⟨s, live⟩)
    (hsafe : TagSafe s (.palignedAlloc size)) (hrun : Heap.palignedAlloc P size s = .ok p t) :
    InOrder ⟨t, ⟨p, size⟩ :: live⟩ := by
  obtain ⟨free, used, htr, ht⟩ := h
  obtain ⟨hsize, hreq, haligned⟩ := hsafe
  obtain ⟨h8, h16, -, -⟩ := request2size_spec hsize
  obtain ⟨h₁, m₁, free₁, hole, c, m₂, free₂, n, free', q, htr', hsv, ha₁, hled, ha₂, htrim, -⟩ :=
    htr.palignedAlloc_spec hsize rfl hreq (AlignedSafe.remainderOk haligned) hrun
  generalize request2size size = nb at *
  have hok := haligned _ _ _ (hsv.serves htr.arranged)
  obtain ⟨haddr, hle, hholetop, -⟩ := hsv.facts htr.arranged
  obtain ⟨hk8, hkle, -, hklow⟩ := leadSize_spec (ha₁.fits c (by simp)).addr_aligned
  obtain ⟨ht₁, hnone⟩ := ht.served htr.arranged hsv ha₁ (by omega) (by omega) hok.snug
  have hlead : leadSize c.addr = 0 ∨ pinAt m₁ (c.addr + leadSize c.addr) = 0 := by
    by_cases hk : leadSize c.addr = 0
    · exact Or.inl hk
    · right
      have hpin := hok.lead
      rw [haddr] at hpin
      rw [pinAt_of_read (hsv.read_inside htr.arranged ha₁ (by omega) (by unfold Chunk.top; omega))]
      exact hpin.resolve_left hk
  have ht₂ := ht₁.leaded ha₁ hnone hled ha₂ (by omega) hlead
  refine ⟨free', q :: used, htr', ht₂.trimmed ha₂ htrim htr'.arranged h8 h16 fun hbig => ?_⟩
  have hc := hsv.eq_mk
  have hn := hled.eq_mk
  have hcarved : n.size = carved nb hole.addr hole.size := by
    rw [hn, hc, carved]
  obtain ⟨hsmall, hend, -⟩ := hok.remainder (hcarved ▸ hbig)
  rw [if_pos hsmall] at hc
  rw [hn]
  unfold Chunk.top
  rw [hc] at hkle hle ⊢
  simp only at hkle hle ⊢
  omega

theorem InOrder.free {t : State σ} {l r : List Block} {b : Block} (h : InOrder ⟨s, l ++ b :: r⟩)
    (hsafe : TagSafe s (.free b)) (hrun : Heap.free P b.ptr s = .ok () t) : InOrder ⟨t, l ++ r⟩ := by
  obtain ⟨free, used, htr, ht⟩ := h
  obtain ⟨hend, hwild⟩ := hsafe
  obtain ⟨l₀, c₀, r₀, rfl, -, -, haddr, hsize⟩ := htr.block_spec
  have hback := ht.backwardOk htr.arranged (List.mem_append_right l₀ List.mem_cons_self) haddr
  obtain ⟨l', c, r', m, rest, x, free', hused, hbc, htr', hxtop, hmerged, hrel, -⟩ :=
    htr.free_spec hback (fun _ => hwild) hrun
  rw [hused] at ht htr
  have haddr' : b.ptr - 8 = c.addr := by
    rw [hbc.1]
    omega
  have htop : c.top = s.heap.endAddr := by
    rw [EndsHeap, haddr', (htr.arranged.usedHead c (by simp)).1] at hend
    exact hend
  exact ⟨free', l' ++ r', htr', ht.released htr.arranged hmerged hrel hxtop htr'.arranged htop⟩

/-- One event keeps the tags in order. -/
theorem inOrder_step {r r' : Run σ} {c : Call} (hsafe : TagSafe r.state c) (hstep : Step P r c r')
    (h : InOrder r) : InOrder r' := by
  cases hstep with
  | alloc _ hrun => exact h.alloc hsafe hrun
  | palignedAlloc _ hrun => exact h.palignedAlloc hsafe hrun
  | free hrun => exact h.free hsafe hrun
  | @write s live b a v hb hle hlt =>
    obtain ⟨free, used, htr, ht⟩ := h
    obtain ⟨l, r, rfl⟩ := List.append_of_mem hb
    obtain ⟨l', c, r', rfl, ⟨hptr, hsize⟩, -, -, -⟩ := htr.block_spec
    refine ⟨free, _, htr.write_spec hb hle hlt v, ht.written htr.arranged (c := c) (by simp) fun x hx => ?_⟩
    exact Function.update_of_ne (by unfold Chunk.top at hx; omega) _ _
  | other hout hhead =>
    obtain ⟨free, used, htr, ht⟩ := h
    refine ⟨free, used, htr.other_spec hout hhead _, ht.outside htr.arranged fun x h1 h2 => ?_⟩
    exact Function.update_of_ne (by simp only at *; omega) _ _

theorem inOrder_created (hs : Created P s) : InOrder ⟨s, []⟩ := by
  obtain ⟨c, htr, hstart, hend, hpin, -⟩ := tracked_created hs
  refine ⟨[c], [], htr, ⟨⟨c, by simp, hstart⟩, fun d hd => ?_, fun f hf g hg => ?_, fun f _ g hg => ?_, fun d hd _ => ?_⟩⟩
  · obtain rfl : d = c := by simpa using hd
    exact Or.inl hend
  · obtain rfl : f = c := by simpa using hf
    obtain rfl : g = f := by simpa using hg
    have := (htr.arranged.fits g (by simp)).min_le
    unfold Chunk.top
    omega
  · simp at hg
  · obtain rfl : d = c := by simpa using hd
    exact hpin

/-- In every run whose calls leave no stale tag, the boundary tags are in order. -/
theorem boundary_tags (hs : Created P s)
    (hr : Reaches (fun a b => ∃ c, TagSafe a.state c ∧ Step P a c b) ⟨s, []⟩ r) : BoundaryTags r.state := by
  have hinv : InOrder r := by
    refine Reaches.invariant InOrder ?_ hr (inOrder_created hs)
    rintro a b h ⟨c, hsafe, hstep⟩
    exact inOrder_step hsafe hstep h
  obtain ⟨free, used, htr, ht⟩ := hinv
  exact ht.boundaryTags htr.arranged

end TagRuns

/-! Two blocks are cut off the last chunk. -/

theorem boundary_tags_alloc_alloc : BoundaryTags afterTwo := by
  have h1 : alloc readyPaging 100 newHeap = .ok 0x1000008 afterOne := ok_of_returned (by decide +kernel)
  have h2 : alloc readyPaging 200 afterOne = .ok 0x1000070 afterTwo := ok_of_returned (by decide +kernel)
  have hfind₁ := ok_of_returned (show returned (findSmallestChunk 104 newHeap) = some 0x1000000 by decide +kernel)
  have hfind₂ := ok_of_returned (show returned (findSmallestChunk 208 afterOne) = some 0x1000068 by decide +kernel)
  have hlast₁ : 0x1000000 + sizeAt newHeap.mem 0x1000000 = newHeap.heap.endAddr := by decide +kernel
  have hlast₂ : 0x1000068 + sizeAt afterOne.mem 0x1000068 = afterOne.heap.endAddr := by decide +kernel
  have hsafe₁ : TagSafe newHeap (.alloc 100) := by
    refine ⟨by decide, fun a k e hserves => Or.inr ?_⟩
    obtain ⟨rfl, rfl, rfl⟩ := serves_unique hfind₁ (by decide) hserves
    exact hlast₁
  have hsafe₂ : TagSafe afterOne (.alloc 200) := by
    refine ⟨by decide, fun a k e hserves => Or.inr ?_⟩
    obtain ⟨rfl, rfl, rfl⟩ := serves_unique hfind₂ (by decide) hserves
    exact hlast₂
  exact boundary_tags (r := ⟨afterTwo, [⟨0x1000070, 200⟩, ⟨0x1000008, 100⟩]⟩) created_newHeap
    (.head ⟨_, hsafe₁, .alloc (by decide) h1⟩ (.single ⟨_, hsafe₂, .alloc (by decide) h2⟩))

/-! A block in the middle is freed: neither it nor the chunk behind it is in use. -/

def afterOneFreed : State Unit := finalState (free readyPaging 0x1000008 afterOne)

theorem freed_block_not_coalesced : ¬∀ r : Run Unit,
    Reaches (fun a b => ∃ c, Step readyPaging a c b) ⟨newHeap, []⟩ r → BoundaryTags r.state := by
  intro h
  have h1 : alloc readyPaging 100 newHeap = .ok 0x1000008 afterOne := ok_of_returned (by decide +kernel)
  have h2 : free readyPaging 0x1000008 afterOne = .ok () afterOneFreed := ok_of_returned (by decide +kernel)
  obtain ⟨cs, hwalk, hagree⟩ := h ⟨afterOneFreed, []⟩ (.head ⟨.alloc 100, .alloc (by decide) h1⟩
    (.single ⟨.free ⟨0x1000008, 100⟩, Step.free (l := []) (r := []) h2⟩))
  have hstart : afterOneFreed.heap.startAddr = 0x1000000 := by decide +kernel
  have hend : afterOneFreed.heap.endAddr = 0x1100000 := by decide +kernel
  have hsize : sizeAt afterOneFreed.mem 0x1000000 = 0x68 := by decide +kernel
  have hfree : usedAt afterOneFreed.mem 0x1000000 = 0 ∧ usedAt afterOneFreed.mem (0x1000000 + 0x68) = 0 := by
    decide +kernel
  simp only [hstart, hend] at hwalk hagree
  cases hwalk with
  | step _ _ =>
    have hbad := hagree 0x1000000 List.mem_cons_self
    rw [hsize] at hbad
    exact (hbad (by decide)).coalesced hfree

end JustKernel.Heap
