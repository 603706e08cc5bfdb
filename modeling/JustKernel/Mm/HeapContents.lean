import JustKernel.Mm.HeapDisjoint

/-! What callers put into their blocks stays there. The words that the heap writes are
headers, links of free chunks and the `prevFoot` behind a chunk that is being freed;
none of them lies in a block in use, not even in its last word, which is the `prevFoot`
of the chunk behind it. So a block keeps its bytes through every call on other blocks
until its owner writes to it or frees it. -/

namespace JustKernel.Heap

open Memory Halting Links Runs

/-- The bytes behind the header of `e`, up to the header of the next chunk, are the same. -/
def Spared (e : Chunk) (m m' : Mem) : Prop := ∀ x, e.addr + 8 ≤ x → x < e.top + 4 → m' x = m x

section Spared

variable {h h' : HeapT} {m m₁ m₂ m' : Mem} {free free' rest used : List Chunk} {b c e hole n q x : Chunk} {nb : ℕ}

theorem Spared.refl (e : Chunk) (m : Mem) : Spared e m m := fun _ _ _ => rfl

theorem Spared.trans (h₁ : Spared e m m₁) (h₂ : Spared e m₁ m₂) : Spared e m m₂ :=
  fun x hlo hhi => (h₂ x hlo hhi).trans (h₁ x hlo hhi)

/-- Links of other chunks. -/
theorem Spared.of_links (hg : Geometry h) (he : Fits h e) {cs : List Chunk}
    (hcs : ∀ d ∈ cs, Fits h d ∧ Apart e d) (hs : SameOff (h.head :: nodes cs) m m') : Spared e m m' := by
  intro x hlo hhi
  apply hs
  intro u hu
  rcases List.mem_cons.mp hu with rfl | hu
  · have := hg.head_le
    have := he.start_le
    omega
  · obtain ⟨d, hd, rfl⟩ := List.mem_map.mp hu
    obtain ⟨hd, hap⟩ := hcs d hd
    have := hd.min_le
    unfold Apart Chunk.top at hap
    unfold Chunk.top at hhi
    unfold Chunk.node
    omega

theorem Spared.write32 {a : ℕ} (ha : a + 4 ≤ e.addr + 8 ∨ e.top + 4 ≤ a) (m : Mem) (v : ℕ) :
    Spared e m (write32 m a v) :=
  fun _ _ _ => store_apply_of_not_mem _ _ _ _ _ (by omega)

/-- The header of another chunk. -/
theorem Spared.write_head (hap : Apart e c) (hc : 16 ≤ c.size) (m : Mem) (v : ℕ) :
    Spared e m (Memory.write32 m (c.addr + 4) v) := by
  apply Spared.write32
  unfold Apart Chunk.top at hap
  unfold Chunk.top
  omega

theorem Spared.markUsed (hap : Apart e c) (hc : 16 ≤ c.size) (m : Mem) : Spared e m (markUsed m c) := by
  refine (Spared.write_head hap hc m _).trans (Spared.write32 ?_ _ _)
  unfold Apart Chunk.top at hap
  unfold Chunk.top
  omega

/-- A chunk in use among the others of an arranged heap. -/
theorem Arranged.around (ha : Arranged h m free used) (he : e ∈ used) :
    Fits h e ∧ ∀ d ∈ free, Fits h d ∧ Apart e d := by
  refine ⟨ha.fits e (List.mem_append_right _ he), fun d hd => ⟨ha.fits d (List.mem_append_left _ hd), ?_⟩⟩
  exact ((List.pairwise_append.mp ha.apart).2.2 d hd e he).symm

theorem Arranged.around_cons (ha : Arranged h m free (c :: used)) (he : e ∈ used) :
    (Fits h c ∧ Apart e c) ∧ Fits h e ∧ ∀ d ∈ free, Fits h d ∧ Apart e d := by
  refine ⟨⟨ha.fits c (by simp), ?_⟩, ha.around (List.mem_cons_of_mem _ he)⟩
  have hpw := (List.pairwise_append.mp ha.apart).2.1
  exact ((List.pairwise_cons.mp hpw).1 e he).symm

theorem Taken.spared (ht : Taken h m nb rest hole m' free' c) (ha : Arranged h m' free' (c :: used))
    (he : e ∈ used) : Spared e m m' := by
  obtain ⟨⟨hc, hap⟩, hfit, hfree⟩ := ha.around_cons he
  cases ht with
  | whole _ hsame => exact (Spared.markUsed hap hc.min_le m).trans (.of_links ha.geo hfit hfree hsame)
  | @split l r _ new _ _ _ hrest hsame =>
    subst hrest
    have hmem : ∀ d ∈ new :: (l ++ r), d ∈ l ++ new :: r := fun d hd => mem_middle.mpr (List.mem_cons.mp hd)
    obtain ⟨hnew, hapn⟩ := hfree new (hmem new (by simp))
    exact ((Spared.write_head hapn hnew.min_le m _).trans (.markUsed hap hc.min_le _)).trans
      (.of_links ha.geo hfit (fun d hd => hfree d (hmem d hd)) hsame)

theorem Grown.spared {k : ℕ} (hgr : Grown h m free k m' free' x) (ha : Arranged (h.withEnd k) m' free' used)
    (he : e ∈ used) : Spared e m m' := by
  obtain ⟨hfit, hfree⟩ := ha.around he
  cases hgr with
  | extend _ _ _ hlr hsame =>
    have hmem := fun d (hd : d ∈ x :: _) => hfree d (mem_middle.mpr (List.mem_cons.mp hd))
    obtain ⟨hx, hapx⟩ := hmem x (by simp)
    rw [hlr] at hsame
    exact (Spared.write_head hapx hx.min_le m _).trans (.of_links ha.geo hfit hmem hsame)
  | fresh _ _ hlr hsame =>
    have hmem := fun d (hd : d ∈ x :: _) => hfree d (mem_middle.mpr (List.mem_cons.mp hd))
    obtain ⟨hx, hapx⟩ := hmem x (by simp)
    rw [hlr] at hsame
    exact (Spared.write_head hapx hx.min_le m _).trans (.of_links ha.geo hfit hmem hsame)

theorem Served.spared (hsv : Served h m free used nb h' m' free' hole c)
    (ha : Arranged h' m' free' (c :: used)) (he : e ∈ used) : Spared e m m' := by
  cases hsv with
  | found _ _ _ htaken => exact htaken.spared ha he
  | grown _ hgrown harr _ htaken => exact (hgrown.spared harr he).trans (htaken.spared ha he)

theorem Merged.spared (hm : Merged h m free b m' rest x) (ha : Arranged h m free used) (he : e ∈ used) :
    Spared e m m' := by
  obtain ⟨hfit, hfree⟩ := ha.around he
  cases hm with
  | alone _ => exact .refl e m
  | prev _ hsplit _ _ hsame =>
    subst hsplit
    exact .of_links ha.geo hfit (fun d hd => hfree d (mem_middle.mpr (Or.inr hd))) hsame

/-- The `prevFoot` behind the merged block is the last word of that block's memory. -/
theorem Released.spared (hr : Released h m rest x h' m' free') (hfit : Fits h e) (hx : 16 ≤ x.size)
    (hap : Apart e x) (ha : Arranged h' m' free' used) (he : e ∈ used) : Spared e m m' := by
  obtain ⟨hfit', hfree⟩ := ha.around he
  cases hr with
  | footed _ hlr hsame =>
    have hmem := fun d (hd : d ∈ x :: _) => hfree d (mem_middle.mpr (List.mem_cons.mp hd))
    rw [hlr] at hsame
    have hfoot : Spared e m (Memory.write32 m x.top x.size) := by
      apply Spared.write32
      unfold Apart Chunk.top at hap
      unfold Chunk.top
      omega
    exact (hfoot.trans (.write_head hap hx _ _)).trans (.of_links ha.geo hfit' hmem hsame)
  | @shrunk m₁ _ l r k y _ _ hy hlr hbelow hsame =>
    have hmem := fun d (hd : d ∈ y :: (l ++ r)) => hfree d (mem_middle.mpr (List.mem_cons.mp hd))
    obtain ⟨hyfit, hapy⟩ := hmem y (by simp)
    rw [hlr] at hsame
    have hsame₁ : Spared e m m₁ := fun a _ hhi => hbelow a (by have := hfit.top_le; omega)
    exact (hsame₁.trans (.write_head hapy hyfit.min_le _ _)).trans (.of_links ha.geo hfit' hmem hsame)
  | gone _ hbelow => exact fun a _ hhi => hbelow a (by have := hfit.top_le; omega)

theorem Led.spared (hl : Led h m free c m' free' n) (ha : Arranged h m' free' (n :: used)) (he : e ∈ used) :
    Spared e m m' := by
  obtain ⟨⟨hn, hapn⟩, hfit, hfree⟩ := ha.around_cons he
  cases hl with
  | aligned _ => exact .refl e m
  | @lead _ l r k _ d _ _ hneq hdeq hlr hsame =>
    have hmem := fun c (hc : c ∈ d :: (l ++ r)) => hfree c (mem_middle.mpr (List.mem_cons.mp hc))
    obtain ⟨hd, hapd⟩ := hmem d (by simp)
    rw [hlr] at hsame
    have hfoot : ∀ m, Spared e m (Memory.write32 m n.addr d.size) := by
      intro m
      apply Spared.write32
      have hna : n.addr = d.top := by rw [hneq, hdeq]; rfl
      have := hn.min_le
      have := hd.min_le
      unfold Apart Chunk.top at hapn hapd
      unfold Chunk.top at hna ⊢
      omega
    exact (((Spared.markUsed hapn hn.min_le m).trans (.write_head hapd hd.min_le _ _)).trans (hfoot _)).trans
      (.of_links ha.geo hfit hmem hsame)

theorem Trimmed.spared (ht : Trimmed h m free n nb h' m' free' q) (ha : Arranged h m free (n :: used))
    (hnb : 16 ≤ nb) (ha' : Arranged h' m' free' (q :: used)) (he : e ∈ used) : Spared e m m' := by
  obtain ⟨⟨-, hapn⟩, hfit, -⟩ := ha.around_cons he
  obtain ⟨⟨hq, hapq⟩, -, -⟩ := ha'.around_cons he
  cases ht with
  | fitting _ => exact .refl e m
  | @cut _ _ _ _ x hbig hqeq hxeq hrel =>
    have hx : 16 ≤ x.size := by rw [hxeq]; simp only; omega
    have hapx : Apart e x := by
      have hxaddr : x.addr = n.addr + nb := by rw [hxeq]
      have hxsize : x.size = n.size - nb := by rw [hxeq]
      unfold Apart Chunk.top at hapn ⊢
      omega
    exact ((Spared.markUsed hapq hq.min_le m).trans (.markUsed hapx hx _)).trans
      (hrel.spared hfit hx hapx ha' (List.mem_cons_of_mem _ he))

end Spared

section Contents

variable {σ : Type} {P : Paging σ} {s t : State σ} {r r' : Run σ} {live : List Block} {b : Block}

/-- The call is none of the owner of `b`, and nobody else writes to the bytes of `b`. -/
def SparesBlock (b : Block) : Call → Prop
  | .free b' => b'.ptr ≠ b.ptr
  | .write a _ => a < b.ptr ∨ b.ptr + b.size ≤ a
  | .other a _ => a < b.ptr ∨ b.ptr + b.size ≤ a
  | _ => True

/-- The bytes of the block are the same. -/
def SameContents (b : Block) (m m' : Mem) : Prop := ∀ x, b.ptr ≤ x → x < b.ptr + b.size → m' x = m x

/-- What the chunk behind a block keeps, the block keeps. -/
theorem Holds.sameContents {e : Chunk} {m m' : Mem} (hb : Holds b e) (hs : Spared e m m') :
    SameContents b m m' := by
  obtain ⟨hptr, hsize⟩ := hb
  intro x hlo hhi
  exact hs x (by omega) (by unfold Chunk.top; omega)

theorem Tracked.chunk_of_block {free used : List Chunk} (ht : Tracked r free used) (hb : b ∈ r.live) :
    ∃ e ∈ used, Holds b e := by
  obtain ⟨l, q, hlive⟩ := List.append_of_mem hb
  have holds := ht.holds
  rw [hlive] at holds
  obtain ⟨l', e, r', rfl, hbe, -⟩ := forall₂_middle holds
  exact ⟨e, by simp, hbe⟩

/-- One event that is none of its owner leaves a block and its bytes. -/
theorem contents_step {c : Call} (hpadded : PaddedCall c) (htrust : TrustedCall r.state c)
    (hspares : SparesBlock b c) (hstep : Step P r c r') (ht : ∃ free used, Tracked r free used)
    (hb : b ∈ r.live) : b ∈ r'.live ∧ SameContents b r.state.mem r'.state.mem := by
  obtain ⟨free, used, ht⟩ := ht
  obtain ⟨e, he, hbe⟩ := ht.chunk_of_block hb
  cases hstep with
  | alloc _ hrun =>
    obtain ⟨free', hole, c, ht', hserved, -⟩ := ht.alloc_spec hpadded hrun
    exact ⟨List.mem_cons_of_mem _ hb, hbe.sameContents (hserved.spared ht'.arranged he)⟩
  | @palignedAlloc _ _ _ size _ _ hrun =>
    obtain ⟨h₁, m₁, free₁, hole, c, m₂, free₂, n, free', q, ht', hserved, ha₁, hled, ha₂, htrim, -⟩ :=
      ht.palignedAlloc_spec hpadded.1 rfl hpadded.2 htrust hrun
    have hnb : 16 ≤ request2size size := (request2size_spec hpadded.1).2.1
    exact ⟨List.mem_cons_of_mem _ hb, hbe.sameContents (((hserved.spared ha₁ he).trans (hled.spared ha₂ he)).trans
      (htrim.spared ha₂ hnb ht'.arranged he))⟩
  | @free s t l q b' hrun =>
    have hne : b ≠ b' := by
      rintro rfl
      exact hspares rfl
    have hb' : b ∈ l ++ q := (mem_middle.mp hb).resolve_left hne
    obtain ⟨l', c, r', m, rest, x, free', rfl, -, ht', htop, hmerged, hrel, -⟩ :=
      ht.free_spec htrust.1 htrust.2 hrun
    obtain ⟨e', he', hbe'⟩ := ht'.chunk_of_block hb'
    have hmem : e' ∈ l' ++ c :: r' := mem_middle.mpr (Or.inr he')
    have hfit := ht.arranged.fits e' (List.mem_append_right _ hmem)
    have hapc : Apart e' c := (ht.arranged.used_apart.1 e' (List.mem_append_right _ he')).symm
    refine ⟨hb', hbe'.sameContents ((hmerged.spared ht.arranged hmem).trans ?_)⟩
    have hxc := ht.arranged.fits c (by simp)
    -- the merged block reaches back over a free chunk at most
    obtain ⟨hx, hapx⟩ : 16 ≤ x.size ∧ Apart e' x := by
      cases hmerged with
      | alone _ => exact ⟨hxc.min_le, hapc⟩
      | @prev _ l₁ r₁ d _ _ hsplit hdtop hx _ =>
        have hd := (ht.arranged.around hmem).2 d (by rw [hsplit]; simp)
        have := hd.1.min_le
        have := hfit.min_le
        have := hxc.min_le
        have hapd := hd.2
        rw [hx]
        unfold Apart Chunk.top at *
        simp only
        omega
    exact hrel.spared hfit hx hapx ht'.arranged he'
  | write _ _ _ => exact ⟨hb, fun x hlo hhi => Function.update_of_ne (by rcases hspares with h | h <;> omega) _ _⟩
  | other _ _ => exact ⟨hb, fun x hlo hhi => Function.update_of_ne (by rcases hspares with h | h <;> omega) _ _⟩

/-- In every run whose calls can trust the tags they read, a block that its owner leaves alone
stays allocated with the bytes it had. -/
theorem contents_kept (hs : Created P s)
    (hr : Reaches (fun a a' => ∃ c, ModestCall c ∧ TrustedCall a.state c ∧ Step P a c a') ⟨s, []⟩ r)
    (hb : b ∈ r.live)
    (hr' : Reaches (fun a a' => ∃ c, ModestCall c ∧ TrustedCall a.state c ∧ SparesBlock b c ∧ Step P a c a') r r') :
    b ∈ r'.live ∧ SameContents b r.state.mem r'.state.mem := by
  have hinv : ∃ free used, Tracked r free used := by
    refine Reaches.invariant (fun r => ∃ free used, Tracked r free used) ?_ hr ?_
    · rintro a a' h ⟨c, hmodest, htrust, hstep⟩
      exact tracked_step hmodest.padded htrust hstep h
    · obtain ⟨c, ht, -⟩ := tracked_created hs
      exact ⟨[c], [], ht⟩
  refine (Reaches.invariant (fun a => (∃ free used, Tracked a free used) ∧ b ∈ a.live ∧
    SameContents b r.state.mem a.state.mem) ?_ hr' ⟨hinv, hb, fun _ _ _ => rfl⟩).2
  rintro a a' ⟨ht, hlive, hsame⟩ ⟨c, hmodest, htrust, hspares, hstep⟩
  obtain ⟨hlive', hsame'⟩ := contents_step hmodest.padded htrust hspares hstep ht hlive
  exact ⟨tracked_step hmodest.padded htrust hstep ht, hlive',
    fun x hlo hhi => (hsame' x hlo hhi).trans (hsame x hlo hhi)⟩

end Contents

/-- The second of two blocks, through the `free` of the first. -/
theorem contents_kept_free : ⟨0x1000070, 200⟩ ∈ [(⟨0x1000070, 200⟩ : Block)] ∧
    SameContents ⟨0x1000070, 200⟩ afterTwo.mem afterFree.mem := by
  obtain ⟨hpin, hend⟩ := afterTwo_told
  have hfree : Step readyPaging ⟨afterTwo, [⟨0x1000070, 200⟩, ⟨0x1000008, 100⟩]⟩ (.free ⟨0x1000008, 100⟩)
      ⟨afterFree, [⟨0x1000070, 200⟩]⟩ := Step.free (l := [_]) (r := []) afterFree_run
  exact contents_kept created_newHeap
    (.head ⟨.alloc 100, (by decide : 100 < 2 ^ 31), trivial, .alloc (by decide) afterOne_run⟩
      (.single ⟨.alloc 200, (by decide : 200 < 2 ^ 31), trivial, .alloc (by decide) afterTwo_run⟩))
    List.mem_cons_self (.single ⟨.free ⟨0x1000008, 100⟩, trivial, ⟨Or.inl hpin, fun h => absurd h hend⟩,
      (by decide : (0x1000008 : ℕ) ≠ 0x1000070), hfree⟩)

end JustKernel.Heap
