import JustKernel.Mm.HeapCoherence

/-! The frames of a heap. An expansion takes a block of frames from `pmm_alloc` and maps it
behind the old end, so the frames that the heap has been given are those it maps. A
contraction unmaps its pages first and asks `virt_to_phys` for their frame afterwards, when
there is none any more; `pmm_unalloc` is never called, and the frames stay taken. A heap
keeps its account exactly as long as it is never contracted by a page. -/

namespace JustKernel.Mm

open Heap (HeapT grownEnd contractedEnd Expands Contracts)
open Vmm (Frame Index Entry Layout pmmFrames blockFrames mem_blockFrames pageOf pageAddr entryAt tableOf Spaces
  Apart SameIndex KernelDirectory smallLayout)
open Pmm (FreeFrom)
open Runs Halting

/-- The frame that the directory `d` maps at a page. -/
def frameAt (k : Kernel) (d v : Frame) : Option Frame := (entryAt k.vmm d v).map Vmm.address

/-- The frames handed to the heap and not taken back are those mapped in its directory from its
start to its end. -/
def Conserved (h : HeapT) (k : Kernel) : Prop :=
  ∀ f, f ∈ k.held ↔ ∃ v, PageIn h.startAddr h.endAddr v ∧ frameAt k (pageNo h.cr3) v = some f

/-- The call contracts the heap by no page. -/
def KeepsPages (L : Layout) (s : Heap.State Kernel) (c : Heap.Call) : Prop :=
  ∀ u n, Contracts (kernelPaging L) s c u n → contractedEnd u.heap n = u.heap.endAddr

/-! ### Growth -/

/-- The block of frames from `p` on has been mapped between `lo` and `hi`. -/
structure Grown (d : Frame) (lo hi : ℕ) (p : Frame) (k k' : Kernel) : Prop where
  held : k'.held = blockFrames p ((hi - lo) / 4096) ++ k.held
  fresh : ∀ f ∈ blockFrames p ((hi - lo) / 4096), ¬pmmFrames.taken k.vmm.pmm f
  taken : ∀ f ∈ blockFrames p ((hi - lo) / 4096), pmmFrames.taken k'.vmm.pmm f
  keeps : ∀ f, pmmFrames.taken k.vmm.pmm f → pmmFrames.taken k'.vmm.pmm f
  new : ∀ v, PageIn lo hi v → frameAt k' d v = some (p + (v - pageNo lo))
  old : ∀ v, ¬PageIn lo hi v → frameAt k' d v = frameAt k d v

/-- The frames handed out are those mapped between `a` and `b`, each once. -/
structure FramesOf (d : Frame) (a b : ℕ) (k : Kernel) : Prop where
  held : ∀ f, f ∈ k.held ↔ ∃ v, PageIn a b v ∧ frameAt k d v = some f
  taken : ∀ f ∈ k.held, pmmFrames.taken k.vmm.pmm f
  inj : ∀ v w f, PageIn a b v → PageIn a b w → frameAt k d v = some f → frameAt k d w = some f → v = w

section Frames

variable {d p : Frame} {a lo hi : ℕ} {k k' : Kernel}

/-- The frames of a block that is mapped between two addresses. -/
theorem mem_block_iff (hlo : lo % 4096 = 0) (hhi : hi % 4096 = 0) (hle : lo ≤ hi) (hlim : hi ≤ 2147483648)
    (f : Frame) :
    f ∈ blockFrames p ((hi - lo) / 4096) ↔ ∃ v, PageIn lo hi v ∧ p + (v - pageNo lo) = f := by
  have hpage := toNat_pageNo (show lo < 4294967296 by omega)
  rw [mem_blockFrames]
  constructor
  · rintro ⟨n, hn, rfl⟩
    refine ⟨pageNo lo + BitVec.ofNat 20 n, ?_, ?_⟩
    · unfold PageIn
      rw [BitVec.toNat_add, BitVec.toNat_ofNat, hpage]
      omega
    · rw [BitVec.add_comm (pageNo lo), BitVec.add_sub_cancel]
  · rintro ⟨v, hv, rfl⟩
    refine ⟨(v - pageNo lo).toNat, ?_, ?_⟩
    · rw [BitVec.toNat_sub, hpage]
      unfold PageIn at hv
      have := v.isLt
      omega
    · rw [BitVec.ofNat_toNat, BitVec.setWidth_eq]

theorem Grown.frame_mem (h : Grown d lo hi p k k') (hlo : lo % 4096 = 0) (hhi : hi % 4096 = 0) (hle : lo ≤ hi)
    (hlim : hi ≤ 2147483648) {v f : Frame} (hv : PageIn lo hi v) (hf : frameAt k' d v = some f) :
    f ∈ blockFrames p ((hi - lo) / 4096) := by
  rw [h.new v hv] at hf
  exact (mem_block_iff hlo hhi hle hlim f).mpr ⟨v, hv, Option.some.inj hf⟩

theorem FramesOf.grown (h : FramesOf d a lo k) (hg : Grown d lo hi p k k') (hlo : lo % 4096 = 0)
    (hhi : hi % 4096 = 0) (ha : a ≤ lo) (hle : lo ≤ hi) (hlim : hi ≤ 2147483648) : FramesOf d a hi k' := by
  -- a page is one of the new ones or one from before
  have hcases : ∀ v, PageIn a hi v → PageIn lo hi v ∨ (PageIn a lo v ∧ ¬PageIn lo hi v) := by
    intro v hv
    unfold PageIn at *
    omega
  have hnew : ∀ v, PageIn lo hi v → PageIn a hi v := fun v hv => ⟨ha.trans hv.1, hv.2⟩
  have hold : ∀ v, PageIn a lo v → PageIn a hi v ∧ ¬PageIn lo hi v := by
    intro v hv
    unfold PageIn at *
    omega
  refine ⟨fun f => ?_, fun f hf => ?_, fun v w f hv hw hfv hfw => ?_⟩
  · rw [hg.held, List.mem_append, mem_block_iff hlo hhi hle hlim, h.held]
    constructor
    · rintro (⟨v, hv, rfl⟩ | ⟨v, hv, hf⟩)
      · exact ⟨v, hnew v hv, hg.new v hv⟩
      · exact ⟨v, (hold v hv).1, (hg.old v (hold v hv).2).trans hf⟩
    · rintro ⟨v, hv, hf⟩
      rcases hcases v hv with hin | ⟨hin, hout⟩
      · rw [hg.new v hin] at hf
        exact Or.inl ⟨v, hin, Option.some.inj hf⟩
      · exact Or.inr ⟨v, hin, (hg.old v hout).symm.trans hf⟩
  · rw [hg.held, List.mem_append] at hf
    exact hf.elim (hg.taken f) fun hf => hg.keeps f (h.taken f hf)
  · -- a frame from before is taken, one of the block was not
    have hmixed : ∀ v w, PageIn lo hi v → PageIn a lo w ∧ ¬PageIn lo hi w → frameAt k' d v = some f →
        frameAt k' d w = some f → False := by
      intro v w hv hw hfv hfw
      rw [hg.old w hw.2] at hfw
      exact hg.fresh f (hg.frame_mem hlo hhi hle hlim hv hfv) (h.taken f ((h.held f).mpr ⟨w, hw.1, hfw⟩))
    rcases hcases v hv with hv' | hv' <;> rcases hcases w hw with hw' | hw'
    · rw [hg.new v hv'] at hfv
      rw [hg.new w hw'] at hfw
      have hsum := Option.some.inj (hfv.trans hfw.symm)
      bv_omega
    · exact (hmixed v w hv' hw' hfv hfw).elim
    · exact (hmixed w v hw' hv' hfw hfv).elim
    · rw [hg.old v hv'.2] at hfv
      rw [hg.old w hw'.2] at hfw
      exact h.inj v w f hv'.1 hw'.1 hfv hfw

theorem address_newEntry {perms : BitVec 16} (hperms : perms.toNat < 0x1000) (q v : Frame) :
    Vmm.address (Vmm.newEntry q p perms v) = p + (v - q) := Vmm.address_perms _ hperms

/-- A block from `pmm_alloc` that has been mapped. -/
theorem grown_of_alloc {phys : ℕ} {k₁ : Kernel} {perms : BitVec 16} (hlo : lo % 4096 = 0) (hhi : hi % 4096 = 0)
    (hlim : hi ≤ 2147483648) (halloc : pmmAlloc (hi - lo) k = some (phys, k₁)) (hheld : k'.held = k₁.held)
    (hkeep : ∀ g, pmmFrames.taken k₁.vmm.pmm g → pmmFrames.taken k'.vmm.pmm g)
    (hperms : perms.toNat < 0x1000)
    (hentry : ∀ v, entryAt k'.vmm d v = if PageIn lo hi v then
      some (Vmm.newEntry (pageNo lo) (pageNo phys) perms v) else entryAt k.vmm d v) :
    Grown d lo hi (pageNo phys) k k' := by
  obtain ⟨pmm, hrun, rfl⟩ := pmmAlloc_returned halloc
  obtain ⟨halign, hused, hfree, hfit, -⟩ := Pmm.pmmAlloc_spec k.vmm.pmm.2 hrun
  have hcount := pageCount_aligned (show (hi - lo) % 4096 = 0 by omega) (by omega)
  rw [hcount] at hheld
  rw [hcount, Pmm.bitmapMaxPage_eq] at hfit
  unfold Pmm.pageSize at hfit halign
  -- the frames of the block are its pages
  have hpages : ∀ f ∈ blockFrames (pageNo phys) ((hi - lo) / 4096),
      f.toNat ∈ (Pmm.Block.mk phys (hi - lo)).pages := by
    intro f hf
    obtain ⟨n, hn, rfl⟩ := mem_blockFrames.mp hf
    rw [Pmm.Block.pages, Set.mem_Ico, hcount, BitVec.toNat_add, BitVec.toNat_ofNat, toNat_pageNo (by omega)]
    unfold Pmm.pageSize
    dsimp only
    omega
  refine ⟨hheld, fun f hf => hfree _ (hpages f hf), fun f hf => hkeep f ((hused _).mpr (Or.inl (hpages f hf))),
    fun f hf => hkeep f ((hused _).mpr (Or.inr hf)), fun v hv => ?_, fun v hv => ?_⟩
  · rw [frameAt, hentry v, if_pos hv, Option.map_some, address_newEntry hperms]
  · rw [frameAt, hentry v, if_neg hv, frameAt]

end Frames

/-! ### The account of a heap -/

/-- The heap of the directory `d`, which is active. -/
structure Active (L : Layout) (base d : Frame) (forks : List (Frame × (Index → Entry))) (h : HeapT) (k : Kernel) :
    Prop where
  backed : Backed L base d forks h k
  active : k.cr3 = d
  perms : h.perms.toNat < 0x1000

/-- The frame `f` has been handed to the heap, which maps it at `v` if anywhere. -/
structure Kept (d f v : Frame) (a b : ℕ) (k : Kernel) : Prop where
  held : f ∈ k.held
  taken : pmmFrames.taken k.vmm.pmm f
  only : ∀ w, PageIn a b w → frameAt k d w = some f → w = v

section Account

variable {L : Layout} {base d : Frame} {forks : List (Frame × (Index → Entry))} {s t : Heap.State Kernel}
  {r r' : Heap.Run Kernel} {c : Heap.Call}

theorem perms_or_present {perms : BitVec 16} (h : perms.toNat < 0x1000) :
    (perms ||| Heap.vmmPresent).toNat < 0x1000 := by
  rw [BitVec.toNat_or]
  exact Nat.or_lt_two_pow (n := 12) h (by decide)

theorem Active.expand_spec {nb : ℕ} (ha : Active L base d forks s.heap s.pages) (hnb : nb < 4294967296)
    (hrun : Heap.expand (kernelPaging L)
      (Heap.add32 (Heap.sub32 s.heap.endAddr s.heap.startAddr) nb) s = .ok () t) :
    Active L base d forks t.heap t.pages ∧ ∃ e p, t.heap = s.heap.withEnd e ∧
      s.heap.endAddr ≤ e ∧ e % 4096 = 0 ∧ e ≤ 2147483648 ∧ Grown d s.heap.endAddr e p s.pages t.pages := by
  obtain ⟨hback, hheap, hcr3, phys, k, halloc, hheld, hop, hentry⟩ :=
    ha.backed.expand_spec hnb (Or.inl ha.active) hrun
  have hmax := hback.geo.end_le.trans hback.geo.max_le
  have halign := hback.geo.end_aligned
  have hle := (Nat.le_add_right _ _).trans (Heap.grownEnd_spec ha.backed.geo nb).2
  have hperms : t.heap.perms.toNat < 0x1000 := by
    rw [hheap]
    exact ha.perms
  rw [hheap] at hmax halign
  exact ⟨⟨hback, hcr3.trans ha.active, hperms⟩, _, _, hheap, hle, halign, hmax,
    grown_of_alloc ha.backed.geo.end_aligned halign hmax halloc hheld hop.within.taken
      (perms_or_present ha.perms) hentry⟩

/-- A contraction unmaps pages and takes nothing back. -/
theorem Active.contract_spec {n m : ℕ} (ha : Active L base d forks s.heap s.pages)
    (hrun : Heap.contract (kernelPaging L) n s = .ok m t) :
    Active L base d forks t.heap t.pages ∧ t.heap = s.heap.withEnd (contractedEnd s.heap n) ∧
      contractedEnd s.heap n ≤ s.heap.endAddr ∧ t.pages.held = s.pages.held ∧
      (∀ f, pmmFrames.taken s.pages.vmm.pmm f → pmmFrames.taken t.pages.vmm.pmm f) ∧
      ∀ v, ¬PageIn (contractedEnd s.heap n) s.heap.endAddr v → frameAt t.pages d v = frameAt s.pages d v := by
  obtain ⟨hback, hheap, hle, hcr3, hheld, htaken, -, hentry⟩ := ha.backed.contract_spec hrun
  have hperms : t.heap.perms.toNat < 0x1000 := by
    rw [hheap]
    exact ha.perms
  refine ⟨⟨hback, hcr3.trans ha.active, hperms⟩, hheap, hle, hheld, htaken, fun v hv => ?_⟩
  rw [frameAt, hentry v, if_neg hv, frameAt]

theorem Active.step (ha : Active L base d forks r.state.heap r.state.pages)
    (hstep : Heap.Step (kernelPaging L) r c r') :
    Active L base d forks r'.state.heap r'.state.pages ∧
      r'.state.heap.startAddr = r.state.heap.startAddr := by
  refine hstep.keeps (I := fun h k => Active L base d forks h k ∧ h.startAddr = r.state.heap.startAddr) ⟨ha, rfl⟩
    (fun u nb v hexp hu hrun => ?_) fun u n m v _ hu hrun => ?_
  · obtain ⟨hactive, e, p, hheap, -⟩ := hu.1.expand_spec hexp.lt hrun
    exact ⟨hactive, by rw [hheap]; exact hu.2⟩
  · obtain ⟨hactive, hheap, -⟩ := hu.1.contract_spec hrun
    exact ⟨hactive, by rw [hheap]; exact hu.2⟩

/-- The heap of the active directory, with its frames. -/
structure Owned (L : Layout) (base d : Frame) (forks : List (Frame × (Index → Entry))) (h : HeapT)
    (k : Kernel) : Prop extends Active L base d forks h k where
  frames : FramesOf d h.startAddr h.endAddr k

theorem Owned.conserved {h : HeapT} {k : Kernel} (ho : Owned L base d forks h k) : Conserved h k := by
  have hd : pageNo h.cr3 = d := by rw [ho.backed.own, pageNo_pageAddr]
  intro f
  rw [hd]
  exact ho.frames.held f

theorem Owned.expanded {nb : ℕ} (ho : Owned L base d forks s.heap s.pages) (hnb : nb < 4294967296)
    (hrun : Heap.expand (kernelPaging L)
      (Heap.add32 (Heap.sub32 s.heap.endAddr s.heap.startAddr) nb) s = .ok () t) :
    Owned L base d forks t.heap t.pages := by
  obtain ⟨hactive, e, p, hheap, hle, halign, hmax, hgrown⟩ := ho.toActive.expand_spec hnb hrun
  have hstart := (Nat.le_add_right _ _).trans ho.backed.geo.min_le
  refine ⟨hactive, ?_⟩
  rw [hheap]
  exact ho.frames.grown hgrown ho.backed.geo.end_aligned halign hstart hle hmax

/-- A contraction by no page. -/
theorem Owned.contracted {n m : ℕ} (ho : Owned L base d forks s.heap s.pages)
    (hkeep : contractedEnd s.heap n = s.heap.endAddr)
    (hrun : Heap.contract (kernelPaging L) n s = .ok m t) : Owned L base d forks t.heap t.pages := by
  obtain ⟨hactive, hheap, -, hheld, htaken, hframe⟩ := ho.toActive.contract_spec hrun
  have hsame : ∀ v, frameAt t.pages d v = frameAt s.pages d v := fun v =>
    hframe v fun hv => absurd hv.1 (by rw [hkeep]; exact Nat.not_le.mpr hv.2)
  rw [hkeep] at hheap
  refine ⟨hactive, ?_⟩
  rw [hheap]
  refine ⟨fun f => ?_, fun f hf => ?_, fun v w f hv hw hfv hfw => ?_⟩
  · rw [hheld, ho.frames.held]
    simp only [hsame]
    rfl
  · rw [hheld] at hf
    exact htaken f (ho.frames.taken f hf)
  · rw [hsame] at hfv hfw
    exact ho.frames.inj v w f hv hw hfv hfw

theorem Owned.step (ho : Owned L base d forks r.state.heap r.state.pages) (hkeep : KeepsPages L r.state c)
    (hstep : Heap.Step (kernelPaging L) r c r') : Owned L base d forks r'.state.heap r'.state.pages :=
  hstep.keeps (I := fun h k => Owned L base d forks h k) ho (fun _ _ _ hexp hu hrun => hu.expanded hexp.lt hrun)
    fun _ _ _ _ hcon hu hrun => hu.contracted (hkeep _ _ hcon) hrun

/-! ### Frames that are lost -/

/-- Expansions bring other frames. -/
theorem Kept.grown {f v p : Frame} {a lo hi : ℕ} {k k' : Kernel} (h : Kept d f v a lo k) (hg : Grown d lo hi p k k')
    (hlo : lo % 4096 = 0) (hhi : hi % 4096 = 0) (hle : lo ≤ hi) (hlim : hi ≤ 2147483648) :
    Kept d f v a hi k' := by
  refine ⟨?_, hg.keeps f h.taken, fun w hw hf => ?_⟩
  · rw [hg.held]
    exact List.mem_append_right _ h.held
  · by_cases hin : PageIn lo hi w
    · exact absurd h.taken (hg.fresh f (hg.frame_mem hlo hhi hle hlim hin hf))
    · rw [hg.old w hin] at hf
      refine h.only w ⟨hw.1, ?_⟩ hf
      unfold PageIn at hin
      have := hw.2
      omega

theorem Kept.step {f v : Frame} (ha : Active L base d forks r.state.heap r.state.pages)
    (hk : Kept d f v r.state.heap.startAddr r.state.heap.endAddr r.state.pages)
    (hstep : Heap.Step (kernelPaging L) r c r') :
    Kept d f v r'.state.heap.startAddr r'.state.heap.endAddr r'.state.pages := by
  refine (hstep.keeps (I := fun h k => Active L base d forks h k ∧ Kept d f v h.startAddr h.endAddr k) ⟨ha, hk⟩
    (fun u nb w hexp hu hrun => ?_) fun u n m w _ hu hrun => ?_).2
  · obtain ⟨hactive, e, p, hheap, hle, halign, hmax, hgrown⟩ := hu.1.expand_spec hexp.lt hrun
    refine ⟨hactive, ?_⟩
    rw [hheap]
    exact hu.2.grown hgrown hu.1.backed.geo.end_aligned halign hle hmax
  · obtain ⟨hactive, hheap, hle, hheld, htaken, hframe⟩ := hu.1.contract_spec hrun
    refine ⟨hactive, hheld ▸ hu.2.held, htaken f hu.2.taken, fun x hx hf => ?_⟩
    rw [hheap] at hx
    rw [hframe x fun hin => absurd hin.1 (Nat.not_le.mpr hx.2)] at hf
    exact hu.2.only x ⟨hx.1, hx.2.trans_le hle⟩ hf

/-- A call that makes the heap smaller leaves a frame behind that the heap does not map. -/
theorem Owned.lost (ho : Owned L base d forks r.state.heap r.state.pages)
    (hstep : Heap.Step (kernelPaging L) r c r') (hless : r'.state.heap.endAddr < r.state.heap.endAddr) :
    ¬Conserved r'.state.heap r'.state.pages := by
  obtain ⟨hafter, hstart⟩ := ho.toActive.step hstep
  have hlim := hafter.backed.geo.end_le.trans hafter.backed.geo.max_le
  have halign := hafter.backed.geo.end_aligned
  have hmin := hafter.backed.geo.min_le
  unfold Heap.pageSize at halign
  -- the first page behind the new end
  have hpage : (pageNo r'.state.heap.endAddr).toNat * 4096 = r'.state.heap.endAddr := by
    rw [toNat_pageNo (by omega)]
    omega
  have hin : PageIn r.state.heap.startAddr r.state.heap.endAddr (pageNo r'.state.heap.endAddr) := by
    unfold PageIn
    rw [hpage]
    omega
  obtain ⟨e, he⟩ := Option.ne_none_iff_exists'.mp (ho.backed.full _ hin)
  have hframe : frameAt r.state.pages d (pageNo r'.state.heap.endAddr) = some (Vmm.address e) := by
    rw [frameAt, he, Option.map_some]
  have hheld := (ho.frames.held _).mpr ⟨_, hin, hframe⟩
  have hkept := Kept.step ho.toActive
    ⟨hheld, ho.frames.taken _ hheld, fun w hw hf => ho.frames.inj w _ _ hw hin hf hframe⟩ hstep
  intro hconserved
  obtain ⟨w, hw, hf⟩ := (hconserved _).mp hkept.held
  rw [hafter.backed.own, pageNo_pageAddr] at hf
  rw [hkept.only w hw hf] at hw
  exact absurd hw.2 (by rw [hpage]; exact lt_irrefl _)

/-- A new heap in the active directory. -/
theorem owned_created {placementAddr start size max : ℕ} {perms : BitVec 16}
    (hapart : Apart pmmFrames L base ⟨s.pages.vmm, forks⟩) (hindex : SameIndex base ⟨s.pages.vmm, forks⟩)
    (hd : d ∈ base :: Spaces.forkDirs ⟨s.pages.vmm, forks⟩) (hactive : s.pages.cr3 = d) (hheld : s.pages.held = [])
    (hplace : placementAddr + 28 ≤ start) (hmin : Heap.heapMinSize ≤ size) (hmax : start + size ≤ max)
    (hlim : max ≤ 2147483648) (hperms : perms.toNat < 0x1000)
    (hfree : ∀ v, PageIn start max v → entryAt s.pages.vmm d v = none)
    (hrun : Heap.createHeap (kernelPaging L) placementAddr (pageAddr d).toNat start size max perms s =
      .ok () t) : Owned L base d forks t.heap t.pages := by
  obtain ⟨hback, hheap, hcr3, phys, k, halloc, hheld', hkeep, hentry⟩ :=
    backed_created hapart hindex hd (hactive ▸ hd) hplace hmin hmax hlim hfree hrun
  have hstart := hback.geo.start_aligned
  have hend := hback.geo.end_aligned
  rw [hheap] at hstart hend
  have hgrown : Grown d start (start + size) (pageNo phys) s.pages t.pages :=
    grown_of_alloc hstart hend (hmax.trans hlim) (by rwa [Nat.add_sub_cancel_left]) hheld' hkeep
      (perms_or_present hperms) hentry
  have hnone : ∀ v, ¬PageIn start start v := fun v hv => absurd hv.1 (Nat.not_le.mpr hv.2)
  have hempty : FramesOf d start start s.pages := by
    refine ⟨fun f => ?_, fun f hf => ?_, fun v w f hv => absurd hv (hnone v)⟩
    · rw [hheld]
      exact ⟨fun hf => absurd hf List.not_mem_nil, fun ⟨v, hv, _⟩ => absurd hv (hnone v)⟩
    · rw [hheld] at hf
      exact absurd hf List.not_mem_nil
  refine ⟨⟨hback, hcr3.trans hactive, by rw [hheap]; exact hperms⟩, ?_⟩
  rw [hheap]
  exact hempty.grown hgrown hstart hend le_rfl (Nat.le_add_right _ _) (hmax.trans hlim)

end Account

/-! ### A heap that shrinks -/

def procAnswers : List (Request × ℕ) :=
  [(.pmmAlloc 0x100000, 0x801000), (.vmmMapPages 0x801000 0x50000000 0x110000 256 7, 0)]

def procGrowth : List (Request × ℕ) :=
  [(.pmmAlloc 0x100000, 0x901000), (.vmmMap 0x901000 0x50100000 256 7, 0)]

def procTail : List (Request × ℕ) := [(.unmapTail 0x50101000 0x110000 255, 0)]

/-- The memory before the heap of a process is created. The word behind its limit looks like the
head of a used chunk. -/
def procMemory {σ : Type} (k : σ) : Heap.State σ :=
  ⟨fun a => if a = 0x50200004 then 2 else 0, ⟨0, 0, 0, 0, 0, 0⟩, k, []⟩

/-- Three blocks fill the heap to its limit; the last is freed. -/
theorem proc_heap_on_answers : ∃ a b c e f : Heap.State (List (Request × ℕ)),
    Heap.createHeap answerPaging 0x120000 0x110000 0x50000000 0x100000 0x50200000 7 (procMemory procAnswers) =
      .ok () a ∧ a.pages = [] ∧
    Heap.alloc answerPaging 0x8 a = .ok 0x50000008 b ∧ b.pages = [] ∧
    (b.heap.startAddr, b.heap.endAddr, b.heap.maxAddr) = (0x50000000, 0x50100000, 0x50200000) ∧
    Heap.alloc answerPaging 0xFFFFC (b.withPages procGrowth) = .ok 0x50000018 c ∧ c.pages = [] ∧
    Heap.alloc answerPaging 0xFFFEC c = .ok 0x50100018 e ∧ e.pages = [] ∧
    (e.heap.startAddr, e.heap.endAddr, e.heap.maxAddr) = (0x50000000, 0x50200000, 0x50200000) ∧
    Heap.free answerPaging 0x50100018 (e.withPages procTail) = .ok () f ∧ f.pages = [] ∧
    f.heap.endAddr = 0x50101000 :=
  ⟨_, _, _, _, _, ok_of_returned (by decide +kernel), by decide +kernel, ok_of_returned (by decide +kernel),
    by decide +kernel, by decide +kernel, ok_of_returned (by decide +kernel),by decide +kernel,
    ok_of_returned (by decide +kernel), by decide +kernel, by decide +kernel, ok_of_returned (by decide +kernel),
    by decide +kernel, by decide +kernel⟩

/-- A page behind the limit of the heap is mapped. -/
theorem mapped_behind {boot : Vmm.State PmmState} (h : SetUp boot) : ∃ t,
    Vmm.Step pmmFrames smallLayout 0x110 ⟨boot, []⟩ ⟨t, []⟩ ∧ FreeFrom t.pmm.1 0x801 0x1800 ∧
      (∀ v, PageIn 0x50000000 0x50200000 v → entryAt t 0x110 v = none) ∧ entryAt t 0x110 0x50200 ≠ none := by
  have hunmapped : ∀ v, PageIn 0x50200000 0x50201000 v → entryAt boot 0x110 v = none := fun v hv =>
    h.unmapped ((by decide : 0x1000000 ≤ 0x50200000).trans hv.1)
  obtain ⟨t, hmap, hfree⟩ := vmmMapPages_first (L := smallLayout) (k := ⟨boot, 0x110, []⟩) (i := 320) 0x700000 7
    h.kernel.directory h.kernel.closed (by decide) (by decide) (by decide) (by decide) (by decide) hunmapped
    (fun v hv => Or.inl (index_eq 320 hv (by decide) (by decide))) (h.tables 320 (by decide))
    ⟨0x50200, by decide, by decide⟩ h.free (by decide)
  obtain ⟨u, hu, -, -, hentry⟩ := mapPages_spec (k := ⟨boot, 0x110, []⟩) h.kernel.apart h.kernel.sameIndex
    List.mem_cons_self List.mem_cons_self (by decide) (by decide) (by decide) (by decide) (Or.inl rfl) (by decide)
    hunmapped hmap
  cases hu
  obtain ⟨ret, v, hrun, hv⟩ := vmmMapPages_returned hmap
  cases hv
  have hop : (Vmm.Op.map 0x700000 0x50200000 1 7).run pmmFrames smallLayout (pageAddr 0x110) boot = .ok ret t := hrun
  refine ⟨t, .onBase (fun v hv => ?_) hop, hfree, fun v hv => ?_, ?_⟩
  · refine not_window_of_unmapped (k := ⟨boot, 0x110, []⟩) h.kernel.apart (hunmapped v ?_)
    exact (inRange_between (by decide) (by decide) (by decide) (by decide) v).mp hv
  · rw [hentry v, if_neg fun hin => absurd hin.1 (Nat.not_le.mpr hv.2)]
    exact h.unmapped ((by decide : 0x1000000 ≤ 0x50000000).trans hv.1)
  · rw [hentry, if_pos (by decide)]
    exact Option.some_ne_none _

/-- Frames are allocated and mapped at pages whose tables are there. -/
theorem pages_there {L : Layout} {base a : Frame} {forks : List (Frame × (Index → Entry))} {k : Kernel} {n m : ℕ}
    (lo hi : ℕ) (perms : BitVec 16) (hapart : Apart pmmFrames L base ⟨k.vmm, forks⟩)
    (ha : a ∈ base :: Spaces.forkDirs ⟨k.vmm, forks⟩) (hlo : lo % 4096 = 0) (hhi : hi % 4096 = 0) (hlt : lo < hi)
    (hlim : hi ≤ 2147483648) (hfree : ∀ v, PageIn lo hi v → entryAt k.vmm a v = none)
    (htables : ∀ v, PageIn lo hi v → tableOf k.vmm a (Vmm.split v).1 ≠ none)
    (hframes : FreeFrom k.vmm.pmm.1 n m) (hfit : n + (hi - lo) / 4096 ≤ m) :
    ∃ k₁ k₂, pmmAlloc (hi - lo) k = some (n * 4096, k₁) ∧ k₁.cr3 = k.cr3 ∧
      vmmMapPages L (n * 4096) lo (pageAddr a).toNat ((hi - lo) / 4096) perms k₁ = some k₂ ∧
      k₂.cr3 = k.cr3 ∧ FreeFrom k₂.vmm.pmm.1 (n + (hi - lo) / 4096) m := by
  have hcount := pageCount_aligned (show (hi - lo) % 4096 = 0 by omega) (by omega)
  obtain ⟨k₁, halloc, hfirst⟩ := pmmAlloc_first hframes (show 0 < Pmm.pageCount (hi - lo) by omega) (by omega)
  obtain ⟨hsame, hcr3, -, hkeep⟩ := pmmAlloc_taken halloc
  obtain ⟨⟨frames, pmm⟩, cr3, held⟩ := k₁
  obtain rfl : frames = k.vmm.frames := hsame
  obtain rfl : cr3 = k.cr3 := hcr3
  have hapart' : Apart pmmFrames L base ⟨⟨k.vmm.frames, pmm⟩, forks⟩ := hapart.of_pmm hkeep
  rw [hcount] at hfirst
  obtain ⟨t, hmap, hpmm⟩ := vmmMapPages_there (k := ⟨⟨k.vmm.frames, pmm⟩, k.cr3, held⟩) (n * 4096) perms
    (hapart'.directory a ha) hapart'.closed hlo hhi hlt.le hlim hfree htables
  refine ⟨_, _, halloc, rfl, hmap, rfl, ?_⟩
  show FreeFrom t.pmm.1 _ _
  rw [hpmm]
  exact hfirst

/-- The last pages of a heap can be unmapped. -/
theorem Backed.unmapTail_given {L : Layout} {base d : Frame} {forks : List (Frame × (Index → Entry))} {h : HeapT}
    {k : Kernel} {e : ℕ} (hb : Backed L base d forks h k) (hlt : e < h.endAddr)
    (hmin : h.startAddr + Heap.heapMinSize ≤ e) (halign : e % 4096 = 0) :
    ∃ k', Answers L k [(.unmapTail e (pageAddr d).toNat ((h.endAddr - e) / 4096), 0)] k' := by
  have hend := hb.geo.end_aligned
  have hlim := hb.geo.end_le.trans hb.geo.max_le
  have hrange := inRange_between halign hend hlt.le hlim
  have hpage : ∀ v, Vmm.InRange (pageOf (BitVec.ofNat 32 e)) ((h.endAddr - e) / 4096) v →
      PageIn h.startAddr h.endAddr v := fun v hv =>
    ⟨((Nat.le_add_right _ _).trans hmin).trans ((hrange v).mp hv).1, ((hrange v).mp hv).2⟩
  obtain ⟨t, hrun, -⟩ := Vmm.vmmUnmapPages_returns (hb.apart.directory d hb.dir) hb.apart.closed
    (show (h.endAddr - e) / 4096 ≤ 2 ^ 20 by omega) (fun v hv => hb.clear v (hpage v hv))
    fun v hv => hb.full v (hpage v hv)
  have hunmap : vmmUnmapPages L e (pageAddr d).toNat ((h.endAddr - e) / 4096) k = some { k with vmm := t } := by
    unfold vmmUnmapPages runVmm
    rw [pageAddr_ofNat, hrun]
  have hgone := (hb.unmap_spec hlt.le hmin halign hunmap).1.virtToPhys_end (hlt.trans_le hb.geo.end_le)
  refine ⟨{ k with vmm := t }, .cons ?_ .nil⟩
  rw [Request.run, isMapped_run hb.apart.closed, hunmap, Option.bind_some]
  rw [show (h.withEnd e).endAddr = e from rfl] at hgone
  rw [hgone, if_pos rfl]

theorem keepsPages_alloc (L : Layout) (s : Heap.State Kernel) (size : ℕ) : KeepsPages L s (.alloc size) := by
  intro u n hcon
  cases hcon

/-- The heap of a process is created, filled to its limit by three blocks, and the last of them
is freed. -/
theorem proc_heap_run {boot : Vmm.State PmmState} (h : SetUp boot) : ∃ x t r r',
    Reaches (Vmm.Step pmmFrames smallLayout 0x110) ⟨boot, []⟩ x ∧ entryAt x.vmm 0x110 0x50200 ≠ none ∧
    (∀ v, PageIn 0x50000000 0x50200000 v → entryAt x.vmm 0x110 v = none) ∧
    Heap.createHeap (kernelPaging smallLayout) 0x120000 (pageAddr 0x110).toNat 0x50000000 0x100000 0x50200000 7
      (procMemory ⟨x.vmm, 0x110, []⟩) = .ok () t ∧
    Reaches (fun a b => ∃ c, KeepsPages smallLayout a.state c ∧ Heap.Step (kernelPaging smallLayout) a c b)
      ⟨t, []⟩ r ∧
    Heap.Step (kernelPaging smallLayout) r (.free ⟨0x50100018, 0xFFFEC⟩) r' ∧
    Owned smallLayout 0x110 0x110 [] r.state.heap r.state.pages ∧ r.state.heap.endAddr = 0x50200000 ∧
    r'.state.heap.endAddr = 0x50101000 := by
  obtain ⟨a, b, c, e, f, hnew, haPages, hone, hbPages, hbHeap, htwo, hcPages, hthree, hePages, heHeap, hfour,
    hfPages, hend⟩ := proc_heap_on_answers
  obtain ⟨vmm, hstep, hfree, hempty, hbehind⟩ := mapped_behind h
  obtain ⟨hapart, hindex⟩ := h.kernel.reaches (.single hstep)
  have htable : ∀ {k : Kernel} {v : Frame}, entryAt k.vmm 0x110 v ≠ none → ∀ w, (Vmm.split w).1 = (Vmm.split v).1 →
      tableOf k.vmm 0x110 (Vmm.split w).1 ≠ none := fun hv w hw hnone =>
    hv (TwoLevel.lookup_of_none (hw ▸ hnone))
  -- the new heap
  obtain ⟨k₁, k₂, hpmm, -, hmap, hcr3, hfree₂⟩ := pages_there (k := ⟨vmm, 0x110, []⟩) 0x50000000 0x50100000 7
    hapart List.mem_cons_self (by decide) (by decide) (by decide) (by decide)
    (fun v hv => hempty v ⟨hv.1, hv.2.trans (by decide)⟩)
    (fun v hv => htable hbehind v ((index_eq 320 hv (by decide) (by decide)).trans (by decide))) hfree (by decide)
  have hcreate := Answers.replay (s := procMemory procAnswers) (.cons hpmm (.cons (Option.map_eq_some_iff.mpr
    ⟨k₂, hmap, rfl⟩) .nil)) ((answers_simulate smallLayout k₂).createHeap 0x120000 0x110000 0x50000000 0x100000
    0x50200000 7) hnew haPages
  have howned := owned_created (s := procMemory ⟨vmm, 0x110, []⟩) hapart hindex List.mem_cons_self rfl rfl (by decide)
    (by decide) (by decide) (by decide) (by decide) hempty hcreate
  -- the first block needs no pages
  have hfirst : Heap.Step (kernelPaging smallLayout) ⟨a.withPages k₂, []⟩ (.alloc 0x8)
      ⟨b.withPages k₂, [⟨0x50000008, 0x8⟩]⟩ :=
    .alloc (by decide) (Answers.replay (haPages ▸ .nil) ((answers_simulate smallLayout k₂).alloc 0x8) hone hbPages)
  have howned₁ := howned.step (keepsPages_alloc _ _ _) hfirst
  obtain ⟨hbStart, hbEnd, hbMax⟩ : b.heap.startAddr = 0x50000000 ∧ b.heap.endAddr = 0x50100000 ∧
      b.heap.maxAddr = 0x50200000 := by simpa using hbHeap
  have hmapped : entryAt k₂.vmm 0x110 0x50000 ≠ none := by
    refine howned₁.backed.full 0x50000 ?_
    show PageIn b.heap.startAddr b.heap.endAddr 0x50000
    rw [hbStart, hbEnd]
    decide
  -- the second expands the heap to its limit
  obtain ⟨k₃, k₄, hpmm', hcr3₃, hmap', hcr3', -⟩ := pages_there (k := k₂) 0x50100000 0x50200000 7
    howned₁.backed.apart List.mem_cons_self (by decide) (by decide) (by decide) (by decide)
    (fun v hv => howned₁.backed.empty v (by
      show PageIn b.heap.endAddr b.heap.maxAddr v
      rw [hbEnd, hbMax]
      exact hv))
    (fun v hv => htable hmapped v ((index_eq 320 hv (by decide) (by decide)).trans (by decide))) hfree₂ (by decide)
  have hgrowth : Answers smallLayout k₂ procGrowth k₄ := by
    refine .cons hpmm' (.cons (Option.map_eq_some_iff.mpr ⟨k₄, ?_, rfl⟩) .nil)
    rw [vmmMap, hcr3₃, hcr3]
    exact hmap'
  have hsecond : Heap.Step (kernelPaging smallLayout) ⟨b.withPages k₂, [⟨0x50000008, 0x8⟩]⟩ (.alloc 0xFFFFC)
      ⟨c.withPages k₄, [⟨0x50000018, 0xFFFFC⟩, ⟨0x50000008, 0x8⟩]⟩ :=
    by
    refine .alloc (by decide) ?_
    exact Answers.replay (s := b.withPages procGrowth) hgrowth ((answers_simulate smallLayout k₄).alloc 0xFFFFC) htwo hcPages
  have hthird : Heap.Step (kernelPaging smallLayout) ⟨c.withPages k₄, [⟨0x50000018, 0xFFFFC⟩, ⟨0x50000008, 0x8⟩]⟩
      (.alloc 0xFFFEC)
      ⟨e.withPages k₄, [⟨0x50100018, 0xFFFEC⟩, ⟨0x50000018, 0xFFFFC⟩, ⟨0x50000008, 0x8⟩]⟩ :=
    .alloc (by decide) (Answers.replay (hcPages ▸ .nil) ((answers_simulate smallLayout k₄).alloc 0xFFFEC) hthree hePages)
  have howned₃ := (howned₁.step (keepsPages_alloc _ _ _) hsecond).step (keepsPages_alloc _ _ _) hthird
  obtain ⟨heStart, heEnd, -⟩ : e.heap.startAddr = 0x50000000 ∧ e.heap.endAddr = 0x50200000 ∧
      e.heap.maxAddr = 0x50200000 := by simpa using heHeap
  -- the last block is freed, and the heap contracted
  obtain ⟨k₅, htail⟩ := howned₃.backed.unmapTail_given (e := 0x50101000) (by
      show _ < e.heap.endAddr
      rw [heEnd]
      decide) (by
      show e.heap.startAddr + _ ≤ _
      rw [heStart]
      decide) (by decide)
  have hlast : Heap.Step (kernelPaging smallLayout)
      ⟨e.withPages k₄, [] ++ ⟨0x50100018, 0xFFFEC⟩ :: [⟨0x50000018, 0xFFFFC⟩, ⟨0x50000008, 0x8⟩]⟩
      (.free ⟨0x50100018, 0xFFFEC⟩) ⟨f.withPages k₅, [] ++ [⟨0x50000018, 0xFFFFC⟩, ⟨0x50000008, 0x8⟩]⟩ := by
    refine .free (Answers.replay (s := e.withPages procTail) ?_ ((answers_simulate smallLayout k₅).free 0x50100018)
      hfour hfPages)
    have htail' := htail
    rw [show (e.withPages k₄).heap.endAddr = 0x50200000 from heEnd] at htail'
    exact htail'
  refine ⟨_, _, _, _, .single hstep, hbehind, hempty, hcreate, ?_, hlast, howned₃, heEnd, hend⟩
  exact ((Relation.ReflTransGen.single ⟨_, keepsPages_alloc _ _ _, hfirst⟩).tail
    ⟨_, keepsPages_alloc _ _ _, hsecond⟩).tail ⟨_, keepsPages_alloc _ _ _, hthird⟩

/-! ### Every run -/

/-- For every heap whose directory is the active one, in every run in which no call contracts
the heap by a page: the frames that `pmm_alloc` has handed to the heap and that were not taken
back are those mapped from its start to its end. A call after such a run that leaves the heap
smaller leaves a frame behind. -/
theorem heap_frames_conserved {L : Layout} {base d : Frame} {boot : Vmm.State PmmState} {x : Spaces PmmState}
    {s t : Heap.State Kernel} {placementAddr start size max : ℕ} {perms : BitVec 16} {r : Heap.Run Kernel}
    (hboot : KernelDirectory pmmFrames L boot base)
    (hx : Reaches (Vmm.Step pmmFrames L base) ⟨boot, []⟩ x) (hd : d ∈ base :: x.forkDirs)
    (hpages : s.pages = ⟨x.vmm, d, []⟩) (hplace : placementAddr + 28 ≤ start) (hmin : Heap.heapMinSize ≤ size)
    (hmax : start + size ≤ max) (hlim : max ≤ 2147483648) (hperms : perms.toNat < 0x1000)
    (hfree : ∀ v, PageIn start max v → entryAt x.vmm d v = none)
    (hcreate : Heap.createHeap (kernelPaging L) placementAddr (pageAddr d).toNat start size max perms s =
      .ok () t)
    (hrun : Reaches (fun a b => ∃ c, KeepsPages L a.state c ∧ Heap.Step (kernelPaging L) a c b) ⟨t, []⟩ r) :
    Conserved r.state.heap r.state.pages ∧
      ∀ c r', Heap.Step (kernelPaging L) r c r' → r'.state.heap.endAddr < r.state.heap.endAddr →
        ¬Conserved r'.state.heap r'.state.pages := by
  obtain ⟨hapart, hindex⟩ := hboot.reaches hx
  have hspaces : (⟨s.pages.vmm, x.forks⟩ : Spaces PmmState) = x := by rw [hpages]
  have hcreated : Owned L base d x.forks t.heap t.pages :=
    owned_created (hspaces.symm ▸ hapart) (hspaces.symm ▸ hindex) (hspaces.symm ▸ hd) (by rw [hpages])
      (by rw [hpages]) hplace hmin hmax hlim hperms (by rw [hpages]; exact hfree) hcreate
  have howned : Owned L base d x.forks r.state.heap r.state.pages := by
    refine hrun.invariant (fun r => Owned L base d x.forks r.state.heap r.state.pages) ?_ hcreated
    rintro a b ho ⟨c, hkeep, hstep⟩
    exact ho.step hkeep hstep
  exact ⟨howned.conserved, fun c r' hstep hless => howned.lost hstep hless⟩

/-- The heap of a process has grown to its limit, and all its frames are mapped; then its last
block is freed. -/
theorem heap_frames_conserved_at_limit : ∃ (boot : Vmm.State PmmState) (x : Spaces PmmState)
    (t : Heap.State Kernel) (r : Heap.Run Kernel), KernelDirectory pmmFrames smallLayout boot 0x110 ∧
    Reaches (Vmm.Step pmmFrames smallLayout 0x110) ⟨boot, []⟩ x ∧
    Heap.createHeap (kernelPaging smallLayout) 0x120000 (pageAddr 0x110).toNat 0x50000000 0x100000 0x50200000 7
      (procMemory ⟨x.vmm, 0x110, []⟩) = .ok () t ∧ r.state.heap.endAddr = 0x50200000 ∧
    Conserved r.state.heap r.state.pages := by
  obtain ⟨boot, hboot⟩ := exists_setUp
  obtain ⟨x, t, r, r', hx, -, hfree, hcreate, hrun, -, howned, hend, -⟩ := proc_heap_run hboot
  exact ⟨boot, x, t, r, hboot.kernel, hx, hcreate, hend, (heap_frames_conserved hboot.kernel hx List.mem_cons_self rfl (by decide)
    (by decide) (by decide) (by decide) (by decide) hfree hcreate hrun).1⟩

/-- The free of the last block unmaps 255 pages and gives none of their frames back. -/
theorem heap_frames_lost_by_free : ∃ (boot : Vmm.State PmmState) (x : Spaces PmmState) (t : Heap.State Kernel)
    (r : Heap.Run Kernel), KernelDirectory pmmFrames smallLayout boot 0x110 ∧
    Reaches (Vmm.Step pmmFrames smallLayout 0x110) ⟨boot, []⟩ x ∧
    (∀ v, PageIn 0x50000000 0x50200000 v → entryAt x.vmm 0x110 v = none) ∧ entryAt x.vmm 0x110 0x50200 ≠ none ∧
    Heap.createHeap (kernelPaging smallLayout) 0x120000 (pageAddr 0x110).toNat 0x50000000 0x100000 0x50200000 7
      (procMemory ⟨x.vmm, 0x110, []⟩) = .ok () t ∧
    Reaches (fun a b => ∃ c, Heap.Step (kernelPaging smallLayout) a c b) ⟨t, []⟩ r ∧
    ¬Conserved r.state.heap r.state.pages := by
  obtain ⟨boot, hboot⟩ := exists_setUp
  obtain ⟨x, t, r, r', hx, hbehind, hfree, hcreate, hrun, hstep, howned, hend, hend'⟩ := proc_heap_run hboot
  have hrun' : Reaches (fun a b => ∃ c, Heap.Step (kernelPaging smallLayout) a c b) ⟨t, []⟩ r :=
    Relation.ReflTransGen.mono (fun _ _ ⟨c, _, hc⟩ => ⟨c, hc⟩) _ _ hrun
  refine ⟨boot, x, t, r', hboot.kernel, hx, hfree, hbehind, hcreate, hrun'.tail ⟨_, hstep⟩, ?_⟩
  refine howned.lost hstep ?_
  rw [hend, hend']
  decide

end JustKernel.Mm
