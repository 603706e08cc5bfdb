import JustKernel.Mm.KernelPaging

/-! A heap in its directory. `createHeap` maps the pages of a heap in `heap->cr3`, and
`contract` unmaps them there, but `expand` goes through `vmm_map` and maps in the
directory that is active at the call. The two agree when the active directory is the
heap's own, or when both name the same tables for the new pages. As long as every
expansion is of this kind, the heap stays mapped in its directory from start to end
and nowhere behind, whatever the chunks look like. -/

namespace JustKernel.Mm

open Heap (HeapT Geometry grownEnd contractedEnd Expands Contracts)
open Vmm (Frame Index Entry Layout pmmFrames pageOf pageAddr entryAt tableOf WindowPage Spaces Shares Apart
  SameIndex KernelDirectory smallLayout)
open Pmm (FreeFrom)
open Runs Halting

/-! ### The kernel with a heap -/

/-- A run of a heap, with the directories that have been forked. -/
structure World where
  run : Heap.Run Kernel
  forks : List (Frame × (Index → Entry))

def World.kernel (w : World) : Kernel := w.run.state.pages

def World.heap (w : World) : HeapT := w.run.state.heap

def World.spaces (w : World) : Spaces PmmState := ⟨w.kernel.vmm, w.forks⟩

def World.withKernel (w : World) (k : Kernel) : World :=
  ⟨⟨w.run.state.withPages k, w.run.live⟩, w.forks⟩

inductive Event
  | fork
  | switch (d : Frame)
  | call (c : Heap.Call)

/-- A fork of the kernel's directory, a switch of the active directory, or an event of the heap. -/
inductive World.Step (L : Layout) (base : Frame) : World → Event → World → Prop
  | fork {w : World} {newDir : BitVec 32} {t : Vmm.State PmmState} :
      Vmm.vmmForkKernelSpace pmmFrames L base w.kernel.vmm = .ok newDir t →
      Step L base w .fork
        ⟨(w.withKernel { w.kernel with vmm := t }).run, (pageOf newDir, w.kernel.vmm.frames base) :: w.forks⟩
  | switch {w : World} {d : Frame} : d ∈ base :: w.spaces.forkDirs →
      Step L base w (.switch d) (w.withKernel { w.kernel with cr3 := d })
  | call {r r' : Heap.Run Kernel} {forks : List (Frame × (Index → Entry))} {c : Heap.Call} :
      Heap.Step (kernelPaging L) r c r' → Step L base ⟨r, forks⟩ (.call c) ⟨r', forks⟩

/-- Every page of the heap is mapped in its directory, and no page between its end and its
limit. -/
def FullyMapped (h : HeapT) (k : Kernel) : Prop :=
  (∀ v, PageIn h.startAddr h.endAddr v → entryAt k.vmm (pageNo h.cr3) v ≠ none) ∧
    ∀ v, PageIn h.endAddr h.maxAddr v → entryAt k.vmm (pageNo h.cr3) v = none

/-- Whenever the call expands the heap, the active directory is the heap's, or both name the
same tables for the new pages. -/
def SharesGrowth (L : Layout) (w : World) : Event → Prop
  | .call c => ∀ u nb, Expands (kernelPaging L) w.run.state c u nb →
      Shares u.pages.vmm u.pages.cr3 (pageNo u.heap.cr3) (PageIn u.heap.endAddr (grownEnd u.heap nb))
  | _ => True

/-! ### The invariant -/

/-- The heap of the directory `d` is mapped there, the windows are elsewhere, and the directories
are in order. -/
structure Backed (L : Layout) (base d : Frame) (forks : List (Frame × (Index → Entry))) (h : HeapT)
    (k : Kernel) : Prop where
  geo : Geometry h
  own : h.cr3 = (pageAddr d).toNat
  apart : Apart pmmFrames L base ⟨k.vmm, forks⟩
  index : SameIndex base ⟨k.vmm, forks⟩
  dir : d ∈ base :: Spaces.forkDirs ⟨k.vmm, forks⟩
  active : k.cr3 ∈ base :: Spaces.forkDirs ⟨k.vmm, forks⟩
  full : ∀ v, PageIn h.startAddr h.endAddr v → entryAt k.vmm d v ≠ none
  empty : ∀ v, PageIn h.endAddr h.maxAddr v → entryAt k.vmm d v = none
  clear : ∀ v, PageIn h.startAddr h.endAddr v → ¬WindowPage L k.vmm d v

section Steps

variable {L : Layout} {base d : Frame} {forks : List (Frame × (Index → Entry))} {h : HeapT} {k k' : Kernel}

theorem pageNo_pageAddr (d : Frame) : pageNo (pageAddr d).toNat = d := by
  rw [pageNo, pageAddr_ofNat, Vmm.pageOf_pageAddr]

theorem Backed.fullyMapped (hb : Backed L base d forks h k) : FullyMapped h k := by
  have hd : pageNo h.cr3 = d := by rw [hb.own, pageNo_pageAddr]
  rw [FullyMapped, hd]
  exact ⟨hb.full, hb.empty⟩

/-- More frames are taken. -/
theorem Backed.of_frames (hb : Backed L base d forks h k) (hframes : k'.vmm.frames = k.vmm.frames)
    (hcr3 : k'.cr3 = k.cr3) (hkeep : ∀ g, pmmFrames.taken k.vmm.pmm g → pmmFrames.taken k'.vmm.pmm g) :
    Backed L base d forks h k' := by
  obtain ⟨⟨frames, pmm⟩, cr3, held⟩ := k'
  obtain rfl : frames = k.vmm.frames := hframes
  obtain rfl : cr3 = k.cr3 := hcr3
  exact ⟨hb.geo, hb.own, hb.apart.of_pmm hkeep, hb.index, hb.dir, hb.active, hb.full, hb.empty, hb.clear⟩

/-- An allocation of frames for the heap. -/
theorem Backed.pmmAlloc_spec {size phys : ℕ} (hb : Backed L base d forks h k)
    (hrun : pmmAlloc size k = some (phys, k')) : Backed L base d forks h k' := by
  obtain ⟨hframes, hcr3, -, hkeep⟩ := pmmAlloc_taken hrun
  exact hb.of_frames hframes hcr3 hkeep

/-- The pages between two addresses are mapped in `a`, through tables of `d`. -/
theorem mapPages_spec {a : Frame} {phys lo hi : ℕ} {perms : BitVec 16}
    (hapart : Apart pmmFrames L base ⟨k.vmm, forks⟩) (hindex : SameIndex base ⟨k.vmm, forks⟩)
    (ha : a ∈ base :: Spaces.forkDirs ⟨k.vmm, forks⟩) (hd : d ∈ base :: Spaces.forkDirs ⟨k.vmm, forks⟩)
    (hlo : lo % 4096 = 0) (hhi : hi % 4096 = 0) (hle : lo ≤ hi) (hlim : hi ≤ 2147483648)
    (hshare : Shares k.vmm a d (PageIn lo hi)) (hperms : perms.getLsbD 0 = true)
    (hfree : ∀ v, PageIn lo hi v → entryAt k.vmm d v = none)
    (hrun : vmmMapPages L phys lo (pageAddr a).toNat ((hi - lo) / 4096) perms k = some k') :
    ∃ t, k' = { k with vmm := t } ∧ Vmm.Operated pmmFrames L a (PageIndex lo hi) k.vmm t ∧
      (∀ v, WindowPage L t d v ↔ WindowPage L k.vmm d v) ∧
      ∀ v, entryAt t d v = if PageIn lo hi v then some (Vmm.newEntry (pageNo lo) (pageNo phys) perms v)
        else entryAt k.vmm d v := by
  obtain ⟨ret, t, hmap, rfl⟩ := vmmMapPages_returned hrun
  have hrange := inRange_between hlo hhi hle hlim
  obtain ⟨hop, hbase, hentry⟩ := hapart.map_shared hindex ha hd
    (hshare.imp_right fun hs v hv => hs v ((hrange v).mp hv)) (by omega) hperms
    (fun v hv => hfree v ((hrange v).mp hv)) hmap
  refine ⟨t, rfl, hop.mono fun i ⟨v, hv, hi⟩ => ⟨v, (hrange v).mp hv, hi⟩, Vmm.windowPage_iff hbase,
    fun v => ?_⟩
  rw [hentry v]
  simp only [hrange v]
  rfl

/-- An unmapped page is no window. -/
theorem not_window_of_unmapped (hapart : Apart pmmFrames L base ⟨k.vmm, forks⟩) {v : Frame}
    (hnone : entryAt k.vmm d v = none) : ¬WindowPage L k.vmm d v := fun hw =>
  Vmm.entryAt_of_window ⟨_, hapart.closed.dir⟩ ⟨_, hapart.closed.table⟩ hw hnone

/-- New pages behind the end are mapped through tables of `d`. -/
theorem Backed.map_spec {phys e : ℕ} {perms : BitVec 16} (hb : Backed L base d forks h k)
    (hlt : h.endAddr < e) (hle : e ≤ h.maxAddr) (halign : e % 4096 = 0)
    (hshare : Shares k.vmm k.cr3 d (PageIn h.endAddr e)) (hperms : perms.getLsbD 0 = true)
    (hrun : vmmMap L phys h.endAddr ((e - h.endAddr) / 4096) perms k = some k') :
    Backed L base d forks (h.withEnd e) k' ∧ k'.held = k.held ∧ k'.cr3 = k.cr3 ∧
      Vmm.Operated pmmFrames L k.cr3 (PageIndex h.endAddr e) k.vmm k'.vmm ∧
      ∀ v, entryAt k'.vmm d v = if PageIn h.endAddr e v then
        some (Vmm.newEntry (pageNo h.endAddr) (pageNo phys) perms v) else entryAt k.vmm d v := by
  have hsub : ∀ v, PageIn h.endAddr e v → entryAt k.vmm d v = none := fun v hv =>
    hb.empty v ⟨hv.1, hv.2.trans_le hle⟩
  obtain ⟨t, rfl, hop, hwindow, hentry⟩ := mapPages_spec hb.apart hb.index hb.active hb.dir
    hb.geo.end_aligned halign hlt.le (hle.trans hb.geo.max_le) hshare hperms hsub hrun
  -- a page of the larger heap is a new one or one of the old heap
  have hcases : ∀ v, PageIn h.startAddr e v → PageIn h.endAddr e v ∨ PageIn h.startAddr h.endAddr v := by
    intro v hv
    unfold PageIn at *
    omega
  refine ⟨⟨hb.geo.withEnd_spec hlt.le halign hle, hb.own, hb.apart.operated hb.active hop,
    hb.index.operated hb.apart hb.active hop, hb.dir, hb.active, fun v hv => ?_, fun v hv => ?_,
    fun v hv => ?_⟩, rfl, rfl, hop, hentry⟩
  · rw [hentry v]
    split_ifs with hin
    · exact Option.some_ne_none _
    · exact hb.full v ((hcases v hv).resolve_left hin)
  · rw [hentry v, if_neg fun hin => absurd hv.1 (Nat.not_le.mpr hin.2)]
    exact hb.empty v ⟨hlt.le.trans hv.1, hv.2⟩
  · rw [hwindow]
    rcases hcases v hv with hin | hin
    · exact not_window_of_unmapped hb.apart (hsub v hin)
    · exact hb.clear v hin

/-- The last pages are unmapped. -/
theorem Backed.unmap_spec {e : ℕ} (hb : Backed L base d forks h k) (hle : e ≤ h.endAddr)
    (hmin : h.startAddr + Heap.heapMinSize ≤ e) (halign : e % 4096 = 0)
    (hrun : vmmUnmapPages L e (pageAddr d).toNat ((h.endAddr - e) / 4096) k = some k') :
    Backed L base d forks (h.withEnd e) k' ∧ k'.held = k.held ∧ k'.cr3 = k.cr3 ∧
      Vmm.Operated pmmFrames L d (PageIndex e h.endAddr) k.vmm k'.vmm ∧
      ∀ v, entryAt k'.vmm d v = if PageIn e h.endAddr v then none else entryAt k.vmm d v := by
  have hend := hb.geo.end_aligned
  have hmax := hb.geo.max_le
  have hend' := hb.geo.end_le
  unfold Heap.pageSize at hend
  obtain ⟨ret, t, hunmap, rfl⟩ := vmmUnmapPages_returned hrun
  have hrange := inRange_between halign hend hle (hend'.trans hmax)
  obtain ⟨hop, href⟩ := Vmm.vmmUnmapPages_spec (hb.apart.directory d hb.dir) hb.apart.closed (by omega)
    (fun v hv => hb.clear v ⟨by have := ((hrange v).mp hv).1; omega, ((hrange v).mp hv).2⟩) hunmap
  have hentry : ∀ v, entryAt t d v = if PageIn e h.endAddr v then none else entryAt k.vmm d v := by
    intro v
    rw [href.entry v]
    simp only [hrange v]
  have hwindow : ∀ v, WindowPage L t d v ↔ WindowPage L k.vmm d v := Vmm.windowPage_iff href.base
  refine ⟨⟨⟨hb.geo.head_le, hb.geo.start_aligned, halign, hmin, hle.trans hend', hmax⟩, hb.own,
    hb.apart.operated hb.dir hop, hb.index.operated hb.apart hb.dir hop, hb.dir, hb.active,
    fun v hv => ?_, fun v hv => ?_, fun v hv => ?_⟩, rfl, rfl,
    hop.mono fun i ⟨v, hv, hi⟩ => ⟨v, (hrange v).mp hv, hi⟩, hentry⟩
  · rw [hentry v, if_neg fun hin => absurd hin.1 (Nat.not_le.mpr hv.2)]
    exact hb.full v ⟨hv.1, hv.2.trans_le hle⟩
  · rw [hentry v]
    split_ifs with hin
    · rfl
    · exact hb.empty v ⟨by have := hv.1; unfold PageIn at hin; simp only [HeapT.withEnd] at this; omega, hv.2⟩
  · rw [hwindow]
    exact hb.clear v ⟨hv.1, hv.2.trans_le hle⟩

/-- After the pages behind `e` are unmapped, `virt_to_phys` does not find the first of them. -/
theorem Backed.virtToPhys_end (hb : Backed L base d forks h k) (hlt : h.endAddr < h.maxAddr) :
    virtToPhys L h.endAddr (pageAddr d).toNat k = (0xFFFFFFFF, k) := by
  have hmax := hb.geo.max_le
  have hend := hb.geo.end_aligned
  unfold Heap.pageSize at hend
  have hpage : PageIn h.endAddr h.maxAddr (pageNo h.endAddr) := by
    unfold PageIn
    rw [toNat_pageNo (by omega)]
    omega
  have hnone := hb.empty _ hpage
  have hwin := not_window_of_unmapped hb.apart hnone
  rw [virtToPhys_run hb.apart.closed,
    Vmm.virtToPhys_of_not_window (hb.apart.directory d hb.dir) hb.apart.closed _ hwin,
    show pageOf (BitVec.ofNat 32 h.endAddr) = pageNo h.endAddr from rfl, hnone]
  rfl

/-- No pages are given back. -/
theorem pmmUnalloc_zero {phys : ℕ} (hrun : pmmUnalloc phys 0 k = some k') :
    k'.vmm.frames = k.vmm.frames ∧ k'.cr3 = k.cr3 ∧ k'.held = k.held ∧
      ∀ g, pmmFrames.taken k.vmm.pmm g → pmmFrames.taken k'.vmm.pmm g := by
  obtain ⟨t, ht, hrun⟩ := Option.bind_eq_some_iff.mp hrun
  split_ifs at hrun with hzero
  cases hrun
  have hcount : Pmm.pageCount 0 = 0 := by decide
  refine ⟨rfl, rfl, ?_, fun g hg => (Pmm.pmmUnalloc_spec (b := ⟨phys, 0⟩) ht _).mpr ⟨?_, hg⟩⟩
  · simp [hcount, Vmm.blockFrames]
  · simp [Pmm.Block.pages, hcount]

variable {s t : Heap.State Kernel}

theorem perms_present (p : BitVec 16) : (p ||| Heap.vmmPresent).getLsbD 0 = true := by
  rw [BitVec.getLsbD_or, Heap.vmmPresent]
  simp

/-- An expansion through tables of `d`. -/
theorem Backed.expand_spec {nb : ℕ} (hb : Backed L base d forks s.heap s.pages) (hnb : nb < 4294967296)
    (hshare : Shares s.pages.vmm s.pages.cr3 d (PageIn s.heap.endAddr (grownEnd s.heap nb)))
    (hrun : Heap.expand (kernelPaging L)
      (Heap.add32 (Heap.sub32 s.heap.endAddr s.heap.startAddr) nb) s = .ok () t) :
    Backed L base d forks t.heap t.pages ∧ t.heap = s.heap.withEnd (grownEnd s.heap nb) ∧
      t.pages.cr3 = s.pages.cr3 ∧ ∃ phys k, pmmAlloc (grownEnd s.heap nb - s.heap.endAddr) s.pages = some (phys, k) ∧
        t.pages.held = k.held ∧
        Vmm.Operated pmmFrames L s.pages.cr3 (PageIndex s.heap.endAddr (grownEnd s.heap nb)) k.vmm t.pages.vmm ∧
        ∀ v, entryAt t.pages.vmm d v = if PageIn s.heap.endAddr (grownEnd s.heap nb) v then
          some (Vmm.newEntry (pageNo s.heap.endAddr) (pageNo phys) (s.heap.perms ||| Heap.vmmPresent) v)
          else entryAt s.pages.vmm d v := by
  obtain ⟨hlt, hle, hheap, phys, k, halloc, hmap⟩ := Heap.expand_returned hb.geo hnb hrun
  obtain ⟨hframes, hcr3, -, -⟩ := pmmAlloc_taken halloc
  have hsame : ∀ b i, tableOf k.vmm b i = tableOf s.pages.vmm b i := fun b i =>
    Vmm.tableOf_congr (congrFun (congrFun hframes b) i)
  have hshare' : Shares k.vmm k.cr3 d (PageIn s.heap.endAddr (grownEnd s.heap nb)) := by
    rw [hcr3]
    simpa only [Shares, hsame] using hshare
  obtain ⟨halign, -⟩ := Heap.grownEnd_spec hb.geo nb
  obtain ⟨hback, hheld, hcr3', hop, hentry⟩ := (hb.pmmAlloc_spec halloc).map_spec hlt hle halign hshare'
    (perms_present _) hmap
  rw [hcr3] at hop
  refine ⟨hheap ▸ hback, hheap, hcr3'.trans hcr3, phys, k, halloc, hheld, hop, fun v => ?_⟩
  rw [hentry v]
  have hbefore : entryAt k.vmm d v = entryAt s.pages.vmm d v := by
    rw [entryAt, entryAt, hframes]
  rw [hbefore]

/-- A contraction takes no frame back. -/
theorem Backed.contract_spec {n m : ℕ} (hb : Backed L base d forks s.heap s.pages)
    (hrun : Heap.contract (kernelPaging L) n s = .ok m t) :
    Backed L base d forks t.heap t.pages ∧ t.heap = s.heap.withEnd (contractedEnd s.heap n) ∧
      contractedEnd s.heap n ≤ s.heap.endAddr ∧ t.pages.cr3 = s.pages.cr3 ∧ t.pages.held = s.pages.held ∧
      (∀ g, pmmFrames.taken s.pages.vmm.pmm g → pmmFrames.taken t.pages.vmm.pmm g) ∧
      (∃ u, Vmm.Operated pmmFrames L d (PageIndex (contractedEnd s.heap n) s.heap.endAddr) s.pages.vmm u ∧
        t.pages.vmm.frames = u.frames) ∧
      ∀ v, entryAt t.pages.vmm d v = if PageIn (contractedEnd s.heap n) s.heap.endAddr v then none
        else entryAt s.pages.vmm d v := by
  obtain ⟨halign, hmin, hle, hheap, k, hunmap, hlast⟩ := Heap.contract_returned hb.geo hrun
  have hclosed := hb.apart.closed
  rw [hb.own] at hunmap hlast
  rw [show (kernelPaging L).isMapped _ _ _ = isMapped L _ _ _ from rfl, isMapped_run hclosed] at hunmap
  obtain ⟨hback, hheld, hcr3', hop, hentry⟩ := hb.unmap_spec hle hmin halign hunmap
  have hquery := virtToPhys_run hback.apart.closed (contractedEnd s.heap n) d
  rw [show (kernelPaging L).virtToPhys _ _ _ = virtToPhys L _ _ _ from rfl, hquery] at hlast
  -- the frames and the owned ones are those after the pages were unmapped
  have hfinal : t.pages.vmm.frames = k.vmm.frames ∧ t.pages.cr3 = k.cr3 ∧ t.pages.held = k.held ∧
      ∀ g, pmmFrames.taken k.vmm.pmm g → pmmFrames.taken t.pages.vmm.pmm g := by
    rcases hlast with ⟨-, hpages⟩ | ⟨hne, hunalloc⟩
    · rw [hpages]
      exact ⟨rfl, rfl, rfl, fun _ hg => hg⟩
    · have hsize : s.heap.endAddr - contractedEnd s.heap n = 0 := by
        by_contra hpos
        have hend := hback.virtToPhys_end (show contractedEnd s.heap n < s.heap.maxAddr by
          have := hb.geo.end_le
          omega)
        rw [show (s.heap.withEnd (contractedEnd s.heap n)).endAddr = contractedEnd s.heap n from rfl,
          hquery] at hend
        exact hne (congrArg Prod.fst hend)
      rw [hsize] at hunalloc
      exact pmmUnalloc_zero hunalloc
  obtain ⟨hframes, hcr3, hheld', hkeep⟩ := hfinal
  refine ⟨hheap ▸ hback.of_frames hframes hcr3 hkeep, hheap, hle, hcr3.trans hcr3', hheld'.trans hheld,
    fun g hg => hkeep g (hop.within.taken g hg), ⟨k.vmm, hop, hframes⟩, fun v => ?_⟩
  rw [← hentry v, entryAt, entryAt, hframes]

/-- A new heap in pages that its directory does not map. -/
theorem backed_created {placementAddr start size max : ℕ} {perms : BitVec 16}
    (hapart : Apart pmmFrames L base ⟨s.pages.vmm, forks⟩)
    (hindex : SameIndex base ⟨s.pages.vmm, forks⟩)
    (hd : d ∈ base :: Spaces.forkDirs ⟨s.pages.vmm, forks⟩)
    (ha : s.pages.cr3 ∈ base :: Spaces.forkDirs ⟨s.pages.vmm, forks⟩)
    (hplace : placementAddr + 28 ≤ start) (hmin : Heap.heapMinSize ≤ size) (hmax : start + size ≤ max)
    (hlim : max ≤ 2147483648) (hfree : ∀ v, PageIn start max v → entryAt s.pages.vmm d v = none)
    (hrun : Heap.createHeap (kernelPaging L) placementAddr (pageAddr d).toNat start size max perms s =
      .ok () t) :
    Backed L base d forks t.heap t.pages ∧
      t.heap = ⟨start, start + size, max, (pageAddr d).toNat, perms, placementAddr + 20⟩ ∧
      t.pages.cr3 = s.pages.cr3 ∧ ∃ phys k, pmmAlloc size s.pages = some (phys, k) ∧ t.pages.held = k.held ∧
        (∀ g, pmmFrames.taken k.vmm.pmm g → pmmFrames.taken t.pages.vmm.pmm g) ∧
        ∀ v, entryAt t.pages.vmm d v = if PageIn start (start + size) v then
          some (Vmm.newEntry (pageNo start) (pageNo phys) (perms ||| Heap.vmmPresent) v)
          else entryAt s.pages.vmm d v := by
  obtain ⟨hgeo, hheap, phys, k, halloc, hmap⟩ := Heap.createHeap_returned hplace hmin hmax hlim hrun
  obtain ⟨hframes, hcr3, -, hkeep⟩ := pmmAlloc_taken halloc
  obtain ⟨⟨frames, pmm⟩, cr3, held⟩ := k
  obtain rfl : frames = s.pages.vmm.frames := hframes
  obtain rfl : cr3 = s.pages.cr3 := hcr3
  have hstart : start % 4096 = 0 := by
    have := hgeo.start_aligned
    rwa [hheap] at this
  have hend : (start + size) % 4096 = 0 := by
    have := hgeo.end_aligned
    rwa [hheap] at this
  have hcount : size / Heap.pageSize = (start + size - start) / 4096 := by
    rw [Nat.add_sub_cancel_left]
  have hfree' : ∀ v, PageIn start (start + size) v → entryAt s.pages.vmm d v = none := fun v hv =>
    hfree v ⟨hv.1, hv.2.trans_le hmax⟩
  rw [hcount] at hmap
  have hapart₁ : Apart pmmFrames L base ⟨⟨s.pages.vmm.frames, pmm⟩, forks⟩ := hapart.of_pmm hkeep
  have hindex₁ : SameIndex base ⟨⟨s.pages.vmm.frames, pmm⟩, forks⟩ := hindex
  obtain ⟨u, hpages, hop, hwindow, hentry⟩ := mapPages_spec (k := ⟨⟨s.pages.vmm.frames, pmm⟩, s.pages.cr3, held⟩)
    hapart₁ hindex₁ hd hd hstart hend (Nat.le_add_right _ _) (hmax.trans hlim) (Or.inl rfl) (perms_present _)
    hfree' hmap
  have hapart' := hapart₁.operated hd hop
  have hindex' := hindex₁.operated hapart₁ hd hop
  rw [hpages, hheap]
  refine ⟨⟨hheap ▸ hgeo, rfl, hapart', hindex', hd, ha, fun v hv => ?_, fun v hv => ?_, fun v hv => ?_⟩,
    rfl, rfl, phys, _, halloc, rfl, hop.within.taken, hentry⟩
  · rw [hentry v, if_pos hv]
    exact Option.some_ne_none _
  · rw [hentry v, if_neg fun hin => absurd hv.1 (Nat.not_le.mpr hin.2)]
    exact hfree v ⟨(Nat.le_add_right _ _).trans hv.1, hv.2⟩
  · rw [hwindow]
    exact not_window_of_unmapped hapart (hfree' v hv)

theorem entryAt_forked_of_ne {σ : Type} {A : Vmm.FrameAlloc σ} {vmm : Vmm.State σ} {b f : Frame} {pmm : σ}
    (hdir : Vmm.Directory A L vmm b) (halloc : A.alloc vmm.pmm = some (f, pmm)) (v : Frame) :
    entryAt (Vmm.forked vmm base f pmm) b v = entryAt vmm b v := by
  have hfresh := A.fresh halloc
  have hne : b ≠ f := hdir.ne_fresh halloc
  refine TwoLevel.lookup_congr (congrFun (Vmm.forked_of_ne pmm hne) _) fun g hg => ?_
  have hgf : g ≠ f := fun h => hfresh (h ▸ hdir.takenTables _ g hg)
  exact congrFun (Vmm.forked_of_ne pmm hgf) _

/-- A fork does not change what the heap's directory maps. -/
theorem Backed.fork_spec {newDir : BitVec 32} {vmm : Vmm.State PmmState}
    (hb : Backed L base d forks h k)
    (hrun : Vmm.vmmForkKernelSpace pmmFrames L base k.vmm = .ok newDir vmm) :
    Backed L base d ((pageOf newDir, k.vmm.frames base) :: forks) h { k with vmm := vmm } := by
  obtain ⟨f, pmm, halloc, rfl, rfl⟩ := hb.apart.fork_returned hrun
  have hdir := hb.apart.directory d hb.dir
  have hne : d ≠ f := hdir.ne_fresh halloc
  have hmore : ∀ b, b ∈ base :: Spaces.forkDirs ⟨k.vmm, forks⟩ →
      b ∈ base :: Spaces.forkDirs ⟨Vmm.forked k.vmm base f pmm, (f, k.vmm.frames base) :: forks⟩ := by
    intro b hb
    simp only [Spaces.forkDirs, List.map_cons, List.mem_cons] at hb ⊢
    tauto
  rw [Vmm.pageOf_pageAddr]
  refine ⟨hb.geo, hb.own, hb.apart.forked_spec halloc, hb.index.forked_spec f pmm, hmore _ hb.dir,
    hmore _ hb.active, fun v hv => ?_, fun v hv => ?_, fun v hv => ?_⟩
  · rw [entryAt_forked_of_ne hdir halloc]
    exact hb.full v hv
  · rw [entryAt_forked_of_ne hdir halloc]
    exact hb.empty v hv
  · rw [WindowPage, Vmm.tableOf_forked_of_ne pmm hne]
    exact hb.clear v hv

theorem Backed.step {w w' : World} {e : Event} (hb : Backed L base d w.forks w.heap w.kernel)
    (hshare : SharesGrowth L w e) (hstep : World.Step L base w e w') :
    Backed L base d w'.forks w'.heap w'.kernel := by
  cases hstep with
  | fork hrun => exact hb.fork_spec hrun
  | switch hd => exact ⟨hb.geo, hb.own, hb.apart, hb.index, hb.dir, hd, hb.full, hb.empty, hb.clear⟩
  | @call r r' forks c hcall =>
    refine hcall.keeps (I := fun h k => Backed L base d forks h k) hb (fun u nb v hu hback hrun => ?_)
      fun u n m v _ hback hrun => (hback.contract_spec hrun).1
    have hd : pageNo u.heap.cr3 = d := by rw [hback.own, pageNo_pageAddr]
    have hgrowth := hshare u nb hu
    rw [hd] at hgrowth
    exact (hback.expand_spec hu.lt hgrowth hrun).1

/-- Before the first fork the kernel's directory is active in every expansion of a call. -/
theorem Backed.grows {nb : ℕ} (hb : Backed L base base [] s.heap s.pages) (hnb : nb < 4294967296)
    (h : Heap.Grows (kernelPaging L) nb s t) : Backed L base base [] t.heap t.pages := by
  induction h with
  | now hfind => exact (Heap.findSmallestChunk_blind _).keeps (I := Backed L base base []) hfind hb
  | again hfind hgrow _ ih =>
    have hb' := (Heap.findSmallestChunk_blind _).keeps (I := Backed L base base []) hfind hb
    refine ih (Heap.growFor_keeps (I := Backed L base base []) (fun v hv => ?_) hgrow)
    have hactive := hb'.active
    exact (hb'.expand_spec hnb (Or.inl (by simpa [Spaces.forkDirs] using hactive)) hv).1

theorem Backed.sharesGrowth {r : Heap.Run Kernel} {c : Heap.Call}
    (hb : Backed L base base [] r.state.heap r.state.pages) : SharesGrowth L ⟨r, []⟩ (.call c) := by
  intro u nb hu
  have hb' : Backed L base base [] u.heap u.pages := by
    cases hu with
    | alloc hgrows => exact hb.grows (Heap.request2size_lt _) hgrows
    | palignedAlloc hgrows => exact hb.grows (Heap.request2size_lt _) hgrows
  have hactive : u.pages.cr3 = base := by simpa [Spaces.forkDirs] using hb'.active
  exact Or.inl (by rw [hb'.own, pageNo_pageAddr, hactive])

end Steps

/-! ### The kernel heap and a fork -/

/-- A kernel after setup: its directory maps the first four megabytes, and the pages from
eight megabytes on are free. -/
structure SetUp (boot : Vmm.State PmmState) : Prop where
  kernel : KernelDirectory pmmFrames smallLayout boot 0x110
  tables : ∀ i, i ≠ 0 → tableOf boot 0x110 i = none
  free : FreeFrom boot.pmm.1 0x800 0x1800

theorem exists_setUp : ∃ boot, SetUp boot := by
  have hfree := Pmm.freeFrom_setup (show 0x800000 % 4096 = 0 by decide) (show 0x1000000 % 4096 = 0 by decide)
    (by decide) (by rw [Pmm.bitmapMaxPage_eq]; decide) ⟨fun _ => 0, 0, 0, 0⟩
  generalize Pmm.pmmMemorySetup [⟨0x800000, 0x1000000, Pmm.memoryAvailable⟩] ⟨fun _ => 0, 0, 0, 0⟩ = pmm at hfree
  have hpmm : Pmm.IsUsed pmm 0 := hfree.used 0 (by decide)
  refine ⟨⟨Vmm.setupFrames smallLayout 0x110 fun _ _ => 0, ⟨pmm, hpmm⟩⟩, ?_, fun i hi => ?_, hfree⟩
  · exact Vmm.setup_kernelDirectory _ _ (by decide) (by decide) (by decide) (hfree.used 0x110 (by decide))
      (hfree.used 0x111 (by decide))
  · exact (Vmm.tableOf_setup (L := smallLayout) (fun _ _ => 0) _ (by decide) i).trans (if_neg hi)

def createAnswers : List (Request × ℕ) :=
  [(.pmmAlloc 0x100000, 0x800000), (.vmmMapPages 0x800000 0x1000000 0x110000 256 3, 0)]

/-- The first free page is `n`. -/
def growAnswers (n : ℕ) : List (Request × ℕ) :=
  [(.pmmAlloc 0x401000, n * 4096), (.vmmMap (n * 4096) 0x1100000 1025 3, 0)]

/-- The kernel heap on these answers. -/
theorem heap_on_answers {n : ℕ} (hn : n = 0x901 ∨ n = 0x902) : ∃ a b : Heap.State (List (Request × ℕ)),
    Heap.createHeap answerPaging 0x120000 0x110000 0x1000000 0x100000 0x2000000 2
      ⟨fun _ => 0, ⟨0, 0, 0, 0, 0, 0⟩, createAnswers, []⟩ = .ok () a ∧ a.pages = [] ∧
    Heap.alloc answerPaging 0x400000 (a.withPages (growAnswers n)) = .ok 0x1000008 b ∧ b.pages = [] ∧
    b.heap.startAddr = 0x1000000 ∧ b.heap.endAddr = 0x1501000 ∧ b.heap.cr3 = 0x110000 := by
  rcases hn with rfl | rfl
  · exact ⟨_, _, ok_of_returned (by decide +kernel), by decide +kernel, ok_of_returned (by decide +kernel),
      by decide +kernel, by decide +kernel, by decide +kernel, by decide +kernel⟩
  · exact ⟨_, _, ok_of_returned (by decide +kernel), by decide +kernel, ok_of_returned (by decide +kernel),
      by decide +kernel, by decide +kernel, by decide +kernel, by decide +kernel⟩

theorem SetUp.unmapped {boot : Vmm.State PmmState} (h : SetUp boot) {v : Frame}
    (hv : 0x1000000 ≤ v.toNat * 4096) : entryAt boot 0x110 v = none := by
  refine TwoLevel.lookup_of_none (h.tables _ fun hzero => ?_)
  have hindex := congrArg BitVec.toNat hzero
  rw [toNat_split] at hindex
  simp at hindex
  omega

/-- After frames were allocated and mapped in the directory `a`. -/
structure Given (L : Layout) (base a : Frame) (forks : List (Frame × (Index → Entry))) (lo hi : ℕ)
    (k k' : Kernel) : Prop where
  cr3 : k'.cr3 = k.cr3
  apart : Apart pmmFrames L base ⟨k'.vmm, forks⟩
  other : ∀ b ∈ base :: Spaces.forkDirs ⟨k.vmm, forks⟩, b ≠ a → k'.vmm.frames b = k.vmm.frames b
  table : ∀ i, ¬PageIndex lo hi i → tableOf k'.vmm a i = tableOf k.vmm a i
  mapped : ∀ v, PageIn lo hi v → entryAt k'.vmm a v ≠ none ∧ ¬WindowPage L k'.vmm a v

/-- Frames are allocated and mapped at pages that lack one table. -/
theorem pages_given {L : Layout} {base a : Frame} {forks : List (Frame × (Index → Entry))} {k : Kernel}
    {n m : ℕ} (i : Index) (lo hi : ℕ) (perms : BitVec 16) (hapart : Apart pmmFrames L base ⟨k.vmm, forks⟩)
    (hsame : SameIndex base ⟨k.vmm, forks⟩) (ha : a ∈ base :: Spaces.forkDirs ⟨k.vmm, forks⟩)
    (hlo : lo % 4096 = 0) (hhi : hi % 4096 = 0) (hlt : lo < hi) (hlim : hi ≤ 2147483648)
    (hperms : perms.getLsbD 0 = true) (hfree : ∀ v, PageIn lo hi v → entryAt k.vmm a v = none)
    (hindex : ∀ v, PageIn lo hi v → (Vmm.split v).1 = i ∨ tableOf k.vmm a (Vmm.split v).1 ≠ none)
    (hmissing : tableOf k.vmm a i = none) (hpage : PageIndex lo hi i)
    (hframes : FreeFrom k.vmm.pmm.1 n m) (hfit : n + (hi - lo) / 4096 < m) :
    ∃ k₁ k₂, pmmAlloc (hi - lo) k = some (n * 4096, k₁) ∧ k₁.cr3 = k.cr3 ∧
      vmmMapPages L (n * 4096) lo (pageAddr a).toNat ((hi - lo) / 4096) perms k₁ = some k₂ ∧
      Given L base a forks lo hi k k₂ ∧ FreeFrom k₂.vmm.pmm.1 (n + (hi - lo) / 4096 + 1) m := by
  have hcount := pageCount_aligned (show (hi - lo) % 4096 = 0 by omega) (by omega)
  obtain ⟨k₁, halloc, hfirst⟩ := pmmAlloc_first hframes (show 0 < Pmm.pageCount (hi - lo) by omega) (by omega)
  obtain ⟨hframes₁, hcr3, -, hkeep⟩ := pmmAlloc_taken halloc
  obtain ⟨⟨frames, pmm⟩, cr3, held⟩ := k₁
  obtain rfl : frames = k.vmm.frames := hframes₁
  obtain rfl : cr3 = k.cr3 := hcr3
  have hapart' : Apart pmmFrames L base ⟨⟨k.vmm.frames, pmm⟩, forks⟩ := hapart.of_pmm hkeep
  rw [hcount] at hfirst
  obtain ⟨t, hmap, hlast⟩ := vmmMapPages_first (k := ⟨⟨k.vmm.frames, pmm⟩, k.cr3, held⟩) (n * 4096) perms
    (hapart'.directory a ha) hapart'.closed hlo hhi hlt.le hlim hperms hfree hindex hmissing hpage hfirst hfit
  obtain ⟨u, hu, hop, hwindow, hentry⟩ := mapPages_spec (k := ⟨⟨k.vmm.frames, pmm⟩, k.cr3, held⟩)
    hapart' hsame ha ha hlo hhi hlt.le hlim (Or.inl rfl) hperms hfree hmap
  cases hu
  refine ⟨_, _, halloc, rfl, hmap, ⟨rfl, hapart'.operated ha hop, fun b hb hne => hapart'.other ha hb hne hop,
    fun j hj => ?_, fun v hv => ⟨?_, ?_⟩⟩, hlast⟩
  · exact (hop.within.table j).resolve_right fun hnew => hj hnew.1
  · rw [hentry v, if_pos hv]
    exact Option.some_ne_none _
  · rw [hwindow]
    exact not_window_of_unmapped hapart (hfree v hv)

theorem createAnswers_given {boot : Vmm.State PmmState} (h : SetUp boot) :
    ∃ k, Answers smallLayout ⟨boot, 0x110, []⟩ createAnswers k ∧ k.cr3 = 0x110 ∧
      tableOf k.vmm 0x110 5 = none ∧ FreeFrom k.vmm.pmm.1 0x901 0x1800 := by
  obtain ⟨k₁, k₂, halloc, -, hmap, hgiven, hfree⟩ := pages_given (k := ⟨boot, 0x110, []⟩) 4
    0x1000000 0x1100000 3 h.kernel.apart h.kernel.sameIndex List.mem_cons_self
    (by decide) (by decide) (by decide) (by decide) (by decide) (fun v hv => h.unmapped hv.1)
    (fun v hv => Or.inl (index_eq 4 hv (by decide) (by decide))) (h.tables 4 (by decide))
    ⟨0x1000, by decide, by decide⟩ h.free (by decide)
  refine ⟨k₂, .cons halloc (.cons ?_ .nil), hgiven.cr3, ?_, hfree⟩
  · exact Option.map_eq_some_iff.mpr ⟨k₂, hmap, rfl⟩
  · refine (hgiven.table 5 ?_).trans (h.tables 5 (by decide))
    rintro ⟨v, hv, hi⟩
    rw [index_eq 4 hv (by decide) (by decide)] at hi
    revert hi
    decide

def emptyMemory (k : Kernel) : Heap.State Kernel := ⟨fun _ => 0, ⟨0, 0, 0, 0, 0, 0⟩, k, []⟩

/-- The kernel heap is created. -/
theorem created_kernel_heap {boot : Vmm.State PmmState} (h : SetUp boot) {a : Heap.State (List (Request × ℕ))}
    (hnew : Heap.createHeap answerPaging 0x120000 0x110000 0x1000000 0x100000 0x2000000 2
      ⟨fun _ => 0, ⟨0, 0, 0, 0, 0, 0⟩, createAnswers, []⟩ = .ok () a) (hdone : a.pages = []) :
    ∃ k, Heap.createHeap (kernelPaging smallLayout) 0x120000 (pageAddr 0x110).toNat 0x1000000 0x100000 0x2000000 2
        (emptyMemory ⟨boot, 0x110, []⟩) = .ok () (a.withPages k) ∧
      Backed smallLayout 0x110 0x110 [] a.heap k ∧
      a.heap = ⟨0x1000000, 0x1100000, 0x2000000, (pageAddr 0x110).toNat, 2, 0x120014⟩ ∧
      tableOf k.vmm 0x110 5 = none ∧ FreeFrom k.vmm.pmm.1 0x901 0x1800 := by
  obtain ⟨k, hanswers, hcr3, hfive, hfree⟩ := createAnswers_given h
  have hcreate := hanswers.replay (s := ⟨fun _ => 0, ⟨0, 0, 0, 0, 0, 0⟩, createAnswers, []⟩)
    ((answers_simulate smallLayout k).createHeap 0x120000 0x110000 0x1000000 0x100000 0x2000000 2) hnew hdone
  obtain ⟨hback, hheap, -⟩ := backed_created
    (s := emptyMemory ⟨boot, 0x110, []⟩) h.kernel.apart h.kernel.sameIndex List.mem_cons_self List.mem_cons_self
    (by decide) (by decide) (by decide) (by decide) (fun v hv => h.unmapped hv.1) hcreate
  exact ⟨k, hcreate, hback, hheap, hfive, hfree⟩

/-- The table for the pages from five times four megabytes on is missing where the heap ends. -/
theorem grow_index {k : Kernel} {a : Frame} (hfour : tableOf k.vmm a 4 ≠ none) (v : Frame)
    (hv : PageIn 0x1100000 0x1501000 v) : (Vmm.split v).1 = 5 ∨ tableOf k.vmm a (Vmm.split v).1 ≠ none := by
  by_cases hlow : v.toNat * 4096 < 0x1400000
  · rw [index_eq 4 (b := 0x1400000) ⟨hv.1, hlow⟩ (by decide) (by decide)]
    exact Or.inr hfour
  · exact Or.inl (index_eq 5 (a := 0x1400000) ⟨Nat.not_lt.mp hlow, hv.2⟩ (by decide) (by decide))

/-- A block of four megabytes is allocated while `a` is active, which has the first of the two
tables for the new pages. -/
theorem alloc_grown {newHeap grownHeap : Heap.State (List (Request × ℕ))} {k : Kernel} {n : ℕ}
    {forks : List (Frame × (Index → Entry))}
    (hgrown : Heap.alloc answerPaging 0x400000 (newHeap.withPages (growAnswers n)) = .ok 0x1000008 grownHeap)
    (hdone : grownHeap.pages = []) (hapart : Apart pmmFrames smallLayout 0x110 ⟨k.vmm, forks⟩)
    (hindex : SameIndex 0x110 ⟨k.vmm, forks⟩) (hactive : k.cr3 ∈ 0x110 :: Spaces.forkDirs ⟨k.vmm, forks⟩)
    (hfour : tableOf k.vmm k.cr3 4 ≠ none) (hfive : tableOf k.vmm k.cr3 5 = none)
    (hempty : ∀ v, PageIn 0x1100000 0x1501000 v → entryAt k.vmm k.cr3 v = none)
    (hfree : FreeFrom k.vmm.pmm.1 n 0x1800) (hfit : n + 1025 < 0x1800) :
    ∃ k', Heap.alloc (kernelPaging smallLayout) 0x400000 (newHeap.withPages k) =
        .ok 0x1000008 (grownHeap.withPages k') ∧
      Given smallLayout 0x110 k.cr3 forks 0x1100000 0x1501000 k k' ∧
      FreeFrom k'.vmm.pmm.1 (n + 1025 + 1) 0x1800 := by
  obtain ⟨k₁, k₂, hpmm, hcr3, hmap, hgiven, hlast⟩ := pages_given 5 0x1100000 0x1501000 3 hapart hindex
    hactive (by decide) (by decide) (by decide) (by decide) (by decide) hempty (grow_index hfour) hfive
    ⟨0x1400, by decide, by decide⟩ hfree hfit
  have hanswers : Answers smallLayout k (growAnswers n) k₂ := by
    refine .cons hpmm (.cons (Option.map_eq_some_iff.mpr ⟨k₂, ?_, rfl⟩) .nil)
    rw [vmmMap, hcr3]
    exact hmap
  exact ⟨k₂, hanswers.replay (s := newHeap.withPages (growAnswers n))
    ((answers_simulate smallLayout k₂).alloc 0x400000) hgrown hdone, hgiven, hlast⟩

/-- The new heap has the first table, and nothing is mapped behind it. -/
theorem Backed.to_grow {k : Kernel} {h : HeapT} (hback : Backed smallLayout 0x110 0x110 [] h k)
    (hstart : h = ⟨0x1000000, 0x1100000, 0x2000000, (pageAddr 0x110).toNat, 2, 0x120014⟩) :
    tableOf k.vmm 0x110 4 ≠ none ∧ ∀ v, PageIn 0x1100000 0x1501000 v → entryAt k.vmm 0x110 v = none := by
  subst hstart
  refine ⟨fun hnone => ?_, fun v hv => hback.empty v ⟨hv.1, hv.2.trans (by decide)⟩⟩
  exact hback.full 0x1000 (by decide) (TwoLevel.lookup_of_none hnone)

/-- The kernel heap is created, the directory is forked, and a block of four megabytes is
allocated under the fork. -/
theorem grown_in_fork {boot : Vmm.State PmmState} (h : SetUp boot) : ∃ t w,
    Heap.createHeap (kernelPaging smallLayout) 0x120000 (pageAddr 0x110).toNat 0x1000000 0x100000 0x2000000 2
      (emptyMemory ⟨boot, 0x110, []⟩) = .ok () t ∧
    Reaches (fun a b => ∃ e, World.Step smallLayout 0x110 a e b) ⟨⟨t, []⟩, []⟩ w ∧
    (w.heap.startAddr = 0x1000000 ∧ w.heap.endAddr = 0x1501000 ∧ w.heap.cr3 = 0x110000) ∧
    Apart pmmFrames smallLayout 0x110 w.spaces ∧ 0x901 ∈ w.spaces.forkDirs ∧
    entryAt w.kernel.vmm 0x110 0x1400 = none ∧
    entryAt w.kernel.vmm 0x901 0x1400 ≠ none ∧ ¬WindowPage smallLayout w.kernel.vmm 0x901 0x1400 := by
  obtain ⟨newHeap, grownHeap, hnew, hnewPages, hgrown, hgrownPages, hend⟩ := heap_on_answers (n := 0x902) (.inr rfl)
  obtain ⟨k, hcreate, hback, hstart, hfive, hfree⟩ := created_kernel_heap h hnew hnewPages
  obtain ⟨hfour, hempty⟩ := hback.to_grow hstart
  -- the fork has the tables of the kernel's directory
  obtain ⟨pmm, halloc, hfree'⟩ := alloc_first hfree (by decide)
  have hfork := hback.apart.fork_ok halloc
  have hback' := hback.fork_spec hfork
  have hdir := hback.apart.directory 0x110 List.mem_cons_self
  have hsame : ∀ v, entryAt (Vmm.forked k.vmm 0x110 0x901 pmm) 0x901 v = entryAt k.vmm 0x110 v := fun v =>
    (Vmm.entryAt_forked hdir halloc v).trans (entryAt_forked_of_ne hdir halloc v)
  have hmem : (0x901 : Frame) ∈ Spaces.forkDirs ⟨Vmm.forked k.vmm 0x110 0x901 pmm, [(0x901, k.vmm.frames 0x110)]⟩ :=
    List.mem_singleton.mpr rfl
  obtain ⟨k₂, hcall, hgiven, -⟩ := alloc_grown (k := ⟨Vmm.forked k.vmm 0x110 0x901 pmm, 0x901, k.held⟩) hgrown
    hgrownPages hback'.apart hback'.index (List.mem_cons_of_mem _ hmem)
    (fun hnone => hfour ((Vmm.tableOf_forked _ pmm 4).symm.trans hnone)) ((Vmm.tableOf_forked _ pmm 5).trans hfive)
    (fun v hv => (hsame v).trans (hempty v hv)) hfree' (by decide)
  have hrun : Reaches (fun a b => ∃ e, World.Step smallLayout 0x110 a e b) ⟨⟨newHeap.withPages k, []⟩, []⟩
      ⟨⟨grownHeap.withPages k₂, [⟨0x1000008, 0x400000⟩]⟩, [(0x901, k.vmm.frames 0x110)]⟩ := by
    refine ((Relation.ReflTransGen.single ⟨.fork, .fork hfork⟩).tail ⟨.switch 0x901, .switch ?_⟩).tail
      ⟨.call (.alloc 0x400000), .call (.alloc (by decide) hcall)⟩
    exact List.mem_cons_of_mem _ hmem
  have hnone : entryAt k₂.vmm 0x110 0x1400 = none := by
    refine TwoLevel.lookup_of_none ?_
    have hbase := hgiven.other 0x110 List.mem_cons_self (show (0x110 : Frame) ≠ 0x901 by decide)
    refine (Vmm.tableOf_congr (congrFun hbase _)).trans ?_
    refine (Vmm.tableOf_forked_of_ne pmm (by decide) _).trans hfive
  exact ⟨_, _, hcreate, hrun, hend, hgiven.apart, hmem, hnone, hgiven.mapped 0x1400 (by decide)⟩

/-- The kernel heap is created, and grows by a block of four megabytes before the directory is forked. -/
theorem grown_before_fork {boot : Vmm.State PmmState} (h : SetUp boot) : ∃ (t : Heap.State Kernel)
    (u : Heap.State (List (Request × ℕ))) (k : Kernel),
    Heap.createHeap (kernelPaging smallLayout) 0x120000 (pageAddr 0x110).toNat 0x1000000 0x100000 0x2000000 2
      (emptyMemory ⟨boot, 0x110, []⟩) = .ok () t ∧
    Backed smallLayout 0x110 0x110 [] t.heap t.pages ∧
    World.Step smallLayout 0x110 ⟨⟨t, []⟩, []⟩ (.call (.alloc 0x400000))
      ⟨⟨u.withPages k, [⟨0x1000008, 0x400000⟩]⟩, []⟩ ∧
    u.heap.endAddr = 0x1501000 ∧ FreeFrom k.vmm.pmm.1 0xD03 0x1800 := by
  obtain ⟨newHeap, grownHeap, hnew, hnewPages, hgrown, hgrownPages, -, hend, -⟩ :=
    heap_on_answers (n := 0x901) (.inl rfl)
  obtain ⟨k, hcreate, hback, hstart, hfive, hfree⟩ := created_kernel_heap h hnew hnewPages
  obtain ⟨hfour, hempty⟩ := hback.to_grow hstart
  have hactive : k.cr3 = 0x110 := by simpa [Spaces.forkDirs] using hback.active
  obtain ⟨k', hcall, -, hfree'⟩ := alloc_grown hgrown hgrownPages hback.apart hback.index hback.active
    (hactive ▸ hfour) (hactive ▸ hfive) (hactive ▸ hempty) hfree (by decide)
  exact ⟨_, grownHeap, k', hcreate, hback, .call (.alloc (by decide) hcall), hend, hfree'⟩

/-! ### Every run -/

/-- For every heap whose pages its directory did not map before, in every run in which all
expansions meet the active directory's own tables or the shared ones: after each call every
page of the heap is mapped in its directory, and no page between its end and its limit is. -/
theorem heap_fully_mapped {L : Layout} {base d : Frame} {boot : Vmm.State PmmState} {x : Spaces PmmState}
    {s t : Heap.State Kernel} {placementAddr start size max : ℕ} {perms : BitVec 16} {w : World}
    (hboot : KernelDirectory pmmFrames L boot base)
    (hx : Reaches (Vmm.Step pmmFrames L base) ⟨boot, []⟩ x) (hd : d ∈ base :: x.forkDirs)
    (hpages : s.pages.vmm = x.vmm) (ha : s.pages.cr3 ∈ base :: x.forkDirs)
    (hplace : placementAddr + 28 ≤ start) (hmin : Heap.heapMinSize ≤ size) (hmax : start + size ≤ max)
    (hlim : max ≤ 2147483648) (hfree : ∀ v, PageIn start max v → entryAt x.vmm d v = none)
    (hcreate : Heap.createHeap (kernelPaging L) placementAddr (pageAddr d).toNat start size max perms s =
      .ok () t)
    (hrun : Reaches (fun a b => ∃ e, SharesGrowth L a e ∧ World.Step L base a e b) ⟨⟨t, []⟩, x.forks⟩ w) :
    FullyMapped w.heap w.kernel := by
  obtain ⟨hapart, hindex⟩ := hboot.reaches hx
  have hspaces : (⟨s.pages.vmm, x.forks⟩ : Spaces PmmState) = x := by rw [hpages]
  have hcreated := (backed_created (hspaces.symm ▸ hapart) (hspaces.symm ▸ hindex) (hspaces.symm ▸ hd)
    (hspaces.symm ▸ ha) hplace hmin hmax hlim (hpages.symm ▸ hfree) hcreate).1
  have hback : Backed L base d w.forks w.heap w.kernel := by
    refine hrun.invariant (fun w => Backed L base d w.forks w.heap w.kernel) ?_ hcreated
    rintro a b hb ⟨e, hshare, hstep⟩
    exact hb.step hshare hstep
  exact hback.fullyMapped

/-- The kernel heap stays mapped while it grows, its directory is forked and the fork made active. -/
theorem heap_fully_mapped_fork : ∃ (boot : Vmm.State PmmState) (t : Heap.State Kernel) (w : World),
    Heap.createHeap (kernelPaging smallLayout) 0x120000 (pageAddr 0x110).toNat 0x1000000 0x100000 0x2000000 2
      (emptyMemory ⟨boot, 0x110, []⟩) = .ok () t ∧
    w.kernel.cr3 = 0xD03 ∧ w.heap.endAddr = 0x1501000 ∧ FullyMapped w.heap w.kernel := by
  obtain ⟨boot, hboot⟩ := exists_setUp
  obtain ⟨t, u, k, hcreate, hback, hcall, hend, hfree⟩ := grown_before_fork hboot
  have hshare : SharesGrowth smallLayout ⟨⟨t, []⟩, []⟩ (.call (.alloc 0x400000)) := hback.sharesGrowth
  obtain ⟨pmm, halloc, -⟩ := alloc_first hfree (by decide)
  have hgrown := hback.step hshare hcall
  have hrun : Reaches (fun a b => ∃ e, SharesGrowth smallLayout a e ∧ World.Step smallLayout 0x110 a e b)
      ⟨⟨t, []⟩, []⟩ ⟨⟨u.withPages ⟨Vmm.forked k.vmm 0x110 0xD03 pmm, 0xD03, k.held⟩, [⟨0x1000008, 0x400000⟩]⟩,
        [(0xD03, k.vmm.frames 0x110)]⟩ := by
    refine ((Relation.ReflTransGen.single ⟨_, hshare, hcall⟩).tail
      ⟨.fork, trivial, .fork (hgrown.apart.fork_ok halloc)⟩).tail ⟨.switch 0xD03, trivial, .switch ?_⟩
    exact List.mem_cons_of_mem _ (List.mem_singleton.mpr rfl)
  have hfull := heap_fully_mapped hboot.kernel .refl List.mem_cons_self rfl List.mem_cons_self (by decide)
    (by decide) (by decide) (by decide) (fun v hv => hboot.unmapped hv.1) hcreate hrun
  refine ⟨boot, t, _, hcreate, ?_, ?_, hfull⟩
  · rfl
  · exact hend

/-- The new pages are not in the directory of the heap. -/
theorem heap_unmapped_after_fork : ∃ (boot : Vmm.State PmmState) (t : Heap.State Kernel) (w : World),
    KernelDirectory pmmFrames smallLayout boot 0x110 ∧
    (∀ v, PageIn 0x1000000 0x2000000 v → entryAt boot 0x110 v = none) ∧
    Heap.createHeap (kernelPaging smallLayout) 0x120000 (pageAddr 0x110).toNat 0x1000000 0x100000 0x2000000 2
      (emptyMemory ⟨boot, 0x110, []⟩) = .ok () t ∧
    Reaches (fun a b => ∃ e, World.Step smallLayout 0x110 a e b) ⟨⟨t, []⟩, []⟩ w ∧
    ¬FullyMapped w.heap w.kernel := by
  obtain ⟨boot, hboot⟩ := exists_setUp
  obtain ⟨t, w, hcreate, hrun, ⟨hstart, hend, hcr3⟩, -, -, hnone, -⟩ := grown_in_fork hboot
  refine ⟨boot, t, w, hboot.kernel, fun v hv => hboot.unmapped hv.1, hcreate, hrun, fun hfull => ?_⟩
  refine hfull.1 0x1400 ?_ ?_
  · rw [hstart, hend]
    decide
  · rw [hcr3]
    exact hnone

end JustKernel.Mm
