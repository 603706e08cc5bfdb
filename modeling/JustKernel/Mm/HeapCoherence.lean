import JustKernel.Mm.HeapMapped

/-! The kernel heap in all directories. A fork names the tables of the kernel's directory as
they are at the fork, so the heap looks the same everywhere while all directories name the
same tables. Growth into a table that the kernel's directory does not have yet gives the new
table to the active directory alone. Before the first fork that is the only directory; after
it, growth has to stay within the tables that are there. -/

namespace JustKernel.Mm

open Heap (HeapT grownEnd contractedEnd Expands)
open Vmm (Frame Index Entry Layout pmmFrames pageOf pageAddr entryAt tableOf WindowPage Spaces Shares Apart
  KernelDirectory smallLayout)
open Runs

/-- All directories translate the addresses of the heap as the kernel's directory does. -/
def Coherent (L : Layout) (base : Frame) (w : World) : Prop :=
  ∀ d ∈ base :: w.spaces.forkDirs, ∀ virt : BitVec 32, w.heap.startAddr ≤ virt.toNat →
    virt.toNat < w.heap.endAddr →
    (Vmm.virtToPhys L virt (pageAddr d) w.kernel.vmm).1 =
      (Vmm.virtToPhys L virt (pageAddr base) w.kernel.vmm).1

/-- Whenever the call expands the heap, nothing has been forked, or the kernel's directory has
the tables of the new pages. -/
def GrowsInTables (L : Layout) (base : Frame) (w : World) : Event → Prop
  | .call c => ∀ u nb, Expands (kernelPaging L) w.run.state c u nb → w.forks = [] ∨
      ∀ v, PageIn u.heap.endAddr (grownEnd u.heap nb) v → tableOf u.pages.vmm base (Vmm.split v).1 ≠ none
  | _ => True

/-- The kernel heap is mapped, and all directories name the same tables. -/
structure Uniform (L : Layout) (base : Frame) (forks : List (Frame × (Index → Entry))) (h : HeapT)
    (k : Kernel) : Prop where
  backed : Backed L base base forks h k
  tables : ∀ d ∈ base :: Spaces.forkDirs ⟨k.vmm, forks⟩, ∀ i, tableOf k.vmm d i = tableOf k.vmm base i

section Steps

variable {L : Layout} {base d : Frame} {forks : List (Frame × (Index → Entry))} {h : HeapT} {k k' : Kernel}

/-- An operation at indices that have a table adds none. -/
theorem tableOf_operated {I : Index → Prop} {a : Frame} {t : Vmm.State PmmState}
    (hapart : Apart pmmFrames L base ⟨k.vmm, forks⟩) (ha : a ∈ base :: Spaces.forkDirs ⟨k.vmm, forks⟩)
    (hop : Vmm.Operated pmmFrames L a I k.vmm t) (hI : ∀ i, I i → tableOf k.vmm a i ≠ none)
    (hd : d ∈ base :: Spaces.forkDirs ⟨k.vmm, forks⟩) (i : Index) : tableOf t d i = tableOf k.vmm d i := by
  by_cases hda : d = a
  · subst hda
    exact (hop.within.table i).resolve_right fun hnew => hI i hnew.1 hnew.2.1
  · exact Vmm.tableOf_congr (congrFun (hapart.other ha hd hda hop) i)

theorem Uniform.fork_spec {newDir : BitVec 32} {vmm : Vmm.State PmmState} (hu : Uniform L base forks h k)
    (hrun : Vmm.vmmForkKernelSpace pmmFrames L base k.vmm = .ok newDir vmm) :
    Uniform L base ((pageOf newDir, k.vmm.frames base) :: forks) h { k with vmm := vmm } := by
  refine ⟨hu.backed.fork_spec hrun, ?_⟩
  obtain ⟨f, pmm, halloc, rfl, rfl⟩ := hu.backed.apart.fork_returned hrun
  have hfresh : ∀ d ∈ base :: Spaces.forkDirs ⟨k.vmm, forks⟩, d ≠ f := fun d hd =>
    (hu.backed.apart.directory d hd).ne_fresh halloc
  have hbase : ∀ i, tableOf (Vmm.forked k.vmm base f pmm) base i = tableOf k.vmm base i :=
    Vmm.tableOf_forked_of_ne pmm (hfresh base List.mem_cons_self)
  intro d hd i
  rw [Vmm.pageOf_pageAddr] at hd
  show tableOf (Vmm.forked k.vmm base f pmm) d i = tableOf (Vmm.forked k.vmm base f pmm) base i
  rw [hbase i]
  by_cases hdf : d = f
  · subst hdf
    exact Vmm.tableOf_forked d pmm i
  · have hd' : d ∈ base :: Spaces.forkDirs ⟨k.vmm, forks⟩ := by
      simp only [Spaces.forkDirs, List.map_cons, List.mem_cons] at hd ⊢
      tauto
    exact (Vmm.tableOf_forked_of_ne pmm hdf i).trans (hu.tables d hd' i)

variable {s t : Heap.State Kernel}

theorem Uniform.expand_spec {nb : ℕ} (hu : Uniform L base forks s.heap s.pages) (hnb : nb < 4294967296)
    (hgrow : forks = [] ∨ ∀ v, PageIn s.heap.endAddr (grownEnd s.heap nb) v →
      tableOf s.pages.vmm base (Vmm.split v).1 ≠ none)
    (hrun : Heap.expand (kernelPaging L)
      (Heap.add32 (Heap.sub32 s.heap.endAddr s.heap.startAddr) nb) s = .ok () t) :
    Uniform L base forks t.heap t.pages := by
  have hactive := hu.backed.active
  rcases hgrow with rfl | htables
  · -- the kernel's directory is the only one
    have hbase : s.pages.cr3 = base := by simpa [Spaces.forkDirs] using hactive
    refine ⟨(hu.backed.expand_spec hnb (Or.inl hbase) hrun).1, fun d hd i => ?_⟩
    obtain rfl : d = base := by simpa [Spaces.forkDirs] using hd
    rfl
  · have hshare : Shares s.pages.vmm s.pages.cr3 base (PageIn s.heap.endAddr (grownEnd s.heap nb)) := by
      refine Or.inr fun v hv => ?_
      obtain ⟨f, hf⟩ := Option.ne_none_iff_exists'.mp (htables v hv)
      exact ⟨f, (hu.tables _ hactive _).trans hf, hf⟩
    obtain ⟨hback, -, -, phys, k, halloc, -, hop, -⟩ := hu.backed.expand_spec hnb hshare hrun
    obtain ⟨hframes, -, -, hkeep⟩ := pmmAlloc_taken halloc
    have hbefore : ∀ d i, tableOf k.vmm d i = tableOf s.pages.vmm d i := fun d i =>
      Vmm.tableOf_congr (congrFun (congrFun hframes d) i)
    have hafter : ∀ d ∈ base :: Spaces.forkDirs ⟨s.pages.vmm, forks⟩, ∀ i,
        tableOf t.pages.vmm d i = tableOf s.pages.vmm d i := by
      intro d hd i
      refine (tableOf_operated (hu.backed.pmmAlloc_spec halloc).apart hactive hop ?_ hd i).trans (hbefore d i)
      rintro j ⟨v, hv, rfl⟩
      rw [hbefore, hu.tables _ hactive]
      exact htables v hv
    refine ⟨hback, fun d hd i => ?_⟩
    rw [hafter d hd, hafter base List.mem_cons_self]
    exact hu.tables d hd i

theorem Uniform.contract_spec {n m : ℕ} (hu : Uniform L base forks s.heap s.pages)
    (hrun : Heap.contract (kernelPaging L) n s = .ok m t) : Uniform L base forks t.heap t.pages := by
  obtain ⟨hback, hheap, -, -, -, -, ⟨u, hop, hframes⟩, -⟩ := hu.backed.contract_spec hrun
  have hmin : s.heap.startAddr ≤ contractedEnd s.heap n := by
    have := hback.geo.min_le
    rw [hheap] at this
    exact (Nat.le_add_right _ _).trans this
  -- the pages to be unmapped are mapped, so their tables are there
  have hafter : ∀ d ∈ base :: Spaces.forkDirs ⟨s.pages.vmm, forks⟩, ∀ i,
      tableOf t.pages.vmm d i = tableOf s.pages.vmm d i := by
    intro d hd i
    refine (Vmm.tableOf_congr (congrFun (congrFun hframes d) i)).trans
      (tableOf_operated hu.backed.apart List.mem_cons_self hop ?_ hd i)
    rintro j ⟨v, hv, rfl⟩ hnone
    exact hu.backed.full v ⟨hmin.trans hv.1, hv.2⟩ (TwoLevel.lookup_of_none hnone)
  refine ⟨hback, fun d hd i => ?_⟩
  rw [hafter d hd, hafter base List.mem_cons_self]
  exact hu.tables d hd i

theorem Uniform.step {w w' : World} {e : Event} (hu : Uniform L base w.forks w.heap w.kernel)
    (hgrow : GrowsInTables L base w e) (hstep : World.Step L base w e w') :
    Uniform L base w'.forks w'.heap w'.kernel := by
  cases hstep with
  | fork hrun => exact hu.fork_spec hrun
  | switch hd =>
    obtain ⟨hb, htables⟩ := hu
    exact ⟨⟨hb.geo, hb.own, hb.apart, hb.index, hb.dir, hd, hb.full, hb.empty, hb.clear⟩, htables⟩
  | @call r r' forks c hcall =>
    refine hcall.keeps (I := fun h k => Uniform L base forks h k) hu (fun u nb v hexp hback hrun => ?_)
      fun u n m v _ hback hrun => hback.contract_spec hrun
    exact hback.expand_spec hexp.lt (hgrow u nb hexp) hrun

/-- Directories with the same tables translate alike. -/
theorem Uniform.coherent {w : World} (hu : Uniform L base w.forks w.heap w.kernel) : Coherent L base w := by
  intro d hd virt hstart hend
  have hmem : ∀ b ∈ base :: w.spaces.forkDirs, (Vmm.virtToPhys L virt (pageAddr b) w.kernel.vmm).1 =
      Vmm.physOf (entryAt w.kernel.vmm base (pageOf virt)) (Vmm.vmmVirtToOffs virt).off := by
    intro b hb
    have htable := hu.tables b hb (Vmm.split (pageOf virt)).1
    have hpage : PageIn w.heap.startAddr w.heap.endAddr (pageOf virt) := by
      have halign := hu.backed.geo.start_aligned
      unfold Heap.pageSize at halign
      unfold PageIn
      rw [Vmm.toNat_pageOf]
      omega
    have hwin : ¬WindowPage L w.kernel.vmm b (pageOf virt) := by
      rw [WindowPage, htable]
      exact hu.backed.clear _ hpage
    rw [Vmm.virtToPhys_of_not_window (hu.backed.apart.directory b hb) hu.backed.apart.closed _ hwin,
      Vmm.entryAt_of_tables htable]
  rw [hmem d hd, hmem base List.mem_cons_self]

end Steps

/-- For any order of forks, switches of the active directory and calls on the kernel heap in
which growth after the first fork stays within the tables of the kernel's directory: in every
state reached, all directories translate every address of the heap as the kernel's does. -/
theorem kernel_heap_coherent {L : Layout} {base : Frame} {boot : Vmm.State PmmState} {s t : Heap.State Kernel}
    {placementAddr : ℕ} {w : World} (hboot : KernelDirectory pmmFrames L boot base) (hpages : s.pages.vmm = boot)
    (hactive : s.pages.cr3 = base) (hplace : placementAddr + 28 ≤ 0x01000000)
    (hfree : ∀ v, PageIn 0x01000000 0x02000000 v → entryAt boot base v = none)
    (hcreate : Heap.createHeap (kernelPaging L) placementAddr (pageAddr base).toNat 0x01000000 Heap.heapMinSize
      0x02000000 2 s = .ok () t)
    (hrun : Reaches (fun a b => ∃ e, GrowsInTables L base a e ∧ World.Step L base a e b) ⟨⟨t, []⟩, []⟩ w) :
    Coherent L base w := by
  have hspaces : (⟨s.pages.vmm, []⟩ : Spaces PmmState) = ⟨boot, []⟩ := by rw [hpages]
  have hback := (backed_created (hspaces.symm ▸ hboot.apart) (hspaces.symm ▸ hboot.sameIndex)
    List.mem_cons_self (hactive ▸ List.mem_cons_self) hplace le_rfl (by decide) (by decide)
    (hpages.symm ▸ hfree) hcreate).1
  have hcreated : Uniform L base [] t.heap t.pages := by
    refine ⟨hback, fun d hd i => ?_⟩
    obtain rfl : d = base := by simpa [Spaces.forkDirs] using hd
    rfl
  have huniform : Uniform L base w.forks w.heap w.kernel := by
    refine hrun.invariant (fun w => Uniform L base w.forks w.heap w.kernel) ?_ hcreated
    rintro a b hu ⟨e, hgrow, hstep⟩
    exact hu.step hgrow hstep
  exact huniform.coherent

/-- A fork of the kernel's directory shows the kernel heap, with the pages that it has grown by. -/
theorem kernel_heap_coherent_fork : ∃ (boot : Vmm.State PmmState) (t : Heap.State Kernel) (w : World),
    Heap.createHeap (kernelPaging smallLayout) 0x120000 (pageAddr 0x110).toNat 0x1000000 Heap.heapMinSize
      0x2000000 2 (emptyMemory ⟨boot, 0x110, []⟩) = .ok () t ∧
    w.spaces.forkDirs = [0xD03] ∧ w.heap.endAddr = 0x1501000 ∧ Coherent smallLayout 0x110 w := by
  obtain ⟨boot, hboot⟩ := exists_setUp
  obtain ⟨t, u, k, hcreate, hback, hcall, hend, hfree⟩ := grown_before_fork hboot
  have hgrown := hback.step hback.sharesGrowth hcall
  obtain ⟨pmm, halloc, -⟩ := alloc_first hfree (by decide)
  have hfork := World.Step.fork (w := ⟨⟨u.withPages k, [⟨0x1000008, 0x400000⟩]⟩, []⟩) (hgrown.apart.fork_ok halloc)
  rw [Vmm.pageOf_pageAddr] at hfork
  have halone : GrowsInTables smallLayout 0x110 ⟨⟨t, []⟩, []⟩ (.call (.alloc 0x400000)) := fun _ _ _ => Or.inl rfl
  have hrun : Reaches (fun a b => ∃ e, GrowsInTables smallLayout 0x110 a e ∧ World.Step smallLayout 0x110 a e b)
      ⟨⟨t, []⟩, []⟩ ⟨⟨u.withPages { k with vmm := Vmm.forked k.vmm 0x110 0xD03 pmm }, [⟨0x1000008, 0x400000⟩]⟩,
        [(0xD03, k.vmm.frames 0x110)]⟩ :=
    (Relation.ReflTransGen.single ⟨_, halone, hcall⟩).tail ⟨.fork, trivial, hfork⟩
  have hcoherent := kernel_heap_coherent hboot.kernel rfl rfl (by decide) (fun v hv => hboot.unmapped hv.1)
    hcreate hrun
  refine ⟨boot, t, _, hcreate, ?_, ?_, hcoherent⟩
  · rfl
  · exact hend

/-- A block of four megabytes that is allocated under a fork is not in the kernel's directory. -/
theorem kernel_heap_split_by_fork : ∃ (boot : Vmm.State PmmState) (t : Heap.State Kernel) (w : World),
    KernelDirectory pmmFrames smallLayout boot 0x110 ∧
    (∀ v, PageIn 0x1000000 0x2000000 v → entryAt boot 0x110 v = none) ∧
    Heap.createHeap (kernelPaging smallLayout) 0x120000 (pageAddr 0x110).toNat 0x1000000 Heap.heapMinSize
      0x2000000 2 (emptyMemory ⟨boot, 0x110, []⟩) = .ok () t ∧
    Reaches (fun a b => ∃ e, World.Step smallLayout 0x110 a e b) ⟨⟨t, []⟩, []⟩ w ∧
    ¬Coherent smallLayout 0x110 w := by
  obtain ⟨boot, hboot⟩ := exists_setUp
  obtain ⟨t, w, hcreate, hrun, ⟨hstart, hend, -⟩, hapart, hmem, hnone, hsome, hwin⟩ := grown_in_fork hboot
  refine ⟨boot, t, w, hboot.kernel, fun v hv => hboot.unmapped hv.1, hcreate, hrun, fun hcoherent => ?_⟩
  have hsame := hcoherent 0x901 (List.mem_cons_of_mem _ hmem) 0x1400000 (by rw [hstart]; decide)
    (by rw [hend]; decide)
  obtain ⟨e, he⟩ := Option.ne_none_iff_exists'.mp hsome
  have hfork := Vmm.virtToPhys_of_not_window (hapart.directory 0x901 (List.mem_cons_of_mem _ hmem))
    hapart.closed 0x1400000 hwin
  have hbase := Vmm.virtToPhys_of_not_window (hapart.directory 0x110 List.mem_cons_self) hapart.closed
    0x1400000 (not_window_of_unmapped hapart hnone)
  have hvalue : Vmm.physOf (some e) 0 = Vmm.physOf none 0 := by
    rw [← he, ← hnone]
    exact (hfork.symm.trans hsame).trans hbase
  -- the address of a page is a multiple of 4096
  have hbits : (Vmm.address e).toNat * 4096 = 4294967295 := by
    rw [← Vmm.toNat_pageAddr, ← BitVec.add_zero (pageAddr _)]
    exact congrArg BitVec.toNat hvalue
  omega

end JustKernel.Mm
