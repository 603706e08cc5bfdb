import JustKernel.Proc.Elf
import JustKernel.Mm.VmmRelease

/-! The image of a loaded program. A segment ends up where its header says if it
starts at a page boundary, if the bytes after its file part are zero in the file
already, and if none of its pages has been mapped by an earlier segment. The
loader rounds the address down to a page without moving the bytes, copies
`memsz` bytes where `filesz` are the file's, and gives up on a segment whose page
is mapped. What later segments do cannot change an image that is there: they
write frames of their own and leave mapped pages alone. -/

namespace JustKernel.Elf

open TwoLevel Halting Vmm
open Memory (Byte)

variable {σ : Type} {P : FramePool σ} {L : Layout} {s t u : State σ} {d base : Frame} {hdr : ElfObj}
  {ph : ProgramHeader} {R R' : Frame → Prop}

/-! ### Addresses in a block -/

theorem pageOf_add (p : Frame) {i : ℕ} (hi : i < 2 ^ 32) :
    pageOf (pageAddr p + BitVec.ofNat 32 i) = p + BitVec.ofNat 20 (i / 4096) := by
  apply BitVec.eq_of_toNat_eq
  have hp := p.isLt
  rw [toNat_pageOf, BitVec.toNat_add, toNat_pageAddr, BitVec.toNat_ofNat, BitVec.toNat_add,
    BitVec.toNat_ofNat]
  omega

theorem off_add (p : Frame) {i : ℕ} (hi : i < 2 ^ 32) :
    ((vmmVirtToOffs (pageAddr p + BitVec.ofNat 32 i)).off.setWidth 32).toNat = i % 4096 := by
  have hp := p.isLt
  rw [vmmVirtToOffs, BitVec.toNat_setWidth, BitVec.extractLsb'_toNat, BitVec.toNat_add, toNat_pageAddr,
    BitVec.toNat_ofNat, Nat.shiftRight_zero]
  omega

/-- The byte `i` of a block that starts at page `p`. -/
theorem block_address (p : Frame) (i : ℕ) (off : BitVec 32) (hoff : off.toNat = i % 4096) :
    pageAddr (p + BitVec.ofNat 20 (i / 4096)) + off = pageAddr p + BitVec.ofNat 32 i := by
  apply BitVec.eq_of_toNat_eq
  have hp := p.isLt
  rw [BitVec.toNat_add, BitVec.toNat_add, toNat_pageAddr, toNat_pageAddr, BitVec.toNat_add,
    BitVec.toNat_ofNat, BitVec.toNat_ofNat, hoff]
  omega

theorem pageOf_add_off (f : Frame) {off : BitVec 32} (hoff : off.toNat < 4096) :
    pageOf (pageAddr f + off) = f := by
  apply BitVec.eq_of_toNat_eq
  have hf := f.isLt
  rw [toNat_pageOf, BitVec.toNat_add, toNat_pageAddr]
  omega

/-! ### Filling frames that were free -/

/-- Only frames that were not taken have changed. -/
structure Fills (P : FramePool σ) (s t : State σ) : Prop where
  taken : ∀ g, P.taken s.pmm g → P.taken t.pmm g
  frames : ∀ g, P.taken s.pmm g → t.frames g = s.frames g

theorem Fills.directory (h : Fills P s t) (hdir : Directory P.toFrameAlloc L s d) :
    Directory P.toFrameAlloc L t d := by
  have hd := h.frames d hdir.takenDir
  refine ⟨hdir.tree.congr hd, hdir.notBase, h.taken d hdir.takenDir, h.taken _ hdir.takenBase,
    fun i f hf => h.taken f (hdir.takenTables i f ?_)⟩
  rw [← tableOf_congr (congrFun hd i)]
  exact hf

theorem Fills.closed (h : Fills P s t) (hdir : Directory P.toFrameAlloc L s d) (hclosed : Closed L s) :
    Closed L t := by
  have hbase := h.frames _ hdir.takenBase
  constructor
  · rw [hbase, hclosed.dir]
  · rw [hbase, hclosed.table]

theorem Fills.within (h : Fills P s t) (hdir : Directory P.toFrameAlloc L s d) :
    Within P.toFrameAlloc L d (fun _ => True) s t where
  taken := h.taken
  frame g hg _ _ j _ := congrFun (h.frames g hg) j
  entry i := Or.inl (congrFun (h.frames d hdir.takenDir) i)

theorem Fills.entryAt (h : Fills P s t) (hdir : Directory P.toFrameAlloc L s d) (v : Frame) :
    entryAt t d v = entryAt s d v :=
  lookup_congr (congrFun (h.frames d hdir.takenDir) _) fun f hf =>
    congrFun (h.frames f (hdir.takenTables _ f hf)) _

theorem Fills.mappedPages (h : Fills P s t) (hdir : Directory P.toFrameAlloc L s d) (hclosed : Closed L s)
    (R : Frame → Prop) : MappedPages P.toFrameAlloc L d R s t where
  operated := ⟨h.directory hdir, h.closed hdir hclosed, h.within hdir⟩
  keeps v _ he := (h.entryAt hdir v).trans he
  added v he := Or.inl ((h.entryAt hdir v) ▸ he)

/-- A block that has been cleared and filled from the file. -/
def written (hdr : ElfObj) (ph : ProgramHeader) (p : Frame) (s : State σ) : State σ :=
  memcpy (fun i => hdr.header (ph.offset + i)) (pageAddr p) ph.memsz.toNat
    (memset (pageAddr p) 0 ph.memsz.toNat s)

theorem written_pmm (p : Frame) : (written hdr ph p s).pmm = s.pmm := by
  rw [written, memcpy, writeBytes_pmm, memset, writeBytes_pmm]

theorem written_frames {p g : Frame} (hsize : ph.memsz.toNat ≤ pagesOf ph * 4096)
    (hg : ∀ k < pagesOf ph, g ≠ p + BitVec.ofNat 20 k) : (written hdr ph p s).frames g = s.frames g := by
  have hmem := ph.memsz.isLt
  have hpage : ∀ i < ph.memsz.toNat, g ≠ pageOf (pageAddr p + BitVec.ofNat 32 i) := by
    intro i hi
    rw [pageOf_add p (by omega)]
    exact hg _ (by omega)
  rw [written, memcpy, writeBytes_frames _ _ _ hpage, memset, writeBytes_frames _ _ _ hpage]

theorem written_byteAt (p : Frame) {k : ℕ} (hk : k < ph.memsz.toNat) :
    byteAt (written hdr ph p s) (pageAddr p + BitVec.ofNat 32 k) =
      hdr.header (ph.offset + BitVec.ofNat 32 k) :=
  writeBytes_byteAt _ _ _ (Nat.le_of_lt ph.memsz.isLt) hk

theorem pmmAlloc_none (size : BitVec 32)
    (h : P.allocPages ((size + pageSize - 1) / pageSize).toNat s.pmm = none) :
    pmmAlloc P size s = .error .pmmAlloc s := by
  unfold pmmAlloc
  rw [get_bind_run, h]
  rfl

theorem pmmAlloc_some (size : BitVec 32) {p : Frame} {pmm : σ}
    (h : P.allocPages ((size + pageSize - 1) / pageSize).toNat s.pmm = some (p, pmm)) :
    pmmAlloc P size s = .ok (pageAddr p) { s with pmm := pmm } := by
  unfold pmmAlloc
  rw [get_bind_run, h]
  rfl

theorem loadSegment_skip (h : ph.type ≠ ptLoad) : loadSegment P L hdr d ph s = .ok () s := by
  unfold loadSegment
  rw [if_neg h]
  rfl

/-- A segment that is loaded: the block is filled and mapped. -/
theorem loadSegment_run (h : ph.type = ptLoad) {p : Frame} {pmm : σ}
    (halloc : P.allocPages (pagesOf ph) s.pmm = some (p, pmm)) :
    loadSegment P L hdr d ph s = (vmmMapPages P.toFrameAlloc L (pageAddr p) ph.vaddr (pageAddr d)
      (pagesOf ph) 7 >>= fun _ => pure ()) (written hdr ph p { s with pmm := pmm }) := by
  rw [← pagesOf_eq] at halloc
  have hrun := pmmAlloc_some ph.memsz halloc
  unfold loadSegment
  rw [if_pos h]
  rw [bind_of_ok hrun, modify_bind_run, modify_bind_run]
  rfl

/-- Filling a new block changes no frame that was taken. -/
theorem fills_written (hdr : ElfObj) {p : Frame} {pmm : σ} (hsize : ph.memsz.toNat ≤ 0xFFFFF000)
    (halloc : P.allocPages (pagesOf ph) s.pmm = some (p, pmm)) :
    Fills P s (written hdr ph p { s with pmm := pmm }) := by
  refine ⟨fun g hg => ?_, fun g hg => ?_⟩
  · rw [written_pmm]
    exact P.keepsPages halloc hg
  · refine written_frames (pagesOf_spec hsize).1 fun k hk hgk => ?_
    rw [hgk] at hg
    exact P.freshPages halloc k hk hg

/-- Page `v` is one that the loader maps for the segment. -/
def MapsPage (ph : ProgramHeader) (v : Frame) : Prop :=
  ph.type = ptLoad ∧ InRange (pageOf ph.vaddr) (pagesOf ph) v

theorem loadSegment_mapped (hdr : ElfObj) (hdir : Directory P.toFrameAlloc L s d) (hclosed : Closed L s)
    (hsize : ph.type = ptLoad → ph.memsz.toNat ≤ 0xFFFFF000) :
    Ends (fun _ t => MappedPages P.toFrameAlloc L d (MapsPage ph) s t) (fun _ => True)
      (loadSegment P L hdr d ph s) := by
  by_cases hload : ph.type = ptLoad
  · cases halloc : P.allocPages (pagesOf ph) s.pmm with
    | none =>
      rw [← pagesOf_eq] at halloc
      unfold loadSegment
      rw [if_pos hload]
      rw [bind_of_error (pmmAlloc_none ph.memsz halloc)]
      trivial
    | some r =>
      obtain ⟨p, pmm⟩ := r
      rw [loadSegment_run hload halloc]
      have hfills := fills_written hdr (hsize hload) halloc
      have hmap := vmmMapPages_mapped (pageAddr p) ph.vaddr (pagesOf ph) 7 (hfills.directory hdir)
        (hfills.closed hdir hclosed)
      refine Ends.bind (hmap.mono (fun _ _ ht => ht) fun _ _ => trivial) fun ret t ht => ?_
      refine ((hfills.mappedPages hdir hclosed fun _ => False).trans ht).mono fun v hv => ?_
      exact ⟨hload, hv.resolve_left id⟩
  · rw [loadSegment_skip hload]
    exact hdir.mappedPages hclosed _

theorem loadSegments_mapped (hdr : ElfObj) (programs : List ProgramHeader) (hdir : Directory P.toFrameAlloc L s d)
    (hclosed : Closed L s)
    (hsize : ∀ ph ∈ programs, ph.type = ptLoad → ph.memsz.toNat ≤ 0xFFFFF000) :
    Ends (fun _ t => MappedPages P.toFrameAlloc L d (fun v => ∃ ph ∈ programs, MapsPage ph v) s t)
      (fun _ => True) (loadSegments P L hdr d programs s) := by
  induction programs generalizing s with
  | nil => exact hdir.mappedPages hclosed _
  | cons ph rest ih =>
    rw [loadSegments]
    refine Ends.bind (loadSegment_mapped hdr hdir hclosed (hsize ph List.mem_cons_self)) fun _ t ht => ?_
    refine (ih ht.operated.directory ht.operated.closed fun g hg =>
      hsize g (List.mem_cons_of_mem _ hg)).imp fun _ u hu => (ht.trans hu).mono fun v hv => ?_
    rcases hv with hv | ⟨g, hg, hv⟩
    · exact ⟨ph, List.mem_cons_self, hv⟩
    · exact ⟨g, List.mem_cons_of_mem _ hg, hv⟩

/-! ### What a process sees -/

/-- The process sees `b` at `virt`, in a frame that is no page table. -/
structure Shows (A : FrameAlloc σ) (L : Layout) (s : State σ) (d : Frame) (virt : BitVec 32) (b : Byte)
    (e : Entry) : Prop where
  entry : entryAt s d (pageOf virt) = some e
  taken : A.taken s.pmm (address e)
  notDir : address e ≠ d
  notBase : address e ≠ L.baseTable
  notTable : ∀ i, tableOf s d i ≠ some (address e)
  byte : byteAt s (pageAddr (address e) + (vmmVirtToOffs virt).off.setWidth 32) = b

theorem Shows.seenByte {A : FrameAlloc σ} {virt : BitVec 32} {b : Byte} {e : Entry}
    (h : Shows A L s d virt b e) : seenByte s d virt = some b := by
  rw [Elf.seenByte, h.entry, Option.map_some, h.byte]

theorem off_lt (off : BitVec 12) : (off.setWidth 32).toNat < 4096 := by
  rw [BitVec.toNat_setWidth]
  have := off.isLt
  omega

/-- A taken frame that is no page table keeps its bytes, and they are seen where it is mapped. -/
theorem shows_of_within {A : FrameAlloc σ} {virt : BitVec 32} {b : Byte} {e : Entry}
    (hw : Within A L d (fun _ => True) s t) (hentry : entryAt t d (pageOf virt) = some e)
    (htaken : A.taken s.pmm (address e)) (hdir : address e ≠ d) (hbase : address e ≠ L.baseTable)
    (htable : ∀ i, tableOf s d i ≠ some (address e))
    (hbyte : byteAt s (pageAddr (address e) + (vmmVirtToOffs virt).off.setWidth 32) = b) :
    Shows A L t d virt b e := by
  have hframe : ∀ j, t.frames (address e) j = s.frames (address e) j := fun j =>
    hw.frame (address e) htaken hdir (fun i _ => htable i) j fun hj => hbase hj.1
  refine ⟨hentry, hw.taken _ htaken, hdir, hbase, fun i hi => ?_, ?_⟩
  · exact htable i ((hw.tableOf_taken htaken i).mp hi)
  · rw [← hbyte, byteAt, byteAt, pageOf_add_off _ (off_lt _), hframe]

/-- Further mappings keep what is seen. -/
theorem Shows.mapped {A : FrameAlloc σ} {virt : BitVec 32} {b : Byte} {e : Entry}
    (h : Shows A L s d virt b e) (ht : MappedPages A L d R s t) : Shows A L t d virt b e :=
  shows_of_within ht.operated.within (ht.keeps _ _ h.entry) h.taken h.notDir h.notBase h.notTable h.byte

theorem aligned_eq {a : BitVec 32} (h : a.setWidth 12 = 0) : a = pageAddr (pageOf a) := by
  apply BitVec.eq_of_toNat_eq
  have hlow := congrArg BitVec.toNat h
  rw [BitVec.toNat_setWidth, show (0 : BitVec 12).toNat = 0 from rfl] at hlow
  rw [toNat_pageAddr, toNat_pageOf]
  omega

/-- The page of a byte of an aligned segment is one of the pages mapped for it. -/
theorem page_of_byte {k : ℕ} (haligned : ph.vaddr.setWidth 12 = 0)
    (hsize : ph.memsz.toNat ≤ 0xFFFFF000) (hk : k < ph.memsz.toNat) :
    pageOf (ph.vaddr + BitVec.ofNat 32 k) = pageOf ph.vaddr + BitVec.ofNat 20 (k / 4096) ∧
      InRange (pageOf ph.vaddr) (pagesOf ph) (pageOf (ph.vaddr + BitVec.ofNat 32 k)) := by
  have hpages := (pagesOf_spec hsize).1
  have hmem := ph.memsz.isLt
  have hpage : pageOf (ph.vaddr + BitVec.ofNat 32 k) = pageOf ph.vaddr + BitVec.ofNat 20 (k / 4096) := by
    conv_lhs => rw [aligned_eq haligned]
    exact pageOf_add _ (by omega)
  refine ⟨hpage, ?_⟩
  rw [hpage, InRange]
  have hdiff : pageOf ph.vaddr + BitVec.ofNat 20 (k / 4096) - pageOf ph.vaddr = BitVec.ofNat 20 (k / 4096) := by
    bv_omega
  rw [hdiff, BitVec.toNat_ofNat]
  omega

/-- A block of frames of its own, mapped at a segment: the segment shows the bytes of the block. -/
theorem mapBlock_shows {p : Frame} (hdir : Directory P.toFrameAlloc L s d) (hclosed : Closed L s)
    (haligned : ph.vaddr.setWidth 12 = 0) (hsize : ph.memsz.toNat ≤ 0xFFFFF000)
    (hfree : ∀ v, InRange (pageOf ph.vaddr) (pagesOf ph) v → entryAt s d v = none)
    (htaken : ∀ k < pagesOf ph, P.taken s.pmm (p + BitVec.ofNat 20 k))
    (hapart : ∀ k < pagesOf ph, p + BitVec.ofNat 20 k ≠ d ∧ p + BitVec.ofNat 20 k ≠ L.baseTable ∧
      ∀ i, tableOf s d i ≠ some (p + BitVec.ofNat 20 k)) :
    Ends (fun _ t => ∀ k < ph.memsz.toNat, ∃ e, Shows P.toFrameAlloc L t d (ph.vaddr + BitVec.ofNat 32 k)
        (byteAt s (pageAddr p + BitVec.ofNat 32 k)) e) (fun _ => True)
      (vmmMapPages P.toFrameAlloc L (pageAddr p) ph.vaddr (pageAddr d) (pagesOf ph) 7 s) := by
  have hwin : ∀ v, InRange (pageOf ph.vaddr) (pagesOf ph) v → ¬WindowPage L s d v := fun v hv hw =>
    entryAt_of_window ⟨_, hclosed.dir⟩ ⟨_, hclosed.table⟩ hw (hfree v hv)
  have hpagesLt : pagesOf ph ≤ 2 ^ 20 := by
    have := (pagesOf_spec hsize).2
    omega
  have hmap := vmmMapPages_mapped (pageAddr p) ph.vaddr (pagesOf ph) 7 hdir hclosed
  have hremap := vmmRemapPages_refines (pageAddr p) ph.vaddr 7 hdir hclosed hpagesLt (by decide) hwin
  rw [← vmmMapPages_eq_vmmRemapPages (pageAddr p) ph.vaddr 7 hdir hclosed hpagesLt hwin hfree] at hremap
  refine (hmap.and hremap).mono (fun _ t ht k hk => ?_) fun _ _ => trivial
  obtain ⟨hmapped, -, hrefines⟩ := ht
  obtain ⟨hpage, hrange⟩ := page_of_byte haligned hsize hk
  have hkLt : k / 4096 < pagesOf ph := by
    have := (pagesOf_spec hsize).1
    omega
  have hk32 : k < 2 ^ 32 := hk.trans ph.memsz.isLt
  -- the entry names the frame of the block that holds byte `k`
  have hentry := hrefines.entry (pageOf (ph.vaddr + BitVec.ofNat 32 k))
  rw [if_pos hrange] at hentry
  have hframe : address (newEntry (pageOf ph.vaddr) (pageOf (pageAddr p)) 7
      (pageOf (ph.vaddr + BitVec.ofNat 32 k))) = p + BitVec.ofNat 20 (k / 4096) := by
    rw [newEntry, address_or _ (by decide), pageOf_pageAddr, hpage]
    bv_omega
  generalize newEntry (pageOf ph.vaddr) (pageOf (pageAddr p)) 7
    (pageOf (ph.vaddr + BitVec.ofNat 32 k)) = e at hentry hframe
  have hoff : ((vmmVirtToOffs (ph.vaddr + BitVec.ofNat 32 k)).off.setWidth 32).toNat = k % 4096 := by
    rw [aligned_eq haligned]
    exact off_add _ hk32
  have htaken' := htaken _ hkLt
  obtain ⟨hnotDir, hnotBase, hnotTable⟩ := hapart _ hkLt
  rw [← hframe] at htaken' hnotDir hnotBase hnotTable
  have hbyte : byteAt s (pageAddr (address e) + (vmmVirtToOffs (ph.vaddr + BitVec.ofNat 32 k)).off.setWidth 32) =
      byteAt s (pageAddr p + BitVec.ofNat 32 k) := by
    rw [hframe, block_address p k _ hoff]
  exact ⟨e, shows_of_within hmapped.operated.within hentry htaken' hnotDir hnotBase hnotTable hbyte⟩

/-- An aligned segment on unmapped pages shows the bytes of the file. -/
theorem loadSegment_shows (hdr : ElfObj) (hdir : Directory P.toFrameAlloc L s d) (hclosed : Closed L s)
    (hload : ph.type = ptLoad) (haligned : ph.vaddr.setWidth 12 = 0)
    (hsize : ph.memsz.toNat ≤ 0xFFFFF000)
    (hfree : ∀ v, InRange (pageOf ph.vaddr) (pagesOf ph) v → entryAt s d v = none) :
    Ends (fun _ t => ∀ k < ph.memsz.toNat, ∃ e, Shows P.toFrameAlloc L t d (ph.vaddr + BitVec.ofNat 32 k)
        (hdr.header (ph.offset + BitVec.ofNat 32 k)) e) (fun _ => True)
      (loadSegment P L hdr d ph s) := by
  cases halloc : P.allocPages (pagesOf ph) s.pmm with
  | none =>
    rw [← pagesOf_eq] at halloc
    unfold loadSegment
    rw [if_pos hload, bind_of_error (pmmAlloc_none ph.memsz halloc)]
    trivial
  | some r =>
    obtain ⟨p, pmm⟩ := r
    rw [loadSegment_run hload halloc]
    have hfills := fills_written hdr hsize halloc
    have hfresh := P.freshPages halloc
    have htable : ∀ i, tableOf (written hdr ph p { s with pmm := pmm }) d i = tableOf s d i := fun i =>
      tableOf_congr (congrFun (hfills.frames d hdir.takenDir) i)
    have hshows := mapBlock_shows (p := p) (hfills.directory hdir) (hfills.closed hdir hclosed) haligned hsize
      (fun v hv => (hfills.entryAt hdir v).trans (hfree v hv))
      (fun k hk => by
        rw [written_pmm]
        exact P.takesPages halloc k hk)
      (fun k hk => by
        refine ⟨fun heq => hfresh k hk (heq ▸ hdir.takenDir), fun heq => hfresh k hk (heq ▸ hdir.takenBase),
          fun i hi => ?_⟩
        rw [htable] at hi
        exact hfresh k hk (hdir.takenTables i _ hi))
    refine Ends.bind (hshows.mono (fun _ _ ht => ht) fun _ _ => trivial) fun ret t ht k hk => ?_
    obtain ⟨e, he⟩ := ht k hk
    rw [written_byteAt p hk] at he
    exact ⟨e, he⟩

/-! ### The image of a program -/

/-- The segment `h`, between the headers `pre` and `post`, overlaps neither another segment
nor a page that the directory maps already. -/
structure Separate (s : State σ) (d : Frame) (pre : List ProgramHeader) (h : ProgramHeader)
    (post : List ProgramHeader) : Prop where
  load : h.type = ptLoad
  others : ∀ g ∈ pre ++ post, g.type = ptLoad → ∀ k < h.memsz.toNat, ∀ l < g.memsz.toNat,
    h.vaddr + BitVec.ofNat 32 k ≠ g.vaddr + BitVec.ofNat 32 l
  unmapped : ∀ k < h.memsz.toNat, entryAt s d (pageOf (h.vaddr + BitVec.ofNat 32 k)) = none

/-- Every separate segment shows its bytes of the file, and zeros behind them. -/
def ImageCorrect (hdr : ElfObj) (d : Frame) (s t : State σ) : Prop :=
  ∀ pre h post, hdr.programs = pre ++ h :: post → Separate s d pre h post → ∀ k < h.memsz.toNat,
    seenByte t d (h.vaddr + BitVec.ofNat 32 k) =
      some (if k < h.filesz.toNat then hdr.header (h.offset + BitVec.ofNat 32 k) else 0)

/-- What the loader needs to place a segment: it starts at a page, and no segment before it
has a page of it. -/
structure Placed (pre : List ProgramHeader) (h : ProgramHeader) : Prop where
  aligned : h.vaddr.setWidth 12 = 0
  fresh : ∀ g ∈ pre, ∀ v, MapsPage g v → ¬MapsPage h v

/-- No size wraps when it is rounded up to pages, and the separate segments can be placed. -/
structure WellPlaced (hdr : ElfObj) (d : Frame) (s : State σ) : Prop where
  sizes : ∀ g ∈ hdr.programs, g.type = ptLoad → g.memsz.toNat ≤ 0xFFFFF000
  segments : ∀ pre h post, hdr.programs = pre ++ h :: post → Separate s d pre h post → Placed pre h

/-- The file has zeros behind the `filesz` bytes of every separate segment. -/
def ZeroTails (hdr : ElfObj) (d : Frame) (s : State σ) : Prop :=
  ∀ pre h post, hdr.programs = pre ++ h :: post → Separate s d pre h post →
    ∀ k, h.filesz.toNat ≤ k → k < h.memsz.toNat → hdr.header (h.offset + BitVec.ofNat 32 k) = 0

theorem loadSegments_append (pre rest : List ProgramHeader) :
    loadSegments P L hdr d (pre ++ rest) =
      (loadSegments P L hdr d pre >>= fun _ => loadSegments P L hdr d rest) := by
  induction pre with
  | nil => rfl
  | cons ph pre ih =>
    rw [List.cons_append, loadSegments, ih, loadSegments, bind_assoc]

theorem page_start_lt {x n m : ℕ} (hx : x < n) (hn : n * 4096 < m + 4096) : x * 4096 < m := by
  have hnext := Nat.mul_le_mul_right 4096 (Nat.succ_le_of_lt hx)
  rw [Nat.succ_mul] at hnext
  exact Nat.lt_of_add_lt_add_right (Nat.lt_of_le_of_lt hnext hn)

/-- The pages of an aligned segment that has bytes are the pages of its bytes. -/
theorem byte_of_page {h : ProgramHeader} (haligned : h.vaddr.setWidth 12 = 0)
    (hsize : h.memsz.toNat ≤ 0xFFFFF000) {v : Frame} (hv : InRange (pageOf h.vaddr) (pagesOf h) v) :
    ∃ k < h.memsz.toNat, pageOf (h.vaddr + BitVec.ofNat 32 k) = v := by
  have hpages := (pagesOf_spec hsize).2
  unfold InRange at hv
  have hk := page_start_lt hv hpages
  have hdiv : (v - pageOf h.vaddr).toNat * 4096 / 4096 = (v - pageOf h.vaddr).toNat :=
    Nat.mul_div_cancel _ (by decide)
  refine ⟨_, hk, ?_⟩
  rw [(page_of_byte haligned hsize hk).1, hdiv, BitVec.ofNat_toNat, BitVec.setWidth_eq]
  bv_omega

/-- A separate segment that is placed shows `memsz` bytes of the file. -/
theorem loadSegments_seenByte (hdir : Directory P.toFrameAlloc L s d) (hclosed : Closed L s)
    (hplaced : WellPlaced hdr d s) (hrun : loadSegments P L hdr d hdr.programs s = .ok () t)
    {pre post : List ProgramHeader} {h : ProgramHeader} (hprograms : hdr.programs = pre ++ h :: post)
    (hseparate : Separate s d pre h post) {k : ℕ} (hk : k < h.memsz.toNat) :
    seenByte t d (h.vaddr + BitVec.ofNat 32 k) = some (hdr.header (h.offset + BitVec.ofNat 32 k)) := by
  obtain ⟨haligned, hfresh⟩ := hplaced.segments pre h post hprograms hseparate
  have hsizes := hplaced.sizes
  rw [hprograms, loadSegments_append] at hrun
  rw [hprograms] at hsizes
  have hsize := hsizes h (by simp) hseparate.load
  obtain ⟨_, s₁, hpre, hrest⟩ := bind_eq_ok.mp hrun
  rw [loadSegments] at hrest
  obtain ⟨_, s₂, hsegment, hpost⟩ := bind_eq_ok.mp hrest
  -- before the segment, its pages are still unmapped
  have hbefore := loadSegments_mapped hdr pre hdir hclosed fun g hg => hsizes g (by simp [hg])
  rw [hpre] at hbefore
  have hfree : ∀ v, InRange (pageOf h.vaddr) (pagesOf h) v → entryAt s₁ d v = none := by
    intro v hv
    by_contra hmapped
    obtain ⟨l, hl, hpage⟩ := byte_of_page haligned hsize hv
    rcases hbefore.added v hmapped with hold | ⟨g, hg, hgv⟩
    · rw [← hpage, hseparate.unmapped l hl] at hold
      exact hold rfl
    · exact hfresh g hg v hgv ⟨hseparate.load, hv⟩
  have hshows := loadSegment_shows hdr hbefore.operated.directory hbefore.operated.closed
    hseparate.load haligned hsize hfree
  have hmapped := loadSegment_mapped hdr hbefore.operated.directory hbefore.operated.closed
    fun _ => hsize
  rw [hsegment] at hshows hmapped
  -- the rest of the segments keeps what is seen
  have hafter := loadSegments_mapped hdr post hmapped.operated.directory hmapped.operated.closed
    fun g hg => hsizes g (by simp [hg])
  rw [hpost] at hafter
  obtain ⟨e, he⟩ := hshows k hk
  exact (he.mapped hafter).seenByte

theorem loadSegments_image_iff (hdir : Directory P.toFrameAlloc L s d) (hclosed : Closed L s)
    (hplaced : WellPlaced hdr d s) (hrun : loadSegments P L hdr d hdr.programs s = .ok () t) :
    ImageCorrect hdr d s t ↔ ZeroTails hdr d s := by
  constructor
  · intro himage pre h post hprograms hseparate k hlow hhigh
    have hseen := himage pre h post hprograms hseparate k hhigh
    rw [loadSegments_seenByte hdir hclosed hplaced hrun hprograms hseparate hhigh,
      if_neg (Nat.not_lt.mpr hlow)] at hseen
    exact Option.some.inj hseen
  · intro hzeros pre h post hprograms hseparate k hk
    rw [loadSegments_seenByte hdir hclosed hplaced hrun hprograms hseparate hk]
    split_ifs with hfile
    · rfl
    · rw [hzeros pre h post hprograms hseparate k (Nat.not_lt.mp hfile) hk]

/-- What `proc_alloc` relies on: the heap calls keep the kernel's directory, and a directory
that a heap is created in stays one. -/
structure KeepsDirectories (A : FrameAlloc σ) (L : Layout) (base : Frame) (heap : HeapCalls σ) : Prop where
  kmalloc : ∀ s, KernelDirectory A L s base →
    Ends (fun _ t => KernelDirectory A L t base) (fun _ => True) (heap.kmalloc s)
  createHeap : ∀ s d, Directory A L s d → Closed L s →
    Ends (fun _ t => Directory A L t d ∧ Closed L t) (fun _ => True) (heap.createHeap d s)

/-- `proc_alloc` returns a directory, in both rings. -/
theorem procAlloc_directory {heap : HeapCalls σ} (hheap : KeepsDirectories P.toFrameAlloc L base heap)
    (hkernel : KernelDirectory P.toFrameAlloc L s base) (ring : BitVec 8)
    (hrun : procAlloc P L heap base ring s = .ok (some d) t) :
    Directory P.toFrameAlloc L t d ∧ Closed L t := by
  obtain ⟨proc, s₁, hproc, hrun⟩ := bind_eq_ok.mp hrun
  have hkernel₁ := hheap.kmalloc s hkernel
  rw [hproc] at hkernel₁
  split_ifs at hrun with hsome hring
  · obtain ⟨_, s₂, hrecord, hrun⟩ := bind_eq_ok.mp hrun
    have hkernel₂ := hheap.kmalloc s₁ hkernel₁
    rw [hrecord] at hkernel₂
    obtain ⟨cr3, s₃, hfork, hrun⟩ := bind_eq_ok.mp hrun
    obtain ⟨f, pmm, halloc, rfl, rfl⟩ := hkernel₂.apart.fork_returned hfork
    obtain ⟨_, s₄, hcreate, hrun⟩ := bind_eq_ok.mp hrun
    rw [pageOf_pageAddr] at hcreate hrun
    cases hrun
    have hapart := hkernel₂.apart.forked_spec halloc
    have hheap' := hheap.createHeap _ d (hkernel₂.directory.forked_spec halloc) hapart.closed
    rw [hcreate] at hheap'
    exact hheap'
  · cases hrun
    exact ⟨hkernel₁.directory, hkernel₁.closed⟩
  · cases hrun

/-- For every object and ring: once the process is there, and if no size wraps and every
segment that overlaps nothing starts at a page and has no page of a segment before it, these
segments are seen as the file and their headers say if and only if the file has zeros behind
the `filesz` bytes of each. -/
theorem proc_image_iff {heap : HeapCalls σ} (hheap : KeepsDirectories P.toFrameAlloc L base heap)
    (hkernel : KernelDirectory P.toFrameAlloc L s base) (hdr : ElfObj) (ring : BitVec 8)
    (hrun : procCreateFromElf P L heap base hdr ring s = .ok (some d) t) :
    ∃ s₁, procAlloc P L heap base ring s = .ok (some d) s₁ ∧
      (WellPlaced hdr d s₁ → (ImageCorrect hdr d s₁ t ↔ ZeroTails hdr d s₁)) := by
  obtain ⟨proc, s₁, hproc, hrun⟩ := bind_eq_ok.mp hrun
  cases proc with
  | none => cases hrun
  | some cr3 =>
    obtain ⟨_, s₂, hload, hrun⟩ := bind_eq_ok.mp hrun
    cases hrun
    obtain ⟨hdir, hclosed⟩ := procAlloc_directory hheap hkernel ring hproc
    exact ⟨s₁, hproc, fun hplaced => loadSegments_image_iff hdir hclosed hplaced hload⟩

/-- After setup, with three free pages at three megabytes, where the kernel can write at their
physical address. -/
def lowKernel : State { s : Pmm.State // Pmm.IsUsed s 0 } :=
  ⟨setupFrames smallLayout 0x110 fun _ _ => 0,
    Pmm.pmmMemorySetup [⟨0x300000, 0x3000, Pmm.memoryAvailable⟩] ⟨fun _ => 0, 0, 0, 0⟩, by decide +kernel⟩

theorem lowKernel_kernel : KernelDirectory pmmPool.toFrameAlloc smallLayout lowKernel 0x110 :=
  setup_kernelDirectory _ _ (by decide) (by decide) (by decide) (show Pmm.IsUsed _ _ by decide +kernel)
    (show Pmm.IsUsed _ _ by decide +kernel)

theorem lowKernel_identity : ∀ i < 3, ¬Pmm.IsUsed lowKernel.pmm.val (0x300 + i) ∧
    entryAt lowKernel 0x110 (0x300 + BitVec.ofNat 20 i) =
      some (pageAddr (0x300 + BitVec.ofNat 20 i) ||| vmmPresentWriteUser) := by
  decide +kernel

theorem lowKernel_tableOf (i : Index) :
    tableOf lowKernel 0x110 i = if i = 0 then some 0x111 else none :=
  tableOf_setup (L := smallLayout) (fun _ _ => 0) lowKernel.pmm (by decide) i

/-- A kernel heap with room for the record of the process. -/
def roomyHeap : HeapCalls { s : Pmm.State // Pmm.IsUsed s 0 } where
  kmalloc := pure true
  createHeap _ := pure ()

/-- Two bytes at `0x40000000`, of which `filesz` are the file's. -/
def tinySegment (filesz : BitVec 32) : ProgramHeader := ⟨ptLoad, 0, 0x40000000, filesz, 2⟩

/-- An object with this segment and a file that has two bytes there that are not zero. -/
def tinyObj (filesz : BitVec 32) : ElfObj where
  header i := if i = 0 then 0x7f else 0x45
  programs := [tinySegment filesz]

theorem roomyHeap_keeps : KeepsDirectories pmmPool.toFrameAlloc smallLayout 0x110 roomyHeap :=
  ⟨fun _ h => h, fun _ _ hdir hclosed => ⟨hdir, hclosed⟩⟩

theorem procAlloc_roomyHeap :
    procAlloc pmmPool smallLayout roomyHeap 0x110 0 lowKernel = .ok (some 0x110) lowKernel := by
  generalize lowKernel = k
  rfl

/-- A segment of one page is loaded while there is a page for it and one for its table. -/
theorem loadSegment_one_ok (hdr : ElfObj) (ph : ProgramHeader) (d : Frame)
    (hload : ph.type = ptLoad) (hpages : pagesOf ph = 1) {p : Frame} {pmm : σ}
    {r : Frame × σ} (halloc : P.allocPages 1 s.pmm = some (p, pmm)) (htable : P.alloc pmm = some r) :
    ∃ t, loadSegment P L hdr d ph s = .ok () t := by
  rw [← hpages] at halloc
  rw [loadSegment_run hload halloc, hpages]
  have hpmm : (written hdr ph p { s with pmm := pmm }).pmm = pmm := written_pmm p
  obtain ⟨ret, t, ht⟩ := vmmMapPages_one_ok (A := P.toFrameAlloc) (L := L)
    (s := written hdr ph p { s with pmm := pmm }) (pageAddr p) ph.vaddr (pageAddr d) 7 (hpmm.symm ▸ htable)
  exact ⟨t, bind_of_ok ht⟩

/-- There is a page for the segment and one for its table. -/
theorem tinyObj_loads (filesz : BitVec 32) :
    ∃ t, loadSegments pmmPool smallLayout (tinyObj filesz) 0x110 (tinyObj filesz).programs lowKernel =
      .ok () t := by
  obtain ⟨⟨p, pmm⟩, hp⟩ := Option.isSome_iff_exists.mp
    (show (pmmPool.allocPages 1 lowKernel.pmm).isSome = true by decide +kernel)
  obtain ⟨r, hr⟩ := Option.isSome_iff_exists.mp
    (show ((pmmPool.allocPages 1 lowKernel.pmm).bind fun r => pmmPool.alloc r.2).isSome = true by
      decide +kernel)
  rw [hp, Option.bind_some] at hr
  have hpages : pagesOf (tinySegment filesz) = 1 :=
    show (align 2 / pageSize).toNat = 1 by decide
  obtain ⟨t, ht⟩ := loadSegment_one_ok (L := smallLayout) (tinyObj filesz)
    (tinySegment filesz) 0x110 rfl hpages hp hr
  refine ⟨t, ?_⟩
  show loadSegments pmmPool smallLayout (tinyObj filesz) 0x110 [tinySegment filesz] _ = _
  rw [loadSegments, bind_of_ok ht]
  rfl

theorem procCreateFromElf_tinyObj (filesz : BitVec 32) :
    ∃ t, procCreateFromElf pmmPool smallLayout roomyHeap 0x110 (tinyObj filesz) 0 lowKernel =
        .ok (some 0x110) t ∧
      loadSegments pmmPool smallLayout (tinyObj filesz) 0x110 (tinyObj filesz).programs lowKernel =
        .ok () t := by
  obtain ⟨t, ht⟩ := tinyObj_loads filesz
  refine ⟨t, ?_, ht⟩
  unfold procCreateFromElf
  rw [bind_of_ok procAlloc_roomyHeap]
  dsimp only
  rw [bind_of_ok ht]
  rfl

theorem lowKernel_unmapped {v : Frame} (hv : (split v).1 ≠ 0) : entryAt lowKernel 0x110 v = none :=
  lookup_of_none ((lowKernel_tableOf _).trans (if_neg hv))

theorem tinyObj_unmapped (k : ℕ) (hk : k < 2) :
    entryAt lowKernel 0x110 (pageOf (0x40000000 + BitVec.ofNat 32 k)) = none := by
  apply lowKernel_unmapped
  have hk' : k = 0 ∨ k = 1 := by omega
  rcases hk' with rfl | rfl <;> decide

theorem tinyObj_split {filesz : BitVec 32} {pre post : List ProgramHeader} {h : ProgramHeader}
    (hsplit : (tinyObj filesz).programs = pre ++ h :: post) :
    pre = [] ∧ h = tinySegment filesz := by
  cases pre with
  | nil =>
    obtain ⟨rfl, -⟩ := List.cons.inj hsplit
    exact ⟨rfl, rfl⟩
  | cons g pre =>
    have hrest := (List.cons.inj hsplit).2
    cases pre <;> cases hrest

/-- With both bytes from the file, the image is right. -/
theorem proc_image_iff_tiny :
    ∃ t, procCreateFromElf pmmPool smallLayout roomyHeap 0x110 (tinyObj 2) 0 lowKernel =
        .ok (some 0x110) t ∧ ImageCorrect (tinyObj 2) 0x110 lowKernel t := by
  obtain ⟨t, hrun, -⟩ := procCreateFromElf_tinyObj 2
  obtain ⟨s₁, hproc, himage⟩ :=
    proc_image_iff roomyHeap_keeps lowKernel_kernel (tinyObj 2) 0 hrun
  rw [procAlloc_roomyHeap] at hproc
  obtain ⟨-, rfl⟩ := EStateM.Result.ok.inj hproc
  refine ⟨t, hrun, (himage ⟨fun g hg _ => ?_, fun pre h post hsplit _ => ?_⟩).mpr ?_⟩
  · rw [List.mem_singleton.mp hg]
    decide
  · obtain ⟨rfl, rfl⟩ := tinyObj_split hsplit
    exact ⟨by decide, fun g hg => absurd hg List.not_mem_nil⟩
  · intro pre h post hsplit _ k hlow hhigh
    obtain ⟨rfl, rfl⟩ := tinyObj_split hsplit
    exact absurd hlow (Nat.not_le_of_lt hhigh)

/-- With one byte from the file, the second byte is not zero but the file's, though the free pages
are mapped to themselves. -/
theorem tail_copied_from_file :
    (∀ i < 3, ¬Pmm.IsUsed lowKernel.pmm.val (0x300 + i) ∧
      entryAt lowKernel 0x110 (0x300 + BitVec.ofNat 20 i) =
        some (pageAddr (0x300 + BitVec.ofNat 20 i) ||| vmmPresentWriteUser)) ∧
    ∃ t, procCreateFromElf pmmPool smallLayout roomyHeap 0x110 (tinyObj 1) 0 lowKernel =
        .ok (some 0x110) t ∧
      procAlloc pmmPool smallLayout roomyHeap 0x110 0 lowKernel = .ok (some 0x110) lowKernel ∧
      ¬ImageCorrect (tinyObj 1) 0x110 lowKernel t := by
  obtain ⟨t, hrun, hload⟩ := procCreateFromElf_tinyObj 1
  refine ⟨lowKernel_identity, t, hrun, procAlloc_roomyHeap, fun himage => ?_⟩
  have hkernel := lowKernel_kernel
  have hpages : pagesOf (tinySegment 1) = 1 :=
    show (align 2 / pageSize).toNat = 1 by decide
  have hfree : ∀ v, InRange (pageOf (tinySegment 1).vaddr) (pagesOf (tinySegment 1)) v →
      entryAt lowKernel 0x110 v = none := by
    intro v hv
    rw [hpages] at hv
    rw [inRange_one.mp hv]
    exact lowKernel_unmapped (by decide)
  have hseparate : Separate lowKernel 0x110 [] (tinySegment 1) [] :=
    ⟨rfl, fun g hg => absurd hg List.not_mem_nil, tinyObj_unmapped⟩
  have hzero := himage [] _ [] rfl hseparate 1 (by decide)
  have haligned : (tinySegment 1).vaddr.setWidth 12 = 0 := by decide
  have hsize : (tinySegment 1).memsz.toNat ≤ 0xFFFFF000 := by decide
  have hdir := hkernel.directory
  have hclosed := hkernel.closed
  generalize lowKernel = k at hload hfree hdir hclosed
  have hshows := loadSegment_shows (tinyObj 1) hdir hclosed rfl haligned hsize hfree
  obtain ⟨_, u, hsegment, hrest⟩ := bind_eq_ok.mp
    (show (loadSegment pmmPool smallLayout (tinyObj 1) 0x110 (tinySegment 1) >>= fun _ =>
      pure ()) k = .ok () t from hload)
  cases hrest
  rw [hsegment] at hshows
  obtain ⟨e, he⟩ := hshows 1 (by decide)
  rw [he.seenByte] at hzero
  revert hzero
  decide

end JustKernel.Elf
