import JustKernel.Mm.VmmPages
import JustKernel.Mm.PmmRuns

/-! The page table operations against the map from pages to frames and
permissions, with `virt_to_phys` as the observer. While `virt_to_phys` walks a
directory that names `_base_table`, the window pages themselves show the
directory and the table it looks at; every other page shows its entry. -/

namespace JustKernel.Vmm

open TwoLevel Halting

variable {σ : Type} {A : FrameAlloc σ} {L : Layout} {s t u : State σ} {d : Frame}

/-- The map that the tables of `d` stand for. -/
def pageMap (s : State σ) (d v : Frame) : Option (Frame × BitVec 12) :=
  (entryAt s d v).map fun e => (address e, permsOf e)

/-- The entry `virt_to_phys` finds for page `v`. -/
def shownEntry (L : Layout) (s : State σ) (d v : Frame) : Option Entry :=
  if tableOf s d (split v).1 = some L.baseTable ∧ (split v).2 = L.dirPid then
    some (pageAddr d ||| vmmPresentWriteUser)
  else if tableOf s d (split v).1 = some L.baseTable ∧ (split v).2 = L.tablePid then
    some (pageAddr L.baseTable ||| vmmPresentWriteUser)
  else entryAt s d v

/-- The address made of an entry and an offset. -/
def physOf (e : Option Entry) (off : BitVec 12) : BitVec 32 :=
  match e with
  | none => 0xFFFFFFFF
  | some e => pageAddr (address e) + off.setWidth 32

/-- The entry `j` of table `f` while the windows are open on `d` and `f`. -/
def openEntry (L : Layout) (s : State σ) (d f : Frame) (j : Index) : Entry :=
  if f = L.baseTable ∧ j = L.dirPid then pageAddr d ||| vmmPresentWriteUser
  else if f = L.baseTable ∧ j = L.tablePid then pageAddr L.baseTable ||| vmmPresentWriteUser
  else s.frames f j

theorem setBaseEntry_openEntry (f : Frame) (j : Index) :
    (setBaseEntry L L.tablePid (pageAddr f ||| vmmPresentWriteUser)
        (setBaseEntry L L.dirPid (pageAddr d ||| vmmPresentWriteUser) s)).frames f j =
      openEntry L s d f j := by
  unfold openEntry
  by_cases hf : f = L.baseTable
  · subst hf
    by_cases hd : j = L.dirPid
    · subst hd
      rw [if_pos ⟨rfl, rfl⟩]
      exact (put_of_index_ne _ _ _ _ (dirPid_ne_tablePid L)).trans (put_self ..)
    · by_cases ht : j = L.tablePid
      · subst ht
        rw [if_neg fun h => hd h.2, if_pos ⟨rfl, rfl⟩]
        exact put_self ..
      · rw [if_neg fun h => hd h.2, if_neg fun h => ht h.2]
        exact (put_of_index_ne _ _ _ _ ht).trans (put_of_index_ne _ _ _ _ hd)
  · rw [if_neg fun h => hf h.1, if_neg fun h => hf h.1]
    exact congrFun ((put_of_frame_ne _ _ _ hf).trans (put_of_frame_ne _ _ _ hf)) j

theorem shownEntry_of_table {v f : Frame} (h : tableOf s d (split v).1 = some f) :
    shownEntry L s d v = if present (openEntry L s d f (split v).2) then
      some (openEntry L s d f (split v).2) else none := by
  unfold shownEntry openEntry
  simp only [h, Option.some.injEq]
  split_ifs with hd hpd ht hpt hpe
  · rfl
  · exact absurd (present_window d) hpd
  · rfl
  · exact absurd (present_window _) hpt
  · rw [entryAt, lookup_of_some h]
    exact if_pos hpe
  · rw [entryAt, lookup_of_some h]
    exact if_neg hpe

theorem virtToPhys_eq (h : Directory A L s d) (hclosed : Closed L s) (virt : BitVec 32) :
    (virtToPhys L virt (pageAddr d) s).1 =
      physOf (shownEntry L s d (pageOf virt)) (vmmVirtToOffs virt).off := by
  have htid : (vmmVirtToOffs virt).tid = (split (pageOf virt)).1 :=
    congrArg Prod.fst (vmmVirtToOffs_split virt)
  have hpid : (vmmVirtToOffs virt).pid = (split (pageOf virt)).2 :=
    congrArg Prod.snd (vmmVirtToOffs_split virt)
  obtain ⟨hopen, -⟩ := opened_openDir h hclosed
  have hdir : (openDir L (pageAddr d) s).frames d = s.frames d := by
    rw [openDir_run hclosed]
    exact put_of_frame_ne _ _ _ h.notBase
  have hentry : traverseDirEntry L (vmmVirtToOffs virt) (openDir L (pageAddr d) s) =
      s.frames d (split (pageOf virt)).1 := by
    rw [traverseDirEntry, hopen.dirFrame_eq, hdir, htid]
  unfold virtToPhys
  dsimp only
  rw [hentry]
  by_cases hpresent : present (s.frames d (split (pageOf virt)).1) = true
  · have htable := tableOf_of_present hpresent
    rw [if_pos hpresent, traverseTable, hentry, shownEntry_of_table htable]
    generalize address (s.frames d (split (pageOf virt)).1) = f at htable
    obtain ⟨-, -, hwindow, -, -⟩ := hopen.openTable_spec f
    have hshown : traverseTableEntry L (vmmVirtToOffs virt)
        (openTable L (pageAddr f) (openDir L (pageAddr d) s)) =
        openEntry L s d f (split (pageOf virt)).2 := by
      rw [traverseTableEntry, hwindow, openTable_run f hopen, openDir_run hclosed, hpid,
        setBaseEntry_openEntry]
    rw [traversePage, hshown]
    dsimp only
    split_ifs <;> rfl
  · have htable : tableOf s d (split (pageOf virt)).1 = none :=
      tableOf_eq_none (Bool.eq_false_iff.mpr hpresent)
    rw [if_neg hpresent, shownEntry, entryAt, lookup_of_none htable]
    simp [physOf, htable]

/-- `virt_to_phys` shows the same where the same entries name `_base_table` and the entry of
the page is the same. -/
theorem Refines.virtToPhys {f : Frame → Option Entry} (h : Refines A L s t d f)
    (hdir : Directory A L s d) (hclosed : Closed L s) {virt : BitVec 32}
    (hentry : f (pageOf virt) = entryAt s d (pageOf virt)) :
    (virtToPhys L virt (pageAddr d) t).1 = (virtToPhys L virt (pageAddr d) s).1 := by
  have hshown : shownEntry L t d (pageOf virt) = shownEntry L s d (pageOf virt) := by
    unfold shownEntry
    simp only [h.base, h.entry, hentry]
  rw [virtToPhys_eq h.directory h.closed, virtToPhys_eq hdir hclosed, hshown]

theorem pageMap_newEntry {p q v : Frame} {perms : BitVec 16} (hperms : perms.toNat < 0x1000) :
    (address (newEntry p q perms v), permsOf (newEntry p q perms v)) =
      (q + (v - p), perms.setWidth 12) := by
  have hlt : (perms.setWidth 32).toNat < 0x1000 := by
    rw [BitVec.toNat_setWidth]
    omega
  rw [newEntry, address_or _ hlt, permsOf_or, BitVec.setWidth_setWidth_of_le _ (by omega)]

/-- After an operation: the map is `f`, and outside the range `virt_to_phys` shows what it
showed before. The state is one from which the next operation can start. -/
structure Result (A : FrameAlloc σ) (L : Layout) (s t : State σ) (d : Frame) (p : Frame) (count : ℕ)
    (f : Frame → Option (Frame × BitVec 12)) : Prop where
  directory : Directory A L t d
  closed : Closed L t
  pages : ∀ v, pageMap t d v = f v
  outside : ∀ virt, ¬InRange p count (pageOf virt) →
    (virtToPhys L virt (pageAddr d) t).1 = (virtToPhys L virt (pageAddr d) s).1

section Operations

variable {phys virt : BitVec 32} {count : ℕ} {perms : BitVec 16}

/-- The map with the range from `p` on overwritten by consecutive frames from `q` on. -/
def overwrite (p q : Frame) (count : ℕ) (perms : BitVec 16)
    (f : Frame → Option (Frame × BitVec 12)) (v : Frame) : Option (Frame × BitVec 12) :=
  if InRange p count v then some (q + (v - p), perms.setWidth 12) else f v

/-- The map without the range from `p` on. -/
def remove (p : Frame) (count : ℕ) (f : Frame → Option (Frame × BitVec 12)) (v : Frame) :
    Option (Frame × BitVec 12) :=
  if InRange p count v then none else f v

theorem Refines.result_overwrite {p q : Frame} (hdir : Directory A L s d) (hclosed : Closed L s)
    (hperms : perms.toNat < 0x1000)
    (h : Refines A L s t d fun v =>
      if InRange p count v then some (newEntry p q perms v) else entryAt s d v) :
    Result A L s t d p count (overwrite p q count perms (pageMap s d)) where
  directory := h.directory
  closed := h.closed
  pages v := by
    rw [pageMap, h.entry, overwrite, pageMap]
    split_ifs
    · rw [Option.map_some, pageMap_newEntry hperms]
    · rfl
  outside virt hvirt := h.virtToPhys hdir hclosed (if_neg hvirt)

theorem Refines.result_remove {p : Frame} (hdir : Directory A L s d) (hclosed : Closed L s)
    (h : Refines A L s t d fun v => if InRange p count v then none else entryAt s d v) :
    Result A L s t d p count (remove p count (pageMap s d)) where
  directory := h.directory
  closed := h.closed
  pages v := by
    rw [pageMap, h.entry, remove, pageMap]
    split_ifs <;> rfl
  outside virt hvirt := h.virtToPhys hdir hclosed (if_neg hvirt)

theorem pageMap_eq_none {v : Frame} : pageMap s d v = none ↔ entryAt s d v = none :=
  Option.map_eq_none_iff

/-- Unmapping mapped pages allocates nothing. -/
theorem vmmUnmapPages_returns (hdir : Directory A L t d) (hclosed : Closed L t) (hcount : count ≤ 2 ^ 20)
    (hwin : ∀ v, InRange (pageOf virt) count v → ¬WindowPage L t d v)
    (hsome : ∀ v, InRange (pageOf virt) count v → entryAt t d v ≠ none) :
    ∃ u, vmmUnmapPages A L virt (pageAddr d) count t = .ok 0 u ∧
      Refines A L t u d fun v => if InRange (pageOf virt) count v then none else entryAt t d v := by
  have hspec := vmmUnmapPages_refines virt hdir hclosed hcount hwin
  obtain ⟨hopen, hagree⟩ := opened_openDir hdir hclosed
  have htables : ∀ v, InRange (pageOf virt) count v →
      tableOf (openDir L (pageAddr d) t) d (split v).1 ≠ none := by
    intro v hv hnone
    apply hsome v hv
    rw [← hagree.entry v (hwin v hv)]
    exact lookup_of_none hnone
  obtain ⟨r, u, hrun⟩ := unmapLoop_ok count hcount hopen
    (fun v hv => mt (windowPage_iff hagree.base v).mp (hwin v hv)) htables 0
  have hok : vmmUnmapPages A L virt (pageAddr d) count t =
      .ok r (closeDir L (closeTable L u)) := by
    unfold vmmUnmapPages
    rw [and_mask, modify_bind_run, bind_of_ok hrun]
    rfl
  rw [hok] at hspec
  obtain ⟨hr, hiff, hrefines⟩ := hspec
  have hzero : r = 0 := by
    refine hr.resolve_right fun h1 => ?_
    obtain ⟨v, hv, hnone⟩ := hiff.mp h1
    exact hsome v hv hnone
  subst hzero
  exact ⟨_, hok, hrefines⟩

/-- Unmapping a range that has just been mapped allocates nothing and restores what
`virt_to_phys` shows everywhere. -/
theorem vmmUnmapPages_restores (hdir : Directory A L s d) (hclosed : Closed L s)
    (hcount : count ≤ 2 ^ 20) (hwin : ∀ v, InRange (pageOf virt) count v → ¬WindowPage L s d v)
    (hfree : ∀ v, InRange (pageOf virt) count v → entryAt s d v = none)
    (h : Refines A L s t d fun v => if InRange (pageOf virt) count v then
      some (newEntry (pageOf virt) (pageOf phys) perms v) else entryAt s d v) :
    ∃ u, vmmUnmapPages A L virt (pageAddr d) count t = .ok 0 u ∧
      ∀ addr, (virtToPhys L addr (pageAddr d) u).1 = (virtToPhys L addr (pageAddr d) s).1 := by
  have hsome : ∀ v, InRange (pageOf virt) count v → entryAt t d v ≠ none := by
    intro v hv
    rw [h.entry, if_pos hv]
    exact Option.some_ne_none _
  obtain ⟨u, hrun, hrefines⟩ := vmmUnmapPages_returns h.directory h.closed hcount
    (fun v hv => mt (windowPage_iff h.base v).mp (hwin v hv)) hsome
  refine ⟨u, hrun, fun addr => ?_⟩
  have hback : Refines A L s u d (entryAt s d) := by
    refine ⟨hrefines.directory, hrefines.closed,
      fun i => (hrefines.base i).trans (h.base i), fun v => ?_⟩
    rw [hrefines.entry, h.entry]
    split_ifs with hv
    · exact (hfree v hv).symm
    · rfl
  exact hback.virtToPhys hdir hclosed rfl

/-- For every directory, every range of at most `2 ^ 20` pages without a window page and
permissions below `0x1000` with the present bit: remapping overwrites exactly the range,
unmapping removes exactly the range and tells whether a page of it was unmapped, mapping an
unmapped range does what remapping does and can be undone; outside the range
`virt_to_phys` does not change. An operation that does not return is waiting for
`pmm_alloc`. -/
theorem vmm_pages_refine (phys virt : BitVec 32) (count : ℕ) (perms : BitVec 16)
    (hdir : Directory A L s d) (hclosed : Closed L s) (hcount : count ≤ 2 ^ 20) (hperms : perms.toNat < 0x1000)
    (hpresent : perms.getLsbD 0 = true)
    (hwin : ∀ v, InRange (pageOf virt) count v → ¬WindowPage L s d v) :
    Ends (fun ret t => ret = 0 ∧ Result A L s t d (pageOf virt) count
        (overwrite (pageOf virt) (pageOf phys) count perms (pageMap s d)))
      (fun t => A.alloc t.pmm = none) (vmmRemapPages A L phys virt (pageAddr d) count perms s) ∧
    Ends (fun ret t => (ret = 0 ∨ ret = 1) ∧
        (ret = 1 ↔ ∃ v, InRange (pageOf virt) count v ∧ pageMap s d v = none) ∧
        Result A L s t d (pageOf virt) count (remove (pageOf virt) count (pageMap s d)))
      (fun t => A.alloc t.pmm = none) (vmmUnmapPages A L virt (pageAddr d) count s) ∧
    ((∀ v, InRange (pageOf virt) count v → pageMap s d v = none) →
      vmmMapPages A L phys virt (pageAddr d) count perms s =
        vmmRemapPages A L phys virt (pageAddr d) count perms s ∧
      Ends (fun ret t => ret = 0 ∧ Result A L s t d (pageOf virt) count
          (overwrite (pageOf virt) (pageOf phys) count perms (pageMap s d)) ∧
          ∃ u, vmmUnmapPages A L virt (pageAddr d) count t = .ok 0 u ∧
            ∀ addr, (virtToPhys L addr (pageAddr d) u).1 = (virtToPhys L addr (pageAddr d) s).1)
        (fun t => A.alloc t.pmm = none)
        (vmmMapPages A L phys virt (pageAddr d) count perms s)) := by
  have hremap := vmmRemapPages_refines phys virt perms hdir hclosed hcount hpresent hwin
  refine ⟨hremap.imp fun ret t ht => ⟨ht.1, ht.2.result_overwrite hdir hclosed hperms⟩, ?_, ?_⟩
  · refine (vmmUnmapPages_refines virt hdir hclosed hcount hwin).imp fun ret t ht => ?_
    refine ⟨ht.1, ?_, ht.2.2.result_remove hdir hclosed⟩
    simp only [pageMap_eq_none]
    exact ht.2.1
  · intro hfree
    simp only [pageMap_eq_none] at hfree
    have heq := vmmMapPages_eq_vmmRemapPages phys virt perms hdir hclosed hcount hwin hfree
    refine ⟨heq, ?_⟩
    rw [heq]
    refine hremap.imp fun ret t ht => ⟨ht.1, ht.2.result_overwrite hdir hclosed hperms, ?_⟩
    exact vmmUnmapPages_restores hdir hclosed hcount hwin hfree ht.2

end Operations

/-! ### The callers' side: the kernel directory and the page frame allocator -/

/-- `pmm_alloc(PAGE_SIZE)` of a manager with page 0 marked used, as `pmm_memory_setup`
leaves it. -/
def pmmAllocFrame (s : { s : Pmm.State // Pmm.IsUsed s 0 }) :
    Option (Frame × { s : Pmm.State // Pmm.IsUsed s 0 }) :=
  match h : Pmm.pmmAlloc Pmm.pageSize s.1 with
  | none => none
  | some (p, t) =>
    some (BitVec.ofNat 20 (p / Pmm.pageSize),
      ⟨t, ((Pmm.pmmAlloc_spec s.2 h).2.1 0).mpr (Or.inr s.2)⟩)

theorem pmmAllocFrame_spec {s s' : { s : Pmm.State // Pmm.IsUsed s 0 }} {f : Frame}
    (h : pmmAllocFrame s = some (f, s')) :
    ¬Pmm.IsUsed s.1 f.toNat ∧ ∀ q, Pmm.IsUsed s'.1 q ↔ q = f.toNat ∨ Pmm.IsUsed s.1 q := by
  unfold pmmAllocFrame at h
  split at h
  · cases h
  · rename_i p t hrun
    obtain ⟨rfl, rfl⟩ := Prod.mk.inj (Option.some.inj h)
    obtain ⟨-, hused, hfresh, hfit, -⟩ := Pmm.pmmAlloc_spec s.2 hrun
    have hone : Pmm.pageCount Pmm.pageSize = 1 := by decide
    have hpages : ∀ q, q ∈ (Pmm.Block.mk p Pmm.pageSize).pages ↔ q = p / Pmm.pageSize := by
      intro q
      rw [Pmm.Block.pages, Set.mem_Ico, hone]
      dsimp only
      omega
    have hf : (BitVec.ofNat 20 (p / Pmm.pageSize)).toNat = p / Pmm.pageSize := by
      rw [hone, Pmm.bitmapMaxPage_eq] at hfit
      rw [BitVec.toNat_ofNat]
      exact Nat.mod_eq_of_lt (by omega)
    rw [hf]
    refine ⟨hfresh _ ((hpages _).mpr rfl), fun q => ?_⟩
    rw [hused, hpages]

/-- The page frame allocator as the supply of tables. -/
def pmmFrames : FrameAlloc { s : Pmm.State // Pmm.IsUsed s 0 } where
  alloc := pmmAllocFrame
  taken s f := Pmm.IsUsed s.1 f.toNat
  fresh h := (pmmAllocFrame_spec h).1
  takes h := ((pmmAllocFrame_spec h).2 _).mpr (Or.inl rfl)
  keeps h hg := ((pmmAllocFrame_spec h).2 _).mpr (Or.inr hg)

/-- `_base_dir` and `_base_table` after the loops of `vmm_memory_setup`: entry 0 of the
directory names the table, which maps the first four megabytes to themselves. -/
def setupFrames (L : Layout) (baseDir : Frame) (m : Frames) : Frames :=
  Function.update
    (Function.update m baseDir fun i =>
      if i = 0 then pageAddr L.baseTable ||| vmmPresentWriteUser else 6)
    L.baseTable fun i => pageAddr (i.setWidth 20) ||| vmmPresentWriteUser

section Setup

variable {baseDir : Frame} (m : Frames) (pmm : σ)

theorem tableOf_setup (hne : baseDir ≠ L.baseTable) (i : Index) :
    tableOf (⟨setupFrames L baseDir m, pmm⟩ : State σ) baseDir i =
      if i = 0 then some L.baseTable else none := by
  have hentry : setupFrames L baseDir m baseDir i =
      if i = 0 then pageAddr L.baseTable ||| vmmPresentWriteUser else 6 := by
    rw [setupFrames, Function.update_of_ne hne, Function.update_self]
  by_cases hi : i = 0
  · rw [if_pos hi] at hentry ⊢
    have hpresent : present (setupFrames L baseDir m baseDir i) = true := by
      rw [hentry]
      exact present_window _
    rw [tableOf_of_present (s := ⟨setupFrames L baseDir m, pmm⟩) hpresent]
    exact congrArg some ((congrArg address hentry).trans (address_window _))
  · rw [if_neg hi] at hentry ⊢
    apply tableOf_eq_none
    show present (setupFrames L baseDir m baseDir i) = false
    rw [hentry]
    decide

/-- The kernel's directory meets what the operations ask for. -/
theorem setup_directory (hne : baseDir ≠ L.baseTable) (hdir : A.taken pmm baseDir)
    (htable : A.taken pmm L.baseTable) :
    Directory A L ⟨setupFrames L baseDir m, pmm⟩ baseDir := by
  refine ⟨⟨fun i j t hi hj => ?_, fun i hi => ?_⟩, hne, hdir, htable, fun i t hi => ?_⟩
  · rw [show tableAt format _ _ i = _ from tableOf_setup m pmm hne i] at hi
    rw [show tableAt format _ _ j = _ from tableOf_setup m pmm hne j] at hj
    split_ifs at hi hj with h0 h0'
    rw [h0, h0']
  · rw [show tableAt format _ _ i = _ from tableOf_setup m pmm hne i] at hi
    split_ifs at hi
    exact hne (Option.some.inj hi).symm
  · rw [tableOf_setup m pmm hne] at hi
    split_ifs at hi
    cases hi
    exact htable

/-- Its windows are closed, since they lie in the first four megabytes. -/
theorem setup_closed (hdir : L.dirPid.setWidth 20 = L.dir) (htable : L.tablePid.setWidth 20 = L.table) :
    Closed L (⟨setupFrames L baseDir m, pmm⟩ : State σ) := by
  constructor
  · show setupFrames L baseDir m L.baseTable L.dirPid = _
    rw [setupFrames, Function.update_self, hdir]
  · show setupFrames L baseDir m L.baseTable L.tablePid = _
    rw [setupFrames, Function.update_self, htable]

/-- In a directory that names `_base_table` in entry 0 only, the window pages are the pages of
`_dir` and `_table`. -/
theorem windowPage_kernel {s : State σ} (hdir : L.dirPid.setWidth 20 = L.dir)
    (htable : L.tablePid.setWidth 20 = L.table)
    (hbase : ∀ i, tableOf s d i = some L.baseTable ↔ i = 0) (v : Frame) :
    WindowPage L s d v ↔ v = L.dir ∨ v = L.table := by
  have hpage : ∀ j : Index, (split v).1 = 0 ∧ (split v).2 = j ↔ v = j.setWidth 20 := by
    intro j
    have hsplit : split (j.setWidth 20) = (0, j) := by
      apply Prod.ext
      · apply BitVec.eq_of_getLsbD_eq
        intro i hi
        simp [split]
      · simp [split]
    constructor
    · intro h
      apply split_inj
      rw [hsplit]
      exact Prod.ext h.1 h.2
    · rintro rfl
      rw [hsplit]
      exact ⟨rfl, rfl⟩
  rw [WindowPage, hbase, and_or_left, hpage, hpage, hdir, htable]

end Setup

/-- A kernel with its tables from page `0x110` on. -/
def smallLayout : Layout := ⟨0x111, 0x112, 0x113, by decide⟩

/-- After setup, with three free pages. -/
def smallKernel : State { s : Pmm.State // Pmm.IsUsed s 0 } :=
  ⟨setupFrames smallLayout 0x110 fun _ _ => 0, Pmm.threePages, by decide +kernel⟩

theorem smallKernel_directory : Directory pmmFrames smallLayout smallKernel 0x110 :=
  setup_directory _ _ (by decide) (show Pmm.IsUsed _ _ by decide +kernel) (show Pmm.IsUsed _ _ by decide +kernel)

theorem smallKernel_closed : Closed smallLayout smallKernel := setup_closed _ _ (by decide) (by decide)

/-- Two pages at eight megabytes are mapped to frames at three megabytes. -/
theorem vmm_pages_refine_small_kernel :
    Ends (fun ret t => ret = 0 ∧ pageMap t 0x110 0x801 = some (0x301, 7))
      (fun t => pmmFrames.alloc t.pmm = none)
      (vmmRemapPages pmmFrames smallLayout 0x300000 0x800000 (pageAddr 0x110) 2 7 smallKernel) := by
  have hdir := smallKernel_directory
  have hclosed := smallKernel_closed
  have hwin : ∀ v, InRange (pageOf 0x800000) 2 v → ¬WindowPage smallLayout smallKernel 0x110 v := by
    intro v hv hwindow
    have htid : (split v).1 ≠ 0 := by
      have h1 : v = 0x800 ∨ v = 0x801 := by
        have hp : pageOf 0x800000 = 0x800 := by decide
        rw [hp] at hv
        unfold InRange at hv
        bv_omega
      rcases h1 with rfl | rfl <;> decide
    have htable := tableOf_setup (L := smallLayout) (fun _ _ => 0) smallKernel.pmm
      (show (0x110 : Frame) ≠ smallLayout.baseTable by decide) (split v).1
    rw [if_neg htid] at htable
    have := hwindow.1
    rw [show tableOf smallKernel 0x110 (split v).1 = none from htable] at this
    cases this
  have hin : InRange (pageOf 0x800000) 2 0x801 := by decide
  have hcount : 2 ≤ 2 ^ 20 := by omega
  have hperms : (7 : BitVec 16).toNat < 0x1000 := by decide
  have hpresent : (7 : BitVec 16).getLsbD 0 = true := by decide
  have hall := vmm_pages_refine 0x300000 0x800000 2 7 hdir hclosed hcount hperms hpresent hwin
  -- the state is kept folded from here on
  generalize smallKernel = k at hall ⊢
  refine hall.1.imp fun ret t ht => ⟨ht.1, ?_⟩
  rw [ht.2.pages, overwrite, if_pos hin]
  decide

/-! ### Directories that are their own tables -/

/-- The tables of a directory are pairwise distinct frames, no frame of it is given out, and the
windows are closed. -/
structure Tabled (A : FrameAlloc σ) (L : Layout) (s : State σ) (d : Frame) : Prop where
  distinct : ∀ i j t, tableOf s d i = some t → tableOf s d j = some t → i = j
  takenDir : A.taken s.pmm d
  takenTables : ∀ i t, tableOf s d i = some t → A.taken s.pmm t
  closed : Closed L s

/-- What a remap of a range is to do to the map and to the rest of the addresses. -/
def Remapped (A : FrameAlloc σ) (L : Layout) (s : State σ) (d : Frame) (phys virt : BitVec 32) (count : ℕ)
    (perms : BitVec 16) : Prop :=
  Ends (fun ret t => ret = 0 ∧
      (∀ v, pageMap t d v = overwrite (pageOf virt) (pageOf phys) count perms (pageMap s d) v) ∧
      ∀ addr, ¬InRange (pageOf virt) count (pageOf addr) →
        (virtToPhys L addr (pageAddr d) t).1 = (virtToPhys L addr (pageAddr d) s).1)
    (fun t => A.alloc t.pmm = none) (vmmRemapPages A L phys virt (pageAddr d) count perms s)

/-- A directory with the frame `f` as its table `i` and the frame `g` as its table `j`. -/
def twoTables (i : Index) (f : Frame) (j : Index) (g : Frame) (k : Index) : Entry :=
  if k = i then pageAddr f ||| vmmPresentWriteUser else if k = j then pageAddr g ||| vmmPresentWriteUser else 0

theorem tableOf_twoTables {i j : Index} {f g : Frame} (hs : s.frames d = twoTables i f j g) (k : Index) :
    tableOf s d k = if k = i then some f else if k = j then some g else none := by
  by_cases hi : k = i
  · have hk : s.frames d k = pageAddr f ||| vmmPresentWriteUser := by rw [hs, twoTables, if_pos hi]
    rw [if_pos hi, tableOf_of_present (hk ▸ present_window f), hk, address_window]
  · by_cases hj : k = j
    · have hk : s.frames d k = pageAddr g ||| vmmPresentWriteUser := by rw [hs, twoTables, if_neg hi, if_pos hj]
      rw [if_neg hi, if_pos hj, tableOf_of_present (hk ▸ present_window g), hk, address_window]
    · have hk : s.frames d k = 0 := by rw [hs, twoTables, if_neg hi, if_neg hj]
      rw [if_neg hi, if_neg hj]
      exact tableOf_eq_none (by rw [hk]; rfl)

theorem tabled_twoTables {i j : Index} {f g : Frame} (hs : s.frames d = twoTables i f j g) (hfg : f ≠ g)
    (hd : A.taken s.pmm d) (hf : A.taken s.pmm f) (hg : A.taken s.pmm g) (hclosed : Closed L s) :
    Tabled A L s d where
  distinct k l t hk hl := by
    rw [tableOf_twoTables hs] at hk hl
    split_ifs at hk hl with h1 h2 h3 h4 h5 h6
    · rw [h1, h2]
    · exact absurd ((Option.some.inj hk).trans (Option.some.inj hl).symm) hfg
    · exact absurd ((Option.some.inj hl).trans (Option.some.inj hk).symm) hfg
    · rw [h4, h6]
  takenDir := hd
  takenTables k t hk := by
    rw [tableOf_twoTables hs] at hk
    split_ifs at hk
    · exact Option.some.inj hk ▸ hf
    · exact Option.some.inj hk ▸ hg
  closed := hclosed

/-- A directory at `0x120` with itself as its last table, and a table with one page at four megabytes. -/
def selfMapped : State { s : Pmm.State // Pmm.IsUsed s 0 } :=
  ⟨Function.update (Function.update (setupFrames smallLayout 0x110 fun _ _ => 0) 0x120
      (twoTables 1023 0x120 1 0x121)) 0x121 (twoTables 0 0x300 0 0x300), Pmm.threePages, by decide +kernel⟩

/-- `_base_table` maps the two windows only, and is used as a directory. -/
def bareBase : State { s : Pmm.State // Pmm.IsUsed s 0 } :=
  ⟨Function.update (fun _ _ => 0) 0x111 (twoTables 0x112 0x112 0x113 0x113), Pmm.threePages, by decide +kernel⟩

theorem not_remapped_selfMapped : ¬Remapped pmmFrames smallLayout selfMapped 0x120 0x200000 0xFFC01000 1 7 := by
  have hrun := ok_of_returned (r := vmmRemapPages pmmFrames smallLayout 0x200000 0xFFC01000 (pageAddr 0x120) 1 7
    selfMapped) (a := 0) (by decide +kernel)
  intro h
  rw [Remapped, hrun] at h
  have hshown := h.2.2 0x400000 (by decide)
  revert hshown
  decide +kernel

theorem not_remapped_bareBase : ¬Remapped pmmFrames smallLayout bareBase 0x111 0x200000 0x44805000 1 7 := by
  have hrun := ok_of_returned (r := vmmRemapPages pmmFrames smallLayout 0x200000 0x44805000 (pageAddr 0x111) 1 7
    bareBase) (a := 0) (by decide +kernel)
  intro h
  rw [Remapped, hrun] at h
  have hentry := h.2.1 0x44805
  revert hentry
  decide +kernel

/-- Distinct tables are not enough. A page of the last table of a directory that names itself there is
one of its entries, so that a remap takes away its table 1; the table that `_base_table` names at the
window of `_dir` is not the one that is written while the window is open; and the page of
`_base_table` in the directory that is active is gone before the windows are closed through it. -/
theorem pages_not_refine :
    (Tabled pmmFrames smallLayout selfMapped 0x120 ∧ (∀ v, ¬WindowPage smallLayout selfMapped 0x120 v) ∧
      ¬Remapped pmmFrames smallLayout selfMapped 0x120 0x200000 0xFFC01000 1 7) ∧
    (Tabled pmmFrames smallLayout bareBase 0x111 ∧ (∀ v, ¬WindowPage smallLayout bareBase 0x111 v) ∧
      ¬Remapped pmmFrames smallLayout bareBase 0x111 0x200000 0x44805000 1 7) ∧
    Directory pmmFrames smallLayout smallKernel 0x110 ∧ ¬WindowPage smallLayout smallKernel 0x110 0x111 ∧
      entryAt (finalState (unmapLoop pmmFrames smallLayout 1 0x111000 0
        (openDir smallLayout (pageAddr 0x110) smallKernel))) 0x110 smallLayout.baseTable = none := by
  have hself : selfMapped.frames 0x120 = twoTables 1023 0x120 1 0x121 := rfl
  have hbare : bareBase.frames 0x111 = twoTables 0x112 0x112 0x113 0x113 := rfl
  refine ⟨⟨tabled_twoTables hself (by decide) ?_ ?_ ?_ ⟨by decide, by decide⟩, ?_, not_remapped_selfMapped⟩,
    ⟨tabled_twoTables hbare (by decide) ?_ ?_ ?_ ⟨by decide, by decide⟩, ?_, not_remapped_bareBase⟩,
    smallKernel_directory, ?_, by decide +kernel⟩
  · exact show Pmm.IsUsed _ _ by decide +kernel
  · exact show Pmm.IsUsed _ _ by decide +kernel
  · exact show Pmm.IsUsed _ _ by decide +kernel
  · rintro v ⟨htable, -⟩
    rw [tableOf_twoTables hself] at htable
    split_ifs at htable <;> exact absurd (Option.some.inj htable) (by decide)
  · exact show Pmm.IsUsed _ _ by decide +kernel
  · exact show Pmm.IsUsed _ _ by decide +kernel
  · exact show Pmm.IsUsed _ _ by decide +kernel
  · rintro v ⟨htable, -⟩
    rw [tableOf_twoTables hbare] at htable
    split_ifs at htable <;> exact absurd (Option.some.inj htable) (by decide)
  · rintro ⟨-, hpid⟩
    revert hpid
    decide

end JustKernel.Vmm
