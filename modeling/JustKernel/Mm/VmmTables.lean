import JustKernel.Mm.Vmm

/-! What one iteration of the page loops does. While an operation runs, the
directory window stays open on its directory and the table window moves from
table to table; both are entries of `_base_table`, so that opening them changes
no page of the directory other than the window pages. A missing table is filled
with zeros before it is named in the directory, so that it maps nothing. -/

namespace JustKernel.Vmm

open TwoLevel Halting

/-- How `vmm_entry_t` is read. -/
def format : Format Frame Entry := ⟨present, address⟩

variable {σ : Type} {A : FrameAlloc σ} {L : Layout} {s t u : State σ} {d : Frame}

/-- The table of the directory `d` for the pages with directory index `i`. -/
def tableOf (s : State σ) (d : Frame) (i : Index) : Option Frame := tableAt format s.frames d i

/-- The entry of page `v`. -/
def entryAt (s : State σ) (d v : Frame) : Option Entry := lookup format s.frames d (split v)

/-- Page `v` of the directory is mapped by one of the two window entries of `_base_table`. -/
def WindowPage (L : Layout) (s : State σ) (d v : Frame) : Prop :=
  tableOf s d (split v).1 = some L.baseTable ∧
    ((split v).2 = L.dirPid ∨ (split v).2 = L.tablePid)

/-- A directory as `vmm_memory_setup` and `vmm_fork_kernel_space` build it: its tables are
pairwise distinct frames, the directory is neither one of them nor `_base_table`, and the
allocator does not give out any of these frames. -/
structure Directory (A : FrameAlloc σ) (L : Layout) (s : State σ) (d : Frame) : Prop where
  tree : Tree format s.frames d
  notBase : d ≠ L.baseTable
  takenDir : A.taken s.pmm d
  takenBase : A.taken s.pmm L.baseTable
  takenTables : ∀ i t, tableOf s d i = some t → A.taken s.pmm t

/-- Both windows show their own arrays. -/
structure Closed (L : Layout) (s : State σ) : Prop where
  dir : s.frames L.baseTable L.dirPid = pageAddr L.dir ||| vmmPresentWriteUser
  table : s.frames L.baseTable L.tablePid = pageAddr L.table ||| vmmPresentWriteUser

/-- The directory window shows `d`, the table window some frame. -/
structure Opened (A : FrameAlloc σ) (L : Layout) (s : State σ) (d : Frame) : Prop where
  directory : Directory A L s d
  dirWindow : s.frames L.baseTable L.dirPid = pageAddr d ||| vmmPresentWriteUser
  tableWindow : ∃ f, s.frames L.baseTable L.tablePid = pageAddr f ||| vmmPresentWriteUser

/-- The same map, window pages apart, and `_base_table` named by the same entries. -/
structure Agree (L : Layout) (s t : State σ) (d : Frame) : Prop where
  base : ∀ i, tableOf t d i = some L.baseTable ↔ tableOf s d i = some L.baseTable
  entry : ∀ v, ¬WindowPage L s d v → entryAt t d v = entryAt s d v

theorem windowPage_iff (h : ∀ i, tableOf t d i = some L.baseTable ↔ tableOf s d i = some L.baseTable)
    (v : Frame) : WindowPage L t d v ↔ WindowPage L s d v :=
  and_congr_left fun _ => h _

theorem Agree.refl (L : Layout) (s : State σ) (d : Frame) : Agree L s s d :=
  ⟨fun _ => Iff.rfl, fun _ _ => rfl⟩

theorem Agree.trans (h : Agree L s t d) (h' : Agree L t u d) : Agree L s u d where
  base i := (h'.base i).trans (h.base i)
  entry v hv := by
    rw [h'.entry v (mt (windowPage_iff h.base v).mp hv), h.entry v hv]

theorem address_window (f : Frame) : address (pageAddr f ||| vmmPresentWriteUser) = f :=
  address_or f (by decide)

theorem present_window (f : Frame) : present (pageAddr f ||| vmmPresentWriteUser) = true :=
  present_or f _

theorem dirPid_ne_tablePid (L : Layout) : L.dirPid ≠ L.tablePid := by
  have hpid : ∀ f : Frame, (vmmVirtToOffs (pageAddr f)).pid = f.setWidth 10 := by
    intro f
    have h := congrArg Prod.snd (vmmVirtToOffs_split (pageAddr f))
    rw [pageOf_pageAddr] at h
    exact h
  rw [Layout.dirPid, Layout.tablePid, hpid, hpid]
  exact L.distinct

/-! ### The windows -/

theorem setBaseEntry_eq_self {i : Index} {e : Entry} (h : s.frames L.baseTable i = e) :
    setBaseEntry L i e s = s := by
  rw [setBaseEntry, ← h, put_eq_self]

/-- Writing a window entry of `_base_table`. -/
theorem agree_setBaseEntry (hd : d ≠ L.baseTable) {i : Index} (hi : i = L.dirPid ∨ i = L.tablePid)
    (e : Entry) : Agree L s (setBaseEntry L i e s) d := by
  have hdir : (setBaseEntry L i e s).frames d = s.frames d := put_of_frame_ne s.frames i e hd
  refine ⟨fun j => ?_, fun v hv => ?_⟩
  · rw [tableOf, tableAt_congr (congrFun hdir j), tableOf]
  · refine lookup_congr (congrFun hdir _) fun f hf => ?_
    by_cases hfb : f = L.baseTable
    · subst hfb
      apply put_of_index_ne
      rintro rfl
      exact hv ⟨hf, hi⟩
    · exact congrFun (put_of_frame_ne s.frames i e hfb) _

/-- A frame that the allocator gives out is not the directory. -/
theorem Directory.ne_fresh {f : Frame} {pmm : σ} (h : Directory A L s d)
    (halloc : A.alloc s.pmm = some (f, pmm)) : d ≠ f :=
  fun hd => A.fresh halloc (hd ▸ h.takenDir)

/-- An allocation by itself changes no frame. -/
theorem Opened.allocated {f : Frame} {pmm : σ} (h : Opened A L s d)
    (halloc : A.alloc s.pmm = some (f, pmm)) : Opened A L { s with pmm := pmm } d where
  directory :=
    { tree := h.directory.tree
      notBase := h.directory.notBase
      takenDir := A.keeps halloc h.directory.takenDir
      takenBase := A.keeps halloc h.directory.takenBase
      takenTables := fun i g hg => A.keeps halloc (h.directory.takenTables i g hg) }
  dirWindow := h.dirWindow
  tableWindow := h.tableWindow

theorem Directory.of_frames (h : Directory A L s d) (hdir : t.frames d = s.frames d)
    (hpmm : t.pmm = s.pmm) : Directory A L t d where
  tree := h.tree.congr hdir
  notBase := h.notBase
  takenDir := hpmm ▸ h.takenDir
  takenBase := hpmm ▸ h.takenBase
  takenTables i f hf := by
    rw [tableOf, tableAt_congr (congrFun hdir i)] at hf
    rw [hpmm]
    exact h.takenTables i f hf

theorem Directory.setBaseEntry_spec (h : Directory A L s d) (i : Index) (e : Entry) :
    Directory A L (setBaseEntry L i e s) d :=
  h.of_frames (put_of_frame_ne s.frames i e h.notBase) rfl

/-- The two outcomes of opening the table window come to one. -/
theorem openTable_run (f : Frame) (h : Opened A L s d) :
    openTable L (pageAddr f) s =
      setBaseEntry L L.tablePid (pageAddr f ||| vmmPresentWriteUser) s := by
  obtain ⟨g, hg⟩ := h.tableWindow
  unfold openTable
  rw [hg, address_window, pageOf_pageAddr]
  split_ifs with hgf
  · rw [← hgf, setBaseEntry_eq_self hg]
  · rfl

theorem Opened.setTableWindow (h : Opened A L s d) (f : Frame) :
    Opened A L (setBaseEntry L L.tablePid (pageAddr f ||| vmmPresentWriteUser) s) d where
  directory := h.directory.setBaseEntry_spec _ _
  dirWindow := (put_of_index_ne s.frames _ _ _ (dirPid_ne_tablePid L)).trans h.dirWindow
  tableWindow := ⟨f, put_self ..⟩

theorem Opened.openTable_spec (h : Opened A L s d) (f : Frame) :
    Opened A L (openTable L (pageAddr f) s) d ∧ Agree L s (openTable L (pageAddr f) s) d ∧
      tableFrame L (openTable L (pageAddr f) s) = f ∧
      (openTable L (pageAddr f) s).frames d = s.frames d ∧
      (openTable L (pageAddr f) s).pmm = s.pmm := by
  rw [openTable_run f h]
  refine ⟨h.setTableWindow f, agree_setBaseEntry h.directory.notBase (Or.inr rfl) _, ?_,
    put_of_frame_ne s.frames _ _ h.directory.notBase, rfl⟩
  exact (congrArg address (put_self ..)).trans (address_window f)

theorem Opened.closeTable_run (h : Opened A L s d) :
    closeTable L s = setBaseEntry L L.tablePid (pageAddr L.table ||| vmmPresentWriteUser) s :=
  openTable_run L.table h

theorem Opened.dirFrame_eq (h : Opened A L s d) : dirFrame L s = d := by
  rw [dirFrame, h.dirWindow, address_window]

/-- Opening the directory window at the start of an operation. -/
theorem openDir_run (hclosed : Closed L s) (d : Frame) :
    openDir L (pageAddr d) s = setBaseEntry L L.dirPid (pageAddr d ||| vmmPresentWriteUser) s := by
  unfold openDir
  rw [hclosed.dir, address_window, pageOf_pageAddr]
  split_ifs with h
  · rw [← h, setBaseEntry_eq_self hclosed.dir]
  · rfl

theorem opened_openDir (h : Directory A L s d) (hclosed : Closed L s) :
    Opened A L (openDir L (pageAddr d) s) d ∧ Agree L s (openDir L (pageAddr d) s) d := by
  rw [openDir_run hclosed]
  refine ⟨⟨h.setBaseEntry_spec _ _, put_self .., L.table, ?_⟩, agree_setBaseEntry h.notBase (Or.inl rfl) _⟩
  exact (put_of_index_ne s.frames _ _ _ (dirPid_ne_tablePid L).symm).trans hclosed.table

/-- Closing both windows at its end. -/
theorem Opened.close (h : Opened A L s d) :
    Directory A L (closeDir L (closeTable L s)) d ∧ Closed L (closeDir L (closeTable L s)) ∧
      Agree L s (closeDir L (closeTable L s)) d := by
  have hopen := h.setTableWindow L.table
  have hrun : closeDir L (closeTable L s) = setBaseEntry L L.dirPid
      (pageAddr L.dir ||| vmmPresentWriteUser)
      (setBaseEntry L L.tablePid (pageAddr L.table ||| vmmPresentWriteUser) s) := by
    rw [h.closeTable_run]
    unfold closeDir
    rw [hopen.dirWindow, address_window, pageOf_pageAddr]
    split_ifs with hdir
    · rw [← hdir, setBaseEntry_eq_self hopen.dirWindow]
    · rfl
  rw [hrun]
  refine ⟨hopen.directory.setBaseEntry_spec _ _, ⟨put_self .., ?_⟩, ?_⟩
  · exact (put_of_index_ne _ _ _ _ (dirPid_ne_tablePid L).symm).trans (put_self ..)
  · exact (agree_setBaseEntry h.directory.notBase (Or.inr rfl) _).trans
      (agree_setBaseEntry h.directory.notBase (Or.inl rfl) _)

/-! ### The table of a page -/

/-- The loop that clears a table leaves the other frames alone, the windows included. -/
theorem clearTable_frames {f : Frame} (hf : tableFrame L s = f) (hbase : f ≠ L.baseTable) (n : ℕ)
    (hn : n ≤ 1024) :
    (∀ g, g ≠ f → (clearTable L n s).frames g = s.frames g) ∧
      (∀ j : Index, j.toNat < n → (clearTable L n s).frames f j = 0) ∧
      (clearTable L n s).pmm = s.pmm := by
  induction n with
  | zero => exact ⟨fun _ _ => rfl, fun j hj => absurd hj (Nat.not_lt_zero _), rfl⟩
  | succ n ih =>
    obtain ⟨hother, hzero, hpmm⟩ := ih (by omega)
    have hwindow : tableFrame L (clearTable L n s) = f := by
      rw [tableFrame, hother _ hbase.symm]
      exact hf
    have hframes : (clearTable L (n + 1) s).frames =
        put (clearTable L n s).frames f (BitVec.ofNat 10 n) 0 := by
      rw [clearTable, setTableEntry, hwindow]
    rw [hframes]
    refine ⟨fun g hg => ?_, fun j hj => ?_, hpmm⟩
    · rw [put_of_frame_ne _ _ _ hg]
      exact hother g hg
    · by_cases hjn : j = BitVec.ofNat 10 n
      · rw [hjn, put_self]
      · rw [put_of_index_ne _ _ _ _ hjn]
        apply hzero
        have : j.toNat ≠ n := by
          rintro rfl
          exact hjn (BitVec.eq_of_toNat_eq (by simp))
        omega

/-- Changes to a frame that is neither the directory nor a table nor `_base_table`. -/
theorem Opened.of_frame (h : Opened A L s d) {f : Frame} (hd : f ≠ d) (hbase : f ≠ L.baseTable)
    (htables : ∀ i, tableOf s d i ≠ some f) (hother : ∀ g, g ≠ f → t.frames g = s.frames g)
    (hpmm : t.pmm = s.pmm) : Opened A L t d ∧ Agree L s t d := by
  have hdir : t.frames d = s.frames d := hother d hd.symm
  have hb : t.frames L.baseTable = s.frames L.baseTable := hother _ hbase.symm
  refine ⟨⟨h.directory.of_frames hdir hpmm, ?_, ?_⟩, fun i => ?_, fun v _ => ?_⟩
  · rw [hb]
    exact h.dirWindow
  · rw [hb]
    exact h.tableWindow
  · rw [tableOf, tableAt_congr (congrFun hdir i), tableOf]
  · refine lookup_congr (congrFun hdir _) fun g hg => ?_
    rw [hother g]
    rintro rfl
    exact htables _ hg

/-- Naming a cleared new table in the directory. -/
theorem Opened.setDirEntry_spec (h : Opened A L s d) {f : Frame} {i : Index} (hd : f ≠ d)
    (hbase : f ≠ L.baseTable) (htables : ∀ j, tableOf s d j ≠ some f)
    (habsent : tableOf s d i = none) (hempty : ∀ j, s.frames f j = 0) (htaken : A.taken s.pmm f) :
    Opened A L (setDirEntry L i (pageAddr f ||| vmmPresentWriteUser) s) d ∧
      Agree L s (setDirEntry L i (pageAddr f ||| vmmPresentWriteUser) s) d ∧
      tableOf (setDirEntry L i (pageAddr f ||| vmmPresentWriteUser) s) d i = some f := by
  have hname : format.present (pageAddr f ||| vmmPresentWriteUser) = true ∧
      format.address (pageAddr f ||| vmmPresentWriteUser) = f :=
    ⟨present_window f, address_window f⟩
  have hrun : setDirEntry L i (pageAddr f ||| vmmPresentWriteUser) s =
      { s with frames := put s.frames d i (pageAddr f ||| vmmPresentWriteUser) } := by
    rw [setDirEntry, h.dirFrame_eq]
  have htable : ∀ j, tableOf (setDirEntry L i (pageAddr f ||| vmmPresentWriteUser) s) d j =
      if j = i then some f else tableOf s d j := by
    intro j
    rw [hrun]
    exact tableAt_put_table hname j
  have hb : (setDirEntry L i (pageAddr f ||| vmmPresentWriteUser) s).frames L.baseTable =
      s.frames L.baseTable := by
    rw [hrun]
    exact put_of_frame_ne _ _ _ h.directory.notBase.symm
  refine ⟨⟨⟨?_, h.directory.notBase, ?_, ?_, ?_⟩, ?_, ?_⟩, ⟨fun j => ?_, fun v _ => ?_⟩, ?_⟩
  · rw [hrun]
    exact h.directory.tree.put_table hname hd htables
  · rw [hrun]
    exact h.directory.takenDir
  · rw [hrun]
    exact h.directory.takenBase
  · intro j g hg
    rw [htable] at hg
    rw [hrun]
    split_ifs at hg
    · cases hg
      exact htaken
    · exact h.directory.takenTables j g hg
  · rw [hb]
    exact h.dirWindow
  · rw [hb]
    exact h.tableWindow
  · rw [htable]
    split_ifs with hj
    · rw [hj, habsent]
      simp [hbase]
    · rfl
  · rw [hrun]
    refine lookup_put_table h.directory.tree habsent hname hd (fun j => ?_) (split v)
    rw [hempty]
    rfl
  · rw [htable, if_pos rfl]

theorem tableOf_eq_none {i : Index} (h : present (s.frames d i) = false) : tableOf s d i = none := by
  unfold tableOf tableAt format
  simp [h]

theorem tableOf_of_present {i : Index} (h : present (s.frames d i) = true) :
    tableOf s d i = some (address (s.frames d i)) := by
  unfold tableOf tableAt format
  simp [h]

theorem tableOf_ne_of_frames {f : Frame} {i : Index} (hdir : t.frames d = s.frames d)
    (h : tableOf s d i ≠ some f) : tableOf t d i ≠ some f := by
  rw [tableOf, tableAt_congr (congrFun hdir i)]
  exact h

/-- A new frame is opened in the table window, cleared, closed again and named. -/
theorem Opened.newTable (h : Opened A L s d) {f : Frame} {i : Index} (hd : f ≠ d)
    (hbase : f ≠ L.baseTable) (htables : ∀ j, tableOf s d j ≠ some f)
    (habsent : tableOf s d i = none) (htaken : A.taken s.pmm f) :
    ∃ t, t = setDirEntry L i (pageAddr f ||| vmmPresentWriteUser)
        (closeTable L (clearTable L 1024 (openTable L (pageAddr f) s))) ∧
      Opened A L t d ∧ Agree L s t d ∧ tableOf t d i = some f := by
  obtain ⟨h₁, hagree₁, hwindow, hdir₁, hpmm₁⟩ := h.openTable_spec f
  generalize openTable L (pageAddr f) s = s₁ at *
  obtain ⟨hother, hzero, hpmm₂⟩ := clearTable_frames hwindow hbase 1024 (Nat.le_refl _)
  have htables₁ : ∀ j, tableOf s₁ d j ≠ some f := fun j => tableOf_ne_of_frames hdir₁ (htables j)
  obtain ⟨h₂, hagree₂⟩ := h₁.of_frame hd hbase htables₁ hother hpmm₂
  have hdir₂ : (clearTable L 1024 s₁).frames d = s₁.frames d := hother d hd.symm
  generalize clearTable L 1024 s₁ = s₂ at *
  obtain ⟨h₃, hagree₃, -, hdir₃, hpmm₃⟩ := h₂.openTable_spec L.table
  have hempty : ∀ j, (closeTable L s₂).frames f j = 0 := by
    intro j
    rw [h₂.closeTable_run, setBaseEntry]
    exact (congrFun (put_of_frame_ne _ _ _ hbase) j).trans (hzero j j.isLt)
  have hdir : (closeTable L s₂).frames d = s.frames d := hdir₃.trans (hdir₂.trans hdir₁)
  have habsent' : tableOf (closeTable L s₂) d i = none :=
    (tableAt_congr (congrFun hdir i)).trans habsent
  have htaken' : A.taken (closeTable L s₂).pmm f := by
    rw [show (closeTable L s₂).pmm = s₂.pmm from hpmm₃, hpmm₂, hpmm₁]
    exact htaken
  obtain ⟨h₄, hagree₄, htable⟩ := Opened.setDirEntry_spec h₃ hd hbase
    (fun j => tableOf_ne_of_frames hdir (htables j)) habsent' hempty htaken'
  exact ⟨_, rfl, h₄, ((hagree₁.trans hagree₂).trans hagree₃).trans hagree₄, htable⟩

/-- `ensure_table` maps nothing new and leaves the directory with a table for the index. -/
theorem Opened.ensureTable_spec (h : Opened A L s d) (offset : TableOff) :
    Ends (fun _ t => Opened A L t d ∧ Agree L s t d ∧ ∃ f, tableOf t d offset.tid = some f)
      (fun t => A.alloc t.pmm = none) (ensureTable A L offset s) := by
  unfold ensureTable
  rw [get_bind_run, traverseDirEntry, h.dirFrame_eq]
  split_ifs with hpresent
  · exact ⟨h, Agree.refl L s d, _, tableOf_of_present hpresent⟩
  cases halloc : A.alloc s.pmm with
  | none => exact halloc
  | some r =>
    obtain ⟨f, pmm⟩ := r
    have hfresh := A.fresh halloc
    have h₁ : Opened A L { s with pmm := pmm } d := h.allocated halloc
    obtain ⟨t, rfl, hopen, hagree, htable⟩ := h₁.newTable (f := f) (i := offset.tid)
      (h.directory.ne_fresh halloc).symm (fun hb => hfresh (hb ▸ h.directory.takenBase))
      (fun j hj => hfresh (h.directory.takenTables j f hj))
      (tableOf_eq_none (Bool.eq_false_iff.mpr hpresent)) (A.takes halloc)
    exact ⟨hopen, ⟨hagree.base, hagree.entry⟩, f, htable⟩

/-- The table of the page is open. -/
structure Entered (A : FrameAlloc σ) (L : Layout) (s : State σ) (d : Frame) (i : Index) : Prop where
  opened : Opened A L s d
  table : tableOf s d i = some (tableFrame L s)

theorem Opened.enterTable_run (h : Opened A L s d) {offset : TableOff} {f : Frame}
    (htable : tableOf s d offset.tid = some f) :
    traverseTable L offset s = pageAddr f ∧
      Entered A L (openTable L (pageAddr f) s) d offset.tid ∧
      Agree L s (openTable L (pageAddr f) s) d := by
  obtain ⟨hopen, hagree, hwindow, hdir, -⟩ := h.openTable_spec f
  refine ⟨?_, ⟨hopen, ?_⟩, hagree⟩
  · rw [traverseTable, traverseDirEntry, h.dirFrame_eq]
    unfold tableOf tableAt at htable
    split_ifs at htable
    exact congrArg pageAddr (Option.some.inj htable)
  · rw [hwindow]
    exact (tableAt_congr (congrFun hdir _)).trans htable

theorem Opened.enterTable_spec (h : Opened A L s d) (offset : TableOff) :
    Ends (fun _ t => Entered A L t d offset.tid ∧ Agree L s t d) (fun t => A.alloc t.pmm = none)
      (enterTable A L offset s) := by
  refine Ends.bind (h.ensureTable_spec offset) fun _ t ht => ?_
  obtain ⟨hopen, hagree, f, htable⟩ := ht
  obtain ⟨hrun, hentered, hagree'⟩ := hopen.enterTable_run htable
  rw [get_bind_run, hrun]
  exact ⟨hentered, hagree.trans hagree'⟩

/-- A table that is there is only opened. -/
theorem Opened.enterTable_of_table (h : Opened A L s d) {offset : TableOff} {f : Frame}
    (htable : tableOf s d offset.tid = some f) :
    enterTable A L offset s = .ok () (openTable L (pageAddr f) s) := by
  have hpresent : present (s.frames d offset.tid) = true := by
    by_contra hne
    rw [tableOf_eq_none (Bool.eq_false_iff.mpr hne)] at htable
    cases htable
  have hensure : ensureTable A L offset s = .ok () s := by
    unfold ensureTable
    rw [get_bind_run, traverseDirEntry, h.dirFrame_eq, if_pos hpresent]
    rfl
  unfold enterTable
  rw [bind_of_ok hensure, get_bind_run, (h.enterTable_run htable).1]
  rfl

/-- Writing the entry of a page in its open table. -/
theorem Entered.setTableEntry_spec {p : Frame} (h : Entered A L s d (split p).1)
    (hp : ¬WindowPage L s d p) (e : Entry) :
    Opened A L (setTableEntry L (split p).2 e s) d ∧
      (∀ i, tableOf (setTableEntry L (split p).2 e s) d i = tableOf s d i) ∧
      ∀ v, entryAt (setTableEntry L (split p).2 e s) d v =
        if v = p then (if present e then some e else none) else entryAt s d v := by
  have htree := h.opened.directory.tree
  have hdir : (setTableEntry L (split p).2 e s).frames d = s.frames d :=
    put_entry_directory htree h.table _ e
  have hwindow : ∀ j, j = L.dirPid ∨ j = L.tablePid →
      (setTableEntry L (split p).2 e s).frames L.baseTable j = s.frames L.baseTable j := by
    intro j hj
    by_cases hb : tableFrame L s = L.baseTable
    · apply put_of_index_ne
      rintro rfl
      exact hp ⟨hb ▸ h.table, hj⟩
    · exact congrFun (put_of_frame_ne _ _ _ (Ne.symm hb)) j
  refine ⟨⟨h.opened.directory.of_frames hdir rfl, ?_, ?_⟩, fun i => tableAt_congr (congrFun hdir i),
    fun v => ?_⟩
  · rw [hwindow _ (Or.inl rfl)]
    exact h.opened.dirWindow
  · rw [hwindow _ (Or.inr rfl)]
    exact h.opened.tableWindow
  · have hlookup := lookup_put_entry htree h.table (split p).2 e (split v)
    have hiff : split v = ((split p).1, (split p).2) ↔ v = p :=
      ⟨fun hv => split_inj hv, fun hv => by rw [hv]⟩
    simp only [hiff] at hlookup
    exact hlookup

/-- The entry that an open table holds for a page. -/
theorem Entered.entry {p : Frame} (h : Entered A L s d (split p).1) :
    entryAt s d p = if present (s.frames (tableFrame L s) (split p).2) then
      some (s.frames (tableFrame L s) (split p).2) else none :=
  lookup_of_some h.table

end JustKernel.Vmm
