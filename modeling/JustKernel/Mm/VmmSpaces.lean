import JustKernel.Mm.VmmRefinement

/-! Address spaces. `vmm_fork_kernel_space` makes a directory that names the
tables of the kernel's directory, so that both map the same pages through the
same tables. An operation on one directory is then seen in another one only
through a table both name. What an operation may change is said once, for the
three operations together: tables of its own directory at the indices it
covers, new tables, and the window entries of `_base_table`. -/

namespace JustKernel.Vmm

open TwoLevel Halting

section Model

variable {σ : Type} (A : FrameAlloc σ) (L : Layout)

/-- `memset(&_dir, 0, PAGE_SIZE)`. -/
def clearDir (s : State σ) : State σ :=
  { s with frames := Function.update s.frames (dirFrame L s) fun _ => 0 }

/-- The first `n` iterations of the loop that copies the present entries of the kernel's
directory to `_dir`. -/
def copyDir (baseDir : Frame) : ℕ → State σ → State σ
  | 0, s => s
  | n + 1, s =>
    let s := copyDir baseDir n s
    let e := s.frames baseDir (BitVec.ofNat 10 n)
    if present e then setDirEntry L (BitVec.ofNat 10 n) e s else s

def vmmForkKernelSpace (baseDir : Frame) : VmmM σ (BitVec 32) := do
  let s ← get
  match A.alloc s.pmm with
  | none => throw .pmmAlloc
  | some (f, pmm) =>
    let newDir := pageAddr f
    modify fun s => { s with pmm := pmm }
    modify (openDir L newDir)
    modify (clearDir L)
    modify (copyDir L baseDir 1024)
    modify (closeDir L)
    return newDir

/-- A call of `vmm_map_pages`, `vmm_remap_pages` or `vmm_unmap_pages`, the directory apart. -/
inductive Op where
  | map (phys virt : BitVec 32) (count : ℕ) (perms : BitVec 16)
  | remap (phys virt : BitVec 32) (count : ℕ) (perms : BitVec 16)
  | unmap (virt : BitVec 32) (count : ℕ)

def Op.run (pageDir : BitVec 32) : Op → VmmM σ ℕ
  | .map phys virt count perms => vmmMapPages A L phys virt pageDir count perms
  | .remap phys virt count perms => vmmRemapPages A L phys virt pageDir count perms
  | .unmap virt count => vmmUnmapPages A L virt pageDir count

end Model

/-- The pages an operation names. -/
def Op.Covers : Op → Frame → Prop
  | .map _ virt count _ => InRange (pageOf virt) count
  | .remap _ virt count _ => InRange (pageOf virt) count
  | .unmap virt count => InRange (pageOf virt) count

variable {σ : Type} {A : FrameAlloc σ} {L : Layout} {s t u : State σ} {d p : Frame} {I : Index → Prop}

/-! ### The fork -/

/-- The directory a fork makes from the directory `m`. -/
def forkEntries (m : Index → Entry) (i : Index) : Entry := if present (m i) then m i else 0

theorem present_forkEntries (m : Index → Entry) (i : Index) :
    present (forkEntries m i) = present (m i) := by
  unfold forkEntries
  split_ifs with h
  · rfl
  · rw [Bool.eq_false_iff.mpr h]
    decide

theorem copyDir_frames {f baseDir : Frame} (hf : dirFrame L s = f) (hbase : f ≠ L.baseTable)
    (hdir : baseDir ≠ f) (hzero : ∀ i, s.frames f i = 0) (n : ℕ) (hn : n ≤ 1024) :
    (∀ g, g ≠ f → (copyDir L baseDir n s).frames g = s.frames g) ∧
      (∀ i : Index, (copyDir L baseDir n s).frames f i =
        if i.toNat < n then forkEntries (s.frames baseDir) i else 0) ∧
      (copyDir L baseDir n s).pmm = s.pmm := by
  induction n with
  | zero => exact ⟨fun _ _ => rfl, fun i => (hzero i).trans (if_neg (Nat.not_lt_zero _)).symm, rfl⟩
  | succ n ih =>
    obtain ⟨hother, hcopied, hpmm⟩ := ih (by omega)
    have hwindow : dirFrame L (copyDir L baseDir n s) = f := by
      rw [dirFrame, hother _ hbase.symm]
      exact hf
    have hn' : (BitVec.ofNat 10 n).toNat = n := by
      rw [BitVec.toNat_ofNat]
      exact Nat.mod_eq_of_lt (by omega)
    rw [copyDir, hother _ hdir, setDirEntry, hwindow]
    split_ifs with hpresent
    · refine ⟨fun g hg => ?_, fun i => ?_, hpmm⟩
      · dsimp only
        rw [put_of_frame_ne _ _ _ hg]
        exact hother g hg
      · dsimp only
        by_cases hi : i = BitVec.ofNat 10 n
        · subst hi
          rw [put_self, if_pos (by omega), forkEntries, if_pos hpresent]
        · have hne : i.toNat ≠ n := fun h => hi (BitVec.eq_of_toNat_eq (h.trans hn'.symm))
          rw [put_of_index_ne _ _ _ _ hi, hcopied]
          simp only [show i.toNat < n + 1 ↔ i.toNat < n by omega]
    · refine ⟨hother, fun i => ?_, hpmm⟩
      rw [hcopied]
      by_cases hi : i = BitVec.ofNat 10 n
      · subst hi
        rw [if_neg (by omega), if_pos (by omega), forkEntries, if_neg hpresent]
      · have hne : i.toNat ≠ n := fun h => hi (BitVec.eq_of_toNat_eq (h.trans hn'.symm))
        simp only [show i.toNat < n + 1 ↔ i.toNat < n by omega]

/-- The state a fork to frame `f` leaves: only this frame has changed. -/
def forked (s : State σ) (baseDir f : Frame) (pmm : σ) : State σ :=
  ⟨Function.update s.frames f (forkEntries (s.frames baseDir)), pmm⟩

/-- Whatever a window shows, opening it on a frame is one write. -/
theorem openDir_eq {f : Frame} (g : Frame)
    (h : s.frames L.baseTable L.dirPid = pageAddr f ||| vmmPresentWriteUser) :
    openDir L (pageAddr g) s = setBaseEntry L L.dirPid (pageAddr g ||| vmmPresentWriteUser) s := by
  unfold openDir
  rw [h, address_window, pageOf_pageAddr]
  split_ifs with hf
  · rw [← hf, setBaseEntry_eq_self h]
  · rfl

theorem openTable_eq {f : Frame} (g : Frame)
    (h : s.frames L.baseTable L.tablePid = pageAddr f ||| vmmPresentWriteUser) :
    openTable L (pageAddr g) s = setBaseEntry L L.tablePid (pageAddr g ||| vmmPresentWriteUser) s := by
  unfold openTable
  rw [h, address_window, pageOf_pageAddr]
  split_ifs with hf
  · rw [← hf, setBaseEntry_eq_self h]
  · rfl

theorem closeDir_eq {f : Frame}
    (h : s.frames L.baseTable L.dirPid = pageAddr f ||| vmmPresentWriteUser) :
    closeDir L s = setBaseEntry L L.dirPid (pageAddr L.dir ||| vmmPresentWriteUser) s :=
  openDir_eq L.dir h

theorem closeTable_eq {f : Frame}
    (h : s.frames L.baseTable L.tablePid = pageAddr f ||| vmmPresentWriteUser) :
    closeTable L s = setBaseEntry L L.tablePid (pageAddr L.table ||| vmmPresentWriteUser) s :=
  openTable_eq L.table h

/-- The windows are left as they were found. -/
theorem setBaseEntry_restored (hclosed : Closed L s) (d f : Frame) :
    setBaseEntry L L.dirPid (pageAddr L.dir ||| vmmPresentWriteUser)
      (setBaseEntry L L.tablePid (pageAddr L.table ||| vmmPresentWriteUser)
        (setBaseEntry L L.tablePid (pageAddr f ||| vmmPresentWriteUser)
          (setBaseEntry L L.dirPid (pageAddr d ||| vmmPresentWriteUser) s))) = s := by
  obtain ⟨frames, pmm⟩ := s
  simp only [setBaseEntry, State.mk.injEq, and_true]
  funext g j
  by_cases hd : j = L.dirPid
  · by_cases hg : g = L.baseTable
    · subst hg hd
      rw [put_self]
      exact hclosed.dir.symm
    · rw [put_of_frame_ne _ _ _ hg, put_of_frame_ne _ _ _ hg, put_of_frame_ne _ _ _ hg,
        put_of_frame_ne _ _ _ hg]
  · rw [put_of_index_ne _ _ _ _ hd]
    by_cases ht : j = L.tablePid
    · by_cases hg : g = L.baseTable
      · subst hg ht
        rw [put_self]
        exact hclosed.table.symm
      · rw [put_of_frame_ne _ _ _ hg, put_of_frame_ne _ _ _ hg, put_of_frame_ne _ _ _ hg]
    · rw [put_of_index_ne _ _ _ _ ht, put_of_index_ne _ _ _ _ ht, put_of_index_ne _ _ _ _ hd]

theorem virtToPhys_state (hclosed : Closed L s) (virt : BitVec 32) (d : Frame) :
    (virtToPhys L virt (pageAddr d) s).2 = s := by
  have htable : (openDir L (pageAddr d) s).frames L.baseTable L.tablePid =
      pageAddr L.table ||| vmmPresentWriteUser := by
    rw [openDir_run hclosed]
    exact (put_of_index_ne _ _ _ _ (dirPid_ne_tablePid L).symm).trans hclosed.table
  have hdir : ∀ f, (setBaseEntry L L.tablePid (pageAddr f ||| vmmPresentWriteUser)
      (openDir L (pageAddr d) s)).frames L.baseTable L.dirPid = pageAddr d ||| vmmPresentWriteUser := by
    intro f
    rw [openDir_run hclosed]
    exact (put_of_index_ne _ _ _ _ (dirPid_ne_tablePid L)).trans (put_self ..)
  -- whether the table window was opened on another frame or not
  have hclose : ∀ f, closeDir L (closeTable L (setBaseEntry L L.tablePid (pageAddr f ||| vmmPresentWriteUser)
      (openDir L (pageAddr d) s))) = s := by
    intro f
    have hwindow : (setBaseEntry L L.tablePid (pageAddr L.table ||| vmmPresentWriteUser)
        (setBaseEntry L L.tablePid (pageAddr f ||| vmmPresentWriteUser) (openDir L (pageAddr d) s))).frames
          L.baseTable L.dirPid = pageAddr d ||| vmmPresentWriteUser :=
      (put_of_index_ne _ _ _ _ (dirPid_ne_tablePid L)).trans (hdir f)
    rw [closeTable_eq (put_self ..), closeDir_eq hwindow, openDir_run hclosed]
    exact setBaseEntry_restored hclosed d f
  unfold virtToPhys
  dsimp only
  by_cases hpresent : present (traverseDirEntry L (vmmVirtToOffs virt) (openDir L (pageAddr d) s)) = true
  · rw [if_pos hpresent, traverseTable, openTable_eq _ htable]
    exact hclose _
  · have hsame := hclose L.table
    rw [if_neg hpresent]
    rwa [setBaseEntry_eq_self htable] at hsame

/-- Closing the window on a directory that has been filled. -/
theorem closeDir_forked {f baseDir : Frame} {pmm : σ} (hclosed : Closed L s) (hbase : f ≠ L.baseTable)
    (hwindow : t.frames L.baseTable L.dirPid = pageAddr f ||| vmmPresentWriteUser)
    (hother : ∀ g i, g ≠ f → g ≠ L.baseTable ∨ i ≠ L.dirPid → t.frames g i = s.frames g i)
    (hfilled : ∀ i, t.frames f i = forkEntries (s.frames baseDir) i) (hpmm : t.pmm = pmm) :
    closeDir L t = forked s baseDir f pmm := by
  rw [closeDir_eq hwindow, setBaseEntry, forked, hpmm]
  congr 1
  funext g i
  by_cases hgf : g = f
  · subst hgf
    rw [put_of_frame_ne _ _ _ hbase, hfilled, Function.update_self]
  · rw [Function.update_of_ne hgf]
    by_cases hg : g = L.baseTable
    · subst hg
      by_cases hi : i = L.dirPid
      · subst hi
        rw [put_self, hclosed.dir]
      · rw [put_of_index_ne _ _ _ _ hi, hother _ _ hgf (Or.inr hi)]
    · rw [put_of_frame_ne _ _ _ hg, hother _ _ hgf (Or.inl hg)]

theorem vmmForkKernelSpace_run {f baseDir : Frame} {pmm : σ} (hclosed : Closed L s)
    (halloc : A.alloc s.pmm = some (f, pmm)) (hbase : f ≠ L.baseTable) (hdir : f ≠ baseDir)
    (hne : baseDir ≠ L.baseTable) :
    vmmForkKernelSpace A L baseDir s = .ok (pageAddr f) (forked s baseDir f pmm) := by
  have hopen : openDir L (pageAddr f) { s with pmm := pmm } = setBaseEntry L L.dirPid
      (pageAddr f ||| vmmPresentWriteUser) { s with pmm := pmm } :=
    @openDir_run _ _ { s with pmm := pmm } ⟨hclosed.dir, hclosed.table⟩ f
  have hwindow : dirFrame L (openDir L (pageAddr f) { s with pmm := pmm }) = f := by
    rw [hopen]
    exact (congrArg address (put_self ..)).trans (address_window f)
  have hclear : clearDir L (openDir L (pageAddr f) { s with pmm := pmm }) =
      ⟨Function.update (put s.frames L.baseTable L.dirPid (pageAddr f ||| vmmPresentWriteUser)) f
        fun _ => 0, pmm⟩ := by
    rw [clearDir, hwindow, hopen]
    rfl
  have hkept : ∀ g, g ≠ f → (clearDir L (openDir L (pageAddr f) { s with pmm := pmm })).frames g =
      put s.frames L.baseTable L.dirPid (pageAddr f ||| vmmPresentWriteUser) g := by
    intro g hg
    rw [hclear]
    exact Function.update_of_ne hg ..
  have hwindow₂ : dirFrame L (clearDir L (openDir L (pageAddr f) { s with pmm := pmm })) = f := by
    rw [dirFrame, hkept _ hbase.symm, put_self, address_window]
  have hzero : ∀ i, (clearDir L (openDir L (pageAddr f) { s with pmm := pmm })).frames f i = 0 := by
    intro i
    rw [hclear]
    dsimp only
    rw [Function.update_self]
  have hpmm : (clearDir L (openDir L (pageAddr f) { s with pmm := pmm })).pmm = pmm := by
    rw [hclear]
  obtain ⟨hother, hcopied, hpmm'⟩ := copyDir_frames hwindow₂ hbase hdir.symm hzero 1024 (Nat.le_refl _)
  have hstate : closeDir L (copyDir L baseDir 1024
      (clearDir L (openDir L (pageAddr f) { s with pmm := pmm }))) = forked s baseDir f pmm := by
    refine closeDir_forked hclosed hbase ?_ (fun g i hg hgi => ?_) (fun i => ?_) (hpmm'.trans hpmm)
    · rw [hother _ hbase.symm, hkept _ hbase.symm, put_self]
    · rw [hother _ hg, hkept _ hg]
      rcases hgi with hgb | hi
      · rw [put_of_frame_ne _ _ _ hgb]
      · rw [put_of_index_ne _ _ _ _ hi]
    · rw [hcopied, if_pos i.isLt, hkept _ hdir.symm, put_of_frame_ne _ _ _ hne]
  unfold vmmForkKernelSpace
  rw [get_bind_run, halloc]
  dsimp only
  rw [modify_bind_run, modify_bind_run, modify_bind_run, modify_bind_run, modify_bind_run, hstate,
    pure_run]

/-! ### What an operation may change -/

/-- Window pages are mapped, whatever the windows show. -/
theorem entryAt_of_window {v : Frame}
    (hdir : ∃ f, s.frames L.baseTable L.dirPid = pageAddr f ||| vmmPresentWriteUser)
    (htable : ∃ f, s.frames L.baseTable L.tablePid = pageAddr f ||| vmmPresentWriteUser)
    (hv : WindowPage L s d v) : entryAt s d v ≠ none := by
  obtain ⟨f, hf⟩ := hdir
  obtain ⟨g, hg⟩ := htable
  rw [entryAt, lookup_of_some hv.1]
  rcases hv.2 with hpid | hpid
  · rw [hpid, hf]
    exact fun hnone => Option.some_ne_none _ ((if_pos (present_window _)).symm.trans hnone)
  · rw [hpid, hg]
    exact fun hnone => Option.some_ne_none _ ((if_pos (present_window _)).symm.trans hnone)

/-- Entry `j` of frame `g` maps one of the windows. -/
def WindowEntry (L : Layout) (g : Frame) (j : Index) : Prop :=
  g = L.baseTable ∧ (j = L.dirPid ∨ j = L.tablePid)

/-- From `s` to `t` only tables of `d` at the indices `I`, frames that were not taken, window
entries and absent entries of `d` at the indices `I` have changed. -/
structure Within (A : FrameAlloc σ) (L : Layout) (d : Frame) (I : Index → Prop) (s t : State σ) :
    Prop where
  taken : ∀ g, A.taken s.pmm g → A.taken t.pmm g
  frame : ∀ g, A.taken s.pmm g → g ≠ d → (∀ i, I i → tableOf s d i ≠ some g) →
    ∀ j, ¬WindowEntry L g j → t.frames g j = s.frames g j
  entry : ∀ i, t.frames d i = s.frames d i ∨ (I i ∧ tableOf s d i = none ∧
    ∃ f, t.frames d i = pageAddr f ||| vmmPresentWriteUser ∧ ¬A.taken s.pmm f)

theorem Within.refl (A : FrameAlloc σ) (L : Layout) (d : Frame) (I : Index → Prop) (s : State σ) :
    Within A L d I s s :=
  ⟨fun _ h => h, fun _ _ _ _ _ _ => rfl, fun _ => Or.inl rfl⟩

theorem tableOf_congr {i : Index} (h : t.frames d i = s.frames d i) : tableOf t d i = tableOf s d i :=
  tableAt_congr h

theorem tableOf_of_window {i : Index} {f : Frame}
    (h : s.frames d i = pageAddr f ||| vmmPresentWriteUser) : tableOf s d i = some f := by
  have hpresent : present (s.frames d i) = true := by
    rw [h]
    exact present_window f
  rw [tableOf_of_present hpresent, h, address_window]

/-- A table of the directory was there before or is a new frame. -/
theorem Within.table (h : Within A L d I s t) (i : Index) :
    tableOf t d i = tableOf s d i ∨
      (I i ∧ tableOf s d i = none ∧ ∃ f, tableOf t d i = some f ∧ ¬A.taken s.pmm f) := by
  rcases h.entry i with hsame | ⟨hi, hnone, f, hf, hfresh⟩
  · exact Or.inl (tableOf_congr hsame)
  · exact Or.inr ⟨hi, hnone, f, tableOf_of_window hf, hfresh⟩

theorem Within.tableOf_taken (h : Within A L d I s t) {g : Frame} (hg : A.taken s.pmm g) (i : Index) :
    tableOf t d i = some g ↔ tableOf s d i = some g := by
  rcases h.table i with hsame | ⟨-, hnone, f, hf, hfresh⟩
  · rw [hsame]
  · rw [hnone, hf]
    constructor
    · intro heq
      exact absurd (Option.some.inj heq ▸ hg) hfresh
    · intro heq
      cases heq

theorem Within.trans (h : Within A L d I s t) (h' : Within A L d I t u) : Within A L d I s u where
  taken g hg := h'.taken g (h.taken g hg)
  frame g hg hd htables j hj := by
    have htables' : ∀ i, I i → tableOf t d i ≠ some g := fun i hi =>
      mt (h.tableOf_taken hg i).mp (htables i hi)
    rw [h'.frame g (h.taken g hg) hd htables' j hj, h.frame g hg hd htables j hj]
  entry i := by
    rcases h'.entry i with hsame | ⟨hi, hnone, f, hf, hfresh⟩
    · rw [hsame]
      exact h.entry i
    · rcases h.entry i with hsame' | ⟨-, -, g, hg, -⟩
      · rw [tableOf_congr hsame'] at hnone
        exact Or.inr ⟨hi, hnone, f, hf, fun hf' => hfresh (h.taken f hf')⟩
      · rw [tableOf_of_window hg] at hnone
        cases hnone

/-- A larger set of indices allows more. -/
theorem Within.mono {J : Index → Prop} (h : Within A L d I s t) (hIJ : ∀ i, I i → J i) :
    Within A L d J s t where
  taken := h.taken
  frame g hg hd htables := h.frame g hg hd fun i hi => htables i (hIJ i hi)
  entry i := (h.entry i).imp_right fun hi => ⟨hIJ i hi.1, hi.2⟩

theorem within_setBaseEntry (hd : d ≠ L.baseTable) {j : Index} (hj : j = L.dirPid ∨ j = L.tablePid)
    (e : Entry) : Within A L d I s (setBaseEntry L j e s) where
  taken _ hg := hg
  frame g _ _ _ k hk := by
    by_cases hgb : g = L.baseTable
    · subst hgb
      apply put_of_index_ne
      rintro rfl
      exact hk ⟨rfl, hj⟩
    · exact congrFun (put_of_frame_ne _ _ _ hgb) k
  entry i := Or.inl (congrFun (put_of_frame_ne _ _ _ hd) i)

theorem Opened.openTable_within (h : Opened A L s d) (f : Frame) :
    Within A L d I s (openTable L (pageAddr f) s) := by
  rw [openTable_run f h]
  exact within_setBaseEntry h.directory.notBase (Or.inr rfl) _

theorem Entered.setTableEntry_within {i : Index} (h : Entered A L s d i) (hi : I i) (j : Index)
    (e : Entry) : Within A L d I s (setTableEntry L j e s) where
  taken _ hg := hg
  frame g _ _ htables k _ := by
    have hne : g ≠ tableFrame L s := by
      rintro rfl
      exact htables i hi h.table
    exact congrFun (put_of_frame_ne _ _ _ hne) k
  entry k := Or.inl (congrFun (put_entry_directory h.opened.directory.tree h.table j e) k)

theorem Opened.openTable_frames (h : Opened A L s d) (f g : Frame) {j : Index} (hj : ¬WindowEntry L g j) :
    (openTable L (pageAddr f) s).frames g j = s.frames g j := by
  rw [openTable_run f h]
  by_cases hg : g = L.baseTable
  · subst hg
    exact put_of_index_ne _ _ _ _ fun hjt => hj ⟨rfl, Or.inr hjt⟩
  · exact congrFun (put_of_frame_ne _ _ _ hg) j

/-- The table window is closed and the table named in the directory. -/
theorem nameTable_frames {f : Frame} (i : Index) (e : Entry) (hd : d ≠ L.baseTable)
    (hdir : s.frames L.baseTable L.dirPid = pageAddr d ||| vmmPresentWriteUser)
    (htable : s.frames L.baseTable L.tablePid = pageAddr f ||| vmmPresentWriteUser) :
    (∀ g, g ≠ d → ∀ j, ¬WindowEntry L g j →
        (setDirEntry L i e (closeTable L s)).frames g j = s.frames g j) ∧
      (∀ k, (setDirEntry L i e (closeTable L s)).frames d k = if k = i then e else s.frames d k) ∧
      (setDirEntry L i e (closeTable L s)).pmm = s.pmm := by
  have hclose := closeTable_eq htable
  have hwindow : dirFrame L (closeTable L s) = d := by
    rw [hclose, dirFrame, setBaseEntry]
    dsimp only
    rw [put_of_index_ne _ _ _ _ (dirPid_ne_tablePid L), hdir, address_window]
  have hframes : (setDirEntry L i e (closeTable L s)).frames = put (put s.frames L.baseTable L.tablePid
      (pageAddr L.table ||| vmmPresentWriteUser)) d i e := by
    rw [setDirEntry, hwindow, hclose]
    rfl
  rw [hframes]
  refine ⟨fun g hgd j hj => ?_, fun k => ?_, ?_⟩
  · rw [put_of_frame_ne _ _ _ hgd]
    by_cases hgb : g = L.baseTable
    · subst hgb
      exact put_of_index_ne _ _ _ _ fun hjt => hj ⟨rfl, Or.inr hjt⟩
    · rw [put_of_frame_ne _ _ _ hgb]
  · by_cases hk : k = i
    · rw [if_pos hk, hk, put_self]
    · rw [if_neg hk, put_of_index_ne _ _ _ _ hk, put_of_frame_ne _ _ _ hd]
  · rw [setDirEntry, hclose]
    rfl

/-- The frames after a new table has been cleared and named. -/
theorem Opened.newTable_frames (h : Opened A L s d) {f : Frame} (i : Index) (hd : f ≠ d)
    (hbase : f ≠ L.baseTable) {t : State σ}
    (ht : t = clearTable L 1024 (openTable L (pageAddr f) s)) (e : Entry) :
    (∀ g, g ≠ d → g ≠ f → ∀ j, ¬WindowEntry L g j →
        (setDirEntry L i e (closeTable L t)).frames g j = s.frames g j) ∧
      (∀ k, (setDirEntry L i e (closeTable L t)).frames d k = if k = i then e else s.frames d k) ∧
      (setDirEntry L i e (closeTable L t)).pmm = s.pmm := by
  obtain ⟨hopen, -, hwindow, hdir₁, hpmm₁⟩ := h.openTable_spec f
  obtain ⟨hother, -, hpmm₂⟩ := clearTable_frames hwindow hbase 1024 (Nat.le_refl _)
  rw [← ht] at hother hpmm₂
  obtain ⟨g₁, hg₁⟩ := hopen.tableWindow
  obtain ⟨hframes, hdir, hpmm⟩ := nameTable_frames (s := t) (L := L) i e h.directory.notBase
    (by rw [hother _ hbase.symm, hopen.dirWindow]) (by rw [hother _ hbase.symm, hg₁])
  refine ⟨fun g hgd hgf j hj => ?_, fun k => ?_, ?_⟩
  · rw [hframes g hgd j hj, hother g hgf, h.openTable_frames f g hj]
  · rw [hdir, hother d hd.symm, hdir₁]
  · rw [hpmm, hpmm₂, hpmm₁]

theorem Opened.ensureTable_within (h : Opened A L s d) {offset : TableOff} (hi : I offset.tid) :
    Ends (fun _ t => Within A L d I s t) (fun t => A.alloc t.pmm = none) (ensureTable A L offset s) := by
  unfold ensureTable
  rw [get_bind_run, traverseDirEntry, h.dirFrame_eq]
  split_ifs with hpresent
  · exact Within.refl A L d I s
  cases halloc : A.alloc s.pmm with
  | none => exact halloc
  | some r =>
    obtain ⟨f, pmm⟩ := r
    have hfresh := A.fresh halloc
    have hopen : Opened A L { s with pmm := pmm } d := h.allocated halloc
    have hfd : f ≠ d := (h.directory.ne_fresh halloc).symm
    have hfb : f ≠ L.baseTable := fun hb => hfresh (hb ▸ h.directory.takenBase)
    obtain ⟨hframes, hdir, hpmm⟩ := hopen.newTable_frames offset.tid hfd hfb rfl
      (pageAddr f ||| vmmPresentWriteUser)
    refine ⟨fun g hg => ?_, fun g hg hgd _ j hj => ?_, fun i => ?_⟩
    · rw [hpmm]
      exact A.keeps halloc hg
    · exact hframes g hgd (fun hgf => hfresh (hgf ▸ hg)) j hj
    · rw [hdir]
      split_ifs with heq
      · rw [heq]
        exact Or.inr ⟨hi, tableOf_eq_none (Bool.eq_false_iff.mpr hpresent), f, rfl, hfresh⟩
      · exact Or.inl rfl

theorem Opened.enterTable_within (h : Opened A L s d) {offset : TableOff} (hi : I offset.tid) :
    Ends (fun _ t => Entered A L t d offset.tid ∧ Within A L d I s t) (fun t => A.alloc t.pmm = none)
      (enterTable A L offset s) := by
  refine Ends.bind ((h.ensureTable_spec offset).and (h.ensureTable_within hi)) fun _ t ht => ?_
  obtain ⟨⟨hopen, -, f, htable⟩, hwithin⟩ := ht
  obtain ⟨hrun, hentered, -⟩ := hopen.enterTable_run htable
  rw [get_bind_run, hrun]
  exact ⟨hentered, hwithin.trans (hopen.openTable_within f)⟩

/-- The window pages of the directory stay the same pages. -/
theorem Within.windowPage_iff (h : Within A L d I s t) (hbase : A.taken s.pmm L.baseTable) (v : Frame) :
    WindowPage L t d v ↔ WindowPage L s d v :=
  Vmm.windowPage_iff (fun i => h.tableOf_taken hbase i) v

/-! ### The loops -/

theorem inRange_first (p : Frame) (n : ℕ) : InRange p (n + 1) p := by
  unfold InRange
  simp

theorem inRange_next {n : ℕ} {v : Frame} (h : InRange (p + 1) n v) : InRange p (n + 1) v := by
  unfold InRange at h ⊢
  bv_omega

theorem inRange_shorter {n : ℕ} {v : Frame} (h : InRange p n v) : InRange p (n + 1) v :=
  Nat.lt_succ_of_lt h

/-- The pages of a range have directory indices in `I` and none of them is a window page. -/
def Reachable (L : Layout) (s : State σ) (d : Frame) (I : Index → Prop) (p : Frame) (n : ℕ) : Prop :=
  ∀ v, InRange p n v → I (split v).1 ∧ ¬WindowPage L s d v

theorem Reachable.of_within {n m : ℕ} {q : Frame} (h : Reachable L s d I p n) (hd : Directory A L s d)
    (ht : Within A L d I s t) (hsub : ∀ v, InRange q m v → InRange p n v) :
    Reachable L t d I q m := fun v hv =>
  ⟨(h v (hsub v hv)).1, mt (ht.windowPage_iff hd.takenBase v).mp (h v (hsub v hv)).2⟩

/-- Where an operation may be between two pages. -/
structure Working (A : FrameAlloc σ) (L : Layout) (d : Frame) (I : Index → Prop) (s t : State σ) :
    Prop where
  opened : Opened A L t d
  within : Within A L d I s t

theorem Working.trans (h : Working A L d I s t) (h' : Working A L d I t u) : Working A L d I s u :=
  ⟨h'.opened, h.within.trans h'.within⟩

theorem Entered.write (h : Entered A L s d (split p).1) (hi : I (split p).1)
    (hp : ¬WindowPage L s d p) (e : Entry) : Working A L d I s (setTableEntry L (split p).2 e s) :=
  ⟨(h.setTableEntry_spec hp e).1, h.setTableEntry_within hi _ e⟩

theorem Opened.working (h : Opened A L s d) (I : Index → Prop) : Working A L d I s s :=
  ⟨h, Within.refl A L d I s⟩

/-- The table of the first page is entered; the page can be written and the rest of the range
treated after that. -/
theorem Opened.enterPage {n : ℕ} (h : Opened A L s d) (hr : Reachable L s d I p (n + 1)) :
    Ends (fun _ t => Entered A L t d (split p).1 ∧ Working A L d I s t ∧
        Reachable L t d I p (n + 1) ∧ ∀ e, Working A L d I s (setTableEntry L (split p).2 e t) ∧
          Reachable L (setTableEntry L (split p).2 e t) d I (p + 1) n)
      (fun t => A.alloc t.pmm = none) (enterTable A L (vmmVirtToOffs (pageAddr p)) s) := by
  obtain ⟨hi, -⟩ := hr p (inRange_first p n)
  have htid := (offs_pageAddr p).1
  refine (h.enterTable_within (htid ▸ hi)).imp fun _ t ht => ?_
  rw [htid] at ht
  obtain ⟨hentered, hwithin⟩ := ht
  have hkept : Reachable L t d I p (n + 1) := hr.of_within h.directory hwithin fun _ hv => hv
  refine ⟨hentered, ⟨hentered.opened, hwithin⟩, hkept, fun e => ?_⟩
  have hwrite := hentered.write hi (hkept p (inRange_first p n)).2 e
  exact ⟨⟨hwrite.opened, hwithin.trans hwrite.within⟩,
    hkept.of_within hentered.opened.directory hwrite.within fun _ => inRange_next⟩

theorem mapLoop_within (perms : BitVec 16) (n : ℕ) (phys : BitVec 32) (ret : ℕ) (h : Opened A L s d)
    (hr : Reachable L s d I p n) :
    Ends (fun _ t => Working A L d I s t) (fun t => A.alloc t.pmm = none)
      (mapLoop A L perms n phys (pageAddr p) ret s) := by
  induction n generalizing s p phys ret with
  | zero => exact h.working I
  | succ n ih =>
    rw [mapLoop]
    refine Ends.bind (h.enterPage hr) fun _ t ht => ?_
    obtain ⟨-, hwork, hkept, hwrite⟩ := ht
    rw [get_bind_run, (offs_pageAddr p).2, pageAddr_add]
    split_ifs
    · rw [modify_bind_run]
      obtain ⟨hwork', hnext⟩ := hwrite (phys ||| perms.setWidth 32)
      exact (ih _ _ hwork'.opened hnext).imp fun _ u hu => hwork'.trans hu
    · exact (ih _ _ hwork.opened fun v hv => hkept v (inRange_shorter hv)).imp
        fun _ u hu => hwork.trans hu

theorem remapLoop_within (perms : BitVec 16) (n : ℕ) (phys : BitVec 32) (h : Opened A L s d)
    (hr : Reachable L s d I p n) :
    Ends (fun _ t => Working A L d I s t) (fun t => A.alloc t.pmm = none)
      (remapLoop A L perms n phys (pageAddr p) s) := by
  induction n generalizing s p phys with
  | zero => exact h.working I
  | succ n ih =>
    rw [remapLoop]
    refine Ends.bind (h.enterPage hr) fun _ t ht => ?_
    obtain ⟨-, -, -, hwrite⟩ := ht
    rw [modify_bind_run, (offs_pageAddr p).2, pageAddr_add]
    obtain ⟨hwork', hnext⟩ := hwrite (phys ||| perms.setWidth 32)
    exact (ih _ hwork'.opened hnext).imp fun _ u hu => hwork'.trans hu

theorem unmapLoop_within (n : ℕ) (ret : ℕ) (h : Opened A L s d) (hr : Reachable L s d I p n) :
    Ends (fun _ t => Working A L d I s t) (fun t => A.alloc t.pmm = none)
      (unmapLoop A L n (pageAddr p) ret s) := by
  induction n generalizing s p ret with
  | zero => exact h.working I
  | succ n ih =>
    rw [unmapLoop]
    refine Ends.bind (h.enterPage hr) fun _ t ht => ?_
    obtain ⟨hentered, hwork, hkept, hwrite⟩ := ht
    rw [get_bind_run, (offs_pageAddr p).2, pageAddr_add]
    split_ifs
    · rw [modify_bind_run]
      obtain ⟨hwork', hnext⟩ := hwrite 0
      exact (ih _ hwork'.opened hnext).imp fun _ u hu => hwork'.trans hu
    · exact (ih _ hwork.opened fun v hv => hkept v (inRange_next hv)).imp
        fun _ u hu => hwork.trans hu

end JustKernel.Vmm
