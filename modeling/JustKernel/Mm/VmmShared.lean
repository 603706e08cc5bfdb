import JustKernel.Mm.VmmIsolation

/-! Tables that two directories share. A fork copies an entry to the same index, so a
table stands at one index in all directories that name it. A page that is mapped
through a shared table is then mapped in both directories, at the same place, and
the operation is seen nowhere else. -/

namespace JustKernel.Vmm

open TwoLevel Halting Runs

variable {σ : Type} {A : FrameAlloc σ} {L : Layout} {s t : State σ} {a b d base : Frame}

/-- Directories that name the same table for a page map it alike. -/
theorem entryAt_of_tables {v : Frame} (h : tableOf s a (split v).1 = tableOf s d (split v).1) :
    entryAt s a v = entryAt s d v := by
  cases htable : tableOf s d (split v).1 with
  | none => rw [entryAt, entryAt, lookup_of_none htable, lookup_of_none (h.trans htable)]
  | some f => rw [entryAt, entryAt, lookup_of_some htable, lookup_of_some (h.trans htable)]

/-- What `virt_to_phys` shows at a page that is no window. -/
theorem virtToPhys_of_not_window (hdir : Directory A L s d) (hclosed : Closed L s) (virt : BitVec 32)
    (hwin : ¬WindowPage L s d (pageOf virt)) : (virtToPhys L virt (pageAddr d) s).1 =
      physOf (entryAt s d (pageOf virt)) (vmmVirtToOffs virt).off := by
  rw [virtToPhys_eq hdir hclosed, shownEntry, if_neg fun hw => hwin ⟨hw.1, Or.inl hw.2⟩,
    if_neg fun hw => hwin ⟨hw.1, Or.inr hw.2⟩]

/-- The indices of a range of pages. -/
def RangeIndex (p : Frame) (count : ℕ) (i : Index) : Prop := ∃ v, InRange p count v ∧ (split v).1 = i

section Operations

variable {phys virt : BitVec 32} {count ret : ℕ} {perms : BitVec 16}

/-- Mapping a range of unmapped pages. -/
theorem vmmMapPages_spec (hdir : Directory A L s a) (hclosed : Closed L s) (hcount : count ≤ 2 ^ 20)
    (hpresent : perms.getLsbD 0 = true) (hfree : ∀ v, InRange (pageOf virt) count v → entryAt s a v = none)
    (hrun : vmmMapPages A L phys virt (pageAddr a) count perms s = .ok ret t) :
    Operated A L a (RangeIndex (pageOf virt) count) s t ∧ Refines A L s t a fun v =>
      if InRange (pageOf virt) count v then some (newEntry (pageOf virt) (pageOf phys) perms v)
      else entryAt s a v := by
  have hwin : ∀ v, InRange (pageOf virt) count v → ¬WindowPage L s a v := fun v hv hw =>
    entryAt_of_window ⟨_, hclosed.dir⟩ ⟨_, hclosed.table⟩ hw (hfree v hv)
  have hop := (Op.map phys virt count perms).run_within (I := RangeIndex (pageOf virt) count) hdir hclosed
    fun v hv => ⟨⟨v, hv, rfl⟩, hwin v hv⟩
  rw [show (Op.map phys virt count perms).run A L (pageAddr a) s = .ok ret t from hrun] at hop
  have href := vmmRemapPages_refines phys virt perms hdir hclosed hcount hpresent hwin
  rw [← vmmMapPages_eq_vmmRemapPages phys virt perms hdir hclosed hcount hwin hfree, hrun] at href
  exact ⟨hop, href.2⟩

/-- Unmapping a range. -/
theorem vmmUnmapPages_spec (hdir : Directory A L s a) (hclosed : Closed L s) (hcount : count ≤ 2 ^ 20)
    (hwin : ∀ v, InRange (pageOf virt) count v → ¬WindowPage L s a v)
    (hrun : vmmUnmapPages A L virt (pageAddr a) count s = .ok ret t) :
    Operated A L a (RangeIndex (pageOf virt) count) s t ∧
      Refines A L s t a fun v => if InRange (pageOf virt) count v then none else entryAt s a v := by
  have hop := (Op.unmap virt count).run_within (I := RangeIndex (pageOf virt) count) hdir hclosed
    fun v hv => ⟨⟨v, hv, rfl⟩, hwin v hv⟩
  rw [show (Op.unmap virt count).run A L (pageAddr a) s = .ok ret t from hrun] at hop
  have href := vmmUnmapPages_refines virt hdir hclosed hcount hwin
  rw [hrun] at href
  exact ⟨hop, href.2.2⟩

end Operations

/-! ### One index for a table -/

section Spaces

variable {x y : Spaces σ} {I : Index → Prop}

/-- A table stands at the same index in all directories. -/
def SameIndex (base : Frame) (x : Spaces σ) : Prop :=
  ∀ d ∈ base :: x.forkDirs, ∀ b ∈ base :: x.forkDirs, ∀ i j f,
    tableOf x.vmm d i = some f → tableOf x.vmm b j = some f → i = j

theorem KernelDirectory.sameIndex (h : KernelDirectory A L s base) : SameIndex base ⟨s, []⟩ := by
  intro d hd b hb i j f hi hj
  obtain rfl : d = base := by simpa [Spaces.forkDirs] using hd
  obtain rfl : b = d := by simpa [Spaces.forkDirs] using hb
  exact h.directory.tree.distinct i j f hi hj

/-- A table after an operation was there before or is a new frame. -/
theorem Apart.table_after (h : Apart A L base x) (hd : d ∈ base :: x.forkDirs)
    (ht : Operated A L d I x.vmm t) (hb : b ∈ base :: x.forkDirs) {i : Index} {f : Frame}
    (hf : tableOf t b i = some f) :
    tableOf x.vmm b i = some f ∨ (b = d ∧ ¬A.taken x.vmm.pmm f) := by
  by_cases hbd : b = d
  · subst hbd
    rcases ht.within.table i with hsame | ⟨-, -, g, hg, hfresh⟩
    · exact Or.inl (hsame ▸ hf)
    · rw [hf] at hg
      cases hg
      exact Or.inr ⟨rfl, hfresh⟩
  · exact Or.inl ((tableOf_congr (congrFun (h.other hd hb hbd ht) i)).symm.trans hf)

theorem SameIndex.operated (h : SameIndex base x) (hapart : Apart A L base x) (hd : d ∈ base :: x.forkDirs)
    (ht : Operated A L d I x.vmm t) : SameIndex base { x with vmm := t } := by
  intro c hc b hb i j f hi hj
  have hnew : ∀ b ∈ base :: x.forkDirs, ∀ j, tableOf x.vmm b j = some f → A.taken x.vmm.pmm f :=
    fun b hb j hj => (hapart.directory b hb).takenTables j f hj
  rcases hapart.table_after hd ht hc hi with hi' | ⟨rfl, hfresh⟩
  · rcases hapart.table_after hd ht hb hj with hj' | ⟨-, hfresh⟩
    · exact h c hc b hb i j f hi' hj'
    · exact absurd (hnew c hc i hi') hfresh
  · rcases hapart.table_after hd ht hb hj with hj' | ⟨rfl, -⟩
    · exact absurd (hnew b hb j hj') hfresh
    · exact ht.directory.tree.distinct i j f hi hj

theorem SameIndex.forked_spec (h : SameIndex base x) (f : Frame) (pmm : σ) :
    SameIndex base ⟨forked x.vmm base f pmm, (f, x.vmm.frames base) :: x.forks⟩ := by
  -- a table of one of the directories is one of a directory before the fork
  have hold : ∀ d ∈ base :: Spaces.forkDirs ⟨forked x.vmm base f pmm, (f, x.vmm.frames base) :: x.forks⟩,
      ∃ b ∈ base :: x.forkDirs, ∀ i, tableOf (forked x.vmm base f pmm) d i = tableOf x.vmm b i := by
    intro d hd
    by_cases hdf : d = f
    · subst hdf
      exact ⟨base, List.mem_cons_self, tableOf_forked _ pmm⟩
    · refine ⟨d, ?_, tableOf_forked_of_ne pmm hdf⟩
      simp only [Spaces.forkDirs, List.map_cons, List.mem_cons] at hd ⊢
      tauto
  intro d hd b hb i j g hi hj
  obtain ⟨d', hd', hdt⟩ := hold d hd
  obtain ⟨b', hb', hbt⟩ := hold b hb
  exact h d' hd' b' hb' i j g ((hdt i).symm.trans hi) ((hbt j).symm.trans hj)

theorem SameIndex.step (h : SameIndex base x) (hapart : Apart A L base x) (hstep : Step A L base x y) :
    SameIndex base y := by
  cases hstep with
  | fork hrun =>
    obtain ⟨f, pmm, halloc, rfl, rfl⟩ := hapart.fork_returned hrun
    rw [pageOf_pageAddr]
    exact h.forked_spec f pmm
  | onFork hd habsent hrun =>
    rename_i d op ret t
    have hd' := List.mem_cons_of_mem base hd
    have hrun' := op.run_within (I := x.Absent) (hapart.directory d hd') hapart.closed fun v hv =>
      ⟨habsent v hv, hapart.no_window hd (habsent v hv)⟩
    rw [hrun] at hrun'
    exact h.operated hapart hd' hrun'
  | onBase hwindow hrun =>
    rename_i op ret t
    have hrun' := op.run_within (I := fun _ => True) (hapart.directory base List.mem_cons_self)
      hapart.closed fun v hv => ⟨trivial, hwindow v hv⟩
    rw [hrun] at hrun'
    exact h.operated hapart List.mem_cons_self hrun'

/-- In every state the kernel reaches, tables are owned and indexed as they should be. -/
theorem KernelDirectory.reaches (h : KernelDirectory A L s base)
    (hx : Reaches (Step A L base) ⟨s, []⟩ x) : Apart A L base x ∧ SameIndex base x :=
  hx.invariant (fun x => Apart A L base x ∧ SameIndex base x)
    (fun _ _ hxy hstep => ⟨hxy.1.step hstep, hxy.2.step hxy.1 hstep⟩) ⟨h.apart, h.sameIndex⟩

/-- An operation on `a` at indices where its tables are those of `d` changes `d` as it
changes `a` there, and nothing else of it. -/
theorem Apart.shared_operated (h : Apart A L base x) (hindex : SameIndex base x)
    (ha : a ∈ base :: x.forkDirs) (hd : d ∈ base :: x.forkDirs) (hne : d ≠ a)
    (hsame : ∀ i, I i → ∃ f, tableOf x.vmm a i = some f ∧ tableOf x.vmm d i = some f)
    (ht : Operated A L a I x.vmm t) (v : Frame) :
    (I (split v).1 → entryAt t d v = entryAt t a v) ∧
      (¬I (split v).1 → entryAt t d v = entryAt x.vmm d v) := by
  have hdir : t.frames d = x.vmm.frames d := h.other ha hd hne ht
  have htable : ∀ i, tableOf t d i = tableOf x.vmm d i := fun i => tableOf_congr (congrFun hdir i)
  refine ⟨fun hv => ?_, fun hv => ?_⟩
  · obtain ⟨f, hfa, hfd⟩ := hsame _ hv
    have hf := (ht.within.tableOf_taken ((h.directory a ha).takenTables _ f hfa) (split v).1).mpr hfa
    exact entryAt_of_tables ((htable _).trans (hfd.trans hf.symm))
  · refine lookup_congr (congrFun hdir _) fun f hf => ?_
    have hframe : t.frames f = x.vmm.frames f := by
      refine ht.frames_eq h.closed ((h.directory d hd).takenTables _ f hf) ?_ fun i hi hfi => ?_
      · rintro rfl
        exact h.notTable d hd f ha _ hf
      · exact hv (hindex a ha d hd i _ f hfi hf ▸ hi)
    exact congrFun hframe _

/-- The tables of the pages `R` are those of `d`. -/
def Shares (s : State σ) (a d : Frame) (R : Frame → Prop) : Prop :=
  a = d ∨ ∀ v, R v → ∃ f, tableOf s a (split v).1 = some f ∧ tableOf s d (split v).1 = some f

/-- Pages that are mapped in `a` through tables of `d` are mapped in `d`. -/
theorem Apart.map_shared {phys virt : BitVec 32} {count ret : ℕ} {perms : BitVec 16}
    (h : Apart A L base x) (hindex : SameIndex base x) (ha : a ∈ base :: x.forkDirs)
    (hd : d ∈ base :: x.forkDirs) (hshare : Shares x.vmm a d (InRange (pageOf virt) count))
    (hcount : count ≤ 2 ^ 20) (hpresent : perms.getLsbD 0 = true)
    (hfree : ∀ v, InRange (pageOf virt) count v → entryAt x.vmm d v = none)
    (hrun : vmmMapPages A L phys virt (pageAddr a) count perms x.vmm = .ok ret t) :
    Operated A L a (RangeIndex (pageOf virt) count) x.vmm t ∧
      (∀ i, tableOf t d i = some L.baseTable ↔ tableOf x.vmm d i = some L.baseTable) ∧
      ∀ v, entryAt t d v = if InRange (pageOf virt) count v then
        some (newEntry (pageOf virt) (pageOf phys) perms v) else entryAt x.vmm d v := by
  by_cases had : a = d
  · subst had
    obtain ⟨hop, href⟩ := vmmMapPages_spec (h.directory a ha) h.closed hcount hpresent hfree hrun
    exact ⟨hop, href.base, href.entry⟩
  · have hsame := hshare.resolve_left had
    have hagree : ∀ i, RangeIndex (pageOf virt) count i →
        ∃ f, tableOf x.vmm a i = some f ∧ tableOf x.vmm d i = some f := by
      rintro i ⟨v, hv, rfl⟩
      exact hsame v hv
    have hbefore : ∀ v, RangeIndex (pageOf virt) count (split v).1 → entryAt x.vmm a v = entryAt x.vmm d v := by
      intro v hv
      obtain ⟨f, hfa, hfd⟩ := hagree _ hv
      exact entryAt_of_tables (hfa.trans hfd.symm)
    obtain ⟨hop, href⟩ := vmmMapPages_spec (h.directory a ha) h.closed hcount hpresent
      (fun v hv => (hbefore v ⟨v, hv, rfl⟩).trans (hfree v hv)) hrun
    have hdir : t.frames d = x.vmm.frames d := h.other ha hd (Ne.symm had) hop
    refine ⟨hop, fun i => by rw [tableOf_congr (congrFun hdir i)], fun v => ?_⟩
    obtain ⟨hin, hout⟩ := h.shared_operated hindex ha hd (Ne.symm had) hagree hop v
    by_cases hv : RangeIndex (pageOf virt) count (split v).1
    · rw [hin hv, href.entry, hbefore v hv]
    · rw [hout hv, if_neg fun hr => hv ⟨v, hr, rfl⟩]

end Spaces

/-! ### Operations that return -/

theorem openDir_pmm (pageDir : BitVec 32) : (openDir L pageDir s).pmm = s.pmm := by
  unfold openDir
  split_ifs <;> rfl

theorem openTable_pmm (pageTable : BitVec 32) : (openTable L pageTable s).pmm = s.pmm := by
  unfold openTable
  split_ifs <;> rfl

theorem closeDir_pmm : (closeDir L s).pmm = s.pmm := openDir_pmm _

theorem closeTable_pmm : (closeTable L s).pmm = s.pmm := openTable_pmm _

theorem clearTable_pmm (n : ℕ) : (clearTable L n s).pmm = s.pmm := by
  induction n with
  | zero => rfl
  | succ n ih => exact ih

/-- A table can be entered if it is there or a frame is left for it. -/
theorem Opened.enterTable_returns {r : Frame × σ} (h : Opened A L s d) (offset : TableOff)
    (halloc : tableOf s d offset.tid = none → A.alloc s.pmm = some r) :
    ∃ u, enterTable A L offset s = .ok () u ∧
      u.pmm = if tableOf s d offset.tid = none then r.2 else s.pmm := by
  cases htable : tableOf s d offset.tid with
  | some f => exact ⟨_, h.enterTable_of_table htable, openTable_pmm _⟩
  | none =>
    have habsent : ¬present (traverseDirEntry L offset s) = true := by
      rw [traverseDirEntry, h.dirFrame_eq]
      intro hpresent
      rw [tableOf_of_present hpresent] at htable
      cases htable
    obtain ⟨u, hu, hpmm⟩ : ∃ u, ensureTable A L offset s = .ok () u ∧ u.pmm = r.2 := by
      unfold ensureTable
      rw [get_bind_run, if_neg habsent, halloc htable]
      refine ⟨_, rfl, ?_⟩
      show (closeTable L (clearTable L 1024 (openTable L (pageAddr r.1) { s with pmm := r.2 }))).pmm = r.2
      rw [closeTable_pmm, clearTable_pmm, openTable_pmm]
    rw [enterTable, bind_of_ok hu, get_bind_run]
    exact ⟨_, rfl, (openTable_pmm _).trans hpmm⟩

theorem remapLoop_returns (perms : BitVec 16) (n : ℕ) {p : Frame} {i : Index} {r : Frame × σ} (hn : n ≤ 2 ^ 20)
    (h : Opened A L s d) (hwin : ∀ v, InRange p n v → ¬WindowPage L s d v)
    (htables : ∀ v, InRange p n v → tableOf s d (split v).1 ≠ none ∨
      ((split v).1 = i ∧ A.alloc s.pmm = some r)) (phys : BitVec 32) :
    ∃ u, remapLoop A L perms n phys (pageAddr p) s = .ok () u ∧ (u.pmm = s.pmm ∨ u.pmm = r.2) := by
  induction n generalizing s p phys with
  | zero => exact ⟨s, rfl, Or.inl rfl⟩
  | succ n ih =>
    obtain ⟨htid, hpid⟩ := offs_pageAddr p
    have hself : InRange p (n + 1) p := (inRange_succ hn p).mpr (Or.inl rfl)
    have hrest : ∀ v, InRange (p + 1) n v → InRange p (n + 1) v := fun v hv =>
      (inRange_succ hn v).mpr (Or.inr hv)
    obtain ⟨t, ht, hpmm⟩ := h.enterTable_returns (r := r) (vmmVirtToOffs (pageAddr p)) fun hnone => by
      rw [htid] at hnone
      exact ((htables p hself).resolve_left (not_not_intro hnone)).2
    have hspec := h.enterTable_within (I := fun j => j = (split p).1) htid
    rw [ht, htid] at hspec
    obtain ⟨hentered, hwithin⟩ := hspec
    have hp : ¬WindowPage L t d p := mt (hwithin.windowPage_iff h.directory.takenBase p).mp (hwin p hself)
    obtain ⟨hopen, hsame, -⟩ := hentered.setTableEntry_spec hp (phys ||| perms.setWidth 32)
    have hwin' : ∀ v, InRange (p + 1) n v →
        ¬WindowPage L (setTableEntry L (split p).2 (phys ||| perms.setWidth 32) t) d v := by
      intro v hv
      rw [WindowPage, hsame]
      exact mt (hwithin.windowPage_iff h.directory.takenBase v).mp (hwin v (hrest v hv))
    rw [htid] at hpmm
    rw [remapLoop, bind_of_ok ht, modify_bind_run, hpid, pageAddr_add]
    -- a table that was there still is
    have hkept : ∀ j, tableOf s d j ≠ none → tableOf t d j ≠ none := by
      intro j hj
      rcases hwithin.table j with hsame | ⟨-, hnone, -⟩
      · rw [hsame]
        exact hj
      · exact absurd hnone hj
    by_cases hmissing : tableOf s d (split p).1 = none
    · rw [if_pos hmissing] at hpmm
      have hpi := ((htables p hself).resolve_left (not_not_intro hmissing)).1
      obtain ⟨u, hu, hupmm⟩ := ih (by omega) hopen hwin' (fun v hv => Or.inl (by
        rw [hsame]
        rcases htables v (hrest v hv) with hv' | ⟨hvi, -⟩
        · exact hkept _ hv'
        · rw [hvi, ← hpi, hentered.table]
          exact Option.some_ne_none _)) (phys + pageSize)
      refine ⟨u, hu, Or.inr ?_⟩
      rcases hupmm with hupmm | hupmm
      · exact hupmm.trans hpmm
      · exact hupmm
    · rw [if_neg hmissing] at hpmm
      obtain ⟨u, hu, hupmm⟩ := ih (by omega) hopen hwin' (fun v hv => by
        rw [hsame]
        rcases htables v (hrest v hv) with hv' | ⟨hvi, halloc⟩
        · exact Or.inl (hkept _ hv')
        · exact Or.inr ⟨hvi, by rw [show (setTableEntry L _ _ t).pmm = t.pmm from rfl, hpmm]; exact halloc⟩)
        (phys + pageSize)
      refine ⟨u, hu, hupmm.imp_left fun hupmm => hupmm.trans hpmm⟩

/-- Unmapped pages can be mapped if at most one table is missing and a frame is left for it. -/
theorem vmmMapPages_returns {virt : BitVec 32} {count : ℕ} {i : Index} {r : Frame × σ} (phys : BitVec 32)
    (perms : BitVec 16) (hdir : Directory A L s d) (hclosed : Closed L s) (hcount : count ≤ 2 ^ 20)
    (hfree : ∀ v, InRange (pageOf virt) count v → entryAt s d v = none)
    (htables : ∀ v, InRange (pageOf virt) count v → tableOf s d (split v).1 ≠ none ∨
      ((split v).1 = i ∧ A.alloc s.pmm = some r)) :
    ∃ ret t, vmmMapPages A L phys virt (pageAddr d) count perms s = .ok ret t ∧
      (t.pmm = s.pmm ∨ t.pmm = r.2) := by
  have hwin : ∀ v, InRange (pageOf virt) count v → ¬WindowPage L s d v := fun v hv hw =>
    entryAt_of_window ⟨_, hclosed.dir⟩ ⟨_, hclosed.table⟩ hw (hfree v hv)
  have hframes : (openDir L (pageAddr d) s).frames d = s.frames d := by
    rw [openDir_run hclosed]
    exact put_of_frame_ne _ _ _ hdir.notBase
  have htable : ∀ j, tableOf (openDir L (pageAddr d) s) d j = tableOf s d j := fun j =>
    tableOf_congr (congrFun hframes j)
  obtain ⟨hopen, -⟩ := opened_openDir hdir hclosed
  obtain ⟨u, hu, hpmm⟩ := remapLoop_returns perms count hcount hopen
    (fun v hv => by rw [WindowPage, htable]; exact hwin v hv)
    (fun v hv => by rw [htable, openDir_pmm]; exact htables v hv) (pageAddr (pageOf phys))
  rw [vmmMapPages_eq_vmmRemapPages phys virt perms hdir hclosed hcount hwin hfree]
  unfold vmmRemapPages
  rw [and_mask, and_mask, modify_bind_run, bind_of_ok hu]
  refine ⟨_, _, rfl, ?_⟩
  show (closeDir L (closeTable L u)).pmm = s.pmm ∨ (closeDir L (closeTable L u)).pmm = r.2
  rwa [closeDir_pmm, closeTable_pmm, ← openDir_pmm (L := L) (pageAddr d) (s := s)]

end JustKernel.Vmm
