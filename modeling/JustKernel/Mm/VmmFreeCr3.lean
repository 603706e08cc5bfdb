import JustKernel.Mm.VmmIsolation

/-! Giving an address space back. `vmm_free_cr3` walks the entries of a directory
that differ from the kernel's and gives the pages behind them to
`pmm_unalloc`. Three things set it apart from an exact release. The table frames
themselves are never given back. The index `offset.pid` is not set to zero
between two tables, so that only the first one is walked. And with an active
serial port the report of a freed page ends in `virt_to_phys`, which closes both
windows, so that the rest of the walk reads the arrays `_dir` and `_table`
themselves. An exact release is therefore one of a directory without tables of
its own. -/

namespace JustKernel.Vmm

open TwoLevel Halting Runs

/-- `pmm_alloc` for blocks of pages and `pmm_unalloc` for one page, which halts on a page
beyond the bitmap. -/
structure FramePool (σ : Type) extends FrameAlloc σ where
  allocPages : ℕ → σ → Option (Frame × σ)
  freshPages : ∀ {n s s' p}, allocPages n s = some (p, s') → ∀ k < n, ¬taken s (p + BitVec.ofNat 20 k)
  takesPages : ∀ {n s s' p}, allocPages n s = some (p, s') → ∀ k < n, taken s' (p + BitVec.ofNat 20 k)
  keepsPages : ∀ {n s s' p g}, allocPages n s = some (p, s') → taken s g → taken s' g
  unalloc : Frame → σ → Option σ
  returns : ∀ {s s' f}, alloc s = some (f, s') → ∀ u, (unalloc f u).isSome = true
  positive : ∀ {s s' f}, alloc s = some (f, s') → f ≠ 0

/-- An active serial port: what `get_core_locals` and `vmm_get_cr3` return. -/
structure Port where
  locals : BitVec 32
  cr3 : Frame

section Model

variable {σ : Type} (P : FramePool σ) (L : Layout) (serial : Option Port)

/-- `ser_printf`, its output apart: with the core's locals at hand it asks `is_mapped` about
them. -/
def serPrintf (s : State σ) : State σ :=
  match serial with
  | none => s
  | some port => if port.locals = 0 then s else (virtToPhys L port.locals (pageAddr port.cr3) s).2

/-- The loop over `offset.pid` with `n` indices left; the pages it gives back. -/
def freePages (tableBase : Frame) : ℕ → State σ → Option (List Frame × State σ)
  | 0, s => some ([], s)
  | n + 1, s =>
    let offset : TableOff := ⟨0, BitVec.ofNat 10 (1024 - (n + 1)), 0⟩
    let tableEntry := traverseTableEntry L offset s
    if present tableEntry ∧ tableEntry ≠ s.frames tableBase offset.pid then
      let page := address tableEntry
      let s := serPrintf L serial s
      match P.unalloc page s.pmm with
      | none => none
      | some pmm =>
        (freePages tableBase n { s with pmm := pmm }).map fun r => (page :: r.1, r.2)
    else freePages tableBase n s

/-- The loop over `offset.tid` with `n` indices left, where `m` values of `offset.pid` are
left. -/
def freeTables (baseDir : Frame) : ℕ → ℕ → State σ → Option (List Frame × State σ)
  | 0, _, s => some ([], s)
  | n + 1, m, s =>
    let offset : TableOff := ⟨BitVec.ofNat 10 (1024 - (n + 1)), 0, 0⟩
    let dirEntry := traverseDirEntry L offset s
    let dirEntryBase := s.frames baseDir offset.tid
    if present dirEntry ∧ dirEntry ≠ dirEntryBase then
      match freePages P L serial (address dirEntryBase) m (openTable L (traverseTable L offset s) s) with
      | none => none
      | some r => (freeTables baseDir n 0 r.2).map fun q => (r.1 ++ q.1, q.2)
    else freeTables baseDir n m s

/-- `vmm_free_cr3`, with the frames it hands to `pmm_unalloc` in their order. -/
def vmmFreeCr3 (baseDir : Frame) (table0 : BitVec 32) (s : State σ) : Option (List Frame × State σ) :=
  if table0 = 0 ∨ table0 = pageAddr baseDir then some ([], s)
  else
    match freeTables P L serial baseDir 1024 1024 (openDir L table0 s) with
    | none => none
    | some r =>
      let s := closeDir L (closeTable L r.2)
      (P.unalloc (pageOf table0) s.pmm).map fun pmm => (r.1 ++ [pageOf table0], { s with pmm := pmm })

end Model

variable {σ : Type} {P : FramePool σ} {L : Layout} {serial : Option Port} {s t u : State σ}
  {d b base : Frame}

/-! ### Looking through the windows -/

/-- Only window entries have changed. -/
structure Looking (L : Layout) (s t : State σ) : Prop where
  frames : ∀ g j, ¬WindowEntry L g j → t.frames g j = s.frames g j
  dirWindow : ∃ f, t.frames L.baseTable L.dirPid = pageAddr f ||| vmmPresentWriteUser
  tableWindow : ∃ f, t.frames L.baseTable L.tablePid = pageAddr f ||| vmmPresentWriteUser

theorem Closed.looking (h : Closed L s) : Looking L s s :=
  ⟨fun _ _ _ => rfl, ⟨_, h.dir⟩, ⟨_, h.table⟩⟩

theorem setBaseEntry_frames {j : Index} (hj : j = L.dirPid ∨ j = L.tablePid) (e : Entry) {g : Frame}
    {k : Index} (hk : ¬WindowEntry L g k) : (setBaseEntry L j e s).frames g k = s.frames g k := by
  by_cases hg : g = L.baseTable
  · subst hg
    apply put_of_index_ne
    rintro rfl
    exact hk ⟨rfl, hj⟩
  · exact congrFun (put_of_frame_ne _ _ _ hg) k

theorem Looking.setDir (h : Looking L s t) (f : Frame) :
    Looking L s (setBaseEntry L L.dirPid (pageAddr f ||| vmmPresentWriteUser) t) := by
  obtain ⟨g, hg⟩ := h.tableWindow
  refine ⟨fun k j hj => ?_, ⟨f, put_self ..⟩, g, ?_⟩
  · rw [setBaseEntry_frames (Or.inl rfl) _ hj, h.frames k j hj]
  · exact (put_of_index_ne _ _ _ _ (dirPid_ne_tablePid L).symm).trans hg

theorem Looking.setTable (h : Looking L s t) (f : Frame) :
    Looking L s (setBaseEntry L L.tablePid (pageAddr f ||| vmmPresentWriteUser) t) := by
  obtain ⟨g, hg⟩ := h.dirWindow
  refine ⟨fun k j hj => ?_, ⟨g, ?_⟩, f, put_self ..⟩
  · rw [setBaseEntry_frames (Or.inr rfl) _ hj, h.frames k j hj]
  · exact (put_of_index_ne _ _ _ _ (dirPid_ne_tablePid L)).trans hg

/-- The directory window of a state with table window open on `f`. -/
theorem dirFrame_setTable (f : Frame) :
    dirFrame L (setBaseEntry L L.tablePid (pageAddr f ||| vmmPresentWriteUser) s) = dirFrame L s :=
  congrArg address (put_of_index_ne _ _ _ _ (dirPid_ne_tablePid L))

theorem tableFrame_setTable (f : Frame) :
    tableFrame L (setBaseEntry L L.tablePid (pageAddr f ||| vmmPresentWriteUser) s) = f :=
  (congrArg address (put_self ..)).trans (address_window f)

/-- Both windows closed again. -/
theorem Looking.close (h : Looking L s t) :
    Looking L s (closeDir L (closeTable L t)) ∧ Closed L (closeDir L (closeTable L t)) := by
  obtain ⟨f, hf⟩ := h.tableWindow
  have htable := h.setTable L.table
  obtain ⟨g, hg⟩ := htable.dirWindow
  rw [closeTable_eq hf, closeDir_eq hg]
  refine ⟨htable.setDir L.dir, put_self .., ?_⟩
  exact (put_of_index_ne _ _ _ _ (dirPid_ne_tablePid L).symm).trans (put_self ..)

theorem Looking.virtToPhys (h : Looking L s t) (virt : BitVec 32) (c : Frame) :
    Looking L s (virtToPhys L virt (pageAddr c) t).2 ∧ Closed L (virtToPhys L virt (pageAddr c) t).2 := by
  obtain ⟨f, hf⟩ := h.dirWindow
  have hdir := h.setDir c
  obtain ⟨g, hg⟩ := hdir.tableWindow
  have htable : ∀ p, Looking L s (openTable L (pageAddr p)
      (setBaseEntry L L.dirPid (pageAddr c ||| vmmPresentWriteUser) t)) := by
    intro p
    rw [openTable_eq p hg]
    exact hdir.setTable p
  unfold Vmm.virtToPhys
  dsimp only
  rw [openDir_eq c hf]
  split_ifs
  · exact (htable _).close
  · exact (htable _).close
  · exact hdir.close

theorem Looking.serPrintf (h : Looking L s t) (serial : Option Port) :
    Looking L s (serPrintf L serial t) ∧ (serPrintf L serial t = t ∨ Closed L (serPrintf L serial t)) := by
  unfold Vmm.serPrintf
  cases serial with
  | none => exact ⟨h, Or.inl rfl⟩
  | some port =>
    dsimp only
    split_ifs
    · exact ⟨h, Or.inl rfl⟩
    · exact ⟨(h.virtToPhys port.locals port.cr3).1, Or.inr (h.virtToPhys port.locals port.cr3).2⟩

theorem Looking.of_pmm (h : Looking L s t) (pmm : σ) : Looking L s { t with pmm := pmm } :=
  ⟨h.frames, h.dirWindow, h.tableWindow⟩

/-! ### What the walk gives back -/

/-- Every page the table `f` maps is one of `G`, and the table is not `_base_table`. -/
structure MapsOnly (L : Layout) (s : State σ) (G : Frame → Prop) (f : Frame) : Prop where
  notBase : f ≠ L.baseTable
  pages : ∀ j, present (s.frames f j) = true → G (address (s.frames f j))

variable {G : Frame → Prop}

theorem Closed.windows (h : Closed L s) : dirFrame L s = L.dir ∧ tableFrame L s = L.table := by
  rw [dirFrame, tableFrame, h.dir, h.table, address_window, address_window]
  exact ⟨rfl, rfl⟩

theorem freePages_spec (tableBase : Frame) (harray : MapsOnly L s G L.table) (n : ℕ)
    (h : Looking L s t) (htable : MapsOnly L s G (tableFrame L t)) {r : List Frame}
    (hrun : freePages P L serial tableBase n t = some (r, u)) :
    (∀ g ∈ r, G g) ∧ Looking L s u ∧ (dirFrame L u = dirFrame L t ∨ dirFrame L u = L.dir) := by
  induction n generalizing t r with
  | zero =>
    cases hrun
    exact ⟨fun g hg => absurd hg List.not_mem_nil, h, Or.inl rfl⟩
  | succ n ih =>
    rw [freePages] at hrun
    dsimp only at hrun
    split_ifs at hrun with hentry
    · have hpage : G (address (traverseTableEntry L ⟨0, BitVec.ofNat 10 (1024 - (n + 1)), 0⟩ t)) := by
        have hsame := h.frames (tableFrame L t) (BitVec.ofNat 10 (1024 - (n + 1)))
          fun hw => htable.notBase hw.1
        rw [traverseTableEntry] at hentry ⊢
        rw [hsame] at hentry ⊢
        exact htable.pages _ hentry.1
      obtain ⟨hlook, hwhere⟩ := h.serPrintf serial
      -- the report of the page has closed both windows, or left them alone
      have hafter : (dirFrame L (Vmm.serPrintf L serial t) = dirFrame L t ∨
          dirFrame L (Vmm.serPrintf L serial t) = L.dir) ∧
          MapsOnly L s G (tableFrame L (Vmm.serPrintf L serial t)) := by
        rcases hwhere with hsame | hclosed
        · rw [hsame]
          exact ⟨Or.inl rfl, htable⟩
        · rw [hclosed.windows.1, hclosed.windows.2]
          exact ⟨Or.inr rfl, harray⟩
      generalize Vmm.serPrintf L serial t = t₁ at hrun hlook hafter
      cases hpmm : P.unalloc (address (traverseTableEntry L ⟨0, BitVec.ofNat 10 (1024 - (n + 1)), 0⟩ t)) t₁.pmm with
      | none =>
        rw [hpmm] at hrun
        cases hrun
      | some pmm =>
        rw [hpmm] at hrun
        obtain ⟨⟨r', u'⟩, hrest, hr⟩ := Option.map_eq_some_iff.mp hrun
        cases hr
        obtain ⟨hpages, hlook', hdir⟩ := ih (hlook.of_pmm pmm) hafter.2 hrest
        refine ⟨fun g hg => ?_, hlook', ?_⟩
        · rcases List.mem_cons.mp hg with rfl | hg
          · exact hpage
          · exact hpages g hg
        · rcases hdir with hdir | hdir
          · rw [hdir]
            exact hafter.1
          · exact Or.inr hdir
    · exact ih h htable hrun

/-- The walk gives back only pages that tables of the directory map which the kernel's
directory does not name. -/
theorem freeTables_spec (harray : MapsOnly L s G L.table) (hdirArray : L.dir ≠ L.baseTable)
    (hidle : ∀ i, present (s.frames L.dir i) = false) (hd : d ≠ L.baseTable) (hbase : base ≠ L.baseTable)
    (htables : ∀ i, present (s.frames d i) = true → s.frames d i ≠ s.frames base i →
      MapsOnly L s G (address (s.frames d i))) (n m : ℕ) (h : Looking L s t)
    (hdir : dirFrame L t = d ∨ dirFrame L t = L.dir) {r : List Frame}
    (hrun : freeTables P L serial base n m t = some (r, u)) :
    (∀ g ∈ r, G g) ∧ Looking L s u := by
  induction n generalizing t m r with
  | zero =>
    cases hrun
    exact ⟨fun g hg => absurd hg List.not_mem_nil, h⟩
  | succ n ih =>
    rw [freeTables] at hrun
    dsimp only at hrun
    generalize BitVec.ofNat 10 (1024 - (n + 1)) = i at hrun
    have hbaseEntry : t.frames base i = s.frames base i := h.frames base i fun hw => hbase hw.1
    rw [traverseTable, traverseDirEntry, hbaseEntry] at hrun
    split_ifs at hrun with hentry
    · have hopen : dirFrame L t = d := by
        refine hdir.resolve_right fun hd' => ?_
        rw [hd', h.frames L.dir i fun hw => hdirArray hw.1, hidle] at hentry
        exact absurd hentry.1 (by decide)
      rw [hopen, h.frames d i fun hw => hd hw.1] at hentry hrun
      have htable := htables i hentry.1 hentry.2
      obtain ⟨f, hf⟩ := h.tableWindow
      rw [openTable_eq _ hf] at hrun
      have hframe := tableFrame_setTable (L := L) (s := t) (address (s.frames d i))
      have hlook := h.setTable (address (s.frames d i))
      have hdirFrame := dirFrame_setTable (L := L) (s := t) (address (s.frames d i))
      generalize setBaseEntry L L.tablePid (pageAddr (address (s.frames d i)) ||| vmmPresentWriteUser) t =
        t₁ at hrun hframe hlook hdirFrame
      cases hpages : freePages P L serial (address (s.frames base i)) m t₁ with
      | none =>
        rw [hpages] at hrun
        cases hrun
      | some q =>
        obtain ⟨r₁, t₂⟩ := q
        rw [hpages] at hrun
        obtain ⟨⟨r₂, u'⟩, hrest, hr⟩ := Option.map_eq_some_iff.mp hrun
        cases hr
        obtain ⟨hfirst, hlook₂, hdir₂⟩ := freePages_spec _ harray m hlook (hframe ▸ htable) hpages
        rw [hdirFrame, hopen] at hdir₂
        obtain ⟨hnext, hlook₃⟩ := ih 0 hlook₂ hdir₂ hrest
        refine ⟨fun g hg => ?_, hlook₃⟩
        rcases List.mem_append.mp hg with hg | hg
        · exact hfirst g hg
        · exact hnext g hg
    · exact ih m h hdir hrun

/-- A directory without entries of its own gives back no page. -/
theorem freeTables_shared (hd : d ≠ L.baseTable) (hbase : base ≠ L.baseTable)
    (hshared : ∀ i, present (s.frames d i) = true → s.frames d i = s.frames base i) (n m : ℕ)
    (h : Looking L s t) (hdir : dirFrame L t = d) :
    freeTables P L serial base n m t = some ([], t) := by
  induction n with
  | zero => rfl
  | succ n ih =>
    rw [freeTables]
    dsimp only
    generalize BitVec.ofNat 10 (1024 - (n + 1)) = i
    rw [traverseTable, traverseDirEntry, hdir, h.frames base i fun hw => hbase hw.1,
      h.frames d i fun hw => hd hw.1, if_neg fun hentry => hentry.2 (hshared i hentry.1)]
    exact ih

/-! ### What `vmm_map_pages` adds -/

/-- After the loop a page has its old entry or one of the entries made from the range. -/
theorem mapLoop_entries {A : FrameAlloc σ} (perms : BitVec 16) (n : ℕ) {p q : Frame} (ret : ℕ)
    (h : Opened A L s d) (hr : Reachable L s d (fun _ => True) p n) :
    Ends (fun _ t => ∀ v e, ¬WindowPage L s d v → entryAt t d v = some e →
        entryAt s d v = some e ∨ ∃ k < n, e = pageAddr (q + BitVec.ofNat 20 k) ||| perms.setWidth 32)
      (fun t => A.alloc t.pmm = none) (mapLoop A L perms n (pageAddr q) (pageAddr p) ret s) := by
  induction n generalizing s p q ret with
  | zero => exact fun _ _ _ he => Or.inl he
  | succ n ih =>
    rw [mapLoop]
    refine Ends.bind ((h.enterPage hr).and (h.enterTable_spec _)) fun _ t ht => ?_
    obtain ⟨⟨hentered, hwork, hkept, hwrite⟩, -, hagree⟩ := ht
    rw [get_bind_run, (offs_pageAddr p).2, pageAddr_add, pageAddr_add]
    split_ifs
    · rw [modify_bind_run]
      obtain ⟨hwork', hnext⟩ := hwrite (pageAddr q ||| perms.setWidth 32)
      have hspec := (hentered.setTableEntry_spec (hkept p (inRange_first p n)).2
        (pageAddr q ||| perms.setWidth 32)).2
      refine (ih _ hwork'.opened hnext).imp fun _ u hu v e hv he => ?_
      have hv' : ¬WindowPage L (setTableEntry L (split p).2 (pageAddr q ||| perms.setWidth 32) t) d v :=
        mt (hwork'.within.windowPage_iff h.directory.takenBase v).mp hv
      rcases hu v e hv' he with he' | ⟨k, hk, rfl⟩
      · rw [hspec.2] at he'
        split_ifs at he'
        · cases he'
          exact Or.inr ⟨0, by omega, by simp⟩
        · rw [hagree.entry v hv] at he'
          exact Or.inl he'
      · refine Or.inr ⟨k + 1, by omega, ?_⟩
        congr 2
        bv_omega
    · refine (ih _ hwork.opened fun v hv => hkept v (inRange_shorter hv)).imp fun _ u hu v e hv he => ?_
      have hv' : ¬WindowPage L t d v := mt (hwork.within.windowPage_iff h.directory.takenBase v).mp hv
      rcases hu v e hv' he with he' | ⟨k, hk, rfl⟩
      · rw [hagree.entry v hv] at he'
        exact Or.inl he'
      · exact Or.inr ⟨k, by omega, rfl⟩

theorem vmmMapPages_entries {A : FrameAlloc σ} (phys virt : BitVec 32) (count : ℕ) (perms : BitVec 16)
    (hdir : Directory A L s d) (hclosed : Closed L s)
    (hwin : ∀ v, InRange (pageOf virt) count v → ¬WindowPage L s d v) :
    Ends (fun _ t => ∀ v e, ¬WindowPage L s d v → entryAt t d v = some e → entryAt s d v = some e ∨
        ∃ k < count, e = pageAddr (pageOf phys + BitVec.ofNat 20 k) ||| perms.setWidth 32)
      (fun t => A.alloc t.pmm = none) (vmmMapPages A L phys virt (pageAddr d) count perms s) := by
  obtain ⟨hopen, hagree⟩ := opened_openDir hdir hclosed
  have hreach : Reachable L (openDir L (pageAddr d) s) d (fun _ => True) (pageOf virt) count :=
    fun v hv => ⟨trivial, mt (windowPage_iff hagree.base v).mp (hwin v hv)⟩
  unfold vmmMapPages
  rw [and_mask, and_mask, modify_bind_run]
  refine Ends.bind ((mapLoop_entries perms count 0 hopen hreach).and
    (mapLoop_within perms count _ 0 hopen hreach)) fun ret t ht v e hv he => ?_
  have hv' : ¬WindowPage L (openDir L (pageAddr d) s) d v := mt (windowPage_iff hagree.base v).mp hv
  have hv'' : ¬WindowPage L t d v :=
    mt (ht.2.within.windowPage_iff hopen.directory.takenBase v).mp hv'
  rw [ht.2.opened.close.2.2.entry v hv''] at he
  rcases ht.1 v e hv' he with he' | hnew
  · rw [hagree.entry v hv] at he'
    exact Or.inl he'
  · exact Or.inr hnew

end JustKernel.Vmm
