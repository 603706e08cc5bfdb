import JustKernel.Mm.VmmSpaces
import JustKernel.Base.Runs

/-! Isolation of address spaces. A table is named by two directories only at an
index that the kernel's directory had when one of them was forked. This survives
forks, since a fork copies entries of the kernel's directory, and operations on
any directory, since they add only tables that no directory names. An operation
at other indices therefore changes no table of another directory. -/

namespace JustKernel.Vmm

open TwoLevel Halting Runs

variable {σ : Type} {A : FrameAlloc σ} {L : Layout} {s t u : State σ} {d b base p : Frame}
  {I : Index → Prop}

/-! ### Whole operations -/

theorem Opened.close_within (h : Opened A L s d) : Within A L d I s (closeDir L (closeTable L s)) := by
  obtain ⟨f, hf⟩ := h.tableWindow
  have hdir : (closeTable L s).frames L.baseTable L.dirPid = pageAddr d ||| vmmPresentWriteUser := by
    rw [closeTable_eq hf]
    exact (put_of_index_ne _ _ _ _ (dirPid_ne_tablePid L)).trans h.dirWindow
  rw [closeDir_eq hdir, closeTable_eq hf]
  exact (within_setBaseEntry h.directory.notBase (Or.inr rfl) _).trans
    (within_setBaseEntry h.directory.notBase (Or.inl rfl) _)

/-- Before and after an operation on `d` at the indices `I`. -/
structure Operated (A : FrameAlloc σ) (L : Layout) (d : Frame) (I : Index → Prop) (s t : State σ) :
    Prop where
  directory : Directory A L t d
  closed : Closed L t
  within : Within A L d I s t

theorem Operated.mono {J : Index → Prop} (h : Operated A L d I s t) (hIJ : ∀ i, I i → J i) :
    Operated A L d J s t :=
  ⟨h.directory, h.closed, h.within.mono hIJ⟩

theorem Working.close (h : Working A L d I s t) : Operated A L d I s (closeDir L (closeTable L t)) := by
  obtain ⟨hdir, hclosed, -⟩ := h.opened.close
  exact ⟨hdir, hclosed, h.within.trans h.opened.close_within⟩

theorem Op.run_within (op : Op) (hdir : Directory A L s d) (hclosed : Closed L s)
    (hcovers : ∀ v, op.Covers v → I (split v).1 ∧ ¬WindowPage L s d v) :
    Ends (fun _ t => Operated A L d I s t) (fun t => A.alloc t.pmm = none)
      (op.run A L (pageAddr d) s) := by
  obtain ⟨hopen, hagree⟩ := opened_openDir hdir hclosed
  have hwithin : Within A L d I s (openDir L (pageAddr d) s) := by
    rw [openDir_run hclosed]
    exact within_setBaseEntry hdir.notBase (Or.inl rfl) _
  have hreach : ∀ v, op.Covers v →
      I (split v).1 ∧ ¬WindowPage L (openDir L (pageAddr d) s) d v := fun v hv =>
    ⟨(hcovers v hv).1, mt (hwithin.windowPage_iff hdir.takenBase v).mp (hcovers v hv).2⟩
  have hstart : Working A L d I s (openDir L (pageAddr d) s) := ⟨hopen, hwithin⟩
  cases op with
  | map phys virt count perms =>
    show Ends _ _ (vmmMapPages A L phys virt (pageAddr d) count perms s)
    unfold vmmMapPages
    rw [and_mask, and_mask, modify_bind_run]
    exact Ends.bind (mapLoop_within perms count _ 0 hopen hreach) fun _ t ht => (hstart.trans ht).close
  | remap phys virt count perms =>
    show Ends _ _ (vmmRemapPages A L phys virt (pageAddr d) count perms s)
    unfold vmmRemapPages
    rw [and_mask, and_mask, modify_bind_run]
    exact Ends.bind (remapLoop_within perms count _ hopen hreach) fun _ t ht => (hstart.trans ht).close
  | unmap virt count =>
    show Ends _ _ (vmmUnmapPages A L virt (pageAddr d) count s)
    unfold vmmUnmapPages
    rw [and_mask, modify_bind_run]
    exact Ends.bind (unmapLoop_within count 0 hopen hreach) fun _ t ht => (hstart.trans ht).close

/-- Between operations the window entries are those of the closed windows, so that a frame
that is no table at the indices `I` has not changed at all. -/
theorem Operated.frames_eq (h : Operated A L d I s t) (hclosed : Closed L s) {g : Frame}
    (hg : A.taken s.pmm g) (hd : g ≠ d) (htables : ∀ i, I i → tableOf s d i ≠ some g) :
    t.frames g = s.frames g := by
  funext j
  by_cases hj : WindowEntry L g j
  · obtain ⟨rfl, rfl | rfl⟩ := hj
    · rw [h.closed.dir, hclosed.dir]
    · rw [h.closed.table, hclosed.table]
  · exact h.within.frame g hg hd htables j hj

/-! ### Directories and their forks -/

/-- The kernel's page tables, with the directories that have been forked and what the kernel's
directory held at each fork. -/
structure Spaces (σ : Type) where
  vmm : State σ
  forks : List (Frame × (Index → Entry))

def Spaces.forkDirs (x : Spaces σ) : List Frame := x.forks.map Prod.fst

/-- The kernel's directory had no entry `i` at any fork. -/
def Spaces.Absent (x : Spaces σ) (i : Index) : Prop := ∀ fork ∈ x.forks, present (fork.2 i) = false

/-- A fork, an operation on a fork at indices that the kernel's directory has had at no fork,
or an operation of the kernel on its own directory that leaves the windows alone. -/
inductive Step (A : FrameAlloc σ) (L : Layout) (base : Frame) : Spaces σ → Spaces σ → Prop
  | fork {x : Spaces σ} {newDir : BitVec 32} {t : State σ}
      (hrun : vmmForkKernelSpace A L base x.vmm = .ok newDir t) :
      Step A L base x ⟨t, (pageOf newDir, x.vmm.frames base) :: x.forks⟩
  | onFork {x : Spaces σ} {d : Frame} {op : Op} {ret : ℕ} {t : State σ} (hd : d ∈ x.forkDirs)
      (habsent : ∀ v, op.Covers v → x.Absent (split v).1)
      (hrun : op.run A L (pageAddr d) x.vmm = .ok ret t) : Step A L base x { x with vmm := t }
  | onBase {x : Spaces σ} {op : Op} {ret : ℕ} {t : State σ}
      (hwindow : ∀ v, op.Covers v → ¬WindowPage L x.vmm base v)
      (hrun : op.run A L (pageAddr base) x.vmm = .ok ret t) : Step A L base x { x with vmm := t }

/-- The kernel's directory, named by `base_kernel_cr3`: it maps the windows. -/
structure KernelDirectory (A : FrameAlloc σ) (L : Layout) (s : State σ) (base : Frame) : Prop where
  directory : Directory A L s base
  closed : Closed L s
  windows : ∃ i, tableOf s base i = some L.baseTable

/-- The ownership of tables. -/
structure Apart (A : FrameAlloc σ) (L : Layout) (base : Frame) (x : Spaces σ) : Prop where
  closed : Closed L x.vmm
  directory : ∀ d ∈ base :: x.forkDirs, Directory A L x.vmm d
  windows : ∃ i, tableOf x.vmm base i = some L.baseTable
  notTable : ∀ d ∈ base :: x.forkDirs, ∀ b ∈ base :: x.forkDirs, ∀ i, tableOf x.vmm d i ≠ some b
  shared : ∀ d ∈ base :: x.forkDirs, ∀ b ∈ base :: x.forkDirs, d ≠ b → ∀ i j f,
    tableOf x.vmm d i = some f → tableOf x.vmm b j = some f → ¬x.Absent i
  distinct : base ∉ x.forkDirs

theorem KernelDirectory.apart (h : KernelDirectory A L s base) : Apart A L base ⟨s, []⟩ := by
  have hmem : ∀ d ∈ base :: (⟨s, []⟩ : Spaces σ).forkDirs, d = base := by
    intro d hd
    simpa [Spaces.forkDirs] using hd
  refine ⟨h.closed, ?_, h.windows, ?_, ?_, ?_⟩
  · intro d hd
    rw [hmem d hd]
    exact h.directory
  · intro d hd b hb i
    rw [hmem d hd, hmem b hb]
    exact h.directory.tree.notSelf i
  · intro d hd b hb hne
    exact absurd ((hmem d hd).trans (hmem b hb).symm) hne
  · simp [Spaces.forkDirs]

theorem forked_of_ne {f g : Frame} (pmm : σ) (hg : g ≠ f) :
    (forked s base f pmm).frames g = s.frames g :=
  Function.update_of_ne hg ..

/-- The new directory names the tables of the kernel's directory. -/
theorem tableOf_forked (f : Frame) (pmm : σ) (i : Index) :
    tableOf (forked s base f pmm) f i = tableOf s base i := by
  have hentry : (forked s base f pmm).frames f i = forkEntries (s.frames base) i := by
    rw [forked]
    dsimp only
    rw [Function.update_self]
  by_cases hpresent : present (s.frames base i) = true
  · have hsame : (forked s base f pmm).frames f i = s.frames base i := by
      rw [hentry, forkEntries, if_pos hpresent]
    rw [tableOf_of_present hpresent, tableOf_of_present (hsame ▸ hpresent), hsame]
  · have hnone : present ((forked s base f pmm).frames f i) = false := by
      rw [hentry, present_forkEntries]
      exact Bool.eq_false_iff.mpr hpresent
    rw [tableOf_eq_none hnone, tableOf_eq_none (Bool.eq_false_iff.mpr hpresent)]

theorem tableOf_forked_of_ne {f g : Frame} (pmm : σ) (hg : g ≠ f) (i : Index) :
    tableOf (forked s base f pmm) g i = tableOf s g i :=
  tableOf_congr (congrFun (forked_of_ne pmm hg) i)

/-- The fork of a directory meets what the operations ask for. -/
theorem Directory.forked_spec {f : Frame} {pmm : σ} (h : Directory A L s base)
    (halloc : A.alloc s.pmm = some (f, pmm)) : Directory A L (forked s base f pmm) f := by
  have hfresh := A.fresh halloc
  have htable : ∀ i, tableAt format (forked s base f pmm).frames f i = tableOf s base i :=
    tableOf_forked f pmm
  refine ⟨⟨fun i j g hi hj => ?_, fun i hi => ?_⟩, fun hb => hfresh (hb ▸ h.takenBase), A.takes halloc,
    A.keeps halloc h.takenBase, fun i g hg => ?_⟩
  · rw [htable] at hi hj
    exact h.tree.distinct i j g hi hj
  · rw [htable] at hi
    exact hfresh (h.takenTables i f hi)
  · rw [tableOf_forked] at hg
    exact A.keeps halloc (h.takenTables i g hg)

theorem Directory.forked_of_ne {f : Frame} {pmm : σ} (h : Directory A L s d)
    (halloc : A.alloc s.pmm = some (f, pmm)) : Directory A L (forked s base f pmm) d := by
  have hne : d ≠ f := h.ne_fresh halloc
  refine ⟨h.tree.congr (Vmm.forked_of_ne pmm hne), h.notBase, A.keeps halloc h.takenDir,
    A.keeps halloc h.takenBase, fun i g hg => ?_⟩
  rw [tableOf_forked_of_ne pmm hne] at hg
  exact A.keeps halloc (h.takenTables i g hg)

theorem Closed.forked_spec {f : Frame} {pmm : σ} (h : Closed L s) (hf : f ≠ L.baseTable) :
    Closed L (forked s base f pmm) := by
  constructor
  · rw [forked_of_ne pmm hf.symm, h.dir]
  · rw [forked_of_ne pmm hf.symm, h.table]

section Steps

variable {x : Spaces σ}

/-- An operation on one of the directories, seen from the others. -/
theorem Apart.other (h : Apart A L base x) (hd : d ∈ base :: x.forkDirs) (hb : b ∈ base :: x.forkDirs)
    (hne : b ≠ d) (ht : Operated A L d I x.vmm t) : t.frames b = x.vmm.frames b :=
  ht.frames_eq h.closed (h.directory b hb).takenDir hne fun i _ => h.notTable d hd b hb i

theorem Apart.operated (h : Apart A L base x) (hd : d ∈ base :: x.forkDirs)
    (ht : Operated A L d I x.vmm t) : Apart A L base { x with vmm := t } := by
  have hother : ∀ b ∈ base :: x.forkDirs, b ≠ d → ∀ i, tableOf t b i = tableOf x.vmm b i :=
    fun b hb hne i => tableOf_congr (congrFun (h.other hd hb hne ht) i)
  -- every table was there before or is a new frame
  have hold : ∀ b ∈ base :: x.forkDirs, ∀ i f, tableOf t b i = some f →
      tableOf x.vmm b i = some f ∨ (b = d ∧ ¬A.taken x.vmm.pmm f) := by
    intro b hb i f hf
    by_cases hbd : b = d
    · subst hbd
      rcases ht.within.table i with hsame | ⟨-, -, g, hg, hfresh⟩
      · exact Or.inl (hsame ▸ hf)
      · rw [hf] at hg
        cases hg
        exact Or.inr ⟨rfl, hfresh⟩
    · exact Or.inl ((hother b hb hbd i).symm.trans hf)
  refine ⟨ht.closed, ?_, ?_, ?_, ?_, h.distinct⟩
  · intro b hb
    by_cases hbd : b = d
    · exact hbd ▸ ht.directory
    · have hdir := h.directory b hb
      refine ⟨hdir.tree.congr (h.other hd hb hbd ht), hdir.notBase, ht.within.taken b hdir.takenDir,
        ht.within.taken _ hdir.takenBase, fun i f hf => ht.within.taken f ?_⟩
      exact hdir.takenTables i f ((hother b hb hbd i).symm.trans hf)
  · obtain ⟨i, hi⟩ := h.windows
    refine ⟨i, ?_⟩
    by_cases hbase : base = d
    · subst hbase
      exact (ht.within.tableOf_taken (h.directory _ hd).takenBase i).mpr hi
    · exact (hother base List.mem_cons_self hbase i).trans hi
  · intro c hc b hb i hf
    rcases hold c hc i b hf with hf' | ⟨-, hfresh⟩
    · exact h.notTable c hc b hb i hf'
    · exact hfresh (h.directory b hb).takenDir
  · intro c hc b hb hne i j f hi hj
    rcases hold c hc i f hi with hi' | ⟨rfl, hfresh⟩
    · rcases hold b hb j f hj with hj' | ⟨-, hfresh⟩
      · exact h.shared c hc b hb hne i j f hi' hj'
      · exact absurd ((h.directory c hc).takenTables i f hi') hfresh
    · rcases hold b hb j f hj with hj' | ⟨rfl, -⟩
      · exact absurd ((h.directory b hb).takenTables j f hj') hfresh
      · exact absurd rfl hne

theorem Directory.of_pmm {pmm : σ} (h : Directory A L s d)
    (hkeep : ∀ g, A.taken s.pmm g → A.taken pmm g) : Directory A L { s with pmm := pmm } d :=
  ⟨h.tree, h.notBase, hkeep _ h.takenDir, hkeep _ h.takenBase, fun i f hf => hkeep f (h.takenTables i f hf)⟩

/-- More frames are taken. -/
theorem Apart.of_pmm {pmm : σ} (h : Apart A L base x) (hkeep : ∀ g, A.taken x.vmm.pmm g → A.taken pmm g) :
    Apart A L base { x with vmm := { x.vmm with pmm := pmm } } where
  closed := ⟨h.closed.dir, h.closed.table⟩
  directory b hb := (h.directory b hb).of_pmm hkeep
  windows := h.windows
  notTable := h.notTable
  shared := h.shared
  distinct := h.distinct

/-- At indices that no fork has copied, a fork has no window page. -/
theorem Apart.no_window (h : Apart A L base x) (hd : d ∈ x.forkDirs) {v : Frame}
    (habsent : x.Absent (split v).1) : ¬WindowPage L x.vmm d v := by
  intro hwin
  obtain ⟨i, hi⟩ := h.windows
  have hne : d ≠ base := fun heq => h.distinct (heq ▸ hd)
  exact h.shared d (List.mem_cons_of_mem _ hd) base List.mem_cons_self hne _ _ _ hwin.1 hi habsent

/-- A fork returns where `pmm_alloc` does. -/
theorem Apart.fork_ok (h : Apart A L base x) {f : Frame} {pmm : σ}
    (halloc : A.alloc x.vmm.pmm = some (f, pmm)) :
    vmmForkKernelSpace A L base x.vmm = .ok (pageAddr f) (forked x.vmm base f pmm) := by
  have hdir := h.directory base List.mem_cons_self
  have hfresh := A.fresh halloc
  exact vmmForkKernelSpace_run h.closed halloc (fun hb => hfresh (hb ▸ hdir.takenBase))
    (hdir.ne_fresh halloc).symm hdir.notBase

theorem Apart.fork_returned (h : Apart A L base x) {newDir : BitVec 32}
    (hrun : vmmForkKernelSpace A L base x.vmm = .ok newDir t) :
    ∃ f pmm, A.alloc x.vmm.pmm = some (f, pmm) ∧ newDir = pageAddr f ∧ t = forked x.vmm base f pmm := by
  cases halloc : A.alloc x.vmm.pmm with
  | none =>
    unfold vmmForkKernelSpace at hrun
    rw [get_bind_run, halloc] at hrun
    cases hrun
  | some r =>
    obtain ⟨f, pmm⟩ := r
    rw [h.fork_ok halloc] at hrun
    cases hrun
    exact ⟨f, pmm, rfl, rfl, rfl⟩

theorem Apart.forked_spec (h : Apart A L base x) {f : Frame} {pmm : σ}
    (halloc : A.alloc x.vmm.pmm = some (f, pmm)) :
    Apart A L base ⟨forked x.vmm base f pmm, (f, x.vmm.frames base) :: x.forks⟩ := by
  have hfresh := A.fresh halloc
  have hbase := h.directory base List.mem_cons_self
  have hold : ∀ d ∈ base :: x.forkDirs, d ≠ f := fun d hd => (h.directory d hd).ne_fresh halloc
  have hmem : ∀ d, d ∈ base :: Spaces.forkDirs ⟨forked x.vmm base f pmm, (f, x.vmm.frames base) :: x.forks⟩ →
      d = f ∨ d ∈ base :: x.forkDirs := by
    intro d hd
    simp only [Spaces.forkDirs, List.map_cons, List.mem_cons] at hd ⊢
    tauto
  -- a table of one of the directories, before the fork
  have htable : ∀ d, d = f ∨ d ∈ base :: x.forkDirs → ∀ i g, tableOf (forked x.vmm base f pmm) d i = some g →
      (d = f ∧ tableOf x.vmm base i = some g) ∨ (d ≠ f ∧ d ∈ base :: x.forkDirs ∧ tableOf x.vmm d i = some g) := by
    intro d hd i g hg
    rcases hd with rfl | hd
    · rw [tableOf_forked] at hg
      exact Or.inl ⟨rfl, hg⟩
    · rw [tableOf_forked_of_ne pmm (hold d hd)] at hg
      exact Or.inr ⟨hold d hd, hd, hg⟩
  have hcopied : ∀ i g, tableOf x.vmm base i = some g →
      ¬Spaces.Absent ⟨forked x.vmm base f pmm, (f, x.vmm.frames base) :: x.forks⟩ i := by
    intro i g hg habsent
    have := habsent _ List.mem_cons_self
    rw [tableOf_eq_none this] at hg
    cases hg
  refine ⟨h.closed.forked_spec fun hb => hfresh (hb ▸ hbase.takenBase), ?_, ?_, ?_, ?_, ?_⟩
  · intro d hd
    rcases hmem d hd with rfl | hd
    · exact hbase.forked_spec halloc
    · exact (h.directory d hd).forked_of_ne halloc
  · obtain ⟨i, hi⟩ := h.windows
    exact ⟨i, (tableOf_forked_of_ne pmm (hold base List.mem_cons_self) i).trans hi⟩
  · intro d hd b hb i hf
    rcases htable d (hmem d hd) i b hf with ⟨-, hi⟩ | ⟨-, hd', hi⟩
    · rcases hmem b hb with rfl | hb
      · exact hfresh (hbase.takenTables i b hi)
      · exact h.notTable base List.mem_cons_self b hb i hi
    · rcases hmem b hb with rfl | hb
      · exact hfresh ((h.directory d hd').takenTables i b hi)
      · exact h.notTable d hd' b hb i hi
  · intro d hd b hb hne i j g hi hj
    rcases htable d (hmem d hd) i g hi with ⟨-, hi'⟩ | ⟨-, hd', hi'⟩
    · exact hcopied i g hi'
    · rcases htable b (hmem b hb) j g hj with ⟨-, hj'⟩ | ⟨-, hb', hj'⟩
      · by_cases hdb : d = base
        · exact hcopied i g (hdb ▸ hi')
        · intro habsent
          exact h.shared d hd' base List.mem_cons_self hdb i j g hi' hj' fun fork hfork =>
            habsent fork (List.mem_cons_of_mem _ hfork)
      · intro habsent
        exact h.shared d hd' b hb' hne i j g hi' hj' fun fork hfork =>
          habsent fork (List.mem_cons_of_mem _ hfork)
  · intro hb
    simp only [Spaces.forkDirs, List.map_cons, List.mem_cons] at hb
    rcases hb with hb | hb
    · exact hfresh (hb ▸ hbase.takenDir)
    · exact h.distinct hb

theorem Apart.step {y : Spaces σ} (h : Apart A L base x) (hstep : Step A L base x y) :
    Apart A L base y := by
  cases hstep with
  | fork hrun =>
    obtain ⟨f, pmm, halloc, rfl, rfl⟩ := h.fork_returned hrun
    rw [pageOf_pageAddr]
    exact h.forked_spec halloc
  | onFork hd habsent hrun =>
    rename_i d op ret t
    have hd' := List.mem_cons_of_mem base hd
    have hrun' := op.run_within (I := x.Absent) (h.directory d hd') h.closed fun v hv =>
      ⟨habsent v hv, h.no_window hd (habsent v hv)⟩
    rw [hrun] at hrun'
    exact h.operated hd' hrun'
  | onBase hwindow hrun =>
    rename_i op ret t
    have hrun' := op.run_within (I := fun _ => True) (h.directory base List.mem_cons_self) h.closed
      fun v hv => ⟨trivial, hwindow v hv⟩
    rw [hrun] at hrun'
    exact h.operated List.mem_cons_self hrun'

end Steps

/-! ### What `virt_to_phys` shows -/

/-- Between operations `virt_to_phys` depends on the directory and on the tables it names. -/
theorem virtToPhys_congr (hs : Closed L s) (ht : Closed L t) (hds : Directory A L s d)
    (hdt : Directory A L t d) (hdir : t.frames d = s.frames d)
    (htables : ∀ i f, tableOf s d i = some f → t.frames f = s.frames f) (virt : BitVec 32) :
    (virtToPhys L virt (pageAddr d) t).1 = (virtToPhys L virt (pageAddr d) s).1 := by
  have htable : ∀ i, tableOf t d i = tableOf s d i := fun i => tableOf_congr (congrFun hdir i)
  have hentry : entryAt t d (pageOf virt) = entryAt s d (pageOf virt) :=
    lookup_congr (congrFun hdir _) fun f hf => congrFun (htables _ f hf) _
  rw [virtToPhys_eq hdt ht, virtToPhys_eq hds hs, shownEntry, shownEntry, htable, hentry]

/-- The fork maps what the kernel's directory maps. -/
theorem entryAt_forked {f : Frame} {pmm : σ} (h : Directory A L s base)
    (halloc : A.alloc s.pmm = some (f, pmm)) (v : Frame) :
    entryAt (forked s base f pmm) f v = entryAt (forked s base f pmm) base v := by
  have hne : base ≠ f := h.ne_fresh halloc
  have hsame : tableOf (forked s base f pmm) base (split v).1 = tableOf (forked s base f pmm) f (split v).1 := by
    rw [tableOf_forked, tableOf_forked_of_ne pmm hne]
  cases htable : tableOf (forked s base f pmm) f (split v).1 with
  | none => rw [entryAt, entryAt, lookup_of_none htable, lookup_of_none (hsame.trans htable)]
  | some g => rw [entryAt, entryAt, lookup_of_some htable, lookup_of_some (hsame.trans htable)]

/-- For any number of forks of the kernel's directory, in any state that forks, operations on
forks at indices absent from the kernel's directory at every fork, and the kernel's own
operations lead to: a further fork maps every page to the entry the kernel's directory
maps it to, and `virt_to_phys` shows the same frame in both at every address but on the page
of `_dir`, where it shows the directory it walks; and an operation on one fork at indices
absent at every fork changes what `virt_to_phys` shows neither in the kernel's directory nor
in any other fork. -/
theorem forks_isolated (hkernel : KernelDirectory A L s base) {x : Spaces σ}
    (hreach : Reaches (Step A L base) ⟨s, []⟩ x) :
    (∀ newDir t, vmmForkKernelSpace A L base x.vmm = .ok newDir t →
      (∀ v, entryAt t (pageOf newDir) v = entryAt t base v) ∧
      ∀ virt, (tableOf t base (vmmVirtToOffs virt).tid = some L.baseTable →
          (vmmVirtToOffs virt).pid ≠ L.dirPid) →
        (virtToPhys L virt newDir t).1 = (virtToPhys L virt (pageAddr base) t).1) ∧
    ∀ d ∈ x.forkDirs, ∀ op : Op, (∀ v, op.Covers v → x.Absent (split v).1) →
      ∀ ret t, op.run A L (pageAddr d) x.vmm = .ok ret t →
        ∀ b ∈ base :: x.forkDirs, b ≠ d → ∀ virt,
          (virtToPhys L virt (pageAddr b) t).1 = (virtToPhys L virt (pageAddr b) x.vmm).1 := by
  have h : Apart A L base x := hreach.invariant (Apart A L base) (fun _ _ => Apart.step) hkernel.apart
  refine ⟨fun newDir t hrun => ?_, fun d hd op habsent ret t hrun b hb hne virt => ?_⟩
  · obtain ⟨f, pmm, halloc, rfl, rfl⟩ := h.fork_returned hrun
    have hbase := h.directory base List.mem_cons_self
    have hne : base ≠ f := hbase.ne_fresh halloc
    have hfb : f ≠ L.baseTable := fun hb => A.fresh halloc (hb ▸ hbase.takenBase)
    have hclosed : Closed L (forked x.vmm base f pmm) := h.closed.forked_spec hfb
    rw [pageOf_pageAddr]
    refine ⟨entryAt_forked hbase halloc, fun virt hvirt => ?_⟩
    obtain ⟨htid, hpid⟩ := Prod.mk.inj (vmmVirtToOffs_split virt)
    rw [htid, hpid] at hvirt
    have htable : tableOf (forked x.vmm base f pmm) f (split (pageOf virt)).1 =
        tableOf (forked x.vmm base f pmm) base (split (pageOf virt)).1 := by
      rw [tableOf_forked, tableOf_forked_of_ne pmm hne]
    have hdirPage : ¬(tableOf (forked x.vmm base f pmm) base (split (pageOf virt)).1 = some L.baseTable ∧
        (split (pageOf virt)).2 = L.dirPid) := fun hw => hvirt hw.1 hw.2
    rw [virtToPhys_eq (hbase.forked_spec halloc) hclosed, virtToPhys_eq (hbase.forked_of_ne halloc) hclosed,
      shownEntry, shownEntry, htable, entryAt_forked hbase halloc, if_neg hdirPage, if_neg hdirPage]
  · have hd' := List.mem_cons_of_mem base hd
    have hdir := h.directory b hb
    have hrun' := op.run_within (I := x.Absent) (h.directory d hd') h.closed fun v hv =>
      ⟨habsent v hv, h.no_window hd (habsent v hv)⟩
    rw [hrun] at hrun'
    have hafter : Apart A L base { x with vmm := t } := h.operated hd' hrun'
    refine virtToPhys_congr h.closed hafter.closed hdir (hafter.directory b hb) (h.other hd' hb hne hrun')
      (fun i f hf => ?_) virt
    refine hrun'.frames_eq h.closed (hdir.takenTables i f hf) ?_ fun j hj hf' => ?_
    · rintro rfl
      exact h.notTable b hb f hd' i hf
    · exact h.shared d hd' b hb hne.symm j i f hf' hf hj

/-- After setup the kernel's directory is one to fork from. -/
theorem setup_kernelDirectory (m : Frames) (pmm : σ) (hne : base ≠ L.baseTable)
    (hdir : L.dirPid.setWidth 20 = L.dir) (htable : L.tablePid.setWidth 20 = L.table)
    (hbase : A.taken pmm base) (hbaseTable : A.taken pmm L.baseTable) :
    KernelDirectory A L ⟨setupFrames L base m, pmm⟩ base where
  directory := setup_directory m pmm hne hbase hbaseTable
  closed := setup_closed m pmm hdir htable
  windows := ⟨0, (tableOf_setup m pmm hne 0).trans (if_pos rfl)⟩

theorem smallKernel_kernelDirectory : KernelDirectory pmmFrames smallLayout smallKernel 0x110 :=
  setup_kernelDirectory _ _ (by decide) (by decide) (by decide) (show Pmm.IsUsed _ _ by decide +kernel)
    (show Pmm.IsUsed _ _ by decide +kernel)

/-- The small kernel forks its directory twice; a page of the first fork at `0x40000000` is then
mapped without a change in the second. -/
theorem forks_isolated_small_kernel : ∃ x : Spaces { s : Pmm.State // Pmm.IsUsed s 0 },
    Reaches (Step pmmFrames smallLayout 0x110) ⟨smallKernel, []⟩ x ∧ ∃ b d, x.forkDirs = [b, d] ∧ b ≠ d ∧
      ∀ ret t, (Op.map 0x300000 0x40000000 1 7).run pmmFrames smallLayout (pageAddr d) x.vmm = .ok ret t →
        ∀ virt, (virtToPhys smallLayout virt (pageAddr b) t).1 =
          (virtToPhys smallLayout virt (pageAddr b) x.vmm).1 := by
  have hstart := smallKernel_kernelDirectory
  obtain ⟨⟨f, pmm⟩, hf⟩ := Option.isSome_iff_exists.mp
    (show (pmmFrames.alloc smallKernel.pmm).isSome = true by decide +kernel)
  obtain ⟨⟨g, pmm'⟩, hg⟩ := Option.isSome_iff_exists.mp
    (show ((pmmFrames.alloc smallKernel.pmm).bind fun r => pmmFrames.alloc r.2).isSome = true by
      decide +kernel)
  rw [hf, Option.bind_some] at hg
  have habsent : present (smallKernel.frames 0x110 (split 0x40000).1) = false := by decide
  have hbase : (0x110 : Frame) ≠ f := hstart.directory.ne_fresh hf
  have hne : g ≠ f := by
    rintro rfl
    exact pmmFrames.fresh hg (pmmFrames.takes hf)
  have hfirst := Step.fork (hstart.apart.fork_ok hf)
  have hsecond := Step.fork ((hstart.apart.forked_spec hf).fork_ok hg)
  rw [pageOf_pageAddr] at hfirst hsecond
  have hreach := Relation.ReflTransGen.trans (.single hfirst) (.single hsecond)
  refine ⟨_, hreach, g, f, rfl, hne, fun ret t hrun => ?_⟩
  refine (forks_isolated hstart hreach).2 f (by simp [Spaces.forkDirs]) _ (fun v hv => ?_) ret t hrun g
    (by simp [Spaces.forkDirs]) hne
  have hv' : v = 0x40000 := by
    have hp : pageOf 0x40000000 = 0x40000 := by decide
    simp only [Op.Covers, hp, InRange] at hv
    bv_omega
  subst hv'
  intro fork hfork
  simp only [List.mem_cons, List.not_mem_nil, or_false] at hfork
  rcases hfork with rfl | rfl
  · exact (congrArg present (congrFun (forked_of_ne pmm hbase) _)).trans habsent
  · exact habsent

end JustKernel.Vmm
