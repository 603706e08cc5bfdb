import JustKernel.Mm.VmmFreeCr3
import JustKernel.Mm.VmmShared

/-! The release of a forked directory, over all ways to fill it. Directories are
forked from the kernel's, frames come from `pmm_alloc`, and `vmm_map_pages` maps
them into a fork at pages the kernel's directory does not map. In every state
reached so, the tables a directory does not share with the kernel's map only
frames handed out for pages, and no table is such a frame. Since
`vmm_free_cr3` gives back pages and the directory only, it is exact just for
directories without tables of their own. -/

namespace JustKernel.Vmm

open TwoLevel Halting Runs

variable {σ : Type} {P : FramePool σ} {L : Layout} {serial : Option Port} {s t u : State σ}
  {d b base : Frame}

/-- Address spaces with the frames that `pmm_alloc` has handed out for pages. -/
structure Filling (σ : Type) extends Spaces σ where
  given : List Frame

/-- The frames of a block of `n` pages. -/
def blockFrames (p : Frame) (n : ℕ) : List Frame :=
  (List.range n).map fun k => p + BitVec.ofNat 20 k

/-- A fork, a block from `pmm_alloc`, or a call of `vmm_map_pages` with such frames on a fork
at pages that the kernel's directory does not map. -/
inductive FillStep (P : FramePool σ) (L : Layout) (base : Frame) : Filling σ → Filling σ → Prop
  | fork {x : Filling σ} {newDir : BitVec 32} {t : State σ}
      (hrun : vmmForkKernelSpace P.toFrameAlloc L base x.vmm = .ok newDir t) :
      FillStep P L base x ⟨⟨t, (pageOf newDir, x.vmm.frames base) :: x.forks⟩, x.given⟩
  | alloc {x : Filling σ} {n : ℕ} {p : Frame} {pmm : σ} (hrun : P.allocPages n x.vmm.pmm = some (p, pmm)) :
      FillStep P L base x ⟨⟨{ x.vmm with pmm := pmm }, x.forks⟩, blockFrames p n ++ x.given⟩
  | map {x : Filling σ} {d : Frame} {phys virt : BitVec 32} {count : ℕ} {perms : BitVec 16} {ret : ℕ}
      {t : State σ} (hd : d ∈ x.forkDirs)
      (hframes : ∀ k < count, pageOf phys + BitVec.ofNat 20 k ∈ x.given) (hperms : perms.toNat < 0x1000)
      (habsent : ∀ v, InRange (pageOf virt) count v → entryAt x.vmm base v = none)
      (hrun : vmmMapPages P.toFrameAlloc L phys virt (pageAddr d) count perms x.vmm = .ok ret t) :
      FillStep P L base x ⟨⟨t, x.forks⟩, x.given⟩

/-- The page of an array of the kernel's image that holds no page table: it is taken, and
its entries are not present. -/
structure IdleArray (A : FrameAlloc σ) (s : State σ) (f : Frame) : Prop where
  taken : A.taken s.pmm f
  empty : ∀ j, present (s.frames f j) = false

/-- The state after boot: the kernel's directory is there, and the arrays behind the windows
are as the image holds them. -/
structure Booted (A : FrameAlloc σ) (L : Layout) (s : State σ) (base : Frame) : Prop where
  kernel : KernelDirectory A L s base
  dirArray : IdleArray A s L.dir
  tableArray : IdleArray A s L.table
  apart : ∀ f, f = L.dir ∨ f = L.table → f ≠ base ∧ ∀ i, tableOf s base i ≠ some f

/-- A table of `d` that the kernel's directory does not name. -/
def OwnTable (s : State σ) (base d f : Frame) : Prop :=
  ∃ i, tableOf s base i = none ∧ tableOf s d i = some f

/-- A frame that such a table maps. -/
def OwnPage (s : State σ) (base d f : Frame) : Prop :=
  ∃ v e, tableOf s base (split v).1 = none ∧ entryAt s d v = some e ∧ address e = f

/-- Each frame of the directory's own is given back once, and none that another directory
maps. -/
structure ExactRelease (x : Spaces σ) (base d : Frame) (released : List Frame) : Prop where
  once : released.Nodup
  exact : ∀ f, f ∈ released ↔ f = d ∨ OwnTable x.vmm base d f ∨ OwnPage x.vmm base d f
  unmapped : ∀ f ∈ released, ∀ b ∈ base :: x.forkDirs, b ≠ d →
    ∀ v e, entryAt x.vmm b v = some e → address e ≠ f

/-- What holds however the forks are filled. -/
structure Filled (P : FramePool σ) (L : Layout) (base : Frame) (x : Filling σ) : Prop where
  apart : Apart P.toFrameAlloc L base x.toSpaces
  snapshot : ∀ fork ∈ x.forks, fork.2 = x.vmm.frames base
  copies : ∀ d ∈ x.forkDirs, ∀ i, present (x.vmm.frames base i) = true →
    x.vmm.frames d i = x.vmm.frames base i
  pages : ∀ d ∈ x.forkDirs, ∀ f, OwnPage x.vmm base d f → f ∈ x.given
  given : ∀ g ∈ x.given, P.taken x.vmm.pmm g ∧
    ∀ d ∈ base :: x.forkDirs, g ≠ d ∧ ∀ i, tableOf x.vmm d i ≠ some g
  arrays : ∀ f, f = L.dir ∨ f = L.table → IdleArray P.toFrameAlloc x.vmm f ∧
    ∀ d ∈ base :: x.forkDirs, f ≠ d ∧ ∀ i, tableOf x.vmm d i ≠ some f
  returnable : ∀ d ∈ x.forkDirs, d ≠ 0 ∧ ∀ pmm, (P.unalloc d pmm).isSome = true

theorem Booted.filled (h : Booted P.toFrameAlloc L s base) : Filled P L base ⟨⟨s, []⟩, []⟩ := by
  have hmem : ∀ d ∈ base :: (⟨s, []⟩ : Spaces σ).forkDirs, d = base := by
    intro d hd
    simpa [Spaces.forkDirs] using hd
  refine ⟨h.kernel.apart, ?_, ?_, ?_, ?_, fun f hf => ⟨?_, ?_⟩, ?_⟩
  · intro fork hfork
    cases hfork
  · intro d hd
    cases hd
  · intro d hd
    cases hd
  · intro g hg
    cases hg
  · rcases hf with rfl | rfl
    · exact h.dirArray
    · exact h.tableArray
  · intro d hd
    rw [hmem d hd]
    exact h.apart f hf
  · intro d hd
    cases hd

section Steps

variable {x : Filling σ}

/-- Without an entry of the kernel's directory at a fork there is none now. -/
theorem Filled.absent (h : Filled P L base x) {i : Index} (hi : tableOf x.vmm base i = none) :
    x.Absent i := by
  intro fork hfork
  rw [h.snapshot fork hfork]
  by_contra hpresent
  rw [tableOf_of_present (Bool.not_eq_false _ ▸ hpresent)] at hi
  cases hi

theorem Filled.tableOf_base (h : Filled P L base x) (hd : d ∈ x.forkDirs) {i : Index} {f : Frame}
    (hf : tableOf x.vmm base i = some f) : tableOf x.vmm d i = some f := by
  have hpresent : present (x.vmm.frames base i) = true := by
    by_contra hne
    rw [tableOf_eq_none (Bool.eq_false_iff.mpr hne)] at hf
    cases hf
  have hsame := h.copies d hd i hpresent
  rw [tableOf_of_present hpresent] at hf
  rw [tableOf_of_present (hsame ▸ hpresent), hsame]
  exact hf

/-- A window page of a fork is one of the kernel's directory too, and mapped there. -/
theorem Filled.windowPage (h : Filled P L base x) (hd : d ∈ x.forkDirs) {v : Frame}
    (hv : WindowPage L x.vmm d v) : entryAt x.vmm base v ≠ none ∧ tableOf x.vmm base (split v).1 ≠ none := by
  obtain ⟨i, hi⟩ := h.apart.windows
  have hdir := h.apart.directory d (List.mem_cons_of_mem _ hd)
  have hindex : i = (split v).1 := hdir.tree.distinct _ _ _ (h.tableOf_base hd hi) hv.1
  rw [hindex] at hi
  refine ⟨?_, by rw [hi]; exact Option.some_ne_none _⟩
  exact entryAt_of_window ⟨_, h.apart.closed.dir⟩ ⟨_, h.apart.closed.table⟩ ⟨hi, hv.2⟩

theorem Filled.fork (h : Filled P L base x) {f : Frame} {pmm : σ}
    (halloc : P.alloc x.vmm.pmm = some (f, pmm)) :
    Filled P L base ⟨⟨forked x.vmm base f pmm, (f, x.vmm.frames base) :: x.forks⟩, x.given⟩ := by
  have hfresh := P.fresh halloc
  have hbase := h.apart.directory base List.mem_cons_self
  have hold : ∀ d ∈ base :: x.forkDirs, d ≠ f := fun d hd => (h.apart.directory d hd).ne_fresh halloc
  have hbaseFrames : (forked x.vmm base f pmm).frames base = x.vmm.frames base :=
    forked_of_ne pmm (hold base List.mem_cons_self)
  have hdirs : ∀ d ∈ base :: f :: x.forkDirs, d = f ∨ d ∈ base :: x.forkDirs := by
    intro d hd
    rw [List.mem_cons, List.mem_cons] at hd
    rw [List.mem_cons]
    exact or_left_comm.mp hd
  -- the new directory names the kernel's tables, the others are as before
  have hmem : ∀ d ∈ base :: f :: x.forkDirs, ∀ i, ∃ c ∈ base :: x.forkDirs,
      tableOf (forked x.vmm base f pmm) d i = tableOf x.vmm c i := by
    intro d hd i
    rcases hdirs d hd with rfl | hd
    · exact ⟨base, List.mem_cons_self, tableOf_forked d pmm i⟩
    · exact ⟨d, hd, tableOf_forked_of_ne pmm (hold d hd) i⟩
  have hapart : ∀ g, P.taken x.vmm.pmm g → (∀ d ∈ base :: x.forkDirs, g ≠ d ∧ ∀ i, tableOf x.vmm d i ≠ some g) →
      ∀ d ∈ base :: f :: x.forkDirs, g ≠ d ∧ ∀ i, tableOf (forked x.vmm base f pmm) d i ≠ some g := by
    intro g hg hnot d hd
    refine ⟨?_, fun i hi => ?_⟩
    · rcases hdirs d hd with rfl | hd
      · rintro rfl
        exact hfresh hg
      · exact (hnot d hd).1
    · obtain ⟨c, hc, hsame⟩ := hmem d hd i
      exact (hnot c hc).2 i (hsame.symm.trans hi)
  refine ⟨h.apart.forked_spec halloc, ?_, ?_, ?_, fun g hg => ?_, fun g hg => ?_, ?_⟩
  · intro fork hfork
    rcases List.mem_cons.mp hfork with rfl | hfork
    · exact hbaseFrames.symm
    · exact (h.snapshot fork hfork).trans hbaseFrames.symm
  · intro d hd i hi
    dsimp only at hi ⊢
    rw [hbaseFrames] at hi ⊢
    rcases List.mem_cons.mp hd with rfl | hd
    · rw [forked]
      dsimp only
      rw [Function.update_self, forkEntries, if_pos hi]
    · rw [forked_of_ne pmm (hold d (List.mem_cons_of_mem _ hd))]
      exact h.copies d hd i hi
  · rintro d hd g ⟨v, e, hnone, he, rfl⟩
    dsimp only at hnone he
    rw [tableOf_forked_of_ne pmm (hold base List.mem_cons_self)] at hnone
    rcases List.mem_cons.mp hd with rfl | hd
    · rw [entryAt, lookup_of_none ((tableOf_forked _ pmm _).trans hnone)] at he
      cases he
    · have hd' := List.mem_cons_of_mem base hd
      refine h.pages d hd _ ⟨v, e, hnone, ?_, rfl⟩
      rw [← he]
      refine (lookup_congr (congrFun (forked_of_ne pmm (hold d hd')) _) fun g hg => ?_).symm
      refine congrFun (forked_of_ne pmm ?_) _
      rintro rfl
      exact hfresh ((h.apart.directory d hd').takenTables _ g hg)
  · obtain ⟨htaken, hnot⟩ := h.given g hg
    exact ⟨P.keeps halloc htaken, hapart g htaken hnot⟩
  · obtain ⟨⟨htaken, hempty⟩, hnot⟩ := h.arrays g hg
    refine ⟨⟨P.keeps halloc htaken, fun j => ?_⟩, hapart g htaken hnot⟩
    have hne : g ≠ f := by
      rintro rfl
      exact hfresh htaken
    dsimp only
    rw [forked_of_ne pmm hne]
    exact hempty j
  · intro d hd
    rcases List.mem_cons.mp hd with rfl | hd
    · exact ⟨P.positive halloc, P.returns halloc⟩
    · exact h.returnable d hd

theorem mem_blockFrames {p g : Frame} {n : ℕ} :
    g ∈ blockFrames p n ↔ ∃ k < n, g = p + BitVec.ofNat 20 k := by
  simp only [blockFrames, List.mem_map, List.mem_range]
  exact exists_congr fun k => and_congr_right fun _ => eq_comm

theorem Filled.alloc (h : Filled P L base x) {n : ℕ} {p : Frame} {pmm : σ}
    (halloc : P.allocPages n x.vmm.pmm = some (p, pmm)) :
    Filled P L base ⟨⟨{ x.vmm with pmm := pmm }, x.forks⟩, blockFrames p n ++ x.given⟩ := by
  have hkeep : ∀ g, P.taken x.vmm.pmm g → P.taken pmm g := fun g => P.keepsPages halloc
  refine ⟨h.apart.of_pmm hkeep, h.snapshot, h.copies, ?_, ?_, ?_, h.returnable⟩
  · intro d hd f hf
    exact List.mem_append_right _ (h.pages d hd f hf)
  · intro g hg
    rcases List.mem_append.mp hg with hg | hg
    · obtain ⟨k, hk, rfl⟩ := mem_blockFrames.mp hg
      have hfresh := P.freshPages halloc k hk
      refine ⟨P.takesPages halloc k hk, fun d hd => ⟨?_, fun i hi => ?_⟩⟩
      · intro heq
        rw [heq] at hfresh
        exact hfresh (h.apart.directory d hd).takenDir
      · exact hfresh ((h.apart.directory d hd).takenTables i _ hi)
    · exact ⟨hkeep g (h.given g hg).1, (h.given g hg).2⟩
  · intro f hf
    obtain ⟨⟨htaken, hempty⟩, hnot⟩ := h.arrays f hf
    exact ⟨⟨hkeep f htaken, hempty⟩, hnot⟩

/-- What `vmm_map_pages` on a fork leaves of the other directories and of the arrays. -/
theorem Filled.operated (h : Filled P L base x) (hd : d ∈ x.forkDirs)
    (ht : Operated P.toFrameAlloc L d (fun _ => True) x.vmm t)
    (hpages : ∀ f, OwnPage t base d f → f ∈ x.given) : Filled P L base ⟨⟨t, x.forks⟩, x.given⟩ := by
  have hd' : d ∈ base :: x.forkDirs := List.mem_cons_of_mem _ hd
  have hne : base ≠ d := fun hb => h.apart.distinct (hb ▸ hd)
  have hbase : t.frames base = x.vmm.frames base :=
    h.apart.other hd' List.mem_cons_self hne ht
  have htableBase : ∀ i, tableOf t base i = tableOf x.vmm base i := fun i =>
    tableOf_congr (congrFun hbase i)
  -- a taken frame that was no table is none now
  have hapart : ∀ g, P.taken x.vmm.pmm g →
      (∀ b ∈ base :: x.forkDirs, g ≠ b ∧ ∀ i, tableOf x.vmm b i ≠ some g) →
      ∀ b ∈ base :: x.forkDirs, g ≠ b ∧ ∀ i, tableOf t b i ≠ some g := by
    intro g hg hnot b hb
    refine ⟨(hnot b hb).1, fun i hi => (hnot b hb).2 i ?_⟩
    by_cases hbd : b = d
    · subst hbd
      exact (ht.within.tableOf_taken hg i).mp hi
    · rw [← tableOf_congr (congrFun (h.apart.other hd' hb hbd ht) i)]
      exact hi
  refine ⟨h.apart.operated hd' ht, ?_, ?_, ?_, fun g hg => ?_, fun f hf => ?_, h.returnable⟩
  · intro fork hfork
    exact (h.snapshot fork hfork).trans hbase.symm
  · intro b hb i hi
    dsimp only at hi ⊢
    rw [hbase] at hi ⊢
    rw [← h.copies b hb i hi]
    by_cases hbd : b = d
    · subst hbd
      refine (ht.within.entry i).resolve_right fun hnew => ?_
      have hpresent : present (x.vmm.frames b i) = true := h.copies b hb i hi ▸ hi
      rw [tableOf_of_present hpresent] at hnew
      cases hnew.2.1
    · exact congrFun (h.apart.other hd' (List.mem_cons_of_mem _ hb) hbd ht) i
  · intro b hb f hf
    by_cases hbd : b = d
    · subst hbd
      exact hpages f hf
    · have hb' : b ∈ base :: x.forkDirs := List.mem_cons_of_mem _ hb
      obtain ⟨v, e, hnone, he, rfl⟩ := hf
      dsimp only at hnone he
      rw [htableBase] at hnone
      refine h.pages b hb _ ⟨v, e, hnone, ?_, rfl⟩
      rw [← he]
      refine (lookup_congr (congrFun (h.apart.other hd' hb' hbd ht) _) fun g hg => ?_).symm
      refine congrFun (ht.frames_eq h.apart.closed ((h.apart.directory b hb').takenTables _ g hg) ?_
        fun i _ hi => ?_) _
      · rintro rfl
        exact h.apart.notTable b hb' g hd' _ hg
      · exact h.apart.shared b hb' d hd' hbd _ i g hg hi (h.absent hnone)
  · obtain ⟨htaken, hnot⟩ := h.given g hg
    exact ⟨ht.within.taken g htaken, hapart g htaken hnot⟩
  · obtain ⟨⟨htaken, hempty⟩, hnot⟩ := h.arrays f hf
    refine ⟨⟨ht.within.taken f htaken, fun j => ?_⟩, hapart f htaken hnot⟩
    have hsame : t.frames f = x.vmm.frames f := ht.frames_eq h.apart.closed htaken (hnot d hd').1
      fun i _ => (hnot d hd').2 i
    dsimp only
    rw [hsame]
    exact hempty j

theorem address_perms (f : Frame) {perms : BitVec 16} (hperms : perms.toNat < 0x1000) :
    address (pageAddr f ||| perms.setWidth 32) = f := by
  apply address_or
  rw [BitVec.toNat_setWidth]
  omega

theorem Filled.map (h : Filled P L base x) (hd : d ∈ x.forkDirs) {phys virt : BitVec 32} {count : ℕ}
    {perms : BitVec 16} {ret : ℕ}
    (hframes : ∀ k < count, pageOf phys + BitVec.ofNat 20 k ∈ x.given) (hperms : perms.toNat < 0x1000)
    (habsent : ∀ v, InRange (pageOf virt) count v → entryAt x.vmm base v = none)
    (hrun : vmmMapPages P.toFrameAlloc L phys virt (pageAddr d) count perms x.vmm = .ok ret t) :
    Filled P L base ⟨⟨t, x.forks⟩, x.given⟩ := by
  have hdir := h.apart.directory d (List.mem_cons_of_mem _ hd)
  have hwin : ∀ v, InRange (pageOf virt) count v → ¬WindowPage L x.vmm d v := fun v hv hw =>
    (h.windowPage hd hw).1 (habsent v hv)
  have hoperated := (Op.map phys virt count perms).run_within (I := fun _ => True) hdir h.apart.closed
    fun v hv => ⟨trivial, hwin v hv⟩
  have hentries := vmmMapPages_entries phys virt count perms hdir h.apart.closed hwin
  rw [show (Op.map phys virt count perms).run P.toFrameAlloc L (pageAddr d) x.vmm = .ok ret t from hrun]
    at hoperated
  rw [hrun] at hentries
  have hne : base ≠ d := fun hb => h.apart.distinct (hb ▸ hd)
  have hbase : t.frames base = x.vmm.frames base :=
    h.apart.other (List.mem_cons_of_mem _ hd) List.mem_cons_self hne hoperated
  refine h.operated hd hoperated ?_
  rintro f ⟨v, e, hnone, he, rfl⟩
  rw [tableOf_congr (congrFun hbase _)] at hnone
  rcases hentries v e (fun hw => (h.windowPage hd hw).2 hnone) he with he' | ⟨k, hk, rfl⟩
  · exact h.pages d hd _ ⟨v, e, hnone, he', rfl⟩
  · rw [address_perms _ hperms]
    exact hframes k hk

theorem Filled.step {y : Filling σ} (h : Filled P L base x) (hstep : FillStep P L base x y) :
    Filled P L base y := by
  cases hstep with
  | fork hrun =>
    obtain ⟨f, pmm, halloc, rfl, rfl⟩ := h.apart.fork_returned hrun
    rw [pageOf_pageAddr]
    exact h.fork halloc
  | alloc hrun => exact h.alloc hrun
  | map hd hframes hperms habsent hrun => exact h.map hd hframes hperms habsent hrun

/-! ### The release -/

theorem split_append (i j : Index) : split (i ++ j) = (i, j) := by
  apply Prod.ext
  · apply BitVec.eq_of_getLsbD_eq
    intro k hk
    show (BitVec.extractLsb' 10 10 (i ++ j)).getLsbD k = i.getLsbD k
    rw [BitVec.getLsbD_extractLsb', BitVec.getLsbD_append]
    simp [hk]
  · apply BitVec.eq_of_getLsbD_eq
    intro k hk
    show (BitVec.setWidth 10 (i ++ j)).getLsbD k = j.getLsbD k
    rw [BitVec.getLsbD_setWidth, BitVec.getLsbD_append]
    simp [hk]

/-- An entry that differs from the kernel's is one the kernel's directory does not have. -/
theorem Filled.own_entry (h : Filled P L base x) (hd : d ∈ x.forkDirs) {i : Index}
    (hne : x.vmm.frames d i ≠ x.vmm.frames base i) : tableOf x.vmm base i = none := by
  apply tableOf_eq_none
  by_contra hpresent
  exact hne (h.copies d hd i (Bool.not_eq_false _ ▸ hpresent))

theorem Filled.mapsOnly (h : Filled P L base x) (hd : d ∈ x.forkDirs) {i : Index}
    (hpresent : present (x.vmm.frames d i) = true) (hne : x.vmm.frames d i ≠ x.vmm.frames base i) :
    MapsOnly L x.vmm (· ∈ x.given) (address (x.vmm.frames d i)) := by
  have hnone := h.own_entry hd hne
  have htable := tableOf_of_present hpresent
  refine ⟨fun hb => ?_, fun j hj => ?_⟩
  · obtain ⟨k, hk⟩ := h.apart.windows
    have hindex : k = i := (h.apart.directory d (List.mem_cons_of_mem _ hd)).tree.distinct _ _ _
      (h.tableOf_base hd hk) (hb ▸ htable)
    rw [hindex, hnone] at hk
    cases hk
  · refine h.pages d hd _ ⟨i ++ j, _, ?_, ?_, rfl⟩
    · rw [split_append]
      exact hnone
    · have htable' : tableAt format x.vmm.frames d (split (i ++ j)).1 = some (address (x.vmm.frames d i)) := by
        rw [split_append]
        exact htable
      rw [entryAt, lookup_of_some htable', split_append]
      exact if_pos hj

theorem Filled.arrays_mapsOnly (h : Filled P L base x) (G : Frame → Prop) {f : Frame}
    (hf : f = L.dir ∨ f = L.table) : MapsOnly L x.vmm G f := by
  obtain ⟨⟨-, hempty⟩, hnot⟩ := h.arrays f hf
  obtain ⟨i, hi⟩ := h.apart.windows
  refine ⟨fun hb => (hnot base List.mem_cons_self).2 i (hb ▸ hi), fun j hj => ?_⟩
  rw [hempty j] at hj
  cases hj

theorem pageAddr_ne {f g : Frame} (h : f ≠ g) : pageAddr f ≠ pageAddr g := by
  intro heq
  have := congrArg pageOf heq
  rw [pageOf_pageAddr, pageOf_pageAddr] at this
  exact h this

theorem Filled.not_skipped (h : Filled P L base x) (hd : d ∈ x.forkDirs) :
    ¬(pageAddr d = 0 ∨ pageAddr d = pageAddr base) := by
  rintro (hzero | hbase)
  · have hd0 : pageAddr d = pageAddr 0 := by
      rw [hzero]
      decide
    exact pageAddr_ne (h.returnable d hd).1 hd0
  · have hne : d ≠ base := fun hb => h.apart.distinct (hb ▸ hd)
    exact pageAddr_ne hne hbase

theorem Filled.opened (h : Filled P L base x) (d : Frame) :
    Looking L x.vmm (openDir L (pageAddr d) x.vmm) ∧ dirFrame L (openDir L (pageAddr d) x.vmm) = d := by
  rw [openDir_eq d h.apart.closed.dir]
  exact ⟨h.apart.closed.looking.setDir d, (congrArg address (put_self ..)).trans (address_window d)⟩

/-- Only pages handed out by `pmm_alloc` and the directory are given back. -/
theorem Filled.released (h : Filled P L base x) (hd : d ∈ x.forkDirs) {r : List Frame}
    (hrun : vmmFreeCr3 P L serial base (pageAddr d) x.vmm = some (r, t)) :
    ∀ f ∈ r, f = d ∨ f ∈ x.given := by
  have hdir := h.apart.directory d (List.mem_cons_of_mem _ hd)
  have hbase := h.apart.directory base List.mem_cons_self
  obtain ⟨hlook, hwindow⟩ := h.opened d
  unfold vmmFreeCr3 at hrun
  rw [if_neg (h.not_skipped hd)] at hrun
  cases hwalk : freeTables P L serial base 1024 1024 (openDir L (pageAddr d) x.vmm) with
  | none =>
    rw [hwalk] at hrun
    cases hrun
  | some q =>
    rw [hwalk] at hrun
    obtain ⟨r', t'⟩ := q
    obtain ⟨hpages, -⟩ := freeTables_spec (h.arrays_mapsOnly (· ∈ x.given) (Or.inr rfl))
      (h.arrays_mapsOnly (· ∈ x.given) (Or.inl rfl)).notBase (h.arrays L.dir (Or.inl rfl)).1.empty
      hdir.notBase hbase.notBase (fun i => h.mapsOnly hd) 1024 1024 hlook (Or.inl hwindow) hwalk
    obtain ⟨pmm, -, hr⟩ := Option.map_eq_some_iff.mp hrun
    cases hr
    intro f hf
    rcases List.mem_append.mp hf with hf | hf
    · exact Or.inr (hpages f hf)
    · left
      rw [List.mem_singleton.mp hf, pageOf_pageAddr]

/-- Without tables of its own, the directory alone is given back. -/
theorem Filled.released_shared (h : Filled P L base x) (hd : d ∈ x.forkDirs)
    (hshared : ∀ i, tableOf x.vmm base i = none → tableOf x.vmm d i = none) :
    ∃ t, vmmFreeCr3 P L serial base (pageAddr d) x.vmm = some ([d], t) := by
  have hdir := h.apart.directory d (List.mem_cons_of_mem _ hd)
  have hbase := h.apart.directory base List.mem_cons_self
  obtain ⟨hlook, hwindow⟩ := h.opened d
  have hentries : ∀ i, present (x.vmm.frames d i) = true → x.vmm.frames d i = x.vmm.frames base i := by
    intro i hpresent
    by_contra hne
    have := hshared i (h.own_entry hd hne)
    rw [tableOf_of_present hpresent] at this
    cases this
  obtain ⟨pmm, hpmm⟩ := Option.isSome_iff_exists.mp ((h.returnable d hd).2
    (closeDir L (closeTable L (openDir L (pageAddr d) x.vmm))).pmm)
  unfold vmmFreeCr3
  rw [if_neg (h.not_skipped hd), freeTables_shared hdir.notBase hbase.notBase hentries 1024 1024 hlook
    hwindow]
  dsimp only
  rw [pageOf_pageAddr, hpmm]
  exact ⟨_, rfl⟩

end Steps

/-- An exact release leaves no table behind, so that there is none. -/
theorem Filled.shared_of_exact {x : Filling σ} (h : Filled P L base x) (hd : d ∈ x.forkDirs)
    {released : List Frame} (hrun : vmmFreeCr3 P L serial base (pageAddr d) x.vmm = some (released, t))
    (hexact : ExactRelease x.toSpaces base d released) {i : Index} (hi : tableOf x.vmm base i = none) :
    tableOf x.vmm d i = none := by
  by_contra hsome
  obtain ⟨f, hf⟩ := Option.ne_none_iff_exists'.mp hsome
  have hd' := List.mem_cons_of_mem base hd
  have hmem : f ∈ released := (hexact.exact f).mpr (Or.inr (Or.inl ⟨i, hi, hf⟩))
  -- a table of its own is neither the directory nor a frame handed out for a page
  rcases h.released hd hrun f hmem with rfl | hgiven
  · exact h.apart.notTable f hd' f hd' i hf
  · exact ((h.given f hgiven).2 d hd').2 i hf

/-- However forked directories have been filled, with the serial port active or not: the
release of one of them is exact if and only if it has no table of its own and its frame is
not mapped by another directory. -/
theorem release_exact_iff (hboot : Booted P.toFrameAlloc L s base) {x : Filling σ}
    (hreach : Reaches (FillStep P L base) ⟨⟨s, []⟩, []⟩ x) (hd : d ∈ x.forkDirs) (serial : Option Port) :
    (∃ released t, vmmFreeCr3 P L serial base (pageAddr d) x.vmm = some (released, t) ∧
        ExactRelease x.toSpaces base d released) ↔
      (∀ i, tableOf x.vmm base i = none → tableOf x.vmm d i = none) ∧
        ∀ b ∈ base :: x.forkDirs, b ≠ d → ∀ v e, entryAt x.vmm b v = some e → address e ≠ d := by
  have h : Filled P L base x := hreach.invariant (Filled P L base) (fun _ _ => Filled.step) hboot.filled
  constructor
  · rintro ⟨released, t, hrun, hexact⟩
    exact ⟨fun i => h.shared_of_exact hd hrun hexact,
      hexact.unmapped d ((hexact.exact d).mpr (Or.inl rfl))⟩
  · rintro ⟨hshared, hunmapped⟩
    obtain ⟨t, hrun⟩ := h.released_shared hd hshared
    refine ⟨[d], t, hrun, by simp, fun f => ?_, ?_⟩
    · rw [List.mem_singleton]
      refine ⟨Or.inl, fun hf => ?_⟩
      rcases hf with rfl | ⟨i, hi, hf⟩ | ⟨v, e, hnone, he, -⟩
      · rfl
      · rw [hshared i hi] at hf
        cases hf
      · rw [entryAt, lookup_of_none (hshared _ hnone)] at he
        cases he
    · intro f hf
      rw [List.mem_singleton.mp hf]
      exact hunmapped

/-! ### The page frame allocator as the pool -/

/-- `pmm_alloc(n * PAGE_SIZE)` for a size that fits in 32 bits. -/
def pmmAllocPages (n : ℕ) (s : { s : Pmm.State // Pmm.IsUsed s 0 }) :
    Option (Frame × { s : Pmm.State // Pmm.IsUsed s 0 }) :=
  if n < 2 ^ 20 then
    match h : Pmm.pmmAlloc (n * Pmm.pageSize) s.1 with
    | none => none
    | some (p, t) =>
      some (BitVec.ofNat 20 (p / Pmm.pageSize),
        ⟨t, ((Pmm.pmmAlloc_spec s.2 h).2.1 0).mpr (Or.inr s.2)⟩)
  else none

theorem pmmAllocPages_spec {n : ℕ} {s s' : { s : Pmm.State // Pmm.IsUsed s 0 }} {p : Frame}
    (h : pmmAllocPages n s = some (p, s')) :
    (∀ k < n, (p + BitVec.ofNat 20 k).toNat = p.toNat + k ∧ ¬Pmm.IsUsed s.1 (p.toNat + k)) ∧
      ∀ q, Pmm.IsUsed s'.1 q ↔ (p.toNat ≤ q ∧ q < p.toNat + n) ∨ Pmm.IsUsed s.1 q := by
  unfold pmmAllocPages at h
  split_ifs at h with hn
  split at h
  · cases h
  · rename_i addr t hrun
    obtain ⟨rfl, rfl⟩ := Prod.mk.inj (Option.some.inj h)
    obtain ⟨-, hused, hfresh, hfit, -⟩ := Pmm.pmmAlloc_spec s.2 hrun
    have hcount : Pmm.pageCount (n * Pmm.pageSize) = n := by
      simp only [Pmm.pageCount, Pmm.pageSize]
      omega
    rw [hcount, Pmm.bitmapMaxPage_eq] at hfit
    have hp : (BitVec.ofNat 20 (addr / Pmm.pageSize)).toNat = addr / Pmm.pageSize := by
      rw [BitVec.toNat_ofNat]
      exact Nat.mod_eq_of_lt (by omega)
    have hpages : ∀ q, q ∈ (Pmm.Block.mk addr (n * Pmm.pageSize)).pages ↔
        addr / Pmm.pageSize ≤ q ∧ q < addr / Pmm.pageSize + n := by
      intro q
      rw [Pmm.Block.pages, Set.mem_Ico, hcount]
    refine ⟨fun k hk => ⟨?_, ?_⟩, fun q => ?_⟩
    · rw [BitVec.toNat_add, hp, BitVec.toNat_ofNat]
      omega
    · rw [hp]
      exact hfresh _ ((hpages _).mpr ⟨by omega, by omega⟩)
    · rw [hused, hpages, hp]

/-- `pmm_unalloc(frame, PAGE_SIZE)`. Page 0 is used in every state considered here. -/
def pmmUnallocFrame (f : Frame) (s : { s : Pmm.State // Pmm.IsUsed s 0 }) :
    Option { s : Pmm.State // Pmm.IsUsed s 0 } :=
  (Pmm.pmmUnalloc (f.toNat * Pmm.pageSize) Pmm.pageSize s.1).bind fun t =>
    if h : Pmm.IsUsed t 0 then some ⟨t, h⟩ else none

/-- A frame from `pmm_alloc` is not page 0 and lies in the bitmap. -/
theorem pmmAllocFrame_range {s s' : { s : Pmm.State // Pmm.IsUsed s 0 }} {f : Frame}
    (h : pmmAllocFrame s = some (f, s')) : f ≠ 0 ∧ f.toNat + 1 ≤ Pmm.bitmapMaxPage := by
  refine ⟨fun hf => ?_, ?_⟩
  · have hfresh := (pmmAllocFrame_spec h).1
    rw [hf] at hfresh
    exact hfresh s.2
  · unfold pmmAllocFrame at h
    split at h
    · cases h
    · rename_i p t hrun
      obtain ⟨rfl, -⟩ := Prod.mk.inj (Option.some.inj h)
      have hfit := (Pmm.pmmAlloc_spec s.2 hrun).2.2.2.1
      rw [show Pmm.pageCount Pmm.pageSize = 1 by decide] at hfit
      rw [BitVec.toNat_ofNat]
      exact (Nat.add_le_add_right (Nat.mod_le _ _) 1).trans hfit

theorem pmmUnallocFrame_isSome {s s' : { s : Pmm.State // Pmm.IsUsed s 0 }} {f : Frame}
    (h : pmmAllocFrame s = some (f, s')) (u : { s : Pmm.State // Pmm.IsUsed s 0 }) :
    (pmmUnallocFrame f u).isSome = true := by
  obtain ⟨hzero, hfit⟩ := pmmAllocFrame_range h
  have hone : Pmm.pageCount Pmm.pageSize = 1 := by decide
  have hdiv : f.toNat * Pmm.pageSize / Pmm.pageSize = f.toNat := Nat.mul_div_cancel _ (by decide)
  obtain ⟨t, ht⟩ : ∃ t, Pmm.pmmUnalloc (f.toNat * Pmm.pageSize) Pmm.pageSize u.1 = some t := by
    rw [Pmm.pmmUnalloc, hdiv, hone, if_neg (by omega)]
    exact ⟨_, rfl⟩
  have hused : Pmm.IsUsed t 0 := by
    refine (Pmm.pmmUnalloc_spec (b := ⟨_, _⟩) ht 0).mpr ⟨?_, u.2⟩
    rw [Pmm.Block.pages, Set.mem_Ico, hdiv, hone]
    intro hmem
    exact hzero (BitVec.eq_of_toNat_eq (by simpa using hmem.1))
  rw [pmmUnallocFrame, ht, Option.bind_some, dif_pos hused]
  rfl

def pmmPool : FramePool { s : Pmm.State // Pmm.IsUsed s 0 } where
  toFrameAlloc := pmmFrames
  allocPages := pmmAllocPages
  freshPages h k hk hused := by
    obtain ⟨hsum, hfree⟩ := (pmmAllocPages_spec h).1 k hk
    exact hfree (hsum ▸ hused)
  takesPages h k hk := by
    obtain ⟨hsum, -⟩ := (pmmAllocPages_spec h).1 k hk
    show Pmm.IsUsed _ _
    rw [hsum]
    exact ((pmmAllocPages_spec h).2 _).mpr (Or.inl ⟨by omega, by omega⟩)
  keepsPages h hg := ((pmmAllocPages_spec h).2 _).mpr (Or.inr hg)
  unalloc := pmmUnallocFrame
  returns := pmmUnallocFrame_isSome
  positive h := (pmmAllocFrame_range h).1

/-- After setup, with three free pages at eight megabytes. -/
def highKernel : State { s : Pmm.State // Pmm.IsUsed s 0 } :=
  ⟨setupFrames smallLayout 0x110 fun _ _ => 0,
    Pmm.pmmMemorySetup [⟨0x800000, 0x3000, Pmm.memoryAvailable⟩] ⟨fun _ => 0, 0, 0, 0⟩, by decide +kernel⟩

theorem highKernel_frames {f : Frame} (hf : f ≠ 0x110 ∧ f ≠ smallLayout.baseTable) (j : Index) :
    highKernel.frames f j = 0 := by
  show setupFrames smallLayout 0x110 (fun _ _ => 0) f j = 0
  rw [setupFrames, Function.update_of_ne hf.2, Function.update_of_ne hf.1]

theorem highKernel_tableOf (i : Index) :
    tableOf highKernel 0x110 i = if i = 0 then some 0x111 else none :=
  tableOf_setup (L := smallLayout) (fun _ _ => 0) highKernel.pmm (by decide) i

theorem highKernel_booted : Booted pmmPool.toFrameAlloc smallLayout highKernel 0x110 := by
  have harray : ∀ f : Frame, f = 0x112 ∨ f = 0x113 → IdleArray pmmPool.toFrameAlloc highKernel f := by
    intro f hf
    refine ⟨?_, fun j => ?_⟩
    · rcases hf with rfl | rfl
      · exact show Pmm.IsUsed _ _ by decide +kernel
      · exact show Pmm.IsUsed _ _ by decide +kernel
    · rw [highKernel_frames (by rcases hf with rfl | rfl <;> decide)]
      decide
  refine ⟨setup_kernelDirectory _ _ (by decide) (by decide) (by decide)
    (show Pmm.IsUsed _ _ by decide +kernel) (show Pmm.IsUsed _ _ by decide +kernel),
    harray _ (Or.inl rfl), harray _ (Or.inr rfl), fun f hf => ⟨?_, fun i hi => ?_⟩⟩
  · rcases hf with rfl | rfl <;> decide
  · rw [highKernel_tableOf] at hi
    split_ifs at hi
    cases hi
    revert hf
    decide

theorem highKernel_alloc : ∃ pmm, pmmPool.alloc highKernel.pmm = some (0x800, pmm) := by
  obtain ⟨⟨f, pmm⟩, hf, hvalue⟩ := Option.map_eq_some_iff.mp
    (show (pmmPool.alloc highKernel.pmm).map Prod.fst = some 0x800 by decide +kernel)
  exact ⟨pmm, hf.trans (congrArg (fun g => some (g, pmm)) hvalue)⟩

/-- The kernel's directory maps the first four megabytes and nothing else. -/
theorem highKernel_entryAt {f : Frame} (pmm : { s : Pmm.State // Pmm.IsUsed s 0 }) {v : Frame} {e : Entry}
    (hf : f ≠ 0x110 ∧ f ≠ 0x111) (he : entryAt (forked highKernel 0x110 f pmm) 0x110 v = some e) :
    address e = (split v).2.setWidth 20 := by
  have htable : tableOf (forked highKernel 0x110 f pmm) 0x110 (split v).1 =
      if (split v).1 = 0 then some 0x111 else none :=
    (tableOf_forked_of_ne pmm hf.1.symm _).trans (highKernel_tableOf _)
  by_cases hv : (split v).1 = 0
  · rw [if_pos hv] at htable
    have hentry : (forked highKernel 0x110 f pmm).frames 0x111 (split v).2 =
        pageAddr ((split v).2.setWidth 20) ||| vmmPresentWriteUser := by
      rw [forked_of_ne pmm hf.2.symm]
      show setupFrames smallLayout 0x110 (fun _ _ => 0) smallLayout.baseTable _ = _
      rw [setupFrames, Function.update_self]
    rw [entryAt, lookup_of_some htable, hentry] at he
    rw [← Option.some.inj ((if_pos (present_window _)).symm.trans he), address_window]
  · rw [if_neg hv] at htable
    rw [entryAt, lookup_of_none htable] at he
    cases he

/-- A fresh fork of the high kernel is given back exactly. -/
theorem release_exact_iff_fresh_fork : ∃ x : Filling { s : Pmm.State // Pmm.IsUsed s 0 },
    Reaches (FillStep pmmPool smallLayout 0x110) ⟨⟨highKernel, []⟩, []⟩ x ∧ x.forkDirs = [0x800] ∧
      ∃ released t, vmmFreeCr3 pmmPool smallLayout none 0x110 (pageAddr 0x800) x.vmm = some (released, t) ∧
        ExactRelease x.toSpaces 0x110 0x800 released := by
  have hboot := highKernel_booted
  obtain ⟨pmm, hf⟩ := highKernel_alloc
  have hfork := FillStep.fork (x := ⟨⟨highKernel, []⟩, []⟩) (hboot.kernel.apart.fork_ok hf)
  rw [pageOf_pageAddr] at hfork
  have hne : (0x110 : Frame) ≠ 0x800 := by decide
  refine ⟨_, .single hfork, rfl, ?_⟩
  refine (release_exact_iff hboot (.single hfork) (by simp [Spaces.forkDirs]) none).mpr
    ⟨fun i hi => ?_, fun b hb hbd v e he => ?_⟩
  · exact (tableOf_forked _ pmm i).trans ((tableOf_forked_of_ne pmm hne i).symm.trans hi)
  · have hb' : b = 0x110 := by
      simp only [Spaces.forkDirs, List.map_cons, List.map_nil, List.mem_cons, List.not_mem_nil,
        or_false] at hb
      exact hb.resolve_right hbd
    subst hb'
    rw [highKernel_entryAt pmm (by decide) he]
    intro heq
    have := congrArg BitVec.toNat heq
    rw [BitVec.toNat_setWidth, show (0x800 : Frame).toNat = 2048 by decide] at this
    have hlt := (split v).2.isLt
    omega

/-- One page can be mapped while there is a frame for its table. -/
theorem vmmMapPages_one_ok {A : FrameAlloc σ} (phys virt pageDir : BitVec 32) (perms : BitVec 16)
    {r : Frame × σ} (halloc : A.alloc s.pmm = some r) :
    ∃ ret t, vmmMapPages A L phys virt pageDir 1 perms s = .ok ret t := by
  have hensure : ∀ offset, ∃ u, ensureTable A L offset (openDir L pageDir s) = .ok () u := by
    intro offset
    unfold ensureTable
    rw [get_bind_run, openDir_pmm, halloc]
    split_ifs
    · exact ⟨_, rfl⟩
    · exact ⟨_, rfl⟩
  obtain ⟨u, hu⟩ := hensure (vmmVirtToOffs (virt &&& vmm4kPermMask))
  obtain ⟨w, hw⟩ : ∃ w, enterTable A L (vmmVirtToOffs (virt &&& vmm4kPermMask)) (openDir L pageDir s) =
      .ok () w := by
    rw [enterTable, bind_of_ok hu, get_bind_run]
    exact ⟨_, rfl⟩
  obtain ⟨ret, t, ht⟩ : ∃ ret t, mapLoop A L perms 1 (phys &&& vmm4kPermMask) (virt &&& vmm4kPermMask) 0
      (openDir L pageDir s) = .ok ret t := by
    rw [mapLoop, bind_of_ok hw, get_bind_run]
    split_ifs
    · rw [modify_bind_run]
      exact ⟨_, _, rfl⟩
    · exact ⟨_, _, rfl⟩
  unfold vmmMapPages
  rw [modify_bind_run, bind_of_ok ht]
  exact ⟨_, _, rfl⟩

theorem inRange_one {p v : Frame} : InRange p 1 v ↔ v = p := by
  unfold InRange
  constructor
  · intro h
    bv_omega
  · rintro rfl
    simp

/-- While there is a frame for its table, a page can be mapped at an index that the kernel's
directory does not have, and the directory then has a table of its own. -/
theorem Filled.map_one {x : Filling σ} (h : Filled P L base x) (hd : d ∈ x.forkDirs) {g v : Frame}
    (hg : g ∈ x.given) (hbase : tableOf x.vmm base (split v).1 = none)
    (hfree : tableOf x.vmm d (split v).1 = none) {r : Frame × σ} (halloc : P.alloc x.vmm.pmm = some r) :
    ∃ t, FillStep P L base x ⟨⟨t, x.forks⟩, x.given⟩ ∧ tableOf t base (split v).1 = none ∧
      tableOf t d (split v).1 ≠ none := by
  have hd' : d ∈ base :: x.forkDirs := List.mem_cons_of_mem _ hd
  have hdir := h.apart.directory d hd'
  obtain ⟨ret, t, hrun⟩ := vmmMapPages_one_ok (L := L) (pageAddr g) (pageAddr v) (pageAddr d) 7 halloc
  have hrange : ∀ w, InRange (pageOf (pageAddr v)) 1 w → w = v := by
    intro w hw
    rw [pageOf_pageAddr] at hw
    exact inRange_one.mp hw
  have habsent : ∀ w, InRange (pageOf (pageAddr v)) 1 w → entryAt x.vmm base w = none := by
    intro w hw
    rw [hrange w hw]
    exact lookup_of_none hbase
  have hwin : ∀ w, InRange (pageOf (pageAddr v)) 1 w → ¬WindowPage L x.vmm d w := fun w hw hwindow =>
    (h.windowPage hd hwindow).1 (habsent w hw)
  have hstep : FillStep P L base x ⟨⟨t, x.forks⟩, x.given⟩ := by
    refine .map hd (fun k hk => ?_) (by decide) habsent hrun
    have hk' : k = 0 := by omega
    subst hk'
    rw [pageOf_pageAddr]
    simpa using hg
  have hfilled := h.step hstep
  refine ⟨t, hstep, ?_, fun hnone => ?_⟩
  · have hsame : t.frames base = x.vmm.frames base := by
      cases hforks : x.forks with
      | nil => rw [Spaces.forkDirs, hforks] at hd; cases hd
      | cons fork rest =>
        have hmem : fork ∈ x.forks := hforks ▸ List.mem_cons_self
        exact (hfilled.snapshot fork hmem).symm.trans (h.snapshot fork hmem)
    rw [tableOf_congr (congrFun hsame _)]
    exact hbase
  · have hentry := vmmRemapPages_refines (pageAddr g) (pageAddr v) 7 hdir h.apart.closed
      (show 1 ≤ 2 ^ 20 by omega) (by decide) hwin
    have hunmapped : ∀ w, InRange (pageOf (pageAddr v)) 1 w → entryAt x.vmm d w = none := by
      intro w hw
      rw [hrange w hw]
      exact lookup_of_none hfree
    rw [← vmmMapPages_eq_vmmRemapPages (pageAddr g) (pageAddr v) 7 hdir h.apart.closed
      (show 1 ≤ 2 ^ 20 by omega) hwin hunmapped, hrun] at hentry
    have hmapped := hentry.2.entry v
    rw [if_pos (by rw [pageOf_pageAddr]; exact inRange_one.mpr rfl), entryAt, lookup_of_none hnone] at hmapped
    cases hmapped

/-- The high kernel forks its directory, and one page is mapped there at `0x40000000`. The
release then leaves the page's table behind, with the serial port active or not. -/
theorem release_leaves_table : ∃ x : Filling { s : Pmm.State // Pmm.IsUsed s 0 },
    Reaches (FillStep pmmPool smallLayout 0x110) ⟨⟨highKernel, []⟩, []⟩ x ∧ x.forkDirs = [0x800] ∧
      ∀ serial, ¬∃ released t,
        vmmFreeCr3 pmmPool smallLayout serial 0x110 (pageAddr 0x800) x.vmm = some (released, t) ∧
          ExactRelease x.toSpaces 0x110 0x800 released := by
  have hboot := highKernel_booted
  have hne : (0x110 : Frame) ≠ 0x800 := by decide
  -- a frame each for the directory, the page and its table
  obtain ⟨r, hall⟩ := Option.isSome_iff_exists.mp
    (show (((pmmPool.alloc highKernel.pmm).bind fun r => pmmPool.allocPages 1 r.2).bind
      fun r => pmmPool.alloc r.2).isSome = true by decide +kernel)
  obtain ⟨⟨g, pmm₂⟩, hg, hr⟩ := Option.bind_eq_some_iff.mp hall
  obtain ⟨pmm₁, hd⟩ := highKernel_alloc
  rw [hd, Option.bind_some] at hg
  have hfork : FillStep pmmPool smallLayout 0x110 ⟨⟨highKernel, []⟩, []⟩
      ⟨⟨forked highKernel 0x110 0x800 pmm₁, [(0x800, highKernel.frames 0x110)]⟩, []⟩ := by
    have h := FillStep.fork (x := ⟨⟨highKernel, []⟩, []⟩) (hboot.kernel.apart.fork_ok hd)
    rwa [pageOf_pageAddr] at h
  have hblock : FillStep pmmPool smallLayout 0x110
      ⟨⟨forked highKernel 0x110 0x800 pmm₁, [(0x800, highKernel.frames 0x110)]⟩, []⟩
      ⟨⟨{ forked highKernel 0x110 0x800 pmm₁ with pmm := pmm₂ }, [(0x800, highKernel.frames 0x110)]⟩,
        blockFrames g 1 ++ []⟩ := .alloc hg
  have hfilled := (hboot.filled.step hfork).step hblock
  have htable : ∀ b : Frame, b = 0x110 ∨ b = 0x800 → tableOf (σ := { s : Pmm.State // Pmm.IsUsed s 0 })
      { forked highKernel 0x110 0x800 pmm₁ with pmm := pmm₂ } b (split 0x40000).1 = none := by
    have hnone : tableOf highKernel 0x110 (split 0x40000).1 = none := by
      rw [highKernel_tableOf, if_neg (by decide)]
    rintro b (rfl | rfl)
    · exact (tableOf_forked_of_ne pmm₁ hne _).trans hnone
    · exact (tableOf_forked _ pmm₁ _).trans hnone
  obtain ⟨t, hmap, hbase, hown⟩ := hfilled.map_one (d := 0x800) (g := g) (v := 0x40000)
    (by simp [Spaces.forkDirs]) (by simp [blockFrames]) (htable _ (Or.inl rfl)) (htable _ (Or.inr rfl)) hr
  refine ⟨_, .tail (.tail (.single hfork) hblock) hmap, rfl, ?_⟩
  rintro serial ⟨released, u, hrun, hexact⟩
  exact hown ((hfilled.step hmap).shared_of_exact (by simp [Spaces.forkDirs]) hrun hexact hbase)

end JustKernel.Vmm
