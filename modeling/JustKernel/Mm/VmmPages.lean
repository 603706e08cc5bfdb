import JustKernel.Mm.VmmTables

/-! The page tables refine a finite map from pages to frames and permissions.
`vmm_remap_pages` overwrites the map on its range, `vmm_unmap_pages` removes its
range, and `vmm_map_pages` does on an unmapped range what `vmm_remap_pages`
does. Each loop treats its pages one after the other, so each result is an
induction on the number of pages left, with the first page of the range split
off. -/

namespace JustKernel.Vmm

open TwoLevel Halting

variable {σ : Type} {A : FrameAlloc σ} {L : Layout} {s t u : State σ} {d p q : Frame}

/-- Page `v` is one of the `count` pages from `p` on; page numbers wrap. -/
def InRange (p : Frame) (count : ℕ) (v : Frame) : Prop := (v - p).toNat < count

instance (p : Frame) (count : ℕ) (v : Frame) : Decidable (InRange p count v) :=
  inferInstanceAs (Decidable (_ < _))

theorem inRange_succ {n : ℕ} (hn : n + 1 ≤ 2 ^ 20) (v : Frame) :
    InRange p (n + 1) v ↔ v = p ∨ InRange (p + 1) n v := by
  unfold InRange
  constructor
  · intro h
    by_cases hv : v = p
    · exact Or.inl hv
    · right
      bv_omega
  · intro h
    rcases h with rfl | h
    · simp
    · bv_omega

theorem not_inRange_self {n : ℕ} (hn : n + 1 ≤ 2 ^ 20) : ¬InRange (p + 1) n p := by
  unfold InRange
  bv_omega

theorem offs_pageAddr (p : Frame) :
    (vmmVirtToOffs (pageAddr p)).tid = (split p).1 ∧ (vmmVirtToOffs (pageAddr p)).pid = (split p).2 := by
  have h := vmmVirtToOffs_split (pageAddr p)
  rw [pageOf_pageAddr] at h
  exact Prod.mk.inj h

/-- The state `t` holds the entries `f`, window pages apart. -/
structure Holds (A : FrameAlloc σ) (L : Layout) (s t : State σ) (d : Frame)
    (f : Frame → Option Entry) : Prop where
  opened : Opened A L t d
  base : ∀ i, tableOf t d i = some L.baseTable ↔ tableOf s d i = some L.baseTable
  entry : ∀ v, ¬WindowPage L s d v → entryAt t d v = f v

/-- The entries of one page after the other are written. -/
theorem Holds.write {f : Frame → Option Entry} (h : Holds A L s t d f) (hu : Agree L t u d)
    (hentered : Entered A L u d (split p).1) (hp : ¬WindowPage L s d p) (e : Entry) :
    Holds A L s (setTableEntry L (split p).2 e u) d
      (fun v => if v = p then (if present e then some e else none) else f v) := by
  have hbase : ∀ i, tableOf u d i = some L.baseTable ↔ tableOf s d i = some L.baseTable :=
    fun i => (hu.base i).trans (h.base i)
  obtain ⟨hopen, htable, hentry⟩ :=
    hentered.setTableEntry_spec (mt (windowPage_iff hbase p).mp hp) e
  refine ⟨hopen, fun i => ?_, fun v hv => ?_⟩
  · rw [htable]
    exact hbase i
  · have hold : entryAt u d v = f v := by
      rw [hu.entry v (mt (windowPage_iff h.base v).mp hv), h.entry v hv]
    rw [hentry, hold]

theorem Holds.agree {f : Frame → Option Entry} (h : Holds A L s t d f) (hu : Agree L t u d)
    (hopen : Opened A L u d) : Holds A L s u d f where
  opened := hopen
  base i := (hu.base i).trans (h.base i)
  entry v hv := by rw [hu.entry v (mt (windowPage_iff h.base v).mp hv), h.entry v hv]

theorem Holds.congr {f g : Frame → Option Entry} (h : Holds A L s t d f) (hfg : ∀ v, f v = g v) :
    Holds A L s t d g :=
  ⟨h.opened, h.base, fun v hv => (h.entry v hv).trans (hfg v)⟩

/-- The entry of a page in a mapping that starts with the pages `p` and `q`. -/
def newEntry (p q : Frame) (perms : BitVec 16) (v : Frame) : Entry :=
  pageAddr (q + (v - p)) ||| perms.setWidth 32

theorem present_newEntry {perms : BitVec 16} (h : perms.getLsbD 0 = true) (v : Frame) :
    present (newEntry p q perms v) = true := by
  rw [newEntry, present_or]
  simpa using h

/-- The entry of the first page is written, those of the others follow. -/
theorem newEntry_first {perms : BitVec 16} (hpresent : perms.getLsbD 0 = true) {n : ℕ} (hn : n + 1 ≤ 2 ^ 20)
    {f : Frame → Option Entry} (v : Frame) :
    (if InRange (p + 1) n v then some (newEntry (p + 1) (q + 1) perms v)
      else if v = p then
        (if present (pageAddr q ||| perms.setWidth 32) then some (pageAddr q ||| perms.setWidth 32) else none)
      else f v) =
      if InRange p (n + 1) v then some (newEntry p q perms v) else f v := by
  have hfirst : newEntry p q perms p = pageAddr q ||| perms.setWidth 32 := by
    rw [newEntry, BitVec.sub_self, BitVec.add_zero]
  have hnext : newEntry (p + 1) (q + 1) perms v = newEntry p q perms v := by
    rw [newEntry, newEntry]
    congr 2
    bv_omega
  by_cases hv : v = p
  · subst hv
    have hpres := present_newEntry (p := v) (q := q) hpresent v
    rw [hfirst] at hpres
    rw [if_neg (not_inRange_self hn), if_pos ((inRange_succ hn v).mpr (Or.inl rfl)),
      if_pos rfl, hpres, hfirst]
    rfl
  · simp only [inRange_succ hn v, hv, false_or, if_false, hnext]

/-! ### The loops -/

theorem remapLoop_spec {perms : BitVec 16} (hpresent : perms.getLsbD 0 = true) (n : ℕ)
    (hn : n ≤ 2 ^ 20) {f : Frame → Option Entry} (h : Holds A L s t d f)
    (hwin : ∀ v, InRange p n v → ¬WindowPage L s d v) :
    Ends (fun _ u => Holds A L s u d
        fun v => if InRange p n v then some (newEntry p q perms v) else f v)
      (fun u => A.alloc u.pmm = none) (remapLoop A L perms n (pageAddr q) (pageAddr p) t) := by
  induction n generalizing t p q f with
  | zero => exact h.congr fun v => by simp [InRange]
  | succ n ih =>
    obtain ⟨htid, hpid⟩ := offs_pageAddr p
    have hp : ¬WindowPage L s d p := hwin p ((inRange_succ hn p).mpr (Or.inl rfl))
    rw [remapLoop]
    refine Ends.bind (h.opened.enterTable_spec _) fun _ u hu => ?_
    rw [htid] at hu
    rw [modify_bind_run, hpid, pageAddr_add, pageAddr_add]
    have hwrite := h.write hu.2 hu.1 hp (pageAddr q ||| perms.setWidth 32)
    refine (ih (by omega) hwrite fun v hv => ?_).imp fun _ u' hu' => hu'.congr fun v => ?_
    · exact hwin v ((inRange_succ hn v).mpr (Or.inr hv))
    · exact newEntry_first hpresent hn v

theorem unmapLoop_spec (n : ℕ) (hn : n ≤ 2 ^ 20) {f : Frame → Option Entry} {ret : ℕ}
    (h : Holds A L s t d f) (hwin : ∀ v, InRange p n v → ¬WindowPage L s d v)
    (hret : ret = 0 ∨ ret = 1) :
    Ends (fun r u => Holds A L s u d (fun v => if InRange p n v then none else f v) ∧
        (r = 0 ∨ r = 1) ∧ (r = 1 ↔ ret = 1 ∨ ∃ v, InRange p n v ∧ f v = none))
      (fun u => A.alloc u.pmm = none) (unmapLoop A L n (pageAddr p) ret t) := by
  induction n generalizing t p f ret with
  | zero =>
    refine ⟨h.congr fun v => by simp [InRange], hret, ?_⟩
    simp [InRange]
  | succ n ih =>
    obtain ⟨htid, hpid⟩ := offs_pageAddr p
    have hself : InRange p (n + 1) p := (inRange_succ hn p).mpr (Or.inl rfl)
    have hp : ¬WindowPage L s d p := hwin p hself
    have hrest : ∀ v, InRange (p + 1) n v → ¬WindowPage L s d v := fun v hv =>
      hwin v ((inRange_succ hn v).mpr (Or.inr hv))
    rw [unmapLoop]
    refine Ends.bind (h.opened.enterTable_spec _) fun _ u hu => ?_
    rw [htid] at hu
    have hentry : entryAt u d p = f p := by
      rw [hu.2.entry p (mt (windowPage_iff h.base p).mp hp), h.entry p hp]
    rw [hu.1.entry] at hentry
    rw [get_bind_run, traverseTableEntry, hpid, pageAddr_add]
    by_cases hpres : present (u.frames (tableFrame L u) (split p).2) = true
    · rw [if_pos hpres] at hentry ⊢
      rw [modify_bind_run]
      refine (ih (by omega) (h.write hu.2 hu.1 hp 0) hrest hret).imp fun r u' hu' => ?_
      obtain ⟨hholds, hr, hiff⟩ := hu'
      have hzero : present 0 = false := by decide
      refine ⟨hholds.congr fun v => ?_, hr, hiff.trans (or_congr_right (exists_congr fun v => ?_))⟩
      · by_cases hv : v = p
        · subst hv
          rw [if_neg (not_inRange_self hn), if_pos rfl, hzero, if_pos hself]
          rfl
        · simp only [inRange_succ hn v, hv, false_or, if_false]
      · by_cases hv : v = p
        · subst hv
          constructor
          · exact fun hx => absurd hx.1 (not_inRange_self hn)
          · intro hx
            rw [← hentry] at hx
            cases hx.2
        · simp only [inRange_succ hn v, hv, false_or, if_false]
    · rw [if_neg hpres] at hentry ⊢
      refine (ih (by omega) (h.agree hu.2 hu.1.opened) hrest (Or.inr rfl)).imp fun r u' hu' => ?_
      obtain ⟨hholds, hr, hiff⟩ := hu'
      refine ⟨hholds.congr fun v => ?_, hr, hiff.trans (iff_of_true (Or.inl rfl) (Or.inr ⟨p, ?_⟩))⟩
      · by_cases hv : v = p
        · subst hv
          rw [if_neg (not_inRange_self hn), if_pos hself, hentry]
        · simp only [inRange_succ hn v, hv, false_or]
      · exact ⟨hself, hentry.symm⟩

/-- On a range without a mapped page, `vmm_map_pages` does what `vmm_remap_pages` does. -/
theorem mapLoop_eq_remapLoop (perms : BitVec 16) (n : ℕ) (hn : n ≤ 2 ^ 20)
    {f : Frame → Option Entry} (h : Holds A L s t d f)
    (hwin : ∀ v, InRange p n v → ¬WindowPage L s d v) (hfree : ∀ v, InRange p n v → f v = none)
    (ret : ℕ) :
    mapLoop A L perms n (pageAddr q) (pageAddr p) ret t =
      (remapLoop A L perms n (pageAddr q) (pageAddr p) >>= fun _ => pure ret) t := by
  induction n generalizing t p q f with
  | zero => rfl
  | succ n ih =>
    obtain ⟨htid, hpid⟩ := offs_pageAddr p
    have hself : InRange p (n + 1) p := (inRange_succ hn p).mpr (Or.inl rfl)
    have hp : ¬WindowPage L s d p := hwin p hself
    have hspec := h.opened.enterTable_spec (vmmVirtToOffs (pageAddr p))
    rw [mapLoop, remapLoop, bind_assoc]
    cases hrun : enterTable A L (vmmVirtToOffs (pageAddr p)) t with
    | error e u => rw [bind_of_error hrun, bind_of_error hrun]
    | ok a u =>
      rw [hrun, htid] at hspec
      obtain ⟨hentered, hagree⟩ := hspec
      have hentry : entryAt u d p = none := by
        rw [hagree.entry p (mt (windowPage_iff h.base p).mp hp), h.entry p hp, hfree p hself]
      have habsent : present (u.frames (tableFrame L u) (split p).2) = false := by
        rw [hentered.entry] at hentry
        by_contra hpres
        rw [if_pos (by simpa using hpres)] at hentry
        cases hentry
      rw [bind_of_ok hrun, bind_of_ok hrun, get_bind_run, traverseTableEntry, hpid, habsent,
        bind_assoc, modify_bind_run, pageAddr_add, pageAddr_add]
      simp only [Bool.not_false, if_true]
      rw [modify_bind_run]
      refine ih (by omega) (h.write hagree hentered hp _) (fun v hv => ?_) (fun v hv => ?_)
      · exact hwin v ((inRange_succ hn v).mpr (Or.inr hv))
      · have hvp : v ≠ p := by rintro rfl; exact not_inRange_self hn hv
        rw [if_neg hvp]
        exact hfree v ((inRange_succ hn v).mpr (Or.inr hv))

/-- Where no table is missing, `vmm_unmap_pages` does not allocate. -/
theorem unmapLoop_ok (n : ℕ) (hn : n ≤ 2 ^ 20) (h : Opened A L t d)
    (hwin : ∀ v, InRange p n v → ¬WindowPage L t d v)
    (htables : ∀ v, InRange p n v → tableOf t d (split v).1 ≠ none) (ret : ℕ) :
    ∃ r u, unmapLoop A L n (pageAddr p) ret t = .ok r u := by
  induction n generalizing t p ret with
  | zero => exact ⟨ret, t, rfl⟩
  | succ n ih =>
    obtain ⟨htid, hpid⟩ := offs_pageAddr p
    have hself : InRange p (n + 1) p := (inRange_succ hn p).mpr (Or.inl rfl)
    obtain ⟨f, hf⟩ := Option.ne_none_iff_exists'.mp (htables p hself)
    rw [← htid] at hf
    obtain ⟨-, hentered, hagree⟩ := h.enterTable_run hf
    obtain ⟨-, -, -, hdir, -⟩ := h.openTable_spec f
    have hrun := h.enterTable_of_table hf
    generalize openTable L (pageAddr f) t = u at *
    -- the rest of the range, in any state with the same tables
    have hnext : ∀ u' ret', Opened A L u' d → (∀ i, tableOf u' d i = tableOf t d i) →
        ∃ r w, unmapLoop A L n (pageAddr (p + 1)) ret' u' = .ok r w := by
      intro u' ret' hopen hsame
      refine ih (by omega) hopen (fun v hv => ?_) (fun v hv => ?_) ret'
      · refine mt (windowPage_iff (fun i => ?_) v).mp (hwin v ((inRange_succ hn v).mpr (Or.inr hv)))
        rw [hsame]
      · rw [hsame]
        exact htables v ((inRange_succ hn v).mpr (Or.inr hv))
    have hsame : ∀ i, tableOf u d i = tableOf t d i := fun i => tableAt_congr (congrFun hdir i)
    rw [unmapLoop, bind_of_ok hrun, get_bind_run, hpid, pageAddr_add]
    split_ifs
    · rw [modify_bind_run]
      have hp : ¬WindowPage L u d p := mt (windowPage_iff hagree.base p).mp (hwin p hself)
      rw [htid] at hentered
      obtain ⟨hopen, htable, -⟩ := hentered.setTableEntry_spec hp 0
      exact hnext _ _ hopen fun i => (htable i).trans (hsame i)
    · exact hnext u 1 hentered.opened hsame

/-! ### Whole operations -/

/-- A closed state that holds the entries `f` of the directory, in any other closed state's
terms. -/
structure Refines (A : FrameAlloc σ) (L : Layout) (s t : State σ) (d : Frame)
    (f : Frame → Option Entry) : Prop where
  directory : Directory A L t d
  closed : Closed L t
  base : ∀ i, tableOf t d i = some L.baseTable ↔ tableOf s d i = some L.baseTable
  entry : ∀ v, entryAt t d v = f v

/-- Window pages have the entries of the closed windows, before and after. -/
theorem entryAt_window (hs : Closed L s) (ht : Closed L t)
    (hbase : ∀ i, tableOf t d i = some L.baseTable ↔ tableOf s d i = some L.baseTable) {v : Frame}
    (hv : WindowPage L s d v) : entryAt t d v = entryAt s d v := by
  obtain ⟨htable, hpid⟩ := hv
  have hsame : t.frames L.baseTable (split v).2 = s.frames L.baseTable (split v).2 := by
    rcases hpid with hpid | hpid
    · rw [hpid, hs.dir, ht.dir]
    · rw [hpid, hs.table, ht.table]
  rw [entryAt, entryAt, lookup_of_some htable, lookup_of_some ((hbase _).mpr htable), hsame]

/-- The frame of every operation: the directory is opened, its loop runs, the windows are
closed. -/
theorem Holds.close {f : Frame → Option Entry} (hs : Closed L s) (h : Holds A L s t d f)
    (hwindow : ∀ v, WindowPage L s d v → f v = entryAt s d v) :
    Refines A L s (closeDir L (closeTable L t)) d f := by
  obtain ⟨hdir, hclosed, hagree⟩ := h.opened.close
  have hbase : ∀ i, tableOf (closeDir L (closeTable L t)) d i = some L.baseTable ↔
      tableOf s d i = some L.baseTable := fun i => (hagree.base i).trans (h.base i)
  refine ⟨hdir, hclosed, hbase, fun v => ?_⟩
  by_cases hv : WindowPage L s d v
  · rw [entryAt_window hs hclosed hbase hv, hwindow v hv]
  · rw [hagree.entry v (mt (windowPage_iff h.base v).mp hv), h.entry v hv]

theorem holds_openDir (h : Directory A L s d) (hclosed : Closed L s) :
    Holds A L s (openDir L (pageAddr d) s) d (entryAt s d) := by
  obtain ⟨hopen, hagree⟩ := opened_openDir h hclosed
  exact ⟨hopen, hagree.base, hagree.entry⟩

section Operations

variable (phys virt : BitVec 32) {count : ℕ} (perms : BitVec 16)

theorem vmmRemapPages_refines (h : Directory A L s d) (hclosed : Closed L s)
    (hcount : count ≤ 2 ^ 20) (hpresent : perms.getLsbD 0 = true)
    (hwin : ∀ v, InRange (pageOf virt) count v → ¬WindowPage L s d v) :
    Ends (fun ret t => ret = 0 ∧ Refines A L s t d fun v =>
        if InRange (pageOf virt) count v then some (newEntry (pageOf virt) (pageOf phys) perms v)
        else entryAt s d v)
      (fun t => A.alloc t.pmm = none)
      (vmmRemapPages A L phys virt (pageAddr d) count perms s) := by
  unfold vmmRemapPages
  rw [and_mask, and_mask, modify_bind_run]
  refine Ends.bind (remapLoop_spec hpresent count hcount (holds_openDir h hclosed) hwin)
    fun _ t ht => ⟨rfl, ht.close hclosed fun v hv => ?_⟩
  rw [if_neg fun hin => hwin v hin hv]

theorem vmmUnmapPages_refines (h : Directory A L s d) (hclosed : Closed L s)
    (hcount : count ≤ 2 ^ 20)
    (hwin : ∀ v, InRange (pageOf virt) count v → ¬WindowPage L s d v) :
    Ends (fun ret t => (ret = 0 ∨ ret = 1) ∧
        (ret = 1 ↔ ∃ v, InRange (pageOf virt) count v ∧ entryAt s d v = none) ∧
        Refines A L s t d fun v => if InRange (pageOf virt) count v then none else entryAt s d v)
      (fun t => A.alloc t.pmm = none) (vmmUnmapPages A L virt (pageAddr d) count s) := by
  unfold vmmUnmapPages
  rw [and_mask, modify_bind_run]
  refine Ends.bind (unmapLoop_spec count hcount (holds_openDir h hclosed) hwin (Or.inl rfl))
    fun ret t ht => ⟨ht.2.1, ?_, ht.1.close hclosed fun v hv => ?_⟩
  · rw [ht.2.2]
    simp
  · rw [if_neg fun hin => hwin v hin hv]

theorem vmmMapPages_eq_vmmRemapPages (h : Directory A L s d) (hclosed : Closed L s)
    (hcount : count ≤ 2 ^ 20) (hwin : ∀ v, InRange (pageOf virt) count v → ¬WindowPage L s d v)
    (hfree : ∀ v, InRange (pageOf virt) count v → entryAt s d v = none) :
    vmmMapPages A L phys virt (pageAddr d) count perms s =
      vmmRemapPages A L phys virt (pageAddr d) count perms s := by
  unfold vmmMapPages vmmRemapPages
  rw [and_mask, and_mask, modify_bind_run, modify_bind_run]
  have hloop := mapLoop_eq_remapLoop (A := A) (q := pageOf phys) perms count hcount
    (holds_openDir h hclosed) hwin hfree 0
  cases hrun : remapLoop A L perms count (pageAddr (pageOf phys)) (pageAddr (pageOf virt))
      (openDir L (pageAddr d) s) with
  | ok a t =>
    rw [bind_of_ok hrun] at hloop
    rw [bind_of_ok hloop, bind_of_ok hrun]
  | error e t =>
    rw [bind_of_error hrun] at hloop
    rw [bind_of_error hloop, bind_of_error hrun]

end Operations

end JustKernel.Vmm
