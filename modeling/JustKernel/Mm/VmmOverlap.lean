import JustKernel.Mm.VmmMapped
import JustKernel.Mm.VmmShared

/-! `vmm_map_pages` on a range of which some pages are mapped. The loop maps the pages in
front of the first mapped one; there `continue` skips the increments, and the remaining
iterations all look at that page. So the pages behind it that were not mapped stay
unmapped, and the operation does what its callers expect exactly when there are none. -/

namespace JustKernel.Vmm

open TwoLevel Halting

variable {σ : Type} {A : FrameAlloc σ} {L : Layout} {s t u : State σ} {d p q : Frame} {perms : BitVec 16}

/-- At a mapped page the loop stays. -/
theorem mapLoop_stays (n : ℕ) {f : Frame → Option Entry} (h : Holds A L s t d f)
    (hp : WindowPage L s d p ∨ f p ≠ none) (phys : BitVec 32) (ret : ℕ) :
    Ends (fun r u => Holds A L s u d f ∧ r = if 0 < n then 1 else ret) (fun u => A.alloc u.pmm = none)
      (mapLoop A L perms n phys (pageAddr p) ret t) := by
  induction n generalizing t ret with
  | zero => exact ⟨h, rfl⟩
  | succ n ih =>
    obtain ⟨htid, hpid⟩ := offs_pageAddr p
    rw [mapLoop]
    refine Ends.bind (h.opened.enterTable_spec _) fun _ u hu => ?_
    obtain ⟨hentered, hagree⟩ := hu
    rw [htid] at hentered
    have hu' := h.agree hagree hentered.opened
    have hentry : entryAt u d p ≠ none := by
      by_cases hw : WindowPage L s d p
      · exact entryAt_of_window ⟨_, hentered.opened.dirWindow⟩ hentered.opened.tableWindow
          ((windowPage_iff hu'.base p).mpr hw)
      · rw [hu'.entry p hw]
        exact hp.resolve_left hw
    have hpresent : present (u.frames (tableFrame L u) (split p).2) = true := by
      by_contra habsent
      exact hentry (hentered.entry.trans (if_neg habsent))
    rw [get_bind_run, traverseTableEntry, hpid, hpresent]
    refine (ih hu' 1).imp fun r w hw => ⟨hw.1, ?_⟩
    rw [hw.2, if_pos (Nat.succ_pos n)]
    exact ite_self 1

/-- The first `k` pages of the range are not mapped, the next one is. -/
theorem mapLoop_spec (hpresent : perms.getLsbD 0 = true) (k n : ℕ) (hk : k ≤ n) (hn : n ≤ 2 ^ 20)
    {f : Frame → Option Entry} (h : Holds A L s t d f)
    (hfree : ∀ v, InRange p k v → ¬WindowPage L s d v ∧ f v = none)
    (hstop : k < n → WindowPage L s d (p + BitVec.ofNat 20 k) ∨ f (p + BitVec.ofNat 20 k) ≠ none) (ret : ℕ) :
    Ends (fun r u => Holds A L s u d (fun v => if InRange p k v then some (newEntry p q perms v) else f v) ∧
        r = if k < n then 1 else ret)
      (fun u => A.alloc u.pmm = none) (mapLoop A L perms n (pageAddr q) (pageAddr p) ret t) := by
  induction k generalizing t p q f n with
  | zero =>
    have hnone : ∀ v, f v = if InRange p 0 v then some (newEntry p q perms v) else f v := fun v => by simp [InRange]
    cases n with
    | zero => exact ⟨h.congr hnone, rfl⟩
    | succ n =>
      have hp := hstop (Nat.succ_pos n)
      rw [show p + BitVec.ofNat 20 0 = p by simp] at hp
      exact (mapLoop_stays (n + 1) h hp _ ret).imp fun r u hu => ⟨hu.1.congr hnone, hu.2⟩
  | succ k ih =>
    obtain ⟨n, rfl⟩ : ∃ m, n = m + 1 := ⟨n - 1, by omega⟩
    obtain ⟨htid, hpid⟩ := offs_pageAddr p
    have hself : InRange p (k + 1) p := inRange_first p k
    obtain ⟨hp, hpf⟩ := hfree p hself
    rw [mapLoop]
    refine Ends.bind (h.opened.enterTable_spec _) fun _ u hu => ?_
    rw [htid] at hu
    obtain ⟨hentered, hagree⟩ := hu
    have habsent : present (u.frames (tableFrame L u) (split p).2) = false := by
      have hentry : entryAt u d p = none := by
        rw [(h.agree hagree hentered.opened).entry p hp, hpf]
      by_contra hpres
      rw [hentered.entry, if_pos (Bool.eq_true_of_not_eq_false hpres)] at hentry
      cases hentry
    rw [get_bind_run, traverseTableEntry, hpid, habsent, pageAddr_add, pageAddr_add]
    simp only [Bool.not_false, if_true]
    rw [modify_bind_run]
    have hshift : p + 1 + BitVec.ofNat 20 k = p + BitVec.ofNat 20 (k + 1) := by bv_omega
    refine (ih n (by omega) (by omega) (h.write hagree hentered hp (pageAddr q ||| perms.setWidth 32))
      (fun v hv => ?_) (fun hlt => ?_)).imp fun r w hw => ⟨hw.1.congr fun v => newEntry_first hpresent (by omega) v, ?_⟩
    · have hvp : v ≠ p := by
        rintro rfl
        exact not_inRange_self (by omega) hv
      rw [if_neg hvp]
      exact hfree v (inRange_next hv)
    · have hne : p + 1 + BitVec.ofNat 20 k ≠ p := by bv_omega
      rw [if_neg hne, hshift]
      exact hstop (by omega)
    · rw [hw.2]
      simp only [Nat.add_lt_add_iff_right]

/-! ### The operation -/

/-- The page `i` of a range that starts with the page `p`. -/
def pageAt (p : Frame) (i : ℕ) : Frame := p + BitVec.ofNat 20 i

theorem inRange_pageAt {i k : ℕ} (hi : i < 2 ^ 20) : InRange p k (pageAt p i) ↔ i < k := by
  unfold InRange pageAt
  rw [show p + BitVec.ofNat 20 i - p = BitVec.ofNat 20 i by bv_omega, BitVec.toNat_ofNat, Nat.mod_eq_of_lt hi]

theorem eq_pageAt {v : Frame} : v = pageAt p (v - p).toNat := by
  unfold pageAt
  bv_omega

/-- The number of pages in front of the first mapped one. -/
theorem exists_lead (s : State σ) (d p : Frame) (count : ℕ) :
    ∃ k ≤ count, (∀ i < k, entryAt s d (pageAt p i) = none) ∧ (k < count → entryAt s d (pageAt p k) ≠ none) := by
  induction count with
  | zero => exact ⟨0, le_rfl, fun i hi => absurd hi (Nat.not_lt_zero i), fun hlt => absurd hlt (Nat.lt_irrefl 0)⟩
  | succ n ih =>
    obtain ⟨k, hk, hfree, hstop⟩ := ih
    rcases Nat.lt_or_ge k n with hlt | hge
    · exact ⟨k, by omega, hfree, fun _ => hstop hlt⟩
    · obtain rfl : k = n := by omega
      by_cases hentry : entryAt s d (pageAt p k) = none
      · refine ⟨k + 1, le_rfl, fun i hi => ?_, fun hlt => absurd hlt (Nat.lt_irrefl _)⟩
        rcases Nat.lt_or_ge i k with hi' | hi'
        · exact hfree i hi'
        · rwa [show i = k by omega]
      · exact ⟨k, by omega, hfree, fun _ => hentry⟩

section Operation

variable {phys virt : BitVec 32} {count ret k : ℕ}

/-- The pages in front of the first mapped one are mapped, and nothing else changes. -/
theorem vmmMapPages_stops (phys : BitVec 32) (hdir : Directory A L s d) (hclosed : Closed L s) (hcount : count ≤ 2 ^ 20)
    (hpresent : perms.getLsbD 0 = true) (hk : k ≤ count) (hfree : ∀ i < k, entryAt s d (pageAt (pageOf virt) i) = none)
    (hstop : k < count → entryAt s d (pageAt (pageOf virt) k) ≠ none) :
    Ends (fun ret t => ret = (if k < count then 1 else 0) ∧ Refines A L s t d fun v =>
        if InRange (pageOf virt) k v then some (newEntry (pageOf virt) (pageOf phys) perms v) else entryAt s d v)
      (fun t => A.alloc t.pmm = none) (vmmMapPages A L phys virt (pageAddr d) count perms s) := by
  have hnone : ∀ v, InRange (pageOf virt) k v → entryAt s d v = none := by
    intro v hv
    rw [eq_pageAt (p := pageOf virt) (v := v)]
    exact hfree _ hv
  have hwin : ∀ v, InRange (pageOf virt) k v → ¬WindowPage L s d v := fun v hv hw =>
    entryAt_of_window ⟨_, hclosed.dir⟩ ⟨_, hclosed.table⟩ hw (hnone v hv)
  unfold vmmMapPages
  rw [and_mask, and_mask, modify_bind_run]
  refine Ends.bind (mapLoop_spec hpresent k count hk hcount (holds_openDir hdir hclosed)
    (fun v hv => ⟨hwin v hv, hnone v hv⟩) (fun hlt => Or.inr (hstop hlt)) 0) fun ret t ht => ?_
  refine ⟨ht.2, ht.1.close hclosed fun v hv => ?_⟩
  rw [if_neg fun hin => hwin v hin hv]

/-- The frame a page is mapped to. -/
def frameAt (s : State σ) (d v : Frame) : Option Frame := (entryAt s d v).map address

/-- What the callers expect: mapped pages keep their frames, the others get theirs, and the
result tells whether there were mapped ones. -/
structure FillsGaps (s t : State σ) (d p q : Frame) (count ret : ℕ) : Prop where
  keeps : ∀ i < count, entryAt s d (pageAt p i) ≠ none → frameAt t d (pageAt p i) = frameAt s d (pageAt p i)
  fills : ∀ i < count, entryAt s d (pageAt p i) = none → frameAt t d (pageAt p i) = some (pageAt q i)
  result : ret = 1 ↔ ∃ i < count, entryAt s d (pageAt p i) ≠ none

/-- No page behind a mapped one is missing, and the permissions have no bits in the frame
numbers of the missing ones other than those already set there. -/
structure MappedLast (s : State σ) (d p q : Frame) (perms : BitVec 16) (count : ℕ) : Prop where
  order : ∀ i j, i < j → j < count → entryAt s d (pageAt p i) ≠ none → entryAt s d (pageAt p j) ≠ none
  frame : ∀ i < count, entryAt s d (pageAt p i) = none →
    address (pageAddr (pageAt q i) ||| perms.setWidth 32) = pageAt q i

theorem newEntry_pageAt (i : ℕ) : newEntry p q perms (pageAt p i) = pageAddr (pageAt q i) ||| perms.setWidth 32 := by
  unfold newEntry pageAt
  rw [show p + BitVec.ofNat 20 i - p = BitVec.ofNat 20 i by bv_omega]

/-- Whatever is mapped in a range of at most `2 ^ 20` pages, a call that returns has filled
its gaps exactly if no gap was behind a mapped page. -/
theorem vmmMapPages_fills_iff (hdir : Directory A L s d) (hclosed : Closed L s) (hcount : count ≤ 2 ^ 20)
    (hpresent : perms.getLsbD 0 = true)
    (hrun : vmmMapPages A L phys virt (pageAddr d) count perms s = .ok ret t) :
    FillsGaps s t d (pageOf virt) (pageOf phys) count ret ↔
      MappedLast s d (pageOf virt) (pageOf phys) perms count := by
  obtain ⟨k, hk, hfree, hstop⟩ := exists_lead s d (pageOf virt) count
  have hspec := vmmMapPages_stops (A := A) phys hdir hclosed hcount hpresent hk hfree hstop
  rw [hrun] at hspec
  obtain ⟨hret, href⟩ := hspec
  generalize pageOf virt = p at *
  generalize pageOf phys = q at *
  have hafter : ∀ i < count, entryAt t d (pageAt p i) =
      if i < k then some (pageAddr (pageAt q i) ||| perms.setWidth 32) else entryAt s d (pageAt p i) := by
    intro i hi
    rw [href.entry]
    simp only [inRange_pageAt (show i < 2 ^ 20 by omega), newEntry_pageAt]
  constructor
  · rintro ⟨-, hfills, -⟩
    -- a missing page that has got its frame is in front of all mapped ones
    have hlead : ∀ i < count, entryAt s d (pageAt p i) = none → i < k := by
      intro i hi hnone
      by_contra hge
      have hframe := hfills i hi hnone
      rw [frameAt, hafter i hi, if_neg hge, hnone] at hframe
      cases hframe
    refine ⟨fun i j hij hj hi hnone => ?_, fun i hi hnone => ?_⟩
    · exact hi (hfree i (by have := hlead j hj hnone; omega))
    · have hframe := hfills i hi hnone
      rw [frameAt, hafter i hi, if_pos (hlead i hi hnone)] at hframe
      exact Option.some.inj hframe
  · rintro ⟨horder, hframe⟩
    refine ⟨fun i hi hsome => ?_, fun i hi hnone => ?_, ?_⟩
    · rw [frameAt, hafter i hi, if_neg fun hlt => hsome (hfree i hlt), frameAt]
    · have hlt : i < k := by
        by_contra hge
        have hmapped := hstop (by omega)
        rcases Nat.lt_or_ge k i with hki | hki
        · exact horder k i hki hi hmapped hnone
        · rw [show k = i by omega] at hmapped
          exact hmapped hnone
      rw [frameAt, hafter i hi, if_pos hlt, Option.map_some, hframe i hi hnone]
    · rw [hret]
      constructor
      · intro hone
        have hlt : k < count := by
          by_contra hge
          rw [if_neg hge] at hone
          omega
        exact ⟨k, hlt, hstop hlt⟩
      · rintro ⟨i, hi, hsome⟩
        refine if_pos ?_
        by_contra hge
        exact hsome (hfree i (by omega))

end Operation

/-- Two of the last four pages that the kernel maps are unmapped again. -/
def gapped : State { s : Pmm.State // Pmm.IsUsed s 0 } :=
  finalState (vmmUnmapPages pmmFrames smallLayout 0x3FC000 (pageAddr 0x110) 2 smallKernel)

theorem gapped_refines : Refines pmmFrames smallLayout smallKernel gapped 0x110 fun v =>
    if InRange 0x3FC 2 v then none else entryAt smallKernel 0x110 v := by
  have hrun : vmmUnmapPages pmmFrames smallLayout 0x3FC000 (pageAddr 0x110) 2 smallKernel = .ok 0 gapped :=
    ok_of_returned (by decide +kernel)
  have hpid : ∀ i < 2, (split (pageAt (pageOf 0x3FC000) i)).2 ≠ smallLayout.dirPid ∧
      (split (pageAt (pageOf 0x3FC000) i)).2 ≠ smallLayout.tablePid := by decide
  refine (vmmUnmapPages_spec smallKernel_directory smallKernel_closed (by omega) (fun v hv hwindow => ?_) hrun).2
  rw [eq_pageAt (p := pageOf 0x3FC000) (v := v)] at hwindow
  exact hwindow.2.elim (hpid _ hv).1 (hpid _ hv).2

/-- The four pages, two gaps in front of two mapped ones. -/
theorem vmmMapPages_fills_gapped : ∃ t,
    vmmMapPages pmmFrames smallLayout 0x300000 0x3FC000 (pageAddr 0x110) 4 7 gapped = .ok 1 t ∧
      FillsGaps gapped t 0x110 (pageOf 0x3FC000) (pageOf 0x300000) 4 1 := by
  have href := gapped_refines
  have hrun : vmmMapPages pmmFrames smallLayout 0x300000 0x3FC000 (pageAddr 0x110) 4 7 gapped = .ok 1 _ :=
    ok_of_returned (by decide +kernel)
  have hmapped : ∀ i < 4, 2 ≤ i → entryAt gapped 0x110 (pageAt (pageOf 0x3FC000) i) ≠ none := by decide +kernel
  have hgap : ∀ i < 2, entryAt gapped 0x110 (pageAt (pageOf 0x3FC000) i) = none := by decide +kernel
  have hframe : ∀ i < 4, address (pageAddr (pageAt (pageOf 0x300000) i) ||| (7 : BitVec 16).setWidth 32) =
      pageAt (pageOf 0x300000) i := by decide
  refine ⟨_, hrun, (vmmMapPages_fills_iff href.directory href.closed (by omega) (by decide) hrun).mpr
    ⟨fun i j hij hj hi => hmapped j hj ?_, fun i hi _ => hframe i hi⟩⟩
  by_contra hlt
  exact hi (hgap i (by omega))

/-- The last page that the kernel maps and the one behind it: the second stays unmapped. -/
theorem gap_behind_mapped_page : ¬∀ (phys virt : BitVec 32) (count : ℕ) (perms : BitVec 16) (s : State _) (d : Frame)
    (ret : ℕ) (t : State _), Directory pmmFrames smallLayout s d → Closed smallLayout s → count ≤ 2 ^ 20 →
    perms.getLsbD 0 = true → vmmMapPages pmmFrames smallLayout phys virt (pageAddr d) count perms s = .ok ret t →
    FillsGaps s t d (pageOf virt) (pageOf phys) count ret := by
  intro hall
  have hrun := ok_of_returned (r := vmmMapPages pmmFrames smallLayout 0x300000 0x3FF000 (pageAddr 0x110) 2 7
    smallKernel) (a := 1) (by decide +kernel)
  have hfills := hall _ _ _ _ _ _ _ _ smallKernel_directory smallKernel_closed (by omega) (by decide) hrun
  have hframe := hfills.fills 1 (by omega) (by decide +kernel)
  have hnone : frameAt (finalState (vmmMapPages pmmFrames smallLayout 0x300000 0x3FF000 (pageAddr 0x110) 2 7
    smallKernel)) 0x110 (pageAt (pageOf 0x3FF000) 1) = none := by decide +kernel
  rw [hnone] at hframe
  cases hframe

end JustKernel.Vmm
