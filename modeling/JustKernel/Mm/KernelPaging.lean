import JustKernel.Mm.HeapPaging
import JustKernel.Mm.VmmRelease
import JustKernel.Mm.VmmShared

/-! The memory managers below the heap. A heap calls `mm/pmm.c` and `mm/vmm.c` with
addresses; the page tables are those of all directories, and `vmm_map` works on
the directory that is active in `cr3`, whichever directory the heap is for. The
frames that `pmm_alloc` has handed to the heap and `pmm_unalloc` has not taken back
are noted; the tables that `ensure_table` allocates are not among them. -/

namespace JustKernel.Mm

open Heap (Paging HeapT)
open Vmm (Frame Index Entry Layout pmmFrames blockFrames pageOf pageAddr entryAt tableOf)
open Pmm (FreeFrom)

abbrev PmmState := { s : Pmm.State // Pmm.IsUsed s 0 }

structure Kernel where
  vmm : Vmm.State PmmState
  /-- The active directory. -/
  cr3 : Frame
  /-- The frames that heaps have got from `pmm_alloc` and not given back. -/
  held : List Frame

/-- The page of an address. -/
def pageNo (a : ℕ) : Frame := pageOf (BitVec.ofNat 32 a)

section Paging

variable (L : Layout)

def pmmAlloc (size : ℕ) (k : Kernel) : Option (ℕ × Kernel) :=
  match h : Pmm.pmmAlloc size k.vmm.pmm.1 with
  | none => none
  | some (phys, t) =>
    let pmm : PmmState := ⟨t, ((Pmm.pmmAlloc_spec k.vmm.pmm.2 h).2.1 0).mpr (Or.inr k.vmm.pmm.2)⟩
    some (phys, { k with
      vmm := { k.vmm with pmm := pmm }
      held := blockFrames (pageNo phys) (Pmm.pageCount size) ++ k.held })

/-- Page 0 is used in every state considered here. -/
def pmmUnalloc (phys size : ℕ) (k : Kernel) : Option Kernel :=
  (Pmm.pmmUnalloc phys size k.vmm.pmm.1).bind fun t =>
    if h : Pmm.IsUsed t 0 then
      let pmm : PmmState := ⟨t, h⟩
      some { k with
        vmm := { k.vmm with pmm := pmm }
        held := k.held.filter fun f => f ∉ blockFrames (pageNo phys) (Pmm.pageCount size) }
    else none

/-- A call into `mm/vmm.c` that changes page tables. -/
def runVmm {α : Type} (x : Vmm.VmmM PmmState α) (k : Kernel) : Option Kernel :=
  match x k.vmm with
  | .ok _ t => some { k with vmm := t }
  | .error _ _ => none

def vmmMapPages (phys virt cr3 count : ℕ) (perms : BitVec 16) : Kernel → Option Kernel :=
  runVmm (Vmm.vmmMapPages pmmFrames L (BitVec.ofNat 32 phys) (BitVec.ofNat 32 virt) (BitVec.ofNat 32 cr3)
    count perms)

/-- `vmm_map`, which maps in the active directory. -/
def vmmMap (phys virt count : ℕ) (perms : BitVec 16) (k : Kernel) : Option Kernel :=
  vmmMapPages L phys virt (pageAddr k.cr3).toNat count perms k

def vmmUnmapPages (virt cr3 count : ℕ) : Kernel → Option Kernel :=
  runVmm (Vmm.vmmUnmapPages pmmFrames L (BitVec.ofNat 32 virt) (BitVec.ofNat 32 cr3) count)

def virtToPhys (virt cr3 : ℕ) (k : Kernel) : ℕ × Kernel :=
  let r := Vmm.virtToPhys L (BitVec.ofNat 32 virt) (BitVec.ofNat 32 cr3) k.vmm
  (r.1.toNat, { k with vmm := r.2 })

def isMapped (virt cr3 : ℕ) (k : Kernel) : Bool × Kernel :=
  let r := virtToPhys L virt cr3 k
  (r.1 != 0xFFFFFFFF, r.2)

end Paging

theorem pmmAlloc_returned {size phys : ℕ} {k k' : Kernel} (h : pmmAlloc size k = some (phys, k')) :
    ∃ pmm : PmmState, Pmm.pmmAlloc size k.vmm.pmm.1 = some (phys, pmm.1) ∧
      k' = { k with
        vmm := { k.vmm with pmm := pmm }
        held := blockFrames (pageNo phys) (Pmm.pageCount size) ++ k.held } := by
  unfold pmmAlloc at h
  split at h
  · cases h
  · rename_i p t hrun
    obtain ⟨rfl, rfl⟩ := Prod.mk.inj (Option.some.inj h)
    exact ⟨_, hrun, rfl⟩

theorem pageCount_aligned {size : ℕ} (h : size % 4096 = 0) (hlt : size < 4294967296) :
    Pmm.pageCount size = size / 4096 := by
  unfold Pmm.pageCount Pmm.pageSize
  omega

/-- The memory managers as the heap sees them. -/
def kernelPaging (L : Layout) : Paging Kernel where
  pmmAlloc := pmmAlloc
  pmmUnalloc := pmmUnalloc
  vmmMapPages := vmmMapPages L
  vmmMap := vmmMap L
  vmmUnmapPages := vmmUnmapPages L
  isMapped := isMapped L
  virtToPhys := virtToPhys L
  pmmAlloc_le := by
    intro size k phys k' halign hlt hrun
    obtain ⟨pmm, hrun, -⟩ := pmmAlloc_returned hrun
    have hfit := (Pmm.pmmAlloc_spec k.vmm.pmm.2 hrun).2.2.2.1
    unfold Heap.pageSize at halign ⊢
    rw [pageCount_aligned halign hlt, Pmm.bitmapMaxPage_eq] at hfit
    have := (Nat.le_add_left _ _).trans hfit
    omega

/-! ### Pages of address ranges -/

/-- The page `v` lies between the addresses `a` and `b`. -/
def PageIn (a b : ℕ) (v : Frame) : Prop := a ≤ v.toNat * 4096 ∧ v.toNat * 4096 < b

instance (a b : ℕ) (v : Frame) : Decidable (PageIn a b v) := inferInstanceAs (Decidable (_ ∧ _))

theorem toNat_pageNo {a : ℕ} (ha : a < 4294967296) : (pageNo a).toNat = a / 4096 := by
  rw [pageNo, Vmm.toNat_pageOf, BitVec.toNat_ofNat, Nat.mod_eq_of_lt ha]

theorem inRange_pageNo {a n : ℕ} (ha : a % 4096 = 0) (hlt : a < 4294967296)
    (hn : a + n * 4096 ≤ 4294967296) (v : Frame) :
    Vmm.InRange (pageNo a) n v ↔ PageIn a (a + n * 4096) v := by
  have hv := v.isLt
  unfold Vmm.InRange PageIn
  rw [BitVec.toNat_sub, toNat_pageNo hlt]
  omega

/-- The range between two page addresses. -/
theorem inRange_between {lo hi : ℕ} (hlo : lo % 4096 = 0) (hhi : hi % 4096 = 0) (hle : lo ≤ hi)
    (hlim : hi ≤ 2147483648) (v : Frame) :
    Vmm.InRange (pageOf (BitVec.ofNat 32 lo)) ((hi - lo) / 4096) v ↔ PageIn lo hi v := by
  have hrange := inRange_pageNo (n := (hi - lo) / 4096) hlo (by omega) (by omega) v
  rwa [show lo + (hi - lo) / 4096 * 4096 = hi by omega] at hrange

/-- The directory indices of the pages between two addresses. -/
def PageIndex (a b : ℕ) (i : Index) : Prop := ∃ v, PageIn a b v ∧ (Vmm.split v).1 = i

theorem toNat_split (v : Frame) : (Vmm.split v).1.toNat = v.toNat / 1024 := by
  have hv := v.isLt
  rw [Vmm.split, BitVec.extractLsb'_toNat, Nat.shiftRight_eq_div_pow]
  omega

/-- Four megabytes have one index. -/
theorem index_eq {v : Frame} {a b : ℕ} (i : Index) (hv : PageIn a b v) (ha : i.toNat * 4194304 ≤ a)
    (hb : b ≤ (i.toNat + 1) * 4194304) : (Vmm.split v).1 = i := by
  apply BitVec.eq_of_toNat_eq
  rw [toNat_split]
  unfold PageIn at hv
  omega

theorem pageAddr_ofNat (d : Frame) : BitVec.ofNat 32 (pageAddr d).toNat = pageAddr d :=
  BitVec.ofNat_toNat _ _ |>.trans (BitVec.setWidth_eq _)

/-! ### What the calls do -/

section Returned

variable {L : Layout} {k k' : Kernel} {d : Frame} {phys virt count : ℕ} {perms : BitVec 16}

theorem vmmMapPages_returned (h : vmmMapPages L phys virt (pageAddr d).toNat count perms k = some k') :
    ∃ ret t, Vmm.vmmMapPages pmmFrames L (BitVec.ofNat 32 phys) (BitVec.ofNat 32 virt) (pageAddr d) count
      perms k.vmm = .ok ret t ∧ k' = { k with vmm := t } := by
  unfold vmmMapPages runVmm at h
  rw [pageAddr_ofNat] at h
  split at h
  · rename_i ret t hrun
    exact ⟨ret, t, hrun, (Option.some.inj h).symm⟩
  · cases h

theorem vmmUnmapPages_returned (h : vmmUnmapPages L virt (pageAddr d).toNat count k = some k') :
    ∃ ret t, Vmm.vmmUnmapPages pmmFrames L (BitVec.ofNat 32 virt) (pageAddr d) count k.vmm = .ok ret t ∧
      k' = { k with vmm := t } := by
  unfold vmmUnmapPages runVmm at h
  rw [pageAddr_ofNat] at h
  split at h
  · rename_i ret t hrun
    exact ⟨ret, t, hrun, (Option.some.inj h).symm⟩
  · cases h

/-- The queries leave the kernel as it is. -/
theorem virtToPhys_run (hclosed : Vmm.Closed L k.vmm) (virt : ℕ) (d : Frame) :
    virtToPhys L virt (pageAddr d).toNat k =
      ((Vmm.virtToPhys L (BitVec.ofNat 32 virt) (pageAddr d) k.vmm).1.toNat, k) := by
  unfold virtToPhys
  rw [pageAddr_ofNat]
  dsimp only
  rw [Vmm.virtToPhys_state hclosed]

theorem isMapped_run (hclosed : Vmm.Closed L k.vmm) (virt : ℕ) (d : Frame) :
    (isMapped L virt (pageAddr d).toNat k).2 = k := by
  unfold isMapped
  rw [virtToPhys_run hclosed]

/-- An allocation takes frames and leaves the tables alone. -/
theorem pmmAlloc_taken {size : ℕ} (h : pmmAlloc size k = some (phys, k')) :
    k'.vmm.frames = k.vmm.frames ∧ k'.cr3 = k.cr3 ∧
      k'.held = blockFrames (pageNo phys) (Pmm.pageCount size) ++ k.held ∧
      ∀ g, pmmFrames.taken k.vmm.pmm g → pmmFrames.taken k'.vmm.pmm g := by
  obtain ⟨pmm, hrun, rfl⟩ := pmmAlloc_returned h
  exact ⟨rfl, rfl, rfl, fun g hg => ((Pmm.pmmAlloc_spec k.vmm.pmm.2 hrun).2.1 _).mpr (Or.inr hg)⟩

end Returned

/-! ### First fit -/

section FirstFit

variable {L : Layout} {k : Kernel} {n m : ℕ}

/-- The heap gets the first frames that are free. -/
theorem pmmAlloc_first {size : ℕ} (h : FreeFrom k.vmm.pmm.1 n m) (hsize : 0 < Pmm.pageCount size)
    (hfit : n + Pmm.pageCount size ≤ m) :
    ∃ k', pmmAlloc size k = some (n * 4096, k') ∧ FreeFrom k'.vmm.pmm.1 (n + Pmm.pageCount size) m := by
  obtain ⟨t, ht, hfree⟩ := h.pmmAlloc_spec hsize hfit
  unfold pmmAlloc
  split
  · rename_i hnone
    rw [ht] at hnone
    cases hnone
  · rename_i phys u hrun
    rw [ht] at hrun
    obtain ⟨rfl, rfl⟩ := Prod.mk.inj (Option.some.inj hrun)
    exact ⟨_, rfl, hfree⟩

/-- A table gets the first frame that is free. -/
theorem alloc_first {s : PmmState} (h : FreeFrom s.1 n m) (hfit : n < m) :
    ∃ t, pmmFrames.alloc s = some (BitVec.ofNat 20 n, t) ∧ FreeFrom t.1 (n + 1) m := by
  obtain ⟨t, ht, hfree⟩ := h.pmmAlloc_spec (show 0 < Pmm.pageCount Pmm.pageSize by decide) hfit
  show ∃ t, Vmm.pmmAllocFrame s = some (BitVec.ofNat 20 n, t) ∧ _
  unfold Vmm.pmmAllocFrame
  split
  · rename_i hnone
    rw [ht] at hnone
    cases hnone
  · rename_i phys u hrun
    rw [ht] at hrun
    obtain ⟨rfl, rfl⟩ := Prod.mk.inj (Option.some.inj hrun)
    rw [Nat.mul_div_cancel n (show 0 < Pmm.pageSize by decide)]
    exact ⟨_, rfl, hfree⟩

/-- Pages whose tables are there can be mapped, and no frame is allocated. -/
theorem vmmMapPages_there {d : Frame} {lo hi : ℕ} (phys : ℕ) (perms : BitVec 16)
    (hdir : Vmm.Directory pmmFrames L k.vmm d) (hclosed : Vmm.Closed L k.vmm) (hlo : lo % 4096 = 0)
    (hhi : hi % 4096 = 0) (hle : lo ≤ hi) (hlim : hi ≤ 2147483648)
    (hfree : ∀ v, PageIn lo hi v → entryAt k.vmm d v = none)
    (htables : ∀ v, PageIn lo hi v → tableOf k.vmm d (Vmm.split v).1 ≠ none) :
    ∃ t, vmmMapPages L phys lo (pageAddr d).toNat ((hi - lo) / 4096) perms k = some { k with vmm := t } ∧
      t.pmm = k.vmm.pmm := by
  have hrange := inRange_between hlo hhi hle hlim
  obtain ⟨ret, t, hrun, hpmm⟩ := Vmm.vmmMapPages_returns (i := 0) (r := (0, k.vmm.pmm)) (BitVec.ofNat 32 phys) perms
    hdir hclosed (by omega) (fun v hv => hfree v ((hrange v).mp hv)) fun v hv => Or.inl (htables v ((hrange v).mp hv))
  refine ⟨t, ?_, hpmm.elim id id⟩
  unfold vmmMapPages runVmm
  rw [pageAddr_ofNat, hrun]

/-- Pages that lack one table can be mapped, and the table gets the first frame that is free. -/
theorem vmmMapPages_first {d : Frame} {i : Index} {lo hi : ℕ} (phys : ℕ) (perms : BitVec 16)
    (hdir : Vmm.Directory pmmFrames L k.vmm d) (hclosed : Vmm.Closed L k.vmm) (hlo : lo % 4096 = 0)
    (hhi : hi % 4096 = 0) (hle : lo ≤ hi) (hlim : hi ≤ 2147483648) (hperms : perms.getLsbD 0 = true)
    (hfree : ∀ v, PageIn lo hi v → entryAt k.vmm d v = none)
    (hindex : ∀ v, PageIn lo hi v → (Vmm.split v).1 = i ∨ tableOf k.vmm d (Vmm.split v).1 ≠ none)
    (hmissing : tableOf k.vmm d i = none) (hpage : PageIndex lo hi i)
    (h : FreeFrom k.vmm.pmm.1 n m) (hfit : n < m) :
    ∃ t, vmmMapPages L phys lo (pageAddr d).toNat ((hi - lo) / 4096) perms k = some { k with vmm := t } ∧
      FreeFrom t.pmm.1 (n + 1) m := by
  have hrange := inRange_between hlo hhi hle hlim
  obtain ⟨pmm, halloc, hfree'⟩ := alloc_first h hfit
  obtain ⟨ret, t, hrun, hpmm⟩ := Vmm.vmmMapPages_returns (r := (BitVec.ofNat 20 n, pmm))
    (BitVec.ofNat 32 phys) perms hdir hclosed (by omega) (fun v hv => hfree v ((hrange v).mp hv))
    fun v hv => (hindex v ((hrange v).mp hv)).symm.imp_right fun hi => ⟨hi, halloc⟩
  obtain ⟨hop, href⟩ := Vmm.vmmMapPages_spec hdir hclosed (by omega) hperms
    (fun v hv => hfree v ((hrange v).mp hv)) hrun
  refine ⟨t, ?_, ?_⟩
  · unfold vmmMapPages runVmm
    rw [pageAddr_ofNat, hrun]
  · rcases hpmm with hsame | hnew
    · -- the new table is a frame that was free, so the allocator has changed
      obtain ⟨v, hv, rfl⟩ := hpage
      have hentry := href.entry v
      rw [if_pos ((hrange v).mpr hv)] at hentry
      rcases hop.within.table (Vmm.split v).1 with hno | ⟨-, -, f, hf, hfresh⟩
      · rw [entryAt, TwoLevel.lookup_of_none (hno.trans hmissing)] at hentry
        cases hentry
      · have htaken := hop.directory.takenTables _ f hf
        rw [hsame] at htaken
        exact absurd htaken hfresh
    · rw [hnew]
      exact hfree'

end FirstFit

/-! ### Known answers

The heap run on a list of answers runs the same on a kernel that gives them. -/

/-- A request of the heap. The last is the whole of what `contract` asks for. -/
inductive Request
  | pmmAlloc (size : ℕ)
  | vmmMapPages (phys virt cr3 count : ℕ) (perms : BitVec 16)
  | vmmMap (phys virt count : ℕ) (perms : BitVec 16)
  | unmapTail (virt cr3 count : ℕ)
  deriving DecidableEq

/-- The kernel's answer, which is 0 where there is none. A tail whose first page is still
mapped has no answer here. -/
def Request.run (L : Layout) (k : Kernel) : Request → Option (ℕ × Kernel)
  | .pmmAlloc size => Mm.pmmAlloc size k
  | .vmmMapPages phys virt cr3 count perms => (Mm.vmmMapPages L phys virt cr3 count perms k).map (0, ·)
  | .vmmMap phys virt count perms => (Mm.vmmMap L phys virt count perms k).map (0, ·)
  | .unmapTail virt cr3 count =>
    (vmmUnmapPages L virt cr3 count (isMapped L virt cr3 k).2).bind fun k' =>
      if (virtToPhys L virt cr3 k').1 = 0xFFFFFFFF then some (0, (virtToPhys L virt cr3 k').2) else none

inductive Answers (L : Layout) : Kernel → List (Request × ℕ) → Kernel → Prop
  | nil {k : Kernel} : Answers L k [] k
  | cons {k k₁ k' : Kernel} {r : Request} {a : ℕ} {rs : List (Request × ℕ)} : r.run L k = some (a, k₁) →
      Answers L k₁ rs k' → Answers L k ((r, a) :: rs) k'

/-- The next answer, if it is one to the request. -/
def popAnswer (r : Request) : List (Request × ℕ) → Option (ℕ × List (Request × ℕ))
  | [] => none
  | (r', a) :: rs => if r' = r then some (a, rs) else none

/-- Memory managers that give the answers of a list. -/
def answerPaging : Paging (List (Request × ℕ)) where
  pmmAlloc size rs := if size ≤ 131071 * Heap.pageSize then popAnswer (.pmmAlloc size) rs else none
  pmmUnalloc _ _ _ := none
  vmmMapPages phys virt cr3 count perms rs :=
    (popAnswer (.vmmMapPages phys virt cr3 count perms) rs).map Prod.snd
  vmmMap phys virt count perms rs := (popAnswer (.vmmMap phys virt count perms) rs).map Prod.snd
  vmmUnmapPages virt cr3 count rs := (popAnswer (.unmapTail virt cr3 count) rs).map Prod.snd
  isMapped _ _ rs := (true, rs)
  virtToPhys _ _ rs := (0xFFFFFFFF, rs)
  pmmAlloc_le := by
    intro size rs phys rs' _ _ h
    by_contra hle
    simp [hle] at h

section Answers

variable {L : Layout} {k k' : Kernel} {r : Request} {a : ℕ} {rs rs' : List (Request × ℕ)}

theorem Answers.pop (h : Answers L k rs k') (hpop : popAnswer r rs = some (a, rs')) :
    ∃ k₁, r.run L k = some (a, k₁) ∧ Answers L k₁ rs' k' := by
  cases h with
  | nil => cases hpop
  | cons hrun hrest =>
    rw [popAnswer] at hpop
    split_ifs at hpop with hr
    cases hpop
    exact ⟨_, hr ▸ hrun, hrest⟩

/-- A request whose answer is only that it has been done. -/
theorem Answers.pop_done {next : Option Kernel} (h : Answers L k rs k') (hrequest : r.run L k = next.map (0, ·))
    (hrun : (popAnswer r rs).map Prod.snd = some rs') : ∃ k₁, next = some k₁ ∧ Answers L k₁ rs' k' := by
  obtain ⟨⟨a, rs⟩, hpop, rfl⟩ := Option.map_eq_some_iff.mp hrun
  obtain ⟨k₁, hk, hrest⟩ := h.pop hpop
  obtain ⟨k₂, hk₂, heq⟩ := Option.map_eq_some_iff.mp (hrequest.symm.trans hk)
  cases heq
  exact ⟨k₁, hk₂, hrest⟩

theorem answers_simulate (L : Layout) (k' : Kernel) :
    Heap.Simulates (fun rs k => Answers L k rs k') answerPaging (kernelPaging L) where
  pmmAlloc h hrun := by
    simp only [answerPaging] at hrun
    split_ifs at hrun
    exact h.pop hrun
  vmmMapPages h hrun := h.pop_done rfl hrun
  vmmMap h hrun := h.pop_done rfl hrun
  unmapTail heap newEnd size := by
    intro s a t k hR hrun
    rw [Heap.unmapTail, Halting.bind_of_ok (Heap.ask_run _ _)] at hrun ⊢
    obtain ⟨_, v, hunmap, hrun⟩ := Halting.bind_eq_ok.mp hrun
    obtain ⟨⟨b, rs⟩, hpop, hrs⟩ := Option.map_eq_some_iff.mp (Heap.callUnit_returned hunmap).2.2
    obtain ⟨k₁, hk, hrest⟩ := hR.pop hpop
    obtain ⟨k₂, hk₂, hlast⟩ := Option.bind_eq_some_iff.mp hk
    split_ifs at hlast with hgone
    cases hlast
    have hcall : answerPaging.vmmUnmapPages newEnd heap.cr3 (size / Heap.pageSize) s.pages = some rs :=
      Option.map_eq_some_iff.mpr ⟨_, hpop, rfl⟩
    have hsame := (Heap.callUnit_run (s := s.withPages s.pages)
      (f := answerPaging.vmmUnmapPages newEnd heap.cr3 (size / Heap.pageSize)) hcall).symm.trans hunmap
    cases hsame
    rw [Halting.bind_of_ok (Heap.ask_run _ _)] at hrun
    split_ifs at hrun with hne
    · exact absurd rfl hne
    · cases hrun
      refine ⟨(virtToPhys L newEnd heap.cr3 k₂).2, ?_, hrest⟩
      have hstep := Heap.callUnit_run (s := s.withPages (isMapped L newEnd heap.cr3 k).2)
        (f := (kernelPaging L).vmmUnmapPages newEnd heap.cr3 (size / Heap.pageSize)) hk₂
      refine (Halting.bind_of_ok hstep).trans ?_
      rw [Halting.bind_of_ok (Heap.ask_run _ _)]
      exact congrFun (if_neg (not_not_intro hgone)) _

/-- The heap that returns on the answers of a kernel returns on the kernel. -/
theorem Answers.replay {α : Type} {x : Heap.HeapM (List (Request × ℕ)) α} {y : Heap.HeapM Kernel α}
    {s t : Heap.State (List (Request × ℕ))} {b : α} (h : Answers L k s.pages k')
    (hsim : Heap.Sim (fun rs k => Answers L k rs k') x y) (hrun : x s = .ok b t) (hdone : t.pages = []) :
    y (s.withPages k) = .ok b (t.withPages k') := by
  obtain ⟨k₁, hy, hrest⟩ := hsim s b t k h hrun
  rw [hdone] at hrest
  cases hrest
  exact hy

end Answers

end JustKernel.Mm
