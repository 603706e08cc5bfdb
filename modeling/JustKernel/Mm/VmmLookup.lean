import JustKernel.Mm.VmmFreeCr3

/-! What a lookup leaves behind, and what `range_mapped` looks at. `virt_to_phys` opens both
windows and closes them again, so that it restores the windows that were closed before it and
closes the ones that were not: it may not be called while another operation has a window
open, which is what `ser_printf` does in the walk of `vmm_free_cr3`. `range_mapped` rounds the
end of its range down, so that the page on which the range ends is not looked at unless it
ends with that page. -/

namespace JustKernel.Vmm

open TwoLevel

variable {σ : Type} (L : Layout)

/-! ### The queries -/

section Model

/-- `is_mapped`, with the value of `base_kernel_cr3`. -/
def isMapped (baseKernelCr3 data pageDir : BitVec 32) (s : State σ) : ℕ × State σ :=
  if baseKernelCr3 = 0 then (0, s)
  else
    let r := virtToPhys L data pageDir s
    (if r.1 = 0xFFFFFFFF then 0 else 1, r.2)

/-- What `ser_printf` does to the windows before it writes. -/
def serPrintfCheck (baseKernelCr3 : BitVec 32) (serial : Option Port) (s : State σ) : State σ :=
  match serial with
  | none => s
  | some port =>
    if port.locals = 0 then s else (isMapped L baseKernelCr3 port.locals (pageAddr port.cr3) s).2

/-- The loop of `range_mapped`, with `n` pages left. -/
def rangeLoop (baseKernelCr3 cr3 : BitVec 32) : ℕ → BitVec 32 → State σ → ℕ × State σ
  | 0, _, s => (1, s)
  | n + 1, curAddr, s =>
    let r := isMapped L baseKernelCr3 curAddr cr3 s
    if r.1 = 0 then (0, r.2) else rangeLoop baseKernelCr3 cr3 n (curAddr + pageSize) r.2

/-- `range_mapped`, with what `vmm_get_cr3` returns. -/
def rangeMapped (baseKernelCr3 cr3 data size : BitVec 32) (s : State σ) : ℕ × State σ :=
  let curAddr := data &&& vmm4kPermMask
  let endAddr := (data + size) &&& vmm4kPermMask
  let roundedSize := endAddr - curAddr
  let pages := (roundedSize + pageSize - 1) / pageSize
  rangeLoop L baseKernelCr3 cr3 pages.toNat curAddr s

end Model

/-- With paging on it is the `ser_printf` of the walk. -/
theorem serPrintfCheck_eq {baseKernelCr3 : BitVec 32} (hbase : baseKernelCr3 ≠ 0) (serial : Option Port)
    (s : State σ) : serPrintfCheck L baseKernelCr3 serial s = serPrintf L serial s := by
  unfold serPrintfCheck serPrintf isMapped
  cases serial with
  | none => rfl
  | some port => simp only [hbase, if_false]

/-! ### The windows after a lookup -/

/-- The window entry `w` after it has been pointed at what `e` names. -/
def pointed (w e : Entry) : Entry := if address w = address e then w else e

theorem address_pointed (w e : Entry) : address (pointed w e) = address e := by
  unfold pointed
  split_ifs with h
  · exact h
  · rfl

theorem pointed_eq_self {w e : Entry} : pointed w e = w ↔ address w = address e := by
  unfold pointed
  split_ifs with h
  · exact iff_of_true rfl h
  · exact iff_of_false (fun he => h (congrArg address he).symm) h

/-- Opened on `e` and closed again, a window is as before only if it was closed, with the very
entry that closing writes unless `e` is the closed window's own frame. -/
theorem pointed_pointed_eq_self {w e c : Entry} :
    pointed (pointed w e) c = w ↔ w = c ∨ (address w = address c ∧ address e = address c) := by
  constructor
  · intro h
    have hw : address w = address c := by
      rw [← h, address_pointed]
    by_cases he : address e = address c
    · exact Or.inr ⟨hw, he⟩
    · refine Or.inl ?_
      rw [← h, pointed, if_neg]
      rwa [address_pointed]
  · rintro (rfl | ⟨hw, he⟩)
    · by_cases he : address e = address w
      · rw [pointed_eq_self.mpr he.symm, pointed_eq_self.mpr rfl]
      · rw [pointed, if_neg (by rwa [address_pointed])]
    · rw [pointed_eq_self.mpr (hw.trans he.symm), pointed_eq_self.mpr hw]

theorem address_or_perms (a : BitVec 32) : address (a ||| vmmPresentWriteUser) = pageOf a := by
  apply BitVec.eq_of_getLsbD_eq
  intro i hi
  have hhigh : vmmPresentWriteUser.getLsbD (12 + i) = false := by
    apply Nat.testBit_lt_two_pow
    exact Nat.lt_of_lt_of_le (by decide : (7 : ℕ) < 2 ^ 12) (Nat.pow_le_pow_right Nat.two_pos (Nat.le_add_right 12 i))
  rw [address, pageOf, BitVec.getLsbD_extractLsb', BitVec.getLsbD_extractLsb', BitVec.getLsbD_or, hhigh,
    Bool.or_false]

section Windows

variable {L} {s : State σ} {virt pageDir : BitVec 32}

theorem openDir_base (pageDir : BitVec 32) (s : State σ) :
    (openDir L pageDir s).frames L.baseTable = Function.update (s.frames L.baseTable) L.dirPid
      (pointed (s.frames L.baseTable L.dirPid) (pageDir ||| vmmPresentWriteUser)) := by
  unfold openDir pointed
  rw [address_or_perms]
  split_ifs
  · rw [Function.update_eq_self]
  · exact Function.update_self ..

theorem openTable_base (pageTable : BitVec 32) (s : State σ) :
    (openTable L pageTable s).frames L.baseTable = Function.update (s.frames L.baseTable) L.tablePid
      (pointed (s.frames L.baseTable L.tablePid) (pageTable ||| vmmPresentWriteUser)) := by
  unfold openTable pointed
  rw [address_or_perms]
  split_ifs
  · rw [Function.update_eq_self]
  · exact Function.update_self ..

/-- The directory entry that the lookup finds. -/
def foundEntry (L : Layout) (virt pageDir : BitVec 32) (s : State σ) : Entry :=
  traverseDirEntry L (vmmVirtToOffs virt) (openDir L pageDir s)

theorem virtToPhys_snd (virt pageDir : BitVec 32) (s : State σ) : (virtToPhys L virt pageDir s).2 =
    closeDir L (closeTable L (if present (foundEntry L virt pageDir s) then
      openTable L (pageAddr (address (foundEntry L virt pageDir s))) (openDir L pageDir s)
    else openDir L pageDir s)) := by
  have hfound : traverseDirEntry L (vmmVirtToOffs virt) (openDir L pageDir s) = foundEntry L virt pageDir s := rfl
  unfold virtToPhys traverseTable
  dsimp only
  rw [hfound]
  split_ifs <;> rfl

/-- The entry of the directory window after the lookup. -/
def dirAfter (L : Layout) (pageDir : BitVec 32) (s : State σ) : Entry :=
  pointed (pointed (s.frames L.baseTable L.dirPid) (pageDir ||| vmmPresentWriteUser))
    (pageAddr L.dir ||| vmmPresentWriteUser)

/-- The entry of the table window after the lookup. -/
def tableAfter (L : Layout) (virt pageDir : BitVec 32) (s : State σ) : Entry :=
  pointed
    (if present (foundEntry L virt pageDir s) then
      pointed (s.frames L.baseTable L.tablePid)
        (pageAddr (address (foundEntry L virt pageDir s)) ||| vmmPresentWriteUser)
    else s.frames L.baseTable L.tablePid)
    (pageAddr L.table ||| vmmPresentWriteUser)

theorem closeWindows_base (s : State σ) : (closeDir L (closeTable L s)).frames L.baseTable =
    Function.update (Function.update (s.frames L.baseTable) L.tablePid
      (pointed (s.frames L.baseTable L.tablePid) (pageAddr L.table ||| vmmPresentWriteUser))) L.dirPid
      (pointed (s.frames L.baseTable L.dirPid) (pageAddr L.dir ||| vmmPresentWriteUser)) := by
  have hdir := openDir_base (L := L) (pageAddr L.dir) (closeTable L s)
  have htable : (closeTable L s).frames L.baseTable = _ := openTable_base (L := L) (pageAddr L.table) s
  rw [htable, Function.update_of_ne (dirPid_ne_tablePid L)] at hdir
  exact hdir

/-- A lookup writes the two window entries of `_base_table`. -/
theorem virtToPhys_base (virt pageDir : BitVec 32) (s : State σ) :
    (virtToPhys L virt pageDir s).2.frames L.baseTable =
      Function.update (Function.update (s.frames L.baseTable) L.dirPid (dirAfter L pageDir s))
        L.tablePid (tableAfter L virt pageDir s) := by
  have hne := dirPid_ne_tablePid L
  have hopen := openDir_base (L := L) pageDir s
  rw [virtToPhys_snd, closeWindows_base]
  by_cases hpresent : present (foundEntry L virt pageDir s) = true
  · have hafter : tableAfter L virt pageDir s = pointed (pointed (s.frames L.baseTable L.tablePid)
        (pageAddr (address (foundEntry L virt pageDir s)) ||| vmmPresentWriteUser))
        (pageAddr L.table ||| vmmPresentWriteUser) := by
      rw [tableAfter, if_pos hpresent]
    rw [if_pos hpresent, openTable_base, hopen, hafter, dirAfter]
    rw [Function.update_self, Function.update_of_ne hne, Function.update_self, Function.update_of_ne hne.symm,
      Function.update_idem, Function.update_comm hne, Function.update_idem]
    exact Function.update_comm hne.symm ..
  · have hafter : tableAfter L virt pageDir s =
        pointed (s.frames L.baseTable L.tablePid) (pageAddr L.table ||| vmmPresentWriteUser) := by
      rw [tableAfter, if_neg hpresent]
    rw [if_neg hpresent, hopen, hafter, dirAfter]
    rw [Function.update_self, Function.update_of_ne hne.symm, Function.update_comm hne, Function.update_idem,
      Function.update_comm hne.symm]

/-- The windows before a lookup that leaves them alone: the directory window is closed, or
shows `_dir` and `_dir` is the directory looked at; the table window shows `_table`, and if
the lookup finds a table it is closed, or `_table` is that table. -/
structure WindowsKept (L : Layout) (virt pageDir : BitVec 32) (s : State σ) : Prop where
  dir : s.frames L.baseTable L.dirPid = pageAddr L.dir ||| vmmPresentWriteUser ∨
    (address (s.frames L.baseTable L.dirPid) = L.dir ∧ pageOf pageDir = L.dir)
  table : address (s.frames L.baseTable L.tablePid) = L.table
  found : present (foundEntry L virt pageDir s) = true →
    s.frames L.baseTable L.tablePid = pageAddr L.table ||| vmmPresentWriteUser ∨
      address (foundEntry L virt pageDir s) = L.table

theorem dirAfter_eq_iff : dirAfter L pageDir s = s.frames L.baseTable L.dirPid ↔
    s.frames L.baseTable L.dirPid = pageAddr L.dir ||| vmmPresentWriteUser ∨
      (address (s.frames L.baseTable L.dirPid) = L.dir ∧ pageOf pageDir = L.dir) := by
  rw [dirAfter, pointed_pointed_eq_self, address_or_perms, address_or_perms, pageOf_pageAddr]

theorem tableAfter_eq_iff : tableAfter L virt pageDir s = s.frames L.baseTable L.tablePid ↔
    address (s.frames L.baseTable L.tablePid) = L.table ∧
      (present (foundEntry L virt pageDir s) = true →
        s.frames L.baseTable L.tablePid = pageAddr L.table ||| vmmPresentWriteUser ∨
          address (foundEntry L virt pageDir s) = L.table) := by
  unfold tableAfter
  split_ifs with hpresent
  · rw [pointed_pointed_eq_self, address_window, address_window, imp_iff_right hpresent]
    constructor
    · rintro (h | ⟨hw, he⟩)
      · refine ⟨?_, Or.inl h⟩
        rw [h, address_window]
      · exact ⟨hw, Or.inr he⟩
    · rintro ⟨hw, h | he⟩
      · exact Or.inl h
      · exact Or.inr ⟨hw, he⟩
  · rw [pointed_eq_self, address_window]
    exact (and_iff_left fun h => absurd h hpresent).symm

theorem virtToPhys_base_eq_iff : (virtToPhys L virt pageDir s).2.frames L.baseTable = s.frames L.baseTable ↔
    WindowsKept L virt pageDir s := by
  have hne := dirPid_ne_tablePid L
  have hboth : (virtToPhys L virt pageDir s).2.frames L.baseTable = s.frames L.baseTable ↔
      dirAfter L pageDir s = s.frames L.baseTable L.dirPid ∧
        tableAfter L virt pageDir s = s.frames L.baseTable L.tablePid := by
    rw [virtToPhys_base]
    constructor
    · intro h
      have hdir := congrFun h L.dirPid
      have htable := congrFun h L.tablePid
      rw [Function.update_of_ne hne, Function.update_self] at hdir
      rw [Function.update_self] at htable
      exact ⟨hdir, htable⟩
    · rintro ⟨hdir, htable⟩
      rw [hdir, htable, Function.update_eq_self, Function.update_eq_self]
  rw [hboth, dirAfter_eq_iff, tableAfter_eq_iff]
  exact ⟨fun ⟨h1, h2, h3⟩ => ⟨h1, h2, h3⟩, fun ⟨h1, h2, h3⟩ => ⟨h1, h2, h3⟩⟩

end Windows

/-- Which lookups leave `_base_table` as they found it, in any state: `virt_to_phys` with the
windows as above, `is_mapped` and the check of `ser_printf` then or if they do not look. -/
theorem lookups_keep_baseTable_iff (baseKernelCr3 : BitVec 32) (s : State σ) :
    (∀ virt pageDir, (virtToPhys L virt pageDir s).2.frames L.baseTable = s.frames L.baseTable ↔
      WindowsKept L virt pageDir s) ∧
    (∀ data pageDir, (isMapped L baseKernelCr3 data pageDir s).2.frames L.baseTable = s.frames L.baseTable ↔
      (baseKernelCr3 ≠ 0 → WindowsKept L data pageDir s)) ∧
    ∀ serial, (serPrintfCheck L baseKernelCr3 serial s).frames L.baseTable = s.frames L.baseTable ↔
      ∀ port ∈ serial, port.locals ≠ 0 → baseKernelCr3 ≠ 0 → WindowsKept L port.locals (pageAddr port.cr3) s := by
  have hmapped : ∀ data pageDir, (isMapped L baseKernelCr3 data pageDir s).2.frames L.baseTable =
      s.frames L.baseTable ↔ (baseKernelCr3 ≠ 0 → WindowsKept L data pageDir s) := by
    intro data pageDir
    unfold isMapped
    split_ifs with hbase
    · exact iff_of_true rfl fun h => absurd hbase h
    · rw [imp_iff_right hbase]
      exact virtToPhys_base_eq_iff
  refine ⟨fun _ _ => virtToPhys_base_eq_iff, hmapped, fun serial => ?_⟩
  cases serial with
  | none => exact iff_of_true rfl fun port hport => nomatch hport
  | some port =>
    have hport : serPrintfCheck L baseKernelCr3 (some port) s = if port.locals = 0 then s else
        (isMapped L baseKernelCr3 port.locals (pageAddr port.cr3) s).2 := rfl
    simp only [Option.mem_some_iff, forall_eq']
    rw [hport]
    split_ifs with hlocals
    · exact iff_of_true rfl fun h => absurd hlocals h
    · rw [imp_iff_right hlocals]
      exact hmapped _ _

/-- With the directory window open, as in the middle of an operation on the kernel's directory,
a lookup in that directory closes it. -/
theorem lookup_closes_window : ¬∀ (L : Layout) (s : State Unit) (virt pageDir : BitVec 32),
    (virtToPhys L virt pageDir s).2.frames L.baseTable = s.frames L.baseTable := by
  intro hall
  have hentry := congrFun (hall smallLayout
    (openDir smallLayout (pageAddr 0x110) ⟨setupFrames smallLayout 0x110 fun _ _ => 0, ()⟩) 0 (pageAddr 0x110))
    smallLayout.dirPid
  revert hentry
  decide +kernel

/-! ### Ranges -/

/-- Page `q` is mapped. -/
def MappedPage (s : State σ) (d : Frame) (q : ℕ) : Prop := entryAt s d (BitVec.ofNat 20 q) ≠ none

section Ranges

variable {L} {A : FrameAlloc σ} {s : State σ} {d : Frame} {baseKernelCr3 : BitVec 32}

/-- A window page is mapped, so what a lookup shows of it does not matter here. -/
theorem shownEntry_eq_none (hclosed : Closed L s) (v : Frame) : shownEntry L s d v = none ↔ entryAt s d v = none := by
  have hwin : ∀ j, j = L.dirPid ∨ j = L.tablePid → tableOf s d (split v).1 = some L.baseTable ∧ (split v).2 = j →
      entryAt s d v ≠ none := by
    rintro j hj ⟨htable, rfl⟩
    exact entryAt_of_window ⟨_, hclosed.dir⟩ ⟨_, hclosed.table⟩ ⟨htable, hj⟩
  unfold shownEntry
  split_ifs with hdir htable
  · exact iff_of_false not_false (hwin _ (Or.inl rfl) hdir)
  · exact iff_of_false not_false (hwin _ (Or.inr rfl) htable)
  · exact Iff.rfl

/-- The address of a page is no byte at the very end of memory. -/
theorem physOf_page_eq (e : Option Entry) : physOf e 0 = 0xFFFFFFFF ↔ e = none := by
  cases e with
  | none => exact iff_of_true rfl rfl
  | some e =>
    refine iff_of_false (fun h => ?_) (Option.some_ne_none e)
    have hnat := congrArg BitVec.toNat h
    rw [physOf, show (0 : BitVec 12).setWidth 32 = 0#32 by decide, BitVec.add_zero, toNat_pageAddr] at hnat
    have : (0xFFFFFFFF : BitVec 32).toNat = 4294967295 := by decide
    omega

theorem isMapped_page (hdir : Directory A L s d) (hclosed : Closed L s) (hbase : baseKernelCr3 ≠ 0) (v : Frame) :
    isMapped L baseKernelCr3 (pageAddr v) (pageAddr d) s = (if entryAt s d v = none then 0 else 1, s) := by
  have hoff : (vmmVirtToOffs (pageAddr v)).off = 0 := by
    apply BitVec.eq_of_toNat_eq
    rw [vmmVirtToOffs, BitVec.extractLsb'_toNat, toNat_pageAddr, Nat.shiftRight_zero]
    simp
  have hphys := virtToPhys_eq hdir hclosed (pageAddr v)
  rw [hoff, pageOf_pageAddr] at hphys
  unfold isMapped
  rw [if_neg hbase]
  dsimp only
  rw [virtToPhys_state hclosed, hphys]
  simp only [physOf_page_eq, shownEntry_eq_none hclosed]

theorem pageAddr_ofNat_succ (q : ℕ) :
    pageAddr (BitVec.ofNat 20 q) + pageSize = pageAddr (BitVec.ofNat 20 (q + 1)) := by
  rw [pageAddr_add, BitVec.ofNat_add]
  rfl

theorem rangeLoop_eq_one (hdir : Directory A L s d) (hclosed : Closed L s) (hbase : baseKernelCr3 ≠ 0) (n q : ℕ) :
    (rangeLoop L baseKernelCr3 (pageAddr d) n (pageAddr (BitVec.ofNat 20 q)) s).1 = 1 ↔
      ∀ p, q ≤ p → p < q + n → MappedPage s d p := by
  induction n generalizing q with
  | zero => exact iff_of_true rfl fun p h1 h2 => by omega
  | succ n ih =>
    rw [rangeLoop, isMapped_page hdir hclosed hbase, pageAddr_ofNat_succ]
    dsimp only
    by_cases hnone : entryAt s d (BitVec.ofNat 20 q) = none
    · rw [if_pos hnone, if_pos rfl]
      exact iff_of_false Nat.zero_ne_one fun h => h q le_rfl (by omega) hnone
    · rw [if_neg hnone, if_neg Nat.one_ne_zero, ih]
      constructor
      · intro h p h1 h2
        rcases Nat.eq_or_lt_of_le h1 with rfl | h1
        · exact hnone
        · exact h p h1 (by omega)
      · intro h p h1 h2
        exact h p (by omega) (by omega)

/-- The pages that are looked at: those below the page in which the range ends, and none if
the end is 4 GiB and the range starts in page 0. -/
def pagesSeen (data size : ℕ) : ℕ :=
  if data + size = 2 ^ 32 ∧ data < 4096 then 0 else (data + size) / 4096 - data / 4096

theorem rangeMapped_eq_one (hdir : Directory A L s d) (hclosed : Closed L s) (hbase : baseKernelCr3 ≠ 0)
    {data size : BitVec 32} (hend : data.toNat + size.toNat ≤ 2 ^ 32) :
    (rangeMapped L baseKernelCr3 (pageAddr d) data size s).1 = 1 ↔
      ∀ p, data.toNat / 4096 ≤ p → p < data.toNat / 4096 + pagesSeen data.toNat size.toNat → MappedPage s d p := by
  have hpage : pageOf data = BitVec.ofNat 20 (data.toNat / 4096) := by
    apply BitVec.eq_of_toNat_eq
    have := data.isLt
    rw [toNat_pageOf, BitVec.toNat_ofNat]
    omega
  have hcount : ((((data + size) &&& vmm4kPermMask) - (data &&& vmm4kPermMask) + pageSize - 1) / pageSize).toNat =
      pagesSeen data.toNat size.toNat := by
    have hd := data.isLt
    rw [and_mask, and_mask, BitVec.toNat_udiv, BitVec.toNat_sub, BitVec.toNat_add, BitVec.toNat_sub,
      toNat_pageAddr, toNat_pageAddr, toNat_pageOf, toNat_pageOf, BitVec.toNat_add,
      show pageSize.toNat = 4096 by decide, show (1 : BitVec 32).toNat = 1 by decide, pagesSeen]
    split_ifs <;> omega
  have hloop := rangeLoop_eq_one hdir hclosed hbase (pagesSeen data.toNat size.toNat) (data.toNat / 4096)
  rw [← hpage, ← and_mask, ← hcount] at hloop
  rw [← hcount]
  exact hloop

/-- Whether the answer tells about the pages of the range that are not looked at: all of them
if the range starts in page 0 and ends at 4 GiB, else the one in which the range ends. -/
structure EndSeen (s : State σ) (d : Frame) (data size : ℕ) : Prop where
  whole : data + size = 2 ^ 32 → data < 4096 → ∀ q < 2 ^ 20, MappedPage s d q
  last : (data + size) % 4096 ≠ 0 → MappedPage s d ((data + size) / 4096) ∨
    ∃ q, data / 4096 ≤ q ∧ q < (data + size) / 4096 ∧ ¬MappedPage s d q

/-- Bytes and pages. -/
theorem forall_bytes_iff {Q : ℕ → Prop} {data size : ℕ} (hsize : 1 ≤ size) :
    (∀ b, data ≤ b → b < data + size → Q (b / 4096)) ↔ ∀ q, data / 4096 ≤ q → q ≤ (data + size - 1) / 4096 → Q q := by
  constructor
  · intro h q h1 h2
    have hq := h (max data (q * 4096)) (le_max_left _ _) (by omega)
    rwa [show max data (q * 4096) / 4096 = q by omega] at hq
  · intro h b h1 h2
    exact h _ (by omega) (by omega)

theorem rangeMapped_exact_iff (hdir : Directory A L s d) (hclosed : Closed L s) (hbase : baseKernelCr3 ≠ 0)
    (data size : BitVec 32) (hsize : 1 ≤ size.toNat) (hend : data.toNat + size.toNat ≤ 2 ^ 32) :
    ((rangeMapped L baseKernelCr3 (pageAddr d) data size s).1 = 1 ↔
        ∀ b, data.toNat ≤ b → b < data.toNat + size.toNat → MappedPage s d (b / 4096)) ↔
      EndSeen s d data.toNat size.toNat := by
  rw [rangeMapped_eq_one hdir hclosed hbase hend, forall_bytes_iff hsize]
  generalize data.toNat = D at *
  generalize size.toNat = S at *
  by_cases hwhole : D + S = 2 ^ 32 ∧ D < 4096
  · have hnone : pagesSeen D S = 0 := if_pos hwhole
    rw [hnone]
    constructor
    · intro h
      refine ⟨fun _ _ q hq => h.mp (fun p h1 h2 => by omega) q (by omega) (by omega), fun hrem => ?_⟩
      omega
    · intro h
      refine iff_of_true (fun p h1 h2 => by omega) fun q h1 h2 => h.whole hwhole.1 hwhole.2 q (by omega)
  · have hseen : pagesSeen D S = (D + S) / 4096 - D / 4096 := if_neg hwhole
    rw [hseen]
    by_cases hrem : (D + S) % 4096 = 0
    · refine iff_of_true ?_ ⟨fun h1 h2 => absurd ⟨h1, h2⟩ hwhole, fun h => absurd hrem h⟩
      constructor
      · intro h q h1 h2
        exact h q h1 (by omega)
      · intro h q h1 h2
        exact h q h1 (by omega)
    · constructor
      · intro h
        refine ⟨fun h1 h2 => absurd ⟨h1, h2⟩ hwhole, fun _ => ?_⟩
        by_cases hall : ∀ p, D / 4096 ≤ p → p < D / 4096 + ((D + S) / 4096 - D / 4096) → MappedPage s d p
        · exact Or.inl (h.mp hall _ (by omega) (by omega))
        · push Not at hall
          obtain ⟨q, h1, h2, hq⟩ := hall
          exact Or.inr ⟨q, h1, by omega, hq⟩
      · intro h
        refine ⟨fun hall q h1 h2 => ?_, fun hall p h1 h2 => hall p h1 (by omega)⟩
        rcases h.last hrem with hlast | ⟨p, h3, h4, hp⟩
        · by_cases hq : q = (D + S) / 4096
          · exact hq ▸ hlast
          · exact hall q h1 (by omega)
        · exact absurd (hall p h3 (by omega)) hp

end Ranges

theorem rangeMapped_exact_smallKernel :
    (rangeMapped smallLayout 0x110000 (pageAddr 0x110) 0x1000 0x2000 smallKernel).1 = 1 ↔
      ∀ b, 0x1000 ≤ b → b < 0x3000 → MappedPage smallKernel 0x110 (b / 4096) :=
  (rangeMapped_exact_iff smallKernel_directory smallKernel_closed (by decide) 0x1000 0x2000 (by decide)
    (by decide)).mpr ⟨fun h => absurd h (by decide), fun h => absurd rfl h⟩

/-- One byte of the first page that the kernel does not map. -/
theorem unmapped_byte_in_range : ¬∀ (s : State { s : Pmm.State // Pmm.IsUsed s 0 }) (data size : BitVec 32),
    Directory pmmFrames smallLayout s 0x110 → Closed smallLayout s → 1 ≤ size.toNat →
    data.toNat + size.toNat ≤ 2 ^ 32 →
    ((rangeMapped smallLayout 0x110000 (pageAddr 0x110) data size s).1 = 1 ↔
      ∀ b, data.toNat ≤ b → b < data.toNat + size.toNat → MappedPage s 0x110 (b / 4096)) := by
  intro hall
  have hone : (rangeMapped smallLayout 0x110000 (pageAddr 0x110) 0x400000 1 smallKernel).1 = 1 := by
    unfold rangeMapped
    rfl
  have hmapped := (hall smallKernel 0x400000 1 smallKernel_directory smallKernel_closed (by decide) (by decide)).mp hone
    0x400000 (by decide) (by decide)
  have htable := tableOf_setup (L := smallLayout) (fun _ _ => 0) smallKernel.pmm
    (show (0x110 : Frame) ≠ smallLayout.baseTable by decide) 1
  exact hmapped (lookup_of_none htable)

end JustKernel.Vmm
