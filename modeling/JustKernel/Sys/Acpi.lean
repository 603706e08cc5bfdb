import JustKernel.Base.AddressSpace
import JustKernel.Base.FirstLeast
import Mathlib.Data.Nat.Find

/-! The search for a table, `sys/acpi/acpi.c`. The root table is the XSDT for revision 2 and the
RSDT for every other revision, but the search reads an RSDT only for revision 0, and it counts
the entries from the whole length of the root table, header included. The global `rsdp` is a
parameter, and a search notes the entries it has read. -/

namespace JustKernel.Acpi

open AddressSpace FirstLeast
open Memory (Byte)

section Model

variable (m : Mem32)

/-- The loop of `checksum_calc`. -/
def checksumLoop : ℕ → Addr → BitVec 32 → BitVec 32
  | 0, _, total => total
  | n + 1, data, total => checksumLoop n (data + 1) (total + (m data).setWidth 32)

def checksumCalc (data : Addr) (length : BitVec 32) : BitVec 32 :=
  checksumLoop m length.toNat data 0 &&& 0xff

/-! The fields of `rsdp1_t`, `rsdp2_t` and `sdt_header_t`. -/

def rsdpRevision (rsdp : Addr) : Byte := m (rsdp + 15)

def rsdtAddress (rsdp : Addr) : BitVec 32 := read32 m (rsdp + 16)

def xsdtAddress (rsdp : Addr) : BitVec 64 := read64 m (rsdp + 24)

def signatureNum (header : Addr) : BitVec 32 := read32 m header

def sdtLength (header : Addr) : BitVec 32 := read32 m (header + 4)

/-- `get_root_sdt_header`; 0 is NULL. -/
def getRootSdtHeader (rsdp : Addr) : Addr :=
  if rsdp = 0 then 0
  else if rsdpRevision m rsdp = 2 then
    if checksumCalc m (rsdp + 20) (36 - 20) ≠ 0 then 0
    else
      let header := (xsdtAddress m rsdp).setWidth 32
      if checksumCalc m header (sdtLength m header) ≠ 0 then 0 else header
  else
    let header := rsdtAddress m rsdp
    if checksumCalc m header (sdtLength m header) ≠ 0 then 0 else header

/-- `rsdt->other_sdts[i]`. -/
def rsdtEntry (root : Addr) (i : ℕ) : BitVec 32 := read32 m (entry (root + 36) 4 i)

/-- `xsdt->other_sdts[i]`. -/
def xsdtEntry (root : Addr) (i : ℕ) : BitVec 64 := read64 m (entry (root + 36) 8 i)

end Model

/-- The table a search has returned, and the entries it has read. -/
structure Search where
  header : Addr
  reads : List ℕ
  deriving DecidableEq

/-- The loop of `search_sdt_header` from the entry `i` on, with `n` entries to go; `header i` is
the pointer in the entry, unless that is zero. -/
def searchLoop (m : Mem32) (sig : Addr) (header : ℕ → Option Addr) : ℕ → ℕ → Search
  | 0, _ => ⟨0, []⟩
  | n + 1, i =>
    match header i with
    | none => let rest := searchLoop m sig header n (i + 1); { rest with reads := i :: rest.reads }
    | some h =>
      if read32 m sig = signatureNum m h ∧ checksumCalc m h (sdtLength m h) = 0 then ⟨h, [i]⟩
      else let rest := searchLoop m sig header n (i + 1); { rest with reads := i :: rest.reads }

def rsdtHeader (m : Mem32) (root : Addr) (i : ℕ) : Option Addr :=
  if rsdtEntry m root i = 0 then none else some (rsdtEntry m root i)

def xsdtHeader (m : Mem32) (root : Addr) (i : ℕ) : Option Addr :=
  if xsdtEntry m root i = 0 then none else some ((xsdtEntry m root i).setWidth 32)

def searchSdtHeader (m : Mem32) (rsdp sig : Addr) : Search :=
  let root := getRootSdtHeader m rsdp
  if root = 0 ∨ rsdp = 0 then ⟨0, []⟩
  else if rsdpRevision m rsdp = 0 then
    searchLoop m sig (rsdtHeader m root) (sdtLength m root / 4).toNat 0
  else searchLoop m sig (xsdtHeader m root) (sdtLength m root / 8).toNat 0

/-! ### What a root table lists -/

/-- The sum of `n` bytes. -/
def byteSum (m : Mem32) (data : Addr) : ℕ → ℕ
  | 0 => 0
  | n + 1 => (m data).toNat + byteSum m (data + 1) n

/-- The table at `h` has the signature, and its bytes sum to zero. -/
def Matches (m : Mem32) (sig h : Addr) : Prop :=
  read32 m sig = signatureNum m h ∧ byteSum m h (sdtLength m h).toNat % 256 = 0

instance (m : Mem32) (sig : Addr) : DecidablePred (Matches m sig) :=
  fun h => inferInstanceAs (Decidable (read32 m sig = signatureNum m h ∧ _))

/-- The table that entry `i` of the root names. A 64-bit entry above the address space names
none. -/
def listedTable (m : Mem32) (rsdp root : Addr) (i : ℕ) : Option Addr :=
  if rsdpRevision m rsdp = 2 then
    if (xsdtEntry m root i).toNat < 2 ^ 32 then xsdtHeader m root i else none
  else rsdtHeader m root i

def entrySize (m : Mem32) (rsdp : Addr) : ℕ := if rsdpRevision m rsdp = 2 then 8 else 4

def listedTables (m : Mem32) (rsdp root : Addr) : List Addr :=
  (List.range (((sdtLength m root).toNat - 36) / entrySize m rsdp)).filterMap (listedTable m rsdp root)

/-- `h` is the first table of that signature that the root lists, or NULL if there is none. -/
def FirstListed (m : Mem32) (rsdp sig root h : Addr) : Prop :=
  First (Matches m sig) (listedTables m rsdp root) h ∨
    (∀ h' ∈ listedTables m rsdp root, ¬Matches m sig h') ∧ h = 0

/-- The size of the entries the search reads. -/
def stride (m : Mem32) (rsdp : Addr) : ℕ := if rsdpRevision m rsdp = 0 then 4 else 8

def SearchCorrect (m : Mem32) (rsdp sig : Addr) (r : Search) : Prop :=
  let root := getRootSdtHeader m rsdp
  if root = 0 then r = ⟨0, []⟩
  else FirstListed m rsdp sig root r.header ∧
    ∀ i ∈ r.reads, 36 + stride m rsdp * (i + 1) ≤ (sdtLength m root).toNat

/-! ### The search -/

section Search

variable {m : Mem32} {rsdp sig root : Addr} {header : ℕ → Option Addr} {n i : ℕ}

theorem checksumLoop_toNat (m : Mem32) (n : ℕ) (data : Addr) (total : BitVec 32) :
    (checksumLoop m n data total).toNat % 256 = (total.toNat + byteSum m data n) % 256 := by
  induction n generalizing data total with
  | zero => rfl
  | succ n ih =>
    rw [checksumLoop, ih, byteSum, BitVec.toNat_add, BitVec.toNat_setWidth]
    omega

/-- The total wraps around at a multiple of 256. -/
theorem checksumCalc_eq_zero {data : Addr} {length : BitVec 32} :
    checksumCalc m data length = 0 ↔ byteSum m data length.toNat % 256 = 0 := by
  have hsum := checksumLoop_toNat m length.toNat data 0
  rw [checksumCalc, ← BitVec.toNat_inj, BitVec.toNat_and]
  have hmask : ∀ x : ℕ, x &&& 255 = x % 256 := fun x => Nat.and_two_pow_sub_one_eq_mod x 8
  simp only [BitVec.ofNat_eq_ofNat, BitVec.toNat_ofNat] at hsum ⊢
  rw [show 255 % 2 ^ 32 = 255 from rfl, hmask, hsum]
  simp

/-- An entry at which the search stops. -/
def Hit (m : Mem32) (sig : Addr) (header : ℕ → Option Addr) (i : ℕ) (h : Addr) : Prop :=
  header i = some h ∧ Matches m sig h

theorem searchLoop_hit {h : Addr} (hhit : Hit m sig header i h) :
    searchLoop m sig header (n + 1) i = ⟨h, [i]⟩ := by
  rw [searchLoop, hhit.1]
  exact if_pos ⟨hhit.2.1, checksumCalc_eq_zero.mpr hhit.2.2⟩

theorem searchLoop_miss (hmiss : ∀ h, ¬Hit m sig header i h) :
    searchLoop m sig header (n + 1) i =
      { searchLoop m sig header n (i + 1) with reads := i :: (searchLoop m sig header n (i + 1)).reads } := by
  rw [searchLoop]
  split
  · rfl
  next h hh =>
    exact if_neg fun hmatch => hmiss h ⟨hh, hmatch.1, checksumCalc_eq_zero.mp hmatch.2⟩

/-- The search stops at the first hit. -/
theorem searchLoop_first {k : ℕ} {h : Addr} (hk : k < n) (hhit : Hit m sig header (i + k) h)
    (hmiss : ∀ j < k, ∀ h, ¬Hit m sig header (i + j) h) :
    searchLoop m sig header n i = ⟨h, List.range' i (k + 1)⟩ := by
  induction k generalizing n i with
  | zero =>
    obtain ⟨n, rfl⟩ := Nat.exists_eq_succ_of_ne_zero (Nat.ne_of_gt hk)
    exact searchLoop_hit hhit
  | succ k ih =>
    obtain ⟨n, rfl⟩ := Nat.exists_eq_succ_of_ne_zero (Nat.ne_of_gt (Nat.zero_lt_of_lt hk))
    have hrest := ih (n := n) (i := i + 1) (Nat.lt_of_succ_lt_succ hk)
      (by rwa [Nat.add_assoc, Nat.add_comm 1]) fun j hj => by
        have := hmiss (j + 1) (Nat.succ_lt_succ hj)
        rwa [Nat.add_assoc, Nat.add_comm 1]
    rw [searchLoop_miss (i := i) (hmiss 0 (Nat.succ_pos k)), hrest]
    rfl

/-- Without a hit it reads every entry it counts. -/
theorem searchLoop_none (hmiss : ∀ j < n, ∀ h, ¬Hit m sig header (i + j) h) :
    searchLoop m sig header n i = ⟨0, List.range' i n⟩ := by
  induction n generalizing i with
  | zero => rfl
  | succ n ih =>
    have hrest := ih (i := i + 1) fun j hj => by
      have := hmiss (j + 1) (Nat.succ_lt_succ hj)
      rwa [Nat.add_assoc, Nat.add_comm 1]
    rw [searchLoop_miss (i := i) (hmiss 0 (Nat.succ_pos n)), hrest]
    rfl

/-- What the search reads in entry `i`. -/
def readHeader (m : Mem32) (rsdp root : Addr) (i : ℕ) : Option Addr :=
  if rsdpRevision m rsdp = 0 then rsdtHeader m root i else xsdtHeader m root i

theorem searchSdtHeader_eq (hroot : getRootSdtHeader m rsdp ≠ 0) :
    searchSdtHeader m rsdp sig =
      searchLoop m sig (readHeader m rsdp (getRootSdtHeader m rsdp))
        ((sdtLength m (getRootSdtHeader m rsdp)).toNat / stride m rsdp) 0 := by
  have hrsdp : rsdp ≠ 0 := by
    rintro rfl
    exact hroot (by rw [getRootSdtHeader, if_pos rfl])
  rw [searchSdtHeader, if_neg (not_or.mpr ⟨hroot, hrsdp⟩)]
  by_cases hrev : rsdpRevision m rsdp = 0
  · have hread : readHeader m rsdp (getRootSdtHeader m rsdp) = rsdtHeader m (getRootSdtHeader m rsdp) :=
      funext fun i => if_pos hrev
    rw [if_pos hrev, hread, stride, if_pos hrev, BitVec.toNat_udiv]
    rfl
  · have hread : readHeader m rsdp (getRootSdtHeader m rsdp) = xsdtHeader m (getRootSdtHeader m rsdp) :=
      funext fun i => if_neg hrev
    rw [if_neg hrev, hread, stride, if_neg hrev, BitVec.toNat_udiv]
    rfl

theorem stride_pos (m : Mem32) (rsdp : Addr) : 4 ≤ stride m rsdp ∧ stride m rsdp ≤ 8 := by
  unfold stride
  split_ifs <;> decide

/-- Counting from the whole length, the last entry ends behind the table. -/
theorem last_entry_outside {length : ℕ} (hn : 0 < length / stride m rsdp) :
    length < 36 + stride m rsdp * (length / stride m rsdp - 1 + 1) := by
  have hstride := stride_pos m rsdp
  have hmod := Nat.mod_lt length (show stride m rsdp > 0 by omega)
  have hdiv := Nat.div_add_mod length (stride m rsdp)
  rw [Nat.sub_add_cancel hn]
  omega

theorem firstListed_of_short (h : (sdtLength m root).toNat < stride m rsdp) :
    FirstListed m rsdp sig root 0 := by
  have hstride := (stride_pos m rsdp).2
  have hnone : listedTables m rsdp root = [] := by
    rw [listedTables, Nat.sub_eq_zero_of_le (by omega), Nat.zero_div]
    rfl
  exact Or.inr ⟨by simp [hnone], rfl⟩

/-- For the revisions 0 and 2 the search reads the entries that the root lists. -/
theorem readHeader_of_listed (hrev : rsdpRevision m rsdp = 0 ∨ rsdpRevision m rsdp = 2) {h : Addr}
    (hlisted : listedTable m rsdp root i = some h) : readHeader m rsdp root i = some h := by
  unfold listedTable at hlisted
  unfold readHeader
  rcases hrev with hrev | hrev
  · rw [if_pos hrev]
    simpa [hrev] using hlisted
  · rw [hrev] at hlisted ⊢
    rw [if_pos rfl] at hlisted
    split_ifs at hlisted
    simpa using hlisted

theorem range_split {k : ℕ} (hk : k < n) :
    List.range n = List.range k ++ k :: List.range' (k + 1) (n - k - 1) := by
  obtain ⟨d, rfl⟩ := Nat.exists_eq_add_of_lt hk
  rw [show k + d + 1 - k - 1 = d by omega, ← List.range'_succ, List.range_eq_range', List.range_eq_range',
    Nat.add_assoc, ← List.range'_append_1, Nat.zero_add]

theorem listedTable_ne_zero {h : Addr} (hlisted : listedTable m rsdp root i = some h) : h ≠ 0 := by
  unfold listedTable xsdtHeader rsdtHeader at hlisted
  split_ifs at hlisted with hrev hlow hnull hnull
  · obtain rfl := Option.some.inj hlisted
    bv_omega
  · exact fun hzero => hnull ((Option.some.inj hlisted).trans hzero)

/-- The number of entries of the size that the search reads. -/
def entryCount (m : Mem32) (rsdp root : Addr) : ℕ := ((sdtLength m root).toNat - 36) / stride m rsdp

theorem lt_entryCount {k : ℕ} :
    k < entryCount m rsdp root ↔ 36 + stride m rsdp * (k + 1) ≤ (sdtLength m root).toNat := by
  have hpos := (stride_pos m rsdp).1
  have hmul : 4 ≤ stride m rsdp * (k + 1) := hpos.trans (Nat.le_mul_of_pos_right _ (Nat.succ_pos k))
  rw [entryCount, ← Nat.add_one_le_iff, Nat.le_div_iff_mul_le (by omega), Nat.mul_comm]
  omega

/-- The tables that are listed behind entry `k`. -/
def laterTables (m : Mem32) (rsdp root : Addr) (k : ℕ) : List Addr :=
  (List.range' (k + 1) (entryCount m rsdp root - k - 1)).filterMap (listedTable m rsdp root)

/-- The tables that the second entries of the first `k` pairs name. -/
def oddTables (m : Mem32) (root : Addr) (k : ℕ) : List Addr :=
  (List.range k).filterMap fun j => rsdtHeader m root (2 * j + 1)

/-- What entry `k`, the first to be accepted, has to be for its table `h` to be the one to be found.
With the entries as they are listed there is nothing to it. The low half of an entry above 4 GiB
has to name the first match behind it. The search that reads two entries as one overlooks the
second ones, and none of those in front of `k` may lead to another match. A low half or a first
entry of zero leads to address 0, and then there may be no match. -/
def Leads (m : Mem32) (rsdp sig root : Addr) (k : ℕ) (h : Addr) : Prop :=
  rsdpRevision m rsdp = 0 ∨ rsdpRevision m rsdp = 2 ∧ (xsdtEntry m root k).toNat < 2 ^ 32 ∨
    if h = 0 then ∀ h' ∈ listedTables m rsdp root, ¬Matches m sig h'
    else if rsdpRevision m rsdp = 2 then First (Matches m sig) (laterTables m rsdp root k) h
    else ∀ h', First (Matches m sig) (oddTables m root k) h' → h' = h

/-- Some entry of the root table is accepted, and the first of these leads to the right table. -/
def Served (m : Mem32) (rsdp sig root : Addr) : Prop :=
  ∃ k < entryCount m rsdp root, ∃ h, Hit m sig (readHeader m rsdp root) k h ∧
    (∀ j < k, ∀ h, ¬Hit m sig (readHeader m rsdp root) j h) ∧ Leads m rsdp sig root k h

/-! ### The first table listed -/

section Listed

variable {k : ℕ} {h : Addr} (hk : k < entryCount m rsdp root) (hhit : Hit m sig (readHeader m rsdp root) k h)
  (hmiss : ∀ j < k, ∀ h, ¬Hit m sig (readHeader m rsdp root) j h)

theorem firstListed_iff_filter : FirstListed m rsdp sig root h ↔
    ((listedTables m rsdp root).filter (Matches m sig)).head?.getD 0 = h :=
  first_or_iff_filter

theorem firstListed_zero : FirstListed m rsdp sig root 0 ↔ ∀ h' ∈ listedTables m rsdp root, ¬Matches m sig h' := by
  constructor
  · rintro (hfirst | ⟨hnone, -⟩)
    · obtain ⟨i, -, hlisted⟩ := List.mem_filterMap.mp hfirst.mem
      exact absurd rfl (listedTable_ne_zero hlisted)
    · exact hnone
  · exact fun hnone => Or.inr ⟨hnone, rfl⟩

include hk hmiss in
/-- For the revisions 0 and 2 nothing in front of the entry that is accepted counts. -/
theorem listedTables_filter (hrev : rsdpRevision m rsdp = 0 ∨ rsdpRevision m rsdp = 2) :
    (listedTables m rsdp root).filter (Matches m sig) =
      ((listedTable m rsdp root k).toList ++ laterTables m rsdp root k).filter (Matches m sig) := by
  have hsize : entrySize m rsdp = stride m rsdp := by
    unfold entrySize stride
    rcases hrev with hrev | hrev <;> simp [hrev]
  have hfront : ((List.range k).filterMap (listedTable m rsdp root)).filter (Matches m sig) = [] := by
    refine List.filter_eq_nil_iff.mpr fun h' hmem hmatch => ?_
    obtain ⟨j, hj, hlist⟩ := List.mem_filterMap.mp hmem
    exact hmiss j (List.mem_range.mp hj) h' ⟨readHeader_of_listed hrev hlist, of_decide_eq_true hmatch⟩
  rw [listedTables, hsize, ← entryCount, range_split hk, List.filterMap_append, List.filter_append, hfront,
    List.nil_append, List.filterMap_cons, laterTables]
  cases listedTable m rsdp root k <;> rfl

include hk hhit hmiss in
theorem firstListed_of_listed (hrev : rsdpRevision m rsdp = 0 ∨ rsdpRevision m rsdp = 2)
    (hown : listedTable m rsdp root k = some h) : FirstListed m rsdp sig root h := by
  rw [firstListed_iff_filter, listedTables_filter hk hmiss hrev, hown, Option.toList_some, List.singleton_append,
    List.filter_cons_of_pos (p := fun b => decide (Matches m sig b)) (decide_eq_true hhit.2)]
  rfl

include hk hmiss in
/-- The low half of an entry above 4 GiB is not listed, and what is behind it decides. -/
theorem firstListed_of_cut (hrev : rsdpRevision m rsdp = 2) (hcut : ¬(xsdtEntry m root k).toNat < 2 ^ 32)
    (hne : h ≠ 0) : FirstListed m rsdp sig root h ↔ First (Matches m sig) (laterTables m rsdp root k) h := by
  have hown : listedTable m rsdp root k = none := by rw [listedTable, if_pos hrev, if_neg hcut]
  rw [firstListed_iff_filter, listedTables_filter hk hmiss (.inr hrev), hown, Option.toList_none, List.nil_append,
    first_iff_filter]
  cases ((laterTables m rsdp root k).filter (Matches m sig)).head? with
  | none => simpa using hne.symm
  | some a => simp

/-! ### Pairs of entries -/

theorem xsdtEntry_low (m : Mem32) (root : Addr) (i : ℕ) :
    (xsdtEntry m root i).setWidth 32 = rsdtEntry m root (2 * i) := by
  have haddr : entry (root + 36) 8 i = entry (root + 36) 4 (2 * i) := by
    rw [entry, entry, ← Nat.mul_assoc]
  rw [xsdtEntry, rsdtEntry, haddr, read64]
  exact BitVec.setWidth_append_eq_right

theorem xsdtHeader_of_first (hfirst : rsdtHeader m root (2 * i) = some h) : xsdtHeader m root i = some h := by
  unfold rsdtHeader at hfirst
  split_ifs at hfirst with hzero
  rw [xsdtHeader, xsdtEntry_low, if_neg]
  · exact hfirst
  · intro hnull
    rw [← xsdtEntry_low, hnull] at hzero
    exact hzero rfl

theorem first_of_xsdtHeader (hpair : xsdtHeader m root i = some h) (hne : h ≠ 0) :
    rsdtHeader m root (2 * i) = some h := by
  unfold xsdtHeader at hpair
  split_ifs at hpair
  rw [xsdtEntry_low] at hpair
  rw [rsdtHeader, if_neg fun hzero => hne ((Option.some.inj hpair).symm.trans hzero), hpair]

theorem pairs_filter (hpairs : ∀ j < k, ∀ h, ¬Hit m sig (xsdtHeader m root) j h) :
    ((List.range (2 * k)).filterMap (rsdtHeader m root)).filter (Matches m sig) =
      (oddTables m root k).filter (Matches m sig) := by
  induction k with
  | zero => rfl
  | succ k ih =>
    have hodd : oddTables m root (k + 1) = oddTables m root k ++ (rsdtHeader m root (2 * k + 1)).toList := by
      rw [oddTables, List.range_succ, List.filterMap_append]
      cases hsecond : rsdtHeader m root (2 * k + 1) <;> simp [hsecond, oddTables]
    have hfirst : (rsdtHeader m root (2 * k)).toList.filter (Matches m sig) = [] := by
      refine List.filter_eq_nil_iff.mpr fun h' hmem hmatch => ?_
      exact hpairs k (Nat.lt_succ_self k) h'
        ⟨xsdtHeader_of_first (Option.mem_toList.mp hmem), of_decide_eq_true hmatch⟩
    have hrange : (List.range (2 * (k + 1))).filterMap (rsdtHeader m root) =
        (List.range (2 * k)).filterMap (rsdtHeader m root) ++
          ((rsdtHeader m root (2 * k)).toList ++ (rsdtHeader m root (2 * k + 1)).toList) := by
      rw [Nat.mul_succ, List.range_succ, List.range_succ, List.append_assoc, List.filterMap_append]
      cases hone : rsdtHeader m root (2 * k) <;> cases htwo : rsdtHeader m root (2 * k + 1) <;> simp [hone, htwo]
    rw [hrange, List.filter_append, List.filter_append, hfirst, List.nil_append, hodd, List.filter_append,
      ih fun j hj => hpairs j (Nat.lt_succ_of_lt hj)]

include hk hhit hmiss in
/-- An accepted pair is found if no other table was overlooked in front of it. -/
theorem firstListed_of_pairs (hzero : rsdpRevision m rsdp ≠ 0) (htwo : rsdpRevision m rsdp ≠ 2) (hne : h ≠ 0) :
    FirstListed m rsdp sig root h ↔ ∀ h', First (Matches m sig) (oddTables m root k) h' → h' = h := by
  have hread : readHeader m rsdp root = xsdtHeader m root := funext fun i => if_neg hzero
  have hlist : listedTable m rsdp root = rsdtHeader m root := funext fun i => if_neg htwo
  rw [hread] at hhit hmiss
  have hown := first_of_xsdtHeader hhit.1 hne
  rw [lt_entryCount, stride, if_neg hzero] at hk
  have hk' : 2 * k < ((sdtLength m root).toNat - 36) / 4 := by omega
  rw [firstListed_iff_filter, listedTables, hlist, entrySize, if_neg htwo, range_split hk', List.filterMap_append,
    List.filterMap_cons_some hown, List.filter_append, pairs_filter hmiss,
    List.filter_cons_of_pos (p := fun b => decide (Matches m sig b)) (decide_eq_true hhit.2)]
  simp only [first_iff_filter]
  cases (oddTables m root k).filter (Matches m sig) <;> simp

include hk hhit hmiss in
theorem firstListed_iff_leads : FirstListed m rsdp sig root h ↔ Leads m rsdp sig root k h := by
  unfold Leads
  by_cases hzero : rsdpRevision m rsdp = 0
  · refine iff_of_true (firstListed_of_listed hk hhit hmiss (.inl hzero) ?_) (.inl hzero)
    simpa [readHeader, listedTable, hzero] using hhit.1
  rw [or_iff_right hzero]
  by_cases hlow : rsdpRevision m rsdp = 2 ∧ (xsdtEntry m root k).toNat < 2 ^ 32
  · refine iff_of_true (firstListed_of_listed hk hhit hmiss (.inr hlow.1) ?_) (.inl hlow)
    rw [listedTable, if_pos hlow.1, if_pos hlow.2]
    simpa [readHeader, hlow.1] using hhit.1
  rw [or_iff_right hlow]
  split_ifs with hnull htwo
  · rw [hnull]
    exact firstListed_zero
  · exact firstListed_of_cut hk hmiss htwo (fun hcut => hlow ⟨htwo, hcut⟩) hnull
  · exact firstListed_of_pairs hk hhit hmiss hzero htwo hnull

end Listed

theorem exists_least_hit (h : ∃ k < n, ∃ h, Hit m sig header k h) :
    ∃ k < n, (∃ h, Hit m sig header k h) ∧ ∀ j < k, ∀ h, ¬Hit m sig header j h := by
  classical
  have hex : ∃ k, ∃ h, Hit m sig header k h := h.imp fun _ hk => hk.2
  obtain ⟨k, hk, hhit⟩ := h
  exact ⟨Nat.find hex, (Nat.find_min' hex hhit).trans_lt hk, Nat.find_spec hex,
    fun j hj h hjh => Nat.find_min hex hj ⟨h, hjh⟩⟩

/-- The search is right exactly if there is no valid root table, or the table has no room for one
entry, header included, or the search is served before it has left the table. -/
theorem searchSdtHeader_correct_iff (m : Mem32) (rsdp sig : Addr) :
    SearchCorrect m rsdp sig (searchSdtHeader m rsdp sig) ↔
      (getRootSdtHeader m rsdp ≠ 0 →
        (sdtLength m (getRootSdtHeader m rsdp)).toNat < stride m rsdp ∨
        Served m rsdp sig (getRootSdtHeader m rsdp)) := by
  unfold SearchCorrect
  by_cases hroot : getRootSdtHeader m rsdp = 0
  · simp [hroot, searchSdtHeader]
  rw [if_neg hroot, searchSdtHeader_eq hroot]
  simp only [ne_eq, hroot, not_false_eq_true, true_implies]
  generalize getRootSdtHeader m rsdp = root
  by_cases hhit : ∃ k < (sdtLength m root).toNat / stride m rsdp, ∃ h, Hit m sig (readHeader m rsdp root) k h
  · obtain ⟨k, hk, ⟨h, hhit⟩, hmiss⟩ := exists_least_hit hhit
    have hloop := searchLoop_first (i := 0) hk (by rwa [Nat.zero_add]) (by simpa using hmiss)
    have hroom : ¬(sdtLength m root).toNat < stride m rsdp := fun hlt => by
      rw [Nat.div_eq_of_lt hlt] at hk
      exact absurd hk (Nat.not_lt_zero k)
    rw [hloop]
    simp only [hroom, false_or]
    constructor
    · rintro ⟨hlisted, hreads⟩
      have hinside := lt_entryCount.mpr (hreads k (by simp))
      exact ⟨k, hinside, h, hhit, hmiss, (firstListed_iff_leads hinside hhit hmiss).mp hlisted⟩
    · rintro ⟨k', hinside, h', hhit', hmiss', hleads⟩
      obtain rfl : k = k' := by
        rcases Nat.lt_trichotomy k k' with hlt | heq | hgt
        · exact absurd hhit (hmiss' k hlt h)
        · exact heq
        · exact absurd hhit' (hmiss k' hgt h')
      obtain rfl : h = h' := Option.some.inj (hhit.1.symm.trans hhit'.1)
      refine ⟨(firstListed_iff_leads hinside hhit hmiss).mpr hleads, fun i hi => ?_⟩
      obtain ⟨-, hi⟩ := List.mem_range'_1.mp hi
      exact lt_entryCount.mp (Nat.lt_of_le_of_lt (by omega) hinside)
  · push Not at hhit
    have hloop := searchLoop_none (i := 0) (by simpa using hhit)
    rw [hloop]
    rcases Nat.eq_zero_or_pos ((sdtLength m root).toNat / stride m rsdp) with hzero | hpos
    · have hstride := (stride_pos m rsdp).1
      have hshort : (sdtLength m root).toNat < stride m rsdp := by
        rcases Nat.div_eq_zero_iff.mp hzero with h0 | hlt
        · omega
        · exact hlt
      rw [hzero]
      exact iff_of_true ⟨firstListed_of_short hshort, by simp⟩ (Or.inl hshort)
    · have houtside := last_entry_outside hpos
      refine iff_of_false (fun h => ?_) ?_
      · have hlast := h.2 ((sdtLength m root).toNat / stride m rsdp - 1)
          (List.mem_range'_1.mpr ⟨Nat.zero_le _, by omega⟩)
        exact absurd hlast (Nat.not_le.mpr houtside)
      · rintro (hshort | ⟨k, hinside, h, hk, -⟩)
        · exact absurd (Nat.div_eq_of_lt hshort) hpos.ne'
        · have hcount : entryCount m rsdp root ≤ (sdtLength m root).toNat / stride m rsdp :=
            Nat.div_le_div_right (Nat.sub_le _ _)
          exact hhit k (hinside.trans_le hcount) h hk

end Search

/-- An RSDT without entries at `0x2000`, and behind it a pointer to an empty table. -/
def straySearch : Mem32 := fun a =>
  if a = 0x1011 then 0x20 else if a = 0x2004 then 36 else if a = 0x2008 then 220
  else if a = 0x2025 then 0x30 else 0

/-- The search follows the pointer behind the root table. -/
theorem not_searchCorrect_straySearch :
    ¬SearchCorrect straySearch 0x1000 0x4000 (searchSdtHeader straySearch 0x1000 0x4000) := by
  have hroot : getRootSdtHeader straySearch 0x1000 = 0x2000 := by decide
  have hsearch : searchSdtHeader straySearch 0x1000 0x4000 = ⟨0x3000, [0]⟩ := by decide
  have hlisted : listedTables straySearch 0x1000 0x2000 = [] := by decide
  rw [SearchCorrect, hroot, hsearch]
  rintro ⟨h | ⟨-, h⟩, -⟩
  · exact absurd h.mem (by rw [hlisted]; exact List.not_mem_nil)
  · exact absurd h (by decide)

end JustKernel.Acpi
