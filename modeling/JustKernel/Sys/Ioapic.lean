import JustKernel.Base.AddressSpace
import Mathlib.Logic.Function.Basic
import Mathlib.Data.List.Pairwise

/-! The redirection of interrupts, `apic_configure` of `sys/apic.c`. An IOAPIC at an address is
an array of 64-bit redirection entries behind two registers each, from register 16 on; register
1 holds the number of the last entry. The lists are those that `parse_madt` has made. The
disabling of the old controller, the local APIC and the log are left out. -/

namespace JustKernel.Apic

open AddressSpace
open Memory (Byte)

/-- The fields of `madt_ent1_t`. -/
structure Ioapic where
  ioapicAddr : Addr
  gsiBase : BitVec 32
  deriving DecidableEq

/-- The fields of `madt_ent2_t`. -/
structure Iso where
  irqSrc : BitVec 8
  gsi : BitVec 32
  flags : BitVec 16
  deriving DecidableEq

/-- The redirection entries of the IOAPIC at an address. -/
abbrev Tables := Addr → ℕ → BitVec 64

/-! ### The registers -/

/-- One half of an entry. -/
def half (e : BitVec 64) (high : Bool) : BitVec 32 := if high then (e >>> 32).setWidth 32 else e.setWidth 32

def withHalf (e : BitVec 64) (high : Bool) (data : BitVec 32) : BitVec 64 :=
  if high then data ++ e.setWidth 32 else (e >>> 32).setWidth 32 ++ data

def Tables.setEntry (t : Tables) (base : Addr) (k : ℕ) (e : BitVec 64) : Tables :=
  Function.update t base (Function.update (t base) k e)

/-- `ioapic_read`: the address selects the register, its data lie 16 bytes behind. -/
def ioapicRead (version : Addr → BitVec 32) (t : Tables) (base : Addr) (addr : BitVec 32) : BitVec 32 :=
  if 16 ≤ addr.toNat then half (t base ((addr.toNat - 16) / 2)) (addr.toNat % 2 == 1)
  else if addr = 1 then version base else 0

def ioapicWrite (t : Tables) (base : Addr) (addr data : BitVec 32) : Tables :=
  if 16 ≤ addr.toNat then
    t.setEntry base ((addr.toNat - 16) / 2)
      (withHalf (t base ((addr.toNat - 16) / 2)) (addr.toNat % 2 == 1) data)
  else t

section Model

variable (version : Addr → BitVec 32)

/-- `apic_get_gsi_max`; it drops the highest bit of the eight. -/
def apicGetGsiMax (t : Tables) (ioapic : Ioapic) : BitVec 8 :=
  let data := ioapicRead version t ioapic.ioapicAddr 1 >>> 16
  data.setWidth 8 &&& ~~~((1 : BitVec 8) <<< 7)

/-- The test for a GSI in `apic_find_valid_ioapic` and in `apic_configure`. -/
def covers (t : Tables) (ioapic : Ioapic) (gsi : BitVec 32) : Bool :=
  let gsiMax := (apicGetGsiMax version t ioapic).setWidth 32 + ioapic.gsiBase
  ioapic.gsiBase ≤ gsi ∧ gsiMax ≥ gsi

def apicFindValidIoapic (t : Tables) (madtIoapic : List Ioapic) (gsi : BitVec 32) : Option Ioapic :=
  madtIoapic.foldl (fun valid ioapic => if covers version t ioapic gsi then some ioapic else valid) none

def apicWriteRedirectionTable (ioapic : Option Ioapic) (gsi : BitVec 32) (data : BitVec 64) (t : Tables) : Tables :=
  match ioapic with
  | none => t
  | some ioapic =>
    let reg := (gsi - ioapic.gsiBase) * 2 + 16
    ioapicWrite (ioapicWrite t ioapic.ioapicAddr reg (data.setWidth 32)) ioapic.ioapicAddr (reg + 1)
      ((data >>> 32).setWidth 32)

def redirectTableBadRead : BitVec 64 := 0xFFFFFFFFFFFFFFFF

def apicReadRedirectionTable (ioapic : Option Ioapic) (gsi : BitVec 32) (t : Tables) : BitVec 64 :=
  match ioapic with
  | none => redirectTableBadRead
  | some ioapic =>
    let reg := (gsi - ioapic.gsiBase) * 2 + 16
    (ioapicRead version t ioapic.ioapicAddr reg).setWidth 64 |||
      ((ioapicRead version t ioapic.ioapicAddr (reg + 1)).setWidth 64 <<< 32)

def maskGsi (ioapic : Ioapic) (gsi : BitVec 32) (t : Tables) : Tables :=
  let currentData := apicReadRedirectionTable version (some ioapic) gsi t
  if currentData = redirectTableBadRead then t
  else apicWriteRedirectionTable (some ioapic) gsi (currentData ||| 1#64 <<< 16) t

/-- The entry that `redirect_gsi` writes. -/
def redirect (irq : BitVec 8) (flags : BitVec 16) (apic : BitVec 8) : BitVec 64 :=
  (irq.setWidth 64 + 32#64) ||| (if flags &&& 1#16 <<< 1 ≠ 0 then 1#64 <<< 13 else 0) |||
    (if flags &&& 1#16 <<< 3 ≠ 0 then 1#64 <<< 15 else 0) ||| apic.setWidth 64 <<< 56

def redirectGsi (ioapic : Option Ioapic) (irq : BitVec 8) (gsi : BitVec 32) (flags : BitVec 16) (apic : BitVec 8)
    (t : Tables) : Tables :=
  apicWriteRedirectionTable ioapic gsi (redirect irq flags apic) t

/-- The masking loop of `apic_configure`, from `gsi` on; `gsi_max` has seven bits, so that the
fuel is never used up. -/
def maskLoop (ioapic : Ioapic) : ℕ → BitVec 32 → Tables → Tables
  | 0, _, t => t
  | n + 1, gsi, t =>
    if gsi < (apicGetGsiMax version t ioapic).setWidth 32 then
      maskLoop ioapic n (gsi + 1) (maskGsi version ioapic gsi t)
    else t

/-- The tables and `mapped_irqs`. -/
structure Config where
  tables : Tables
  mappedIrqs : ℕ → Bool

/-- One override, for one IOAPIC. -/
def mapIso (ioapic : Ioapic) (iso : Iso) (s : Config) : Config :=
  if covers version s.tables ioapic iso.gsi then
    { tables := redirectGsi (some ioapic) iso.irqSrc iso.gsi iso.flags 0 s.tables
      mappedIrqs := if iso.gsi < 16 then Function.update s.mappedIrqs iso.gsi.toNat true else s.mappedIrqs }
  else s

/-- The loop over the overrides. -/
def isoLoop (ioapic : Ioapic) : List Iso → Config → Config
  | [], s => s
  | iso :: isos, s => isoLoop ioapic isos (mapIso version ioapic iso s)

/-- One IOAPIC: its entries are masked, then the overrides are mapped. -/
def mapIoapic (madtIso : List Iso) (ioapic : Ioapic) (s : Config) : Config :=
  isoLoop version ioapic madtIso { s with tables := maskLoop version ioapic 128 ioapic.gsiBase s.tables }

/-- The loop over the IOAPICs. -/
def ioapicLoop (madtIso : List Iso) : List Ioapic → Config → Config
  | [], s => s
  | ioapic :: ioapics, s => ioapicLoop madtIso ioapics (mapIoapic version madtIso ioapic s)

/-- One GSI below 16, unless an override has mapped it. -/
def mapGsi (madtIoapic : List Ioapic) (mappedIrqs : ℕ → Bool) (i : ℕ) (t : Tables) : Tables :=
  if mappedIrqs i then t
  else
    redirectGsi (apicFindValidIoapic version t madtIoapic (BitVec.ofNat 32 i)) (BitVec.ofNat 8 i)
      (BitVec.ofNat 32 i) 0 0 t

/-- The loop over the GSIs below 16. -/
def identityLoop (madtIoapic : List Ioapic) (mappedIrqs : ℕ → Bool) : List ℕ → Tables → Tables
  | [], t => t
  | i :: rest, t => identityLoop madtIoapic mappedIrqs rest (mapGsi version madtIoapic mappedIrqs i t)

/-- `apic_configure`, once the tables of the firmware are parsed. -/
def apicConfigure (madtIoapic : List Ioapic) (madtIso : List Iso) (t : Tables) : Tables :=
  let s := ioapicLoop version madtIso madtIoapic ⟨t, fun _ => false⟩
  identityLoop version madtIoapic s.mappedIrqs (List.range 16) s.tables

end Model

/-! ### Entries -/

section Entries

variable {version : Addr → BitVec 32} {t : Tables} {ioapic : Ioapic} {gsi : BitVec 32} {data e : BitVec 64}

theorem withHalf_low (e : BitVec 64) (data : BitVec 32) : (withHalf e false data).setWidth 32 = data :=
  BitVec.setWidth_append_eq_right

theorem half_both (e : BitVec 64) : (half e true) ++ (half e false) = e := by
  apply BitVec.eq_of_getLsbD_eq
  intro i hi
  rw [BitVec.getLsbD_append]
  split_ifs with h
  · simp [half, h]
  · simp [half, show 32 + (i - 32) = i by omega, show i - 32 < 32 by omega]

/-- The two halves of an entry make the entry, whatever was there. -/
theorem withHalf_both (e data : BitVec 64) :
    withHalf (withHalf e false (data.setWidth 32)) true ((data >>> 32).setWidth 32) = data := by
  have h : withHalf (withHalf e false (data.setWidth 32)) true ((data >>> 32).setWidth 32) =
      (data >>> 32).setWidth 32 ++ (withHalf e false (data.setWidth 32)).setWidth 32 := rfl
  rw [h, withHalf_low]
  exact half_both data

theorem half_or (e : BitVec 64) : (half e false).setWidth 64 ||| (half e true).setWidth 64 <<< 32 = e := by
  apply BitVec.eq_of_getLsbD_eq
  intro i hi
  by_cases h : i < 32
  · simp [half, h, hi]
  · simp [half, h, hi, show 32 + (i - 32) = i by omega, show i - 32 < 32 by omega]

/-- The register of the low half of an entry. -/
theorem reg_low {d : BitVec 32} (h : d.toNat < 65536) :
    16 ≤ (d * 2 + 16).toNat ∧ ((d * 2 + 16).toNat - 16) / 2 = d.toNat ∧
      ((d * 2 + 16).toNat % 2 == 1) = false := by
  have hreg : (d * 2 + 16).toNat = 2 * d.toNat + 16 := by bv_omega
  rw [hreg, beq_eq_false_iff_ne]
  omega

/-- The register of the high half of an entry. -/
theorem reg_high {d : BitVec 32} (h : d.toNat < 65536) :
    16 ≤ (d * 2 + 16 + 1).toNat ∧ ((d * 2 + 16 + 1).toNat - 16) / 2 = d.toNat ∧
      ((d * 2 + 16 + 1).toNat % 2 == 1) = true := by
  have hreg : (d * 2 + 16 + 1).toNat = 2 * d.toNat + 17 := by bv_omega
  rw [hreg, beq_iff_eq]
  omega

theorem setEntry_same (t : Tables) (base : Addr) (k : ℕ) (e : BitVec 64) : (t.setEntry base k e) base k = e := by
  simp [Tables.setEntry]

theorem setEntry_setEntry (t : Tables) (base : Addr) (k : ℕ) (e e' : BitVec 64) :
    (t.setEntry base k e).setEntry base k e' = t.setEntry base k e' := by
  simp [Tables.setEntry]

theorem setEntry_apply (t : Tables) (base base' : Addr) (k k' : ℕ) (e : BitVec 64) :
    (t.setEntry base k e) base' k' = if base' = base ∧ k' = k then e else t base' k' := by
  rw [Tables.setEntry]
  by_cases hbase : base' = base
  · subst hbase
    simp [Function.update_apply]
  · simp [hbase]

theorem apicWriteRedirectionTable_eq (h : (gsi - ioapic.gsiBase).toNat < 65536) :
    apicWriteRedirectionTable (some ioapic) gsi data t =
      t.setEntry ioapic.ioapicAddr (gsi - ioapic.gsiBase).toNat data := by
  obtain ⟨hlow, hk, heven⟩ := reg_low h
  obtain ⟨hhigh, hk', hodd⟩ := reg_high h
  rw [apicWriteRedirectionTable]
  simp only [ioapicWrite, if_pos hlow, if_pos hhigh, hk, hk', heven, hodd]
  rw [setEntry_same, withHalf_both, setEntry_setEntry]

theorem apicReadRedirectionTable_eq (h : (gsi - ioapic.gsiBase).toNat < 65536) :
    apicReadRedirectionTable version (some ioapic) gsi t = t ioapic.ioapicAddr (gsi - ioapic.gsiBase).toNat := by
  obtain ⟨hlow, hk, heven⟩ := reg_low h
  obtain ⟨hhigh, hk', hodd⟩ := reg_high h
  rw [apicReadRedirectionTable]
  simp only [ioapicRead, if_pos hlow, if_pos hhigh, hk, hk', heven, hodd]
  exact half_or _

/-- An entry of all ones is left alone, and is masked already. -/
theorem maskGsi_eq (h : (gsi - ioapic.gsiBase).toNat < 65536) :
    maskGsi version ioapic gsi t =
      t.setEntry ioapic.ioapicAddr (gsi - ioapic.gsiBase).toNat
        (t ioapic.ioapicAddr (gsi - ioapic.gsiBase).toNat ||| 1#64 <<< 16) := by
  rw [maskGsi, apicReadRedirectionTable_eq h]
  split_ifs with hbad
  · rw [hbad, show redirectTableBadRead ||| 1#64 <<< 16 = redirectTableBadRead by decide, ← hbad]
    simp [Tables.setEntry]
  · exact apicWriteRedirectionTable_eq h

/-- The number of the last entry. -/
def maxEntry (version : Addr → BitVec 32) (ioapic : Ioapic) : ℕ :=
  ((version ioapic.ioapicAddr >>> 16).setWidth 8).toNat

/-- The number that `apic_get_gsi_max` returns. -/
theorem apicGetGsiMax_toNat (version : Addr → BitVec 32) (t : Tables) (ioapic : Ioapic) :
    (apicGetGsiMax version t ioapic).toNat = maxEntry version ioapic % 128 := by
  have hread : apicGetGsiMax version t ioapic = (version ioapic.ioapicAddr >>> 16).setWidth 8 &&& 127 := rfl
  rw [hread, BitVec.toNat_and, maxEntry]
  exact Nat.and_two_pow_sub_one_eq_mod _ 7

/-- The IOAPIC takes the GSI for its own. -/
def Reaches (version : Addr → BitVec 32) (ioapic : Ioapic) (g : ℕ) : Prop :=
  ioapic.gsiBase.toNat ≤ g ∧ g ≤ (ioapic.gsiBase.toNat + maxEntry version ioapic % 128) % 2 ^ 32

/-- The GSI is that of one of the entries. -/
def InRange (version : Addr → BitVec 32) (ioapic : Ioapic) (g : ℕ) : Prop :=
  ioapic.gsiBase.toNat ≤ g ∧ g ≤ ioapic.gsiBase.toNat + maxEntry version ioapic

instance (g : ℕ) : Decidable (Reaches version ioapic g) := inferInstanceAs (Decidable (_ ∧ _))

theorem covers_iff : covers version t ioapic gsi = true ↔ Reaches version ioapic gsi.toNat := by
  have hmax := apicGetGsiMax_toNat version t ioapic
  rw [covers, Reaches, ← hmax]
  simp only [ge_iff_le, decide_eq_true_eq, BitVec.le_def, BitVec.toNat_add, BitVec.toNat_setWidth]
  rw [Nat.mod_eq_of_lt (a := (apicGetGsiMax version t ioapic).toNat) (by omega), Nat.add_comm]

theorem Reaches.inRange {g : ℕ} (h : Reaches version ioapic g) : InRange version ioapic g := by
  obtain ⟨hle, hmax⟩ := h
  refine ⟨hle, hmax.trans ((Nat.mod_le _ _).trans ?_)⟩
  exact Nat.add_le_add_left (Nat.mod_le _ _) _

theorem maxEntry_lt (version : Addr → BitVec 32) (ioapic : Ioapic) : maxEntry version ioapic < 256 :=
  BitVec.isLt _

/-- The number of the entry of a GSI. -/
theorem InRange.entry (h : InRange version ioapic gsi.toNat) :
    (gsi - ioapic.gsiBase).toNat = gsi.toNat - ioapic.gsiBase.toNat ∧ (gsi - ioapic.gsiBase).toNat < 65536 := by
  obtain ⟨hle, hmax⟩ := h
  have hlt := maxEntry_lt version ioapic
  have hsub : (gsi - ioapic.gsiBase).toNat = gsi.toNat - ioapic.gsiBase.toNat :=
    BitVec.toNat_sub_of_le hle
  exact ⟨hsub, by omega⟩

end Entries

end JustKernel.Apic
