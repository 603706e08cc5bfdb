import JustKernel.Base.AddressSpace
import Mathlib.Data.BitVec
import Mathlib.Data.List.Basic

/-! The interrupt controller table, `parse_madt` of `sys/apic.c`. The entry area of the table is
a sequence of records, each with a type byte and a size byte in front. The loop moves its cursor
over the two bytes, over the rest of the record but one byte, and over that byte. The lists are
lists of the addresses of the payloads; the log is left out. A node can always be allocated for an
entry of a list, and the table is mapped wherever the loop reads it. -/

namespace JustKernel.Madt

open AddressSpace
open Memory (Byte)

/-- The variables that `parse_madt` writes, with the cursor at every record it has read. -/
structure Apic where
  madtCpu : List Addr
  madtIso : List Addr
  madtIoapic : List Addr
  madtNmi : List Addr
  lapicBase : BitVec 32
  visited : List (BitVec 32)

section Model

variable (m : Mem32) (madt : Addr)

def headerLength : BitVec 32 := read32 m (madt + 4)

def localApicAddr : BitVec 32 := read32 m (madt + 36)

/-- `&madt->entries[e]`. -/
def entryAddr (e : BitVec 32) : Addr := madt + 44 + e

def entryType (e : BitVec 32) : Byte := m (entryAddr madt e)

def entrySize (e : BitVec 32) : Byte := m (entryAddr madt (e + 1))

/-- `local_apic_override`, cut to the 32 bits of `lapic_base`. -/
def lapicOverride (ent : Addr) : BitVec 32 := (read64 m (ent + 2)).setWidth 32

/-- The branches of the loop for the record at `e`. -/
def visit (e : BitVec 32) (s : Apic) : Apic :=
  let type := entryType m madt e
  let ent := entryAddr madt (e + 1 + 1)
  let s := { s with visited := s.visited ++ [e] }
  if type = 0 then { s with madtCpu := s.madtCpu ++ [ent] }
  else if type = 1 then { s with madtIoapic := s.madtIoapic ++ [ent] }
  else if type = 2 then { s with madtIso := s.madtIso ++ [ent] }
  else if type = 4 then { s with madtNmi := s.madtNmi ++ [ent] }
  else if type = 5 then { s with lapicBase := lapicOverride m ent }
  else s

/-- The cursor behind a record: twice `e++`, then `e += size - 3`, then the `e++` of the loop. -/
def nextEntry (size : Byte) (e : BitVec 32) : BitVec 32 := e + 1 + 1 + (size.setWidth 32 - 3) + 1

def parseLoop (bytesForEntries : BitVec 32) : ℕ → BitVec 32 → Apic → Option Apic
  | 0, _, _ => none
  | fuel + 1, e, s =>
    if e < bytesForEntries then
      parseLoop bytesForEntries fuel (nextEntry (entrySize m madt e) e) (visit m madt e s)
    else some s

/-- `parse_madt`, on what `get_madt` has returned. -/
def parseMadt (fuel : ℕ) (madt : Option Addr) (s : Apic) : Option (Bool × Apic) :=
  match madt with
  | none => some (false, s)
  | some madt =>
    (parseLoop m madt (headerLength m madt - (36 + 4 + 4)) fuel 0
      ⟨[], [], [], [], localApicAddr m madt, []⟩).map fun s => (true, s)

end Model

/-- The advances of the cursor add up to the size of the record. -/
theorem nextEntry_eq (size : Byte) (e : BitVec 32) : nextEntry size e = e + size.setWidth 32 := by
  rw [nextEntry]
  bv_omega

/-! ### Well-formed tables -/

/-- The sizes of the records with a known type. -/
def acpiSize (type : Byte) : Option ℕ :=
  if type = 0 then some 8 else if type = 1 then some 12 else if type = 2 then some 10
  else if type = 4 then some 6 else if type = 5 then some 12 else none

structure Record where
  type : Byte
  payload : List Byte
  short : payload.length + 2 < 256
  acpi : ∀ n, acpiSize type = some n → payload.length + 2 = n

def Record.size (r : Record) : ℕ := r.payload.length + 2

def Record.bytes (r : Record) : List Byte := r.type :: BitVec.ofNat 8 r.size :: r.payload

/-- The records with their places in the entry area. -/
def placed : ℕ → List Record → List (ℕ × Record)
  | _, [] => []
  | e, r :: area => (e, r) :: placed (e + r.size) area

/-- The table at `madt` has the records `area` for its entries. -/
structure Table (m : Mem32) (madt : Addr) (area : List Record) : Prop where
  length : (headerLength m madt).toNat = 44 + (area.flatMap Record.bytes).length
  bytes : Spells m (madt + 44) (area.flatMap Record.bytes)

def payloadAddr (madt : Addr) (x : ℕ × Record) : Addr := entryAddr madt (BitVec.ofNat 32 (x.1 + 2))

/-- The payloads of the records of one type, in order. -/
def payloads (madt : Addr) (type : Byte) (l : List (ℕ × Record)) : List Addr :=
  (l.filter fun x => x.2.type = type).map (payloadAddr madt)

/-- The address of the last record of type 5. -/
def lastOverride (m : Mem32) (madt : Addr) (l : List (ℕ × Record)) : Option (BitVec 32) :=
  (payloads madt 5 l).getLast?.map (lapicOverride m)

/-- What the loop should make of the records `l`. -/
def Apic.after (m : Mem32) (madt : Addr) (s : Apic) (l : List (ℕ × Record)) : Apic where
  madtCpu := s.madtCpu ++ payloads madt 0 l
  madtIso := s.madtIso ++ payloads madt 2 l
  madtIoapic := s.madtIoapic ++ payloads madt 1 l
  madtNmi := s.madtNmi ++ payloads madt 4 l
  lapicBase := (lastOverride m madt l).getD s.lapicBase
  visited := s.visited ++ l.map fun x => BitVec.ofNat 32 x.1

section Parse

variable {m : Mem32} {madt : Addr} {area : List Record} {r : Record} {l : List (ℕ × Record)} {s : Apic} {e : ℕ}

theorem payloads_cons (type : Byte) :
    payloads madt type ((e, r) :: l) =
      if r.type = type then payloadAddr madt (e, r) :: payloads madt type l else payloads madt type l := by
  rw [payloads, List.filter_cons]
  simp only [decide_eq_true_eq]
  split_ifs <;> rfl

theorem lastOverride_cons :
    lastOverride m madt ((e, r) :: l) =
      if r.type = 5 then some ((lastOverride m madt l).getD (lapicOverride m (payloadAddr madt (e, r))))
      else lastOverride m madt l := by
  rw [lastOverride, payloads_cons]
  split_ifs
  · rw [List.getLast?_cons, lastOverride]
    cases (payloads madt 5 l).getLast? <;> rfl
  · rfl

theorem spells_record (h : Spells m (madt + 44 + BitVec.ofNat 32 e) r.bytes) :
    entryType m madt (BitVec.ofNat 32 e) = r.type ∧
      entrySize m madt (BitVec.ofNat 32 e) = BitVec.ofNat 8 r.size := by
  obtain ⟨htype, hsize, -⟩ := h
  refine ⟨htype, ?_⟩
  rw [entrySize, entryAddr, ← hsize, ← BitVec.add_assoc]

/-- One record, in the order of the records. -/
theorem visit_after (htype : entryType m madt (BitVec.ofNat 32 e) = r.type) :
    (visit m madt (BitVec.ofNat 32 e) s).after m madt l = s.after m madt ((e, r) :: l) := by
  have hent : entryAddr madt (BitVec.ofNat 32 e + 1 + 1) = payloadAddr madt (e, r) := by
    rw [payloadAddr, BitVec.ofNat_add, BitVec.add_assoc]
    rfl
  simp only [Apic.after, visit, htype, hent, payloads_cons, lastOverride_cons]
  split_ifs with h0 h1 h2 h4 h5 <;> simp_all

theorem after_nil : s.after m madt [] = s := by
  simp [Apic.after, payloads, lastOverride]

theorem nextEntry_record (e : ℕ) (r : Record) :
    nextEntry (BitVec.ofNat 8 r.size) (BitVec.ofNat 32 e) = BitVec.ofNat 32 (e + r.size) := by
  have hsize : (BitVec.ofNat 8 r.size).setWidth 32 = BitVec.ofNat 32 r.size := by
    apply BitVec.eq_of_toNat_eq
    have := r.short
    simp only [BitVec.toNat_setWidth, BitVec.toNat_ofNat, Record.size]
    omega
  rw [nextEntry_eq, hsize, BitVec.ofNat_add]

/-- The loop from the record boundary `e` on, over the rest of the area. -/
theorem parseLoop_records (s : Apic) {bytesForEntries : BitVec 32} {fuel : ℕ}
    (hbytes : Spells m (madt + 44 + BitVec.ofNat 32 e) (area.flatMap Record.bytes))
    (hend : e + (area.flatMap Record.bytes).length = bytesForEntries.toNat) (hfuel : area.length < fuel) :
    parseLoop m madt bytesForEntries fuel (BitVec.ofNat 32 e) s = some (s.after m madt (placed e area)) := by
  have hlt := bytesForEntries.isLt
  have he : (BitVec.ofNat 32 e).toNat = e := by
    rw [BitVec.toNat_ofNat]
    omega
  induction area generalizing e s fuel with
  | nil =>
    obtain ⟨fuel, rfl⟩ := Nat.exists_eq_succ_of_ne_zero (Nat.ne_of_gt hfuel)
    have hdone : ¬BitVec.ofNat 32 e < bytesForEntries := by
      rw [BitVec.lt_def, he]
      simp at hend
      omega
    rw [parseLoop, if_neg hdone, placed, after_nil]
  | cons r area ih =>
    obtain ⟨fuel, rfl⟩ := Nat.exists_eq_succ_of_ne_zero (Nat.ne_of_gt (Nat.zero_lt_of_lt hfuel))
    rw [List.flatMap_cons] at hbytes hend
    obtain ⟨hrecord, hrest⟩ := spells_append.mp hbytes
    obtain ⟨htype, hsize⟩ := spells_record hrecord
    have hlength : r.bytes.length = r.size := by simp [Record.bytes, Record.size]
    rw [List.length_append, hlength] at hend
    rw [hlength, BitVec.add_assoc, ← BitVec.ofNat_add] at hrest
    have hmore : BitVec.ofNat 32 e < bytesForEntries := by
      rw [BitVec.lt_def, he]
      simp only [Record.size] at hend
      omega
    rw [parseLoop, if_pos hmore, hsize, nextEntry_record,
      ih _ hrest (by omega) (Nat.lt_of_succ_lt_succ hfuel) (by rw [BitVec.toNat_ofNat]; omega), placed,
      visit_after htype]

/-- A table cut into records is parsed as its records say: each is visited once, in order. -/
theorem parseMadt_records (htable : Table m madt area) (s : Apic) {fuel : ℕ} (hfuel : area.length < fuel) :
    parseMadt m fuel (some madt) s = some (true,
      { madtCpu := payloads madt 0 (placed 0 area)
        madtIso := payloads madt 2 (placed 0 area)
        madtIoapic := payloads madt 1 (placed 0 area)
        madtNmi := payloads madt 4 (placed 0 area)
        lapicBase := (lastOverride m madt (placed 0 area)).getD (localApicAddr m madt)
        visited := (placed 0 area).map fun x => BitVec.ofNat 32 x.1 }) := by
  have hend : 0 + (area.flatMap Record.bytes).length = (headerLength m madt - (36 + 4 + 4)).toNat := by
    have hlength := htable.length
    have hlt := (headerLength m madt).isLt
    rw [BitVec.toNat_sub]
    simp only [BitVec.reduceAdd, BitVec.reduceToNat]
    omega
  have hbytes : Spells m (madt + 44 + BitVec.ofNat 32 0) (area.flatMap Record.bytes) := by
    simpa using htable.bytes
  have hloop := parseLoop_records ⟨[], [], [], [], localApicAddr m madt, []⟩ hbytes hend hfuel
  rw [parseMadt, show (0 : BitVec 32) = BitVec.ofNat 32 0 from rfl, hloop]
  rfl

end Parse

/-- A table at `0x1000` with `entries` for its entry area. -/
def tableOf (entries : List Byte) : Mem32 := fun a =>
  if a = 0x1004 then BitVec.ofNat 8 (44 + entries.length) else entries.getD (a - 0x102C).toNat 0

/-- A core, a record of type 3, an IOAPIC, the address of the local APICs and a second core. -/
def fiveRecords : List Record :=
  [⟨0, [0, 0, 1, 0, 0, 0], by decide, by decide⟩,
    ⟨3, [0, 0, 9, 0, 0, 0], by decide, by decide⟩,
    ⟨1, [2, 0, 0, 0, 0xC0, 0xFE, 0, 0, 0, 0], by decide, by decide⟩,
    ⟨5, [0, 0, 0, 0x10, 0xE0, 0xFE, 0, 0, 0, 0], by decide, by decide⟩,
    ⟨0, [1, 1, 1, 0, 0, 0], by decide, by decide⟩]

theorem parseMadt_fiveRecords :
    parseMadt (tableOf (fiveRecords.flatMap Record.bytes)) 6 (some 0x1000) ⟨[], [], [], [], 0, []⟩ =
      some (true, ⟨[0x102E, 0x1056], [], [0x103E], [], 0xFEE01000, [0, 8, 16, 28, 40]⟩) := by
  have htable : Table (tableOf (fiveRecords.flatMap Record.bytes)) 0x1000 fiveRecords := by
    refine ⟨by decide, ?_⟩
    simp [Spells, fiveRecords, Record.bytes, Record.size, tableOf]
  exact parseMadt_records htable _ (by decide)

end JustKernel.Madt
