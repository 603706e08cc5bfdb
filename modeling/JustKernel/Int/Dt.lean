import Mathlib.Data.BitVec
import Mathlib.Data.Fintype.Basic
import Mathlib.Logic.Function.Basic
import Mathlib.Tactic.SplitIfs

/-! The descriptor tables, `int/gdt.c` and `int/idt.c`. A descriptor scatters its base and its
limit over its bytes; the setters write the pieces, and what the processor puts together again
is what was set, as far as there is room for it: a limit has 20 bits and the flags have 4. -/

namespace JustKernel.Dt

/-! ### Descriptors -/

/-- `gdt_entry_t`. -/
structure GdtEntry where
  limitLow : BitVec 16
  baseLow : BitVec 16
  baseMiddle : BitVec 8
  access : BitVec 8
  limitHigh : BitVec 4
  flags : BitVec 4
  baseHigh : BitVec 8
  deriving DecidableEq

/-- What the processor reads from an entry. -/
@[ext]
structure Segment where
  base : BitVec 32
  limit : BitVec 20
  access : BitVec 8
  flags : BitVec 4
  deriving DecidableEq

def GdtEntry.segment (e : GdtEntry) : Segment where
  base := e.baseHigh ++ e.baseMiddle ++ e.baseLow
  limit := e.limitHigh ++ e.limitLow
  access := e.access
  flags := e.flags

/-- `GDT_ENTRIES` of them. -/
abbrev Gdt := Fin 6 → GdtEntry

def gdtSetGateBase (num : Fin 6) (base : BitVec 32) (gdt : Gdt) : Gdt :=
  Function.update gdt num { gdt num with
    baseLow := (base &&& 0xFFFF).setWidth 16
    baseMiddle := (base >>> 16 &&& 0xFF).setWidth 8
    baseHigh := (base >>> 24 &&& 0xFF).setWidth 8 }

def gdtSetGateLimit (num : Fin 6) (limit : BitVec 32) (gdt : Gdt) : Gdt :=
  Function.update gdt num { gdt num with
    limitLow := (limit &&& 0xFFFF).setWidth 16
    limitHigh := (limit >>> 16 &&& 0x0F).setWidth 4 }

def gdtSetGateFlags (num : Fin 6) (flags : BitVec 8) (gdt : Gdt) : Gdt :=
  Function.update gdt num { gdt num with flags := flags.setWidth 4 }

def gdtSetGateAccess (num : Fin 6) (access : BitVec 8) (gdt : Gdt) : Gdt :=
  Function.update gdt num { gdt num with access := access }

def gdtSetGateType (num : Fin 6) (type : BitVec 8) (gdt : Gdt) : Gdt :=
  Function.update gdt num { gdt num with access := (gdt num).access &&& ~~~0x0F ||| (type &&& 0x0F) }

def gdtSetGate (num : Fin 6) (base limit : BitVec 32) (access flags : BitVec 8) (gdt : Gdt) : Gdt :=
  gdtSetGateAccess num access (gdtSetGateFlags num flags (gdtSetGateLimit num limit (gdtSetGateBase num base gdt)))

/-! ### The tables of the kernel -/

/-- `pack_access`. -/
def packAccess (a rw dc e dpl p : BitVec 8) : BitVec 8 :=
  (a &&& 1) ||| (rw &&& 1) <<< 1 ||| (dc &&& 1) <<< 2 ||| (e &&& 1) <<< 3 ||| 1 <<< 4 ||| (dpl &&& 3) <<< 5 |||
    (p &&& 1) <<< 7

/-- `pack_access_system`. -/
def packAccessSystem (type dpl p : BitVec 8) : BitVec 8 :=
  (type &&& 15) ||| (dpl &&& 3) <<< 5 ||| (p &&& 1) <<< 7

/-- `pack_flags`. -/
def packFlags (a db g : BitVec 8) : BitVec 8 := (a &&& 1) ||| (db &&& 1) <<< 2 ||| (g &&& 1) <<< 3

/-- `DESC_TSS`. -/
abbrev descTss : Fin 6 := 5

/-- The entries after `gdt_init`. -/
def gdtInit (gdt : Gdt) : Gdt :=
  gdtSetGate descTss 0 0x68 (packAccessSystem 0x9 3 1) (packFlags 0 1 1) <|
  gdtSetGate 4 0 0xFFFFFFFF (packAccess 0 1 0 0 3 1) (packFlags 0 1 1) <|
  gdtSetGate 3 0 0xFFFFFFFF (packAccess 0 1 0 1 3 1) (packFlags 0 1 1) <|
  gdtSetGate 2 0 0xFFFFFFFF (packAccess 0 1 0 0 0 1) (packFlags 0 1 1) <|
  gdtSetGate 1 0 0xFFFFFFFF (packAccess 0 1 0 1 0 1) (packFlags 0 1 1) <|
  gdtSetGate 0 0 0 0 0 gdt

/-- `idt_entry_t`. -/
structure IdtEntry where
  baseLow : BitVec 16
  sel : BitVec 16
  always0 : BitVec 8
  flags : BitVec 8
  baseHigh : BitVec 16
  deriving DecidableEq

/-- What the processor reads from a gate. -/
@[ext]
structure Gate where
  offset : BitVec 32
  sel : BitVec 16
  flags : BitVec 8
  deriving DecidableEq

def IdtEntry.gate (e : IdtEntry) : Gate := ⟨e.baseHigh ++ e.baseLow, e.sel, e.flags⟩

abbrev Idt := BitVec 8 → IdtEntry

def idtSetGate (num : BitVec 8) (base : BitVec 32) (sel : BitVec 16) (flags : BitVec 8) (idt : Idt) : Idt :=
  Function.update idt num {
    baseLow := (base &&& 0xFFFF).setWidth 16
    baseHigh := (base >>> 16 &&& 0xFFFF).setWidth 16
    sel := sel
    always0 := 0
    flags := flags ||| 0x60 }

/-- `pack_flags` of `idt.c`. -/
def packGateFlags (type dpl p : BitVec 8) : BitVec 8 := (type &&& 15) ||| (dpl &&& 3) <<< 5 ||| (p &&& 1) <<< 7

/-- The entries after `idt_init`, with the addresses of `isr0` to `isr255`. -/
def idtInit (isr : BitVec 8 → BitVec 32) (idt : Idt) : Idt :=
  (List.range 256).foldl
    (fun idt num => idtSetGate (BitVec.ofNat 8 num) (isr (BitVec.ofNat 8 num)) 0x08 (packGateFlags 0xE 3 1) idt) idt

section Setters

variable {gdt : Gdt} {num : Fin 6} {n : Fin 6}

theorem setWidth_and_mask (x : BitVec 32) (w : ℕ) :
    (x &&& BitVec.ofNat 32 (2 ^ w - 1)).setWidth w = x.setWidth w := by
  ext i hi
  simp only [BitVec.getElem_setWidth, BitVec.getLsbD_and, BitVec.getLsbD_ofNat, Nat.testBit_two_pow_sub_one]
  by_cases h32 : i < 32
  · simp [h32, hi]
  · simp [h32, BitVec.getLsbD_of_ge x i (by omega)]

theorem piece (x : BitVec 32) (k w : ℕ) :
    (x >>> k &&& BitVec.ofNat 32 (2 ^ w - 1)).setWidth w = x.extractLsb' k w := by
  rw [setWidth_and_mask]
  ext i hi
  simp

theorem lowPiece (x : BitVec 32) : (x &&& 0xFFFF).setWidth 16 = x.extractLsb' 0 16 := by
  have hpiece := piece x 0 16
  rw [BitVec.ushiftRight_zero] at hpiece
  exact hpiece

/-- The base in its three pieces. -/
theorem pieces_base (x : BitVec 32) :
    (x >>> 24 &&& 0xFF).setWidth 8 ++ (x >>> 16 &&& 0xFF).setWidth 8 ++ (x &&& 0xFFFF).setWidth 16 = x := by
  have hhigh : (x >>> 24 &&& 0xFF).setWidth 8 = x.extractLsb' 24 8 := piece x 24 8
  have hmiddle : (x >>> 16 &&& 0xFF).setWidth 8 = x.extractLsb' 16 8 := piece x 16 8
  rw [hhigh, hmiddle, lowPiece, BitVec.extractLsb'_append_extractLsb'_eq_extractLsb' (by decide),
    BitVec.extractLsb'_append_extractLsb'_eq_extractLsb' (by decide)]
  simp

/-- The limit in its two pieces. -/
theorem pieces_limit (x : BitVec 32) :
    (x >>> 16 &&& 0x0F).setWidth 4 ++ (x &&& 0xFFFF).setWidth 16 = x.setWidth 20 := by
  have hhigh : (x >>> 16 &&& 0x0F).setWidth 4 = x.extractLsb' 16 4 := piece x 16 4
  rw [hhigh, lowPiece, BitVec.extractLsb'_append_extractLsb'_eq_extractLsb' (by decide)]
  ext i hi
  simp

/-- The offset in its two pieces. -/
theorem pieces_offset (x : BitVec 32) :
    (x >>> 16 &&& 0xFFFF).setWidth 16 ++ (x &&& 0xFFFF).setWidth 16 = x := by
  have hhigh : (x >>> 16 &&& 0xFFFF).setWidth 16 = x.extractLsb' 16 16 := piece x 16 16
  rw [hhigh, lowPiece, BitVec.extractLsb'_append_extractLsb'_eq_extractLsb' (by decide)]
  simp

/-- What a setter does to the entry it is called for. -/
theorem segment_setGateBase (base : BitVec 32) :
    (gdtSetGateBase num base gdt num).segment = { (gdt num).segment with base := base } := by
  simp only [gdtSetGateBase, Function.update_self, GdtEntry.segment, pieces_base]

theorem segment_setGateLimit (limit : BitVec 32) :
    (gdtSetGateLimit num limit gdt num).segment = { (gdt num).segment with limit := limit.setWidth 20 } := by
  simp only [gdtSetGateLimit, Function.update_self, GdtEntry.segment, pieces_limit]

theorem segment_setGateFlags (flags : BitVec 8) :
    (gdtSetGateFlags num flags gdt num).segment = { (gdt num).segment with flags := flags.setWidth 4 } := by
  simp only [gdtSetGateFlags, Function.update_self, GdtEntry.segment]

theorem segment_setGateAccess (access : BitVec 8) :
    (gdtSetGateAccess num access gdt num).segment = { (gdt num).segment with access := access } := by
  simp only [gdtSetGateAccess, Function.update_self, GdtEntry.segment]

theorem segment_setGateType (type : BitVec 8) : (gdtSetGateType num type gdt num).segment =
    { (gdt num).segment with access := (gdt num).access &&& ~~~0x0F ||| (type &&& 0x0F) } := by
  simp only [gdtSetGateType, Function.update_self, GdtEntry.segment]

end Setters

/-! ### Sequences of calls -/

/-- A call of a setter. -/
inductive Setter
  | base (base : BitVec 32)
  | limit (limit : BitVec 32)
  | flags (flags : BitVec 8)
  | access (access : BitVec 8)
  | type (type : BitVec 8)

def Setter.apply : Setter → Fin 6 → Gdt → Gdt
  | .base b, num => gdtSetGateBase num b
  | .limit l, num => gdtSetGateLimit num l
  | .flags f, num => gdtSetGateFlags num f
  | .access a, num => gdtSetGateAccess num a
  | .type t, num => gdtSetGateType num t

/-- What the call is for: a field of the segment. -/
def Setter.set : Setter → Segment → Segment
  | .base b, s => { s with base := b }
  | .limit l, s => { s with limit := l.setWidth 20 }
  | .flags f, s => { s with flags := f.setWidth 4 }
  | .access a, s => { s with access := a }
  | .type t, s => { s with access := s.access &&& ~~~0x0F ||| (t &&& 0x0F) }

section Sequences

variable {gdt : Gdt}

theorem apply_other (c : Setter) {num n : Fin 6} (hn : n ≠ num) : c.apply num gdt n = gdt n := by
  cases c <;> exact Function.update_of_ne hn _ _

theorem apply_segment (c : Setter) (num n : Fin 6) :
    (c.apply num gdt n).segment = if n = num then c.set (gdt n).segment else (gdt n).segment := by
  split_ifs with hn
  · subst hn
    cases c with
    | base b => exact segment_setGateBase b
    | limit l => exact segment_setGateLimit l
    | flags f => exact segment_setGateFlags f
    | access a => exact segment_setGateAccess a
    | type t => exact segment_setGateType t
  · rw [apply_other c hn]

/-- After any calls in any order, every descriptor is what the calls for it were for, one after the
other; the pieces of one field never end up in another. -/
theorem setters_refine (calls : List (Fin 6 × Setter)) (gdt : Gdt) (n : Fin 6) :
    (calls.foldl (fun gdt c => c.2.apply c.1 gdt) gdt n).segment =
      (calls.filter (·.1 = n)).foldl (fun s c => c.2.set s) (gdt n).segment := by
  induction calls generalizing gdt with
  | nil => rfl
  | cons c calls ih =>
    rw [List.foldl_cons, ih, apply_segment]
    by_cases hc : c.1 = n
    · rw [List.filter_cons_of_pos (by simpa using hc), if_pos hc.symm, List.foldl_cons]
    · rw [List.filter_cons_of_neg (by simpa using hc), if_neg (Ne.symm hc)]

end Sequences

/-! ### The tables that are built -/

section Tables

variable {gdt : Gdt} {n num : Fin 6}

theorem setGate_self (base limit : BitVec 32) (access flags : BitVec 8) :
    (gdtSetGate num base limit access flags gdt num).segment =
      ⟨base, limit.setWidth 20, access, flags.setWidth 4⟩ := by
  rw [gdtSetGate, segment_setGateAccess, segment_setGateFlags, segment_setGateLimit, segment_setGateBase]

theorem setGate_other (base limit : BitVec 32) (access flags : BitVec 8) (hn : n ≠ num) :
    gdtSetGate num base limit access flags gdt n = gdt n := by
  simp [gdtSetGate, gdtSetGateAccess, gdtSetGateFlags, gdtSetGateLimit, gdtSetGateBase, hn]

/-- A segment that covers everything, code or data, for a ring. -/
def flat (access : BitVec 8) : Segment := ⟨0, 0xFFFFF, access, 0b1100⟩

/-- What `gdt_init` builds, whatever was there: no segment, flat code and data for ring 0 and ring 3,
and a task state segment of which only the base is missing. -/
theorem segment_gdtInit : (gdtInit gdt 0).segment = ⟨0, 0, 0, 0⟩ ∧ (gdtInit gdt 1).segment = flat 0x9A ∧
    (gdtInit gdt 2).segment = flat 0x92 ∧ (gdtInit gdt 3).segment = flat 0xFA ∧
    (gdtInit gdt 4).segment = flat 0xF2 ∧ (gdtInit gdt descTss).segment = ⟨0, 0x68, 0xE9, 0b1100⟩ := by
  refine ⟨?_, ?_, ?_, ?_, ?_, ?_⟩ <;>
    simp (disch := decide) only [gdtInit, setGate_self, setGate_other] <;> decide

variable {isr : BitVec 8 → BitVec 32} {idt : Idt}

theorem gate_setGate (num : BitVec 8) (base : BitVec 32) (sel : BitVec 16) (flags : BitVec 8) (n : BitVec 8) :
    (idtSetGate num base sel flags idt n).gate =
      if n = num then ⟨base, sel, flags ||| 0x60⟩ else (idt n).gate := by
  unfold idtSetGate
  split_ifs with hn
  · subst hn
    simp only [Function.update_self, IdtEntry.gate, pieces_offset]
  · rw [Function.update_of_ne hn]

/-- After `idt_init` every vector has a present interrupt gate to its own stub in the kernel's code
segment, and every one can be raised from ring 3. -/
theorem gate_idtInit (n : BitVec 8) : (idtInit isr idt n).gate = ⟨isr n, 0x08, 0xEE⟩ := by
  have hset : ∀ k, n.toNat < k → ((List.range k).foldl (fun idt num => idtSetGate (BitVec.ofNat 8 num)
      (isr (BitVec.ofNat 8 num)) 0x08 (packGateFlags 0xE 3 1) idt) idt n).gate = ⟨isr n, 0x08, 0xEE⟩ := by
    intro k
    induction k with
    | zero => exact fun h => absurd h (Nat.not_lt_zero _)
    | succ k ih =>
      intro hk
      rw [List.range_succ, List.foldl_append, List.foldl_cons, List.foldl_nil, gate_setGate]
      split_ifs with hn
      · subst hn
        rfl
      · refine ih (lt_of_le_of_ne (Nat.lt_succ_iff.mp hk) fun heq => hn ?_)
        rw [← heq, BitVec.ofNat_toNat, BitVec.setWidth_eq]
  exact hset 256 n.isLt

end Tables

end JustKernel.Dt
