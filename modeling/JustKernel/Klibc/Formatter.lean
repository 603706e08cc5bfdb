import JustKernel.Klibc.Numerals
import JustKernel.Klibc.Stdio
import Mathlib.Data.List.TakeWhile

/-! `_vprintf` against a reference formatter, on formats made of literal characters and of
directives with a pad character, `-`, a width from 1 to 127 and a conversion. What the code
writes for a directive is the reference text unless the width has a zero digit, which the loop
over the digits does not take, so that the zero counts as an unknown conversion and the rest of
the directive as text; or the argument of `d` is negative, which `itoa` spells as an unsigned
number; or the string of an `s` is longer than a signed `char` can count and the count comes
out below the width. -/

namespace JustKernel.Klibc

open Memory (Byte)

/-! ### Formats and their reference text -/

inductive Pad
  | zero
  | blank
  | dot

def Pad.char : Pad → Byte
  | zero => chr '0'
  | blank => chr ' '
  | dot => chr '.'

inductive Conversion
  | d
  | u
  | x
  | s
  | c
  deriving DecidableEq

def Conversion.char : Conversion → Byte
  | d => chr 'd'
  | u => chr 'u'
  | x => chr 'x'
  | s => chr 's'
  | c => chr 'c'

/-- A width that a directive can have. -/
abbrev Width := { w : ℕ // 1 ≤ w ∧ w ≤ 127 }

/-- `%[pad][-][width]conversion`. -/
structure Directive where
  pad : Option Pad
  right : Bool
  width : Option Width
  conversion : Conversion

inductive Piece
  | literal (c : { c : Byte // c ≠ 0 ∧ c ≠ chr '%' })
  | directive (d : Directive)

namespace Directive

def padText (d : Directive) : List Byte := (d.pad.map Pad.char).toList

def minusText (d : Directive) : List Byte := if d.right then [chr '-'] else []

def widthText (d : Directive) : List Byte :=
  match d.width with
  | none => []
  | some w => digits 10 w

/-- The directive in the format. -/
def text (d : Directive) : List Byte :=
  chr '%' :: (d.padText ++ (d.minusText ++ (d.widthText ++ [d.conversion.char])))

/-- The character that fills the width. -/
def fill (d : Directive) : Byte := (d.pad.map Pad.char).getD (chr ' ')

/-- The width, 0 if there is none. -/
def columns (d : Directive) : ℕ := (d.width.map Subtype.val).getD 0

end Directive

/-- The string an argument points to. -/
def Call.string (C : Call) (p : BitVec 32) : List Byte :=
  if p = 0 then ['(', 'n', 'u', 'l', 'l', ')'].map chr else C.str p

/-- The text of an argument: signed decimal, unsigned decimal, hexadecimal, the string, the
character. -/
def Conversion.reference (C : Call) (v : BitVec 32) : Conversion → List Byte
  | d => if v.toInt < 0 then chr '-' :: digits 10 v.toInt.natAbs else digits 10 v.toInt.natAbs
  | u => digits 10 v.toNat
  | x => digits 16 v.toNat
  | s => C.string v
  | c => [v.setWidth 8]

/-- `count` pads on the left of the text, or on the right of it. -/
def justify (count : ℕ) (fill : Byte) (right : Bool) (text : List Byte) : List Byte :=
  if right then text ++ List.replicate count fill else List.replicate count fill ++ text

/-- The text of a directive, filled up to its width; `c` has no width. -/
def Directive.reference (C : Call) (v : BitVec 32) (d : Directive) : List Byte :=
  let text := d.conversion.reference C v
  if d.conversion = .c then text else justify (d.columns - text.length) d.fill d.right text

/-- What is written for the pieces, from argument `a` on. -/
def reference (C : Call) : ℕ → List Piece → List Byte
  | _, [] => []
  | a, .literal c :: pieces => c.1 :: reference C a pieces
  | a, .directive d :: pieces => d.reference C (C.args a) ++ reference C (a + 1) pieces

/-- The format that the pieces make. -/
def spell (pieces : List Piece) : List Byte :=
  pieces.flatMap fun
    | .literal c => [c.1]
    | .directive d => d.text

/-- The number of arguments that the pieces take. -/
def taken : List Piece → ℕ
  | [] => 0
  | .literal _ :: pieces => taken pieces
  | .directive _ :: pieces => taken pieces + 1

/-! ### What the code writes -/

/-- The text of an argument as the code makes it. -/
def Conversion.printed (C : Call) (v : BitVec 32) : Conversion → List Byte
  | d => itoa v
  | u => itoa v
  | x => htoa v
  | s => C.string v
  | c => [v.setWidth 8]

/-- The number of pads that the code writes. -/
def padCount (columns : ℕ) (text : List Byte) : ℕ :=
  if columns = 0 then 0 else (padding (BitVec.ofNat 8 columns) text).toNat

/-- After a zero in the width the argument is written as a character, and the rest of the
directive as it stands. -/
def Directive.printed (C : Call) (v : BitVec 32) (d : Directive) : List Byte :=
  let text := d.conversion.printed C v
  if chr '0' ∈ d.widthText then
    v.setWidth 8 :: ((d.widthText.dropWhile (IsWidth ·)).tail ++ [d.conversion.char])
  else if d.conversion = .c then text
  else justify (padCount d.columns text) d.fill d.right text

def printed (C : Call) : ℕ → List Piece → List Byte
  | _, [] => []
  | a, .literal c :: pieces => c.1 :: printed C a pieces
  | a, .directive d :: pieces => d.printed C (C.args a) ++ printed C (a + 1) pieces

/-- The directives that come out right. -/
structure Directive.Fine (C : Call) (v : BitVec 32) (d : Directive) : Prop where
  width : chr '0' ∉ d.widthText
  sign : d.conversion = .d → v.toNat < 2 ^ 31
  length : d.conversion = .s → d.columns ≠ 0 →
    (C.string v).length ≤ 127 ∨ (d.columns : ℤ) ≤ (BitVec.ofNat 8 (C.string v).length).toInt

section Directives

variable {C : Call} {v : BitVec 32} {d : Directive}

theorem columns_le (d : Directive) : d.columns ≤ 127 := by
  unfold Directive.columns
  cases d.width with
  | none => exact Nat.zero_le _
  | some w => exact w.2.2

/-- A length cut to a `char`. -/
theorem toInt_char (n : ℕ) :
    (BitVec.ofNat 8 n).toInt = if n % 256 < 128 then ((n % 256 : ℕ) : ℤ) else ((n % 256 : ℕ) : ℤ) - 256 := by
  rw [BitVec.toInt_eq_toNat_cond, BitVec.toNat_ofNat]
  split_ifs <;> omega

/-- The pads are counted in a signed `char`. -/
theorem padCount_eq_iff {columns : ℕ} (hcols : columns ≤ 127) (text : List Byte) :
    padCount columns text = columns - text.length ↔
      (columns ≠ 0 → text.length ≤ 127 ∨ (columns : ℤ) ≤ (BitVec.ofNat 8 text.length).toInt) := by
  unfold padCount
  split_ifs with hzero
  · exact iff_of_true (by omega) fun h => absurd hzero h
  · rw [imp_iff_right hzero]
    have hnum : (BitVec.ofNat 8 columns).toInt = columns := by
      rw [toInt_char, if_pos (by omega), Nat.mod_eq_of_lt (by omega)]
    have hslt : (BitVec.ofNat 8 columns).slt (BitVec.ofNat 8 text.length) = true ↔
        (columns : ℤ) < (BitVec.ofNat 8 text.length).toInt := by
      rw [BitVec.slt_iff_toInt_lt, hnum]
    have hlen := toInt_char text.length
    unfold padding
    dsimp only
    split_ifs with hlong
    · rw [hslt] at hlong
      rw [BitVec.sub_self, show (0#8).toNat = 0 from rfl]
      refine iff_of_true ?_ (Or.inr (le_of_lt hlong))
      split_ifs at hlen <;> omega
    · rw [hslt] at hlong
      rw [BitVec.toNat_sub, BitVec.toNat_ofNat, BitVec.toNat_ofNat]
      split_ifs at hlen <;> omega

theorem justify_inj {m n : ℕ} {fill : Byte} {right : Bool} {text : List Byte} :
    justify m fill right text = justify n fill right text ↔ m = n := by
  refine ⟨fun h => ?_, fun h => by rw [h]⟩
  have hlen := congrArg List.length h
  unfold justify at hlen
  split_ifs at hlen
  · simpa using hlen
  · simpa using hlen

theorem length_justify (count : ℕ) (fill : Byte) (right : Bool) (text : List Byte) :
    (justify count fill right text).length = count + text.length := by
  unfold justify
  split_ifs
  · rw [List.length_append, List.length_replicate, Nat.add_comm]
  · rw [List.length_append, List.length_replicate]

/-- The characters of a number are digits. -/
theorem toNat_of_mem_digits {n : ℕ} {c : Byte} (h : c ∈ digits 10 n) : 48 ≤ c.toNat ∧ c.toNat ≤ 57 := by
  obtain ⟨k, hk, rfl⟩ := List.mem_map.mp h
  have hdigit := Nat.isDigit_of_mem_toDigits (by decide) (by decide) hk
  rw [Char.isDigit_iff_toNat, show '0'.toNat = 48 from rfl, show '9'.toNat = 57 from rfl] at hdigit
  rw [chr, BitVec.toNat_ofNat]
  omega

theorem ne_of_mem_digits {n : ℕ} {c : Byte} (h : c ∈ digits 10 n) : c ≠ chr '-' ∧ c ≠ chr '%' := by
  obtain ⟨hlow, -⟩ := toNat_of_mem_digits h
  constructor <;> rintro rfl
  · exact absurd hlow (by decide)
  · exact absurd hlow (by decide)

/-- The loop over the digits of a width takes all but the zero. -/
theorem isWidth_of_mem_digits {n : ℕ} {c : Byte} (h : c ∈ digits 10 n) (hne : c ≠ chr '0') : IsWidth c := by
  obtain ⟨hlow, hhigh⟩ := toNat_of_mem_digits h
  have hzero : c.toNat ≠ 48 := fun heq => hne (BitVec.eq_of_toNat_eq heq)
  constructor
  · rw [BitVec.le_def, show (chr '1').toNat = 49 from rfl]
    omega
  · exact BitVec.le_def.mpr hhigh

theorem chr_zero : chr '0' = BitVec.ofNat 8 48 := rfl

/-- A number has no leading zero. -/
theorem digits_head {n : ℕ} (hn : 0 < n) : ∃ c l, digits 10 n = c :: l ∧ c ≠ chr '0' := by
  have hhead := head_digits (by decide) (by decide : 10 ≤ 16) hn
  cases hdigits : digits 10 n with
  | nil => exact absurd hdigits (digits_ne_nil 10 n)
  | cons c l => exact ⟨c, l, rfl, fun hc => hhead (by rw [hdigits, hc]; rfl)⟩

/-- The number that the loop over the digits of a width makes of them. -/
def widthValue (num : Byte) (text : List Byte) : Byte := text.foldl (fun num c => num * 10 + (c - chr '0')) num

/-- It is the number that they spell. -/
theorem widthValue_digits (n : ℕ) : widthValue 0 (digits 10 n) = BitVec.ofNat 8 n := by
  have hdigit : ∀ r < 10, chr (Nat.digitChar r) - chr '0' = BitVec.ofNat 8 r := by
    intro r hr
    rw [chr_digitChar hr, chr_zero]
    apply BitVec.eq_of_toNat_eq
    rw [BitVec.toNat_sub, BitVec.toNat_ofNat, BitVec.toNat_ofNat, BitVec.toNat_ofNat]
    omega
  induction n using Nat.strongRecOn with
  | ind n ih =>
    by_cases hsmall : n < 10
    · rw [digits_of_lt hsmall, widthValue, List.foldl_cons, List.foldl_nil, hdigit n hsmall]
      apply BitVec.eq_of_toNat_eq
      rw [BitVec.toNat_add, BitVec.toNat_mul, BitVec.toNat_ofNat, show (0 : Byte).toNat = 0 from rfl]
      omega
    · have hfront := ih (n / 10) (by omega)
      unfold widthValue at hfront ⊢
      rw [digits_of_le (by decide) (by omega), List.foldl_append, hfront, List.foldl_cons, List.foldl_nil,
        hdigit _ (Nat.mod_lt _ (by decide))]
      apply BitVec.eq_of_toNat_eq
      rw [BitVec.toNat_add, BitVec.toNat_mul, BitVec.toNat_ofNat, BitVec.toNat_ofNat, BitVec.toNat_ofNat,
        show (10 : Byte).toNat = 10 from rfl]
      omega

/-- A number with a zero falls apart into the digits before it, the zero, and the rest. -/
theorem digits_split {n : ℕ} (hn : 0 < n) (h : chr '0' ∈ digits 10 n) :
    (digits 10 n).takeWhile (IsWidth ·) ≠ [] ∧
      (digits 10 n).dropWhile (IsWidth ·) = chr '0' :: ((digits 10 n).dropWhile (IsWidth ·)).tail := by
  obtain ⟨c, l, hhead, hc⟩ := digits_head hn
  have hsub := List.dropWhile_subset (l := digits 10 n) (IsWidth ·)
  constructor
  · have hmem : c ∈ digits 10 n := by
      rw [hhead]
      exact List.mem_cons_self
    have htaken := decide_eq_true (isWidth_of_mem_digits hmem hc)
    rw [hhead, List.takeWhile_cons_of_pos (p := (IsWidth ·)) htaken]
    exact List.cons_ne_nil _ _
  · have hne : (digits 10 n).dropWhile (IsWidth ·) ≠ [] := by
      rw [Ne, List.dropWhile_eq_nil_iff]
      intro hall
      exact absurd (of_decide_eq_true (hall _ h)) (by decide)
    have hfirst := List.head_dropWhile_not (IsWidth ·) hne
    generalize (digits 10 n).dropWhile (IsWidth ·) = drop at *
    cases drop with
    | nil => exact absurd rfl hne
    | cons z tail =>
      have hz : z = chr '0' := by
        by_contra hz
        exact absurd (isWidth_of_mem_digits (hsub List.mem_cons_self) hz) (of_decide_eq_false hfirst)
      rw [List.tail_cons, hz]

theorem length_digits_le_iff {n k : ℕ} (hk : 0 < k) : (digits 10 n).length ≤ k ↔ n < 10 ^ k := by
  rw [digits, List.length_map, Nat.length_toDigits_le_iff (by decide) hk]

/-- A width with a zero: it is at least 10, and the zero follows other digits. -/
theorem widthText_of_zero (h : chr '0' ∈ d.widthText) :
    10 ≤ d.columns ∧ (d.widthText.dropWhile (IsWidth ·)).tail.length ≤ 1 ∧ d.widthText.takeWhile (IsWidth ·) ≠ [] ∧
      d.widthText.dropWhile (IsWidth ·) = chr '0' :: (d.widthText.dropWhile (IsWidth ·)).tail ∧
      ∀ c ∈ (d.widthText.dropWhile (IsWidth ·)).tail, c ≠ chr '%' := by
  have hcols := columns_le d
  obtain ⟨w, hpos, htext, hw⟩ : ∃ w, 0 < w ∧ d.widthText = digits 10 w ∧ d.columns = w := by
    unfold Directive.widthText Directive.columns at *
    cases hwidth : d.width with
    | none =>
      rw [hwidth] at h
      exact absurd h List.not_mem_nil
    | some w => exact ⟨w, w.2.1, rfl, rfl⟩
  rw [htext] at h ⊢
  rw [hw] at hcols ⊢
  obtain ⟨htake, hdrop⟩ := digits_split hpos h
  have hsub := List.dropWhile_subset (l := digits 10 w) (IsWidth ·)
  -- one digit at least in front of the zero, and three at most
  have hfront := List.length_pos_iff.mpr htake
  have hthree : (digits 10 w).length ≤ 3 := (length_digits_le_iff (by decide)).mpr (by omega)
  have hone := length_digits_le_iff (n := w) (by decide : 0 < 1)
  have htotal := congrArg List.length (List.takeWhile_append_dropWhile (p := (IsWidth ·)) (l := digits 10 w))
  rw [List.length_append, hdrop, List.length_cons] at htotal
  refine ⟨by omega, by omega, htake, hdrop, fun c hc => ?_⟩
  exact (ne_of_mem_digits (hsub (List.mem_of_mem_tail hc))).2

/-- A width without a zero is read as it stands. -/
theorem widthText_of_no_zero (h : chr '0' ∉ d.widthText) :
    (∀ c ∈ d.widthText, IsWidth c) ∧ widthValue 0 d.widthText = BitVec.ofNat 8 d.columns := by
  unfold Directive.widthText Directive.columns at *
  cases hwidth : d.width with
  | none => exact ⟨List.forall_mem_nil _, rfl⟩
  | some w =>
    rw [hwidth] at h
    exact ⟨fun c hc => isWidth_of_mem_digits hc fun heq => h (heq ▸ hc), widthValue_digits w⟩

theorem fill_ne_minus (d : Directive) : d.fill ≠ chr '-' := by
  unfold Directive.fill
  cases d.pad with
  | none => decide
  | some pad => cases pad <;> decide

theorem minus_not_mem_justify {count : ℕ} {text : List Byte} (h : chr '-' ∉ text) :
    chr '-' ∉ justify count d.fill d.right text := by
  have hpads : chr '-' ∉ List.replicate count d.fill := fun hmem =>
    fill_ne_minus d (List.eq_of_mem_replicate hmem).symm
  unfold justify
  split_ifs <;> simp [h, hpads]

/-- A negative argument of `d` has a sign only in the reference. -/
theorem minus_mem_reference (hd : d.conversion = .d) (hv : ¬v.toNat < 2 ^ 31) : chr '-' ∈ d.reference C v := by
  have hneg : v.toInt < 0 := by
    rw [BitVec.toInt_eq_toNat_cond, if_neg (by omega)]
    have := v.isLt
    omega
  unfold Directive.reference
  rw [hd, if_neg (by decide), Conversion.reference, if_pos hneg]
  unfold justify
  split_ifs <;> simp

/-- The number conversions of the code spell unsigned numbers. -/
theorem printed_number (C : Call) (v : BitVec 32) :
    Conversion.printed C v .d = digits 10 v.toNat ∧ Conversion.printed C v .u = digits 10 v.toNat ∧
      Conversion.printed C v .x = digits 16 v.toNat := ⟨itoa_eq v, itoa_eq v, htoa_eq v⟩

/-- The texts are the same but for negative numbers. -/
theorem printed_eq_conversion (hsign : d.conversion = .d → v.toNat < 2 ^ 31) :
    d.conversion.printed C v = d.conversion.reference C v := by
  cases hconv : d.conversion with
  | d =>
    have hv := hsign hconv
    have hint : v.toInt = v.toNat := BitVec.toInt_eq_toNat_of_lt (by omega)
    rw [Conversion.printed, itoa_eq, Conversion.reference, hint, if_neg (by omega), Int.natAbs_natCast]
  | u => exact itoa_eq v
  | x => exact htoa_eq v
  | s => rfl
  | c => rfl

/-- After a zero in the width the text is too short. -/
theorem printed_ne_of_zero (hzero : chr '0' ∈ d.widthText) : d.printed C v ≠ d.reference C v := by
  intro h
  obtain ⟨hcols, htail, -⟩ := widthText_of_zero hzero
  have hlen := congrArg List.length h
  unfold Directive.printed Directive.reference at hlen
  dsimp only at hlen
  rw [if_pos hzero, List.length_cons, List.length_append, List.length_singleton] at hlen
  split_ifs at hlen with hc
  · rw [hc, Conversion.reference, List.length_singleton] at hlen
    omega
  · rw [length_justify] at hlen
    omega

theorem printed_of_no_zero (hzero : chr '0' ∉ d.widthText) :
    d.printed C v = if d.conversion = .c then d.conversion.printed C v
      else justify (padCount d.columns (d.conversion.printed C v)) d.fill d.right (d.conversion.printed C v) :=
  if_neg hzero

/-- A negative number has lost its sign. -/
theorem printed_ne_of_negative (hzero : chr '0' ∉ d.widthText) (hd : d.conversion = .d) (hv : ¬v.toNat < 2 ^ 31) :
    d.printed C v ≠ d.reference C v := by
  intro h
  have hmem := minus_mem_reference (C := C) hd hv
  rw [← h, printed_of_no_zero hzero, hd, if_neg (by decide)] at hmem
  refine minus_not_mem_justify ?_ hmem
  rw [(printed_number C v).1]
  exact fun hminus => (ne_of_mem_digits hminus).1 rfl

/-- Where the texts are the same, the pads decide. -/
theorem printed_eq_iff_padCount (hzero : chr '0' ∉ d.widthText) (hsign : d.conversion = .d → v.toNat < 2 ^ 31) :
    d.printed C v = d.reference C v ↔ (d.conversion ≠ .c → d.columns ≠ 0 →
      (d.conversion.printed C v).length ≤ 127 ∨
        (d.columns : ℤ) ≤ (BitVec.ofNat 8 (d.conversion.printed C v).length).toInt) := by
  rw [printed_of_no_zero hzero, printed_eq_conversion (C := C) hsign]
  unfold Directive.reference
  dsimp only
  by_cases hc : d.conversion = .c
  · rw [if_pos hc, if_pos hc]
    exact iff_of_true rfl fun h => absurd hc h
  · rw [if_neg hc, if_neg hc, justify_inj, padCount_eq_iff (columns_le d), imp_iff_right hc]

/-- What the code writes for a directive is the reference exactly if the directive is fine. -/
theorem printed_eq_reference_iff (C : Call) (v : BitVec 32) (d : Directive) :
    d.printed C v = d.reference C v ↔ d.Fine C v := by
  by_cases hzero : chr '0' ∈ d.widthText
  · exact iff_of_false (printed_ne_of_zero hzero) fun h => h.width hzero
  by_cases hsign : d.conversion = .d → v.toNat < 2 ^ 31
  · rw [printed_eq_iff_padCount hzero hsign]
    constructor
    · intro hlen
      refine ⟨hzero, hsign, fun hs => ?_⟩
      have hstring := hlen (by rw [hs]; decide)
      rwa [hs] at hstring
    · intro hfine hc hcols
      obtain ⟨hd, hu, hx⟩ := printed_number C v
      cases hconv : d.conversion with
      | d => exact Or.inl (hd ▸ (length_digits (by decide) v).trans (by decide))
      | u => exact Or.inl (hu ▸ (length_digits (by decide) v).trans (by decide))
      | x => exact Or.inl (hx ▸ (length_digits (by decide) v).trans (by decide))
      | s => exact hfine.length hconv hcols
      | c => exact absurd hconv hc
  · obtain ⟨hd, hv⟩ := Classical.not_imp.mp hsign
    exact iff_of_false (printed_ne_of_negative hzero hd hv) fun h => hsign h.sign

end Directives

/-! ### Runs over the pieces -/

/-- The state without the record of what has been read, on which no step depends. -/
def forget (s : State) : State := { s with reads := [] }

/-- Some number of steps leads from `s` to `t`, whatever they read. -/
def Goes (C : Call) (s t : State) : Prop := ∃ n, forget (run C n s) = forget t

section Goes

variable {C : Call} {d : Directive} {s t u : State} {p a : ℕ} {num sym c : Byte} {right : Bool} {out : List Byte}

theorem forget_step (s : State) : forget (step C (forget s)) = forget (step C s) := by
  obtain ⟨label, pos, arg, num, sym, padRight, out, reads⟩ := s
  cases label with
  | loop =>
    show forget (stepLoop C ⟨.loop, pos, arg, num, sym, padRight, out, []⟩) = forget (stepLoop C _)
    unfold stepLoop
    dsimp only [fetch]
    split_ifs <;> rfl
  | back c =>
    show forget (stepBack C c ⟨.back c, pos, arg, num, sym, padRight, out, []⟩) = forget (stepBack C c _)
    unfold stepBack
    dsimp only
    split_ifs <;> rfl
  | minus c =>
    show forget (stepMinus C c ⟨.minus c, pos, arg, num, sym, padRight, out, []⟩) = forget (stepMinus C c _)
    unfold stepMinus
    split_ifs <;> rfl
  | width c =>
    show forget (stepWidth C c ⟨.width c, pos, arg, num, sym, padRight, out, []⟩) = forget (stepWidth C c _)
    unfold stepWidth
    split_ifs <;> rfl
  | done => rfl

theorem forget_run (n : ℕ) (s : State) : forget (run C n (forget s)) = forget (run C n s) := by
  induction n with
  | zero => rfl
  | succ n ih =>
    rw [run_add, run_add]
    show forget (step C _) = forget (step C _)
    rw [← forget_step, ih, forget_step]

theorem Goes.refl (s : State) : Goes C s s := ⟨0, rfl⟩

theorem Goes.trans (h : Goes C s t) (h' : Goes C t u) : Goes C s u := by
  obtain ⟨n, hn⟩ := h
  obtain ⟨m, hm⟩ := h'
  refine ⟨n + m, ?_⟩
  rw [run_add, ← forget_run, hn, forget_run, hm]

theorem goes_step (h : forget (step C s) = forget t) : Goes C s t := ⟨1, h⟩

/-! One step at each label. -/

theorem goes_literal (hnul : C.format p ≠ 0) (hc : C.format p ≠ chr '%') :
    Goes C ⟨.loop, p, a, num, sym, right, out, []⟩
      ⟨.loop, p + 1, a, 0, chr ' ', false, out ++ [C.format p], []⟩ := by
  apply goes_step
  rw [step]
  dsimp only
  rw [stepLoop_literal hnul hc]
  rfl

theorem goes_percent (hc : C.format p = chr '%') :
    Goes C ⟨.loop, p, a, num, sym, right, out, []⟩
      ⟨.back (C.format (p + 1)), p + 1 + 1, a, 0, chr ' ', false, out, []⟩ := by
  apply goes_step
  rw [step]
  dsimp only
  rw [stepLoop_percent hc]
  rfl

theorem goes_pad (hbefore : C.format (p - 1) = chr '%') (hc : ¬IsConversion (C.format p)) (hpad : IsPad (C.format p)) :
    Goes C ⟨.back (C.format p), p + 1, a, num, sym, right, out, []⟩
      ⟨.minus (C.format (p + 1)), p + 1 + 1, a, num, C.format p, right, out, []⟩ := by
  apply goes_step
  rw [step]
  dsimp only
  rw [stepBack_flags hc hbefore, if_pos hpad]
  rfl

theorem goes_no_pad (hbefore : C.format (p - 1) = chr '%') (hc : ¬IsConversion (C.format p))
    (hpad : ¬IsPad (C.format p)) :
    Goes C ⟨.back (C.format p), p + 1, a, num, sym, right, out, []⟩
      ⟨.minus (C.format p), p + 1, a, num, sym, right, out, []⟩ := by
  apply goes_step
  rw [step]
  dsimp only
  rw [stepBack_flags hc hbefore, if_neg hpad]
  rfl

/-- An unknown conversion that does not follow `%`. -/
theorem goes_other (hbefore : C.format (p - 1) ≠ chr '%') (hc : ¬IsConversion c) :
    Goes C ⟨.back c, p + 1, a, num, sym, right, out, []⟩
      ⟨.loop, p + 1, a + 1, num, sym, right, out ++ [(C.args a).setWidth 8], []⟩ := by
  apply goes_step
  rw [step]
  dsimp only
  rw [stepBack_other hc hbefore]
  rfl

theorem goes_minus (d : Directive) {rest : List Byte} (hc : d.right = false → C.format p ≠ chr '-')
    (hformat : FormatAt C p (d.minusText ++ rest)) :
    Goes C ⟨.minus (C.format p), p + 1, a, num, sym, false, out, []⟩
      ⟨.width (C.format (p + d.minusText.length)), p + d.minusText.length + 1, a, 0, sym, d.right, out, []⟩ := by
  unfold Directive.minusText at *
  apply goes_step
  rw [step]
  dsimp only
  cases hright : d.right with
  | true =>
    rw [hright] at hformat
    rw [stepMinus, if_pos hformat.1]
    rfl
  | false =>
    rw [stepMinus, if_neg (hc hright)]
    rfl

theorem FormatAt.append {text rest : List Byte} (h : FormatAt C p (text ++ rest)) :
    FormatAt C (p + text.length) rest := by
  induction text generalizing p with
  | nil => exact h
  | cons c text ih =>
    have htail := ih h.2.2
    rwa [List.length_cons, ← Nat.add_assoc, Nat.add_right_comm]

theorem FormatAt.head {text rest : List Byte} (h : FormatAt C p (text ++ rest)) (hne : text ≠ []) :
    C.format p ∈ text := by
  cases text with
  | nil => exact absurd rfl hne
  | cons c text =>
    obtain rfl : C.format p = c := h.1
    exact List.mem_cons_self

/-- The last character of a piece of the format. -/
theorem FormatAt.last {text rest : List Byte} (h : FormatAt C p (text ++ rest)) (hne : text ≠ []) :
    C.format (p + text.length - 1) ∈ text := by
  obtain ⟨front, c, rfl⟩ := List.eq_nil_or_concat text |>.resolve_left hne
  rw [List.concat_eq_append, List.append_assoc] at h
  rw [List.concat_eq_append, List.length_append, List.length_singleton, ← Nat.add_assoc, Nat.add_sub_cancel,
    h.append.1]
  exact List.mem_append_right _ List.mem_cons_self

/-- The loop over the digits of the width, and back to the `switch`. -/
theorem goes_width {c : Byte} {rest : List Byte} (hc : ¬IsWidth c) (text : List Byte) (htext : ∀ w ∈ text, IsWidth w) :
    ∀ (p : ℕ) (num : Byte), FormatAt C p (text ++ c :: rest) →
      Goes C ⟨.width (C.format p), p + 1, a, num, sym, right, out, []⟩
        ⟨.back c, p + text.length + 1, a, widthValue num text, sym, right, out, []⟩ := by
  induction text with
  | nil =>
    intro p num hformat
    obtain rfl : C.format p = c := hformat.1
    apply goes_step
    rw [step]
    dsimp only
    rw [stepWidth, if_neg hc]
    rfl
  | cons w text ih =>
    intro p num hformat
    obtain ⟨rfl, -, hrest⟩ := hformat
    obtain ⟨hw, htext⟩ := List.forall_mem_cons.mp htext
    have hfirst : Goes C ⟨.width (C.format p), p + 1, a, num, sym, right, out, []⟩
        ⟨.width (C.format (p + 1)), p + 1 + 1, a, num * 10 + (C.format p - chr '0'), sym, right, out, []⟩ := by
      apply goes_step
      rw [step]
      dsimp only
      rw [stepWidth, if_pos hw]
      rfl
    have hloop := hfirst.trans (ih htext (p + 1) _ hrest)
    rwa [List.length_cons, ← Nat.add_assoc, Nat.add_right_comm p text.length 1]

theorem minus_of_mem (d : Directive) {text : List Byte} (htext : ∀ w ∈ text, IsWidth w) :
    ∀ w ∈ d.minusText ++ text, w = chr '-' ∨ IsWidth w := by
  have hminus : ∀ w ∈ d.minusText, w = chr '-' := by
    unfold Directive.minusText
    cases d.right <;> decide
  intro w hw
  exact (List.mem_append.mp hw).imp (hminus w) (htext w)

theorem flag_of_mem (d : Directive) {text : List Byte} (htext : ∀ w ∈ text, IsWidth w) :
    ∀ w ∈ d.padText ++ (d.minusText ++ text), IsPad w ∨ w = chr '-' ∨ IsWidth w := by
  have hpad : ∀ w ∈ d.padText, IsPad w := by
    unfold Directive.padText
    cases d.pad with
    | none => exact List.forall_mem_nil _
    | some pad => cases pad <;> decide
  intro w hw
  exact (List.mem_append.mp hw).imp (hpad w) (minus_of_mem d htext w)

/-- The characters are told apart. -/
theorem not_isPad {c : Byte} (hc : c = chr '-' ∨ IsWidth c) : ¬IsPad c := by
  revert c
  decide

theorem not_minus {c : Byte} (hc : IsWidth c ∨ IsConversion c ∨ c = chr '0') : c ≠ chr '-' := by
  revert c
  decide

theorem not_isWidth {c : Byte} (hc : IsConversion c ∨ c = chr '0') : ¬IsWidth c := by
  revert c
  decide

/-- The pad character. -/
theorem goes_padText (d : Directive) {rest : List Byte} (hbefore : C.format (p - 1) = chr '%')
    (hc : ¬IsConversion (C.format p)) (hpad : d.padText = [] → ¬IsPad (C.format p))
    (hformat : FormatAt C p (d.padText ++ rest)) :
    Goes C ⟨.back (C.format p), p + 1, a, 0, chr ' ', false, out, []⟩
      ⟨.minus (C.format (p + d.padText.length)), p + d.padText.length + 1, a, 0, d.fill, false, out, []⟩ := by
  unfold Directive.padText Directive.fill at *
  cases hd : d.pad with
  | none =>
    rw [hd] at hpad
    exact goes_no_pad hbefore hc (hpad rfl)
  | some pad =>
    rw [hd] at hformat
    have hchar : C.format p = pad.char := hformat.1
    have hispad : IsPad (C.format p) := by
      rw [hchar]
      cases pad <;> decide
    have hgoes : Goes C ⟨.back (C.format p), p + 1, a, 0, chr ' ', false, out, []⟩
        ⟨.minus (C.format (p + 1)), p + 1 + 1, a, 0, C.format p, false, out, []⟩ := goes_pad hbefore hc hispad
    rw [hchar] at hgoes ⊢
    exact hgoes

theorem fill_of_padText (h : d.padText = []) : d.fill = chr ' ' := by
  unfold Directive.padText at h
  unfold Directive.fill
  cases hd : d.pad with
  | none => rfl
  | some pad =>
    rw [hd] at h
    cases h

theorem right_of_minusText (h : d.minusText = []) : d.right = false := by
  unfold Directive.minusText at h
  by_contra hne
  rw [if_pos (by simpa using hne)] at h
  cases h

/-- The flags and the width of a directive, up to the character behind them. -/
theorem goes_flags (d : Directive) {c : Byte} {text rest : List Byte} (hbefore : C.format (p - 1) = chr '%')
    (htext : ∀ w ∈ text, IsWidth w) (hc : IsConversion c ∨ text ≠ [] ∧ c = chr '0')
    (hformat : FormatAt C p (d.padText ++ (d.minusText ++ (text ++ c :: rest)))) :
    ∃ q, q = p + d.padText.length + d.minusText.length + text.length ∧ FormatAt C q (c :: rest) ∧
      (IsConversion c ∨ C.format (q - 1) ≠ chr '%') ∧
      ∀ out, Goes C ⟨.back (C.format p), p + 1, a, 0, chr ' ', false, out, []⟩
        ⟨.back c, q + 1, a, widthValue 0 text, d.fill, d.right, out, []⟩ := by
  have hflag := flag_of_mem d htext
  have hend : IsConversion c ∨ c = chr '0' := hc.imp_right And.right
  have hall : FormatAt C p ((d.padText ++ (d.minusText ++ text)) ++ c :: rest) := by
    rw [List.append_assoc, List.append_assoc]
    exact hformat
  refine ⟨_, rfl, hformat.append.append.append, ?_⟩
  by_cases hempty : d.padText ++ (d.minusText ++ text) = []
  · -- the conversion follows `%` at once
    obtain ⟨hpad, hrest⟩ := List.append_eq_nil_iff.mp hempty
    obtain ⟨hminus, rfl⟩ := List.append_eq_nil_iff.mp hrest
    have hconv := hc.resolve_right fun h => h.1 rfl
    rw [hempty] at hall
    obtain rfl : C.format p = c := hall.1
    rw [fill_of_padText hpad, right_of_minusText hminus, hpad, hminus]
    exact ⟨Or.inl hconv, fun _ => Goes.refl _⟩
  · have hlast := hall.last hempty
    have hhead := flag_ne (hflag _ (hall.head hempty))
    rw [List.length_append, List.length_append, ← Nat.add_assoc, ← Nat.add_assoc] at hlast
    refine ⟨Or.inr (flag_ne (hflag _ hlast)).2, fun out => ?_⟩
    have hpad : d.padText = [] → ¬IsPad (C.format p) := by
      intro hnone
      have hmem := hall.head hempty
      rw [hnone, List.nil_append] at hmem
      exact not_isPad (minus_of_mem d htext _ hmem)
    have hminus : d.right = false → C.format (p + d.padText.length) ≠ chr '-' := by
      intro hright
      have hnone : d.minusText = [] := if_neg (by simp [hright])
      have hrest := hformat.append
      rw [hnone, List.nil_append] at hrest
      by_cases htext' : text = []
      · subst htext'
        rw [hrest.1]
        exact not_minus (Or.inr hend)
      · exact not_minus (Or.inl (htext _ (hrest.head htext')))
    exact ((goes_padText d hbefore hhead.1 hpad hformat).trans (goes_minus d hminus hformat.append)).trans
      (goes_width (not_isWidth hend) text htext _ _ hformat.append.append)

/-- The `switch` on a conversion. -/
theorem goes_conversion (k : Conversion) {columns : ℕ} (hcols : columns ≤ 127) :
    Goes C ⟨.back k.char, p, a, BitVec.ofNat 8 columns, sym, right, out, []⟩
      ⟨.loop, p, a + 1, BitVec.ofNat 8 columns, sym, right,
        out ++ if k = .c then k.printed C (C.args a) else
          justify (padCount columns (k.printed C (C.args a))) sym right (k.printed C (C.args a)), []⟩ := by
  have hnum : ∀ text, (if BitVec.ofNat 8 columns ≠ 0 then padding (BitVec.ofNat 8 columns) text else 0).toNat =
      padCount columns text := by
    intro text
    have hzero : BitVec.ofNat 8 columns = 0 ↔ columns = 0 := by
      rw [← BitVec.toNat_inj, BitVec.toNat_ofNat, show (0 : Byte).toNat = 0 from rfl]
      omega
    unfold padCount
    by_cases h : columns = 0
    · rw [if_neg (not_not_intro (hzero.mpr h)), if_pos h]
      rfl
    · rw [if_pos (mt hzero.mp h), if_neg h]
  have hput : ∀ (text : List Byte) (label : Label), forget (putString text
      ⟨label, p, a + 1, BitVec.ofNat 8 columns, sym, right, out, []⟩) =
      ⟨.loop, p, a + 1, BitVec.ofNat 8 columns, sym, right, out ++ justify (padCount columns text) sym right text, []⟩ := by
    intro text label
    unfold putString pads justify forget
    dsimp only
    rw [hnum]
    cases right <;> simp
  apply goes_step
  rw [step]
  dsimp only
  cases k with
  | d =>
    exact (congrArg forget (stepBack_number (Or.inl rfl) _)).trans (hput (itoa (C.args a)) _)
  | u =>
    exact (congrArg forget (stepBack_number (Or.inr (Or.inl rfl)) _)).trans (hput (itoa (C.args a)) _)
  | x =>
    exact (congrArg forget (stepBack_number (Or.inr (Or.inr rfl)) _)).trans (hput (htoa (C.args a)) _)
  | s => exact hput (C.string (C.args a)) _
  | c => rfl

end Goes

/-- From the head of the loop to the head of the loop, with the text written in between. -/
def Prints (C : Call) (p a : ℕ) (text : List Byte) (p' a' : ℕ) : Prop :=
  ∀ num sym right out, ∃ num' sym' right', Goes C ⟨.loop, p, a, num, sym, right, out, []⟩
    ⟨.loop, p', a', num', sym', right', out ++ text, []⟩

section Prints

variable {C : Call} {p p' p'' a a' a'' : ℕ} {text text' rest : List Byte} {c : Byte}

theorem Prints.refl (C : Call) (p a : ℕ) : Prints C p a [] p a := by
  intro num sym right out
  rw [List.append_nil]
  exact ⟨num, sym, right, Goes.refl _⟩

theorem Prints.trans (h : Prints C p a text p' a') (h' : Prints C p' a' text' p'' a'') :
    Prints C p a (text ++ text') p'' a'' := by
  intro num sym right out
  obtain ⟨num₁, sym₁, right₁, hgoes⟩ := h num sym right out
  obtain ⟨num₂, sym₂, right₂, hgoes'⟩ := h' num₁ sym₁ right₁ (out ++ text)
  rw [← List.append_assoc]
  exact ⟨num₂, sym₂, right₂, hgoes.trans hgoes'⟩

theorem prints_literals (htext : ∀ c ∈ text, c ≠ chr '%') :
    ∀ p, FormatAt C p (text ++ rest) → Prints C p a text (p + text.length) a := by
  induction text with
  | nil => exact fun p _ => Prints.refl C p a
  | cons c text ih =>
    rintro p ⟨rfl, hnul, hrest⟩
    obtain ⟨hc, htext⟩ := List.forall_mem_cons.mp htext
    have hfirst : Prints C p a [C.format p] (p + 1) a := fun num sym right out =>
      ⟨_, _, _, goes_literal hnul hc⟩
    have hall := hfirst.trans (ih htext (p + 1) hrest)
    rwa [List.length_cons, ← Nat.add_assoc, Nat.add_right_comm]

theorem isConversion_char (k : Conversion) : IsConversion k.char := by
  cases k <;> decide

theorem length_text (d : Directive) :
    d.text.length = 1 + d.padText.length + d.minusText.length + d.widthText.length + 1 := by
  unfold Directive.text
  simp only [List.length_cons, List.length_append, List.length_nil]
  omega

/-- A directive with a zero in its width: the zero takes the argument, and the rest is text. -/
theorem prints_zero (d : Directive) (hzero : chr '0' ∈ d.widthText) (hpercent : C.format p = chr '%')
    (hformat : FormatAt C (p + 1) (d.padText ++ (d.minusText ++ (d.widthText ++ d.conversion.char :: rest)))) :
    Prints C p a (d.printed C (C.args a)) (p + d.text.length) (a + 1) := by
  obtain ⟨-, -, hdigits, hdrop, htail⟩ := widthText_of_zero hzero
  have hprinted : d.printed C (C.args a) = _ := if_pos hzero
  rw [hprinted, length_text]
  have hsplit := List.takeWhile_append_dropWhile (p := (IsWidth ·)) (l := d.widthText)
  have hwidth : ∀ c ∈ d.widthText.takeWhile (IsWidth ·), IsWidth c := fun c hc =>
    of_decide_eq_true (List.mem_takeWhile_imp (p := fun c => decide (IsWidth c)) hc)
  generalize d.widthText.takeWhile (IsWidth ·) = front at *
  rw [hdrop] at hsplit
  generalize (d.widthText.dropWhile (IsWidth ·)).tail = tail at *
  rw [← hsplit, List.append_assoc, List.cons_append] at hformat
  obtain ⟨q, hq, hback, hbefore, hflags⟩ := goes_flags (a := a) d
    (by rw [Nat.add_sub_cancel]; exact hpercent) hwidth (Or.inr ⟨hdigits, rfl⟩) hformat
  have hno : ¬IsConversion (chr '0') := by decide
  have hfirst : Prints C p a [(C.args a).setWidth 8] (q + 1) (a + 1) := fun num sym right out =>
    ⟨_, _, _, ((goes_percent hpercent).trans (hflags out)).trans (goes_other (hbefore.resolve_left hno) hno)⟩
  have hliteral : FormatAt C (q + 1) ((tail ++ [d.conversion.char]) ++ rest) := by
    rw [List.append_assoc]
    exact hback.2.2
  have hchars : ∀ c ∈ tail ++ [d.conversion.char], c ≠ chr '%' := by
    intro c hc
    rcases List.mem_append.mp hc with hc | hc
    · exact htail c hc
    · rw [List.mem_singleton.mp hc]
      cases d.conversion <;> decide
  have hall := hfirst.trans (prints_literals (a := a + 1) hchars (q + 1) hliteral)
  have hend : q + 1 + (tail ++ [d.conversion.char]).length =
      p + (1 + d.padText.length + d.minusText.length + d.widthText.length + 1) := by
    rw [hq, ← hsplit]
    simp only [List.length_append, List.length_cons, List.length_nil]
    omega
  rw [hend] at hall
  exact hall

theorem prints_directive (d : Directive) (hformat : FormatAt C p (d.text ++ rest)) :
    Prints C p a (d.printed C (C.args a)) (p + d.text.length) (a + 1) := by
  obtain ⟨hpercent, -, hrest⟩ := hformat
  have hdirective : FormatAt C (p + 1)
      (d.padText ++ (d.minusText ++ (d.widthText ++ d.conversion.char :: rest))) := by
    simpa only [List.append_eq, List.append_assoc, List.cons_append, List.nil_append] using hrest
  by_cases hzero : chr '0' ∈ d.widthText
  · exact prints_zero d hzero hpercent hdirective
  · obtain ⟨hwidth, hvalue⟩ := widthText_of_no_zero hzero
    have hprinted : d.printed C (C.args a) = _ := if_neg hzero
    rw [hprinted]
    intro num sym right out
    obtain ⟨q, hq, -, -, hflags⟩ := goes_flags (a := a) d (by rw [Nat.add_sub_cancel]; exact hpercent) hwidth
      (Or.inl (isConversion_char d.conversion)) hdirective
    have hend : p + d.text.length = q + 1 := by
      rw [length_text, hq]
      omega
    rw [hvalue] at hflags
    rw [hend]
    exact ⟨_, _, _, ((goes_percent hpercent).trans (hflags out)).trans (goes_conversion d.conversion (columns_le d))⟩

end Prints

/-! ### The whole format -/

/-- The call returns and has written `text`. -/
def Writes (C : Call) (text : List Byte) : Prop :=
  ∃ n, (run C n (vprintf true)).label = .done ∧ (run C n (vprintf true)).out = text

/-- Every directive of the pieces comes out right, with the arguments from `a` on. -/
def AllFine (C : Call) : ℕ → List Piece → Prop
  | _, [] => True
  | a, .literal _ :: pieces => AllFine C a pieces
  | a, .directive d :: pieces => d.Fine C (C.args a) ∧ AllFine C (a + 1) pieces

section Format

variable {C : Call} {p a : ℕ} {pieces front back : List Piece} {rest text text' : List Byte}

theorem Writes.unique (h : Writes C text) (h' : Writes C text') : text = text' := by
  obtain ⟨n, hdone, rfl⟩ := h
  obtain ⟨m, hdone', rfl⟩ := h'
  rw [done_unique hdone hdone']

theorem prints_pieces (pieces : List Piece) : ∀ (p a : ℕ), FormatAt C p (spell pieces ++ rest) →
    Prints C p a (printed C a pieces) (p + (spell pieces).length) (a + taken pieces) := by
  induction pieces with
  | nil => exact fun p a _ => Prints.refl C p a
  | cons piece pieces ih =>
    intro p a hformat
    cases piece with
    | literal c =>
      have hspell : spell (.literal c :: pieces) = [c.1] ++ spell pieces := rfl
      rw [hspell, List.append_assoc] at hformat
      have hfirst : Prints C p a [c.1] (p + 1) a :=
        prints_literals (by simpa using c.2.2) p hformat
      have hall := hfirst.trans (ih (p + 1) a hformat.append)
      rw [hspell, List.length_append, ← Nat.add_assoc]
      exact hall
    | directive d =>
      have hspell : spell (.directive d :: pieces) = d.text ++ spell pieces := rfl
      rw [hspell, List.append_assoc] at hformat
      have hall := (prints_directive (a := a) d hformat).trans (ih (p + d.text.length) (a + 1) hformat.append)
      rw [hspell, List.length_append, ← Nat.add_assoc, taken, ← Nat.add_assoc, Nat.add_right_comm a]
      exact hall

/-- The code writes what it makes of each piece, and returns. -/
theorem vprintf_writes (hformat : FormatAt C 0 (spell pieces)) : Writes C (printed C 0 pieces) := by
  have hformat' : FormatAt C 0 (spell pieces ++ []) := by rwa [List.append_nil]
  obtain ⟨num, sym, right, n, hn⟩ := prints_pieces pieces 0 0 hformat' 0 (chr ' ') false []
  have hend : C.format (spell pieces).length = 0 := by
    have hnul : C.format (0 + (spell pieces).length) = 0 := hformat'.append
    rwa [Nat.zero_add] at hnul
  have hstart : vprintf true = ⟨.loop, 0, 0, 0, chr ' ', false, [], []⟩ := rfl
  rw [← hstart, Nat.zero_add, Nat.zero_add, List.nil_append] at hn
  have hlast : forget (run C (n + 1) (vprintf true)) = forget (step C
      ⟨.loop, (spell pieces).length, taken pieces, num, sym, right, printed C 0 pieces, []⟩) := by
    rw [run_add]
    show forget (step C _) = _
    rw [← forget_step, hn, forget_step]
  have hnul : forget (step C ⟨.loop, (spell pieces).length, taken pieces, num, sym, right, printed C 0 pieces, []⟩) =
      ⟨.done, (spell pieces).length + 1, taken pieces, num, sym, right, printed C 0 pieces, []⟩ :=
    congrArg forget (stepLoop_nul hend)
  rw [hnul] at hlast
  exact ⟨n + 1, congrArg State.label hlast, congrArg State.out hlast⟩

theorem printed_of_fine : ∀ (a : ℕ) (pieces : List Piece), AllFine C a pieces →
    printed C a pieces = reference C a pieces
  | _, [], _ => rfl
  | a, .literal c :: pieces, h => congrArg (c.1 :: ·) (printed_of_fine a pieces h)
  | a, .directive d :: pieces, ⟨hd, h⟩ => by
    rw [printed, reference, (printed_eq_reference_iff C _ d).mpr hd, printed_of_fine (a + 1) pieces h]

theorem printed_append (a : ℕ) (front back : List Piece) :
    printed C a (front ++ back) = printed C a front ++ printed C (a + taken front) back := by
  induction front generalizing a with
  | nil => rfl
  | cons piece front ih =>
    cases piece with
    | literal c => exact congrArg (c.1 :: ·) (ih a)
    | directive d =>
      rw [List.cons_append, printed, ih, printed, List.append_assoc, taken, ← Nat.add_assoc, Nat.add_right_comm a]

theorem reference_append (a : ℕ) (front back : List Piece) :
    reference C a (front ++ back) = reference C a front ++ reference C (a + taken front) back := by
  induction front generalizing a with
  | nil => rfl
  | cons piece front ih =>
    cases piece with
    | literal c => exact congrArg (c.1 :: ·) (ih a)
    | directive d =>
      rw [List.cons_append, reference, ih, reference, List.append_assoc, taken, ← Nat.add_assoc, Nat.add_right_comm a]

end Format

/-- For every format and every argument list: if all directives are fine, the call writes the
reference text; and if all but one are, it writes it exactly if that one is fine as well. -/
theorem vprintf_reference (C : Call) (pieces : List Piece) (hformat : FormatAt C 0 (spell pieces)) :
    (AllFine C 0 pieces → Writes C (reference C 0 pieces)) ∧
    ∀ front d back, pieces = front ++ .directive d :: back → AllFine C 0 front → AllFine C (taken front + 1) back →
      (Writes C (reference C 0 pieces) ↔ d.Fine C (C.args (taken front))) := by
  have hwrites := vprintf_writes hformat
  refine ⟨fun hfine => printed_of_fine 0 pieces hfine ▸ hwrites, ?_⟩
  rintro front d back rfl hfront hback
  have hprinted : printed C 0 (front ++ .directive d :: back) =
      reference C 0 front ++ (d.printed C (C.args (taken front)) ++ reference C (taken front + 1) back) := by
    rw [printed_append, printed_of_fine 0 front hfront, Nat.zero_add, printed, printed_of_fine _ back hback]
  have hreference : reference C 0 (front ++ .directive d :: back) =
      reference C 0 front ++ (d.reference C (C.args (taken front)) ++ reference C (taken front + 1) back) := by
    rw [reference_append, Nat.zero_add, reference]
  rw [← printed_eq_reference_iff C, hreference]
  rw [hprinted] at hwrites
  constructor
  · intro h
    exact List.append_cancel_right (List.append_cancel_left (hwrites.unique h))
  · intro h
    rwa [← h]

/-- A directive without flags or width. -/
def plain (conversion : Conversion) : Piece := .directive ⟨none, false, none, conversion⟩

/-- A call with a format and one argument. -/
def callWith (text : List Byte) (v : BitVec 32) : Call := ⟨fun i => text.getD i 0, fun _ => v, fun _ => []⟩

def bar : Piece := .literal ⟨chr '|', by decide⟩

/-- `%05d|%-4s|%3x`. -/
def columnsPieces : List Piece :=
  [.directive ⟨some .zero, false, some ⟨5, by decide⟩, .d⟩, bar,
    .directive ⟨none, true, some ⟨4, by decide⟩, .s⟩, bar, .directive ⟨none, false, some ⟨3, by decide⟩, .x⟩]

def columnsCall : Call where
  format i := (['%', '0', '5', 'd', '|', '%', '-', '4', 's', '|', '%', '3', 'x'].map chr).getD i 0
  args a := [42, 0x1000, 255].getD a 0
  str _ := ['a', 'b'].map chr

theorem vprintf_reference_columns : Writes columnsCall
    (['0', '0', '0', '4', '2', '|', 'a', 'b', ' ', ' ', '|', ' ', 'f', 'f'].map chr) := by
  have hspell : spell columnsPieces =
      ['%', '0', '5', 'd', '|', '%', '-', '4', 's', '|', '%', '3', 'x'].map chr := by decide
  have hformat : FormatAt columnsCall 0 (spell columnsPieces) := by
    rw [hspell]
    simp [FormatAt, columnsCall, chr]
  have hfine : AllFine columnsCall 0 columnsPieces :=
    ⟨⟨by decide, by decide, fun h => absurd h (by decide)⟩, ⟨by decide, by decide, fun _ _ => Or.inl (by decide)⟩,
      ⟨by decide, by decide, fun h => absurd h (by decide)⟩, trivial⟩
  have hwrites := (vprintf_reference columnsCall columnsPieces hformat).1 hfine
  have htext : reference columnsCall 0 columnsPieces =
      ['0', '0', '0', '4', '2', '|', 'a', 'b', ' ', ' ', '|', ' ', 'f', 'f'].map chr := by decide
  rwa [htext] at hwrites

/-- `%d` of -1 writes 4294967295. -/
theorem negative_number_unsigned : ¬∀ (C : Call) (pieces : List Piece), FormatAt C 0 (spell pieces) →
    Writes C (reference C 0 pieces) := by
  intro hall
  have hformat : FormatAt (callWith (['%', 'd'].map chr) (-1)) 0 (spell [plain .d]) :=
    ⟨rfl, by decide, rfl, by decide, rfl⟩
  have heq := (hall _ _ hformat).unique (vprintf_writes hformat)
  revert heq
  decide

end JustKernel.Klibc
