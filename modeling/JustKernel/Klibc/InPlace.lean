import JustKernel.Base.ByteStore
import JustKernel.Klibc.CString
import JustKernel.Klibc.Numerals

/-! Numbers as text in memory, `klibc/string.c`. `utoa` and `_vtoa` write the digits from the lowest
on and then turn them around in place; `atou` reads them again. Places in the buffer are counted from
its start, as C compares two pointers into one array. -/

namespace JustKernel.Klibc.InPlace

open AddressSpace
open Memory (Byte)

/-- The exchange of two characters through a temporary one. -/
def swapChars (str : Addr) (m : Mem32) (i j : ℕ) : Mem32 :=
  let temp := m (str + BitVec.ofNat 32 i)
  let m := Function.update m (str + BitVec.ofNat 32 i) (m (str + BitVec.ofNat 32 j))
  Function.update m (str + BitVec.ofNat 32 j) temp

def reverseLoop (str : Addr) : Mem32 → ℕ → ℕ → Mem32
  | m, _, 0 => m
  | m, startIndex, endIndex + 1 =>
    if startIndex < endIndex + 1 then
      reverseLoop str (swapChars str m startIndex (endIndex + 1)) (startIndex + 1) endIndex
    else m

def reverse (m : Mem32) (str : Addr) : Option Mem32 := do
  let len ← strlen m str
  if len > 0 then
    let len ← strlen m str
    some (reverseLoop str m 0 (len - 1).toNat)
  else some (reverseLoop str m 0 0)

/-- The loop of `utoa` at the index `i`. A word has at most 32 digits in base 2, so that a fuel of 33
is never used up. -/
def utoaLoop (str : Addr) : ℕ → Mem32 → BitVec 32 → ℕ → Option (Mem32 × ℕ)
  | 0, _, _, _ => none
  | fuel + 1, m, n, i =>
    if n > 0 then
      utoaLoop str fuel (Function.update m (str + BitVec.ofNat 32 i) ((n % 10 + 48#32).setWidth 8)) (n / 10) (i + 1)
    else some (m, i)

def utoa (n : BitVec 32) (m : Mem32) (str : Addr) : Option Mem32 := do
  let (m, i) := if n = 0 then (Function.update m str (chr '0'), 1) else (m, 0)
  let (m, i) ← utoaLoop str 33 m n i
  reverse (Function.update m (str + BitVec.ofNat 32 i) 0) str

/-- The loop of `atou`; a `char` is signed. -/
def atouLoop (m : Mem32) : ℕ → Addr → BitVec 32 → Option (BitVec 32)
  | 0, _, _ => none
  | fuel + 1, str, result =>
    if m str ≠ 0 then atouLoop m fuel (str + 1) (result * 10 + ((m str).signExtend 32 - 48#32)) else some result

def atou (m : Mem32) (str : Addr) : Option (BitVec 32) := atouLoop m (2 ^ 32) str 0

/-- The first loop of `_vtoa`, with `ptr` and the last `tmp_value`; `value /= base` converts the signed
value to the unsigned type of the base. -/
def vtoaDigits (result : Addr) (base : BitVec 32) : ℕ → Mem32 → BitVec 32 → ℕ → Option (Mem32 × BitVec 32 × ℕ)
  | 0, _, _, _ => none
  | fuel + 1, m, value, ptr =>
    let tmpValue := value
    let value := value / base
    let m := Function.update m (result + BitVec.ofNat 32 ptr)
      (chr (vtoaTable.getD (35 + (tmpValue - value * base)).toNat '0'))
    if value = 0 then some (m, tmpValue, ptr + 1) else vtoaDigits result base fuel m value (ptr + 1)

/-- The second loop of `_vtoa`. -/
def vtoaReverse (result : Addr) : Mem32 → ℕ → ℕ → Mem32
  | m, _, 0 => m
  | m, ptr1, ptr + 1 =>
    if ptr1 < ptr + 1 then vtoaReverse result (swapChars result m (ptr + 1) ptr1) (ptr1 + 1) ptr else m

/-- `_vtoa` for a base from 1 to 36. Base 1 has a NUL written, which the first digit overwrites, and
the loop never ends for a value other than zero. -/
def vtoa (result : Addr) (base value : BitVec 32) (m : Mem32) : Option Mem32 := do
  let m := if base < 2 ∨ base > 36 then Function.update m result 0 else m
  let (m, tmpValue, ptr) ← vtoaDigits result base 32 m value 0
  let (m, ptr) :=
    if tmpValue.toInt < 0 then (Function.update m (result + BitVec.ofNat 32 ptr) (chr '-'), ptr + 1) else (m, ptr)
  some (vtoaReverse result (Function.update m (result + BitVec.ofNat 32 ptr) 0) 0 (ptr - 1))

def itoa (n : BitVec 32) (m : Mem32) (str : Addr) : Option Mem32 := vtoa str 10 n m

def htoa (n : BitVec 32) (m : Mem32) (str : Addr) : Option Mem32 := vtoa str 16 n m

variable {m : Mem32} {p str : Addr} {s xs : List Byte} {i j k : ℕ}

/-! ### Turning a string around -/

theorem swapChars_comm (str : Addr) (m : Mem32) (i j : ℕ) : swapChars str m i j = swapChars str m j i := by
  unfold swapChars
  by_cases heq : str + BitVec.ofNat 32 i = str + BitVec.ofNat 32 j
  · rw [heq]
  · exact Function.update_comm heq _ _ _

theorem vtoaReverse_eq (str : Addr) (m : Mem32) (i j : ℕ) : vtoaReverse str m i j = reverseLoop str m i j := by
  induction j generalizing m i with
  | zero => rfl
  | succ j ih => rw [vtoaReverse, reverseLoop, swapChars_comm, ih]

theorem swapChars_offset (hi : i < 2 ^ 32) (hj : j < 2 ^ 32) (hk : k < 2 ^ 32) :
    swapChars str m i j (str + BitVec.ofNat 32 k) =
      m (str + BitVec.ofNat 32 (if k = j then i else if k = i then j else k)) := by
  rw [swapChars, update_offset hj hk, update_offset hi hk]
  split_ifs <;> rfl

/-- The loop turns the part from `i` to `j` around. -/
theorem reverseLoop_offset (hj : j < 2 ^ 32) (hk : k < 2 ^ 32) :
    reverseLoop str m i j (str + BitVec.ofNat 32 k) =
      m (str + BitVec.ofNat 32 (if i ≤ k ∧ k ≤ j then i + j - k else k)) := by
  induction j generalizing m i with
  | zero =>
    rw [reverseLoop]
    exact congrArg (fun k => m (str + BitVec.ofNat 32 k)) (by split_ifs <;> omega)
  | succ j ih =>
    rw [reverseLoop]
    by_cases hlt : i < j + 1
    · rw [if_pos hlt, ih (by omega), swapChars_offset (by omega) hj (by split_ifs <;> omega)]
      exact congrArg (fun k => m (str + BitVec.ofNat 32 k)) (by split_ifs <;> omega)
    · rw [if_neg hlt]
      exact congrArg (fun k => m (str + BitVec.ofNat 32 k)) (by split_ifs <;> omega)

theorem reverseLoop_put (hlen : s.length < 2 ^ 32) (xs : List Byte) :
    reverseLoop p (put m p (s ++ xs)) 0 (s.length - 1) = put m p (s.reverse ++ xs) := by
  refine ext_offset p fun k hk => ?_
  rw [reverseLoop_offset (by omega) hk, put_offset (by split_ifs <;> omega), put_offset hk]
  by_cases hlt : k < s.length
  · have hmirror : (if 0 ≤ k ∧ k ≤ s.length - 1 then 0 + (s.length - 1) - k else k) = s.length - 1 - k := by
      split_ifs <;> omega
    have hrev : k < s.reverse.length := by rwa [List.length_reverse]
    rw [hmirror, List.getD_append _ _ _ _ (by omega), List.getD_append _ _ _ _ hrev,
      List.getD_eq_getElem _ _ (by omega), List.getD_eq_getElem _ _ hrev, List.getElem_reverse]
  · have hsame : (if 0 ≤ k ∧ k ≤ s.length - 1 then 0 + (s.length - 1) - k else k) = k := by
      split_ifs <;> omega
    have hrev : s.reverse.length ≤ k := by simpa using hlt
    rw [hsame, List.getD_append_right _ _ _ _ (by omega), List.getD_append_right _ _ _ _ hrev, List.length_reverse]

/-- `reverse` turns a string around and changes nothing else. -/
theorem reverse_put (hzero : 0 ∉ s) (hlen : s.length < 2 ^ 32) :
    reverse (put m p (s ++ [0])) p = some (put m p (s.reverse ++ [0])) := by
  have hturn := reverseLoop_put (m := m) (p := p) hlen [0]
  have htoNat : (BitVec.ofNat 32 s.length).toNat = s.length := by
    rw [BitVec.toNat_ofNat, Nat.mod_eq_of_lt hlen]
  rw [reverse, strlen_eq (cstring_put hzero hlen)]
  simp only [Option.bind_eq_bind, Option.bind_some, gt_iff_lt, BitVec.lt_def, htoNat]
  split_ifs with hpos
  · have hend : (BitVec.ofNat 32 s.length - 1).toNat = s.length - 1 := by
      rw [BitVec.toNat_sub, htoNat]
      have : (1 : BitVec 32).toNat = 1 := rfl
      omega
    rw [hend, hturn]
  · have hend : s.length - 1 = 0 := by
      have : (0 : BitVec 32).toNat = 0 := rfl
      omega
    rw [← hturn, hend]

/-! ### `utoa` and `atou` -/

/-- The digits from the lowest on, none for zero. -/
def lowDigits (n : ℕ) : List Byte := if n = 0 then [] else (digits 10 n).reverse

theorem lowDigits_of_pos {n : ℕ} (hn : 0 < n) :
    lowDigits n = chr (Nat.digitChar (n % 10)) :: lowDigits (n / 10) := by
  rw [lowDigits, lowDigits, if_neg (by omega)]
  by_cases hlt : n < 10
  · rw [digits_of_lt hlt, if_pos (by omega), Nat.mod_eq_of_lt hlt]
    rfl
  · rw [digits_of_le (by decide) (Nat.le_of_not_lt hlt), if_neg (by omega), List.reverse_append]
    rfl

/-- `(n % 10) + '0'`, cut to a character. -/
theorem lowest_digit (n : BitVec 32) : (n % 10 + 48#32).setWidth 8 = chr (Nat.digitChar (n.toNat % 10)) := by
  have hmod : n.toNat % 10 < 10 := Nat.mod_lt _ (by decide)
  rw [chr_digitChar hmod]
  apply BitVec.eq_of_toNat_eq
  rw [BitVec.toNat_setWidth, BitVec.toNat_add, BitVec.toNat_umod, BitVec.toNat_ofNat, BitVec.toNat_ofNat,
    show (10 : BitVec 32).toNat = 10 from rfl]
  omega

/-- The loop writes the digits behind what is there. -/
theorem utoaLoop_put {fuel : ℕ} {n : BitVec 32} (hn : n.toNat < 2 ^ fuel) (hroom : xs.length + fuel < 2 ^ 32) :
    utoaLoop p (fuel + 1) (put m p xs) n xs.length =
      some (put m p (xs ++ lowDigits n.toNat), (xs ++ lowDigits n.toNat).length) := by
  induction fuel generalizing n xs with
  | zero =>
    have hzero : n.toNat = 0 := by omega
    rw [utoaLoop, if_neg (by simp [BitVec.lt_def, hzero]), hzero]
    simp [lowDigits]
  | succ fuel ih =>
    rcases Nat.eq_zero_or_pos n.toNat with hzero | hpos
    · rw [utoaLoop, if_neg (by simp [BitVec.lt_def, hzero]), hzero]
      simp [lowDigits]
    · have hdiv : (n / 10).toNat = n.toNat / 10 := BitVec.toNat_udiv
      have hnext : (n / 10).toNat < 2 ^ fuel := by
        rw [pow_succ] at hn
        omega
      have happend : (xs ++ [chr (Nat.digitChar (n.toNat % 10))]).length = xs.length + 1 := by simp
      rw [utoaLoop, if_pos (by simpa [BitVec.lt_def] using hpos), lowest_digit, update_put (by omega), ← happend,
        ih hnext (by omega), hdiv, List.append_assoc, List.singleton_append, lowDigits_of_pos hpos]

/-- `utoa` writes the decimal numeral and a NUL, and nothing else. -/
theorem utoa_eq (n : BitVec 32) (m : Mem32) (str : Addr) :
    utoa n m str = some (put m str (digits 10 n.toNat ++ [0])) := by
  have hlen := length_digits (by decide : 2 ≤ 10) n
  have hrev := reverse_put (m := m) (p := str) (s := (digits 10 n.toNat).reverse)
    (by rw [List.mem_reverse]; exact zero_not_mem_digits (by decide) (by decide) _)
    (by rw [List.length_reverse]; omega)
  rw [List.reverse_reverse] at hrev
  -- a zero is written before the loop, which then does nothing
  obtain ⟨xs, hfirst, hroom, hall⟩ : ∃ xs : List Byte,
      (if n = 0 then (Function.update m str (chr '0'), 1) else (m, 0)) = (put m str xs, xs.length) ∧
        xs.length ≤ 1 ∧ xs ++ lowDigits n.toNat = (digits 10 n.toNat).reverse := by
    by_cases hzero : n = 0
    · exact ⟨[chr '0'], by rw [if_pos hzero, update_eq_put]; rfl, Nat.le_refl _, by rw [hzero]; rfl⟩
    · have hpos : n.toNat ≠ 0 := fun h => hzero (BitVec.eq_of_toNat_eq h)
      exact ⟨[], by rw [if_neg hzero]; rfl, Nat.zero_le _, by rw [lowDigits, if_neg hpos, List.nil_append]⟩
  rw [utoa, hfirst]
  dsimp only
  rw [utoaLoop_put n.isLt (by omega), hall, Option.bind_eq_bind, Option.bind_some]
  dsimp only
  rw [update_put (by rw [List.length_reverse]; omega), hrev]

theorem atouLoop_eq {fuel : ℕ} {result : BitVec 32} (hs : CString m p s) (hfuel : s.length < fuel) :
    atouLoop m fuel p result = some (s.foldl (fun r b => r * 10 + (b.signExtend 32 - 48#32)) result) := by
  induction s generalizing fuel p result with
  | nil =>
    obtain ⟨fuel, rfl⟩ := Nat.exists_eq_succ_of_ne_zero (Nat.ne_of_gt hfuel)
    rw [atouLoop, if_neg (not_not.mpr (show m p = 0 from hs)), List.foldl_nil]
  | cons b s ih =>
    obtain ⟨fuel, rfl⟩ := Nat.exists_eq_succ_of_ne_zero (Nat.ne_of_gt (Nat.zero_lt_of_lt hfuel))
    obtain ⟨hb, hne, hs⟩ := hs
    rw [atouLoop, hb, if_pos hne, ih hs (Nat.lt_of_succ_lt_succ hfuel), List.foldl_cons]

/-- On decimal digits the accumulator is the value so far, modulo the size of a word. -/
theorem foldl_atou (hdigit : ∀ b ∈ s, ∃ d < 10, b = chr (Nat.digitChar d)) (v : ℕ) :
    s.foldl (fun r b => r * 10 + (b.signExtend 32 - 48#32)) (BitVec.ofNat 32 v) =
      BitVec.ofNat 32 (s.foldl (fun v b => v * 10 + digitValue b) v) := by
  have hstep : ∀ d < 10, (chr (Nat.digitChar d)).signExtend 32 - 48#32 = BitVec.ofNat 32 d := by decide
  induction s generalizing v with
  | nil => rfl
  | cons b s ih =>
    obtain ⟨d, hd, rfl⟩ := hdigit b List.mem_cons_self
    rw [List.foldl_cons, List.foldl_cons, hstep d hd, digitValue_digitChar (by omega),
      ← ih fun b hb => hdigit b (List.mem_cons_of_mem _ hb), BitVec.ofNat_add, BitVec.ofNat_mul]
    rfl

/-- `atou` reads a numeral. -/
theorem atou_eq {n : BitVec 32} (hn : IsNumeral 10 n.toNat s) (hs : CString m p s) : atou m p = some n := by
  have hvalue := foldl_atou hn.digit 0
  have hnum : s.foldl (fun v b => v * 10 + digitValue b) 0 = n.toNat := hn.value
  rw [atou, atouLoop_eq hs hs.length_lt]
  rw [hnum, BitVec.ofNat_toNat, BitVec.setWidth_eq] at hvalue
  exact congrArg some hvalue

/-! ### `_vtoa` -/

theorem length_vtoaLoop (base : BitVec 32) (k : ℕ) (value : BitVec 32) (buf : List Byte) :
    (vtoaLoop base k value buf).1.length ≤ buf.length + k := by
  induction k generalizing value buf with
  | zero => exact Nat.le_refl _
  | succ k ih =>
    rw [vtoaLoop]
    split_ifs
    · exact Nat.succ_le_succ (Nat.le_add_right _ _)
    · refine (ih _ _).trans ?_
      rw [List.length_cons]
      omega

theorem update_put_reverse {buf : List Byte} (hlen : buf.length < 2 ^ 32) (b : Byte) :
    Function.update (put m p buf.reverse) (p + BitVec.ofNat 32 buf.length) b = put m p (b :: buf).reverse := by
  rw [← List.length_reverse, update_put (by rwa [List.length_reverse]), List.reverse_cons]

/-- The first loop leaves the characters in memory, from the lowest digit on. -/
theorem vtoaDigits_put {base : BitVec 32} (hbase : 2 ≤ base.toNat) {value : BitVec 32} {buf : List Byte}
    (hvalue : value.toNat < 2 ^ (k + 1)) (hroom : buf.length + k < 2 ^ 32) :
    vtoaDigits p base (k + 1) (put m p buf.reverse) value buf.length =
      some (put m p (vtoaLoop base (k + 1) value buf).1.reverse, (vtoaLoop base (k + 1) value buf).2,
        (vtoaLoop base (k + 1) value buf).1.length) := by
  induction k generalizing value buf with
  | zero =>
    have hlast : value / base = 0 := (div_eq_zero_iff hbase).mpr (by omega)
    rw [vtoaDigits, vtoaLoop, if_pos hlast, if_pos hlast, update_put_reverse (by omega)]
    rfl
  | succ k ih =>
    rw [vtoaDigits, vtoaLoop, update_put_reverse (by omega)]
    by_cases hlast : value / base = 0
    · rw [if_pos hlast, if_pos hlast]
      rfl
    · rw [if_neg hlast, if_neg hlast, ← ih (toNat_div_lt hbase hvalue) (by rw [List.length_cons]; omega)]
      rfl

/-- The end of `_vtoa`: a NUL behind the characters, which are then turned around. -/
theorem vtoaReverse_put (hlen : s.length < 2 ^ 32) :
    vtoaReverse p (Function.update (put m p s.reverse) (p + BitVec.ofNat 32 s.length) 0) 0 (s.length - 1) =
      put m p (s ++ [0]) := by
  have hrev : s.reverse.length < 2 ^ 32 := by rwa [List.length_reverse]
  have hturn := reverseLoop_put (m := m) (p := p) hrev [0]
  rw [List.length_reverse, List.reverse_reverse] at hturn
  rw [update_put_reverse hlen, List.reverse_cons, vtoaReverse_eq, hturn]

/-- `_vtoa` in memory writes the text of `_vtoa` on lists and a NUL, and nothing else. -/
theorem vtoa_put {base : BitVec 32} (hbase : 2 ≤ base.toNat) (hsmall : base.toNat ≤ 36) (value : BitVec 32)
    (m : Mem32) (result : Addr) :
    vtoa result base value m = some (put m result (Klibc.vtoa base value ++ [0])) := by
  have hrange : ¬(base < 2 ∨ base > 36) := by
    simp only [gt_iff_lt, BitVec.lt_def, not_or]
    exact ⟨Nat.not_lt.mpr hbase, Nat.not_lt.mpr hsmall⟩
  have hdigits := vtoaDigits_put (m := m) (p := result) (k := 31) hbase value.isLt
    (by decide : ([] : List Byte).length + 31 < 2 ^ 32)
  have hlen := length_vtoaLoop base 32 value []
  rw [List.reverse_nil, put_nil, List.length_nil] at hdigits
  rw [vtoa, if_neg hrange, hdigits, Klibc.vtoa, Option.bind_eq_bind, Option.bind_some]
  dsimp only
  generalize vtoaLoop base 32 value [] = r at hlen ⊢
  rw [List.length_nil] at hlen
  by_cases hsign : r.2.toInt < 0
  · have hbuf : (chr '-' :: r.1).length < 2 ^ 32 := by
      rw [List.length_cons]
      omega
    rw [if_pos hsign, if_pos hsign, update_put_reverse (by omega)]
    exact congrArg some (vtoaReverse_put hbuf)
  · rw [if_neg hsign, if_neg hsign]
    exact congrArg some (vtoaReverse_put (by omega))

theorem itoa_put (n : BitVec 32) (m : Mem32) (str : Addr) :
    itoa n m str = some (put m str (digits 10 n.toNat ++ [0])) := by
  rw [itoa, vtoa_put (by decide) (by decide), vtoa_eq (by decide) (by decide)]
  rfl

theorem htoa_put (n : BitVec 32) (m : Mem32) (str : Addr) :
    htoa n m str = some (put m str (digits 16 n.toNat ++ [0])) := by
  rw [htoa, vtoa_put (by decide) (by decide), vtoa_eq (by decide) (by decide)]
  rfl

/-! ### The numbers that are written -/

theorem cstring_digits {base : ℕ} (hbase : 2 ≤ base) (hsmall : base ≤ 16) (n : BitVec 32) (m : Mem32) (str : Addr) :
    CString (put m str (digits base n.toNat ++ [0])) str (digits base n.toNat) := by
  have hlen := length_digits hbase n
  exact cstring_put (zero_not_mem_digits hbase hsmall _) (by omega)

/-- `utoa` writes the decimal numeral of a number, from which `atou` reads the number again, and
`htoa` the hexadecimal one. -/
theorem utoa_atou_htoa (n : BitVec 32) (m : Mem32) (str : Addr) :
    (∃ m' s, utoa n m str = some m' ∧ CString m' str s ∧ IsNumeral 10 n.toNat s ∧ atou m' str = some n) ∧
      ∃ m' s, htoa n m str = some m' ∧ CString m' str s ∧ IsNumeral 16 n.toNat s := by
  have hdec : IsNumeral 10 n.toNat _ := isNumeral_digits (by decide) (by decide) n.toNat
  have hhex : IsNumeral 16 n.toNat _ := isNumeral_digits (by decide) (by decide) n.toNat
  have hstr := cstring_digits (by decide : 2 ≤ 10) (by decide) n m str
  refine ⟨⟨_, _, utoa_eq n m str, hstr, hdec, atou_eq hdec hstr⟩, _, _, htoa_put n m str, ?_, hhex⟩
  exact cstring_digits (by decide) (by decide) n m str

/-- The digits of a number are no numeral of a negative one. -/
theorem not_isSignedNumeral {z : ℤ} (hz : z < 0) (n : ℕ) : ¬IsSignedNumeral z (digits 10 n) := by
  rw [IsSignedNumeral, if_pos hz]
  rintro ⟨t, ht, -⟩
  obtain ⟨d, hd, hminus⟩ := mem_digits (by decide) (by decide) (ht ▸ List.mem_cons_self : chr '-' ∈ digits 10 n)
  have hne : ∀ d < 10, chr '-' ≠ chr (Nat.digitChar d) := by decide
  exact hne d hd hminus

/-- What `itoa` writes is the numeral of a signed number exactly if that is not negative. -/
theorem itoa_signed_iff (n : BitVec 32) (m : Mem32) (str : Addr) :
    (∃ m' s, itoa n m str = some m' ∧ CString m' str s ∧ IsSignedNumeral n.toInt s) ↔ 0 ≤ n.toInt := by
  have hstr := cstring_digits (by decide : 2 ≤ 10) (by decide) n m str
  constructor
  · rintro ⟨m', s, hitoa, hs, hsigned⟩
    by_contra hneg
    obtain rfl := Option.some.inj ((itoa_put n m str).symm.trans hitoa)
    rw [hs.eq hstr] at hsigned
    exact not_isSignedNumeral (not_le.mp hneg) _ hsigned
  · intro hpos
    refine ⟨_, _, itoa_put n m str, hstr, ?_⟩
    have habs : n.toInt.natAbs = n.toNat := by
      rw [BitVec.toInt_eq_toNat_cond] at hpos ⊢
      split_ifs at hpos ⊢ <;> omega
    rw [IsSignedNumeral, if_neg (not_lt.mpr hpos), habs]
    exact isNumeral_digits (by decide) (by decide) _

theorem itoa_minusOne :
    ¬∃ m' s, itoa (-1) (fun _ => 0) 0 = some m' ∧ CString m' 0 s ∧ IsSignedNumeral (-1 : BitVec 32).toInt s := by
  rintro ⟨m', s, hitoa, hs, hsigned⟩
  obtain rfl := Option.some.inj ((itoa_put (-1) (fun _ => 0) 0).symm.trans hitoa)
  rw [hs.eq (cstring_digits (by decide) (by decide) (-1) (fun _ => 0) 0)] at hsigned
  exact not_isSignedNumeral (by decide) _ hsigned

end JustKernel.Klibc.InPlace
