import JustKernel.Base.Memory

/-! Numbers as text, `klibc/string.c`. `_vtoa` divides an `int32_t` by a `uint32_t`, so that the
division is one of unsigned words whatever the sign of the value: `itoa` and `htoa` spell the
argument as an unsigned number, and the minus sign at the end of `_vtoa` is never written. A
string is the list of its characters without the NUL. -/

namespace JustKernel.Klibc

open Memory (Byte)

/-- A character constant. -/
def chr (c : Char) : Byte := BitVec.ofNat 8 c.toNat

/-- The characters that `_vtoa` picks from, with the digit 0 in the middle. -/
def vtoaTable : List Char :=
  ['z', 'y', 'x', 'w', 'v', 'u', 't', 's', 'r', 'q', 'p', 'o', 'n', 'm', 'l', 'k', 'j', 'i', 'h', 'g', 'f', 'e',
    'd', 'c', 'b', 'a', '9', '8', '7', '6', '5', '4', '3', '2', '1', '0', '1', '2', '3', '4', '5', '6', '7', '8', '9',
    'a', 'b', 'c', 'd', 'e', 'f', 'g', 'h', 'i', 'j', 'k', 'l', 'm', 'n', 'o', 'p', 'q', 'r', 's', 't', 'u', 'v',
    'w', 'x', 'y', 'z']

/-- The loop of `_vtoa`, with the buffer from its last character on, and the last `tmp_value`.
A word has at most 32 digits in base 2, so `n = 32` is never used up. -/
def vtoaLoop (base : BitVec 32) : ℕ → BitVec 32 → List Byte → List Byte × BitVec 32
  | 0, value, buf => (buf, value)
  | n + 1, tmpValue, buf =>
    let value := tmpValue / base
    let buf := chr (vtoaTable.getD (35 + (tmpValue - value * base)).toNat '0') :: buf
    if value = 0 then (buf, tmpValue) else vtoaLoop base n value buf

/-- `_vtoa` for a base from 2 to 36; at the end it turns the buffer around. -/
def vtoa (base value : BitVec 32) : List Byte :=
  let r := vtoaLoop base 32 value []
  if r.2.toInt < 0 then chr '-' :: r.1 else r.1

def itoa (n : BitVec 32) : List Byte := vtoa 10 n

def htoa (n : BitVec 32) : List Byte := vtoa 16 n

/-- A number in base 10 or 16. -/
def digits (base n : ℕ) : List Byte := (Nat.toDigits base n).map chr

section Digits

variable {base value : BitVec 32}

theorem digits_of_lt {base n : ℕ} (h : n < base) : digits base n = [chr (Nat.digitChar n)] := by
  rw [digits, Nat.toDigits_of_lt_base h]
  rfl

theorem digits_of_le {base n : ℕ} (hbase : 1 < base) (h : base ≤ n) :
    digits base n = digits base (n / base) ++ [chr (Nat.digitChar (n % base))] := by
  rw [digits, Nat.toDigits_of_base_le hbase h, List.map_append]
  rfl

theorem vtoaTable_digit {r : ℕ} (hr : r < 16) : vtoaTable.getD (35 + r) '0' = Nat.digitChar r := by
  revert r
  decide

/-- One digit: what the division leaves over. -/
theorem toNat_remainder (hbase : 2 ≤ base.toNat) (hsmall : base.toNat ≤ 16) (value : BitVec 32) :
    (35 + (value - value / base * base)).toNat = 35 + value.toNat % base.toNat := by
  have hv := value.isLt
  have hmul : value.toNat / base.toNat * base.toNat ≤ value.toNat := Nat.div_mul_le_self _ _
  have hmod : value.toNat % base.toNat < base.toNat := Nat.mod_lt _ (by omega)
  have hdiv := Nat.div_add_mod' value.toNat base.toNat
  rw [BitVec.toNat_add, BitVec.toNat_sub, BitVec.toNat_mul, BitVec.toNat_udiv,
    Nat.mod_eq_of_lt (by omega : value.toNat / base.toNat * base.toNat < 2 ^ 32),
    show (35 : BitVec 32).toNat = 35 by decide]
  omega

theorem div_eq_zero_iff (hbase : 2 ≤ base.toNat) : value / base = 0 ↔ value.toNat < base.toNat := by
  rw [← BitVec.toNat_inj, BitVec.toNat_udiv, show (0 : BitVec 32).toNat = 0 by decide,
    Nat.div_eq_zero_iff_lt (by omega)]

/-- A division takes at least one bit off. -/
theorem toNat_div_lt (hbase : 2 ≤ base.toNat) {n : ℕ} (hv : value.toNat < 2 ^ (n + 1)) :
    (value / base).toNat < 2 ^ n := by
  rw [BitVec.toNat_udiv]
  refine lt_of_le_of_lt (Nat.div_le_div_left hbase (by decide)) ?_
  rw [pow_succ] at hv
  omega

/-- The loop spells the number and ends with its leading digit. -/
theorem vtoaLoop_eq (hbase : 2 ≤ base.toNat) (hsmall : base.toNat ≤ 16) (n : ℕ) :
    ∀ (value : BitVec 32) (buf : List Byte), value.toNat < 2 ^ (n + 1) →
      (vtoaLoop base (n + 1) value buf).1 = digits base.toNat value.toNat ++ buf ∧
        (vtoaLoop base (n + 1) value buf).2.toNat < base.toNat := by
  induction n with
  | zero =>
    intro value buf hv
    have hlast : value.toNat < base.toNat := by omega
    rw [vtoaLoop, toNat_remainder hbase hsmall, vtoaTable_digit (by have := Nat.mod_lt value.toNat (by omega : 0 < base.toNat); omega),
      if_pos ((div_eq_zero_iff hbase).mpr hlast), digits_of_lt hlast, Nat.mod_eq_of_lt hlast]
    exact ⟨rfl, hlast⟩
  | succ n ih =>
    intro value buf hv
    rw [vtoaLoop, toNat_remainder hbase hsmall, vtoaTable_digit (by have := Nat.mod_lt value.toNat (by omega : 0 < base.toNat); omega)]
    by_cases hlast : value.toNat < base.toNat
    · rw [if_pos ((div_eq_zero_iff hbase).mpr hlast), digits_of_lt hlast, Nat.mod_eq_of_lt hlast]
      exact ⟨rfl, hlast⟩
    · have hnext := toNat_div_lt hbase hv
      obtain ⟨htext, htmp⟩ := ih (value / base) (chr (Nat.digitChar (value.toNat % base.toNat)) :: buf) hnext
      rw [if_neg (mt (div_eq_zero_iff hbase).mp hlast)]
      refine ⟨?_, htmp⟩
      rw [htext, BitVec.toNat_udiv, digits_of_le (by omega) (by omega : base.toNat ≤ value.toNat), List.append_assoc]
      rfl

/-- No sign is ever written. -/
theorem vtoa_eq (hbase : 2 ≤ base.toNat) (hsmall : base.toNat ≤ 16) (value : BitVec 32) :
    vtoa base value = digits base.toNat value.toNat := by
  obtain ⟨htext, htmp⟩ := vtoaLoop_eq hbase hsmall 31 value [] value.isLt
  norm_num only at htext htmp
  have hsign : ¬(vtoaLoop base 32 value []).2.toInt < 0 := by
    rw [BitVec.toInt_eq_toNat_of_lt (by omega)]
    omega
  rw [vtoa, if_neg hsign, htext, List.append_nil]

theorem itoa_eq (n : BitVec 32) : itoa n = digits 10 n.toNat := vtoa_eq (by decide) (by decide) n

theorem htoa_eq (n : BitVec 32) : htoa n = digits 16 n.toNat := vtoa_eq (by decide) (by decide) n

end Digits

example : itoa (-1) = digits 10 4294967295 := by decide

end JustKernel.Klibc
