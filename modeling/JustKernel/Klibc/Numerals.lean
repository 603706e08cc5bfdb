import JustKernel.Klibc.String
import Mathlib.Data.List.Basic
import Mathlib.Data.List.Induction

/-! Canonical numerals in a base up to 16, with the digits `0` to `9` and `a` to `f`: what a
number looks like as text, apart from any way to compute it. `digits` is the one numeral of a number. -/

namespace JustKernel.Klibc

open Memory (Byte)

def digitValue (b : Byte) : ℕ := if b.toNat < 58 then b.toNat - 48 else b.toNat - 87

def numeralValue (base : ℕ) (s : List Byte) : ℕ := s.foldl (fun v b => v * base + digitValue b) 0

/-- `s` is the numeral of `n`: digits of the base without leading zeros, and `0` for zero. -/
structure IsNumeral (base n : ℕ) (s : List Byte) : Prop where
  nonempty : s ≠ []
  digit : ∀ b ∈ s, ∃ d < base, b = chr (Nat.digitChar d)
  leading : s.head? = some (chr '0') → s = [chr '0']
  value : numeralValue base s = n

/-- The numeral of an integer has a `-` before the digits of a negative one. -/
def IsSignedNumeral (z : ℤ) (s : List Byte) : Prop :=
  if z < 0 then ∃ t, s = chr '-' :: t ∧ IsNumeral 10 z.natAbs t else IsNumeral 10 z.natAbs s

variable {base n d : ℕ} {b : Byte} {s t : List Byte}

theorem chr_digitChar (hd : d < 10) : chr (Nat.digitChar d) = BitVec.ofNat 8 (48 + d) := by
  rw [chr, Nat.toNat_digitChar_of_lt_ten hd]

theorem digitValue_digitChar (hd : d < 16) : digitValue (chr (Nat.digitChar d)) = d := by
  revert d
  decide

theorem digitChar_eq_zero (hd : d < 16) : chr (Nat.digitChar d) = chr '0' ↔ d = 0 := by
  revert d
  decide

theorem numeralValue_append (base : ℕ) (s : List Byte) (b : Byte) :
    numeralValue base (s ++ [b]) = numeralValue base s * base + digitValue b := by
  rw [numeralValue, List.foldl_append]
  rfl

theorem digits_ne_nil (base n : ℕ) : digits base n ≠ [] := by
  rw [digits, Ne, List.map_eq_nil_iff]
  exact Nat.toDigits_ne_nil

/-- A word has no more digits than bits. -/
theorem length_digits (hbase : 2 ≤ base) (v : BitVec 32) : (digits base v.toNat).length ≤ 32 := by
  have hpow : 2 ^ 32 ≤ base ^ 32 := Nat.pow_le_pow_left hbase 32
  rw [digits, List.length_map]
  exact (Nat.length_toDigits_le_iff hbase (by decide)).mpr (v.isLt.trans_le hpow)

section Digits

variable (hbase : 2 ≤ base) (hsmall : base ≤ 16)
include hbase hsmall

theorem mem_digits (h : b ∈ digits base n) : ∃ d < base, b = chr (Nat.digitChar d) := by
  induction n using Nat.strongRecOn with
  | ind n ih =>
    by_cases hlt : n < base
    · rw [digits_of_lt hlt, List.mem_singleton] at h
      exact ⟨n, hlt, h⟩
    · rw [digits_of_le hbase (Nat.le_of_not_lt hlt), List.mem_append, List.mem_singleton] at h
      rcases h with h | h
      · exact ih (n / base) (Nat.div_lt_self (by omega) hbase) h
      · exact ⟨n % base, Nat.mod_lt _ (by omega), h⟩

theorem zero_not_mem_digits (n : ℕ) : 0 ∉ digits base n := by
  intro h
  obtain ⟨d, hd, hzero⟩ := mem_digits hbase hsmall h
  have hne : ∀ d < 16, (0 : Byte) ≠ chr (Nat.digitChar d) := by decide
  exact hne d (by omega) hzero

theorem numeralValue_digits (n : ℕ) : numeralValue base (digits base n) = n := by
  induction n using Nat.strongRecOn with
  | ind n ih =>
    by_cases hlt : n < base
    · rw [digits_of_lt hlt, numeralValue, List.foldl_cons, List.foldl_nil, digitValue_digitChar (by omega)]
      omega
    · have hmod : n % base < base := Nat.mod_lt _ (by omega)
      rw [digits_of_le hbase (Nat.le_of_not_lt hlt), numeralValue_append,
        ih (n / base) (Nat.div_lt_self (by omega) hbase), digitValue_digitChar (by omega), Nat.div_add_mod']

theorem head_digits (hn : 0 < n) : (digits base n).head? ≠ some (chr '0') := by
  induction n using Nat.strongRecOn with
  | ind n ih =>
    by_cases hlt : n < base
    · rw [digits_of_lt hlt, List.head?_cons, Ne, Option.some_inj, digitChar_eq_zero (by omega)]
      omega
    · have hle := Nat.le_of_not_lt hlt
      rw [digits_of_le hbase hle, List.head?_append_of_ne_nil _ (digits_ne_nil base _)]
      exact ih (n / base) (Nat.div_lt_self hn hbase) (Nat.div_pos hle (by omega))

theorem isNumeral_digits (n : ℕ) : IsNumeral base n (digits base n) where
  nonempty := digits_ne_nil base n
  digit _ := mem_digits hbase hsmall
  leading h := by
    rcases Nat.eq_zero_or_pos n with rfl | hn
    · exact digits_of_lt (by omega)
    · exact absurd h (head_digits hbase hsmall hn)
  value := numeralValue_digits hbase hsmall n

/-- A number has one numeral. -/
theorem IsNumeral.eq_digits (h : IsNumeral base n s) : s = digits base n := by
  induction s using List.reverseRecOn generalizing n with
  | nil => exact absurd rfl h.nonempty
  | append_singleton t b ih =>
    obtain ⟨d, hd, rfl⟩ := h.digit b (List.mem_append_right t List.mem_cons_self)
    have hvalue := h.value
    rw [numeralValue_append, digitValue_digitChar (by omega)] at hvalue
    by_cases ht : t = []
    · have hn : d = n := by simpa [ht, numeralValue] using hvalue
      rw [ht, List.nil_append, ← hn, digits_of_lt hd]
    · have hlead : t.head? ≠ some (chr '0') := by
        intro hzero
        have hwhole := congrArg List.length (h.leading (by rwa [List.head?_append_of_ne_nil _ ht]))
        rw [List.length_append, List.length_singleton, List.length_singleton] at hwhole
        exact ht (List.length_eq_zero_iff.mp (Nat.succ.inj hwhole))
      have hfront : t = digits base (numeralValue base t) :=
        ih ⟨ht, fun b hb => h.digit b (List.mem_append_left _ hb), fun hzero => absurd hzero hlead, rfl⟩
      have hpos : 0 < numeralValue base t := by
        rw [Nat.pos_iff_ne_zero]
        intro hzero
        rw [hzero, digits_of_lt (by omega)] at hfront
        exact hlead (by rw [hfront]; rfl)
      have hle : base ≤ n := by
        have := Nat.le_mul_of_pos_left base hpos
        omega
      have hdiv : n / base = numeralValue base t := by
        rw [← hvalue, Nat.add_comm, Nat.add_mul_div_right _ _ (by omega), Nat.div_eq_of_lt hd, Nat.zero_add]
      have hmod : n % base = d := by rw [← hvalue, Nat.mul_add_mod', Nat.mod_eq_of_lt hd]
      rw [digits_of_le hbase hle, hdiv, hmod, ← hfront]

end Digits

end JustKernel.Klibc
