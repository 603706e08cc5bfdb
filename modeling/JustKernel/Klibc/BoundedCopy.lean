import JustKernel.Klibc.CString

/-! `strncpy` and `memset` of `klibc/string.c`, with every store on record. `strncpy` counts the NUL
to the length before it cuts the length to `max`, and then writes one more NUL behind what it has
copied: a string of `max - 1` characters or more has it written to `dst[max]`. Source and destination
may overlap, and the copy runs upwards. -/

namespace JustKernel.Klibc

open AddressSpace
open Memory (Byte)

/-- Memory, and the addresses written so far. -/
structure Traced where
  mem : Mem32
  writes : List Addr

def Traced.store (t : Traced) (a : Addr) (b : Byte) : Traced where
  mem := Function.update t.mem a b
  writes := t.writes ++ [a]

/-- The loop of `strncpy` after a number of iterations. -/
def copyLoop (m : Mem32) (src dst : Addr) : ℕ → Traced
  | 0 => ⟨m, []⟩
  | i + 1 =>
    let t := copyLoop m src dst i
    t.store (dst + BitVec.ofNat 32 i) (t.mem (src + BitVec.ofNat 32 i))

def strncpy (m : Mem32) (src dst : Addr) (max : BitVec 32) : Option Traced := do
  let len ← strlen m src
  let len := len + 1
  let len := if len > max then max else len
  some ((copyLoop m src dst len.toNat).store (dst + len) 0)

/-- The loop of `memset` after a number of iterations. -/
def memset (m : Mem32) (dst : Addr) (data : Byte) : ℕ → Mem32
  | 0 => m
  | i + 1 => Function.update (memset m dst data i) (dst + BitVec.ofNat 32 i) data

/-- What a bounded copy promises: it stores to the first `max` bytes of the destination only, and
leaves there as much of the string as fits with its NUL. -/
def BoundedCopy (m : Mem32) (src dst : Addr) (max : BitVec 32) (s : List Byte) : Prop :=
  ∃ t, strncpy m src dst max = some t ∧ (∀ a ∈ t.writes, (a - dst).toNat < max.toNat) ∧
    CString t.mem dst (s.take (max.toNat - 1))

/-- A string that fits with a byte to spare, and a destination that the copy does not read from later
on. A string as long as the address space counts as empty. -/
def CopyFits (src dst : Addr) (max : BitVec 32) (s : List Byte) : Prop :=
  s.length + 1 < max.toNat ∧ (dst = src ∨ s.length < (dst - src).toNat) ∨ s.length + 1 = 2 ^ 32 ∧ max = 1

variable {m : Mem32} {src dst a : Addr} {max : BitVec 32} {data : Byte} {s : List Byte} {i n : ℕ}

theorem memset_apply (hn : n ≤ 2 ^ 32) : memset m dst data n a = if (a - dst).toNat < n then data else m a := by
  rw [← add_offset dst a]
  have ha := (a - dst).isLt
  generalize (a - dst).toNat = j at ha ⊢
  induction n with
  | zero => rfl
  | succ n ih =>
    rw [memset, update_offset (by omega) ha, ih (by omega), toNat_offset dst ha]
    split_ifs <;> first | rfl | omega

/-! ### The loop -/

theorem mem_copyLoop_writes : a ∈ (copyLoop m src dst n).writes ↔ ∃ i < n, a = dst + BitVec.ofNat 32 i := by
  induction n with
  | zero => simp [copyLoop]
  | succ n ih =>
    rw [copyLoop]
    simp only [Traced.store, List.mem_append, List.mem_singleton, ih]
    constructor
    · rintro (⟨i, hi, rfl⟩ | rfl)
      · exact ⟨i, Nat.lt_succ_of_lt hi, rfl⟩
      · exact ⟨n, Nat.lt_succ_self n, rfl⟩
    · rintro ⟨i, hi, rfl⟩
      rcases Nat.lt_succ_iff_lt_or_eq.mp hi with hlt | rfl
      · exact Or.inl ⟨i, hlt, rfl⟩
      · exact Or.inr rfl

/-- Where the source lies as seen from the destination. -/
theorem toNat_source_offset (src dst : Addr) (hn : n < 2 ^ 32) :
    (src + BitVec.ofNat 32 n - dst).toNat =
      if (dst - src).toNat ≤ n then n - (dst - src).toNat else n + 2 ^ 32 - (dst - src).toNat := by
  have hsrc := src.isLt
  have hdst := dst.isLt
  simp only [BitVec.toNat_sub, BitVec.toNat_add, BitVec.toNat_ofNat]
  split_ifs <;> omega

/-- A copy upwards onto its own source repeats the characters in front of the destination. -/
theorem copyLoop_mem (hn : n ≤ 2 ^ 32) (hi : i < 2 ^ 32) :
    (copyLoop m src dst n).mem (dst + BitVec.ofNat 32 i) =
      if i < n then m (src + BitVec.ofNat 32 (i % (dst - src).toNat)) else m (dst + BitVec.ofNat 32 i) := by
  induction n generalizing i with
  | zero => rfl
  | succ n ih =>
    have hread : (copyLoop m src dst n).mem (src + BitVec.ofNat 32 n) =
        m (src + BitVec.ofNat 32 (n % (dst - src).toNat)) := by
      have hback := toNat_source_offset src dst (by omega : n < 2 ^ 32)
      have haddr := add_offset dst (src + BitVec.ofNat 32 n)
      have hlt := (src + BitVec.ofNat 32 n - dst).isLt
      have hdist := (dst - src).isLt
      generalize (src + BitVec.ofNat 32 n - dst).toNat = j at hback haddr hlt
      generalize (dst - src).toNat = d at hback hdist ih ⊢
      rw [← haddr, ih (by omega) hlt]
      by_cases hover : 0 < d ∧ d ≤ n
      · -- the character was overwritten `d` iterations ago
        rw [if_pos hover.2] at hback
        rw [if_pos (by omega), hback, ← Nat.mod_eq_sub_mod hover.2]
      · have hmod : n % d = n := by
          rcases Nat.eq_zero_or_pos d with rfl | hd
          · exact Nat.mod_zero n
          · exact Nat.mod_eq_of_lt (by omega)
        rw [if_neg (by split_ifs at hback <;> omega), hmod, haddr]
    rw [copyLoop]
    dsimp only [Traced.store]
    rw [update_offset (by omega) hi, hread, ih (by omega) hi]
    split_ifs with heq <;> first | rfl | omega | rw [heq]

/-! ### `strncpy` -/

/-- The number of characters that the loop copies; the length is counted with its NUL in a word. -/
def copyLength (s : List Byte) (max : BitVec 32) : ℕ := min ((s.length + 1) % 2 ^ 32) max.toNat

/-- The outcome of copying `n` characters and ending them with a NUL. -/
def copied (m : Mem32) (src dst : Addr) (n : ℕ) : Traced :=
  (copyLoop m src dst n).store (dst + BitVec.ofNat 32 n) 0

theorem strncpy_eq (hs : CString m src s) (dst : Addr) (max : BitVec 32) :
    strncpy m src dst max = some (copied m src dst (copyLength s max)) := by
  have hlen : (BitVec.ofNat 32 s.length + 1).toNat = (s.length + 1) % 2 ^ 32 := by
    rw [BitVec.toNat_add, BitVec.toNat_ofNat, Nat.mod_add_mod]
    rfl
  have hmax := max.isLt
  have hclamp : (if BitVec.ofNat 32 s.length + 1 > max then max else BitVec.ofNat 32 s.length + 1) =
      BitVec.ofNat 32 (copyLength s max) := by
    apply BitVec.eq_of_toNat_eq
    rw [apply_ite BitVec.toNat, hlen, copyLength, BitVec.toNat_ofNat]
    simp only [gt_iff_lt, BitVec.lt_def, hlen]
    split_ifs <;> omega
  have htoNat : (BitVec.ofNat 32 (copyLength s max)).toNat = copyLength s max := by
    rw [BitVec.toNat_ofNat, copyLength]
    omega
  rw [strncpy, strlen_eq hs, Option.bind_eq_bind, Option.bind_some]
  dsimp only
  rw [hclamp, htoNat, copied]

theorem copyLength_lt (s : List Byte) (max : BitVec 32) : copyLength s max < 2 ^ 32 := by
  have := max.isLt
  rw [copyLength]
  omega

/-- The stores of a copy of `n` characters reach to the byte behind them. -/
theorem copied_bounded_iff (m : Mem32) (src dst : Addr) (hn : n < 2 ^ 32) (bound : ℕ) :
    (∀ a ∈ (copied m src dst n).writes, (a - dst).toNat < bound) ↔ n < bound := by
  constructor
  · intro hall
    have hlast := hall _ (List.mem_append_right _ List.mem_cons_self)
    rwa [toNat_offset dst hn] at hlast
  · intro hlt a ha
    rcases List.mem_append.mp ha with ha | ha
    · obtain ⟨i, hi, rfl⟩ := mem_copyLoop_writes.mp ha
      rw [toNat_offset dst (hi.trans hn)]
      exact hi.trans hlt
    · rw [List.mem_singleton.mp ha, toNat_offset dst hn]
      exact hlt

theorem writes_bounded_iff (hs : CString m src s) (dst : Addr) (max : BitVec 32) :
    (∃ t, strncpy m src dst max = some t ∧ ∀ a ∈ t.writes, (a - dst).toNat < max.toNat) ↔
      copyLength s max < max.toNat := by
  rw [strncpy_eq hs, ← copied_bounded_iff m src dst (copyLength_lt s max)]
  simp only [Option.some.injEq, exists_eq_left']

theorem boundedCopy_iff_copied (hs : CString m src s) :
    BoundedCopy m src dst max s ↔ copyLength s max < max.toNat ∧
      CString (copied m src dst (copyLength s max)).mem dst (s.take (max.toNat - 1)) := by
  rw [BoundedCopy, strncpy_eq hs, ← copied_bounded_iff m src dst (copyLength_lt s max)]
  simp only [Option.some.injEq, exists_eq_left']

/-- The memory after the copy and the NUL. -/
theorem copied_mem (m : Mem32) (src dst : Addr) (hn : n < 2 ^ 32) (hi : i < 2 ^ 32) :
    (copied m src dst n).mem (dst + BitVec.ofNat 32 i) =
      if i = n then 0 else if i < n then m (src + BitVec.ofNat 32 (i % (dst - src).toNat))
      else m (dst + BitVec.ofNat 32 i) := by
  dsimp only [copied, Traced.store]
  rw [update_offset hn hi, copyLoop_mem (Nat.le_of_lt hn) hi]

theorem cstring_copied_zero (m : Mem32) (src dst : Addr) : CString (copied m src dst 0).mem dst [] := by
  have hnul := copied_mem m src dst (by decide : 0 < 2 ^ 32) (by decide : 0 < 2 ^ 32)
  simpa [CString] using hnul

/-- A string that is copied with its NUL arrives if and only if no character is overwritten before it
is read. -/
theorem cstring_copied_iff (hs : CString m src s) (dst : Addr) (hlen : s.length + 1 < 2 ^ 32) :
    CString (copied m src dst (s.length + 1)).mem dst s ↔ dst = src ∨ s.length < (dst - src).toNat := by
  have hread : ∀ i ≤ s.length, (copied m src dst (s.length + 1)).mem (dst + BitVec.ofNat 32 i) =
      m (src + BitVec.ofNat 32 (i % (dst - src).toNat)) := by
    intro i hi
    rw [copied_mem m src dst hlen (by omega), if_neg (by omega), if_pos (by omega)]
  constructor
  · intro hcopy
    by_contra hover
    push Not at hover
    obtain ⟨hne, hle⟩ := hover
    have hpos : 0 < (dst - src).toNat := by
      rw [Nat.pos_iff_ne_zero]
      intro hzero
      exact hne (by rw [← add_offset src dst, hzero]; simp)
    -- the place of the NUL has a character that stands in front of the destination
    have hchar := hs.ne_zero (i := s.length % (dst - src).toNat) ((Nat.mod_lt _ hpos).trans_le hle)
    rw [← hread s.length (Nat.le_refl _)] at hchar
    exact hchar hcopy.nul
  · intro hfits
    obtain ⟨hzero, hchars⟩ := cstring_iff.mp hs
    refine cstring_iff.mpr ⟨hzero, fun i hi => ?_⟩
    have hmod : i % (dst - src).toNat = i := by
      rcases hfits with rfl | hfar
      · rw [BitVec.sub_self]
        exact Nat.mod_zero i
      · exact Nat.mod_eq_of_lt (by omega)
    rw [hread i hi, hmod, hchars i hi]

/-- The promise is kept exactly under `CopyFits`. -/
theorem boundedCopy_iff (hs : CString m src s) (hmax : 1 ≤ max) :
    BoundedCopy m src dst max s ↔ CopyFits src dst max s := by
  have hmaxlt := max.isLt
  have hlen := hs.length_lt
  have hpos : 1 ≤ max.toNat := BitVec.le_def.mp hmax
  rw [boundedCopy_iff_copied hs, CopyFits]
  by_cases hwrap : s.length + 1 = 2 ^ 32
  · -- the length with the NUL is zero: the loop does nothing
    have hnone : copyLength s max = 0 := by
      rw [copyLength]
      omega
    rw [hnone]
    constructor
    · rintro ⟨-, hstr⟩
      have htake := congrArg List.length (hstr.eq (cstring_copied_zero m src dst))
      rw [List.length_take, List.length_nil] at htake
      exact Or.inr ⟨hwrap, BitVec.eq_of_toNat_eq (show max.toNat = 1 by omega)⟩
    · rintro (⟨hfew, -⟩ | ⟨-, hone⟩)
      · omega
      · rw [hone]
        exact ⟨by decide, cstring_copied_zero m src dst⟩
  · have hall : s.length + 1 < max.toNat → copyLength s max = s.length + 1 ∧ s.take (max.toNat - 1) = s := by
      intro hfew
      refine ⟨?_, List.take_of_length_le (by omega)⟩
      rw [copyLength]
      omega
    have hcopied := cstring_copied_iff hs dst (by omega)
    constructor
    · rintro ⟨hwrites, hstr⟩
      have hfew : s.length + 1 < max.toNat := by
        rw [copyLength] at hwrites
        omega
      rw [(hall hfew).1, (hall hfew).2] at hstr
      exact Or.inl ⟨hfew, hcopied.mp hstr⟩
    · rintro (⟨hfew, hfits⟩ | ⟨heq, -⟩)
      · rw [(hall hfew).1, (hall hfew).2]
        exact ⟨hfew, hcopied.mpr hfits⟩
      · exact absurd heq hwrap

end JustKernel.Klibc
