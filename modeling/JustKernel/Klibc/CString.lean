import JustKernel.Base.ByteStore

/-! `strlen` and `strcmp` of `klibc/string.c` on memory. Both loops run until they meet a NUL:
`2 ^ 32` steps visit every address, so a loop that uses them up never ends. -/

namespace JustKernel.Klibc

open AddressSpace
open Memory (Byte)

/-- The loop of `strlen` at the index `len`. -/
def strlenLoop (m : Mem32) (str : Addr) : ℕ → BitVec 32 → Option (BitVec 32)
  | 0, _ => none
  | fuel + 1, len => if m (str + len) = 0 then some len else strlenLoop m str fuel (len + 1)

def strlen (m : Mem32) (str : Addr) : Option (BitVec 32) := strlenLoop m str (2 ^ 32) 0

def strcmpLoop (m : Mem32) : ℕ → Addr → Addr → Option ℤ
  | 0, _, _ => none
  | fuel + 1, s1, s2 =>
    if m s1 ≠ 0 ∧ m s2 ≠ 0 then
      if m s1 ≠ m s2 then some 1 else strcmpLoop m fuel (s1 + 1) (s2 + 1)
    else some 0

def strcmp (m : Mem32) (s1 s2 : Addr) : Option ℤ := do
  let len1 ← strlen m s1
  let len2 ← strlen m s2
  if len1 ≠ len2 then some 1 else strcmpLoop m (2 ^ 32) s1 s2

/-- The characters before the first NUL from `p` on. -/
def CString (m : Mem32) (p : Addr) : List Byte → Prop
  | [] => m p = 0
  | b :: s => m p = b ∧ b ≠ 0 ∧ CString m (p + 1) s

variable {m : Mem32} {p q : Addr} {s t : List Byte}

theorem CString.nul (h : CString m p s) : m (p + BitVec.ofNat 32 s.length) = 0 := by
  induction s generalizing p with
  | nil => simpa [CString] using h
  | cons b s ih => rw [List.length_cons, add_ofNat_succ, ih h.2.2]

theorem CString.ne_zero (h : CString m p s) {i : ℕ} (hi : i < s.length) :
    m (p + BitVec.ofNat 32 i) ≠ 0 := by
  induction s generalizing p i with
  | nil => exact absurd hi (Nat.not_lt_zero i)
  | cons b s ih =>
    cases i with
    | zero => simpa [h.1] using h.2.1
    | succ i =>
      rw [add_ofNat_succ]
      exact ih h.2.2 (Nat.lt_of_succ_lt_succ hi)

/-- Memory is a ring: a string that went all the way round would meet its own NUL. -/
theorem CString.length_lt (h : CString m p s) : s.length < 2 ^ 32 := by
  by_contra hge
  have hnul := h.nul
  have hback : BitVec.ofNat 32 s.length = BitVec.ofNat 32 (s.length - 2 ^ 32) := by
    apply BitVec.eq_of_toNat_eq
    simp only [BitVec.toNat_ofNat]
    omega
  rw [hback] at hnul
  exact h.ne_zero (by omega) hnul

/-- A string by its characters, read at their distance from the start. -/
theorem cstring_iff : CString m p s ↔ 0 ∉ s ∧ ∀ i ≤ s.length, m (p + BitVec.ofNat 32 i) = s.getD i 0 := by
  induction s generalizing p with
  | nil => simp [CString]
  | cons b s ih =>
    have hsplit : (∀ i ≤ s.length + 1, m (p + BitVec.ofNat 32 i) = (b :: s).getD i 0) ↔
        m p = b ∧ ∀ i ≤ s.length, m (p + 1 + BitVec.ofNat 32 i) = s.getD i 0 := by
      constructor
      · intro h
        refine ⟨by simpa using h 0 (Nat.zero_le _), fun i hi => ?_⟩
        rw [← add_ofNat_succ, h (i + 1) (Nat.succ_le_succ hi), List.getD_cons_succ]
      · rintro ⟨hb, h⟩ (_ | i) hi
        · simpa using hb
        · rw [add_ofNat_succ, h i (Nat.le_of_succ_le_succ hi), List.getD_cons_succ]
    rw [CString, ih, List.length_cons, hsplit, List.mem_cons, not_or, ne_comm]
    tauto

theorem cstring_put (hzero : 0 ∉ s) (hlen : s.length < 2 ^ 32) : CString (put m p (s ++ [0])) p s := by
  refine cstring_iff.mpr ⟨hzero, fun i hi => ?_⟩
  rw [put_offset (by omega)]
  rcases Nat.lt_or_eq_of_le hi with hlt | rfl
  · rw [List.getD_append _ _ _ _ hlt, List.getD_eq_getElem _ _ hlt, List.getD_eq_getElem _ _ hlt]
  · rw [List.getD_append_right _ _ _ _ (Nat.le_refl _), Nat.sub_self, List.getD_cons_zero,
      List.getD_eq_default _ _ (Nat.le_refl _)]

theorem CString.eq (hs : CString m p s) (ht : CString m p t) : s = t := by
  induction s generalizing p t with
  | nil =>
    cases t with
    | nil => rfl
    | cons b t => exact absurd (ht.1.symm.trans hs) ht.2.1
  | cons b s ih =>
    cases t with
    | nil => exact absurd (hs.1.symm.trans ht) hs.2.1
    | cons c t => rw [← hs.1, ← ht.1, ih hs.2.2 ht.2.2]

/-- With a NUL anywhere in memory there is a string at every address. -/
theorem CString.exists (z : Addr) (hz : m z = 0) (p : Addr) : ∃ s, CString m p s := by
  have hn : m (p + BitVec.ofNat 32 (z - p).toNat) = 0 := by
    rw [BitVec.ofNat_toNat, BitVec.setWidth_eq, BitVec.add_comm, BitVec.sub_add_cancel, hz]
  generalize (z - p).toNat = n at hn
  induction n generalizing p with
  | zero => exact ⟨[], by simpa [CString] using hn⟩
  | succ n ih =>
    by_cases hp : m p = 0
    · exact ⟨[], hp⟩
    · obtain ⟨s, hs⟩ := ih (p + 1) (by rwa [add_ofNat_succ] at hn)
      exact ⟨m p :: s, rfl, hp, hs⟩

theorem strlenLoop_eq {fuel : ℕ} {len : BitVec 32} (h : CString m (p + len) s) (hfuel : s.length < fuel) :
    strlenLoop m p fuel len = some (len + BitVec.ofNat 32 s.length) := by
  induction s generalizing fuel len with
  | nil =>
    obtain ⟨fuel, rfl⟩ := Nat.exists_eq_succ_of_ne_zero (Nat.ne_of_gt hfuel)
    rw [strlenLoop, if_pos (show m (p + len) = 0 from h)]
    simp
  | cons b s ih =>
    obtain ⟨fuel, rfl⟩ := Nat.exists_eq_succ_of_ne_zero (Nat.ne_of_gt (Nat.zero_lt_of_lt hfuel))
    obtain ⟨hb, hne, hs⟩ := h
    rw [strlenLoop, if_neg (hb ▸ hne), ih (by rwa [← BitVec.add_assoc]) (Nat.lt_of_succ_lt_succ hfuel),
      List.length_cons, add_ofNat_succ]

theorem strlen_eq (h : CString m p s) : strlen m p = some (BitVec.ofNat 32 s.length) := by
  rw [strlen, strlenLoop_eq (by simpa using h) h.length_lt]
  simp

theorem strcmpLoop_eq {fuel : ℕ} (hs : CString m p s) (ht : CString m q t) (hlen : s.length = t.length)
    (hfuel : s.length < fuel) : strcmpLoop m fuel p q = some (if s = t then 0 else 1) := by
  induction s generalizing fuel p q t with
  | nil =>
    obtain ⟨fuel, rfl⟩ := Nat.exists_eq_succ_of_ne_zero (Nat.ne_of_gt hfuel)
    rw [List.length_eq_zero_iff.mp hlen.symm, strcmpLoop, if_neg (fun h => h.1 hs), if_pos rfl]
  | cons b s ih =>
    obtain ⟨fuel, rfl⟩ := Nat.exists_eq_succ_of_ne_zero (Nat.ne_of_gt (Nat.zero_lt_of_lt hfuel))
    cases t with
    | nil => exact absurd hlen (Nat.succ_ne_zero _)
    | cons c t =>
      obtain ⟨hb, hbne, hs⟩ := hs
      obtain ⟨hc, hcne, ht⟩ := ht
      rw [strcmpLoop, if_pos ⟨hb ▸ hbne, hc ▸ hcne⟩, hb, hc]
      by_cases hbc : b = c
      · rw [if_neg (not_not.mpr hbc), ih hs ht (Nat.succ.inj hlen) (Nat.lt_of_succ_lt_succ hfuel)]
        simp [hbc]
      · rw [if_pos hbc, if_neg (fun h => hbc (List.cons.inj h).1)]

/-- `strcmp` ends on two strings and tells whether they are the same. -/
theorem strcmp_eq (hs : CString m p s) (ht : CString m q t) :
    strcmp m p q = some (if s = t then 0 else 1) := by
  have hinj : BitVec.ofNat 32 s.length = BitVec.ofNat 32 t.length ↔ s.length = t.length := by
    rw [← BitVec.toNat_inj, BitVec.toNat_ofNat, BitVec.toNat_ofNat, Nat.mod_eq_of_lt hs.length_lt,
      Nat.mod_eq_of_lt ht.length_lt]
  rw [strcmp, strlen_eq hs, strlen_eq ht]
  simp only [Option.bind_eq_bind, Option.bind_some, ne_eq, hinj]
  by_cases hlen : s.length = t.length
  · rw [if_neg (not_not.mpr hlen), strcmpLoop_eq hs ht hlen hs.length_lt]
  · rw [if_pos hlen, if_neg (fun h => hlen (congrArg List.length h))]

end JustKernel.Klibc
