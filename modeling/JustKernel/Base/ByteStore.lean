import JustKernel.Base.AddressSpace
import Mathlib.Logic.Function.Basic
import Mathlib.Data.List.Basic

/-! Bytes stored in a 32-bit address space. What a loop of single stores leaves in memory is one
`put`; the address space is a ring, and an address is known by its distance from the start. -/

namespace JustKernel.AddressSpace

open Memory (Byte)

/-- The memory with the bytes stored from `p` on. -/
def put (m : Mem32) (p : Addr) (bytes : List Byte) : Mem32 := fun a => bytes.getD (a - p).toNat (m a)

variable {m m' : Mem32} {p : Addr} {i j : ℕ} {b : Byte} {bytes xs ys : List Byte}

theorem toNat_offset (p : Addr) (hi : i < 2 ^ 32) : (p + BitVec.ofNat 32 i - p).toNat = i := by
  rw [BitVec.add_comm, BitVec.add_sub_cancel, BitVec.toNat_ofNat, Nat.mod_eq_of_lt hi]

theorem add_offset (p a : Addr) : p + BitVec.ofNat 32 (a - p).toNat = a := by
  rw [BitVec.ofNat_toNat, BitVec.setWidth_eq, BitVec.add_comm, BitVec.sub_add_cancel]

theorem offset_inj (hi : i < 2 ^ 32) (hj : j < 2 ^ 32) :
    p + BitVec.ofNat 32 i = p + BitVec.ofNat 32 j ↔ i = j := by
  refine ⟨fun h => ?_, fun h => h ▸ rfl⟩
  rw [← toNat_offset p hi, h, toNat_offset p hj]

/-- Memories that agree at every distance from `p` are the same. -/
theorem ext_offset (p : Addr) (h : ∀ i < 2 ^ 32, m (p + BitVec.ofNat 32 i) = m' (p + BitVec.ofNat 32 i)) :
    m = m' := by
  funext a
  rw [← add_offset p a]
  exact h _ (a - p).isLt

theorem put_offset (hi : i < 2 ^ 32) :
    put m p bytes (p + BitVec.ofNat 32 i) = bytes.getD i (m (p + BitVec.ofNat 32 i)) := by
  rw [put, toNat_offset p hi]

theorem put_nil : put m p [] = m := rfl

theorem update_offset (hi : i < 2 ^ 32) (hj : j < 2 ^ 32) :
    Function.update m (p + BitVec.ofNat 32 i) b (p + BitVec.ofNat 32 j) =
      if j = i then b else m (p + BitVec.ofNat 32 j) := by
  rw [Function.update_apply]
  exact if_congr (offset_inj hj hi) rfl rfl

/-- One more byte behind the others. -/
theorem update_put (hlen : bytes.length < 2 ^ 32) :
    Function.update (put m p bytes) (p + BitVec.ofNat 32 bytes.length) b = put m p (bytes ++ [b]) := by
  refine ext_offset p fun i hi => ?_
  rw [update_offset hlen hi, put_offset hi, put_offset hi]
  split_ifs with hlast
  · rw [hlast, List.getD_append_right _ _ _ _ (Nat.le_refl _), Nat.sub_self, List.getD_cons_zero]
  · rcases Nat.lt_or_gt_of_ne hlast with hlt | hgt
    · rw [List.getD_append _ _ _ _ hlt]
    · have hbehind : (bytes ++ [b]).length ≤ i := by simpa [Nat.succ_le_iff] using hgt
      rw [List.getD_eq_default _ _ (Nat.le_of_lt hgt), List.getD_eq_default _ _ hbehind]

theorem update_eq_put (m : Mem32) (p : Addr) (b : Byte) : Function.update m p b = put m p [b] := by
  have hfirst := update_put (m := m) (p := p) (b := b) (by decide : ([] : List Byte).length < 2 ^ 32)
  simpa [put_nil] using hfirst

end JustKernel.AddressSpace
