import JustKernel.Base.Memory
import Mathlib.Data.Nat.Notation

/-! A 32-bit address space of bytes. Addresses are machine words, so that pointer arithmetic
wraps around by itself, and words are little endian. -/

namespace JustKernel.AddressSpace

open Memory (Byte)

abbrev Addr := BitVec 32

abbrev Mem32 := Addr → Byte

def read16 (m : Mem32) (a : Addr) : BitVec 16 := m (a + 1) ++ m a

def read32 (m : Mem32) (a : Addr) : BitVec 32 := m (a + 3) ++ m (a + 2) ++ m (a + 1) ++ m a

def read64 (m : Mem32) (a : Addr) : BitVec 64 := read32 m (a + 4) ++ read32 m a

/-- `&head[i]` for elements of `size` bytes. -/
def entry (head : Addr) (size i : ℕ) : Addr := head + BitVec.ofNat 32 (size * i)

theorem add_ofNat_succ (p : Addr) (n : ℕ) : p + BitVec.ofNat 32 (n + 1) = p + 1 + BitVec.ofNat 32 n := by
  rw [BitVec.add_assoc, BitVec.add_comm 1, BitVec.ofNat_add]
  rfl

/-- The bytes in memory from `p` on. -/
def Spells (m : Mem32) (p : Addr) : List Byte → Prop
  | [] => True
  | b :: bs => m p = b ∧ Spells m (p + 1) bs

theorem spells_append {m : Mem32} {p : Addr} {xs ys : List Byte} :
    Spells m p (xs ++ ys) ↔ Spells m p xs ∧ Spells m (p + BitVec.ofNat 32 xs.length) ys := by
  induction xs generalizing p with
  | nil => simp [Spells]
  | cons x xs ih => rw [List.cons_append, Spells, Spells, ih, List.length_cons, add_ofNat_succ, and_assoc]

end JustKernel.AddressSpace
