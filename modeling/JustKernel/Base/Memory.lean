import Mathlib.Logic.Function.Basic
import Mathlib.Data.Nat.Bitwise
import Mathlib.Tactic.Ring

/-! Byte-addressed memory with little-endian words. A load of `n` bytes is the
number those bytes spell, least significant first, and a store writes the low
`n` bytes of a number. The rules below are the only ones a client needs: a load
of what was just stored, a load of bytes the store did not touch, and the fact
that loads read nothing but their own bytes. Addresses are natural numbers; the
wrap-around of machine addresses is left to the client's own arithmetic. -/

namespace JustKernel.Memory

abbrev Byte := BitVec 8

abbrev Mem := ℕ → Byte

/-- The number spelled by the `n` bytes at `a`, least significant byte first. -/
def load (m : Mem) (a : ℕ) : ℕ → ℕ
  | 0 => 0
  | n + 1 => (m a).toNat + 256 * load m (a + 1) n

/-- Write the low `n` bytes of `v` at `a`. -/
def store (m : Mem) (a : ℕ) : ℕ → ℕ → Mem
  | 0, _ => m
  | n + 1, v => store (Function.update m a (BitVec.ofNat 8 v)) (a + 1) n (v / 256)

theorem load_lt (m : Mem) (a n : ℕ) : load m a n < 256 ^ n := by
  induction n generalizing a with
  | zero => simp [load]
  | succ n ih =>
    have hb := (m a).isLt
    have := ih (a + 1)
    rw [load, pow_succ]
    omega

/-- A load depends only on the bytes it reads. -/
theorem load_congr {m m' : Mem} {a n : ℕ} (h : ∀ x, a ≤ x → x < a + n → m x = m' x) :
    load m a n = load m' a n := by
  induction n generalizing a with
  | zero => rfl
  | succ n ih =>
    rw [load, load, h a le_rfl (by omega), ih (fun x h1 h2 => h x (by omega) (by omega))]

theorem store_apply_of_not_mem (m : Mem) (a n v x : ℕ) (h : x < a ∨ a + n ≤ x) :
    store m a n v x = m x := by
  induction n generalizing m a v with
  | zero => rfl
  | succ n ih =>
    rw [store, ih _ _ _ (by omega), Function.update_of_ne (by omega)]

/-- A byte after a store depends on that byte before it only. -/
theorem store_congr {m m' : Mem} {x : ℕ} (h : m x = m' x) (a n v : ℕ) :
    store m a n v x = store m' a n v x := by
  induction n generalizing m m' a v with
  | zero => exact h
  | succ n ih =>
    apply ih
    by_cases hx : x = a
    · rw [hx, Function.update_self, Function.update_self]
    · rw [Function.update_of_ne hx, Function.update_of_ne hx, h]

theorem load_store_same (m : Mem) (a n v : ℕ) : load (store m a n v) a n = v % 256 ^ n := by
  induction n generalizing m a v with
  | zero => simp [load, Nat.mod_one]
  | succ n ih =>
    have hhead : store (Function.update m a (BitVec.ofNat 8 v)) (a + 1) n (v / 256) a =
        BitVec.ofNat 8 v := by
      rw [store_apply_of_not_mem _ _ _ _ _ (by omega), Function.update_self]
    rw [load, store, hhead, ih, BitVec.toNat_ofNat, pow_succ' 256 n, Nat.mod_mul]

theorem load_store_of_disjoint (m : Mem) {a n v b k : ℕ} (h : a + n ≤ b ∨ b + k ≤ a) :
    load (store m a n v) b k = load m b k :=
  load_congr fun x h1 h2 => store_apply_of_not_mem m a n v x (by omega)

/-- A write of one byte, as a caller's own assignment makes it. -/
theorem load_update_of_not_mem (m : Mem) {x a n : ℕ} (b : Byte) (h : x < a ∨ a + n ≤ x) :
    load (Function.update m x b) a n = load m a n :=
  load_congr fun y h1 h2 => Function.update_of_ne (by omega) _ _

/-- A double word. -/
abbrev read32 (m : Mem) (a : ℕ) : ℕ := load m a 4

abbrev write32 (m : Mem) (a v : ℕ) : Mem := store m a 4 v

/-- A word. -/
abbrev read16 (m : Mem) (a : ℕ) : ℕ := load m a 2

abbrev write16 (m : Mem) (a v : ℕ) : Mem := store m a 2 v

theorem read32_lt (m : Mem) (a : ℕ) : read32 m a < 4294967296 := load_lt m a 4

theorem read16_lt (m : Mem) (a : ℕ) : read16 m a < 65536 := load_lt m a 2

theorem read32_write32 (m : Mem) (a v : ℕ) (h : v < 4294967296) :
    read32 (write32 m a v) a = v := by
  rw [read32, write32, load_store_same]
  exact Nat.mod_eq_of_lt h

theorem read32_write32_of_disjoint (m : Mem) {a v b : ℕ} (h : a + 4 ≤ b ∨ b + 4 ≤ a) :
    read32 (write32 m a v) b = read32 m b :=
  load_store_of_disjoint m h

end JustKernel.Memory
