import JustKernel.Base.Memory
import Mathlib.Data.List.Basic

/-! Double words one behind the other in memory, and stacks of them that grow downwards.
Pushing words lays them out in the opposite order, the last one at the stack pointer, and
touches nothing else; the stack pointer wraps as the machine's does, and the rules ask for
as much room below it as the pushes take. -/

namespace JustKernel.Memory

/-- The words of the list lie in memory from `a` on. -/
def Laid (m : Mem) (a : ℕ) : List (BitVec 32) → Prop
  | [] => True
  | w :: ws => read32 m a = w.toNat ∧ Laid m (a + 4) ws

/-- Push the words one after the other. -/
def pushWords (m : Mem) (sp : BitVec 32) : List (BitVec 32) → Mem × BitVec 32
  | [] => (m, sp)
  | w :: ws => pushWords (write32 m (sp - 4).toNat w.toNat) (sp - 4) ws

variable {m m' : Mem} {a : ℕ} {sp : BitVec 32} {w : BitVec 32} {ws vs : List (BitVec 32)}

theorem Laid.congr (h : Laid m a ws) (hm : ∀ x, a ≤ x → x < a + 4 * ws.length → m' x = m x) : Laid m' a ws := by
  induction ws generalizing a with
  | nil => trivial
  | cons w ws ih =>
    rw [List.length_cons] at hm
    refine ⟨(load_congr fun x h1 h2 => hm x h1 (by omega)).trans h.1, ih h.2 fun x h1 h2 => ?_⟩
    exact hm x (by omega) (by omega)

/-- The word at an index. -/
theorem Laid.get {n : ℕ} (h : Laid m a ws) (hn : ws[n]? = some w) : read32 m (a + 4 * n) = w.toNat := by
  induction ws generalizing a n with
  | nil => simp at hn
  | cons v ws ih =>
    cases n with
    | zero =>
      obtain rfl : v = w := by simpa using hn
      exact h.1
    | succ n =>
      have hget := ih h.2 (by simpa using hn)
      rwa [show a + 4 + 4 * n = a + 4 * (n + 1) by omega] at hget

/-- A word is written over. -/
theorem Laid.set {n : ℕ} (h : Laid m a ws) (hn : n < ws.length) (v : BitVec 32) :
    Laid (write32 m (a + 4 * n) v.toNat) a (ws.set n v) := by
  induction ws generalizing a n with
  | nil => simp at hn
  | cons w ws ih =>
    cases n with
    | zero =>
      refine ⟨read32_write32 m a v.toNat v.isLt, h.2.congr fun x h1 h2 => ?_⟩
      exact store_apply_of_not_mem m _ 4 _ x (by omega)
    | succ n =>
      have htail := ih h.2 (by simpa using hn)
      rw [show a + 4 + 4 * n = a + 4 * (n + 1) by omega] at htail
      refine ⟨?_, htail⟩
      rw [read32_write32_of_disjoint m (by omega)]
      exact h.1

theorem pushWords_append : pushWords m sp (ws ++ vs) =
    pushWords (pushWords m sp ws).1 (pushWords m sp ws).2 vs := by
  induction ws generalizing m sp with
  | nil => rfl
  | cons w ws ih => exact ih

theorem toNat_pushWords (h : 4 * ws.length ≤ sp.toNat) :
    (pushWords m sp ws).2.toNat = sp.toNat - 4 * ws.length := by
  induction ws generalizing m sp with
  | nil => rfl
  | cons w ws ih =>
    rw [List.length_cons] at h ⊢
    have hsp : (sp - 4).toNat = sp.toNat - 4 := BitVec.toNat_sub_of_le (BitVec.le_def.mpr (by simp; omega))
    rw [pushWords, ih (by omega), hsp]
    omega

/-- Only the bytes between the two stack pointers are written. -/
theorem pushWords_other {x : ℕ} (h : 4 * ws.length ≤ sp.toNat) (hx : x < sp.toNat - 4 * ws.length ∨ sp.toNat ≤ x) :
    (pushWords m sp ws).1 x = m x := by
  induction ws generalizing m sp with
  | nil => rfl
  | cons w ws ih =>
    rw [List.length_cons] at h hx
    have hsp : (sp - 4).toNat = sp.toNat - 4 := BitVec.toNat_sub_of_le (BitVec.le_def.mpr (by simp; omega))
    rw [pushWords, ih (by omega) (by omega)]
    exact store_apply_of_not_mem _ _ _ _ _ (by omega)

/-- What has been pushed lies at the stack pointer, on top of what was there. -/
theorem Laid.push (h : Laid m sp.toNat vs) (hws : 4 * ws.length ≤ sp.toNat) :
    Laid (pushWords m sp ws).1 (pushWords m sp ws).2.toNat (ws.reverse ++ vs) := by
  induction ws generalizing m sp vs with
  | nil => exact h
  | cons w ws ih =>
    rw [List.length_cons] at hws
    have hsp : (sp - 4).toNat = sp.toNat - 4 := BitVec.toNat_sub_of_le (BitVec.le_def.mpr (by simp; omega))
    rw [pushWords, List.reverse_cons, List.append_assoc]
    have hlaid : Laid (write32 m (sp - 4).toNat w.toNat) (sp - 4).toNat (w :: vs) := by
      refine ⟨read32_write32 _ _ _ w.isLt, ?_⟩
      rw [hsp, Nat.sub_add_cancel (by omega)]
      exact h.congr fun x hlo _ => store_apply_of_not_mem _ _ _ _ _ (by omega)
    exact ih hlaid (by omega)

end JustKernel.Memory
