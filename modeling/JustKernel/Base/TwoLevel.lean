import Mathlib.Logic.Function.Basic
import Mathlib.Tactic.SplitIfs

/-! Two-level tables in a memory of frames. A directory is a frame whose present
entries name the frames of its tables, and the present entries of a table are
what the tree maps a pair of indices to. As long as no two directory entries
name the same table and the directory is not one of its own tables, the tree is
a finite map: writing an entry of a table changes the map at one key, adding an
empty table changes it nowhere, and writes to other frames are not seen. -/

namespace JustKernel.TwoLevel

variable {F I E : Type}

/-- How an entry is read: whether it is present, and the frame it names. -/
structure Format (F E : Type) where
  present : E → Bool
  address : E → F

section Writes

variable [DecidableEq F] [DecidableEq I]

/-- Write one entry of one frame. -/
def put (m : F → I → E) (f : F) (i : I) (e : E) : F → I → E :=
  Function.update m f (Function.update (m f) i e)

theorem put_self (m : F → I → E) (f : F) (i : I) (e : E) : put m f i e f i = e := by
  rw [put, Function.update_self, Function.update_self]

theorem put_eq_self (m : F → I → E) (f : F) (i : I) : put m f i (m f i) = m := by
  rw [put, Function.update_eq_self, Function.update_eq_self]

theorem put_of_frame_ne (m : F → I → E) {f g : F} (i : I) (e : E) (h : g ≠ f) :
    put m f i e g = m g := by
  rw [put, Function.update_of_ne h]

theorem put_of_index_ne (m : F → I → E) (f g : F) {i j : I} (e : E) (h : j ≠ i) :
    put m f i e g j = m g j := by
  by_cases hg : g = f
  · subst hg
    rw [put, Function.update_self, Function.update_of_ne h]
  · rw [put_of_frame_ne m i e hg]

end Writes

section Lookup

variable (φ : Format F E) (m : F → I → E) (d : F)

/-- The table that entry `i` of the directory names. -/
def tableAt (i : I) : Option F := if φ.present (m d i) then some (φ.address (m d i)) else none

/-- The entry the tree maps a pair of indices to. -/
def lookup (v : I × I) : Option E :=
  (tableAt φ m d v.1).bind fun t => if φ.present (m t v.2) then some (m t v.2) else none

/-- No table has two names, and the directory is none of its tables. -/
structure Tree : Prop where
  distinct : ∀ i j t, tableAt φ m d i = some t → tableAt φ m d j = some t → i = j
  notSelf : ∀ i, tableAt φ m d i ≠ some d

end Lookup

variable {φ : Format F E} {m m' : F → I → E} {d : F}

theorem tableAt_congr {i : I} (h : m' d i = m d i) : tableAt φ m' d i = tableAt φ m d i := by
  rw [tableAt, tableAt, h]

theorem lookup_of_none {v : I × I} (h : tableAt φ m d v.1 = none) : lookup φ m d v = none := by
  rw [lookup, h, Option.bind_none]

theorem lookup_of_some {v : I × I} {t : F} (h : tableAt φ m d v.1 = some t) :
    lookup φ m d v = if φ.present (m t v.2) then some (m t v.2) else none := by
  rw [lookup, h, Option.bind_some]

/-- The map depends only on the directory's entry and on the entry of the table it names. -/
theorem lookup_congr {v : I × I} (hdir : m' d v.1 = m d v.1)
    (htable : ∀ t, tableAt φ m d v.1 = some t → m' t v.2 = m t v.2) :
    lookup φ m' d v = lookup φ m d v := by
  cases h : tableAt φ m d v.1 with
  | none => rw [lookup_of_none h, lookup_of_none ((tableAt_congr hdir).trans h)]
  | some t => rw [lookup_of_some h, lookup_of_some ((tableAt_congr hdir).trans h), htable t h]

theorem Tree.congr (h : Tree φ m d) (heq : m' d = m d) : Tree φ m' d := by
  have htable : ∀ i, tableAt φ m' d i = tableAt φ m d i := fun i => tableAt_congr (congrFun heq i)
  constructor
  · intro i j t hi hj
    rw [htable] at hi hj
    exact h.distinct i j t hi hj
  · intro i
    rw [htable]
    exact h.notSelf i

section Writes

variable [DecidableEq F] [DecidableEq I]

/-- A write of an entry of a table changes the map at this entry only. -/
theorem lookup_put_entry (h : Tree φ m d) {i : I} {t : F} (ht : tableAt φ m d i = some t) (j : I)
    (e : E) (v : I × I) :
    lookup φ (put m t j e) d v =
      if v = (i, j) then (if φ.present e then some e else none) else lookup φ m d v := by
  have hdt : d ≠ t := by rintro rfl; exact h.notSelf i ht
  have hdir : ∀ k, put m t j e d k = m d k := fun k => congrFun (put_of_frame_ne m j e hdt) k
  by_cases hv : v = (i, j)
  · subst hv
    rw [if_pos rfl, lookup_of_some ((tableAt_congr (hdir i)).trans ht), put_self]
  · rw [if_neg hv]
    apply lookup_congr (hdir v.1)
    intro t' ht'
    by_cases htt : t' = t
    · subst htt
      have hi : v.1 = i := h.distinct _ _ _ ht' ht
      apply put_of_index_ne
      intro hj
      exact hv (Prod.ext hi hj)
    · rw [put_of_frame_ne m j e htt]

theorem put_entry_directory (h : Tree φ m d) {i : I} {t : F} (ht : tableAt φ m d i = some t) (j : I)
    (e : E) : put m t j e d = m d := by
  apply put_of_frame_ne
  rintro rfl
  exact h.notSelf i ht

theorem tableAt_put_table {i : I} {f : F} {e : E} (hname : φ.present e = true ∧ φ.address e = f)
    (k : I) : tableAt φ (put m d i e) d k = if k = i then some f else tableAt φ m d k := by
  by_cases hk : k = i
  · rw [if_pos hk, hk, tableAt, put_self, hname.1, hname.2, if_pos rfl]
  · rw [if_neg hk, tableAt_congr (put_of_index_ne m d d e hk)]

/-- Naming an empty new table in an absent directory entry does not change the map. -/
theorem lookup_put_table (h : Tree φ m d) {i : I} {f : F} {e : E}
    (habsent : tableAt φ m d i = none) (hname : φ.present e = true ∧ φ.address e = f) (hdf : f ≠ d)
    (hempty : ∀ j, φ.present (m f j) = false) (v : I × I) :
    lookup φ (put m d i e) d v = lookup φ m d v := by
  by_cases hv : v.1 = i
  · have hnew : tableAt φ (put m d i e) d v.1 = some f := by
      rw [tableAt_put_table hname, if_pos hv]
    have hkept : put m d i e f = m f := put_of_frame_ne m i e hdf
    rw [lookup_of_some hnew, hkept, hempty, lookup_of_none (hv ▸ habsent)]
    simp
  · apply lookup_congr (put_of_index_ne m d d e hv)
    intro t ht
    have htd : t ≠ d := by rintro rfl; exact h.notSelf _ ht
    rw [put_of_frame_ne m i e htd]

theorem Tree.put_table (h : Tree φ m d) {i : I} {f : F} {e : E}
    (hname : φ.present e = true ∧ φ.address e = f) (hdf : f ≠ d)
    (hfresh : ∀ j, tableAt φ m d j ≠ some f) : Tree φ (put m d i e) d := by
  constructor
  · intro j k t hj hk
    rw [tableAt_put_table hname] at hj hk
    split_ifs at hj hk with hji hki hki
    · rw [hji, hki]
    · cases hj
      exact absurd hk (hfresh k)
    · cases hk
      exact absurd hj (hfresh j)
    · exact h.distinct j k t hj hk
  · intro j
    rw [tableAt_put_table hname]
    split_ifs
    · intro heq
      exact hdf (Option.some.inj heq)
    · exact h.notSelf j

end Writes

end JustKernel.TwoLevel
