import JustKernel.Base.Links

/-! The lists of `klibc/llist.h`. A head and the nodes behind it are rings in memory, and a node
says nowhere which list it is on: the operations see the two links of a node and the nodes
they lead to. What a whole kernel's worth of lists is about is which nodes stand on which list
in which order. Every operation does to the rings what it says for the lists, on all lists at
once, whatever was done before. -/

namespace JustKernel.Llist

open Memory Links

/-! ### The operations -/

/-- `INIT_LIST_HEAD`. -/
def initListHead (ptr : ℕ) (m : Mem) : Mem := write32 (write32 m ptr ptr) (ptr + 4) ptr

/-- `list_add`; `__list_add` is `link`. -/
def listAdd (new head : ℕ) (m : Mem) : Mem := link m new head (nextOf m head)

def listAddTail (new head : ℕ) (m : Mem) : Mem := link m new (prevOf m head) head

/-- `__list_del_entry`; `__list_del` is `unlink`. -/
def listDelEntry (entry : ℕ) (m : Mem) : Mem := unlink m (prevOf m entry) (nextOf m entry)

def listDel (entry : ℕ) (m : Mem) : Mem := write32 (write32 (listDelEntry entry m) entry 0) (entry + 4) 0

def listDelInit (entry : ℕ) (m : Mem) : Mem := initListHead entry (listDelEntry entry m)

def listMove (list head : ℕ) (m : Mem) : Mem := listAdd list head (listDelEntry list m)

def listMoveTail (list head : ℕ) (m : Mem) : Mem := listAddTail list head (listDelEntry list m)

def listEmpty (head : ℕ) (m : Mem) : Bool := nextOf m head = head ∨ nextOf m head = 0

/-- `list_size`, with the fuel of its loop. -/
def listSize (head : ℕ) (m : Mem) (fuel : ℕ) : Option ℕ :=
  forEach (fun _ => nextOf m) head (fun _ size => some (size + 1)) fuel (nextOf m head) 0

/-- What `list_for_each` comes past. -/
def listForEach (head : ℕ) (m : Mem) (fuel : ℕ) : Option (List ℕ) :=
  forEach (fun _ => nextOf m) head (fun pos met => some (met ++ [pos])) fuel (nextOf m head) []

/-- What `list_for_each_prev` comes past. -/
def listForEachPrev (head : ℕ) (m : Mem) (fuel : ℕ) : Option (List ℕ) :=
  forEach (fun _ => prevOf m) head (fun pos met => some (met ++ [pos])) fuel (prevOf m head) []

/-! ### Lists and rings -/

/-- The lists by their heads. -/
abbrev Lists := ℕ → Option (List ℕ)

/-- The head or a node of the list at `h`. -/
def Owns (ls : Lists) (h u : ℕ) : Prop := ∃ l, ls h = some l ∧ u ∈ h :: l

/-- Two nodes share no byte. -/
def Apart (u v : ℕ) : Prop := u + 8 ≤ v ∨ v + 8 ≤ u

/-- A place for a node, or for a head, that touches none there is. -/
structure Fresh (ls : Lists) (x : ℕ) : Prop where
  pos : 0 < x
  fits : x + 8 ≤ 4294967296
  apart : ∀ h u, Owns ls h u → Apart x u

structure Represents (m : Mem) (ls : Lists) : Prop where
  ring : ∀ h l, ls h = some l → Ring (nextOf m) (prevOf m) h l
  single : ∀ h h' u, Owns ls h u → Owns ls h' u → h = h'
  sep : ∀ h h' u v, Owns ls h u → Owns ls h' v → u = v ∨ Apart u v
  pos : ∀ h u, Owns ls h u → 0 < u
  fits : ∀ h u, Owns ls h u → u + 8 ≤ 4294967296

/-- `e` is on no list. -/
def remove (e : ℕ) (ls : Lists) : Lists := fun h => (ls h).map (·.erase e)

def insertHead (x h : ℕ) (ls : Lists) : Lists := Function.update ls h ((ls h).map (x :: ·))

def insertTail (x h : ℕ) (ls : Lists) : Lists := Function.update ls h ((ls h).map (· ++ [x]))

inductive Op
  | init (head : ℕ)
  | add (new head : ℕ)
  | addTail (new head : ℕ)
  | del (entry : ℕ)
  | delInit (entry : ℕ)
  | move (list head : ℕ)
  | moveTail (list head : ℕ)

def Op.run : Op → Mem → Mem
  | .init head => initListHead head
  | .add new head => listAdd new head
  | .addTail new head => listAddTail new head
  | .del entry => listDel entry
  | .delInit entry => listDelInit entry
  | .move list head => listMove list head
  | .moveTail list head => listMoveTail list head

/-- What the operation is for. -/
def Op.apply : Op → Lists → Lists
  | .init head, ls => Function.update ls head (some [])
  | .add new head, ls => insertHead new head ls
  | .addTail new head, ls => insertTail new head ls
  | .del entry, ls => remove entry ls
  | .delInit entry, ls => remove entry ls
  | .move list head, ls => insertHead list head (remove list ls)
  | .moveTail list head, ls => insertTail list head (remove list ls)

/-- A node is put on a list when it is on none, and taken off one when it is on one. A head is
made at a fresh place, or made again. -/
def Op.Allowed (ls : Lists) : Op → Prop
  | .init head => Fresh ls head ∨ ls head ≠ none
  | .add new head | .addTail new head => Fresh ls new ∧ ls head ≠ none
  | .del entry | .delInit entry => ∃ h l, ls h = some l ∧ entry ∈ l
  | .move list head | .moveTail list head => (∃ h l, ls h = some l ∧ list ∈ l) ∧ ls head ≠ none

section Change

variable {m m' : Mem} {ls : Lists} {S l l' : List ℕ} {h x u e : ℕ}

theorem owns_head (hl : ls h = some l) : Owns ls h h := ⟨l, hl, List.mem_cons_self⟩

theorem owns_of_mem (hl : ls h = some l) (hu : u ∈ l) : Owns ls h u := ⟨l, hl, List.mem_cons_of_mem _ hu⟩

theorem Fresh.not_owns (hx : Fresh ls x) : ¬Owns ls h x := by
  intro ho
  rcases hx.apart h x ho with hlt | hlt <;> omega

/-- A ring none of whose nodes is written is still there. -/
theorem ring_of_sameOff (hr : Ring (nextOf m) (prevOf m) h l) (hsame : SameOff S m m')
    (hapart : ∀ a ∈ h :: l, ∀ u ∈ S, Apart a u) : Ring (nextOf m') (prevOf m') h l := by
  apply hr.congr
  · intro a ha
    apply hsame.read32
    intro u hu
    have := hapart a ha u hu
    unfold Apart at this
    omega
  · intro a ha
    apply hsame.read32
    intro u hu
    have := hapart a ha u hu
    unfold Apart at this
    omega

/-- The rule for a change of one list: the nodes that are written are of that list or of none. -/
theorem Represents.change (hr : Represents m ls) (hsame : SameOff S m m')
    (hS : ∀ u ∈ S, Owns ls h u ∨ Fresh ls u) (hsep : ∀ u ∈ S, ∀ v ∈ S, u = v ∨ Apart u v)
    (hring : Ring (nextOf m') (prevOf m') h l') (hl' : ∀ u ∈ h :: l', u ∈ S) :
    Represents m' (Function.update ls h (some l')) := by
  have hnew : ∀ u, Owns (Function.update ls h (some l')) h u → u ∈ S := by
    rintro u ⟨l, hl, hu⟩
    obtain rfl : l' = l := by simpa using hl
    exact hl' u hu
  have hold : ∀ h' u, h' ≠ h → Owns (Function.update ls h (some l')) h' u → Owns ls h' u := by
    rintro h' u hne ⟨l, hl, hu⟩
    exact ⟨l, by simpa [hne] using hl, hu⟩
  have hfar : ∀ h' u v, h' ≠ h → Owns ls h' u → v ∈ S → Apart u v := by
    intro h' u v hne hu hv
    rcases hS v hv with ho | hf
    · rcases hr.sep h' h u v hu ho with rfl | hap
      · exact absurd (hr.single h' h u hu ho) hne
      · exact hap
    · exact (hf.apart h' u hu).symm
  constructor
  · intro h' l hl
    by_cases hne : h' = h
    · subst hne
      obtain rfl : l' = l := by simpa using hl
      exact hring
    · have hl : ls h' = some l := by simpa [hne] using hl
      exact ring_of_sameOff (hr.ring h' l hl) hsame fun a ha u hu => hfar h' a u hne ⟨l, hl, ha⟩ hu
  · intro h₁ h₂ u h₁u h₂u
    by_cases hne₁ : h₁ = h <;> by_cases hne₂ : h₂ = h
    · rw [hne₁, hne₂]
    · subst hne₁
      have := hfar h₂ u u hne₂ (hold h₂ u hne₂ h₂u) (hnew u h₁u)
      unfold Apart at this
      omega
    · subst hne₂
      have := hfar h₁ u u hne₁ (hold h₁ u hne₁ h₁u) (hnew u h₂u)
      unfold Apart at this
      omega
    · exact hr.single h₁ h₂ u (hold h₁ u hne₁ h₁u) (hold h₂ u hne₂ h₂u)
  · intro h₁ h₂ u v h₁u h₂v
    by_cases hne₁ : h₁ = h <;> by_cases hne₂ : h₂ = h
    · subst hne₁ hne₂
      exact hsep u (hnew u h₁u) v (hnew v h₂v)
    · subst hne₁
      exact Or.inr (hfar h₂ v u hne₂ (hold h₂ v hne₂ h₂v) (hnew u h₁u)).symm
    · subst hne₂
      exact Or.inr (hfar h₁ u v hne₁ (hold h₁ u hne₁ h₁u) (hnew v h₂v))
    · exact hr.sep h₁ h₂ u v (hold h₁ u hne₁ h₁u) (hold h₂ v hne₂ h₂v)
  all_goals
    intro h' u hu
    by_cases hne : h' = h
    · subst hne
      rcases hS u (hnew u hu) with ho | hf
      · first | exact hr.pos h' u ho | exact hr.fits h' u ho
      · first | exact hf.pos | exact hf.fits
    · first | exact hr.pos h' u (hold h' u hne hu) | exact hr.fits h' u (hold h' u hne hu)

/-- The rule for a change of no list. -/
theorem Represents.of_sameOff (hr : Represents m ls) (hsame : SameOff S m m')
    (hS : ∀ u ∈ S, ∀ h a, Owns ls h a → Apart a u) : Represents m' ls := by
  constructor
  · exact fun h l hl => ring_of_sameOff (hr.ring h l hl) hsame fun a ha u hu => hS u hu h a ⟨l, hl, ha⟩
  · exact hr.single
  · exact hr.sep
  · exact hr.pos
  · exact hr.fits

theorem Represents.write_fresh (hr : Represents m ls) (hx : Fresh ls x) (hsame : SameOff [x] m m') :
    Represents m' ls := by
  apply hr.of_sameOff hsame
  intro u hu h a ha
  obtain rfl : u = x := by simpa using hu
  exact (hx.apart h a ha).symm

theorem Represents.separated (hr : Represents m ls) (hl : ls h = some l) : Separated (h :: l) :=
  fun _ hu _ hv => hr.sep h h _ _ ⟨l, hl, hu⟩ ⟨l, hl, hv⟩

theorem Represents.lt (hr : Represents m ls) (hl : ls h = some l) (hu : u ∈ h :: l) : u < 4294967296 := by
  have := hr.fits h u ⟨l, hl, hu⟩
  omega

end Change

/-! ### One list changes -/

section Lists

/-- Both links of a node are written. -/
theorem sameOff_links (x v w : ℕ) (m : Mem) : SameOff [x] m (write32 (write32 m x v) (x + 4) w) :=
  (sameOff_write32 (List.mem_singleton_self x) (by omega) (by omega) m v).trans
    (sameOff_write32 (List.mem_singleton_self x) (by omega) (by omega) _ w)

variable {m : Mem} {ls : Lists} {l r : List ℕ} {h x e : ℕ}

theorem Represents.init (hr : Represents m ls) (hx : Fresh ls x ∨ ls x ≠ none) :
    Represents (initListHead x m) (Function.update ls x (some [])) := by
  have hx32 : x + 8 ≤ 4294967296 := by
    rcases hx with hx | hx
    · exact hx.fits
    · obtain ⟨l, hl⟩ := Option.ne_none_iff_exists'.mp hx
      exact hr.fits x x (owns_head hl)
  apply hr.change (S := [x])
  · exact sameOff_links x x x m
  · simp only [List.mem_singleton, forall_eq]
    apply hx.symm.imp_left
    intro hne
    obtain ⟨l, hl⟩ := Option.ne_none_iff_exists'.mp hne
    exact owns_head hl
  · simp
  · have hn : nextOf (initListHead x m) x = x := by
      rw [initListHead, nextOf_writePrev (Or.inl rfl), nextOf_writeNext_same (by omega)]
    have hp : prevOf (initListHead x m) x = x := prevOf_writePrev_same (by omega)
    constructor
    · simp
    · simp [Follows, hn, hp]
  · simp

/-- A fresh node goes into a gap. -/
theorem Represents.link (hr : Represents m ls) (hl : ls h = some (l ++ r)) (hx : Fresh ls x) :
    Represents (link m x (l.getLastD h) (r.headD h)) (Function.update ls h (some (l ++ x :: r))) := by
  obtain ⟨hp, hn⟩ := ends_mem h l r
  have howns : ∀ u ∈ h :: (l ++ r), Owns ls h u := fun u hu => ⟨l ++ r, hl, hu⟩
  have hxs : ∀ u ∈ h :: (l ++ r), Apart x u := fun u hu => hx.apart h u (howns u hu)
  have hsep : Separated (x :: h :: (l ++ r)) := by
    intro u hu v hv
    rcases List.mem_cons.mp hu with hux | hu <;> rcases List.mem_cons.mp hv with hvx | hv
    · exact Or.inl (hux.trans hvx.symm)
    · exact Or.inr (hux ▸ hxs v hv)
    · exact Or.inr (hvx ▸ (hxs u hu).symm)
    · exact hr.separated hl u hu v hv
  apply hr.change (S := x :: h :: (l ++ r))
  · exact sameOff_link (by simp) (List.mem_cons_of_mem _ hp) (List.mem_cons_of_mem _ hn) m
  · intro u hu
    rcases List.mem_cons.mp hu with rfl | hu
    · exact Or.inr hx
    · exact Or.inl (howns u hu)
  · exact hsep
  · apply (hr.ring h _ hl).link_spec
    · exact fun hm => hx.not_owns (howns x hm)
    · exact hsep
    · intro u hu
      rcases List.mem_cons.mp hu with rfl | hu
      · have := hx.fits
        omega
      · exact hr.lt hl hu
  · intro u hu
    simp only [List.mem_cons, List.mem_append] at hu ⊢
    tauto

theorem Represents.unlink (hr : Represents m ls) (hl : ls h = some (l ++ e :: r)) :
    Represents (listDelEntry e m) (Function.update ls h (some (l ++ r))) := by
  have hring := hr.ring h _ hl
  have hsub : ∀ u ∈ h :: (l ++ r), u ∈ h :: (l ++ e :: r) := by
    intro u hu
    simp only [List.mem_cons, List.mem_append] at hu ⊢
    tauto
  obtain ⟨hp, hn⟩ := ends_mem h l r
  rw [listDelEntry, hring.prv_eq, hring.nxt_eq]
  apply hr.change (S := h :: (l ++ e :: r))
  · exact sameOff_unlink (hsub _ hp) (hsub _ hn) m
  · exact fun u hu => Or.inl ⟨_, hl, hu⟩
  · exact hr.separated hl
  · apply hring.unlink_spec
    · exact fun u hu v hv => hr.separated hl u (hsub u hu) v (hsub v hv)
    · exact fun u hu => hr.lt hl (hsub u hu)
  · exact hsub

/-- Taking a node off is a change of the one list it is on. -/
theorem Represents.remove_eq (hr : Represents m ls) (hl : ls h = some (l ++ e :: r)) :
    remove e ls = Function.update ls h (some (l ++ r)) := by
  funext h'
  by_cases hne : h' = h
  · subst hne
    have hnot : e ∉ l := by
      have := (List.nodup_cons.mp (hr.ring h' _ hl).nodup).2
      exact fun hm => (List.nodup_append.mp this).2.2 e hm e (by simp) rfl
    simp [remove, hl, List.erase_append_right _ hnot]
  · rw [Function.update_of_ne hne, remove]
    cases hl' : ls h' with
    | none => rfl
    | some l' =>
      have hnot : e ∉ l' := fun hm => hne (hr.single h' h e (owns_of_mem hl' hm) ⟨_, hl, by simp⟩)
      rw [Option.map_some, List.erase_of_not_mem hnot]

/-- A node that has been taken off can be put on again. -/
theorem Represents.fresh_remove (hr : Represents m ls) (hl : ls h = some l) (he : e ∈ l) :
    Fresh (remove e ls) e := by
  have hown := owns_of_mem hl he
  constructor
  · exact hr.pos h e hown
  · exact hr.fits h e hown
  · rintro h' u ⟨l', hl', hu⟩
    obtain ⟨l₀, hl₀, rfl⟩ : ∃ l₀, ls h' = some l₀ ∧ l₀.erase e = l' := by simpa [remove] using hl'
    have hnodup := (hr.ring h' l₀ hl₀).nodup
    have hu₀ : u ∈ h' :: l₀ := List.mem_cons.mpr ((List.mem_cons.mp hu).imp_right List.mem_of_mem_erase)
    apply (hr.sep h h' e u hown ⟨l₀, hl₀, hu₀⟩).resolve_left
    rintro rfl
    rcases List.mem_cons.mp hu with rfl | hu
    · obtain rfl := hr.single h e e hown ⟨l₀, hl₀, hu₀⟩
      exact (List.nodup_cons.mp (hr.ring _ l hl).nodup).1 he
    · exact (List.nodup_cons.mp hnodup).2.not_mem_erase hu

theorem Represents.insertHead (hr : Represents m ls) (hx : Fresh ls x) (hh : ls h ≠ none) :
    Represents (listAdd x h m) (insertHead x h ls) := by
  obtain ⟨l, hl⟩ := Option.ne_none_iff_exists'.mp hh
  have hspec := hr.link (l := []) hl hx
  rw [List.getLastD_nil, ← (hr.ring h l hl).nxt_head] at hspec
  simpa [listAdd, Llist.insertHead, hl] using hspec

theorem Represents.insertTail (hr : Represents m ls) (hx : Fresh ls x) (hh : ls h ≠ none) :
    Represents (listAddTail x h m) (insertTail x h ls) := by
  obtain ⟨l, hl⟩ := Option.ne_none_iff_exists'.mp hh
  have hl' : ls h = some (l ++ []) := by simpa using hl
  have hspec := hr.link hl' hx
  have hprev : prevOf m h = l.getLastD h := (hr.ring h _ hl').follows.2
  rw [List.headD_nil, ← hprev] at hspec
  simpa [listAddTail, Llist.insertTail, hl] using hspec

theorem Represents.listDelEntry (hr : Represents m ls) (hl : ls h = some l) (he : e ∈ l) :
    Represents (listDelEntry e m) (remove e ls) := by
  obtain ⟨l, r, rfl⟩ := List.append_of_mem he
  rw [hr.remove_eq hl]
  exact hr.unlink hl

theorem remove_ne_none (hh : ls h ≠ none) : remove e ls h ≠ none := by
  simpa [remove] using hh

/-- One operation: the rings do what the lists do. -/
theorem Represents.run {o : Op} (hr : Represents m ls) (ho : o.Allowed ls) :
    Represents (o.run m) (o.apply ls) := by
  cases o with
  | init head => exact hr.init ho
  | add new head => exact hr.insertHead ho.1 ho.2
  | addTail new head => exact hr.insertTail ho.1 ho.2
  | del entry =>
    obtain ⟨h, l, hl, he⟩ := ho
    rw [Op.run, listDel]
    exact (hr.listDelEntry hl he).write_fresh (hr.fresh_remove hl he) (sameOff_links entry 0 0 _)
  | delInit entry =>
    obtain ⟨h, l, hl, he⟩ := ho
    rw [Op.run, listDelInit, initListHead]
    exact (hr.listDelEntry hl he).write_fresh (hr.fresh_remove hl he) (sameOff_links entry entry entry _)
  | move list head =>
    obtain ⟨⟨h, l, hl, he⟩, hh⟩ := ho
    rw [Op.run, listMove]
    exact (hr.listDelEntry hl he).insertHead (hr.fresh_remove hl he) (remove_ne_none hh)
  | moveTail list head =>
    obtain ⟨⟨h, l, hl, he⟩, hh⟩ := ho
    rw [Op.run, listMoveTail]
    exact (hr.listDelEntry hl he).insertTail (hr.fresh_remove hl he) (remove_ne_none hh)

/-! ### What is read of a list -/

theorem Represents.listSize (hr : Represents m ls) (hl : ls h = some l) :
    listSize h m (l.length + 1) = some l.length := by
  rw [Llist.listSize, (hr.ring h l hl).forEach_foldl (fun size _ => size + 1) 0, List.foldl_add_const,
    Nat.one_mul, Nat.zero_add]

theorem foldl_met (l met : List ℕ) : l.foldl (fun met pos => met ++ [pos]) met = met ++ l := by
  induction l generalizing met with
  | nil => simp
  | cons x l ih => simp [ih]

theorem Represents.listForEach (hr : Represents m ls) (hl : ls h = some l) :
    listForEach h m (l.length + 1) = some l := by
  rw [Llist.listForEach, (hr.ring h l hl).forEach_foldl (fun met pos => met ++ [pos]) [], foldl_met,
    List.nil_append]

theorem Represents.listForEachPrev (hr : Represents m ls) (hl : ls h = some l) :
    listForEachPrev h m (l.length + 1) = some l.reverse := by
  have hloop := (hr.ring h l hl).reverse.forEach_foldl (fun met pos => met ++ [pos]) []
  rw [List.length_reverse] at hloop
  rw [Llist.listForEachPrev, hloop, foldl_met, List.nil_append]

theorem Represents.listEmpty (hr : Represents m ls) (hl : ls h = some l) : listEmpty h m = l.isEmpty := by
  have hring := hr.ring h l hl
  have hpos := hr.pos h (l.headD h) ⟨l, hl, headD_mem h l⟩
  rw [Llist.listEmpty, hring.nxt_head]
  cases l with
  | nil => simp
  | cons x l =>
    have hne : x ≠ h := by
      rintro rfl
      exact (List.nodup_cons.mp hring.nodup).1 List.mem_cons_self
    have : x ≠ 0 := by simpa [Nat.pos_iff_ne_zero] using hpos
    simp [hne, this]

end Lists

/-! ### What is written -/

section Frame

variable {m : Mem} {ls : Lists} {h h' x u e a : ℕ}

/-- The node that the operation brings with it. -/
def Op.fresh : Op → List ℕ
  | .init head => [head]
  | .add new _ | .addTail new _ => [new]
  | .del _ | .delInit _ | .move _ _ | .moveTail _ _ => []

/-- The byte is of none of the nodes on the lists and of none of `xs`. -/
def Clear (ls : Lists) (xs : List ℕ) (a : ℕ) : Prop :=
  ∀ u, (∃ h, Owns ls h u) ∨ u ∈ xs → a < u ∨ u + 8 ≤ a

theorem Clear.sameOff {S xs : List ℕ} {m' : Mem} (ha : Clear ls xs a) (hsame : SameOff S m m')
    (hS : ∀ u ∈ S, (∃ h, Owns ls h u) ∨ u ∈ xs) : m' a = m a :=
  hsame a fun u hu => ha u (hS u hu)

theorem owns_insertHead (hu : Owns (insertHead x h ls) h' u) : Owns ls h' u ∨ u = x := by
  obtain ⟨l, hl, hu⟩ := hu
  by_cases hne : h' = h
  · subst hne
    obtain ⟨l₀, hl₀, rfl⟩ : ∃ l₀, ls h' = some l₀ ∧ x :: l₀ = l := by simpa [insertHead] using hl
    simp only [List.mem_cons] at hu
    rcases hu with rfl | rfl | hu
    · exact Or.inl (owns_head hl₀)
    · exact Or.inr rfl
    · exact Or.inl (owns_of_mem hl₀ hu)
  · exact Or.inl ⟨l, by simpa [insertHead, hne] using hl, hu⟩

theorem owns_insertTail (hu : Owns (insertTail x h ls) h' u) : Owns ls h' u ∨ u = x := by
  obtain ⟨l, hl, hu⟩ := hu
  by_cases hne : h' = h
  · subst hne
    obtain ⟨l₀, hl₀, rfl⟩ : ∃ l₀, ls h' = some l₀ ∧ l₀ ++ [x] = l := by simpa [insertTail] using hl
    simp only [List.mem_cons, List.mem_append, List.not_mem_nil, or_false] at hu
    rcases hu with rfl | hu | rfl
    · exact Or.inl (owns_head hl₀)
    · exact Or.inl (owns_of_mem hl₀ hu)
    · exact Or.inr rfl
  · exact Or.inl ⟨l, by simpa [insertTail, hne] using hl, hu⟩

theorem owns_remove (hu : Owns (remove e ls) h' u) : Owns ls h' u := by
  obtain ⟨l, hl, hu⟩ := hu
  obtain ⟨l₀, hl₀, rfl⟩ : ∃ l₀, ls h' = some l₀ ∧ l₀.erase e = l := by simpa [remove] using hl
  exact ⟨l₀, hl₀, List.mem_cons.mpr ((List.mem_cons.mp hu).imp_right List.mem_of_mem_erase)⟩

theorem listAdd_same (hr : Represents m ls) (hh : ls h ≠ none) (ha : Clear ls [x] a) :
    listAdd x h m a = m a := by
  obtain ⟨l, hl⟩ := Option.ne_none_iff_exists'.mp hh
  have hn : nextOf m h ∈ h :: l := by
    rw [(hr.ring h l hl).nxt_head]
    exact headD_mem h l
  apply ha.sameOff (sameOff_link (S := [x, h, nextOf m h]) (by simp) (by simp) (by simp) m)
  intro u hu
  simp only [List.mem_cons, List.not_mem_nil, or_false] at hu
  rcases hu with rfl | rfl | rfl
  · exact Or.inr List.mem_cons_self
  · exact Or.inl ⟨u, owns_head hl⟩
  · exact Or.inl ⟨h, l, hl, hn⟩

theorem listAddTail_same (hr : Represents m ls) (hh : ls h ≠ none) (ha : Clear ls [x] a) :
    listAddTail x h m a = m a := by
  obtain ⟨l, hl⟩ := Option.ne_none_iff_exists'.mp hh
  have hp : prevOf m h ∈ h :: l := by
    have hring : Ring (nextOf m) (prevOf m) h (l ++ []) := by simpa using hr.ring h l hl
    rw [show prevOf m h = _ from hring.follows.2]
    exact getLastD_mem h l
  apply ha.sameOff (sameOff_link (S := [x, prevOf m h, h]) (by simp) (by simp) (by simp) m)
  intro u hu
  simp only [List.mem_cons, List.not_mem_nil, or_false] at hu
  rcases hu with rfl | rfl | rfl
  · exact Or.inr List.mem_cons_self
  · exact Or.inl ⟨h, l, hl, hp⟩
  · exact Or.inl ⟨u, owns_head hl⟩

theorem listDelEntry_same {l : List ℕ} (hr : Represents m ls) (hl : ls h = some l) (he : e ∈ l)
    (ha : Clear ls [] a) : listDelEntry e m a = m a := by
  obtain ⟨l, r, rfl⟩ := List.append_of_mem he
  have hring := hr.ring h _ hl
  obtain ⟨hp, hn⟩ := ends_mem h l r
  rw [listDelEntry, hring.prv_eq, hring.nxt_eq]
  apply ha.sameOff (sameOff_unlink (S := h :: (l ++ r)) hp hn m)
  intro u hu
  refine Or.inl ⟨h, l ++ e :: r, hl, ?_⟩
  simp only [List.mem_cons, List.mem_append] at hu ⊢
  tauto

theorem Clear.remove {l : List ℕ} (ha : Clear ls [] a) (hl : ls h = some l) (he : e ∈ l) :
    Clear (remove e ls) [e] a := by
  rintro u (⟨h', hu⟩ | hu)
  · exact ha u (Or.inl ⟨h', owns_remove hu⟩)
  · obtain rfl : u = e := by simpa using hu
    exact ha u (Or.inl ⟨h, owns_of_mem hl he⟩)

theorem Represents.run_same {o : Op} (hr : Represents m ls) (ho : o.Allowed ls) (ha : Clear ls o.fresh a) :
    o.run m a = m a := by
  have hlinks : ∀ e v w m, (∃ h, Owns ls h e) ∨ e ∈ o.fresh →
      write32 (write32 m e v) (e + 4) w a = m a := by
    intro e v w m he
    exact ha.sameOff (sameOff_links e v w m) (by simpa using he)
  cases o with
  | init head => exact hlinks head head head m (Or.inr List.mem_cons_self)
  | add new head => exact listAdd_same hr ho.2 ha
  | addTail new head => exact listAddTail_same hr ho.2 ha
  | del entry =>
    obtain ⟨h, l, hl, he⟩ := ho
    rw [Op.run, listDel, hlinks entry 0 0 _ (Or.inl ⟨h, owns_of_mem hl he⟩)]
    exact listDelEntry_same hr hl he ha
  | delInit entry =>
    obtain ⟨h, l, hl, he⟩ := ho
    rw [Op.run, listDelInit, initListHead, hlinks entry entry entry _ (Or.inl ⟨h, owns_of_mem hl he⟩)]
    exact listDelEntry_same hr hl he ha
  | move list head =>
    obtain ⟨⟨h, l, hl, he⟩, hh⟩ := ho
    rw [Op.run, listMove, listAdd_same (hr.listDelEntry hl he) (remove_ne_none hh) (ha.remove hl he)]
    exact listDelEntry_same hr hl he ha
  | moveTail list head =>
    obtain ⟨⟨h, l, hl, he⟩, hh⟩ := ho
    rw [Op.run, listMoveTail, listAddTail_same (hr.listDelEntry hl he) (remove_ne_none hh) (ha.remove hl he)]
    exact listDelEntry_same hr hl he ha

theorem owns_apply {o : Op} (ho : o.Allowed ls) (hu : Owns (o.apply ls) h' u) :
    (∃ h, Owns ls h u) ∨ u ∈ o.fresh := by
  cases o with
  | init head =>
    obtain ⟨l, hl, hu⟩ := hu
    by_cases hne : h' = head
    · subst hne
      obtain rfl : [] = l := by simpa [Op.apply] using hl
      exact Or.inr (by simpa [Op.fresh] using hu)
    · exact Or.inl ⟨h', l, by simpa [Op.apply, hne] using hl, hu⟩
  | add new head => exact (owns_insertHead hu).imp (⟨h', ·⟩) List.mem_singleton.mpr
  | addTail new head => exact (owns_insertTail hu).imp (⟨h', ·⟩) List.mem_singleton.mpr
  | del entry => exact Or.inl ⟨h', owns_remove hu⟩
  | delInit entry => exact Or.inl ⟨h', owns_remove hu⟩
  | move list head =>
    obtain ⟨⟨h, l, hl, he⟩, -⟩ := ho
    rcases owns_insertHead hu with hu | rfl
    · exact Or.inl ⟨h', owns_remove hu⟩
    · exact Or.inl ⟨h, owns_of_mem hl he⟩
  | moveTail list head =>
    obtain ⟨⟨h, l, hl, he⟩, -⟩ := ho
    rcases owns_insertTail hu with hu | rfl
    · exact Or.inl ⟨h', owns_remove hu⟩
    · exact Or.inl ⟨h, owns_of_mem hl he⟩

end Frame

/-! ### Runs -/

def Op.runAll (ops : List Op) (m : Mem) : Mem := ops.foldl (fun m o => o.run m) m

def Op.applyAll (ops : List Op) (ls : Lists) : Lists := ops.foldl (fun ls o => o.apply ls) ls

def Op.AllAllowed : Lists → List Op → Prop
  | _, [] => True
  | ls, o :: ops => o.Allowed ls ∧ AllAllowed (o.apply ls) ops

section Runs

variable {m : Mem} {ls : Lists} {ops : List Op}

theorem Represents.runAll (hr : Represents m ls) (hops : Op.AllAllowed ls ops) :
    Represents (Op.runAll ops m) (Op.applyAll ops ls) := by
  induction ops generalizing m ls with
  | nil => exact hr
  | cons o ops ih => exact ih (hr.run hops.1) hops.2

theorem Represents.runAll_same {a : ℕ} (hr : Represents m ls) (hops : Op.AllAllowed ls ops)
    (ha : Clear ls (ops.flatMap Op.fresh) a) : Op.runAll ops m a = m a := by
  induction ops generalizing m ls with
  | nil => rfl
  | cons o ops ih =>
    have hfirst : Clear ls o.fresh a := fun u hu => ha u (hu.imp_right (by simpa using Or.inl))
    have hrest : Clear (o.apply ls) (ops.flatMap Op.fresh) a := by
      intro u hu
      apply ha u
      rw [List.flatMap_cons, List.mem_append]
      rcases hu with ⟨h, hu⟩ | hu
      · exact (owns_apply hops.1 hu).imp_right Or.inl
      · exact Or.inr (Or.inr hu)
    calc Op.runAll (o :: ops) m a = Op.runAll ops (o.run m) a := rfl
      _ = o.run m a := ih (hr.run hops.1) hops.2 hrest
      _ = m a := hr.run_same hops.1 hfirst

/-- Whatever is done with any number of lists, in any order: each list holds in memory what was
put on it and not taken off, in the order in which it was put there, the loops over it come past
just that, and no byte is written but the links of the nodes. -/
theorem lists_refine (ops : List Op) (hr : Represents m ls) (hops : Op.AllAllowed ls ops) :
    (∀ h l, Op.applyAll ops ls h = some l →
      listEmpty h (Op.runAll ops m) = l.isEmpty ∧
      listSize h (Op.runAll ops m) (l.length + 1) = some l.length ∧
      listForEach h (Op.runAll ops m) (l.length + 1) = some l ∧
      listForEachPrev h (Op.runAll ops m) (l.length + 1) = some l.reverse) ∧
    ∀ a, Clear ls (ops.flatMap Op.fresh) a → Op.runAll ops m a = m a := by
  have hr' := hr.runAll hops
  constructor
  · intro h l hl
    exact ⟨hr'.listEmpty hl, hr'.listSize hl, hr'.listForEach hl, hr'.listForEachPrev hl⟩
  · exact fun a ha => hr.runAll_same hops ha

/-- No list yet. -/
theorem represents_none (m : Mem) : Represents m fun _ => none := by
  constructor <;> simp [Owns]

/-- Two lists; a node put on the first, a second one behind it, and the first node moved to the
other list. -/
theorem lists_refine_two :
    let ops : List Op := [.init 16, .init 32, .add 64 16, .addTail 80 16, .move 64 32]
    listForEach 16 (Op.runAll ops fun _ => 0) 2 = some [80] ∧
      listForEach 32 (Op.runAll ops fun _ => 0) 2 = some [64] := by
  intro ops
  have hops : Op.AllAllowed (fun _ => none) ops := by
    refine ⟨Or.inl ⟨?_, ?_, ?_⟩, Or.inl ⟨?_, ?_, ?_⟩, ⟨⟨?_, ?_, ?_⟩, ?_⟩, ⟨⟨?_, ?_, ?_⟩, ?_⟩,
      ⟨⟨16, [64, 80], ?_, ?_⟩, ?_⟩, trivial⟩
    all_goals simp [Owns, Op.apply, Apart, Function.update_apply, insertHead, insertTail]
    all_goals grind
  obtain ⟨hlists, -⟩ := lists_refine ops (represents_none fun _ => 0) hops
  have h16 : Op.applyAll ops (fun _ => none) 16 = some [80] := by
    simp [ops, Op.applyAll, Op.apply, remove, insertHead, insertTail]
  have h32 : Op.applyAll ops (fun _ => none) 32 = some [64] := by
    simp [ops, Op.applyAll, Op.apply, remove, insertHead, insertTail]
  exact ⟨(hlists 16 _ h16).2.2.1, (hlists 32 _ h32).2.2.1⟩

end Runs

/-! ### Lists of pointers, `klibc/plist.c` -/

def plistInit (root : ℕ) : Mem → Mem := initListHead root

def plistSize (root : ℕ) (m : Mem) (fuel : ℕ) : Option ℕ := listSize root m fuel

/-- The pointer stands before the links. -/
def plistGet (iter : ℕ) (m : Mem) : ℕ := read32 m (iter - 4)

def plistAdd (root node : ℕ) : Mem → Mem := listAddTail (node + 4) root

def plistDel (node : ℕ) : Mem → Mem := listDel (node + 4)

/-- `plist_alloc_node`, at the block that `kmalloc` gives. -/
def plistAllocNode (ptr node : ℕ) (m : Mem) : Mem :=
  write32 (write32 (write32 m node ptr) (node + 8) 0) (node + 4) 0

/-- What `plist_get` gives along `list_for_each`. -/
def plistPtrs (root : ℕ) (m : Mem) (fuel : ℕ) : Option (List ℕ) :=
  (listForEach root m fuel).map fun iters => iters.map fun iter => plistGet iter m

/-- The nodes of each list with their pointers. -/
abbrev Plists := ℕ → Option (List (ℕ × ℕ))

def links (ps : Plists) : Lists := fun root => (ps root).map fun l => l.map fun np => np.1 + 4

/-- The bytes of the block are of no node and no head. -/
structure Free (ps : Plists) (a size : ℕ) : Prop where
  pos : 0 < a
  fits : a + size ≤ 4294967296
  nodes : ∀ h u, Owns (links ps) h u → a + size ≤ u ∨ u + 8 ≤ a
  ptrs : ∀ root l np, ps root = some l → np ∈ l → a + size ≤ np.1 ∨ np.1 + 4 ≤ a

structure Holds (m : Mem) (ps : Plists) : Prop where
  lists : Represents m (links ps)
  ptr : ∀ root l np, ps root = some l → np ∈ l → read32 m np.1 = np.2
  apart : ∀ root l np, ps root = some l → np ∈ l → ∀ h u, Owns (links ps) h u → np.1 + 4 ≤ u ∨ u + 8 ≤ np.1

inductive PlistOp
  | init (root : ℕ)
  | add (root node ptr : ℕ)
  | del (node : ℕ)

def PlistOp.run : PlistOp → Mem → Mem
  | .init root, m => plistInit root m
  | .add root node ptr, m => plistAdd root node (plistAllocNode ptr node m)
  | .del node, m => plistDel node m

def PlistOp.apply : PlistOp → Plists → Plists
  | .init root, ps => Function.update ps root (some [])
  | .add root node ptr, ps => Function.update ps root ((ps root).map (· ++ [(node, ptr)]))
  | .del node, ps => fun root => (ps root).map fun l => l.filter (·.1 != node)

def PlistOp.Allowed (ps : Plists) : PlistOp → Prop
  | .init root => Free ps root 8
  | .add root node ptr => Free ps node 12 ∧ ps root ≠ none ∧ ptr < 4294967296
  | .del node => ∃ root l ptr, ps root = some l ∧ (node, ptr) ∈ l

/-- What the operation is for the links. -/
def PlistOp.op : PlistOp → Op
  | .init root => .init root
  | .add root node _ => .addTail (node + 4) root
  | .del node => .del (node + 4)

section Plist

variable {m : Mem} {ps : Plists} {o : PlistOp} {root node ptr size a : ℕ}

theorem Free.fresh (hf : Free ps a size) (hx : a ≤ node) (hsize : node + 8 ≤ a + size) :
    Fresh (links ps) node := by
  have := hf.pos
  have := hf.fits
  constructor
  · omega
  · omega
  · intro h u hu
    have := hf.nodes h u hu
    unfold Apart
    omega

theorem links_apply (hm : Holds m ps) (ho : o.Allowed ps) : links (o.apply ps) = o.op.apply (links ps) := by
  funext root
  cases o with
  | init head =>
    by_cases hne : root = head
    · subst hne
      simp [links, PlistOp.apply, PlistOp.op, Op.apply]
    · simp [links, PlistOp.apply, PlistOp.op, Op.apply, hne]
  | add head node ptr =>
    by_cases hne : root = head
    · subst hne
      cases hps : ps root <;> simp [links, PlistOp.apply, PlistOp.op, Op.apply, insertTail, hps]
    · simp [links, PlistOp.apply, PlistOp.op, Op.apply, insertTail, hne]
  | del node =>
    cases hps : ps root with
    | none => simp [links, PlistOp.apply, PlistOp.op, Op.apply, remove, hps]
    | some l =>
      have hl : links ps root = some (l.map fun np => np.1 + 4) := by simp [links, hps]
      have hnodup := (List.nodup_cons.mp (hm.lists.ring root _ hl).nodup).2
      simp [links, PlistOp.apply, PlistOp.op, Op.apply, remove, hps, hnodup.erase_eq_filter, List.filter_map,
        Function.comp_def]

theorem op_allowed (ho : o.Allowed ps) : o.op.Allowed (links ps) := by
  cases o with
  | init root => exact Or.inl (Free.fresh ho le_rfl le_rfl)
  | add root node ptr =>
    have hfresh : Fresh (links ps) (node + 4) := ho.1.fresh (by omega) (by omega)
    exact ⟨hfresh, by simpa [links] using ho.2.1⟩
  | del node =>
    obtain ⟨root, l, ptr, hl, hmem⟩ := ho
    exact ⟨root, l.map fun np => np.1 + 4, by simp [links, hl], List.mem_map.mpr ⟨(node, ptr), hmem, rfl⟩⟩

/-- `plist_alloc_node` writes the block only. -/
theorem sameOff_plistAllocNode (ptr node : ℕ) (m : Mem) :
    SameOff [node, node + 4] m (plistAllocNode ptr node m) :=
  ((sameOff_write32 (n := node) (by simp) (by omega) (by omega) m ptr).trans
    (sameOff_write32 (n := node + 4) (by simp) (by omega) (by omega) _ 0)).trans
    (sameOff_write32 (n := node + 4) (by simp) (by omega) (by omega) _ 0)

/-- The memory in which the links are changed. -/
def PlistOp.before : PlistOp → Mem → Mem
  | .add _ node ptr, m => plistAllocNode ptr node m
  | _, m => m

theorem PlistOp.run_eq (o : PlistOp) (m : Mem) : o.run m = o.op.run (o.before m) := by
  cases o <;> rfl

theorem before_spec (hm : Holds m ps) (ho : o.Allowed ps) :
    Represents (o.before m) (links ps) ∧
      ∀ root l np, ps root = some l → np ∈ l → read32 (o.before m) np.1 = np.2 := by
  cases o with
  | init root => exact ⟨hm.lists, hm.ptr⟩
  | del node => exact ⟨hm.lists, hm.ptr⟩
  | add root node ptr =>
    obtain ⟨hfree, -⟩ := ho
    have hsame := sameOff_plistAllocNode ptr node m
    constructor
    · apply hm.lists.of_sameOff hsame
      intro u hu h a ha
      have := hfree.nodes h a ha
      unfold Apart
      simp only [List.mem_cons, List.not_mem_nil, or_false] at hu
      omega
    · intro root l np hl hnp
      rw [← hm.ptr root l np hl hnp]
      apply hsame.read32
      intro u hu
      have := hfree.ptrs root l np hl hnp
      simp only [List.mem_cons, List.not_mem_nil, or_false] at hu
      omega

theorem before_ptr (o : PlistOp) {root : ℕ} (ho : o = .add root node ptr) (hptr : ptr < 4294967296) (m : Mem) :
    read32 (o.before m) node = ptr := by
  subst ho
  rw [PlistOp.before, plistAllocNode, read32_write32_of_disjoint _ (Or.inr le_rfl),
    read32_write32_of_disjoint _ (Or.inr (by omega)), read32_write32 m node ptr hptr]

/-- A pointer on a list was there before, or is the one that is added. -/
theorem mem_apply {l : List (ℕ × ℕ)} (hl : o.apply ps root = some l) (hmem : (node, ptr) ∈ l) :
    (∃ l, ps root = some l ∧ (node, ptr) ∈ l) ∨ o = .add root node ptr := by
  cases o with
  | init head =>
    by_cases hne : root = head
    · subst hne
      obtain rfl : [] = l := by simpa [PlistOp.apply] using hl
      exact absurd hmem (by simp)
    · exact Or.inl ⟨l, by simpa [PlistOp.apply, hne] using hl, hmem⟩
  | add head node' ptr' =>
    by_cases hne : root = head
    · subst hne
      obtain ⟨l₀, hl₀, rfl⟩ : ∃ l₀, ps root = some l₀ ∧ l₀ ++ [(node', ptr')] = l := by
        simpa [PlistOp.apply] using hl
      rcases List.mem_append.mp hmem with hmem | hmem
      · exact Or.inl ⟨l₀, hl₀, hmem⟩
      · obtain ⟨rfl, rfl⟩ : node = node' ∧ ptr = ptr' := by simpa using hmem
        exact Or.inr rfl
    · exact Or.inl ⟨l, by simpa [PlistOp.apply, hne] using hl, hmem⟩
  | del node' =>
    obtain ⟨l₀, hl₀, rfl⟩ : ∃ l₀, ps root = some l₀ ∧ l₀.filter (·.1 != node') = l := by
      simpa [PlistOp.apply] using hl
    exact Or.inl ⟨l₀, hl₀, List.mem_of_mem_filter hmem⟩

/-- A pointer on a list is apart from every node there is and from the one that comes. -/
theorem ptr_apart {l : List (ℕ × ℕ)} {u : ℕ} (hm : Holds m ps) (ho : o.Allowed ps)
    (hl : o.apply ps root = some l) (hmem : (node, ptr) ∈ l)
    (hu : (∃ h, Owns (links ps) h u) ∨ u ∈ o.op.fresh) : node + 4 ≤ u ∨ u + 8 ≤ node := by
  rcases mem_apply hl hmem with ⟨l₀, hl₀, hmem⟩ | rfl
  · rcases hu with ⟨h, hu⟩ | hu
    · exact hm.apart root l₀ _ hl₀ hmem h u hu
    · cases o with
      | init head =>
        obtain rfl : u = head := by simpa [PlistOp.op, Op.fresh] using hu
        have := Free.ptrs ho root l₀ _ hl₀ hmem
        omega
      | add head node' ptr' =>
        obtain rfl : u = node' + 4 := by simpa [PlistOp.op, Op.fresh] using hu
        have := Free.ptrs ho.1 root l₀ _ hl₀ hmem
        omega
      | del node' => simp [PlistOp.op, Op.fresh] at hu
  · rcases hu with ⟨h, hu⟩ | hu
    · have := Free.nodes ho.1 h u hu
      omega
    · obtain rfl : u = node + 4 := by simpa [PlistOp.op, Op.fresh] using hu
      exact Or.inl le_rfl

theorem Holds.run (hm : Holds m ps) (ho : o.Allowed ps) : Holds (o.run m) (o.apply ps) := by
  obtain ⟨hlists, hptr⟩ := before_spec hm ho
  rw [o.run_eq]
  constructor
  · rw [links_apply hm ho]
    exact hlists.run (op_allowed ho)
  · rintro root l ⟨node, ptr⟩ hl hmem
    have hread : read32 (o.op.run (o.before m)) node = read32 (o.before m) node := by
      apply load_congr
      intro a h1 h2
      apply hlists.run_same (op_allowed ho)
      intro u hu
      have := ptr_apart hm ho hl hmem hu
      omega
    rw [hread]
    rcases mem_apply hl hmem with ⟨l₀, hl₀, hmem⟩ | rfl
    · exact hptr root l₀ _ hl₀ hmem
    · exact before_ptr _ rfl ho.2.2 m
  · rintro root l ⟨node, ptr⟩ hl hmem h u hu
    rw [links_apply hm ho] at hu
    exact ptr_apart hm ho hl hmem (owns_apply (op_allowed ho) hu)

def PlistOp.runAll (ops : List PlistOp) (m : Mem) : Mem := ops.foldl (fun m o => o.run m) m

def PlistOp.applyAll (ops : List PlistOp) (ps : Plists) : Plists := ops.foldl (fun ps o => o.apply ps) ps

def PlistOp.AllAllowed : Plists → List PlistOp → Prop
  | _, [] => True
  | ps, o :: ops => o.Allowed ps ∧ AllAllowed (o.apply ps) ops

theorem Holds.runAll {ops : List PlistOp} (hm : Holds m ps) (hops : PlistOp.AllAllowed ps ops) :
    Holds (PlistOp.runAll ops m) (PlistOp.applyAll ops ps) := by
  induction ops generalizing m ps with
  | nil => exact hm
  | cons o ops ih => exact ih (hm.run hops.1) hops.2

/-- A walk over a list of pointers gives the pointers that were added and not deleted, in the
order in which they were added, whatever was done to this list and to others. -/
theorem plists_refine (ops : List PlistOp) (hops : PlistOp.AllAllowed (fun _ => none) ops) (m : Mem) (root : ℕ)
    (l : List (ℕ × ℕ)) (hl : PlistOp.applyAll ops (fun _ => none) root = some l) :
    plistSize root (PlistOp.runAll ops m) (l.length + 1) = some l.length ∧
      plistPtrs root (PlistOp.runAll ops m) (l.length + 1) = some (l.map (·.2)) := by
  have hnone : Holds m fun _ => none := ⟨represents_none m, nofun, nofun⟩
  have hm := hnone.runAll hops
  have hlinks : links (PlistOp.applyAll ops fun _ => none) root = some (l.map fun np => np.1 + 4) := by
    simp [links, hl]
  constructor
  · simpa [plistSize] using hm.lists.listSize hlinks
  · have hwalk := hm.lists.listForEach hlinks
    rw [List.length_map] at hwalk
    rw [plistPtrs, hwalk, Option.map_some, List.map_map]
    congr 1
    apply List.map_congr_left
    intro np hnp
    exact hm.ptr root l np hl hnp

/-- Two pointers, and the first one taken off again. -/
theorem plists_refine_two :
    plistPtrs 16 (PlistOp.runAll [.init 16, .add 16 32 7, .add 16 48 9, .del 32] fun _ => 0) 2 = some [9] := by
  let ops : List PlistOp := [.init 16, .add 16 32 7, .add 16 48 9, .del 32]
  have hops : PlistOp.AllAllowed (fun _ => none) ops := by
    refine ⟨?_, ⟨?_, ?_, ?_⟩, ⟨?_, ?_, ?_⟩, ⟨16, [(32, 7), (48, 9)], 7, ?_, ?_⟩, trivial⟩
    · constructor <;> simp [Owns, links]
    · constructor <;> simp [Owns, links, PlistOp.apply, Function.update_apply]
      grind
    · simp [PlistOp.apply]
    · simp
    · constructor <;> simp [Owns, links, PlistOp.apply, Function.update_apply] <;> grind
    all_goals simp [PlistOp.apply]
  have hl : PlistOp.applyAll ops (fun _ => none) 16 = some [(48, 9)] := by
    simp [ops, PlistOp.applyAll, PlistOp.apply]
  exact (plists_refine ops hops _ 16 _ hl).2

end Plist

end JustKernel.Llist
