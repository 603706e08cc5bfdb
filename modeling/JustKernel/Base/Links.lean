import JustKernel.Base.Memory
import Mathlib.Data.List.Chain
import Mathlib.Data.List.Nodup

/-! Intrusive rings. The nodes of a circular list carry their own links, and one
node is the head; the ring is described by the list of the other nodes in the
order of the forward links. A ring cut at a gap is a chain up to the gap, a
chain after it and one link across it, so that taking a node out and putting
one in are the same argument read in two directions. The links are two
functions, and a change of them is given pointwise, because the second half of
this file keeps them in a byte memory, two words to a node, where only the words
of the nodes are in view. -/

namespace JustKernel.Links

variable {ι : Type*} {nxt prv nxt' prv' : ι → ι} {h x : ι} {l r : List ι}

/-- `b` stands after `a`. -/
def Follows (nxt prv : ι → ι) (a b : ι) : Prop := nxt a = b ∧ prv b = a

/-- The ring of `h` and the nodes `l`, in this order. -/
structure Ring (nxt prv : ι → ι) (h : ι) (l : List ι) : Prop where
  nodup : (h :: l).Nodup
  chain : (h :: l ++ [h]).IsChain (Follows nxt prv)

/-- A ring cut between `l` and `r`. The node before the gap is the last of `l` and the node
after it the first of `r`, or else the head. -/
theorem ring_append_iff : Ring nxt prv h (l ++ r) ↔
    (h :: (l ++ r)).Nodup ∧ (h :: l).IsChain (Follows nxt prv) ∧
      (r ++ [h]).IsChain (Follows nxt prv) ∧ Follows nxt prv (l.getLastD h) (r.headD h) := by
  have hgap : (∀ a ∈ (h :: l).getLast?, ∀ b ∈ (r ++ [h]).head?, Follows nxt prv a b) ↔
      Follows nxt prv (l.getLastD h) (r.headD h) := by
    cases r <;> simp [List.getLast?_cons, List.getLastD_eq_getLast?]
  have hsplit : h :: (l ++ r) ++ [h] = (h :: l) ++ (r ++ [h]) := by simp
  constructor
  · rintro ⟨hnodup, hchain⟩
    rw [hsplit, List.isChain_append, hgap] at hchain
    exact ⟨hnodup, hchain⟩
  · rintro ⟨hnodup, hchain⟩
    refine ⟨hnodup, ?_⟩
    rw [hsplit, List.isChain_append, hgap]
    exact hchain

theorem getLastD_mem (h : ι) (l : List ι) : l.getLastD h ∈ h :: l := by
  rw [List.getLastD_eq_getLast?]
  cases hl : l.getLast? with
  | none => simp
  | some a => exact List.mem_cons_of_mem _ (List.mem_of_getLast? hl)

theorem headD_mem (h : ι) (r : List ι) : r.headD h ∈ h :: r := by
  cases r <;> simp

theorem Ring.follows (hr : Ring nxt prv h (l ++ r)) :
    Follows nxt prv (l.getLastD h) (r.headD h) :=
  (ring_append_iff.mp hr).2.2.2

/-- The step from a node to the next one. -/
theorem Ring.nxt_eq (hr : Ring nxt prv h (l ++ x :: r)) : nxt x = r.headD h := by
  have hcut : Ring nxt prv h ((l ++ [x]) ++ r) := by simpa using hr
  simpa using hcut.follows.1

theorem Ring.prv_eq (hr : Ring nxt prv h (l ++ x :: r)) : prv x = l.getLastD h :=
  hr.follows.2

theorem Ring.nxt_head (hr : Ring nxt prv h l) : nxt h = l.headD h := by
  have hcut : Ring nxt prv h ([] ++ l) := hr
  exact hcut.follows.1

theorem Ring.congr (hr : Ring nxt prv h l) (hn : ∀ a ∈ h :: l, nxt' a = nxt a)
    (hp : ∀ a ∈ h :: l, prv' a = prv a) : Ring nxt' prv' h l := by
  refine ⟨hr.nodup, hr.chain.imp_of_mem_imp ?_⟩
  intro a b ha hb hab
  have ha' : a ∈ h :: l := by simpa [or_comm] using ha
  have hb' : b ∈ h :: l := by simpa [or_comm] using hb
  exact ⟨(hn a ha').trans hab.1, (hp b hb').trans hab.2⟩

/-- The node before a gap is not behind it, and the node after it not before it. -/
theorem gap_not_mem (hnodup : (h :: (l ++ r)).Nodup) : l.getLastD h ∉ r ∧ r.headD h ∉ l := by
  obtain ⟨hh, hlr⟩ := List.nodup_cons.mp hnodup
  obtain ⟨-, -, hdis⟩ := List.nodup_append.mp hlr
  constructor
  · intro hm
    rcases List.mem_cons.mp (getLastD_mem h l) with heq | hl
    · exact hh (List.mem_append_right _ (heq ▸ hm))
    · exact hdis _ hl _ hm rfl
  · intro hm
    rcases List.mem_cons.mp (headD_mem h r) with heq | hr
    · exact hh (List.mem_append_left _ (heq ▸ hm))
    · exact hdis _ hm _ hr rfl

section Gap

variable {p n : ι}

/-- The chains on the two sides of a gap outlive a change of the links at the gap, whether a
node stood in the gap or not: `y` is what followed `p`, and `z` what preceded `n`. -/
theorem chains_of_gap {y z : ι} (hnodup : (h :: (l ++ r)).Nodup) (hp : p = l.getLastD h)
    (hn : n = r.headD h) (hy : nxt p = y) (hz : prv n = z) (hyl : y ∉ l) (hzr : z ∉ r)
    (hnxt : ∀ a ∈ h :: (l ++ r), a ≠ p → nxt' a = nxt a)
    (hprv : ∀ a ∈ h :: (l ++ r), a ≠ n → prv' a = prv a)
    (hl : (h :: l).IsChain (Follows nxt prv)) (hr : (r ++ [h]).IsChain (Follows nxt prv)) :
    (h :: l).IsChain (Follows nxt' prv') ∧ (r ++ [h]).IsChain (Follows nxt' prv') := by
  obtain ⟨hpr, hnl⟩ := gap_not_mem hnodup
  rw [← hp] at hpr
  rw [← hn] at hnl
  constructor
  · refine hl.imp_of_mem_tail_imp ?_
    rintro a b ha hb ⟨hab, hba⟩
    rw [List.tail_cons] at hb
    have hap : a ≠ p := by
      rintro rfl
      exact hyl (hy.symm.trans hab ▸ hb)
    have hbn : b ≠ n := fun heq => hnl (heq ▸ hb)
    refine ⟨(hnxt a ?_ hap).trans hab, (hprv b ?_ hbn).trans hba⟩
    · exact List.mem_cons.mpr ((List.mem_cons.mp ha).imp id (List.mem_append_left _))
    · exact List.mem_cons_of_mem _ (List.mem_append_left _ hb)
  · rw [← List.isChain_reverse] at hr ⊢
    refine hr.imp_of_mem_tail_imp ?_
    rintro b a hb ha ⟨hab, hba⟩
    simp only [List.reverse_append, List.reverse_cons, List.reverse_nil, List.nil_append,
      List.singleton_append, List.tail_cons, List.mem_reverse, List.mem_cons] at ha hb
    have hap : a ≠ p := fun heq => hpr (heq ▸ ha)
    have hbn : b ≠ n := by
      rintro rfl
      exact hzr (hz.symm.trans hba ▸ ha)
    refine ⟨(hnxt a ?_ hap).trans hab, (hprv b ?_ hbn).trans hba⟩
    · exact List.mem_cons_of_mem _ (List.mem_append_right _ ha)
    · exact List.mem_cons.mpr (hb.imp id (List.mem_append_right _))

/-- Unlinking `x`: the nodes around it point to each other. -/
theorem Ring.remove (hr : Ring nxt prv h (l ++ x :: r)) (hp : p = l.getLastD h)
    (hn : n = r.headD h) (hpn : nxt' p = n) (hnp : prv' n = p)
    (hnxt : ∀ a ∈ h :: (l ++ r), a ≠ p → nxt' a = nxt a)
    (hprv : ∀ a ∈ h :: (l ++ r), a ≠ n → prv' a = prv a) : Ring nxt' prv' h (l ++ r) := by
  obtain ⟨hnodup, hl, hxr, hpx⟩ := ring_append_iff.mp hr
  obtain ⟨hxn, hrest⟩ := List.isChain_cons.mp hxr
  have hnodup' : (h :: (l ++ r)).Nodup :=
    hnodup.sublist (by simp)
  have hxl : x ∉ l := by
    have := (List.nodup_cons.mp hnodup).2
    exact fun hm => (List.nodup_append.mp this).2.2 x hm x (by simp) rfl
  have hxr' : x ∉ r := by
    have := (List.nodup_cons.mp hnodup).2
    exact (List.nodup_cons.mp (List.nodup_append.mp this).2.1).1
  have hnx : prv n = x := by
    apply (hxn n _).2
    subst hn
    cases r <;> simp
  obtain ⟨h1, h2⟩ := chains_of_gap hnodup' hp hn (hp ▸ hpx.1) hnx hxl hxr' hnxt hprv hl hrest
  refine ring_append_iff.mpr ⟨hnodup', h1, h2, ?_⟩
  rw [← hp, ← hn]
  exact ⟨hpn, hnp⟩

/-- Linking `x` into the gap between `p` and `n`. -/
theorem Ring.insert (hr : Ring nxt prv h (l ++ r)) (hx : x ∉ h :: (l ++ r)) (hp : p = l.getLastD h)
    (hn : n = r.headD h) (hpx : nxt' p = x) (hxp : prv' x = p) (hxn : nxt' x = n)
    (hnx : prv' n = x) (hnxt : ∀ a ∈ h :: (l ++ r), a ≠ p → nxt' a = nxt a)
    (hprv : ∀ a ∈ h :: (l ++ r), a ≠ n → prv' a = prv a) : Ring nxt' prv' h (l ++ x :: r) := by
  obtain ⟨hnodup, hl, hrest, hgap⟩ := ring_append_iff.mp hr
  obtain ⟨hpr, hnl⟩ := gap_not_mem hnodup
  rw [← hp, ← hn] at hgap
  rw [← hp] at hpr
  rw [← hn] at hnl
  obtain ⟨h1, h2⟩ := chains_of_gap hnodup hp hn hgap.1 hgap.2 hnl hpr hnxt hprv hl hrest
  refine ring_append_iff.mpr ⟨?_, h1, List.isChain_cons.mpr ⟨?_, h2⟩, ?_⟩
  · have hperm : (h :: (l ++ x :: r)).Perm (x :: h :: (l ++ r)) :=
      (List.perm_middle.cons h).trans (List.Perm.swap _ _ _)
    exact hperm.nodup_iff.mpr (List.nodup_cons.mpr ⟨hx, hnodup⟩)
  · intro b hb
    have hbn : b = n := by
      subst hn
      cases r <;> simp_all
    exact hbn ▸ ⟨hxn, hnx⟩
  · rw [← hp]
    exact ⟨hpx, hxp⟩

end Gap

/-- The ring, seen against its direction. -/
theorem Ring.reverse (hr : Ring nxt prv h l) : Ring prv nxt h l.reverse := by
  constructor
  · simpa using hr.nodup
  · have hrev : (h :: l ++ [h]).reverse = h :: l.reverse ++ [h] := by simp
    rw [← hrev, List.isChain_reverse]
    exact hr.chain.imp fun _ _ hab => hab.symm

/-- The nodes that a walk along the forward links meets before it is back at the head. -/
inductive Met (nxt : ι → ι) (h : ι) : ι → Prop
  | first : nxt h ≠ h → Met nxt h (nxt h)
  | next {a : ι} : Met nxt h a → nxt a ≠ h → Met nxt h (nxt a)

theorem Ring.met_iff (hr : Ring nxt prv h l) {a : ι} : Met nxt h a ↔ a ∈ l := by
  constructor
  · intro hm
    induction hm with
    | first hne =>
      rw [hr.nxt_head] at hne ⊢
      exact (List.mem_cons.mp (headD_mem h l)).resolve_left hne
    | @next b _ hne ih =>
      obtain ⟨l, r, rfl⟩ := List.append_of_mem ih
      rw [hr.nxt_eq] at hne ⊢
      have hmem : r.headD h ∈ r := (List.mem_cons.mp (headD_mem h r)).resolve_left hne
      exact List.mem_append_right _ (List.mem_cons_of_mem _ hmem)
  · intro hm
    -- the walk meets the nodes one after the other
    have hwalk : ∀ k r, l = k ++ r → ∀ b ∈ k, Met nxt h b := by
      intro k
      induction k using List.reverseRecOn with
      | nil => simp
      | append_singleton k c ih =>
        intro r hk b hb
        have hcut : l = k ++ c :: r := by simpa using hk
        rcases List.mem_append.mp hb with hb | hb
        · exact ih (c :: r) hcut b hb
        · rw [List.mem_singleton] at hb
          subst hb
          have hstep : nxt (k.getLastD h) = b := (hcut ▸ hr).follows.1
          have hbh : b ≠ h := by
            rintro rfl
            exact (List.nodup_cons.mp hr.nodup).1 (hcut ▸ by simp)
          rw [← hstep]
          rcases List.mem_cons.mp (getLastD_mem h k) with heq | hmem
          · rw [heq] at hstep ⊢
            exact .first (hstep ▸ hbh)
          · exact .next (ih (b :: r) hcut _ hmem) (hstep ▸ hbh)
    exact hwalk l [] (by simp) a hm

/-! ### Loops over a ring -/

section Loops

variable {S : Type*} [DecidableEq ι] {f : S → ι → ι} {g : ι → S → Option S} {s t : S}

/-- `for (pos = h->next; pos != h; pos = pos->next) body(pos)`, from `pos` on. The link is
followed after the body, in the state that the body has left. A body that does not return
ends the loop with `none`, and so does the end of the fuel. -/
def forEach (next : S → ι → ι) (h : ι) (body : ι → S → Option S) : ℕ → ι → S → Option S
  | 0, _, _ => none
  | n + 1, pos, s =>
    if pos = h then some s else (body pos s).bind fun t => forEach next h body n (next t pos) t

theorem forEach_mono {n : ℕ} {pos : ι} (hrun : forEach f h g n pos s = some t) (k : ℕ) :
    forEach f h g (n + k) pos s = some t := by
  induction n generalizing pos s with
  | zero => cases hrun
  | succ n ih =>
    rw [show n + 1 + k = n + k + 1 by omega, forEach]
    rw [forEach] at hrun
    split_ifs at hrun ⊢ with hpos
    · exact hrun
    · obtain ⟨u, hu, hrest⟩ := Option.bind_eq_some_iff.mp hrun
      rw [hu]
      exact ih hrest

/-- A body that changes nothing at the first nodes is through with them. -/
theorem Ring.forEach_skip (hr : Ring (f s) prv h (l ++ r)) (hbody : ∀ x ∈ l, g x s = some s) (n : ℕ) :
    forEach f h g (n + l.length) (f s h) s = forEach f h g n (r.headD h) s := by
  induction l using List.reverseRecOn generalizing r n with
  | nil =>
    rw [hr.nxt_head]
    rfl
  | append_singleton l x ih =>
    have hr' : Ring (f s) prv h (l ++ x :: r) := by simpa using hr
    have hx : x ≠ h := by
      rintro rfl
      exact (List.nodup_cons.mp hr'.nodup).1 (by simp)
    rw [List.length_append, List.length_singleton, show n + (l.length + 1) = n + 1 + l.length by omega,
      ih hr' (fun y hy => hbody y (List.mem_append_left _ hy)), List.headD_cons, forEach, if_neg hx,
      hbody x (by simp), Option.bind_some, hr'.nxt_eq]

/-- A body that changes nothing ends in the state it starts with. -/
theorem Ring.forEach_same (hr : Ring (f s) prv h l) (hbody : ∀ x ∈ l, g x s = some s) :
    ∃ n, forEach f h g n (f s h) s = some s := by
  have hskip := Ring.forEach_skip (r := []) (by simpa using hr) hbody 1
  refine ⟨_, hskip.trans ?_⟩
  rw [forEach]
  exact if_pos rfl

/-- A loop that ends has come past the first nodes. -/
theorem Ring.forEach_reach (hr : Ring (f s) prv h (l ++ x :: r)) (hbody : ∀ y ∈ l, g y s = some s) {n : ℕ}
    (hrun : forEach f h g n (f s h) s = some t) : ∃ k, forEach f h g k x s = some t :=
  ⟨n, (hr.forEach_skip hbody n).symm.trans (forEach_mono hrun l.length)⟩

/-- A body that leaves the links alone comes past the nodes in their order. -/
theorem forEach_chain {next : ι → ι} {a : ι} (g : S → ι → S) (s : S)
    (hc : (a :: l ++ [h]).IsChain (fun b c => next b = c)) (hh : h ∉ l) :
    forEach (fun _ => next) h (fun x s => some (g s x)) (l.length + 1) (next a) s = some (l.foldl g s) := by
  induction l generalizing a s with
  | nil =>
    obtain rfl : next a = h := by simpa using hc
    simp [forEach]
  | cons x l ih =>
    simp only [List.mem_cons, not_or] at hh
    obtain ⟨hax, hc⟩ := List.isChain_cons_cons.mp hc
    rw [hax, forEach, if_neg (Ne.symm hh.1), Option.bind_some]
    exact ih _ hc hh.2

theorem Ring.forEach_foldl (hr : Ring nxt prv h l) (g : S → ι → S) (s : S) :
    forEach (fun _ => nxt) h (fun x s => some (g s x)) (l.length + 1) (nxt h) s = some (l.foldl g s) :=
  forEach_chain g s (hr.chain.imp fun _ _ hab => hab.1) (List.nodup_cons.mp hr.nodup).1

/-- A node whose link leads to itself after the body, again and again, is never left. -/
theorem forEach_stuck (I : S → Prop) (hx : x ≠ h) (hI : ∀ s t, I s → g x s = some t → I t ∧ f t x = x) (hs : I s)
    (n : ℕ) : forEach f h g n x s = none := by
  induction n generalizing s with
  | zero => rfl
  | succ n ih =>
    rw [forEach, if_neg hx]
    cases hbody : g x s with
    | none => rfl
    | some t =>
      obtain ⟨ht, hself⟩ := hI s t hs hbody
      rw [Option.bind_some, hself]
      exact ih ht

end Loops

/-! ### Nodes in memory -/

section InMemory

open Memory

/-- The forward link of the node at `n`. -/
def nextOf (m : Mem) (n : ℕ) : ℕ := read32 m n

/-- The backward link of the node at `n`. -/
def prevOf (m : Mem) (n : ℕ) : ℕ := read32 m (n + 4)

/-- No two different nodes share a byte. -/
def Separated (S : List ℕ) : Prop :=
  ∀ u ∈ S, ∀ v ∈ S, u = v ∨ u + 8 ≤ v ∨ v + 8 ≤ u

/-- The memories agree outside the link words of the nodes. -/
def SameOff (S : List ℕ) (m m' : Mem) : Prop :=
  ∀ a, (∀ n ∈ S, a < n ∨ n + 8 ≤ a) → m' a = m a

theorem SameOff.refl (S : List ℕ) (m : Mem) : SameOff S m m := fun _ _ => rfl

theorem SameOff.trans {S : List ℕ} {m₁ m₂ m₃ : Mem} (h₁ : SameOff S m₁ m₂) (h₂ : SameOff S m₂ m₃) :
    SameOff S m₁ m₃ :=
  fun a ha => (h₂ a ha).trans (h₁ a ha)

theorem SameOff.mono {S T : List ℕ} {m m' : Mem} (h : SameOff S m m') (hST : ∀ n ∈ S, n ∈ T) :
    SameOff T m m' :=
  fun a ha => h a fun n hn => ha n (hST n hn)

theorem SameOff.read32 {S : List ℕ} {m m' : Mem} (h : SameOff S m m') {a : ℕ}
    (ha : ∀ n ∈ S, a + 4 ≤ n ∨ n + 8 ≤ a) : read32 m' a = read32 m a :=
  load_congr fun x h1 h2 => h x fun n hn => by
    rcases ha n hn with h | h <;> omega

theorem SameOff.write32 {S : List ℕ} {m m' : Mem} (h : SameOff S m m') (a v : ℕ) :
    SameOff S (write32 m a v) (write32 m' a v) :=
  fun x hx => store_congr (h x hx) a 4 v

/-- A store inside a link word of a node. -/
theorem sameOff_write32 {S : List ℕ} {n a : ℕ} (hn : n ∈ S) (h1 : n ≤ a) (h2 : a + 4 ≤ n + 8)
    (m : Mem) (v : ℕ) : SameOff S m (write32 m a v) := by
  intro x hx
  have := hx n hn
  exact store_apply_of_not_mem m a 4 v x (by omega)

variable {m : Mem} {a n v : ℕ}

theorem nextOf_writeNext_same (hv : v < 4294967296) : nextOf (write32 m n v) n = v :=
  read32_write32 m n v hv

theorem nextOf_writeNext_of_ne (hne : a ≠ n) (hs : a = n ∨ a + 8 ≤ n ∨ n + 8 ≤ a) :
    nextOf (write32 m n v) a = nextOf m a :=
  read32_write32_of_disjoint m (by omega)

theorem nextOf_writePrev (hs : a = n ∨ a + 8 ≤ n ∨ n + 8 ≤ a) :
    nextOf (write32 m (n + 4) v) a = nextOf m a :=
  read32_write32_of_disjoint m (by omega)

theorem prevOf_writePrev_same (hv : v < 4294967296) : prevOf (write32 m (n + 4) v) n = v :=
  read32_write32 m (n + 4) v hv

theorem prevOf_writePrev_of_ne (hne : a ≠ n) (hs : a = n ∨ a + 8 ≤ n ∨ n + 8 ≤ a) :
    prevOf (write32 m (n + 4) v) a = prevOf m a :=
  read32_write32_of_disjoint m (by omega)

theorem prevOf_writeNext (hs : a = n ∨ a + 8 ≤ n ∨ n + 8 ≤ a) :
    prevOf (write32 m n v) a = prevOf m a :=
  read32_write32_of_disjoint m (by omega)

/-- `next->prev = prev; prev->next = next`. -/
def unlink (m : Mem) (prev next : ℕ) : Mem := write32 (write32 m (next + 4) prev) prev next

/-- `list_del_init`. -/
def unlinkInit (m : Mem) (entry : ℕ) : Mem :=
  write32 (write32 (unlink m (prevOf m entry) (nextOf m entry)) entry entry) (entry + 4) entry

/-- The node leads to itself afterwards, whatever it was linked to. -/
theorem nextOf_unlinkInit (m : Mem) {n : ℕ} (hlt : n < 4294967296) : nextOf (unlinkInit m n) n = n := by
  rw [unlinkInit, nextOf_writePrev (Or.inl rfl), nextOf_writeNext_same hlt]

/-- `next->prev = new; new->next = next; new->prev = prev; prev->next = new`. -/
def link (m : Mem) (new prev next : ℕ) : Mem :=
  write32 (write32 (write32 (write32 m (next + 4) new) new next) (new + 4) prev) prev new

theorem sameOff_unlink {S : List ℕ} {p n : ℕ} (hp : p ∈ S) (hn : n ∈ S) (m : Mem) :
    SameOff S m (unlink m p n) :=
  (sameOff_write32 hn (by omega) (by omega) m p).trans
    (sameOff_write32 hp (by omega) (by omega) _ n)

theorem sameOff_link {S : List ℕ} {x p n : ℕ} (hx : x ∈ S) (hp : p ∈ S) (hn : n ∈ S) (m : Mem) :
    SameOff S m (link m x p n) :=
  (((sameOff_write32 hn (by omega) (by omega) m x).trans
    (sameOff_write32 hx (by omega) (by omega) _ n)).trans
    (sameOff_write32 hx (by omega) (by omega) _ p)).trans
    (sameOff_write32 hp (by omega) (by omega) _ x)

variable {h x : ℕ} {l r : List ℕ}

/-- The two ends at a place of a ring. -/
theorem ends_mem (h : ℕ) (l r : List ℕ) : l.getLastD h ∈ h :: (l ++ r) ∧ r.headD h ∈ h :: (l ++ r) := by
  constructor
  · exact List.mem_cons.mpr ((List.mem_cons.mp (getLastD_mem h l)).imp id (List.mem_append_left _))
  · exact List.mem_cons.mpr ((List.mem_cons.mp (headD_mem h r)).imp id (List.mem_append_right _))

theorem Ring.unlink_spec (hr : Ring (nextOf m) (prevOf m) h (l ++ x :: r))
    (hsep : Separated (h :: (l ++ r))) (hlt : ∀ u ∈ h :: (l ++ r), u < 4294967296) :
    Ring (nextOf (unlink m (l.getLastD h) (r.headD h)))
      (prevOf (unlink m (l.getLastD h) (r.headD h))) h (l ++ r) := by
  obtain ⟨hp, hn⟩ := ends_mem h l r
  generalize hpe : l.getLastD h = p at *
  generalize hne : r.headD h = n at *
  refine hr.remove hpe.symm hne.symm ?_ ?_ ?_ ?_
  · exact nextOf_writeNext_same (hlt n hn)
  · rw [unlink, prevOf_writeNext (hsep n hn p hp), prevOf_writePrev_same (hlt p hp)]
  · intro a ha hap
    rw [unlink, nextOf_writeNext_of_ne hap (hsep a ha p hp), nextOf_writePrev (hsep a ha n hn)]
  · intro a ha han
    rw [unlink, prevOf_writeNext (hsep a ha p hp), prevOf_writePrev_of_ne han (hsep a ha n hn)]

theorem Ring.link_spec (hr : Ring (nextOf m) (prevOf m) h (l ++ r)) (hx : x ∉ h :: (l ++ r))
    (hsep : Separated (x :: h :: (l ++ r))) (hlt : ∀ u ∈ x :: h :: (l ++ r), u < 4294967296) :
    Ring (nextOf (link m x (l.getLastD h) (r.headD h)))
      (prevOf (link m x (l.getLastD h) (r.headD h))) h (l ++ x :: r) := by
  obtain ⟨hp, hn⟩ := ends_mem h l r
  generalize hpe : l.getLastD h = p at *
  generalize hne : r.headD h = n at *
  have hxS : x ∈ x :: h :: (l ++ r) := List.mem_cons_self
  have hpx : p ≠ x := fun heq => hx (heq ▸ hp)
  have hnx : n ≠ x := fun heq => hx (heq ▸ hn)
  have sep : ∀ a ∈ h :: (l ++ r), ∀ b ∈ x :: h :: (l ++ r), a = b ∨ a + 8 ≤ b ∨ b + 8 ≤ a :=
    fun a ha b hb => hsep a (List.mem_cons_of_mem _ ha) b hb
  have hpS := List.mem_cons_of_mem x hp
  have hnS := List.mem_cons_of_mem x hn
  have sepx : ∀ b ∈ x :: h :: (l ++ r), x = b ∨ x + 8 ≤ b ∨ b + 8 ≤ x := hsep x hxS
  refine hr.insert hx hpe.symm hne.symm ?_ ?_ ?_ ?_ ?_ ?_
  · exact nextOf_writeNext_same (hlt x hxS)
  · rw [link, prevOf_writeNext (sepx p hpS), prevOf_writePrev_same (hlt p hpS)]
  · rw [link, nextOf_writeNext_of_ne hpx.symm (sepx p hpS), nextOf_writePrev (sepx x hxS),
      nextOf_writeNext_same (hlt n hnS)]
  · rw [link, prevOf_writeNext (sep n hn p hpS), prevOf_writePrev_of_ne hnx (sep n hn x hxS),
      prevOf_writeNext (sep n hn x hxS), prevOf_writePrev_same (hlt x hxS)]
  · intro a ha hap
    have hax : a ≠ x := fun heq => hx (heq ▸ ha)
    rw [link, nextOf_writeNext_of_ne hap (sep a ha p hpS), nextOf_writePrev (sep a ha x hxS),
      nextOf_writeNext_of_ne hax (sep a ha x hxS), nextOf_writePrev (sep a ha n hnS)]
  · intro a ha han
    have hax : a ≠ x := fun heq => hx (heq ▸ ha)
    rw [link, prevOf_writeNext (sep a ha p hpS), prevOf_writePrev_of_ne hax (sep a ha x hxS),
      prevOf_writeNext (sep a ha x hxS), prevOf_writePrev_of_ne han (sep a ha n hnS)]

end InMemory

end JustKernel.Links
