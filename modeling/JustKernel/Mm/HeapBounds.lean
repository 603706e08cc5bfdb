import JustKernel.Mm.HeapDisjoint

/-! The accesses of the heap to its own words. As long as no used chunk reaches the end
of the heap, every header that is read or written lies inside, also in a call that does
not return. A request reaches the end when the hole it is served from ends there and
leaves no room for a chunk of its own behind the block: `set_inuse` then flags the word
behind the heap. -/

namespace JustKernel.Heap

open Memory Halting Links Runs

/-- A request for `nb` bytes leaves a chunk at the end of the heap. -/
def LeavesEnd {σ : Type} (s : State σ) (nb : ℕ) : Prop :=
  ∀ a k e, Serves s nb a k e → nb + 16 ≤ k ∨ a + k ≠ e

/-- The padding of a request does not wrap, its block stays away from the end of the heap, and
a `free` can trust the tags of its backward merge. -/
def InsideCall {σ : Type} (s : State σ) : Call → Prop
  | .alloc size => size + 11 < 2 ^ 32 ∧ LeavesEnd s (request2size size)
  | .palignedAlloc size => size + 11 < 2 ^ 32 ∧ request2size size + 4119 < 2 ^ 32 ∧
      LeavesEnd s (request2size size + 4112)
  | .free b => BackwardOk s b
  | _ => True

/-- The state in which a call ends, whether it returns or not. -/
def Call.final {σ : Type} (P : Paging σ) (s : State σ) : Call → State σ
  | .alloc size => finalState (Heap.alloc P size s)
  | .palignedAlloc size => finalState (Heap.palignedAlloc P size s)
  | .free b => finalState (Heap.free P b.ptr s)
  | _ => s

/-- No word outside the heap was accessed, and the bytes that were asked for lie inside. -/
structure Inside {σ : Type} (r : Run σ) : Prop where
  words : r.state.outside = []
  blocks : ∀ b ∈ r.live, r.state.heap.startAddr ≤ b.ptr ∧ b.ptr + b.size ≤ r.state.heap.endAddr

/-- The heap is arranged, and no used chunk reaches its end. -/
structure Clear {σ : Type} (r : Run σ) (free used : List Chunk) : Prop extends Tracked r free used where
  words : r.state.outside = []
  short : ∀ c ∈ used, c.top ≠ r.state.heap.endAddr

section Bounds

variable {σ : Type} {P : Paging σ} {s t : State σ} {r r' : Run σ} {live : List Block}
  {free used : List Chunk} {b : Block}

theorem Served.leaves {h' : HeapT} {m' : Mem} {free' : List Chunk} {nb : ℕ} {hole c : Chunk}
    (hsv : Served s.heap s.mem free used nb h' m' free' hole c) (ha : Arranged s.heap s.mem free used)
    (hend : LeavesEnd s nb) :
    (nb + 16 ≤ hole.size ∨ hole.top ≠ h'.endAddr) ∧ c.top ≠ h'.endAddr := by
  have hhole := hend _ _ _ (hsv.serves ha)
  refine ⟨hhole, ?_⟩
  intro htop
  obtain ⟨-, -, -, hwhole⟩ := hsv.facts ha
  obtain ⟨rfl, hsmall⟩ := hwhole htop
  unfold Chunk.top at htop
  omega

/-- The heap never gets smaller by a request. -/
theorem Served.end_le {h h' : HeapT} {m m' : Mem} {free' : List Chunk} {nb : ℕ} {hole c : Chunk}
    (hsv : Served h m free used nb h' m' free' hole c) (hg : Geometry h) : h.endAddr ≤ h'.endAddr := by
  cases hsv with
  | found => exact le_rfl
  | grown =>
    obtain ⟨-, hge⟩ := grownEnd_spec hg nb
    exact (Nat.le_add_right _ _).trans hge

theorem Led.top_eq {h : HeapT} {m m' : Mem} {free' : List Chunk} {c n : Chunk}
    (hled : Led h m free c m' free' n) (hle : leadSize c.addr ≤ c.size) : n.top = c.top := by
  cases hled with
  | aligned => rfl
  | lead hk _ hn =>
    subst hn hk
    unfold Chunk.top
    simp only
    omega

/-- A remainder that does not end with the heap leaves the end alone. -/
theorem Trimmed.short {h h' : HeapT} {m m' : Mem} {free' : List Chunk} {n q : Chunk} {nb : ℕ}
    (htrim : Trimmed h m free n nb h' m' free' q) (hn : n.top ≤ h.endAddr) (hne : n.top ≠ h.endAddr) :
    h' = h ∧ q.top ≠ h.endAddr := by
  cases htrim with
  | fitting => exact ⟨rfl, hne⟩
  | cut hbig hq hx hrel =>
    subst hq hx
    unfold Chunk.top at hn hne ⊢
    simp only at hrel ⊢
    refine ⟨?_, by omega⟩
    cases hrel with
    | footed => rfl
    | shrunk htop =>
      unfold Chunk.top at htop
      simp only at htop
      omega
    | gone htop =>
      unfold Chunk.top at htop
      simp only at htop
      omega

theorem Clear.alloc_spec {size p : ℕ} (hc : Clear ⟨s, live⟩ free used) (hsize : size + 11 < 2 ^ 32)
    (hend : LeavesEnd s (request2size size)) (hrun : alloc P size s = .ok p t) :
    ∃ free' used', Clear ⟨t, ⟨p, size⟩ :: live⟩ free' used' := by
  obtain ⟨free', hole, c, ht, hsv, hout⟩ := hc.toTracked.alloc_spec hsize hrun
  obtain ⟨hhole, hctop⟩ := hsv.leaves hc.arranged hend
  refine ⟨free', c :: used, ht, (hout hhole).trans hc.words, ?_⟩
  have hle := hsv.end_le hc.arranged.geo
  intro d hd
  rcases List.mem_cons.mp hd with rfl | hd
  · exact hctop
  · have := hc.short d hd
    have := (hc.arranged.fits d (List.mem_append_right _ hd)).top_le
    simp only at *
    omega

theorem leavesEnd_remainderOk {size : ℕ} (hend : LeavesEnd s (request2size size + 4112)) :
    RemainderOk s size := by
  intro a k e hserves hsmall htop
  have := hend a k e hserves
  omega

theorem Clear.palignedAlloc_spec {size p : ℕ} (hc : Clear ⟨s, live⟩ free used)
    (hsize : size + 11 < 2 ^ 32) (hreq : request2size size + 4119 < 2 ^ 32)
    (hend : LeavesEnd s (request2size size + 4112)) (hrun : palignedAlloc P size s = .ok p t) :
    ∃ free' used', Clear ⟨t, ⟨p, size⟩ :: live⟩ free' used' := by
  obtain ⟨h₁, m₁, free₁, hole, c, m₂, free₂, n, free', q, ht, hsv, harr₁, hled, harr₂, htrim, hout⟩ :=
    hc.toTracked.palignedAlloc_spec hsize rfl hreq (leavesEnd_remainderOk hend) hrun
  obtain ⟨hhole, hctop⟩ := hsv.leaves hc.arranged hend
  obtain ⟨-, hcle, -, -⟩ := hsv.facts hc.arranged
  have hcfit := harr₁.fits c (by simp)
  obtain ⟨-, hlead, -, -⟩ := leadSize_spec hcfit.addr_aligned
  have hntop : n.top = c.top := hled.top_eq (by omega)
  obtain ⟨hheap, hqtop⟩ := htrim.short (hntop ▸ hcfit.top_le) (hntop ▸ hctop)
  refine ⟨free', q :: used, ht, (hout hhole).trans hc.words, ?_⟩
  have hle := hsv.end_le hc.arranged.geo
  intro d hd
  simp only [hheap]
  rcases List.mem_cons.mp hd with rfl | hd
  · exact hqtop
  · have := hc.short d hd
    have := (hc.arranged.fits d (List.mem_append_right _ hd)).top_le
    simp only at *
    omega

theorem Clear.not_endsHeap {l q : List Block} (hc : Clear ⟨s, l ++ b :: q⟩ free used) : ¬EndsHeap s b := by
  obtain ⟨l', c, r', rfl, -, -, haddr, hsize⟩ := hc.toTracked.block_spec
  rw [EndsHeap, haddr, hsize]
  exact hc.short c (by simp)

theorem Clear.free_spec {l q : List Block} (hc : Clear ⟨s, l ++ b :: q⟩ free used) (hback : BackwardOk s b)
    (hrun : Heap.free P b.ptr s = .ok () t) : ∃ free' used', Clear ⟨t, l ++ q⟩ free' used' := by
  obtain ⟨l', c, r', m, rest, x, free', rfl, -, ht, hxtop, -, hrel, hout, -⟩ :=
    hc.toTracked.free_spec hback (fun he => absurd he hc.not_endsHeap) hrun
  have hctop := hc.short c (by simp)
  have hheap : t.heap = s.heap := by
    generalize hh : t.heap = h' at hrel
    cases hrel with
    | footed => rfl
    | shrunk htop => exact absurd (hxtop ▸ htop) hctop
    | gone htop => exact absurd (hxtop ▸ htop) hctop
  refine ⟨free', l' ++ r', ht, (hout hctop).trans hc.words, ?_⟩
  intro d hd
  have := hc.short d (by
    rw [List.mem_append] at hd
    rcases hd with hd | hd <;> simp [hd])
  simpa only [hheap] using this

/-- One event keeps the used chunks away from the end. -/
theorem clear_step {c : Call} (hin : InsideCall r.state c) (hstep : Step P r c r')
    (h : ∃ free used, Clear r free used) : ∃ free used, Clear r' free used := by
  obtain ⟨free, used, hc⟩ := h
  cases hstep with
  | alloc _ hrun => exact hc.alloc_spec hin.1 hin.2 hrun
  | palignedAlloc _ hrun => exact hc.palignedAlloc_spec hin.1 hin.2.1 hin.2.2 hrun
  | free hrun => exact hc.free_spec hin hrun
  | write hb hle hlt => exact ⟨free, used, hc.toTracked.write_spec hb hle hlt _, hc.words, hc.short⟩
  | other hout hhead => exact ⟨free, used, hc.toTracked.other_spec hout hhead _, hc.words, hc.short⟩

theorem Clear.inside (hc : Clear r free used) : Inside r := by
  refine ⟨hc.words, ?_⟩
  intro b hb
  obtain ⟨l, q, hlive⟩ := List.append_of_mem hb
  have ht : Tracked ⟨r.state, l ++ b :: q⟩ free used := ⟨hc.arranged, hlive ▸ hc.holds⟩
  obtain ⟨l', c, r', rfl, ⟨hptr, hsize⟩, -, -, -⟩ := ht.block_spec
  have hfit := hc.arranged.fits c (by simp)
  have hstart := hfit.start_le
  have htop := hfit.top_le
  have hne := hc.short c (by simp)
  -- the chunk ends before the heap does, and by a word at least
  have := hfit.addr_aligned
  have := hfit.size_aligned
  have halign := hc.arranged.geo.end_aligned
  unfold Chunk.top at htop hne
  unfold pageSize at halign
  omega

/-- A call ends with all its accesses inside the heap, whether it returns or not. -/
theorem Clear.final_spec (hc : Clear r free used) {c : Call} (hin : InsideCall r.state c)
    (hlive : ∀ b, c = .free b → b ∈ r.live) : (c.final P r.state).outside = [] := by
  cases c with
  | alloc size =>
    have hends := alloc_ends (P := P) hc.arranged hin.1
    rw [Call.final]
    cases hrun : Heap.alloc P size r.state with
    | ok p t =>
      obtain ⟨_, _, hc'⟩ := hc.alloc_spec hin.1 hin.2 hrun
      exact hc'.words
    | error e t =>
      rw [hrun] at hends
      exact hends.trans hc.words
  | palignedAlloc size =>
    have hrem := remainderOk_served hc.arranged rfl (leavesEnd_remainderOk hin.2.2)
    have hends := palignedAlloc_ends (P := P) hc.arranged hin.1 rfl hin.2.1 hrem
    rw [Call.final]
    cases hrun : Heap.palignedAlloc P size r.state with
    | ok p t =>
      obtain ⟨_, _, hc'⟩ := hc.palignedAlloc_spec hin.1 hin.2.1 hin.2.2 hrun
      exact hc'.words
    | error e t =>
      rw [hrun] at hends
      rcases hends with h | ⟨h₁, m₁, free₁, hole, c, hsv, hsmall, htop⟩
      · exact h.trans hc.words
      · have := (hsv.leaves hc.arranged hin.2.2).1
        omega
  | free b =>
    obtain ⟨l, q, hsplit⟩ := List.append_of_mem (hlive b rfl)
    have hc' : Clear ⟨r.state, l ++ b :: q⟩ free used :=
      ⟨⟨hc.arranged, hsplit ▸ hc.holds⟩, hc.words, hc.short⟩
    obtain ⟨l', c, r', rfl, hbc, -, haddr, -⟩ := hc'.toTracked.block_spec
    have hctop := hc.short c (by simp)
    have hends := free_ends (P := P) hc.arranged (Tracked.footOk hc.arranged hin haddr)
      fun htop => absurd htop hctop
    rw [Call.final, hbc.1]
    cases hrun : Heap.free P (c.addr + 8) r.state with
    | ok p t =>
      obtain ⟨_, _, hc''⟩ := hc'.free_spec (P := P) (t := t) hin (by rw [hbc.1]; exact hrun)
      exact hc''.words
    | error e t =>
      rw [hrun] at hends
      exact absurd hends hctop
  | write a v => exact hc.words
  | other a v => exact hc.words

/-- In every run whose requests stay away from the end of the heap, nothing outside it is
accessed. -/
theorem accesses_inside (hs : Created P s)
    (hr : Reaches (fun a b => ∃ c, InsideCall a.state c ∧ Step P a c b) ⟨s, []⟩ r) :
    Inside r ∧ ∀ c, InsideCall r.state c → (∀ b, c = .free b → b ∈ r.live) →
      (c.final P r.state).outside = [] := by
  have hinv : ∃ free used, Clear r free used := by
    refine Reaches.invariant (fun r => ∃ free used, Clear r free used) ?_ hr ?_
    · rintro a b h ⟨c, hin, hstep⟩
      exact clear_step hin hstep h
    · obtain ⟨c, ht, -, -, -, hout⟩ := tracked_created hs
      exact ⟨[c], [], ht, hout, by simp⟩
  obtain ⟨free, used, hc⟩ := hinv
  exact ⟨hc.inside, fun c hin hlive => hc.final_spec hin hlive⟩

end Bounds

/-! Two blocks cut off the last chunk, the first of which is freed again, and one block that takes up
the whole new heap. -/

/-- A request that leaves 16 bytes of the chunk it is served from stays away from the end. -/
theorem leavesEnd_of_hole {σ : Type} {s t : State σ} {nb a : ℕ} (hfind : findSmallestChunk nb s = .ok a t)
    (ha : a ≠ 0) (hroom : nb + 16 ≤ sizeAt s.mem a) : LeavesEnd s nb := by
  intro a' k e hserves
  obtain ⟨rfl, rfl, rfl⟩ := serves_unique hfind ha hserves
  exact Or.inl hroom

theorem leavesEnd_newHeap : LeavesEnd newHeap (request2size 100) :=
  leavesEnd_of_hole (a := 0x1000000) (ok_of_returned (by decide +kernel)) (by decide) (by decide +kernel)

theorem leavesEnd_afterOne : LeavesEnd afterOne (request2size 200) :=
  leavesEnd_of_hole (a := 0x1000068) (ok_of_returned (by decide +kernel)) (by decide) (by decide +kernel)

/-- The chunk in front of the second block is the free one that its tag tells of. -/
theorem backwardOk_afterFree : BackwardOk afterFree ⟨0x1000070, 200⟩ := by
  have hnext : nextOf afterFree.mem afterFree.heap.head = 0x1000008 := by decide +kernel
  have hmet : OnFreeList afterFree 0x1000000 := by
    change Met (nextOf afterFree.mem) afterFree.heap.head 0x1000008
    rw [← hnext]
    refine .first ?_
    decide +kernel
  exact Or.inr ⟨0x1000000, hmet, by decide +kernel, by decide +kernel⟩

/-- The second block, too, can be freed without a look outside. -/
theorem accesses_inside_alloc_alloc_free : Inside ⟨afterFree, [⟨0x1000070, 200⟩]⟩ ∧
    (finalState (free readyPaging 0x1000070 afterFree)).outside = [] := by
  obtain ⟨hinside, hnext⟩ := accesses_inside created_newHeap
    (.head ⟨.alloc 100, ⟨by decide, leavesEnd_newHeap⟩, .alloc (by decide) afterOne_run⟩
      (.head ⟨.alloc 200, ⟨by decide, leavesEnd_afterOne⟩, .alloc (by decide) afterTwo_run⟩
        (.single ⟨.free ⟨0x1000008, 100⟩, Or.inl afterTwo_told.1, Step.free (l := [_]) (r := []) afterFree_run⟩)))
  refine ⟨hinside, hnext (.free ⟨0x1000070, 200⟩) backwardOk_afterFree ?_⟩
  rintro b ⟨⟩
  exact List.mem_singleton_self _

def wholeHeap : State Unit := finalState (alloc readyPaging 0xFFFFC newHeap)

theorem exact_fit_outside : ¬∀ r : Run Unit,
    Reaches (fun a b => ∃ c, Step readyPaging a c b) ⟨newHeap, []⟩ r → Inside r := by
  have hrun : alloc readyPaging 0xFFFFC newHeap = .ok 0x1000008 wholeHeap :=
    ok_of_returned (by decide +kernel)
  have hout : wholeHeap.outside = [0x1100004, 0x1100004] := by decide +kernel
  intro hall
  have := (hall _ (.single ⟨.alloc 0xFFFFC, .alloc (by decide) hrun⟩)).words
  simp [hout] at this

end JustKernel.Heap
