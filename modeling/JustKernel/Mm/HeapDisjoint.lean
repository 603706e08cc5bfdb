import JustKernel.Mm.HeapRuns

/-! The blocks that callers hold never overlap, nor do they overlap the chunks on the
free list, as long as each `free` can trust the tags that its backward merge reads and
nothing behind the heap passes for a free chunk. The tags cannot always be trusted: a
block that `palignedAlloc` returns has `PINUSE` clear and a `prevFoot` that no later
split of the lead in front of it keeps up to date. -/

namespace JustKernel.Heap

open Memory Halting Links Runs

section Disjoint

variable {σ : Type} {P : Paging σ} {s : State σ} {r : Run σ}

/-- The bytes that were asked for are pairwise disjoint, and no chunk on the free list overlaps
the chunk of a block. -/
structure BlocksApart (r : Run σ) : Prop where
  live : r.live.Pairwise fun a b => a.ptr + a.size ≤ b.ptr ∨ b.ptr + b.size ≤ a.ptr
  free : ∀ d, OnFreeList r.state d → ∀ b ∈ r.live,
    d + sizeAt r.state.mem d ≤ b.ptr - 8 ∨ b.ptr - 8 + sizeAt r.state.mem (b.ptr - 8) ≤ d

/-- The sizes of the requests are below `2 ^ 31`. -/
def ModestCall : Call → Prop
  | .alloc size => size < 2 ^ 31
  | .palignedAlloc size => size < 2 ^ 31
  | _ => True

/-- The call finds the tags it relies on in order. -/
def TrustedCall (s : State σ) : Call → Prop
  | .palignedAlloc size => RemainderOk s size
  | .free b => BackwardOk s b ∧ (EndsHeap s b → ¬WildEnd s.heap s.mem)
  | _ => True

/-- The padding of the request does not wrap. -/
def PaddedCall : Call → Prop
  | .alloc size => size + 11 < 2 ^ 32
  | .palignedAlloc size => size + 11 < 2 ^ 32 ∧ request2size size + 4119 < 2 ^ 32
  | _ => True

theorem modest_request {size : ℕ} (h : size < 2 ^ 31) :
    size + 11 < 2 ^ 32 ∧ request2size size + 4119 < 2 ^ 32 := by
  refine ⟨by omega, ?_⟩
  unfold request2size minRequest minChunkSize
  split_ifs
  · omega
  · have hadd : add32 size (chunkOverhead + 7) = size + 11 := add32_eq (by unfold chunkOverhead; omega)
    rw [padRequest, hadd, and_sizeMask (by omega)]
    omega

theorem ModestCall.padded {c : Call} (h : ModestCall c) : PaddedCall c := by
  cases c with
  | alloc size => exact (modest_request h).1
  | palignedAlloc size => exact modest_request h
  | free b => trivial
  | write a v => trivial
  | other a v => trivial

/-- One event keeps the heap arranged around the blocks. -/
theorem tracked_step {r r' : Run σ} {c : Call} (hpadded : PaddedCall c) (htrust : TrustedCall r.state c)
    (hstep : Step P r c r') (h : ∃ free used, Tracked r free used) :
    ∃ free used, Tracked r' free used := by
  obtain ⟨free, used, ht⟩ := h
  cases hstep with
  | alloc _ hrun =>
    obtain ⟨free', _, c, ht', -⟩ := ht.alloc_spec hpadded hrun
    exact ⟨free', c :: used, ht'⟩
  | palignedAlloc _ hrun =>
    obtain ⟨_, _, _, _, _, _, _, _, free', q, ht', -⟩ := ht.palignedAlloc_spec hpadded.1 rfl hpadded.2 htrust hrun
    exact ⟨free', q :: used, ht'⟩
  | free hrun =>
    obtain ⟨l', _, r', _, _, _, free', _, _, ht', -⟩ := ht.free_spec htrust.1 htrust.2 hrun
    exact ⟨free', l' ++ r', ht'⟩
  | write hb hle hlt => exact ⟨free, used, ht.write_spec hb hle hlt _⟩
  | other hout hhead => exact ⟨free, used, ht.other_spec hout hhead _⟩

theorem pairwise_of_forall₂ {α β : Type} {R : α → β → Prop} {S : β → β → Prop} {T : α → α → Prop}
    {as : List α} {bs : List β} (h : List.Forall₂ R as bs) (hbs : bs.Pairwise S)
    (himp : ∀ a a' b b', R a b → R a' b' → S b b' → T a a') : as.Pairwise T := by
  induction h with
  | nil => exact .nil
  | @cons a b as bs hab hrest ih =>
    obtain ⟨hb, hbs⟩ := List.pairwise_cons.mp hbs
    refine List.pairwise_cons.mpr ⟨?_, ih hbs⟩
    intro a' ha'
    obtain ⟨l, r, rfl⟩ := List.append_of_mem ha'
    obtain ⟨l', b', r', rfl, hab', -⟩ := forall₂_middle hrest
    exact himp a a' b b' hab hab' (hb b' (by simp))

theorem Tracked.blocksApart {free used : List Chunk} (ht : Tracked r free used) : BlocksApart r := by
  constructor
  · refine pairwise_of_forall₂ ht.holds (List.pairwise_append.mp ht.arranged.apart).2.1 ?_
    rintro a a' c c' ⟨hp, hs⟩ ⟨hp', hs'⟩ hap
    unfold Apart Chunk.top at hap
    omega
  · intro d hd b hb
    obtain ⟨c, hc, rfl⟩ := (onFreeList_iff ht.arranged).mp hd
    obtain ⟨l, q, hlive⟩ := List.append_of_mem hb
    have ht' : Tracked ⟨r.state, l ++ b :: q⟩ free used := ⟨ht.arranged, hlive ▸ ht.holds⟩
    obtain ⟨l', e, r', rfl, -, -, haddr, hsize⟩ := ht'.block_spec
    have hap := (List.pairwise_append.mp ht.arranged.apart).2.2 c hc e (by simp)
    rw [haddr, hsize, (ht.arranged.freeHead c hc).1]
    exact hap

/-- In every run whose calls can trust the tags they read, the blocks stay apart. -/
theorem blocks_apart (hs : Created P s)
    (hr : Reaches (fun a b => ∃ c, ModestCall c ∧ TrustedCall a.state c ∧ Step P a c b) ⟨s, []⟩ r) :
    BlocksApart r := by
  have hinv : ∃ free used, Tracked r free used := by
    refine Reaches.invariant (fun r => ∃ free used, Tracked r free used) ?_ hr ?_
    · rintro a b h ⟨c, hmodest, htrust, hstep⟩
      exact tracked_step hmodest.padded htrust hstep h
    · obtain ⟨c, ht, -⟩ := tracked_created hs
      exact ⟨[c], [], ht⟩
  obtain ⟨free, used, ht⟩ := hinv
  exact ht.blocksApart

end Disjoint

/-! Two plain blocks, the first of which is freed again. -/

def afterOne : State Unit := finalState (alloc readyPaging 100 newHeap)

def afterTwo : State Unit := finalState (alloc readyPaging 200 afterOne)

def afterFree : State Unit := finalState (free readyPaging 0x1000008 afterTwo)

theorem afterOne_run : alloc readyPaging 100 newHeap = .ok 0x1000008 afterOne :=
  ok_of_returned (by decide +kernel)

theorem afterTwo_run : alloc readyPaging 200 afterOne = .ok 0x1000070 afterTwo :=
  ok_of_returned (by decide +kernel)

theorem afterFree_run : free readyPaging 0x1000008 afterTwo = .ok () afterFree :=
  ok_of_returned (by decide +kernel)

/-- The first block has a chunk in use in front of it, and one behind it. -/
theorem afterTwo_told : pinAt afterTwo.mem 0x1000000 = 1 ∧ ¬EndsHeap afterTwo ⟨0x1000008, 100⟩ := by
  rw [EndsHeap]
  decide +kernel

theorem blocks_apart_alloc_alloc_free : BlocksApart ⟨afterFree, [⟨0x1000070, 200⟩]⟩ := by
  obtain ⟨hpin, hend⟩ := afterTwo_told
  refine blocks_apart created_newHeap
    (.head ⟨.alloc 100, (by decide : 100 < 2 ^ 31), trivial, .alloc (by decide) afterOne_run⟩
      (.head ⟨.alloc 200, (by decide : 200 < 2 ^ 31), trivial, .alloc (by decide) afterTwo_run⟩ (.single ?_)))
  exact ⟨.free ⟨0x1000008, 100⟩, trivial, ⟨Or.inl hpin, fun h => absurd h hend⟩,
    Step.free (l := [_]) (r := []) afterFree_run⟩

/-! An aligned block, a plain block in the lead in front of it, and the aligned block freed: the
backward merge takes the lead, plain block and all, back to the free list. -/

def afterAligned : State Unit := finalState (palignedAlloc readyPaging 4096 newHeap)

def afterPlain : State Unit := finalState (alloc readyPaging 100 afterAligned)

def afterMerge : State Unit := finalState (free readyPaging 0x1001000 afterPlain)

theorem freed_lead_overlaps : ¬∀ r : Run Unit,
    Reaches (fun a b => ∃ c, ModestCall c ∧ Step readyPaging a c b) ⟨newHeap, []⟩ r → BlocksApart r := by
  have h1 : palignedAlloc readyPaging 4096 newHeap = .ok 0x1001000 afterAligned :=
    ok_of_returned (by decide +kernel)
  have h2 : alloc readyPaging 100 afterAligned = .ok 0x1000008 afterPlain := ok_of_returned (by decide +kernel)
  have h3 : free readyPaging 0x1001000 afterPlain = .ok () afterMerge := ok_of_returned (by decide +kernel)
  intro hall
  have hapart := hall ⟨afterMerge, [⟨0x1000008, 100⟩]⟩
    (.head ⟨.palignedAlloc 4096, (by decide : 4096 < 2 ^ 31), .palignedAlloc (by decide) h1⟩
      (.head ⟨.alloc 100, (by decide : 100 < 2 ^ 31), .alloc (by decide) h2⟩
        (.single ⟨.free ⟨0x1001000, 4096⟩, trivial, Step.free (l := [_]) (r := []) h3⟩)))
  have hnext : nextOf afterMerge.mem afterMerge.heap.head = 0x1002008 := by decide +kernel
  have hnext' : nextOf afterMerge.mem 0x1002008 = 0x1000008 := by decide +kernel
  have hsize : sizeAt afterMerge.mem 0x1000000 = 8192 := by decide +kernel
  have hmet : Met (nextOf afterMerge.mem) afterMerge.heap.head _ := .first (by decide +kernel)
  have hlist : OnFreeList afterMerge 0x1000000 := by
    have := hmet.next (by decide +kernel)
    rwa [hnext, hnext'] at this
  have hfree := hapart.free 0x1000000
  simp only [List.mem_singleton, forall_eq] at hfree
  have := hfree hlist
  simp only [Nat.reduceSub, hsize] at this
  omega

end JustKernel.Heap
