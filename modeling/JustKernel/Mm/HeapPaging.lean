import JustKernel.Mm.HeapRuns

/-! The heap and the memory managers below it. Only `createHeap`, `expand` and
`contract` call them, and only these three move the bounds of the heap; everything
else works on the heap's memory and is blind to both. What a call does to the bounds
and to the pages is therefore what its expansions and contractions do, in whatever
state the chunks are, and two memory managers that answer alike are the same to
the heap. -/

namespace JustKernel.Heap

open Memory Halting Links Runs

/-! ### Computations that do not see the pages -/

section Blind

variable {σ τ α β : Type}

/-- The same heap on other pages. -/
def State.withPages (s : State σ) (q : τ) : State τ := ⟨s.mem, s.heap, q, s.outside⟩

@[simp] theorem withPages_heap (s : State σ) (q : τ) : (s.withPages q).heap = s.heap := rfl

@[simp] theorem withPages_pages (s : State σ) (q : τ) : (s.withPages q).pages = q := rfl

theorem withPages_touch (s : State σ) (q : τ) (a : ℕ) :
    (s.withPages q).touch a = (s.touch a).withPages q := by
  unfold State.touch
  rw [withPages_heap]
  split_ifs <;> rfl

/-- Where `x` returns it has moved neither the bounds nor the pages, and `y` returns the same on
any other pages. -/
def Blind (x : HeapM σ α) (y : HeapM τ α) : Prop :=
  ∀ s a t, x s = .ok a t →
    t.heap = s.heap ∧ t.pages = s.pages ∧ ∀ q, y (s.withPages q) = .ok a (t.withPages q)

theorem Blind.bind {x : HeapM σ α} {y : HeapM τ α} {f : α → HeapM σ β} {g : α → HeapM τ β}
    (h : Blind x y) (hf : ∀ a, Blind (f a) (g a)) : Blind (x >>= f) (y >>= g) := by
  intro s b u hrun
  obtain ⟨a, t, hx, hfa⟩ := bind_eq_ok.mp hrun
  obtain ⟨hheap, hpages, hy⟩ := h s a t hx
  obtain ⟨hheap', hpages', hg⟩ := hf a t b u hfa
  refine ⟨hheap'.trans hheap, hpages'.trans hpages, fun q => ?_⟩
  rw [bind_of_ok (hy q)]
  exact hg q

theorem Blind.pure (a : α) : Blind (pure a : HeapM σ α) (pure a : HeapM τ α) := by
  intro s b t hrun
  cases hrun
  exact ⟨rfl, rfl, fun _ => rfl⟩

theorem Blind.throw (e : Halt) : Blind (throw e : HeapM σ α) (throw e : HeapM τ α) := by
  intro s b t hrun
  cases hrun

theorem Blind.ite {x x' : HeapM σ α} {y y' : HeapM τ α} (c : Prop) [Decidable c] (h : Blind x y)
    (h' : Blind x' y') : Blind (if c then x else x') (if c then y else y') := by
  split_ifs
  · exact h
  · exact h'

theorem Blind.heap_eq {x : HeapM σ α} {s t : State σ} {a : α} (h : Blind x x) (hrun : x s = .ok a t) :
    t.heap = s.heap :=
  (h s a t hrun).1

theorem Blind.pages_eq {x : HeapM σ α} {s t : State σ} {a : α} (h : Blind x x) (hrun : x s = .ok a t) :
    t.pages = s.pages :=
  (h s a t hrun).2.1

theorem getWord_blind (a : ℕ) : Blind (getWord a : HeapM σ ℕ) (getWord a : HeapM τ ℕ) := by
  intro s v t hrun
  rw [getWord_run] at hrun
  cases hrun
  refine ⟨touch_heap s a, touch_pages s a, fun q => ?_⟩
  rw [getWord_run, withPages_touch]
  rfl

theorem setWord_blind (a v : ℕ) : Blind (setWord a v : HeapM σ Unit) (setWord a v : HeapM τ Unit) := by
  intro s b t hrun
  rw [setWord_run] at hrun
  cases hrun
  refine ⟨touch_heap s a, touch_pages s a, fun q => ?_⟩
  rw [setWord_run, withPages_touch]
  rfl

theorem getHeap_blind : Blind (getHeap : HeapM σ HeapT) (getHeap : HeapM τ HeapT) := by
  intro s h t hrun
  cases hrun
  exact ⟨rfl, rfl, fun _ => rfl⟩

theorem assert_blind (text : String) (b : Bool) :
    Blind (assert text b : HeapM σ Unit) (assert text b : HeapM τ Unit) :=
  .ite _ (.pure _) (.throw _)

theorem panicUnless_blind (msg : String) (b : Bool) :
    Blind (panicUnless msg b : HeapM σ Unit) (panicUnless msg b : HeapM τ Unit) :=
  .ite _ (.pure _) (.throw _)

theorem chunksize_blind (p : ℕ) : Blind (chunksize p : HeapM σ ℕ) (chunksize p : HeapM τ ℕ) :=
  (getWord_blind _).bind fun _ => .pure _

theorem pinuse_blind (p : ℕ) : Blind (pinuse p : HeapM σ Bool) (pinuse p : HeapM τ Bool) :=
  (getWord_blind _).bind fun _ => .pure _

theorem cinuse_blind (p : ℕ) : Blind (cinuse p : HeapM σ Bool) (cinuse p : HeapM τ Bool) :=
  (getWord_blind _).bind fun _ => .pure _

theorem okInuse_blind (p : ℕ) : Blind (okInuse p : HeapM σ Bool) (okInuse p : HeapM τ Bool) :=
  (getWord_blind _).bind fun _ => .pure _

theorem clearPinuse_blind (p : ℕ) :
    Blind (clearPinuse p : HeapM σ Unit) (clearPinuse p : HeapM τ Unit) :=
  (getWord_blind _).bind fun _ => setWord_blind _ _

theorem setInuse_blind (p s : ℕ) : Blind (setInuse p s : HeapM σ Unit) (setInuse p s : HeapM τ Unit) :=
  (getWord_blind _).bind fun _ => (setWord_blind _ _).bind fun _ =>
    (getWord_blind _).bind fun _ => setWord_blind _ _

theorem listDel_blind (prev next : ℕ) :
    Blind (listDel prev next : HeapM σ Unit) (listDel prev next : HeapM τ Unit) :=
  (setWord_blind _ _).bind fun _ => setWord_blind _ _

theorem removeChunk_blind (c : ℕ) : Blind (removeChunk c : HeapM σ Unit) (removeChunk c : HeapM τ Unit) :=
  (getWord_blind _).bind fun _ => (getWord_blind _).bind fun _ => listDel_blind _ _

theorem listAddTail_blind (new head : ℕ) :
    Blind (listAddTail new head : HeapM σ Unit) (listAddTail new head : HeapM τ Unit) :=
  (getWord_blind _).bind fun _ => (setWord_blind _ _).bind fun _ => (setWord_blind _ _).bind fun _ =>
    (setWord_blind _ _).bind fun _ => setWord_blind _ _

theorem listEmpty_blind (head : ℕ) :
    Blind (listEmpty head : HeapM σ Bool) (listEmpty head : HeapM τ Bool) :=
  (getWord_blind _).bind fun _ => .pure _

theorem seekChunk_blind (size head n iter : ℕ) :
    Blind (seekChunk size head n iter : HeapM σ ℕ) (seekChunk size head n iter : HeapM τ ℕ) := by
  induction n generalizing iter with
  | zero => exact .throw _
  | succ n ih =>
    exact .ite _ (.pure _) ((chunksize_blind _).bind fun _ =>
      .ite _ (.pure _) ((getWord_blind _).bind fun _ => ih _))

theorem findSmallestChunk_blind (size : ℕ) :
    Blind (findSmallestChunk size : HeapM σ ℕ) (findSmallestChunk size : HeapM τ ℕ) :=
  getHeap_blind.bind fun _ => (getWord_blind _).bind fun _ => (seekChunk_blind _ _ _ _).bind fun _ =>
    .ite _ (.pure _) (.pure _)

theorem insertChunk_blind (c : ℕ) : Blind (insertChunk c : HeapM σ Unit) (insertChunk c : HeapM τ Unit) :=
  getHeap_blind.bind fun _ => (listEmpty_blind _).bind fun _ => .ite _ (listAddTail_blind _ _)
    ((chunksize_blind _).bind fun _ => (getWord_blind _).bind fun _ =>
      (seekChunk_blind _ _ _ _).bind fun _ => listAddTail_blind _ _)

theorem highestLoop_blind (head n iter tmp : ℕ) :
    Blind (highestLoop head n iter tmp : HeapM σ ℕ) (highestLoop head n iter tmp : HeapM τ ℕ) := by
  induction n generalizing iter tmp with
  | zero => exact .throw _
  | succ n ih => exact .ite _ (.pure _) ((getWord_blind _).bind fun _ => ih _ _)

theorem highestEntry_blind : Blind (highestEntry : HeapM σ ℕ) (highestEntry : HeapM τ ℕ) :=
  getHeap_blind.bind fun _ => (listEmpty_blind _).bind fun _ => .ite _ (.pure _)
    ((getWord_blind _).bind fun _ => highestLoop_blind _ _ _ _)

theorem checkTop_blind (top : ℕ) : Blind (checkTop top : HeapM σ Unit) (checkTop top : HeapM τ Unit) :=
  (pinuse_blind _).bind fun _ => .ite _ (.pure _)
    ((cinuse_blind _).bind fun _ => panicUnless_blind _ _)

theorem topChunk_blind (oldEnd : ℕ) :
    Blind (topChunk oldEnd : HeapM σ (ℕ × ℕ)) (topChunk oldEnd : HeapM τ (ℕ × ℕ)) :=
  highestEntry_blind.bind fun _ => getHeap_blind.bind fun _ => .ite _ (.pure _)
    ((checkTop_blind _).bind fun _ => (chunksize_blind _).bind fun _ => .ite _ (.pure _)
      ((removeChunk_blind _).bind fun _ => .pure _))

theorem useHole_blind (hole nb : ℕ) : Blind (useHole hole nb : HeapM σ ℕ) (useHole hole nb : HeapM τ ℕ) :=
  (chunksize_blind _).bind fun _ => (assert_blind _ _).bind fun _ => (removeChunk_blind _).bind fun _ =>
    (chunksize_blind _).bind fun _ => .ite _
      ((setWord_blind _ _).bind fun _ => (insertChunk_blind _).bind fun _ =>
        (setInuse_blind _ _).bind fun _ => .pure _)
      ((setInuse_blind _ _).bind fun _ => .pure _)

theorem mergePrev_blind (block size : ℕ) :
    Blind (mergePrev block size : HeapM σ (ℕ × ℕ)) (mergePrev block size : HeapM τ (ℕ × ℕ)) :=
  (pinuse_blind _).bind fun _ => .ite _ (.pure _)
    ((getWord_blind _).bind fun _ => getHeap_blind.bind fun _ => (panicUnless_blind _ _).bind fun _ =>
      (removeChunk_blind _).bind fun _ => .pure _)

theorem assert2_blind (block : ℕ) : Blind (assert2 block : HeapM σ ℕ) (assert2 block : HeapM τ ℕ) :=
  (insertChunk_blind _).bind fun _ => .throw _

theorem mergeNext_blind (block size : ℕ) :
    Blind (mergeNext block size : HeapM σ ℕ) (mergeNext block size : HeapM τ ℕ) :=
  getHeap_blind.bind fun _ => .ite _ (.pure _) ((pinuse_blind _).bind fun _ => .ite _ (assert2_blind _)
    ((cinuse_blind _).bind fun _ => .ite _ ((clearPinuse_blind _).bind fun _ => .pure _)
      ((chunksize_blind _).bind fun _ => .ite _ (assert2_blind _)
        ((removeChunk_blind _).bind fun _ => .pure _))))

theorem relistBlock_blind (block size : ℕ) :
    Blind (relistBlock block size : HeapM σ Unit) (relistBlock block size : HeapM τ Unit) :=
  .ite _ ((setWord_blind _ _).bind fun _ => insertChunk_blind _) (.pure _)

theorem splitLead_blind (chunk mem : ℕ) :
    Blind (splitLead chunk mem : HeapM σ ℕ) (splitLead chunk mem : HeapM τ ℕ) :=
  .ite _ ((chunksize_blind _).bind fun _ => (setInuse_blind _ _).bind fun _ =>
    (setWord_blind _ _).bind fun _ => (setWord_blind _ _).bind fun _ =>
      (insertChunk_blind _).bind fun _ => .pure _) (.pure _)

end Blind

/-! ### Expansions and contractions of a call -/

/-- `free` up to the branch on the end of the heap: the merged block and its size. -/
def freeFront {σ : Type} (ptr : ℕ) : HeapM σ (ℕ × ℕ) := do
  let h ← getHeap
  panicUnless "(free) Memory Corrupt" (okAddress ptr h)
  let block := mem2chunk ptr
  panicUnless "(free) Memory Corrupt" (← okInuse block)
  let size ← chunksize block
  let merged ← mergePrev block size
  let size ← mergeNext merged.1 merged.2
  return (merged.1, size)

/-- The size `free` asks `contract` for. -/
def shrinkSize (block : ℕ) (h : HeapT) : ℕ :=
  if sub32 block h.startAddr % pageSize ≠ 0 then add32 (sub32 block h.startAddr) minChunkSize
  else sub32 block h.startAddr

/-- `palignedAlloc` where it has cut off a remainder: the pointer it frees. -/
def cutRemainder {σ : Type} (chunk nb : ℕ) : HeapM σ (Option ℕ) := do
  let csize ← chunksize chunk
  if csize > add32 nb minChunkSize then do
    let remainderSize := sub32 csize nb
    let remainder := add32 chunk nb
    setInuse chunk nb
    setInuse remainder remainderSize
    return some (chunk2mem remainder)
  else return none

section Calls

variable {σ : Type} (P : Paging σ)

/-- A request for `nb` bytes in the state `s` expands the heap in the state `u`. It does so
once in a heap that is in order; with a corrupt free list the search may fail again. -/
inductive Grows (nb : ℕ) : State σ → State σ → Prop
  | now {s u : State σ} : findSmallestChunk nb s = .ok 0 u → Grows nb s u
  | again {s t u v : State σ} : findSmallestChunk nb s = .ok 0 t → growFor P nb t = .ok () u →
      Grows nb u v → Grows nb s v

/-- A call in the state `s` expands the heap in the state `u`, for a request of `nb` bytes. -/
inductive Expands (s : State σ) : Call → State σ → ℕ → Prop
  | alloc {size : ℕ} {u : State σ} : Grows P (request2size size) s u →
      Expands s (.alloc size) u (request2size size)
  | palignedAlloc {size : ℕ} {u : State σ} : Grows P (request2size (alignedRequest size)) s u →
      Expands s (.palignedAlloc size) u (request2size (alignedRequest size))

/-- `free` of `ptr` in the state `s` contracts the heap to `n` bytes in the state `u`. -/
inductive FreeContracts (ptr : ℕ) (s u : State σ) : ℕ → Prop
  | mk {block size : ℕ} : ptr ≠ 0 → freeFront ptr s = .ok (block, size) u →
      add32 block size = u.heap.endAddr → FreeContracts ptr s u (shrinkSize block u.heap)

/-- A call in the state `s` contracts the heap to `n` bytes in the state `u`. -/
inductive Contracts (s : State σ) : Call → State σ → ℕ → Prop
  | free {b : Block} {u : State σ} {n : ℕ} : FreeContracts b.ptr s u n → Contracts s (.free b) u n
  | palignedAlloc {size mem chunk ptr n : ℕ} {t v w u : State σ} :
      Heap.alloc P (alignedRequest size) s = .ok mem t → mem ≠ 0 →
      splitLead (mem2chunk mem) mem t = .ok chunk v →
      cutRemainder chunk (request2size size) v = .ok (some ptr) w →
      FreeContracts ptr w u n → Contracts s (.palignedAlloc size) u n

end Calls

section Keeps

variable {σ : Type} {P : Paging σ} {I : HeapT → σ → Prop} {s t : State σ}

theorem Blind.keeps {α : Type} {x : HeapM σ α} {a : α} (h : Blind x x) (hrun : x s = .ok a t)
    (hI : I s.heap s.pages) : I t.heap t.pages := by
  rw [h.heap_eq hrun, h.pages_eq hrun]
  exact hI

/-- A growth changes the bounds and the pages by its expansion. -/
theorem growFor_keeps {nb : ℕ} (hexp : ∀ v, expand P (add32 (sub32 s.heap.endAddr s.heap.startAddr) nb) s = .ok () v →
      I v.heap v.pages) (hrun : growFor P nb s = .ok () t) : I t.heap t.pages := by
  rw [growFor, bind_of_ok (getHeap_run s)] at hrun
  obtain ⟨_, v, hv, hrun⟩ := bind_eq_ok.mp hrun
  refine Blind.keeps (x := topChunk s.heap.endAddr >>= fun top =>
    setSizeAndPinuse top.1 top.2 >>= fun _ => insertChunk top.1) ?_ hrun (hexp v hv)
  exact (topChunk_blind _).bind fun _ => (setWord_blind _ _).bind fun _ => insertChunk_blind _

theorem allocLoop_keeps {size p : ℕ} (n : ℕ) (hI : I s.heap s.pages)
    (hexp : ∀ u v, Grows P (request2size size) s u → I u.heap u.pages →
      expand P (add32 (sub32 u.heap.endAddr u.heap.startAddr) (request2size size)) u = .ok () v →
      I v.heap v.pages) (hrun : allocLoop P n size s = .ok p t) : I t.heap t.pages := by
  induction n generalizing s with
  | zero => cases hrun
  | succ n ih =>
    rw [allocLoop] at hrun
    obtain ⟨hole, u, hfind, hrun⟩ := bind_eq_ok.mp hrun
    have hu := (findSmallestChunk_blind _).keeps hfind hI
    split_ifs at hrun with hhole
    · subst hhole
      obtain ⟨_, v, hgrow, hrun⟩ := bind_eq_ok.mp hrun
      have hv := growFor_keeps (fun w => hexp u w (.now hfind) hu) hgrow
      exact ih hv (fun w x hw => hexp w x (.again hfind hgrow hw)) hrun
    · exact (useHole_blind _ _).keeps hrun hu

theorem free_eq {ptr : ℕ} (hptr : ptr ≠ 0) :
    free P ptr = freeFront ptr >>= fun x => releaseBlock P x.1 x.2 := by
  rw [free, if_neg hptr]
  simp only [freeFront, bind_assoc, pure_bind]

theorem freeFront_blind {σ τ : Type} (ptr : ℕ) :
    Blind (freeFront ptr : HeapM σ (ℕ × ℕ)) (freeFront ptr : HeapM τ (ℕ × ℕ)) :=
  getHeap_blind.bind fun _ => (panicUnless_blind _ _).bind fun _ => (okInuse_blind _).bind fun _ =>
    (panicUnless_blind _ _).bind fun _ => (chunksize_blind _).bind fun _ =>
      (mergePrev_blind _ _).bind fun _ => (mergeNext_blind _ _).bind fun _ => .pure _

theorem shrinkAround_keeps {block size : ℕ} {r : ℕ × ℕ}
    (hcon : ∀ m v, contract P (shrinkSize block s.heap) s = .ok m v → I v.heap v.pages)
    (hrun : shrinkAround P block size s = .ok r t) : I t.heap t.pages := by
  rw [shrinkAround, bind_of_ok (getHeap_run s)] at hrun
  obtain ⟨m, v, hv, hrun⟩ := bind_eq_ok.mp hrun
  refine Blind.keeps (x := if size > sub32 (sub32 s.heap.endAddr s.heap.startAddr) m then
    pure (block, sub32 size (sub32 (sub32 s.heap.endAddr s.heap.startAddr) m)) else pure (0, 0)) ?_ hrun (hcon m v hv)
  exact .ite _ (.pure _) (.pure _)

theorem free_keeps {ptr : ℕ} (hI : I s.heap s.pages)
    (hcon : ∀ u n m v, FreeContracts ptr s u n → I u.heap u.pages → contract P n u = .ok m v →
      I v.heap v.pages) (hrun : free P ptr s = .ok () t) : I t.heap t.pages := by
  by_cases hptr : ptr = 0
  · rw [free, if_pos hptr] at hrun
    cases hrun
    exact hI
  · rw [free_eq hptr] at hrun
    obtain ⟨⟨block, size⟩, u, hfront, hrun⟩ := bind_eq_ok.mp hrun
    have hu := (freeFront_blind _).keeps hfront hI
    rw [releaseBlock, bind_of_ok (getHeap_run u)] at hrun
    split_ifs at hrun with htop
    · obtain ⟨left, v, hv, hrun⟩ := bind_eq_ok.mp hrun
      refine (relistBlock_blind _ _).keeps hrun ?_
      exact shrinkAround_keeps (fun m w => hcon u _ m w (.mk hptr hfront htop) hu) hv
    · obtain ⟨left, v, hv, hrun⟩ := bind_eq_ok.mp hrun
      refine (relistBlock_blind _ _).keeps hrun ?_
      exact Blind.keeps (x := footBlock block size) ((setWord_blind _ _).bind fun _ => .pure _) hv hu

theorem cutRemainder_blind {σ τ : Type} (chunk nb : ℕ) :
    Blind (cutRemainder chunk nb : HeapM σ (Option ℕ)) (cutRemainder chunk nb : HeapM τ (Option ℕ)) :=
  (chunksize_blind _).bind fun _ => .ite _ ((setInuse_blind _ _).bind fun _ =>
    (setInuse_blind _ _).bind fun _ => .pure _) (.pure _)

theorem splitRemainder_eq (chunk nb : ℕ) :
    splitRemainder P chunk nb = cutRemainder chunk nb >>= fun r =>
      match r with
      | some ptr => free P ptr
      | none => pure () := by
  rw [splitRemainder, cutRemainder, bind_assoc]
  refine congrArg (chunksize chunk >>= ·) (funext fun csize => ?_)
  split_ifs
  · simp only [bind_assoc, pure_bind]
  · rfl

theorem palignedAlloc_keeps {size p : ℕ} (hI : I s.heap s.pages)
    (hexp : ∀ u v, Grows P (request2size (alignedRequest size)) s u → I u.heap u.pages →
      expand P (add32 (sub32 u.heap.endAddr u.heap.startAddr) (request2size (alignedRequest size))) u =
        .ok () v → I v.heap v.pages)
    (hcon : ∀ u n m v, Contracts P s (.palignedAlloc size) u n → I u.heap u.pages →
      contract P n u = .ok m v → I v.heap v.pages)
    (hrun : palignedAlloc P size s = .ok p t) : I t.heap t.pages := by
  rw [palignedAlloc] at hrun
  obtain ⟨mem, u, halloc, hrun⟩ := bind_eq_ok.mp hrun
  have hu := allocLoop_keeps listFuel hI hexp halloc
  split_ifs at hrun with hmem
  · cases hrun
    exact hu
  · obtain ⟨chunk, v, hlead, hrun⟩ := bind_eq_ok.mp hrun
    have hv := (splitLead_blind _ _).keeps hlead hu
    obtain ⟨_, w, hsplit, hrun⟩ := bind_eq_ok.mp hrun
    have hw : I w.heap w.pages := by
      rw [splitRemainder_eq] at hsplit
      obtain ⟨r, x, hcut, hfree⟩ := bind_eq_ok.mp hsplit
      have hx := (cutRemainder_blind _ _).keeps hcut hv
      cases r with
      | none =>
        cases hfree
        exact hx
      | some ptr =>
        exact free_keeps hx (fun y n m z hy => hcon y n m z (.palignedAlloc halloc hmem hlead hcut hy)) hfree
    refine Blind.keeps ?_ hrun hw
    exact (chunksize_blind _).bind fun _ => (assert_blind _ _).bind fun _ => (assert_blind _ _).bind fun _ =>
      (cinuse_blind _).bind fun _ => (assert_blind _ _).bind fun _ => .pure _

/-- What the expansions and the contractions of a call keep, the call keeps. -/
theorem Step.keeps {r r' : Run σ} {c : Call} (hstep : Step P r c r') (hI : I r.state.heap r.state.pages)
    (hexp : ∀ u nb v, Expands P r.state c u nb → I u.heap u.pages →
      expand P (add32 (sub32 u.heap.endAddr u.heap.startAddr) nb) u = .ok () v → I v.heap v.pages)
    (hcon : ∀ u n m v, Contracts P r.state c u n → I u.heap u.pages → contract P n u = .ok m v →
      I v.heap v.pages) : I r'.state.heap r'.state.pages := by
  cases hstep with
  | alloc _ hrun => exact allocLoop_keeps listFuel hI (fun u v hu => hexp u _ v (.alloc hu)) hrun
  | palignedAlloc _ hrun =>
    exact palignedAlloc_keeps hI (fun u v hu => hexp u _ v (.palignedAlloc hu)) hcon hrun
  | free hrun => exact free_keeps hI (fun u n m v hu => hcon u n m v (.free hu)) hrun
  | write => exact hI
  | other => exact hI

end Keeps

/-! ### What they ask of the memory managers -/

section Returned

variable {σ : Type} {P : Paging σ} {s t : State σ}

theorem call_returned {α : Type} {f : σ → Option (α × σ)} {a : α} (hrun : call f s = .ok a t) :
    t.mem = s.mem ∧ t.heap = s.heap ∧ f s.pages = some (a, t.pages) := by
  cases hf : f s.pages with
  | none =>
    rw [call, get_bind_run, hf] at hrun
    cases hrun
  | some r =>
    rw [call, get_bind_run, hf] at hrun
    cases hrun
    exact ⟨rfl, rfl, rfl⟩

theorem callUnit_returned {f : σ → Option σ} (hrun : callUnit f s = .ok () t) :
    t.mem = s.mem ∧ t.heap = s.heap ∧ f s.pages = some t.pages := by
  obtain ⟨hmem, hheap, hf⟩ := call_returned hrun
  obtain ⟨p, hp, heq⟩ := Option.map_eq_some_iff.mp hf
  cases heq
  exact ⟨hmem, hheap, hp⟩

theorem callUnit_run {f : σ → Option σ} {p : σ} (hf : f s.pages = some p) :
    callUnit f s = .ok () (s.withPages p) := by
  rw [callUnit, call, get_bind_run, hf]
  rfl

theorem ask_run {α : Type} (f : σ → α × σ) (s : State σ) :
    call (fun p => some (f p)) s = .ok (f s.pages).1 (s.withPages (f s.pages).2) := rfl

theorem assert_returned {text : String} {b : Bool} (hrun : assert text b s = .ok () t) :
    t = s ∧ b = true := by
  cases b with
  | false => cases hrun
  | true =>
    cases hrun
    exact ⟨rfl, rfl⟩

theorem request2size_lt (size : ℕ) : request2size size < 4294967296 := by
  unfold request2size padRequest
  split_ifs
  · decide
  · exact Nat.and_le_left.trans_lt (Nat.mod_lt _ (by decide))

theorem Expands.lt {P : Paging σ} {c : Call} {nb : ℕ} (h : Expands P s c t nb) : nb < 4294967296 := by
  cases h with
  | alloc => exact request2size_lt _
  | palignedAlloc => exact request2size_lt _

/-- A returning `expand` has mapped new pages behind the old end. -/
theorem expand_returned {nb : ℕ} (hg : Geometry s.heap) (hnb : nb < 4294967296)
    (hrun : expand P (add32 (sub32 s.heap.endAddr s.heap.startAddr) nb) s = .ok () t) :
    s.heap.endAddr < grownEnd s.heap nb ∧ grownEnd s.heap nb ≤ s.heap.maxAddr ∧
      t.heap = s.heap.withEnd (grownEnd s.heap nb) ∧
      ∃ phys p, P.pmmAlloc (grownEnd s.heap nb - s.heap.endAddr) s.pages = some (phys, p) ∧
        P.vmmMap phys s.heap.endAddr ((grownEnd s.heap nb - s.heap.endAddr) / pageSize)
          (s.heap.perms ||| vmmPresent) p = some t.pages := by
  have hold := hg.size_eq
  obtain ⟨-, hstart, hend, hmin, hle, hmax⟩ := hg
  unfold pageSize at hstart hend
  unfold heapMinSize at hmin
  rw [expand, bind_of_ok (getHeap_run s), hold] at hrun
  obtain ⟨_, u, hassert, hrun⟩ := bind_eq_ok.mp hrun
  obtain ⟨rfl, hgt⟩ := assert_returned hassert
  simp only [gt_iff_lt, decide_eq_true_eq] at hgt
  have hsum := add32_of_lt hnb hgt
  rw [hsum] at hgt
  rw [hsum, roundToPage_eq (by unfold add32 at hsum; omega)] at hrun
  generalize hR : (u.heap.endAddr - u.heap.startAddr + nb + 4095) / 4096 * 4096 = R at hrun
  obtain ⟨_, v, hassert, hrun⟩ := bind_eq_ok.mp hrun
  obtain ⟨rfl, hfit⟩ := assert_returned hassert
  simp only [decide_eq_true_eq] at hfit
  rw [modify_bind_run] at hrun
  obtain ⟨phys, w, hcall, hrun⟩ := bind_eq_ok.mp hrun
  obtain ⟨-, hheap, halloc⟩ := call_returned hcall
  obtain ⟨-, hheap', hmap⟩ := callUnit_returned hrun
  have hsize : sub32 (add32 v.heap.startAddr (R % 4294967296)) v.heap.endAddr =
      R - (v.heap.endAddr - v.heap.startAddr) := by
    unfold sub32 add32
    unfold add32 at hsum
    omega
  have hsmall := P.pmmAlloc_le (by rw [hsize]; unfold pageSize; omega)
    (by rw [hsize]; unfold add32 at hsum; omega) halloc
  rw [hsize] at hsmall halloc hmap
  unfold pageSize at hsmall
  have hnew : add32 v.heap.startAddr (R % 4294967296) = grownEnd v.heap nb := by
    unfold add32 grownEnd pageSize
    omega
  have hgrown : R - (v.heap.endAddr - v.heap.startAddr) = grownEnd v.heap nb - v.heap.endAddr := by
    unfold grownEnd pageSize
    omega
  rw [hnew] at hfit hheap
  rw [hgrown] at halloc hmap
  refine ⟨?_, hfit, hheap'.trans hheap, phys, _, halloc, hmap⟩
  unfold grownEnd pageSize
  omega

/-- The end of a heap that contracts to `n` bytes. -/
def contractedEnd (h : HeapT) (n : ℕ) : ℕ := h.startAddr + contractedSize n

theorem contractedSize_spec {n e : ℕ} (hn : n < e) (he : e % 4096 = 0) (hlt : e < 4294967296)
    (hmin : 1048576 ≤ e) :
    contractedSize n % 4096 = 0 ∧ 1048576 ≤ contractedSize n ∧ contractedSize n ≤ e := by
  have hround := roundToPage_eq (n := n) (by omega)
  unfold contractedSize heapMinSize
  split_ifs <;> omega

/-- A returning `contract` has unmapped the pages behind the new end, and then asked where the
first of them is mapped. -/
theorem contract_returned {n m : ℕ} (hg : Geometry s.heap) (hrun : contract P n s = .ok m t) :
    contractedEnd s.heap n % pageSize = 0 ∧ s.heap.startAddr + heapMinSize ≤ contractedEnd s.heap n ∧
      contractedEnd s.heap n ≤ s.heap.endAddr ∧ t.heap = s.heap.withEnd (contractedEnd s.heap n) ∧
      ∃ p, P.vmmUnmapPages (contractedEnd s.heap n) s.heap.cr3
          ((s.heap.endAddr - contractedEnd s.heap n) / pageSize)
          (P.isMapped (contractedEnd s.heap n) s.heap.cr3 s.pages).2 = some p ∧
        let r := P.virtToPhys (contractedEnd s.heap n) s.heap.cr3 p
        (r.1 = 0xFFFFFFFF ∧ t.pages = r.2 ∨ r.1 ≠ 0xFFFFFFFF ∧
          P.pmmUnalloc r.1 (s.heap.endAddr - contractedEnd s.heap n) r.2 = some t.pages) := by
  have hold := hg.size_eq
  obtain ⟨-, hstart, hend, hmin, hle, hmax⟩ := hg
  unfold pageSize at hstart hend
  unfold heapMinSize at hmin
  rw [contract, bind_of_ok (getHeap_run s), hold] at hrun
  obtain ⟨_, u, hassert, hrun⟩ := bind_eq_ok.mp hrun
  obtain ⟨rfl, hlt⟩ := assert_returned hassert
  simp only [decide_eq_true_eq] at hlt
  obtain ⟨halign, hge, hsmall⟩ := contractedSize_spec hlt (by omega) (by omega) (by omega)
  have hnew : add32 u.heap.startAddr (contractedSize n) = contractedEnd u.heap n := add32_eq (by omega)
  have hbound : u.heap.startAddr + 1048576 ≤ contractedEnd u.heap n ∧
      contractedEnd u.heap n ≤ u.heap.endAddr := by
    unfold contractedEnd
    omega
  have hsize : sub32 u.heap.endAddr (contractedEnd u.heap n) = u.heap.endAddr - contractedEnd u.heap n :=
    sub32_eq (by omega) hbound.2
  rw [hnew, modify_bind_run, hsize, unmapTail] at hrun
  obtain ⟨_, v, htail, hrun⟩ := bind_eq_ok.mp hrun
  cases hrun
  obtain ⟨_, w, hmapped, htail⟩ := bind_eq_ok.mp htail
  obtain ⟨-, hheap₁, hmapped⟩ := call_returned hmapped
  obtain ⟨_, x, hunmap, htail⟩ := bind_eq_ok.mp htail
  obtain ⟨-, hheap₂, hunmap⟩ := callUnit_returned hunmap
  obtain ⟨phys, y, hphys, htail⟩ := bind_eq_ok.mp htail
  obtain ⟨-, hheap₃, hphys⟩ := call_returned hphys
  have hw : w.pages = (P.isMapped (contractedEnd u.heap n) u.heap.cr3 u.pages).2 :=
    congrArg Prod.snd (Option.some.inj hmapped).symm
  have hr : P.virtToPhys (contractedEnd u.heap n) u.heap.cr3 x.pages = (phys, y.pages) :=
    Option.some.inj hphys
  have hheap : y.heap = u.heap.withEnd (contractedEnd u.heap n) := (hheap₃.trans hheap₂).trans hheap₁
  refine ⟨?_, hbound.1, hbound.2, ?_⟩
  · unfold contractedEnd pageSize
    omega
  · rw [hw] at hunmap
    split_ifs at htail with hne
    · obtain ⟨-, hheap₄, hunalloc⟩ := callUnit_returned htail
      refine ⟨hheap₄.trans hheap, x.pages, hunmap, Or.inr ?_⟩
      rw [hr]
      exact ⟨hne, hunalloc⟩
    · cases htail
      refine ⟨hheap, x.pages, hunmap, Or.inl ?_⟩
      rw [hr]
      exact ⟨not_not.mp hne, rfl⟩

/-- A returning `createHeap` has mapped the pages of the heap. -/
theorem createHeap_returned {placementAddr cr3 start size max : ℕ} {perms : BitVec 16}
    (hplace : placementAddr + 28 ≤ start) (hmin : heapMinSize ≤ size) (hmax : start + size ≤ max)
    (hlim : max ≤ 2147483648) (hrun : createHeap P placementAddr cr3 start size max perms s = .ok () t) :
    Geometry t.heap ∧ t.heap = ⟨start, start + size, max, cr3, perms, placementAddr + 20⟩ ∧
      ∃ phys p, P.pmmAlloc size s.pages = some (phys, p) ∧
        P.vmmMapPages phys start cr3 (size / pageSize) (perms ||| vmmPresent) p = some t.pages := by
  have hend : add32 start size = start + size := add32_eq (by omega)
  have hhead : add32 placementAddr 20 = placementAddr + 20 := add32_eq (by omega)
  rw [createHeap, hend, hhead] at hrun
  obtain ⟨_, u, hassert, hrun₁⟩ := bind_eq_ok.mp hrun
  obtain ⟨hu, hstart⟩ := assert_returned hassert
  obtain ⟨_, v, hassert, hrun⟩ := bind_eq_ok.mp hrun₁
  obtain ⟨hv, hpage⟩ := assert_returned hassert
  simp only [decide_eq_true_eq] at hstart hpage
  rw [hv, hu, modify_bind_run] at hrun
  generalize hh : (⟨start, start + size, max, cr3, perms, placementAddr + 20⟩ : HeapT) = h at hrun
  obtain ⟨_, w, hnext, hrun⟩ := bind_eq_ok.mp hrun
  obtain ⟨_, x, hprev, hrun⟩ := bind_eq_ok.mp hrun
  obtain ⟨phys, y, halloc, hrun⟩ := bind_eq_ok.mp hrun
  obtain ⟨-, hheap₁, halloc⟩ := call_returned halloc
  obtain ⟨_, z, hmap, hrun⟩ := bind_eq_ok.mp hrun
  obtain ⟨-, hheap₂, hmap⟩ := callUnit_returned hmap
  have hrest : Blind (setPrevFoot start 0 >>= fun _ => setSizeAndPinuse start size >>= fun _ => insertChunk start : HeapM σ Unit)
      (setPrevFoot start 0 >>= fun _ => setSizeAndPinuse start size >>= fun _ => insertChunk start : HeapM σ Unit) :=
    (setWord_blind _ _).bind fun _ => (setWord_blind _ _).bind fun _ => insertChunk_blind _
  have hheap : t.heap = h := by
    rw [hrest.heap_eq hrun, hheap₂, hheap₁, (setWord_blind _ _).heap_eq hprev,
      (setWord_blind _ _).heap_eq hnext]
    rfl
  have hpages : x.pages = s.pages := by
    rw [(setWord_blind _ _).pages_eq hprev, (setWord_blind _ _).pages_eq hnext]
    rfl
  refine ⟨?_, hheap, phys, y.pages, hpages ▸ halloc, ?_⟩
  · rw [hheap, ← hh]
    exact ⟨hplace, hstart, hpage, by simp only; omega, hmax, hlim⟩
  · rw [hrest.pages_eq hrun]
    exact hmap

end Returned

/-! ### Memory managers that answer alike -/

section Simulation

variable {σ τ : Type}

variable {R : σ → τ → Prop} {Q : Paging σ} {P : Paging τ} {α β : Type}

/-- Where `x` returns, `y` returns the same, and the pages stay related. -/
def Sim (R : σ → τ → Prop) (x : HeapM σ α) (y : HeapM τ α) : Prop :=
  ∀ s a t p, R s.pages p → x s = .ok a t → ∃ p', y (s.withPages p) = .ok a (t.withPages p') ∧ R t.pages p'

/-- From related states, what `Q` answers `P` answers too. -/
structure Simulates (R : σ → τ → Prop) (Q : Paging σ) (P : Paging τ) : Prop where
  pmmAlloc : ∀ {q p size phys q'}, R q p → Q.pmmAlloc size q = some (phys, q') →
    ∃ p', P.pmmAlloc size p = some (phys, p') ∧ R q' p'
  vmmMapPages : ∀ {q p phys virt cr3 count perms q'}, R q p →
    Q.vmmMapPages phys virt cr3 count perms q = some q' →
    ∃ p', P.vmmMapPages phys virt cr3 count perms p = some p' ∧ R q' p'
  vmmMap : ∀ {q p phys virt count perms q'}, R q p → Q.vmmMap phys virt count perms q = some q' →
    ∃ p', P.vmmMap phys virt count perms p = some p' ∧ R q' p'
  unmapTail : ∀ heap newEnd size, Sim R (unmapTail Q heap newEnd size) (unmapTail P heap newEnd size)

theorem Blind.sim {x : HeapM σ α} {y : HeapM τ α} (h : Blind x y) : Sim R x y := by
  intro s a t p hR hrun
  obtain ⟨-, hpages, hy⟩ := h s a t hrun
  exact ⟨p, hy p, hpages ▸ hR⟩

theorem Sim.bind {x : HeapM σ α} {y : HeapM τ α} {f : α → HeapM σ β} {g : α → HeapM τ β}
    (h : Sim R x y) (hf : ∀ a, Sim R (f a) (g a)) : Sim R (x >>= f) (y >>= g) := by
  intro s b u p hR hrun
  obtain ⟨a, t, hx, hfa⟩ := bind_eq_ok.mp hrun
  obtain ⟨p', hy, hR'⟩ := h s a t p hR hx
  obtain ⟨p'', hg, hR''⟩ := hf a t b u p' hR' hfa
  exact ⟨p'', by rw [bind_of_ok hy]; exact hg, hR''⟩

theorem Sim.ite {x x' : HeapM σ α} {y y' : HeapM τ α} (c : Prop) [Decidable c] (h : Sim R x y)
    (h' : Sim R x' y') : Sim R (if c then x else x') (if c then y else y') := by
  split_ifs
  · exact h
  · exact h'

/-- A change of the bounds. -/
theorem Sim.modify {f : State σ → State σ} {g : State τ → State τ}
    (h : ∀ s (p : τ), g (s.withPages p) = (f s).withPages p ∧ (f s).pages = s.pages) :
    Sim R (modify f : HeapM σ PUnit) (modify g : HeapM τ PUnit) := by
  intro s a t p hR hrun
  cases hrun
  obtain ⟨hg, hpages⟩ := h s p
  refine ⟨p, ?_, ?_⟩
  · rw [modify_run, hg]
  · rw [hpages]
    exact hR

theorem setEnd_sim (e : ℕ) :
    Sim R (modify fun s => s.setEnd e : HeapM σ PUnit) (modify fun s => s.setEnd e : HeapM τ PUnit) :=
  Sim.modify fun _ _ => ⟨rfl, rfl⟩

theorem setHeap_sim (h : HeapT) :
    Sim R (modify fun s => s.setHeap h : HeapM σ PUnit) (modify fun s => s.setHeap h : HeapM τ PUnit) :=
  Sim.modify fun _ _ => ⟨rfl, rfl⟩

theorem Sim.call {f : σ → Option (α × σ)} {g : τ → Option (α × τ)}
    (h : ∀ {q p a q'}, R q p → f q = some (a, q') → ∃ p', g p = some (a, p') ∧ R q' p') :
    Sim R (call f) (call g) := by
  intro s a t p hR hrun
  obtain ⟨p', hg, hR'⟩ := h hR (call_returned hrun).2.2
  refine ⟨p', ?_, hR'⟩
  have hrun' : Heap.call g (s.withPages p) = .ok a ((s.withPages p).withPages p') := by
    rw [Heap.call, get_bind_run, withPages_pages, hg]
    rfl
  cases hf : f s.pages with
  | none =>
    rw [Heap.call, get_bind_run, hf] at hrun
    cases hrun
  | some r =>
    rw [Heap.call, get_bind_run, hf] at hrun
    cases hrun
    exact hrun'

theorem Sim.callUnit {f : σ → Option σ} {g : τ → Option τ}
    (h : ∀ {q p q'}, R q p → f q = some q' → ∃ p', g p = some p' ∧ R q' p') :
    Sim R (callUnit f) (callUnit g) := by
  refine Sim.call fun {q p a q'} hR hf => ?_
  obtain ⟨q₁, hq, heq⟩ := Option.map_eq_some_iff.mp hf
  cases heq
  obtain ⟨p', hp, hR'⟩ := h hR hq
  exact ⟨p', by rw [hp]; rfl, hR'⟩

variable (h : Simulates R Q P)
include h

theorem Simulates.expand (n : ℕ) : Sim R (expand Q n) (expand P n) :=
  getHeap_blind.sim.bind fun _ => (assert_blind _ _).sim.bind fun _ => (assert_blind _ _).sim.bind fun _ =>
    (setEnd_sim _).bind fun _ => (Sim.call h.pmmAlloc).bind fun _ => Sim.callUnit h.vmmMap

theorem Simulates.contract (n : ℕ) : Sim R (contract Q n) (contract P n) :=
  getHeap_blind.sim.bind fun _ => (assert_blind _ _).sim.bind fun _ => (setEnd_sim _).bind fun _ =>
    (h.unmapTail _ _ _).bind fun _ => (Blind.pure _).sim

theorem Simulates.createHeap (placementAddr cr3 start size max : ℕ) (perms : BitVec 16) :
    Sim R (createHeap Q placementAddr cr3 start size max perms)
      (createHeap P placementAddr cr3 start size max perms) :=
  (assert_blind _ _).sim.bind fun _ => (assert_blind _ _).sim.bind fun _ => (setHeap_sim _).bind fun _ =>
    (setWord_blind _ _).sim.bind fun _ => (setWord_blind _ _).sim.bind fun _ =>
      (Sim.call h.pmmAlloc).bind fun _ => (Sim.callUnit h.vmmMapPages).bind fun _ =>
        (setWord_blind _ _).sim.bind fun _ => (setWord_blind _ _).sim.bind fun _ => (insertChunk_blind _).sim

theorem Simulates.allocLoop (n size : ℕ) : Sim R (allocLoop Q n size) (allocLoop P n size) := by
  induction n with
  | zero => exact (Blind.throw _).sim
  | succ n ih =>
    refine (findSmallestChunk_blind _).sim.bind fun _ => .ite _ ?_ (useHole_blind _ _).sim
    refine Sim.bind ?_ fun _ => ih
    exact (getHeap_blind.sim).bind fun _ => (h.expand _).bind fun _ => (topChunk_blind _).sim.bind fun _ =>
      ((setWord_blind _ _).sim).bind fun _ => (insertChunk_blind _).sim

theorem Simulates.alloc (size : ℕ) : Sim R (alloc Q size) (alloc P size) := h.allocLoop listFuel size

theorem Simulates.releaseBlock (block size : ℕ) :
    Sim R (releaseBlock Q block size) (releaseBlock P block size) :=
  getHeap_blind.sim.bind fun _ => .ite _
    ((getHeap_blind.sim.bind fun _ => (h.contract _).bind fun _ =>
      .ite _ (Blind.pure _).sim (Blind.pure _).sim).bind fun _ => (relistBlock_blind _ _).sim)
    (((setWord_blind _ _).bind fun _ => .pure _).sim.bind fun _ => (relistBlock_blind _ _).sim)

theorem Simulates.free (ptr : ℕ) : Sim R (free Q ptr) (free P ptr) := by
  by_cases hptr : ptr = 0
  · rw [Heap.free, Heap.free, if_pos hptr, if_pos hptr]
    exact (Blind.pure _).sim
  · rw [free_eq hptr, free_eq hptr]
    exact (freeFront_blind _).sim.bind fun _ => h.releaseBlock _ _

end Simulation

end JustKernel.Heap
