import JustKernel.Mm.HeapAlloc

/-! What `free` does to an arranged heap. If `PINUSE` of the block is clear, `prevFoot`
names the chunk before it, and the two become one. The chunk behind the block is
looked at only if it is outside the heap, which is the wrong way round: a block in
the middle of the heap is never merged with what follows it, and for the last block
the word behind the end of the heap is taken for a header. A block that is not the
last one gets its size into the `prevFoot` behind it and goes to the list; after the
last one the heap is cut. -/

namespace JustKernel.Heap

open Memory Halting Links

/-- The backward merge can be trusted: `PINUSE` is set, or `prevFoot` is the size of a free
chunk that ends at the block. -/
def FootOk (m : Mem) (free : List Chunk) (b : Chunk) : Prop :=
  pinAt m b.addr = 0 → ∃ d ∈ free, d.addr + read32 m b.addr = b.addr ∧ d.size = read32 m b.addr

/-- The word behind the end of the heap looks like the header of a free chunk of no size, or of
one that ends behind the end of the address space. -/
def WildEnd (h : HeapT) (m : Mem) : Prop :=
  pinAt m h.endAddr = 1 ∧ usedAt m h.endAddr = 0 ∧
    (sizeAt m h.endAddr = 0 ∨ 4294967296 ≤ h.endAddr + sizeAt m h.endAddr)

/-- The bounds of the heap are page boundaries, the minimal size or more apart. -/
structure PagedHeap (h : HeapT) : Prop where
  start_aligned : h.startAddr % pageSize = 0
  end_aligned : h.endAddr % pageSize = 0
  min_le : h.startAddr + heapMinSize ≤ h.endAddr
  end_lt : h.endAddr < 2 ^ 32

theorem Geometry.paged {h : HeapT} (hg : Geometry h) : PagedHeap h where
  start_aligned := hg.start_aligned
  end_aligned := hg.end_aligned
  min_le := hg.min_le
  end_lt := by
    have := hg.end_le
    have := hg.max_le
    omega

/-- A block of any size that chunks have, at any offset, ends the heap. -/
structure LastBlock (h : HeapT) (x : Chunk) : Prop where
  size_aligned : x.size % 8 = 0
  min_le : minChunkSize ≤ x.size
  start_le : h.startAddr ≤ x.addr
  top_eq : x.top = h.endAddr

theorem Fits.lastBlock {h : HeapT} {x : Chunk} (hx : Fits h x) (htop : x.top = h.endAddr) : LastBlock h x :=
  ⟨hx.size_aligned, hx.min_le, hx.start_le, htop⟩

/-- Where the heap ends after a block at `a` that ended it has been freed. -/
def cutEnd (h : HeapT) (a : ℕ) : ℕ :=
  h.startAddr + contractedSize (if (a - h.startAddr) % pageSize ≠ 0 then a - h.startAddr + minChunkSize
    else a - h.startAddr)

/-- The block after the backward merge, and the free list without the chunk it took up. -/
inductive Merged (h : HeapT) (m : Mem) (free : List Chunk) (b : Chunk) :
    Mem → List Chunk → Chunk → Prop
  | alone : pinAt m b.addr = 1 → Merged h m free b m free b
  | prev {m' : Mem} {l r : List Chunk} {d x : Chunk} : pinAt m b.addr = 0 → free = l ++ d :: r →
      d.top = b.addr → x = ⟨d.addr, d.size + b.size⟩ → SameOff (h.head :: nodes (l ++ r)) m m' →
      Merged h m free b m' (l ++ r) x

/-- What becomes of the merged block `x`. -/
inductive Released (h : HeapT) (m : Mem) (rest : List Chunk) (x : Chunk) :
    HeapT → Mem → List Chunk → Prop
  | footed {m' : Mem} {l r : List Chunk} : x.top ≠ h.endAddr → rest = l ++ r →
      SameOff (h.head :: nodes (x :: rest))
        (write32 (write32 m x.top x.size) (x.addr + 4) (x.size + 1)) m' →
      Released h m rest x h m' (l ++ x :: r)
  | shrunk {m₁ m' : Mem} {l r : List Chunk} {e : ℕ} {y : Chunk} : x.top = h.endAddr →
      x.addr + 16 ≤ e → y = ⟨x.addr, e - x.addr⟩ → rest = l ++ r →
      (∀ a < h.endAddr + 4, m₁ a = m a) →
      SameOff (h.head :: nodes (y :: rest)) (write32 m₁ (y.addr + 4) (y.size + 1)) m' →
      Released h m rest x (h.withEnd e) m' (l ++ y :: r)
  | gone {m' : Mem} : x.top = h.endAddr → (∀ a < h.endAddr + 4, m' a = m a) →
      Released h m rest x (h.withEnd x.addr) m' rest

section Free

variable {σ : Type} {P : Paging σ} {s : State σ} {free used l r : List Chunk} {b x : Chunk}

/-- The backward merge with a chunk of the list. -/
theorem mergePrev_prev {c : ℕ} {d : Chunk} (ha : Laid s.heap s.mem (l ++ d :: r) used)
    (hc : Placed s.heap c) (hpin : pinAt s.mem c = 0) (hd : d.addr + read32 s.mem c = c) (size : ℕ) :
    ∃ m, mergePrev c size s = .ok (d.addr, add32 size (read32 s.mem c)) (s.setMem m) ∧
      Laid s.heap m (l ++ r) used ∧ Loose s.heap (l ++ r) used d ∧
      SameOff (s.heap.head :: nodes (l ++ r)) s.mem m := by
  have hdfit := ha.fits d (List.mem_append_left _ (by simp))
  have hlt := hc.lt ha.spans
  obtain ⟨m, hrem, harr', hloose', hsame⟩ := ha.removeChunk_spec
  have hprev : sub32 c (read32 s.mem c) = d.addr := by
    rw [sub32_eq (by omega) (by omega)]
    omega
  have hok : okAddress d.addr s.heap = true :=
    okAddress_of_le hdfit.start_le (by have := hdfit.placed.le_end; omega)
  have hfootrun : prevFoot c s = .ok (read32 s.mem c) s := getWord_ok (hc.word (k := 0) (by omega))
  refine ⟨m, ?_, harr', hloose', hsame⟩
  rw [mergePrev, bind_of_ok (pinuse_ok ha.spans hc), hpin, if_neg (by simp), bind_of_ok hfootrun,
    bind_of_ok (getHeap_run s), hprev, hok, panicUnless, if_pos rfl, pure_bind_run, bind_of_ok hrem]
  rfl

theorem mergePrev_spec (ha : Laid s.heap s.mem free (l ++ b :: r)) (hfoot : FootOk s.mem free b) :
    ∃ x rest m, mergePrev b.addr b.size s = .ok (x.addr, x.size) (s.setMem m) ∧ x.top = b.top ∧
      Merged s.heap s.mem free b m rest x ∧ Laid s.heap m rest (l ++ r) ∧
      Loose s.heap rest (l ++ r) x := by
  obtain ⟨harr, hloose⟩ := ha.disown
  have hpl := hloose.fits.placed
  have hblt := hloose.fits.lt ha.spans
  have hpin := pinAt_lt s.mem b.addr
  by_cases h0 : pinAt s.mem b.addr = 0
  · obtain ⟨d, hd, haddr, hsize⟩ := hfoot h0
    obtain ⟨l', r', rfl⟩ := List.append_of_mem hd
    have hdfit := harr.fits d (List.mem_append_left _ hd)
    have hdap := hloose.apart d (List.mem_append_left _ hd)
    obtain ⟨m, hrun, harr', hloose', hsame⟩ := mergePrev_prev harr hpl h0 haddr b.size
    have htop : d.top = b.addr := by unfold Chunk.top; omega
    have hadd : add32 b.size (read32 s.mem b.addr) = d.size + b.size := by
      unfold Chunk.top at hblt
      rw [add32_eq (by omega)]
      omega
    refine ⟨⟨d.addr, d.size + b.size⟩, l' ++ r', m, ?_, ?_, .prev h0 rfl htop rfl hsame, harr', ?_⟩
    · rw [hrun, hadd]
    · unfold Chunk.top at htop ⊢
      simp only
      omega
    · have := hdfit.addr_aligned
      have := hdfit.size_aligned
      have := hdfit.min_le
      have := hdfit.start_le
      have := hloose.fits.size_aligned
      have hbtop := hloose.fits.top_le
      unfold Chunk.top at htop hbtop
      refine ⟨by apply fits_mk <;> omega, ?_⟩
      intro e he
      have h1 := hloose'.apart e he
      have h2 : Apart b e := by
        apply hloose.apart
        rw [List.append_assoc] at he ⊢
        exact mem_middle.mpr (Or.inr he)
      have := (harr'.fits e he).min_le
      simp only [Apart, Chunk.top] at h1 h2 ⊢
      omega
  · have h1 : pinAt s.mem b.addr = 1 := by omega
    refine ⟨b, free, s.mem, ?_, rfl, .alone h1, harr, hloose⟩
    rw [mergePrev, bind_of_ok (pinuse_ok ha.spans hpl), h1]
    rfl

theorem mergeNext_inside (hs : Spans s.heap) (hx : Fits s.heap x) (hne : x.top ≠ s.heap.endAddr) :
    mergeNext x.addr x.size s = .ok x.size s := by
  have hlt := hx.lt hs
  have := hx.top_le
  have hok : okAddress (add32 x.addr x.size) s.heap = true := by
    have := hx.start_le
    unfold Chunk.top at *
    rw [add32_eq (by omega)]
    exact okAddress_of_le (by omega) (by omega)
  rw [mergeNext, bind_of_ok (getHeap_run s), hok, if_pos rfl]
  rfl

/-- `_Lassert2` does not return. -/
theorem assert2_ends (block : ℕ) (s : State σ) {Q : ℕ → State σ → Prop} :
    Ends Q (fun _ => True) (assert2 block s) := by
  cases hins : insertChunk block s with
  | ok a t =>
    rw [assert2, bind_of_ok hins]
    exact trivial
  | error e t =>
    rw [assert2, bind_of_error hins]
    exact trivial

/-- For the last block the word behind the heap decides, and it may be written. -/
theorem mergeNext_end (hs : Spans s.heap) (hx : Fits s.heap x) (htop : x.top = s.heap.endAddr)
    (hwild : ¬WildEnd s.heap s.mem) :
    Ends (fun n t => n = x.size ∧ t.heap = s.heap ∧ ∀ a < s.heap.endAddr + 4, t.mem a = s.mem a)
      (fun _ => True) (mergeNext x.addr x.size s) := by
  have hlt := hx.lt hs
  have hpin := pinAt_lt s.mem x.top
  have hnext : add32 x.addr x.size = x.top := by unfold Chunk.top at *; exact add32_eq (by omega)
  have hok : okAddress x.top s.heap = false := by
    simp only [okAddress, Bool.and_eq_false_iff, decide_eq_false_iff_not]
    omega
  rw [mergeNext, bind_of_ok (getHeap_run s), hnext, hok, if_neg (by simp),
    bind_of_ok (pinuse_run (by omega) s)]
  by_cases h1 : pinAt s.mem x.top = 1
  · rw [h1, if_neg (by simp), bind_of_ok (cinuse_run (by omega) _), touch_mem]
    by_cases hused : usedAt s.mem x.top = 0
    · rw [hused, if_neg (by simp), bind_of_ok (chunksize_run (by omega) _), touch_mem, touch_mem]
      have hover : add32 x.top (sizeAt s.mem x.top) > s.heap.endAddr := by
        have hsz : sizeAt s.mem x.top < 4294967296 := by
          have := read32_lt s.mem (x.top + 4)
          unfold sizeAt
          omega
        rw [WildEnd, ← htop] at hwild
        unfold add32
        omega
      rw [if_pos hover]
      exact assert2_ends _ _
    · rw [if_pos (by simpa using hused), clearPinuse, bind_assoc,
        bind_of_ok (getHead_run (by omega) _), bind_of_ok (setHead_run (by omega) _ _)]
      refine ⟨rfl, by simp, ?_⟩
      intro a hlow
      simp only [setMem_mem, touch_mem]
      exact store_apply_of_not_mem _ _ _ _ _ (by omega)
  · rw [show pinAt s.mem x.top = 0 by omega, if_pos (by simp)]
    exact assert2_ends _ _

theorem unmapTail_ends (h : HeapT) (newEnd size : ℕ) (s : State σ) :
    Ends (fun _ t => t.mem = s.mem ∧ t.heap = s.heap) (fun _ => True) (unmapTail P h newEnd size s) := by
  refine Ends.bind ((call_ends _ s).mono (fun _ _ h => h) fun _ _ => trivial) ?_
  rintro - t₁ ⟨hm₁, hh₁, -, -⟩
  refine Ends.bind ((callUnit_ends _ t₁).mono (fun _ _ h => h) fun _ _ => trivial) ?_
  rintro - t₂ ⟨hm₂, hh₂, -⟩
  refine Ends.bind ((call_ends _ t₂).mono (fun _ _ h => h) fun _ _ => trivial) ?_
  rintro phys t₃ ⟨hm₃, hh₃, -, -⟩
  have hmem : t₃.mem = s.mem := hm₃.trans (hm₂.trans hm₁)
  have hheap : t₃.heap = s.heap := hh₃.trans (hh₂.trans hh₁)
  split_ifs
  · refine (callUnit_ends _ t₃).mono ?_ fun _ _ => trivial
    rintro - t₄ ⟨hm₄, hh₄, -⟩
    exact ⟨hm₄.trans hmem, hh₄.trans hheap⟩
  · exact ⟨hmem, hheap⟩

theorem contract_ends {n : ℕ} (hg : PagedHeap s.heap) (hn : n < 4294967296) :
    Ends (fun n' t => t.mem = s.mem ∧ t.heap = s.heap.withEnd (s.heap.startAddr + n') ∧
        n < s.heap.endAddr - s.heap.startAddr ∧ n' = contractedSize n ∧
        n' = max 1048576 ((n + 4095) / 4096 * 4096))
      (fun _ => True) (contract P n s) := by
  obtain ⟨hstart, hend, hmin, hlt⟩ := hg
  unfold pageSize at hstart hend
  unfold heapMinSize at hmin
  have hold : sub32 s.heap.endAddr s.heap.startAddr = s.heap.endAddr - s.heap.startAddr :=
    sub32_eq (by omega) (by omega)
  rw [contract, bind_of_ok (getHeap_run s), hold]
  refine Ends.bind ((assert_ends _ _ s).mono (fun _ _ h => h) fun _ _ => trivial) ?_
  rintro - t ⟨rfl, hlt⟩
  simp only [decide_eq_true_eq] at hlt
  have hsize : contractedSize n = max 1048576 ((n + 4095) / 4096 * 4096) := by
    have hround : roundToPage n = (n + 4095) / 4096 * 4096 := by
      rw [roundToPage_eq hn]
      omega
    unfold contractedSize heapMinSize
    rw [hround]
    split_ifs <;> omega
  have hnew : add32 t.heap.startAddr (contractedSize n) = t.heap.startAddr + contractedSize n := by
    exact add32_eq (by omega)
  rw [modify_bind_run, hnew]
  refine (unmapTail_ends _ _ _ _).bind ?_
  rintro - t' ⟨hm, hh⟩
  exact ⟨hm, hh, hlt, rfl, hsize⟩

/-- A loose block goes to the list. -/
theorem relistBlock_spec (ha : Laid s.heap s.mem free used) (hx : Loose s.heap free used x) :
    ∃ l r m, free = l ++ r ∧ relistBlock x.addr x.size s = .ok () (s.setMem m) ∧
      Laid s.heap m (l ++ x :: r) used ∧
      SameOff (s.heap.head :: nodes (x :: free)) (write32 s.mem (x.addr + 4) (x.size + 1)) m := by
  have hhead := headIs_write32 ha.spans hx.fits (f := 1) (by omega) s.mem
  obtain ⟨l, r, m, hfree, -, hins, harr', hsame⟩ := ha.list_spec hx (x.size + 1) hhead (.refl _ _)
  have hpos : x.addr ≠ 0 ∧ x.size ≠ 0 := by
    have := ha.spans.start_ge
    have := hx.fits.start_le
    have := hx.fits.min_le
    omega
  refine ⟨l, r, m, hfree, ?_, harr', hsame⟩
  unfold relistBlock
  rw [if_pos hpos, bind_of_ok (setSizeAndPinuse_ok ha.spans hx.fits), hins]

/-- A block in the middle of the heap goes back to the list. -/
theorem releaseBlock_inside (ha : Laid s.heap s.mem free used) (hx : Loose s.heap free used x)
    (hne : x.top ≠ s.heap.endAddr) :
    ∃ m free', releaseBlock P x.addr x.size s = .ok () (s.setMem m) ∧
      Released s.heap s.mem free x s.heap m free' ∧ Laid s.heap m free' used := by
  have hlt := hx.fits.lt ha.spans
  have hadd : add32 x.addr x.size = x.top := by unfold Chunk.top at *; exact add32_eq (by omega)
  have hmin := hx.fits.min_le
  have hin : inBounds s.heap x.top := by
    have := hx.fits.top_le
    have := hx.fits.addr_aligned
    have := hx.fits.size_aligned
    have := ha.spans.end_mod
    have := hx.fits.start_le
    unfold Chunk.top at *
    exact Or.inl ⟨by omega, by omega⟩
  have hfoot : footBlock x.addr x.size s = .ok (x.addr, x.size) (s.setMem (write32 s.mem x.top x.size)) := by
    rw [footBlock, setFoot, setPrevFoot, hadd, bind_of_ok (setWord_ok hin _)]
    rfl
  have harr₁ : Laid s.heap (write32 s.mem x.top x.size) free used :=
    ha.of_loose hx fun a hal => store_apply_of_not_mem _ _ _ _ _ (by unfold Chunk.top at *; omega)
  obtain ⟨l, r, m, hfree, hrun, harr₂, hsame⟩ :=
    relistBlock_spec (s := s.setMem (write32 s.mem x.top x.size)) harr₁ hx
  refine ⟨m, l ++ x :: r, ?_, .footed hne hfree hsame, harr₂⟩
  rw [releaseBlock, bind_of_ok (getHeap_run s), hadd, if_neg hne, bind_of_ok hfoot]
  exact hrun

/-- The new end of the heap stands at the block or leaves room for a chunk there. -/
theorem shrinkAround_ends (hg : PagedHeap s.heap) (hx : LastBlock s.heap x) :
    Ends (fun left t => t.mem = s.mem ∧ ∃ e, t.heap = s.heap.withEnd e ∧ e = cutEnd s.heap x.addr ∧ e % pageSize = 0 ∧
        s.heap.startAddr + heapMinSize ≤ e ∧ e ≤ s.heap.endAddr ∧
        (e = x.addr ∧ left = (0, 0) ∨ x.addr + 16 ≤ e ∧ left = (x.addr, e - x.addr)))
      (fun _ => True) (shrinkAround P x.addr x.size s) := by
  have hlt := hg.end_lt
  have hmin := hx.min_le
  have hstart := hx.start_le
  have hxa := hx.size_aligned
  have hsa := hg.start_aligned
  have hea := hg.end_aligned
  have hge := hg.min_le
  have htop := hx.top_eq
  unfold Chunk.top at htop
  unfold pageSize at hsa hea
  unfold heapMinSize at hge
  have hold : sub32 s.heap.endAddr s.heap.startAddr = s.heap.endAddr - s.heap.startAddr :=
    sub32_eq (by omega) (by omega)
  have hnew : sub32 x.addr s.heap.startAddr = x.addr - s.heap.startAddr :=
    sub32_eq (by omega) (by omega)
  rw [shrinkAround, bind_of_ok (getHeap_run s), hold, hnew]
  generalize hn : (if (x.addr - s.heap.startAddr) % pageSize ≠ 0 then
    add32 (x.addr - s.heap.startAddr) minChunkSize else x.addr - s.heap.startAddr) = n
  rw [add32_eq (by unfold minChunkSize; omega)] at hn
  have hcut : cutEnd s.heap x.addr = s.heap.startAddr + contractedSize n := by rw [cutEnd, hn]
  have hn' : n = x.addr - s.heap.startAddr ∧ n % 4096 = 0 ∨ n = x.addr - s.heap.startAddr + 16 := by
    unfold pageSize minChunkSize at hn
    split_ifs at hn <;> omega
  refine (contract_ends hg (by omega)).bind ?_
  rintro n' t ⟨hm, hh, hltn, rfl, hmax⟩
  generalize contractedSize n = n' at *
  have hsub : sub32 (s.heap.endAddr - s.heap.startAddr) n' = s.heap.endAddr - s.heap.startAddr - n' :=
    sub32_eq (by omega) (by omega)
  have hpage : (s.heap.startAddr + n') % pageSize = 0 := by unfold pageSize; omega
  have hfloor : s.heap.startAddr + heapMinSize ≤ s.heap.startAddr + n' := by unfold heapMinSize; omega
  have hceil : s.heap.startAddr + n' ≤ s.heap.endAddr := by omega
  rw [hsub]
  split_ifs with hleft
  · have hrest : sub32 x.size (s.heap.endAddr - s.heap.startAddr - n') =
        s.heap.startAddr + n' - x.addr := by
      rw [sub32_eq (by omega) (by omega)]
      omega
    rw [hrest]
    exact ⟨hm, s.heap.startAddr + n', hh, hcut.symm, hpage, hfloor, hceil, Or.inr ⟨by omega, rfl⟩⟩
  · exact ⟨hm, s.heap.startAddr + n', hh, hcut.symm, hpage, hfloor, hceil, Or.inl ⟨by omega, rfl⟩⟩

/-- After the last block the heap is cut, and what is left of the block goes to the list. -/
theorem releaseBlock_end (ha : Arranged s.heap s.mem free used) (hx : Loose s.heap free used x)
    (htop : x.top = s.heap.endAddr) :
    Ends (fun _ t => ∃ free', Released s.heap s.mem free x t.heap t.mem free' ∧
        Arranged t.heap t.mem free' used ∧ t.heap.endAddr = cutEnd s.heap x.addr) (fun _ => True) (releaseBlock P x.addr x.size s) := by
  have hlt := hx.fits.lt ha.spans
  have hadd : add32 x.addr x.size = x.top := by unfold Chunk.top at *; exact add32_eq (by omega)
  have hbelow : ∀ c ∈ free ++ used, c.top ≤ x.addr := by
    intro c hc
    have hap := hx.apart c hc
    have := (ha.fits c hc).top_le
    have := (ha.fits c hc).min_le
    unfold Apart Chunk.top at *
    omega
  rw [releaseBlock, bind_of_ok (getHeap_run s), hadd, if_pos htop]
  refine (shrinkAround_ends ha.geo.paged (hx.fits.lastBlock htop)).bind ?_
  rintro left t ⟨hmem, e, hheap, hcut, hpage, hfloor, hceil, hleft⟩
  have hg : Geometry (s.heap.withEnd e) :=
    ⟨ha.geo.head_le, ha.geo.start_aligned, hpage, hfloor, hceil.trans ha.geo.end_le, ha.geo.max_le⟩
  have harr : Arranged t.heap t.mem free used := by
    rw [hheap, hmem]
    exact ha.withEnd_spec hg fun c hc => (hbelow c hc).trans (by omega)
  have hend : t.heap.endAddr = cutEnd s.heap x.addr := by rw [hheap, ← hcut]; rfl
  rcases hleft with ⟨rfl, rfl⟩ | ⟨hroom, rfl⟩
  · refine ⟨free, ?_, harr, hend⟩
    rw [hheap, hmem]
    exact .gone htop fun _ _ => rfl
  · have hy : Loose t.heap free used ⟨x.addr, e - x.addr⟩ := by
      rw [hheap]
      refine ⟨?_, fun c hc => Or.inr (hbelow c hc)⟩
      have := hx.fits.addr_aligned
      unfold pageSize at hpage
      exact fits_mk hx.fits.addr_aligned (by omega) (by omega) hx.fits.start_le
        (Nat.le_of_eq (Nat.add_sub_of_le (by omega)))
    obtain ⟨l, r, m, hfree, hrun, harr', hsame⟩ := relistBlock_spec harr.toLaid hy
    have hrun' : relistBlock x.addr (e - x.addr) t = .ok () (t.setMem m) := hrun
    simp only [hrun']
    refine ⟨l ++ ⟨x.addr, e - x.addr⟩ :: r, ?_, harr'.arranged harr.geo, hend⟩
    rw [hheap, hmem] at hsame
    rw [setMem_heap, hheap]
    exact .shrunk htop hroom rfl hfree (fun _ _ => rfl) hsame

/-- The backward merge does not write behind the heap. -/
theorem Merged.wildEnd_iff {h : HeapT} {m m' : Mem} {rest : List Chunk} (hm : Merged h m free b m' rest x)
    (ha : Arranged h m' rest used) : WildEnd h m' ↔ WildEnd h m := by
  have hread : read32 m' (h.endAddr + 4) = read32 m (h.endAddr + 4) := by
    cases hm with
    | alone _ => rfl
    | prev _ _ _ _ hsame =>
      apply hsame.read32
      intro u hu
      have := ha.node_le_end hu
      omega
  unfold WildEnd pinAt usedAt sizeAt
  rw [hread]

/-- Only the last block can have been released after a change behind the heap. -/
theorem Released.of_below {h h' : HeapT} {m m₁ m' : Mem} {rest free' : List Chunk}
    (hr : Released h m₁ rest x h' m' free') (htop : x.top = h.endAddr)
    (hm : ∀ a < h.endAddr + 4, m₁ a = m a) : Released h m rest x h' m' free' := by
  cases hr with
  | footed hne => exact absurd htop hne
  | shrunk _ hroom hy hrest hm₂ hsame =>
    exact .shrunk htop hroom hy hrest (fun a hlow => (hm₂ a hlow).trans (hm a hlow)) hsame
  | gone _ hm₂ => exact .gone htop fun a hlow => (hm₂ a hlow).trans (hm a hlow)

/-- `free` of a pointer to memory whose header says that it is in use. -/
theorem free_front (hs : Spans s.heap) (hpl : Placed s.heap b.addr) (hhead : HeadIs s.mem b 1) :
    Heap.free P (b.addr + 8) s = (do
      let merged ← mergePrev b.addr b.size
      let size ← mergeNext merged.1 merged.2
      releaseBlock P merged.1 size : HeapM σ Unit) s := by
  have hlt := hpl.lt hs
  have hstart := hpl.start_le
  have hend := hpl.le_end
  have hinuse : (read32 s.mem (b.addr + 4) % 4 != 1) = true := by
    have := hhead.2
    unfold usedAt at this
    rw [bne_iff_ne]
    omega
  have hsize : chunksize b.addr s = .ok b.size s := by
    rw [chunksize_ok hs hpl, hhead.1]
  rw [Heap.free, if_neg (by omega), bind_of_ok (getHeap_run s), okAddress_of_le (by omega) (by omega), panicUnless,
    if_pos rfl, pure_bind_run, mem2chunk_add (by omega), bind_of_ok (okInuse_ok hs hpl), hinuse, panicUnless,
    if_pos rfl, pure_bind_run, bind_of_ok hsize]

/-- `free` of a block in use. -/
theorem free_ends (ha : Arranged s.heap s.mem free (l ++ b :: r)) (hfoot : FootOk s.mem free b)
    (hend : b.top = s.heap.endAddr → ¬WildEnd s.heap s.mem) :
    Ends (fun _ t => ∃ m rest x free', x.top = b.top ∧ Merged s.heap s.mem free b m rest x ∧
        Released s.heap m rest x t.heap t.mem free' ∧ Arranged t.heap t.mem free' (l ++ r) ∧
        (b.top ≠ s.heap.endAddr → t.outside = s.outside) ∧
        (b.top = s.heap.endAddr → t.heap.endAddr = cutEnd s.heap x.addr))
      (fun _ => b.top = s.heap.endAddr) (Heap.free P (b.addr + 8) s) := by
  obtain ⟨x, rest, m, hmerge, hxtop, hmerged, hlaid, hloose⟩ := mergePrev_spec ha.toLaid hfoot
  have harr := hlaid.arranged ha.geo
  rw [free_front ha.spans (ha.fits b (by simp)).placed (ha.usedHead b (by simp)), bind_of_ok hmerge]
  by_cases hlast : b.top = s.heap.endAddr
  · have htop : x.top = s.heap.endAddr := hxtop.trans hlast
    have hwild : ¬WildEnd s.heap m := by
      rw [hmerged.wildEnd_iff harr]
      exact hend hlast
    refine Ends.bind ((mergeNext_end (s := s.setMem m) ha.spans hloose.fits htop hwild).mono
      (fun _ _ h => h) fun _ _ => hlast) ?_
    rintro n t ⟨rfl, hheap, hbelow⟩
    rw [setMem_heap] at hheap hbelow
    have harr₁ : Arranged t.heap t.mem rest (l ++ r) := by
      rw [hheap]
      exact harr.of_below fun a hlow => hbelow a (by omega)
    have hrel := releaseBlock_end (P := P) harr₁ (hheap ▸ hloose) (hheap ▸ htop)
    refine hrel.mono ?_ fun _ _ => hlast
    rintro - u ⟨free', hreleased, harr₂, hcut⟩
    rw [hheap] at hreleased hcut
    exact ⟨m, rest, x, free', hxtop, hmerged, hreleased.of_below htop hbelow, harr₂,
      fun hne => absurd hlast hne, fun _ => hcut⟩
  · have hne : x.top ≠ s.heap.endAddr := hxtop ▸ hlast
    obtain ⟨m', free', hrel, hreleased, harr'⟩ := releaseBlock_inside (s := s.setMem m) (P := P) hlaid hloose hne
    rw [bind_of_ok (mergeNext_inside (s := s.setMem m) ha.spans hloose.fits hne)]
    simp only [hrel]
    exact ⟨m, rest, x, free', hxtop, hmerged, hreleased, harr'.arranged ha.geo, fun _ => rfl, fun h => absurd h hlast⟩

end Free

end JustKernel.Heap
