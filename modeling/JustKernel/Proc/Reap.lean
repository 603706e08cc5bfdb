import JustKernel.Mm.HeapRuns

/-! Reaping, the two loops at the top of `proc/sched.c` and `thread_free` of
`proc/thread.c`. Both loops take the entry they stand at out of the list with
`list_del_init`, which makes the entry its own successor, and then go on to the
successor of that entry. A terminated thread is freed on top of that, twice if its memory
still says terminated. So neither loop gets past the first entry that it removes, and the
scheduler's calls of both are commented out. Threads and processes are records in the
kernel heap, and `kfree` is the heap's own `free`; the heap of a process lives in another
address space, so that freeing a user stack there is a parameter. -/

namespace JustKernel.Reap

open Memory Halting Links Heap

/-! ### Records -/

/-- `THREAD_TERMINATED`. -/
def threadTerminated : ℕ := 3

/-- `thread->state`. -/
def threadState (m : Mem) (thread : ℕ) : ℕ := read32 m (add32 thread 4)

/-- `thread->parent`. -/
def parentOf (m : Mem) (thread : ℕ) : ℕ := read32 m (add32 thread 16)

/-- `&thread->pt_list`. -/
def procThreadList (thread : ℕ) : ℕ := add32 thread 56

/-- `THREAD_LIST(thread)`. -/
def threadList (thread : ℕ) : ℕ := add32 thread 64

def entryThread (iter : ℕ) : ℕ := sub32 iter 64

/-- `PROC_LIST(proc)`. -/
def procList (proc : ℕ) : ℕ := add32 proc 80

def entryProcess (iter : ℕ) : ℕ := sub32 iter 80

/-- `PROC_THREAD_HEAD(proc)`. -/
def procThreadHead (proc : ℕ) : ℕ := add32 proc 88

def procHaveThread (m : Mem) (proc : ℕ) : Bool :=
  !(nextOf m (procThreadHead proc) = procThreadHead proc || nextOf m (procThreadHead proc) = 0)

/-! ### The functions -/

section Model

variable {σ : Type} (P : Paging σ) (heapFree : (cr3 heap addr : ℕ) → HeapM σ Unit)

/-- A field of a record, read where the record stands. -/
def field (record off : ℕ) : HeapM σ ℕ := do
  let s ← get
  return read32 s.mem (add32 record off)

def setField (record off v : ℕ) : HeapM σ Unit :=
  modify fun s => s.setMem (write32 s.mem (add32 record off) v)

def threadFree (thread : ℕ) : HeapM σ Unit :=
  if thread = 0 then pure ()
  else do
    if (← field thread 20) ≠ 0 then do
      setField thread 20 (sub32 (← field thread 20) pageSize)
      let parent ← field thread 16
      heapFree (← field parent 64) (← field parent 72) (← field thread 20)
    else pure ()
    free P (sub32 (← field thread 24) pageSize)
    free P thread

/-- The machine, and the threads given to `thread_free`, the last one first. -/
structure Reaper (σ : Type) where
  machine : Heap.State σ
  freed : List ℕ

def Reaper.mem (r : Reaper σ) : Mem := r.machine.mem

/-- The body of `remove_terminated_threads`. -/
def reapThread (iter : ℕ) (r : Reaper σ) : Option (Reaper σ) :=
  let thread := entryThread iter
  if thread = 0 then none
  else if threadState r.mem thread = threadTerminated then
    match threadFree P heapFree thread (r.machine.setMem (unlinkInit r.mem (threadList thread))) with
    | .error _ _ => none
    | .ok _ s => some ⟨s, thread :: r.freed⟩
  else some r

/-- `remove_terminated_threads` for the list at `head`, with fuel for the loop. -/
def removeTerminatedThreads (head n : ℕ) (r : Reaper σ) : Option (Reaper σ) :=
  forEach (fun r => nextOf r.mem) head (reapThread P heapFree) n (nextOf r.mem head) r

/-- The body of `remove_terminated_processes`. -/
def reapProcess (iter : ℕ) (r : Reaper σ) : Option (Reaper σ) :=
  let proc := entryProcess iter
  if proc = 0 then none
  else if procHaveThread r.mem proc then some r
  else some { r with machine := r.machine.setMem (unlinkInit r.mem (procList proc)) }

def removeTerminatedProcesses (head n : ℕ) (r : Reaper σ) : Option (Reaper σ) :=
  forEach (fun r => nextOf r.mem) head reapProcess n (nextOf r.mem head) r

end Model

/-! ### What the loops are for -/

section Lists

/-- The records are linked into the ring of `head` through the nodes at `node`, in this
order, and none of them is null or wraps around the end of memory. -/
structure Listed (m : Mem) (node : ℕ → ℕ) (size head : ℕ) (records : List ℕ) : Prop where
  ring : Ring (nextOf m) (prevOf m) head (records.map node)
  pos : ∀ x ∈ records, 0 < x
  fits : ∀ x ∈ records, x + size ≤ 4294967296

/-- `thread_list`. -/
abbrev Threads (m : Mem) (head : ℕ) (threads : List ℕ) : Prop := Listed m threadList 72 head threads

/-- `proc_list`. -/
abbrev Processes (m : Mem) (head : ℕ) (procs : List ℕ) : Prop := Listed m procList 96 head procs

variable {σ : Type}

/-- After `remove_terminated_threads`, started in memory `m`. -/
structure ReapedThreads (m : Mem) (head : ℕ) (threads : List ℕ) (r : Reaper σ) : Prop where
  list : Ring (nextOf r.mem) (prevOf r.mem) head
    ((threads.filter fun t => threadState m t ≠ threadTerminated).map threadList)
  once : ∀ t ∈ threads, threadState m t = threadTerminated → r.freed.count t = 1
  unlinked : ∀ t ∈ threads, threadState m t = threadTerminated →
    ¬Met (nextOf r.mem) (procThreadHead (parentOf m t)) (procThreadList t)

/-- After `remove_terminated_processes`, started in memory `m`. -/
def ReapedProcesses (m : Mem) (head : ℕ) (procs : List ℕ) (r : Reaper σ) : Prop :=
  Ring (nextOf r.mem) (prevOf r.mem) head ((procs.filter fun p => procHaveThread m p).map procList)

/-- Both loops end and do their work, one after the other. -/
def Reaps (P : Paging σ) (heapFree : (cr3 heap addr : ℕ) → HeapM σ Unit) (threadHead procHead : ℕ)
    (threads procs : List ℕ) (s : Heap.State σ) : Prop :=
  ∃ n r, removeTerminatedThreads P heapFree threadHead n ⟨s, []⟩ = some r ∧
    ReapedThreads s.mem threadHead threads r ∧
    ∃ k r', removeTerminatedProcesses procHead k r = some r' ∧ ReapedProcesses r.mem procHead procs r'

/-- There is nothing to do. -/
structure NothingToReap (m : Mem) (threads procs : List ℕ) : Prop where
  threads : ∀ t ∈ threads, threadState m t ≠ threadTerminated
  procs : ∀ p ∈ procs, procHaveThread m p = true

end Lists

section Loops

variable {σ : Type} {P : Paging σ} {heapFree : (cr3 heap addr : ℕ) → HeapM σ Unit} {r r' : Reaper σ} {m : Mem}
  {head t p : ℕ} {threads procs : List ℕ}

theorem entryThread_threadList (h : 0 < t) (hfits : t + 72 ≤ 4294967296) :
    threadList t = t + 64 ∧ entryThread (threadList t) = t := by
  unfold entryThread threadList sub32 add32
  omega

theorem entryProcess_procList (h : 0 < p) (hfits : p + 96 ≤ 4294967296) :
    procList p = p + 80 ∧ entryProcess (procList p) = p := by
  unfold entryProcess procList sub32 add32
  omega

/-- The nodes of a list are not the head. -/
theorem Listed.node_ne_head {node : ℕ → ℕ} {size x : ℕ} {l r : List ℕ} (h : Listed m node size head (l ++ x :: r)) :
    node x ≠ head := by
  intro heq
  have hnodup := h.ring.nodup
  rw [List.nodup_cons, List.map_append] at hnodup
  exact hnodup.1 (heq ▸ by simp)

theorem reapThread_alive (hpos : 0 < t) (hfits : t + 72 ≤ 4294967296) (h : threadState r.mem t ≠ threadTerminated) :
    reapThread P heapFree (threadList t) r = some r := by
  rw [reapThread, (entryThread_threadList hpos hfits).2]
  rw [if_neg (by omega), if_neg h]

theorem reapProcess_kept (hpos : 0 < p) (hfits : p + 96 ≤ 4294967296) (h : procHaveThread r.mem p = true) :
    reapProcess (procList p) r = some r := by
  rw [reapProcess, (entryProcess_procList hpos hfits).2]
  rw [if_neg (by omega), if_pos h]

/-- A loop that meets no terminated thread ends, and nothing has changed. -/
theorem Listed.threads_same (P : Paging σ) (heapFree : (cr3 heap addr : ℕ) → HeapM σ Unit) {s : Heap.State σ}
    (hthreads : Threads s.mem head threads)
    (hnone : ∀ t ∈ threads, threadState s.mem t ≠ threadTerminated) :
    ∃ n, removeTerminatedThreads P heapFree head n ⟨s, []⟩ = some ⟨s, []⟩ :=
  Ring.forEach_same (f := fun r : Reaper σ => nextOf r.mem) (s := ⟨s, []⟩) (g := reapThread P heapFree)
    hthreads.ring fun x hx => by
      obtain ⟨t, ht, rfl⟩ := List.mem_map.mp hx
      exact reapThread_alive (hthreads.pos t ht) (hthreads.fits t ht) (hnone t ht)

/-- With nothing to do both loops end, and nothing has changed. -/
theorem NothingToReap.reaps {threadHead procHead : ℕ} {s : Heap.State σ} (h : NothingToReap s.mem threads procs)
    (hthreads : Threads s.mem threadHead threads) (hprocs : Processes s.mem procHead procs) :
    Reaps P heapFree threadHead procHead threads procs s := by
  obtain ⟨n, hn⟩ := hthreads.threads_same P heapFree h.threads
  obtain ⟨k, hk⟩ := Ring.forEach_same (f := fun r : Reaper σ => nextOf r.mem) (s := ⟨s, []⟩)
    (g := reapProcess) hprocs.ring fun x hx => by
      obtain ⟨p, hp, rfl⟩ := List.mem_map.mp hx
      exact reapProcess_kept (hprocs.pos p hp) (hprocs.fits p hp) (h.procs p hp)
  refine ⟨n, _, hn, ⟨?_, fun t ht hterm => absurd hterm (h.threads t ht), fun t ht hterm => absurd hterm (h.threads t ht)⟩,
    k, _, hk, ?_⟩
  · rw [List.filter_eq_self.mpr fun t ht => decide_eq_true (h.threads t ht)]
    exact hthreads.ring
  · have hall : procs.filter (fun p => procHaveThread s.mem p) = procs := List.filter_eq_self.mpr h.procs
    show Ring (nextOf s.mem) (prevOf s.mem) procHead ((procs.filter fun p => procHaveThread s.mem p).map procList)
    rw [hall]
    exact hprocs.ring

/-! ### Where the loops stay -/

/-- What a body of the first loop does: nothing, or one thread is freed. -/
theorem reapThread_cases {iter : ℕ} (h : reapThread P heapFree iter r = some r') :
    (threadState r.mem (entryThread iter) ≠ threadTerminated ∧ r' = r) ∨
    (threadState r.mem (entryThread iter) = threadTerminated ∧ r'.freed = entryThread iter :: r.freed ∧
      threadFree P heapFree (entryThread iter)
        (r.machine.setMem (unlinkInit r.mem (threadList (entryThread iter)))) = .ok () r'.machine) := by
  rw [reapThread] at h
  split_ifs at h with hnull hterm
  · right
    split at h
    · cases h
    · rename_i s hs
      cases h
      exact ⟨hterm, rfl, hs⟩
  · exact Or.inl ⟨hterm, (Option.some.inj h).symm⟩

/-- A thread that has been freed stays freed. -/
theorem forEach_count_le {n iter : ℕ}
    (h : forEach (fun r : Reaper σ => nextOf r.mem) head (reapThread P heapFree) n iter r = some r') (t : ℕ) :
    r.freed.count t ≤ r'.freed.count t := by
  induction n generalizing iter r with
  | zero => cases h
  | succ n ih =>
    rw [forEach] at h
    split_ifs at h with hiter
    · cases h
      exact le_rfl
    · obtain ⟨u, hu, hrest⟩ := Option.bind_eq_some_iff.mp h
      refine le_trans ?_ (ih hrest)
      rcases reapThread_cases hu with ⟨-, rfl⟩ | ⟨-, hfreed, -⟩
      · exact le_rfl
      · rw [hfreed]
        exact List.count_le_count_cons

/-- At a thread that is its own successor the loop ends only after it has freed it once more. -/
theorem forEach_frees_again {n iter : ℕ} (hne : iter ≠ head) (hself : nextOf r.mem iter = iter)
    (h : forEach (fun r : Reaper σ => nextOf r.mem) head (reapThread P heapFree) n iter r = some r') :
    r.freed.count (entryThread iter) < r'.freed.count (entryThread iter) := by
  induction n generalizing r with
  | zero => cases h
  | succ n ih =>
    rw [forEach, if_neg hne] at h
    obtain ⟨u, hu, hrest⟩ := Option.bind_eq_some_iff.mp h
    rcases reapThread_cases hu with ⟨-, rfl⟩ | ⟨-, hfreed, -⟩
    · rw [hself] at hrest
      exact ih hself hrest
    · have hle := forEach_count_le hrest (entryThread iter)
      rw [hfreed, List.count_cons_self] at hle
      omega

/-- The first record of a list for which a test fails. -/
theorem exists_first {Q : ℕ → Prop} {l : List ℕ} (h : ¬∀ x ∈ l, Q x) :
    ∃ l₁ x l₂, l = l₁ ++ x :: l₂ ∧ (∀ y ∈ l₁, Q y) ∧ ¬Q x := by
  induction l with
  | nil => exact absurd (fun x hx => absurd hx List.not_mem_nil) h
  | cons a l ih =>
    by_cases ha : Q a
    · obtain ⟨l₁, x, l₂, rfl, hl₁, hx⟩ := ih fun hall => h (List.forall_mem_cons.mpr ⟨ha, hall⟩)
      exact ⟨a :: l₁, x, l₂, rfl, List.forall_mem_cons.mpr ⟨ha, hl₁⟩, hx⟩
    · exact ⟨[], a, l, rfl, fun y hy => absurd hy List.not_mem_nil, ha⟩

/-- The heap leaves the link of a thread alone when it frees its memory for the first time:
it writes the first eight bytes of a block, and words of other blocks. -/
def KeepsLink (P : Paging σ) (heapFree : (cr3 heap addr : ℕ) → HeapM σ Unit) (s : Heap.State σ) (t : ℕ) : Prop :=
  ∀ s', threadFree P heapFree t (s.setMem (unlinkInit s.mem (threadList t))) = .ok () s' →
    nextOf s'.mem (threadList t) = nextOf (unlinkInit s.mem (threadList t)) (threadList t)

/-- A loop over the threads that ends and frees each terminated one once has met none. -/
theorem Listed.no_terminated {s : Heap.State σ} (hthreads : Threads s.mem head threads)
    (hkeeps : ∀ t ∈ threads, threadState s.mem t = threadTerminated → KeepsLink P heapFree s t) {n : ℕ}
    (hrun : removeTerminatedThreads P heapFree head n ⟨s, []⟩ = some r)
    (honce : ∀ t ∈ threads, threadState s.mem t = threadTerminated → r.freed.count t = 1) :
    ∀ t ∈ threads, threadState s.mem t ≠ threadTerminated := by
  by_contra hsome
  obtain ⟨l₁, t, l₂, rfl, halive, hterm⟩ := exists_first hsome
  rw [ne_eq, not_not] at hterm
  have hmem : t ∈ l₁ ++ t :: l₂ := by simp
  have hpos := hthreads.pos t hmem
  have hfits := hthreads.fits t hmem
  obtain ⟨hnode, hentry⟩ := entryThread_threadList hpos hfits
  have hring := hthreads.ring
  rw [List.map_append, List.map_cons] at hring
  obtain ⟨k, hk⟩ := Ring.forEach_reach (f := fun r : Reaper σ => nextOf r.mem) (s := ⟨s, []⟩)
    (g := reapThread P heapFree) hring (fun x hx => by
      obtain ⟨y, hy, rfl⟩ := List.mem_map.mp hx
      have hy' : y ∈ l₁ ++ t :: l₂ := List.mem_append_left _ hy
      exact reapThread_alive (hthreads.pos y hy') (hthreads.fits y hy') (halive y hy)) hrun
  -- the loop stands at the thread, frees it and stands there again
  cases k with
  | zero => cases hk
  | succ k =>
    rw [forEach, if_neg hthreads.node_ne_head] at hk
    obtain ⟨u, hu, hrest⟩ := Option.bind_eq_some_iff.mp hk
    rcases reapThread_cases hu with ⟨hne, -⟩ | ⟨-, hfreed, hfree⟩
    · rw [hentry] at hne
      exact hne hterm
    · rw [hentry] at hfreed hfree
      have hself : nextOf u.mem (threadList t) = threadList t :=
        (hkeeps t hmem hterm _ hfree).trans (nextOf_unlinkInit _ (by omega))
      rw [hself] at hrest
      have hlt := forEach_frees_again hthreads.node_ne_head hself hrest
      rw [hentry, hfreed, honce t hmem hterm, List.count_cons_self] at hlt
      omega

/-- A loop over the processes that ends has met none without a thread. -/
theorem Listed.no_empty (hprocs : Processes r.mem head procs) {n : ℕ}
    (hrun : removeTerminatedProcesses head n r = some r') : ∀ p ∈ procs, procHaveThread r.mem p = true := by
  by_contra hsome
  obtain ⟨l₁, p, l₂, rfl, hkept, hempty⟩ := exists_first hsome
  have hmem : p ∈ l₁ ++ p :: l₂ := by simp
  have hpos := hprocs.pos p hmem
  have hfits := hprocs.fits p hmem
  obtain ⟨hnode, hentry⟩ := entryProcess_procList hpos hfits
  have hring := hprocs.ring
  rw [List.map_append, List.map_cons] at hring
  obtain ⟨k, hk⟩ := Ring.forEach_reach (f := fun r : Reaper σ => nextOf r.mem) (g := reapProcess) hring
    (fun x hx => by
      obtain ⟨y, hy, rfl⟩ := List.mem_map.mp hx
      have hy' : y ∈ l₁ ++ p :: l₂ := List.mem_append_left _ hy
      exact reapProcess_kept (hprocs.pos y hy') (hprocs.fits y hy') (hkept y hy)) hrun
  -- the process is without a thread, or it is its own successor already
  have hstuck : forEach (fun r : Reaper σ => nextOf r.mem) head reapProcess k (procList p) r = none := by
    refine forEach_stuck (fun u : Reaper σ => procHaveThread u.mem p = false ∨ nextOf u.mem (procList p) = procList p)
      hprocs.node_ne_head (fun u v hu hbody => ?_) (Or.inl (Bool.eq_false_iff.mpr hempty)) k
    rw [reapProcess, hentry] at hbody
    split_ifs at hbody with hnull hhave
    · cases hbody
      have hself := hu.resolve_left (by rw [hhave]; decide)
      exact ⟨Or.inr hself, hself⟩
    · cases hbody
      have hself := nextOf_unlinkInit u.mem (n := procList p) (by omega)
      exact ⟨Or.inr hself, hself⟩
  rw [hstuck] at hk
  cases hk

/-- Both loops do their work exactly when there is none: with nothing to reap they end and
leave the lists as they are, and from lists with something to reap they do not end, or free a
thread twice. -/
theorem reaps_iff_nothing {threadHead procHead : ℕ} {s : Heap.State σ} (hthreads : Threads s.mem threadHead threads)
    (hprocs : Processes s.mem procHead procs) :
    (NothingToReap s.mem threads procs → Reaps P heapFree threadHead procHead threads procs s) ∧
    ((∀ t ∈ threads, threadState s.mem t = threadTerminated → KeepsLink P heapFree s t) →
      Reaps P heapFree threadHead procHead threads procs s → NothingToReap s.mem threads procs) := by
  refine ⟨fun h => h.reaps hthreads hprocs, ?_⟩
  rintro hkeeps ⟨n, r, hrun, hreaped, k, r', hrun', -⟩
  have hnone := hthreads.no_terminated hkeeps hrun hreaped.once
  -- the first loop has changed nothing
  obtain ⟨n', hn'⟩ := hthreads.threads_same P heapFree hnone
  have hsame : r = ⟨s, []⟩ := by
    have h1 := forEach_mono hrun n'
    have h2 := forEach_mono hn' n
    rw [Nat.add_comm] at h2
    exact Option.some.inj (h1.symm.trans h2)
  subst hsame
  exact ⟨hnone, Listed.no_empty (r := ⟨s, []⟩) hprocs hrun'⟩

end Loops

/-! ### One thread of one process -/

theorem ring_singleton {nxt prv : ℕ → ℕ} {h x : ℕ} (hne : x ≠ h) (h1 : nxt h = x) (h2 : prv x = h) (h3 : nxt x = h)
    (h4 : prv h = x) : Ring nxt prv h [x] := by
  refine ⟨by simp [hne.symm], ?_⟩
  simp [Follows, h1, h2, h3, h4]

/-- The kernel heap with a thread, its kernel stack and its process. -/
def threadHeap : Heap.State Unit :=
  finalState (alloc readyPaging 96 (finalState (palignedAlloc readyPaging 4096 (finalState
    (alloc readyPaging 72 newHeap)))))

/-- The thread at `0x1000008` with its kernel stack at `0x1001000` and the process at
`0x1002008`, in lists with their heads at `0x300000` and `0x300008`. -/
def oneThread (state : ℕ) : Heap.State Unit :=
  threadHeap.setMem ([(0x100000C, state), (0x1000018, 0x1002008), (0x1000020, 0x1002000),
    (0x300000, 0x1000048), (0x300004, 0x1000048), (0x1000048, 0x300000), (0x100004C, 0x300000),
    (0x300008, 0x1002058), (0x30000C, 0x1002058), (0x1002058, 0x300008), (0x100205C, 0x300008),
    (0x1002060, 0x1000040), (0x1002064, 0x1000040), (0x1000040, 0x1002060), (0x1000044, 0x1002060)].foldl
    (fun m w => write32 m w.1 w.2) threadHeap.mem)

theorem oneThread_threads {state : ℕ} (hstate : state = 1 ∨ state = 3) :
    Threads (oneThread state).mem 0x300000 [0x1000008] := by
  refine ⟨?_, by decide, by decide⟩
  rcases hstate with rfl | rfl
  · exact ring_singleton (by decide) (by decide +kernel) (by decide +kernel) (by decide +kernel) (by decide +kernel)
  · exact ring_singleton (by decide) (by decide +kernel) (by decide +kernel) (by decide +kernel) (by decide +kernel)

theorem oneThread_processes {state : ℕ} (hstate : state = 1 ∨ state = 3) :
    Processes (oneThread state).mem 0x300008 [0x1002008] := by
  refine ⟨?_, by decide, by decide⟩
  rcases hstate with rfl | rfl
  · exact ring_singleton (by decide) (by decide +kernel) (by decide +kernel) (by decide +kernel) (by decide +kernel)
  · exact ring_singleton (by decide) (by decide +kernel) (by decide +kernel) (by decide +kernel) (by decide +kernel)

/-- The thread is running. -/
theorem reaps_running_thread :
    Reaps readyPaging (fun _ _ _ => pure ()) 0x300000 0x300008 [0x1000008] [0x1002008] (oneThread 1) := by
  have hthreads := oneThread_threads (Or.inl rfl)
  have hprocs := oneThread_processes (Or.inl rfl)
  have halive : ∀ t ∈ [0x1000008], threadState (oneThread 1).mem t ≠ threadTerminated := by decide +kernel
  have hkept : ∀ p ∈ [0x1002008], procHaveThread (oneThread 1).mem p = true := by decide +kernel
  generalize oneThread 1 = s at *
  exact (reaps_iff_nothing hthreads hprocs).1 ⟨halive, hkept⟩

/-- The thread has terminated: the loop frees it and stays there. -/
theorem terminated_thread_not_reaped : ¬∀ (s : Heap.State Unit) (threads procs : List ℕ),
    Threads s.mem 0x300000 threads → Processes s.mem 0x300008 procs →
    Reaps readyPaging (fun _ _ _ => pure ()) 0x300000 0x300008 threads procs s := by
  intro hall
  obtain ⟨n, r, hrun, hreaped, -⟩ := hall (oneThread 3) _ _ (oneThread_threads (Or.inr rfl))
    (oneThread_processes (Or.inr rfl))
  have hterm : threadState (oneThread 3).mem 0x1000008 = threadTerminated := by decide +kernel
  have hfinal : nextOf (finalState (threadFree readyPaging (fun _ _ _ => pure ()) 0x1000008
      ((oneThread 3).setMem (unlinkInit (oneThread 3).mem (threadList 0x1000008))))).mem (threadList 0x1000008) =
      nextOf (unlinkInit (oneThread 3).mem (threadList 0x1000008)) (threadList 0x1000008) := by decide +kernel
  have hthreads := oneThread_threads (Or.inr rfl)
  -- the state is kept folded from here on
  generalize oneThread 3 = s at *
  refine hthreads.no_terminated (fun t ht _ s' hs' => ?_) hrun hreaped.once 0x1000008 List.mem_cons_self hterm
  obtain rfl := List.mem_singleton.mp ht
  rw [hs'] at hfinal
  exact hfinal

end JustKernel.Reap
