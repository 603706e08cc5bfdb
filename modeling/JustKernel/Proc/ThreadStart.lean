import JustKernel.Proc.SchedMachine
import JustKernel.Proc.Thread

/-! The first run of a thread. `thread_create` makes the frame from which a thread starts on its
own kernel stack, and nothing that runs before the thread does touches it; so the interrupt
that gives the thread its first core ends at the entry point. -/

namespace JustKernel.Sched

open JustKernel.Thread Memory Isr Runs

variable {C : Type} [DecidableEq C]

/-- The stacks of threads that are numbered in the order of their creation. -/
def createdStacks (ks : List Creation) : Stacks where
  threads := List.range ks.length
  top t := (ks[t]?.map fun k => k.kernelStack.toNat).getD 0

/-- A system in which `thread_create` has made all threads and none has run. -/
structure AllCreated (ks : List Creation) (m₀ : Mem) (m : Switching C) : Prop where
  free : ∀ i, (m.core i).currentThread = none
  list : m.traced.sys.threadList = List.range ks.length
  threads : ∀ t k, ks[t]? = some k → m.traced.sys.threads t = (threadCreate k m₀).1
  last : ∀ t, (m.traced.sys.threads t).regs = m.traced.last t
  mem : m.mem = createAll ks m₀
  goesOn : ∀ t k, ks[t]? = some k → Created m.mem k (m.goesOn t)

variable {ks : List Creation} {m₀ : Mem} {m : Switching C}

theorem createdStacks_top {t : ThreadId} {k : Creation} (ht : ks[t]? = some k) :
    (createdStacks ks).top t = k.kernelStack.toNat := by
  simp [createdStacks, ht]

theorem mem_createdStacks {t : ThreadId} (ht : t ∈ (createdStacks ks).threads) : ∃ k ∈ ks, ks[t]? = some k := by
  have hlt : t < ks.length := List.mem_range.mp ht
  exact ⟨ks[t], List.getElem_mem hlt, List.getElem?_eq_getElem hlt⟩

theorem createdStacks_apart (hpage : ∀ k ∈ ks, k.kernelPage.toNat + 8192 ≤ 4294967296)
    (hapart : ks.Pairwise PagesApart) : (createdStacks ks).Apart := by
  refine ⟨fun t ht => ?_, fun t ht => ?_, fun t ht u hu htu x hx hx' => ?_⟩
  · obtain ⟨k, hmem, hk⟩ := mem_createdStacks ht
    have := (toNat_regs (hpage k hmem)).1
    rw [createdStacks_top hk]
    omega
  · obtain ⟨k, hmem, hk⟩ := mem_createdStacks ht
    have := (toNat_regs (hpage k hmem)).1
    have := hpage k hmem
    rw [createdStacks_top hk]
    omega
  · obtain ⟨k, hmem, hk⟩ := mem_createdStacks ht
    obtain ⟨k', hmem', hk'⟩ := mem_createdStacks hu
    have hstack := (toNat_regs (hpage k hmem)).1
    have hstack' := (toNat_regs (hpage k' hmem')).1
    rw [Stacks.Holds, createdStacks_top hk] at hx
    rw [Stacks.Holds, createdStacks_top hk'] at hx'
    have hpages : PagesApart k k' ∨ PagesApart k' k := by
      obtain ⟨hlt, rfl⟩ := List.getElem?_eq_some_iff.mp hk
      obtain ⟨hlt', rfl⟩ := List.getElem?_eq_some_iff.mp hk'
      rcases Nat.lt_or_gt_of_ne htu with h | h
      · exact Or.inl (List.pairwise_iff_getElem.mp hapart t u hlt hlt' h)
      · exact Or.inr (List.pairwise_iff_getElem.mp hapart u t hlt' hlt h)
    unfold PagesApart at hpages
    omega

omit [DecidableEq C] in
theorem AllCreated.start (h : AllCreated ks m₀ m) (hpage : ∀ k ∈ ks, k.kernelPage.toNat + 8192 ≤ 4294967296) :
    m.Start (createdStacks ks) := by
  refine ⟨h.free, h.list, fun t ht => ?_, h.last, fun t ht => ?_⟩
  · obtain ⟨k, hmem, hk⟩ := mem_createdStacks ht
    rw [h.threads t k hk, createdStacks_top hk]
    rfl
  · obtain ⟨k, hmem, hk⟩ := mem_createdStacks ht
    have hcreated := h.goesOn t k hk
    have hstack := (toNat_regs (hpage k hmem)).1
    have hlast : m.traced.last t = k.regs.toNat := by
      rw [← h.last, h.threads t k hk]
      rfl
    refine ⟨?_, ?_, ?_⟩
    · rw [hlast]
      exact hcreated.framed
    · have := hcreated.low
      rw [hlast, createdStacks_top hk]
      omega
    · rw [hlast, createdStacks_top hk]
      exact hcreated.high

omit [DecidableEq C] in
/-- There are such systems. -/
theorem exists_allCreated (s : System C) (cpus : C → Cpu) (m₀ : Mem)
    (hpage : ∀ k ∈ ks, k.kernelPage.toNat + 8192 ≤ 4294967296) (hapart : ks.Pairwise PagesApart)
    (hfree : ∀ i, (s.cores i).currentThread = none) (hlist : s.threadList = List.range ks.length)
    (hthreads : ∀ t k, ks[t]? = some k → s.threads t = (threadCreate k m₀).1) :
    ∃ goesOn, AllCreated ks m₀ ⟨⟨s, fun t => (s.threads t).regs⟩, cpus, createAll ks m₀, goesOn⟩ := by
  have hframe : ∀ t : ThreadId, ∃ c, ∀ k, ks[t]? = some k → Created (createAll ks m₀) k c := by
    intro t
    cases hk : ks[t]? with
    | none => exact ⟨idling 0, fun k h => by cases h⟩
    | some k =>
      obtain ⟨c, hc⟩ := createAll_created m₀ hpage hapart k (List.mem_of_getElem? hk)
      exact ⟨c, fun k' h => Option.some.inj h ▸ hc⟩
  choose goesOn hgoes using hframe
  exact ⟨goesOn, hfree, hlist, hthreads, fun _ => rfl, rfl, hgoes⟩

theorem starts_resumed {k : Creation} {c : Cpu} (h : Starts k c) (u : Cpu) : Starts k (resumed c u) := by
  have hv : c.v86Mode = false := by
    rw [Cpu.v86Mode, h.eflags]
    decide
  unfold resumed
  rw [if_neg (by simp [hv])]
  cases ho : c.outside with
  | false =>
    have hr : k.ring3 = false := h.outside ▸ ho
    exact ⟨h.eip, h.eflags, h.cr3, h.cs, h.ds, h.esp, fun hring => absurd hring (by simp [hr]), h.outside⟩
  | true =>
    have hr : k.ring3 = true := h.outside ▸ ho
    have hds : outward c.ds = c.ds := by
      have hwide := h.ds
      rw [Creation.ds, hr, if_pos rfl] at hwide
      have hc : c.ds = 0x23 := by
        rw [← wide_setWidth c.ds, hwide]
        decide
      rw [hc]
      decide
    refine ⟨h.eip, h.eflags, h.cr3, h.cs, ?_, h.esp, fun hring => ?_, h.outside⟩
    · exact hds.symm ▸ h.ds
    · exact hds.symm ▸ h.ss hring

/-- In every run of threads that `thread_create` has made: an interrupt that ends with a thread that
was not interrupted yet ends at its entry point, in its ring and address space, with interrupts
on and an empty stack. -/
theorem first_run_at_entry (hpage : ∀ k ∈ ks, k.kernelPage.toNat + 8192 ≤ 4294967296)
    (hapart : ks.Pairwise PagesApart) {m m' : Switching C} (hcreated : AllCreated ks m₀ m)
    (hrun : Reaches (SwitchStep (createdStacks ks)) m m') (i : C) (t : ThreadId) (k : Creation)
    (hk : ks[t]? = some k) (hirq : (m'.core i).inIrq = true) (hcur : (m'.core i).currentThread = some t)
    (hfirst : m'.goesOn t = m.goesOn t) : Starts k (m'.exit i).cpu := by
  have hstart := hcreated.start hpage
  obtain ⟨hexit, -⟩ :=
    (resumes_where_interrupted (createdStacks_apart hpage hapart) hstart hrun).1 i t hirq hcur
  rw [hexit, hfirst]
  exact starts_resumed (hcreated.goesOn t k hk).starts _

/-- A thread of ring 3 and one of the kernel. -/
def twoThreads : List Creation :=
  [⟨true, 0x5000, 0x8048000, 0x200000, 0x50000000⟩, ⟨false, 0x1000, 0x104000, 0x300000, 0⟩]

/-- Two cores, and the two threads on the list. -/
def justCreated : System Bool := { twoCores with
  threads := fun t =>
    (twoThreads[t]?.map fun k => (threadCreate k fun _ => 0).1).getD ⟨0, .stopped, -1, 0, 0, 0, 0⟩
  threadList := [0, 1] }

/-- The first pass makes core `true` idle, the second starts the thread of ring 3. -/
theorem first_run_at_entry_ring3 : ∃ m m' : Switching Bool, Reaches (SwitchStep (createdStacks twoThreads)) m m' ∧
    (m'.exit true).cpu.eip = 0x8048000 ∧ (m'.exit true).cpu.outside = true := by
  have hpage : ∀ k ∈ twoThreads, k.kernelPage.toNat + 8192 ≤ 4294967296 := by decide
  have hapart : twoThreads.Pairwise PagesApart := by
    refine List.pairwise_pair.mpr (Or.inl ?_)
    decide
  have hthreads : ∀ (t : ThreadId) k, twoThreads[t]? = some k →
      justCreated.threads t = (threadCreate k fun _ => 0).1 := by
    intro t k hk
    simp only [justCreated, hk, Option.map_some, Option.getD_some]
  obtain ⟨goesOn, hall⟩ := exists_allCreated justCreated (fun _ => idling 0x100000) (fun _ => 0) hpage hapart
    (fun _ => rfl) rfl hthreads
  have hroom : (createdStacks twoThreads).Room 0x100000 none := by
    refine ⟨by decide, fun t ht => Or.inl ?_⟩
    have htop : ∀ t ∈ (createdStacks twoThreads).threads, 0x100000 ≤ (createdStacks twoThreads).top t - 4096 := by
      decide
    exact htop t ht
  have hin : (idling 0x100000).outside = false := by decide
  have hrun : Reaches (SwitchStep (createdStacks twoThreads))
      ⟨⟨justCreated, fun t => (justCreated.threads t).regs⟩, fun _ => idling 0x100000,
        createAll twoThreads fun _ => 0, goesOn⟩ _ :=
    .head (.enter true 0 none 32 rfl rfl (fun h => absurd (hin.symm.trans h) Bool.false_ne_true) fun _ => hroom) <|
    .head (.call true .sched (idling 0) _ rfl fun _ _ _ _ _ => rfl) <|
    .single (.call true .sched (idling 0) _ rfl fun _ _ _ _ _ => rfl)
  have hstarts := first_run_at_entry hpage hapart hall hrun true 0 _ rfl rfl rfl rfl
  exact ⟨_, _, hrun, hstarts.eip, hstarts.outside⟩

end JustKernel.Sched
