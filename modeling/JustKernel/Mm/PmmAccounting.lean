import JustKernel.Mm.PmmRuns
import Mathlib.Order.Interval.Finset.Nat
import Mathlib.Order.Interval.Set.Disjoint
import Mathlib.Data.Finset.Card

/-! The counters of the physical memory manager. `available_memory` is kept by additions and
subtractions of sizes while the bitmap is kept bit by bit; the two agree as long as every
page that is counted has a bit. Setup counts the pages between the rounded ends of each
available entry, and since both ends are rounded up, entries that do not overlap do not
share a page. `pmm_alloc_from` does not check its range: a call for pages behind the bitmap
reads and sets bits behind the array and counts pages that were never available. -/

namespace JustKernel.Pmm

open Runs

/-- The number of pages with a bit. -/
def bitmapPages : ℕ := 8 * bitmapMaxPage

theorem bitmapPages_eq : bitmapPages = 1048568 := by rw [bitmapPages, bitmapMaxPage_eq]

/-- The clear bits of the bitmap. -/
def clearPages (s : State) : Finset ℕ := (Finset.range bitmapPages).filter fun q => ¬IsUsed s q

theorem mem_clearPages {s : State} {q : ℕ} : q ∈ clearPages s ↔ q < bitmapPages ∧ ¬IsUsed s q := by
  rw [clearPages, Finset.mem_filter, Finset.mem_range]

theorem card_clearPages_le (s : State) : (clearPages s).card ≤ bitmapPages := by
  have := Finset.card_filter_le (Finset.range bitmapPages) fun q => ¬IsUsed s q
  rwa [Finset.card_range] at this

/-! ### Ranges of pages -/

section Ranges

variable {s t : State} {a n : ℕ}

/-- The range is set in `t` and clear in `s`. -/
theorem card_of_set (hin : ∀ q, a ≤ q → q < a + n → q < bitmapPages) (hused : ∀ q, IsUsed t q ↔ (a ≤ q ∧ q < a + n) ∨ IsUsed s q)
    (hfree : ∀ q, a ≤ q → q < a + n → ¬IsUsed s q) : (clearPages t).card + n = (clearPages s).card := by
  have hunion : clearPages s = clearPages t ∪ Finset.Ico a (a + n) := by
    ext q
    rw [Finset.mem_union, mem_clearPages, mem_clearPages, Finset.mem_Ico, hused]
    constructor
    · rintro ⟨hq, hclear⟩
      by_cases hr : a ≤ q ∧ q < a + n
      · exact Or.inr hr
      · exact Or.inl ⟨hq, by tauto⟩
    · rintro (⟨hq, hclear⟩ | ⟨h1, h2⟩)
      · exact ⟨hq, by tauto⟩
      · exact ⟨hin q h1 h2, hfree q h1 h2⟩
  have hdisj : Disjoint (clearPages t) (Finset.Ico a (a + n)) := by
    rw [Finset.disjoint_left]
    intro q hq hr
    rw [mem_clearPages, hused] at hq
    rw [Finset.mem_Ico] at hr
    tauto
  rw [hunion, Finset.card_union_of_disjoint hdisj, Nat.card_Ico]
  omega

/-- The range is clear in `t` and set in `s`. -/
theorem card_of_clear (hin : ∀ q, a ≤ q → q < a + n → q < bitmapPages) (hused : ∀ q, IsUsed t q ↔ ¬(a ≤ q ∧ q < a + n) ∧ IsUsed s q)
    (hset : ∀ q, a ≤ q → q < a + n → IsUsed s q) : (clearPages t).card = (clearPages s).card + n := by
  refine (card_of_set hin (fun q => ?_) fun q h1 h2 => ?_).symm
  · rw [hused]
    constructor
    · intro hq
      by_cases hr : a ≤ q ∧ q < a + n
      · exact Or.inl hr
      · exact Or.inr ⟨hr, hq⟩
    · rintro (⟨h1, h2⟩ | ⟨-, hq⟩)
      · exact hset q h1 h2
      · exact hq
  · rw [hused]
    tauto

end Ranges

/-! ### The counters -/

/-- The loops over pages leave the counters alone. -/
theorem forPages_kept {α : Type} {g : State → α} {body : ℕ → State → State} (h : ∀ i s, g (body i s) = g s) (n : ℕ)
    (s : State) : g (forPages body n s) = g s := by
  induction n with
  | zero => rfl
  | succ n ih => rw [forPages, h, ih]

/-- The counters as numbers agree with the bitmap and with one another. -/
structure Accounts (s : State) : Prop where
  available : s.availableMemory.toNat = 4096 * (clearPages s).card
  total : s.availableMemory.toNat + s.usedMemory.toNat = s.totalMemory.toNat

theorem toNat_add_pages {a : BitVec 32} {k n : ℕ} (ha : a.toNat = 4096 * k) (hn : k + n ≤ bitmapPages) :
    (a + BitVec.ofNat 32 (4096 * n)).toNat = 4096 * (k + n) := by
  rw [bitmapPages_eq] at hn
  rw [BitVec.toNat_add, BitVec.toNat_ofNat, ha]
  omega

theorem toNat_sub_pages {a : BitVec 32} {k n : ℕ} (ha : a.toNat = 4096 * (k + n)) :
    (a - BitVec.ofNat 32 (4096 * n)).toNat = 4096 * k := by
  have := a.isLt
  rw [BitVec.toNat_sub, BitVec.toNat_ofNat, ha]
  omega

/-- The three counters. -/
def counters (s : State) : BitVec 32 × BitVec 32 × BitVec 32 := (s.totalMemory, s.usedMemory, s.availableMemory)

section Counters

variable {s t : State} {size p addr : ℕ} {b : Block}

theorem pmmAlloc_counters (h : pmmAlloc size s = some (p, t)) :
    counters t = counters (countTaken (pageCount size) s) := by
  rw [pmmAlloc] at h
  split at h
  · contradiction
  · rw [← (Prod.mk.inj (Option.some.inj h)).2]
    exact congrArg (fun c : BitVec 32 × BitVec 32 × BitVec 32 => (c.1, c.2.1 + _, c.2.2 - _))
      (forPages_kept (g := counters) (by intros; rfl) _ s)

theorem pmmAllocFrom_counters (h : pmmAllocFrom addr size s = (p, t))
    (hfree : ∀ q ∈ (Block.mk addr size).pages, ¬IsUsed s q) :
    counters t = counters (countTaken (pageCount size) s) := by
  rw [pmmAllocFrom, (anyUsed_eq_false _ _ _).mpr fun q h1 h2 => hfree q ⟨h1, h2⟩] at h
  rw [← (Prod.mk.inj h).2]
  exact congrArg (fun c : BitVec 32 × BitVec 32 × BitVec 32 => (c.1, c.2.1 + _, c.2.2 - _))
    (forPages_kept (g := counters) (by intros; rfl) _ s)

theorem pmmUnalloc_counters (h : pmmUnalloc b.addr b.size s = some t) :
    counters t = counters (countGiven (pageCount b.size) s) := by
  rw [pmmUnalloc] at h
  split_ifs at h
  rw [← Option.some.inj h]
  exact congrArg (fun c : BitVec 32 × BitVec 32 × BitVec 32 => (c.1, c.2.1 - _, c.2.2 + _))
    (forPages_kept (g := counters) (by intros; rfl) _ s)

/-- A block that was free has been taken. -/
theorem Accounts.taken (h : Accounts s) (hcount : counters t = counters (countTaken (pageCount b.size) s))
    (hin : ∀ q ∈ b.pages, q < bitmapPages) (hused : ∀ q, IsUsed t q ↔ q ∈ b.pages ∨ IsUsed s q)
    (hfree : ∀ q ∈ b.pages, ¬IsUsed s q) : Accounts t := by
  have hcard := card_of_set (fun q h1 h2 => hin q ⟨h1, h2⟩) hused fun q h1 h2 => hfree q ⟨h1, h2⟩
  obtain ⟨htotal, hus, hav⟩ : t.totalMemory = s.totalMemory ∧
      t.usedMemory = s.usedMemory + BitVec.ofNat 32 (4096 * pageCount b.size) ∧
      t.availableMemory = s.availableMemory - BitVec.ofNat 32 (4096 * pageCount b.size) := by
    rw [Nat.mul_comm]
    simpa only [counters, countTaken, Prod.mk.injEq] using hcount
  have hav' : t.availableMemory.toNat = 4096 * (clearPages t).card := by
    rw [hav]
    exact toNat_sub_pages (by rw [hcard]; exact h.available)
  -- the sum is that of `s`, which is a word, so the larger half is one as well
  have hsum := h.total
  have hlt := s.totalMemory.isLt
  rw [h.available] at hsum
  refine ⟨hav', ?_⟩
  rw [hav', htotal, hus, BitVec.toNat_add, BitVec.toNat_ofNat]
  omega

/-- A block that was taken has come back, and no more pages are free than were ever counted. -/
theorem Accounts.given (h : Accounts s) (hcount : counters t = counters (countGiven (pageCount b.size) s))
    (hin : ∀ q ∈ b.pages, q < bitmapPages) (hused : ∀ q, IsUsed t q ↔ q ∉ b.pages ∧ IsUsed s q)
    (hset : ∀ q ∈ b.pages, IsUsed s q) (hle : 4096 * (clearPages t).card ≤ s.totalMemory.toNat) : Accounts t := by
  have hcard := card_of_clear (fun q h1 h2 => hin q ⟨h1, h2⟩) hused fun q h1 h2 => hset q ⟨h1, h2⟩
  obtain ⟨htotal, hus, hav⟩ : t.totalMemory = s.totalMemory ∧
      t.usedMemory = s.usedMemory - BitVec.ofNat 32 (4096 * pageCount b.size) ∧
      t.availableMemory = s.availableMemory + BitVec.ofNat 32 (4096 * pageCount b.size) := by
    rw [Nat.mul_comm]
    simpa only [counters, countGiven, Prod.mk.injEq] using hcount
  have hav' : t.availableMemory.toNat = 4096 * (clearPages t).card := by
    rw [hav, hcard]
    exact toNat_add_pages h.available (hcard ▸ card_clearPages_le t)
  have hsum := h.total
  have hlt := s.totalMemory.isLt
  have hlt' := s.usedMemory.isLt
  rw [h.available] at hsum
  refine ⟨hav', ?_⟩
  rw [hav', htotal, hus, BitVec.toNat_sub, BitVec.toNat_ofNat]
  omega

end Counters

/-! ### Setup -/

/-- The available entries share no byte. -/
def NoOverlap (mmap : List MemoryMap) : Prop :=
  mmap.Pairwise fun e f => e.type = memoryAvailable → f.type = memoryAvailable →
    Disjoint (Set.Ico e.addr (e.addr + e.len)) (Set.Ico f.addr (f.addr + f.len))

/-- The first page of an entry, and the one behind it. -/
def pageOf (a : ℕ) : ℕ := (a + 4095) / 4096

/-- The entry counts. -/
def Counts (e : MemoryMap) : Prop := e.type = memoryAvailable ∧ 0x100000 ≤ e.addr

section Setup

variable {s : State} {e f : MemoryMap} {mmap : List MemoryMap}

/-- What an available entry of the map does. -/
theorem setupEntry_counts (hin : e.addr + e.len ≤ bitmapPages * pageSize) (hc : Counts e) :
    (∀ q, IsUsed (setupEntry s e) q ↔ ¬(pageOf e.addr ≤ q ∧ q < pageOf e.addr + (pageOf (e.addr + e.len) - pageOf e.addr)) ∧
      IsUsed s q) ∧
    (setupEntry s e).availableMemory =
      s.availableMemory + BitVec.ofNat 32 (4096 * (pageOf (e.addr + e.len) - pageOf e.addr)) := by
  obtain ⟨htype, hlow⟩ := hc
  simp only [bitmapPages_eq, pageSize] at hin
  have hstart : roundUp (e.addr % 2 ^ 32) = 4096 * pageOf e.addr := by
    unfold roundUp pageOf pageSize
    omega
  have hend : roundUp ((e.addr + e.len) % 2 ^ 32) = 4096 * pageOf (e.addr + e.len) := by
    unfold roundUp pageOf pageSize
    omega
  have hlen : (4096 * pageOf (e.addr + e.len) + 2 ^ 32 - 4096 * pageOf e.addr) % 2 ^ 32 =
      4096 * (pageOf (e.addr + e.len) - pageOf e.addr) := by
    unfold pageOf
    omega
  have hcond : e.type = memoryAvailable ∧ 0x100000 ≤ e.addr % 2 ^ 32 := ⟨htype, by omega⟩
  have hdiv : ∀ n, 4096 * n / pageSize = n := fun n => Nat.mul_div_cancel_left n (by decide)
  rw [setupEntry]
  simp only [hstart, hend, hlen, if_pos hcond, hdiv]
  constructor
  · intro q
    rw [isUsed_countFound]
    simp only [Nat.add_comm _ (pageOf e.addr)]
    rw [isUsed_clearLoop]
  · rw [countFound]
    exact congrArg (· + _) (forPages_kept (g := State.availableMemory) (by intros; rfl) _ s)

/-- Entries that share no byte share no page. -/
theorem pages_apart (h : Disjoint (Set.Ico e.addr (e.addr + e.len)) (Set.Ico f.addr (f.addr + f.len))) {q : ℕ}
    (he : pageOf e.addr ≤ q ∧ q < pageOf (e.addr + e.len)) : ¬(pageOf f.addr ≤ q ∧ q < pageOf (f.addr + f.len)) := by
  rw [Set.Ico_disjoint_Ico] at h
  unfold pageOf at *
  omega

/-- No page of the entry is clear. -/
def Unseen (s : State) (e : MemoryMap) : Prop :=
  Counts e → ∀ q, pageOf e.addr ≤ q → q < pageOf (e.addr + e.len) → IsUsed s q

theorem setupEntry_of_not_counts (hin : e.type = memoryAvailable → e.addr + e.len ≤ bitmapPages * pageSize)
    (hc : ¬Counts e) : setupEntry s e = s := by
  rw [setupEntry]
  refine if_neg fun hcond => hc ⟨hcond.1, ?_⟩
  have := hin hcond.1
  have hlow := hcond.2
  simp only [bitmapPages_eq, pageSize] at this
  omega

/-- One entry of the map. -/
theorem setupEntry_accounts (hin : e.type = memoryAvailable → e.addr + e.len ≤ bitmapPages * pageSize)
    (hnew : Unseen s e) (h : s.availableMemory.toNat = 4096 * (clearPages s).card) :
    (setupEntry s e).availableMemory.toNat = 4096 * (clearPages (setupEntry s e)).card := by
  by_cases hc : Counts e
  · have hin' := hin hc.1
    obtain ⟨hused, hcount⟩ := setupEntry_counts (s := s) hin' hc
    have hend : pageOf e.addr + (pageOf (e.addr + e.len) - pageOf e.addr) ≤ bitmapPages := by
      simp only [bitmapPages_eq, pageSize] at hin' ⊢
      unfold pageOf
      omega
    have hcard := card_of_clear (fun q _ hq => by omega) hused fun q h1 h2 => hnew hc q h1 (by omega)
    have hle := card_clearPages_le (setupEntry s e)
    rw [hcount, toNat_add_pages h (by omega), hcard]
  · rw [setupEntry_of_not_counts hin hc]
    exact h

/-- An entry leaves the pages of the others alone. -/
theorem Unseen.setupEntry_spec (hin : e.type = memoryAvailable → e.addr + e.len ≤ bitmapPages * pageSize)
    (hf : Unseen s f) (hap : e.type = memoryAvailable → f.type = memoryAvailable →
      Disjoint (Set.Ico e.addr (e.addr + e.len)) (Set.Ico f.addr (f.addr + f.len))) :
    Unseen (setupEntry s e) f := by
  intro hcf q h1 h2
  by_cases hc : Counts e
  · rw [(setupEntry_counts (hin hc.1) hc).1]
    refine ⟨fun hq => ?_, hf hcf q h1 h2⟩
    exact pages_apart (hap hc.1 hcf.1) ⟨hq.1, by omega⟩ ⟨h1, h2⟩
  · rw [setupEntry_of_not_counts hin hc]
    exact hf hcf q h1 h2

theorem foldl_setupEntry_accounts (hin : InRange mmap) (hno : NoOverlap mmap) (hnew : ∀ e ∈ mmap, Unseen s e)
    (h : s.availableMemory.toNat = 4096 * (clearPages s).card) :
    (mmap.foldl setupEntry s).availableMemory.toNat = 4096 * (clearPages (mmap.foldl setupEntry s)).card := by
  induction mmap generalizing s with
  | nil => exact h
  | cons e rest ih =>
    obtain ⟨hap, hno'⟩ := List.pairwise_cons.mp hno
    have he := hin e List.mem_cons_self
    refine ih (fun f hf => hin f (List.mem_cons_of_mem _ hf)) hno' (fun f hf => ?_)
      (setupEntry_accounts he (hnew e List.mem_cons_self) h)
    exact (hnew f (List.mem_cons_of_mem _ hf)).setupEntry_spec he (hap f hf)

theorem setupEntry_used (s : State) (e : MemoryMap) : (setupEntry s e).usedMemory = s.usedMemory := by
  have hshape : setupEntry s e = s ∨ ∃ a n len, setupEntry s e =
      countFound len (forPages (fun i => pmmClearBit (i + a)) n s) := by
    rw [setupEntry]
    split_ifs
    · exact Or.inr ⟨_, _, _, rfl⟩
    · exact Or.inl rfl
  rcases hshape with hsame | ⟨a, n, len, hentry⟩
  · rw [hsame]
  · rw [hentry, countFound]
    exact forPages_kept (g := State.usedMemory) (by intros; rfl) n s

theorem foldl_setupEntry_used (mmap : List MemoryMap) (s : State) :
    (mmap.foldl setupEntry s).usedMemory = s.usedMemory := by
  induction mmap generalizing s with
  | nil => rfl
  | cons e rest ih => rw [List.foldl_cons, ih, setupEntry_used]

/-- The counters before setup. -/
structure Fresh (s : State) : Prop where
  used : s.usedMemory = 0
  available : s.availableMemory = 0

/-- The bitmap that setup starts from. -/
theorem isUsed_filled (s : State) {q : ℕ} (hq : q < bitmapPages) :
    IsUsed { s with bitmap := fun i => if i < bitmapMaxPage then 0xFF#8 else s.bitmap i } q := by
  have hbit : q % 8 < 8 := Nat.mod_lt _ (by decide)
  rw [bitmapPages] at hq
  rw [isUsed_iff]
  dsimp only
  rw [if_pos (by omega), show 0xFF#8 = BitVec.allOnes 8 by decide, BitVec.getLsbD_allOnes]
  exact decide_eq_true hbit

/-- After setup the counters agree with the bitmap. -/
theorem pmmMemorySetup_accounts (hs : Fresh s) (hin : InRange mmap) (hno : NoOverlap mmap) :
    Accounts (pmmMemorySetup mmap s) := by
  have hfull : ∀ q < bitmapPages,
      IsUsed { s with bitmap := fun i => if i < bitmapMaxPage then 0xFF#8 else s.bitmap i } q :=
    fun q hq => isUsed_filled s hq
  generalize hs₀ : ({ s with bitmap := fun i => if i < bitmapMaxPage then 0xFF#8 else s.bitmap i } : State) = s₀
    at hfull
  have hsetup : pmmMemorySetup mmap s =
      { mmap.foldl setupEntry s₀ with totalMemory := (mmap.foldl setupEntry s₀).availableMemory } := by
    rw [pmmMemorySetup, hs₀]
  have hnone : (clearPages s₀).card = 0 := by
    rw [Finset.card_eq_zero, Finset.eq_empty_iff_forall_notMem]
    intro q hq
    rw [mem_clearPages] at hq
    exact hq.2 (hfull q hq.1)
  have hzero : s₀.availableMemory.toNat = 4096 * (clearPages s₀).card := by
    rw [hnone, ← hs₀, hs.available]
    rfl
  have hnew : ∀ e ∈ mmap, Unseen s₀ e := by
    intro e he hc q _ h2
    have := hin e he hc.1
    refine hfull q ?_
    simp only [bitmapPages, bitmapMaxPage_eq, pageSize] at this ⊢
    unfold pageOf at h2
    omega
  have hcount := foldl_setupEntry_accounts hin hno hnew hzero
  have hused : (mmap.foldl setupEntry s₀).usedMemory = 0 := by
    rw [foldl_setupEntry_used, ← hs₀]
    exact hs.used
  rw [hsetup]
  refine ⟨hcount, ?_⟩
  simp only [hused]
  exact Nat.add_zero _

end Setup

/-! ### Runs -/

/-- A call of a client, with any arguments. -/
inductive Call
  | alloc (size : ℕ)
  | allocFrom (addr size : ℕ)
  | unalloc (b : Block)

/-- The call returns. The block of a `pmm_alloc_from` that returns 0 is no block. -/
inductive CallStep : Sys → Call → Sys → Prop
  | alloc {s : Sys} {size p : ℕ} {t : State} (hsize : size < 2 ^ 32) (h : pmmAlloc size s.pmm = some (p, t)) :
      CallStep s (.alloc size) ⟨t, ⟨p, size⟩ :: s.blocks⟩
  | allocFrom {s : Sys} {addr size p : ℕ} {t : State} (haddr : addr < 2 ^ 32) (hsize : size < 2 ^ 32)
      (h : pmmAllocFrom addr size s.pmm = (p, t)) (hp : p ≠ 0) :
      CallStep s (.allocFrom addr size) ⟨t, ⟨p, size⟩ :: s.blocks⟩
  | allocFromFailed {s : Sys} {addr size : ℕ} {t : State} (haddr : addr < 2 ^ 32) (hsize : size < 2 ^ 32)
      (h : pmmAllocFrom addr size s.pmm = (0, t)) : CallStep s (.allocFrom addr size) ⟨t, s.blocks⟩
  | unalloc {s : Sys} {b : Block} {t : State} (hb : b ∈ s.blocks)
      (h : pmmUnalloc b.addr b.size s.pmm = some t) : CallStep s (.unalloc b) ⟨t, s.blocks.erase b⟩

/-- A `pmm_alloc_from` asks for pages that have a bit, or it is refused. -/
def WithinBitmap (s : State) : Call → Prop
  | .alloc _ => True
  | .allocFrom addr size =>
    (∀ q ∈ (Block.mk addr size).pages, q < bitmapPages) ∨ ∃ q ∈ (Block.mk addr size).pages, IsUsed s q
  | .unalloc _ => True

/-- What holds in every state of a run from `base`. -/
structure Accounted (base : State) (s : Sys) : Prop where
  exclusive : Pool.Exclusive {q | IsUsed base q} s.pool
  inside : ∀ b ∈ s.blocks, ∀ q ∈ b.pages, q < bitmapPages
  accounts : Accounts s.pmm
  total : s.pmm.totalMemory = base.totalMemory

section Runs

variable {base : State} {s t : Sys} {c : Call}

theorem Accounted.pageZero (h0 : IsUsed base 0) (h : Accounted base s) : IsUsed s.pmm 0 :=
  (h.exclusive.used_iff 0).mpr (Or.inl h0)

/-- A new block. -/
theorem Accounted.take {b : Block} {m : State} (h : Accounted base s)
    (hcount : counters m = counters (countTaken (pageCount b.size) s.pmm)) (hin : ∀ q ∈ b.pages, q < bitmapPages)
    (hused : ∀ q, IsUsed m q ↔ q ∈ b.pages ∨ IsUsed s.pmm q) (hfree : ∀ q ∈ b.pages, ¬IsUsed s.pmm q) :
    Accounted base ⟨m, b :: s.blocks⟩ where
  exclusive := h.exclusive.step (pool_take hused hfree)
  inside := List.forall_mem_cons.mpr ⟨hin, h.inside⟩
  accounts := h.accounts.taken hcount hin hused hfree
  total := (congrArg Prod.fst hcount).trans h.total

/-- A block comes back. Its pages were free at the start, so they are among those counted there. -/
theorem Accounted.give {b : Block} {m : State} (hbase : base.totalMemory.toNat = 4096 * (clearPages base).card)
    (h : Accounted base s) (hb : b ∈ s.blocks) (hm : pmmUnalloc b.addr b.size s.pmm = some m) :
    Accounted base ⟨m, s.blocks.erase b⟩ := by
  have hused := pmmUnalloc_spec hm
  have hexc : Pool.Exclusive {q | IsUsed base q} (Sys.mk m (s.blocks.erase b)).pool :=
    h.exclusive.step (pool_give hb hm)
  have hset : ∀ q ∈ b.pages, IsUsed s.pmm q := fun q hq =>
    (h.exclusive.used_iff q).mpr (Or.inr ⟨_, List.mem_map_of_mem hb, hq⟩)
  have hsub : clearPages m ⊆ clearPages base := by
    intro q hq
    rw [mem_clearPages] at hq ⊢
    exact ⟨hq.1, fun hq' => hq.2 ((hexc.used_iff q).mpr (Or.inl hq'))⟩
  have hle : 4096 * (clearPages m).card ≤ s.pmm.totalMemory.toNat := by
    rw [h.total, hbase]
    exact Nat.mul_le_mul_left _ (Finset.card_le_card hsub)
  have hcount := pmmUnalloc_counters hm
  exact ⟨hexc, fun b' hb' => h.inside b' (List.mem_of_mem_erase hb'),
    h.accounts.given hcount (h.inside b hb) hused hset hle, (congrArg Prod.fst hcount).trans h.total⟩

/-- One call. -/
theorem Accounted.step (h0 : IsUsed base 0) (hbase : base.totalMemory.toNat = 4096 * (clearPages base).card)
    (h : Accounted base s) (hsafe : WithinBitmap s.pmm c) (hstep : CallStep s c t) : Accounted base t := by
  cases hstep with
  | @alloc size p m _ hm =>
    obtain ⟨-, hused, hfree, hend, -⟩ := pmmAlloc_spec (h.pageZero h0) hm
    refine h.take (b := ⟨p, size⟩) (pmmAlloc_counters hm) (fun q hq => ?_) hused hfree
    have hlt : q < p / pageSize + pageCount size := hq.2
    rw [bitmapPages]
    omega
  | @allocFrom addr size p m _ _ hm hp =>
    rcases pmmAllocFrom_spec hm with ⟨hp0, -, -⟩ | ⟨hp', hused, hfree⟩
    · exact absurd hp0 hp
    · have hin : ∀ q ∈ (Block.mk addr size).pages, q < bitmapPages := by
        rcases hsafe with hin | ⟨q, hq, hq'⟩
        · exact hin
        · exact absurd hq' (hfree q hq)
      -- the address that comes back is the start of the first page
      have hpages : (Block.mk p size).pages = (Block.mk addr size).pages := by
        rw [Block.pages, Block.pages, hp', Nat.mul_div_cancel _ (by decide)]
      rw [← hpages] at hin hused hfree
      exact h.take (b := ⟨p, size⟩) (pmmAllocFrom_counters hm (hpages ▸ hfree)) hin hused hfree
  | allocFromFailed _ _ hm =>
    rw [pmmAllocFrom_zero (h.pageZero h0) hm]
    exact h
  | unalloc hb hm => exact h.give hbase hb hm

end Runs

/-- In every state reached from a fresh setup by calls within the bitmap, the counters are
those of the bitmap and none of them has wrapped. -/
theorem pmm_accounts (init : State) (hinit : Fresh init) (mmap : List MemoryMap) (hmap : InRange mmap)
    (hno : NoOverlap mmap) (s : Sys)
    (hrun : Reaches (fun s t => ∃ c, WithinBitmap s.pmm c ∧ CallStep s c t) ⟨pmmMemorySetup mmap init, []⟩ s) :
    Accounts s.pmm := by
  have h0 := pmmMemorySetup_page_zero init hmap
  have hsetup := pmmMemorySetup_accounts hinit hmap hno
  have htotal : (pmmMemorySetup mmap init).totalMemory = (pmmMemorySetup mmap init).availableMemory := rfl
  have hinv : Accounted (pmmMemorySetup mmap init) s := by
    refine Reaches.invariant (Accounted _) ?_ hrun
      ⟨Pool.exclusive_init _, fun _ hb => absurd hb List.not_mem_nil, hsetup, rfl⟩
    rintro s t hs ⟨c, hsafe, hstep⟩
    exact hs.step h0 (by rw [htotal, hsetup.available]) hsafe hstep
  exact hinv.accounts

/-! ### Three pages -/

theorem pmm_accounts_two_blocks : ∃ m₁ m₂ m₃, pmmAlloc 0x2000 threePages = some (0x100000, m₁) ∧
    pmmAllocFrom 0x102000 0x1000 m₁ = (0x102000, m₂) ∧ pmmUnalloc 0x100000 0x2000 m₂ = some m₃ ∧
    Accounts m₂ ∧ Accounts m₃ := by
  obtain ⟨m₁, m₂, m₃, hfirst, hsecond, hgiven, -⟩ := two_blocks_run
  have hboth : Reaches (fun s t => ∃ c, WithinBitmap s.pmm c ∧ CallStep s c t) ⟨threePages, []⟩
      ⟨m₂, [⟨0x102000, 0x1000⟩, ⟨0x100000, 0x2000⟩]⟩ := by
    refine .head ⟨.alloc 0x2000, trivial, .alloc (by decide) hfirst⟩
      (.single ⟨.allocFrom 0x102000 0x1000, Or.inl fun q hq => ?_,
        .allocFrom (by decide) (by decide) hsecond (by decide)⟩)
    rw [bitmapPages_eq]
    exact lt_trans hq.2 (by decide)
  have hstep : CallStep ⟨m₂, [⟨0x102000, 0x1000⟩, ⟨0x100000, 0x2000⟩]⟩ (.unalloc ⟨0x100000, 0x2000⟩)
      ⟨m₃, [⟨0x102000, 0x1000⟩]⟩ :=
    .unalloc (List.mem_cons_of_mem _ List.mem_cons_self) hgiven
  have haccounts := pmm_accounts ⟨fun _ => 0, 0, 0, 0⟩ ⟨rfl, rfl⟩ [⟨0x100000, 0x3000, memoryAvailable⟩]
    inRange_threePages (List.pairwise_singleton _ _)
  exact ⟨m₁, m₂, m₃, hfirst, hsecond, hgiven, haccounts _ hboth,
    haccounts _ (hboth.tail ⟨.unalloc ⟨0x100000, 0x2000⟩, trivial, hstep⟩)⟩

/-- The byte behind the bitmap is clear, so its eight pages can be had, and the counters lose
a page that the bitmap still has. -/
theorem pages_behind_bitmap : ¬∀ (init : State) (mmap : List MemoryMap) (s : Sys),
    Fresh init → InRange mmap → NoOverlap mmap →
    Reaches (fun s t => ∃ c, CallStep s c t) ⟨pmmMemorySetup mmap init, []⟩ s → Accounts s.pmm := by
  intro hall
  have hcall : pmmAllocFrom 0xFFFF8000 0x1000 threePages =
      (0xFFFF8000, (pmmAllocFrom 0xFFFF8000 0x1000 threePages).2) :=
    Prod.ext (by decide +kernel) rfl
  have hsub : ({256, 257, 258} : Finset ℕ) ⊆ clearPages (pmmAllocFrom 0xFFFF8000 0x1000 threePages).2 := by
    intro q hq
    rw [mem_clearPages, bitmapPages_eq]
    revert q
    decide +kernel
  have hav : (pmmAllocFrom 0xFFFF8000 0x1000 threePages).2.availableMemory.toNat = 0x2000 := by decide +kernel
  generalize (pmmAllocFrom 0xFFFF8000 0x1000 threePages).2 = m at hcall hsub hav
  have hclear : Accounts m := hall ⟨fun _ => 0, 0, 0, 0⟩ [⟨0x100000, 0x3000, memoryAvailable⟩]
    ⟨m, [⟨0xFFFF8000, 0x1000⟩]⟩ ⟨rfl, rfl⟩ inRange_threePages (List.pairwise_singleton _ _)
    (Relation.ReflTransGen.single ⟨_, CallStep.allocFrom (by decide) (by decide) hcall (by decide)⟩)
  have hcard := Finset.card_le_card hsub
  rw [show ({256, 257, 258} : Finset ℕ).card = 3 by decide] at hcard
  have heq := hclear.available
  rw [hav] at heq
  omega

end JustKernel.Pmm
