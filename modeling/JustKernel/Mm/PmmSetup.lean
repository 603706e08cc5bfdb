import JustKernel.Mm.PmmAccounting

/-! Which pages `pmm_memory_setup` frees. An entry of the memory map is taken if it is
available and the low half of its address is at least 1 MiB; both of its bounds are cut to 32
bits and rounded up, and the pages between them are cleared. So the last page of an entry is
freed although the entry ends inside it, an entry above 4 GiB frees the pages that have the
same low half, and nothing takes back a page that another entry reserves. -/

namespace JustKernel.Pmm

/-- The entries whose pages are cleared. -/
def Accepted (e : MemoryMap) : Prop := e.type = memoryAvailable ∧ 0x100000 ≤ e.addr % 2 ^ 32

instance (e : MemoryMap) : Decidable (Accepted e) := inferInstanceAs (Decidable (_ ∧ _))

/-- The first page that is cleared for an entry. -/
def freedFrom (e : MemoryMap) : ℕ := roundUp (e.addr % 2 ^ 32) / pageSize

/-- The number of pages that are cleared for an entry. -/
def freedCount (e : MemoryMap) : ℕ :=
  (roundUp ((e.addr + e.len) % 2 ^ 32) + 2 ^ 32 - roundUp (e.addr % 2 ^ 32)) % 2 ^ 32 / pageSize

/-- The page is cleared for the entry. -/
def Frees (e : MemoryMap) (q : ℕ) : Prop := freedFrom e ≤ q ∧ q < freedFrom e + freedCount e

section Frees

variable {e : MemoryMap} {mmap : List MemoryMap} {s : State} {q : ℕ}

/-- Below 4 GiB the pages are those that start in the entry. -/
theorem frees_iff (hlow : e.addr + e.len ≤ 2 ^ 32) (hacc : Accepted e) :
    Frees e q ↔ e.addr ≤ q * 4096 ∧ q * 4096 < e.addr + e.len := by
  have hmin := hacc.2
  unfold Frees freedFrom freedCount roundUp pageSize
  omega

theorem isUsed_setupEntry (s : State) (e : MemoryMap) (q : ℕ) :
    IsUsed (setupEntry s e) q ↔ ¬(Accepted e ∧ Frees e q) ∧ IsUsed s q := by
  rw [setupEntry]
  split_ifs with hacc
  · have haccepted : Accepted e := hacc
    rw [isUsed_countFound]
    simp only [Nat.add_comm _ (roundUp (e.addr % 2 ^ 32) / pageSize)]
    rw [isUsed_clearLoop, and_iff_right haccepted]
    rfl
  · exact (and_iff_right fun h => hacc h.1).symm

theorem isUsed_foldl_setupEntry (mmap : List MemoryMap) (s : State) (q : ℕ) :
    IsUsed (mmap.foldl setupEntry s) q ↔ (∀ e ∈ mmap, Accepted e → ¬Frees e q) ∧ IsUsed s q := by
  induction mmap generalizing s with
  | nil => simp
  | cons e rest ih =>
    rw [List.foldl_cons, ih, isUsed_setupEntry, List.forall_mem_cons, not_and]
    tauto

/-- After setup exactly the pages that were cleared for some entry are free. -/
theorem isUsed_pmmMemorySetup (mmap : List MemoryMap) (s : State) (hq : q < bitmapPages) :
    IsUsed (pmmMemorySetup mmap s) q ↔ ∀ e ∈ mmap, Accepted e → ¬Frees e q := by
  have hfull := isUsed_filled s hq
  have hfold := isUsed_foldl_setupEntry mmap
    { s with bitmap := fun i => if i < bitmapMaxPage then 0xFF#8 else s.bitmap i } q
  rw [and_iff_left hfull] at hfold
  exact hfold

end Frees

/-! ### Usable memory -/

/-- The entry has the byte at `b`. -/
def MemoryMap.Has (e : MemoryMap) (b : ℕ) : Prop := e.addr ≤ b ∧ b < e.addr + e.len

/-- Some available entry has the byte at `b`. -/
def Usable (mmap : List MemoryMap) (b : ℕ) : Prop := ∃ e ∈ mmap, e.type = memoryAvailable ∧ e.Has b

/-- The byte at `b` is on the page. -/
def OnPage (q b : ℕ) : Prop := q * 4096 ≤ b ∧ b < q * 4096 + 4096

/-- Every page that is free after setup starts at or above 1 MiB, is covered by available
entries and shares no byte with an entry of another type. -/
def OnlyUsable (mmap : List MemoryMap) (s : State) : Prop :=
  ∀ q < bitmapPages, ¬IsUsed (pmmMemorySetup mmap s) q → 0x100000 ≤ q * 4096 ∧
    (∀ b, OnPage q b → Usable mmap b) ∧ ∀ e ∈ mmap, e.type ≠ memoryAvailable → ∀ b, OnPage q b → ¬e.Has b

/-- The maps on which the rounding and the cut to 32 bits do no harm: if an entry ends inside
a page, other available entries have the rest of it; an entry that reaches above 4 GiB does
not start in the last page below a multiple of 4 GiB, and the pages with its low half are
covered as well; and no entry of another type has a byte of a page that is cleared. -/
structure CleanMap (mmap : List MemoryMap) : Prop where
  lastPage : ∀ e ∈ mmap, Accepted e → e.addr + e.len ≤ 2 ^ 32 → ∀ q < bitmapPages, e.addr ≤ q * 4096 →
    q * 4096 < e.addr + e.len → ∀ b, e.addr + e.len ≤ b → b < q * 4096 + 4096 → Usable mmap b
  above : ∀ e ∈ mmap, Accepted e → 2 ^ 32 < e.addr + e.len →
    (e.addr % 2 ^ 32 ≤ 0xFFFFF000 ∨ freedCount e = 0) ∧
      ∀ q < bitmapPages, Frees e q → ∀ b, OnPage q b → Usable mmap b
  reserved : ∀ e ∈ mmap, Accepted e → ∀ q < bitmapPages, Frees e q →
    ∀ r ∈ mmap, r.type ≠ memoryAvailable → ∀ b, OnPage q b → ¬r.Has b

section Usable

variable {e : MemoryMap} {mmap : List MemoryMap} {s : State} {q : ℕ}

theorem isClear_pmmMemorySetup (mmap : List MemoryMap) (s : State) (hq : q < bitmapPages) :
    ¬IsUsed (pmmMemorySetup mmap s) q ↔ ∃ e ∈ mmap, Accepted e ∧ Frees e q := by
  rw [isUsed_pmmMemorySetup mmap s hq]
  push Not
  rfl

/-- The first page of an accepted entry is below 1 MiB only if the rounding of its low half
wraps. -/
theorem freedFrom_eq (hacc : Accepted e) :
    (e.addr % 2 ^ 32 ≤ 0xFFFFF000 ∧ 256 ≤ freedFrom e) ∨ (0xFFFFF000 < e.addr % 2 ^ 32 ∧ freedFrom e = 0) := by
  have hmin := hacc.2
  unfold freedFrom roundUp pageSize
  omega

/-- Below 4 GiB the bytes of a page that is cleared are those of its entry up to the end of
the entry. -/
theorem usable_of_frees (hclean : CleanMap mmap) (he : e ∈ mmap) (hacc : Accepted e) (hq : q < bitmapPages)
    (hfrees : Frees e q) : 0x100000 ≤ q * 4096 ∧ ∀ b, OnPage q b → Usable mmap b := by
  rcases Nat.lt_or_ge (2 ^ 32) (e.addr + e.len) with hhigh | hlow
  · obtain ⟨hfirst, hcover⟩ := hclean.above e he hacc hhigh
    refine ⟨?_, hcover q hq hfrees⟩
    have hfrom := hfrees.1
    have hto := hfrees.2
    rcases freedFrom_eq hacc with ⟨-, h256⟩ | ⟨hwrap, hzero⟩
    · omega
    · omega
  · obtain ⟨hstart, hend⟩ := (frees_iff hlow hacc).mp hfrees
    have hmin := hacc.2
    refine ⟨?_, ?_⟩
    · have := Nat.mod_le e.addr (2 ^ 32)
      omega
    · rintro b ⟨hb, hb'⟩
      by_cases hin : b < e.addr + e.len
      · exact ⟨e, he, hacc.1, by omega, hin⟩
      · exact hclean.lastPage e he hacc hlow q hq hstart hend b (by omega) hb'

end Usable

/-- Setup frees only usable memory exactly on the clean maps. -/
theorem pmmMemorySetup_onlyUsable_iff (mmap : List MemoryMap) (s : State) :
    OnlyUsable mmap s ↔ CleanMap mmap := by
  constructor
  · intro honly
    have hpage : ∀ e ∈ mmap, Accepted e → ∀ q < bitmapPages, Frees e q → 0x100000 ≤ q * 4096 ∧
        (∀ b, OnPage q b → Usable mmap b) ∧ ∀ r ∈ mmap, r.type ≠ memoryAvailable → ∀ b, OnPage q b → ¬r.Has b :=
      fun e he hacc q hq hfrees => honly q hq ((isClear_pmmMemorySetup mmap s hq).mpr ⟨e, he, hacc, hfrees⟩)
    constructor
    · intro e he hacc hlow q hq h1 h2 b hb hb'
      have hfrees := (frees_iff hlow hacc).mpr ⟨h1, h2⟩
      exact (hpage e he hacc q hq hfrees).2.1 b ⟨by omega, hb'⟩
    · intro e he hacc _
      refine ⟨?_, fun q hq hfrees => (hpage e he hacc q hq hfrees).2.1⟩
      by_contra hbad
      -- page 0 would be cleared
      have hzero : Frees e 0 := by
        unfold Frees
        rcases freedFrom_eq hacc with ⟨hle, -⟩ | ⟨-, hfrom⟩
        · omega
        · omega
      have hmin := (hpage e he hacc 0 (by rw [bitmapPages_eq]; decide) hzero).1
      omega
    · intro e he hacc q hq hfrees
      exact (hpage e he hacc q hq hfrees).2.2
  · intro hclean q hq hclear
    obtain ⟨e, he, hacc, hfrees⟩ := (isClear_pmmMemorySetup mmap s hq).mp hclear
    obtain ⟨hmin, hcover⟩ := usable_of_frees hclean he hacc hq hfrees
    exact ⟨hmin, hcover, hclean.reserved e he hacc q hq hfrees⟩

/-- An available entry of 256 bytes frees the whole page it starts. -/
theorem partial_page_free : ¬∀ (mmap : List MemoryMap) (s : State),
    (∀ e ∈ mmap, e.addr + e.len ≤ 2 ^ 64) → OnlyUsable mmap s := by
  intro hall
  have honly := hall [⟨0x100000, 0x100, memoryAvailable⟩] ⟨fun _ => 0, 0, 0, 0⟩ (by decide)
  obtain ⟨-, hcover, -⟩ := honly 256 (by rw [bitmapPages_eq]; decide) (by decide +kernel)
  obtain ⟨e, he, -, -, hin⟩ := hcover 0x100100 ⟨by decide, by decide⟩
  rw [List.mem_singleton.mp he] at hin
  exact absurd hin (by decide)

end JustKernel.Pmm
