import JustKernel.Base.FirstLeast
import JustKernel.Fs.Elf

/-! Symbols by name and by address. A lookup by name reads names in the first string table of
the image, not in the one that the symbol table is linked to, passes over the offset 0 and
admits the offset just behind the table; without a symbol table it goes through what it finds
at NULL. The nearest symbol is the one at the least distance around the address space, where a
symbol above the address is farther than any below it but still counts. -/

namespace JustKernel.Elf32

open AddressSpace Klibc FirstLeast
open Memory (Byte)

variable {m : Mem32} {moduleStart moduleEnd address name : Addr} {type : BitVec 8} {s : List Byte}

/-! ### The names of an image -/

section Image

variable (m : Mem32) (address : Addr)

def imageSections : List Addr :=
  entries (address + headerShoff m address) 40 (headerShnum m address).toNat

/-- The symbol table section. -/
def symtabSection : Option Addr :=
  (imageSections m address).find? fun s => sectionType m s = 2

def imageSymbols : List Addr :=
  (symtabSection m address).elim [] fun symtab =>
    entries (address + sectionOffset m symtab) 16 (sectionSize m symtab / 16).toNat

/-- The symbol has the name `s` in the string table that the symbol table is linked to. -/
def LinkedName (s : List Byte) (y : Addr) : Prop :=
  ∃ symtab strtab, symtabSection m address = some symtab ∧
    (imageSections m address)[(sectionLink m symtab).toNat]? = some strtab ∧
    symbolName m y < sectionSize m strtab ∧
    CString m (address + sectionOffset m strtab + symbolName m y) s

/-- The symbol is of the type and has the name `s` in the linked string table. -/
def Named (type : BitVec 8) (s : List Byte) (y : Addr) : Prop :=
  sttChecktype m y type ∧ LinkedName m address s y

/-- The first string table, which need not be the linked one. -/
def firstStrtab : Option Addr :=
  (imageSections m address).find? fun s => sectionType m s = 3

def firstStrtabHead : Addr := (firstStrtab m address).elim 0 fun s => address + sectionOffset m s

def firstStrtabSize : BitVec 32 := (firstStrtab m address).elim 0 (sectionSize m)

/-- The symbols of the image or, without a symbol table, what a table at NULL would hold. -/
def foundSymbols : List Addr :=
  (symtabSection m address).elim (entries 0 16 (sectionSize m 0 / 16).toNat) fun _ => imageSymbols m address

/-- The symbol is of the type, with a name at an offset from 1 to the size of the first string
table. -/
def InFirst (type : BitVec 8) (y : Addr) : Prop :=
  sttChecktype m y type ∧ symbolName m y ≠ 0 ∧ symbolName m y ≤ firstStrtabSize m address

/-- The symbol has the name `s` in the first string table. -/
def NamedInFirst (type : BitVec 8) (s : List Byte) (y : Addr) : Prop :=
  InFirst m address type y ∧ CString m (firstStrtabHead m address + symbolName m y) s

/-- What a lookup of the name `s` should return. -/
def NameResult (type : BitVec 8) (s : List Byte) (symbol : Option Addr) : Prop :=
  (∃ y, First (Named m address type s) (imageSymbols m address) y ∧ symbol = some y) ∨
    (∀ y ∈ imageSymbols m address, ¬Named m address type s y) ∧ symbol = none

/-- An image with the exact magic is loaded, the lookup returns the first symbol of that name
and reads no name from behind the string table; any other image is rejected. -/
def LookupCorrect (moduleStart moduleEnd : Addr) (type : BitVec 8) (name : Addr) (s : List Byte) : Prop :=
  (headerMagic m address = elfMagic →
    ∃ hdr found, elfLoad m moduleStart moduleEnd address = some (some hdr) ∧
      elfLookupSymbolByName m hdr type name = some found ∧ NameResult m address type s found.symbol ∧
      ∀ o ∈ found.reads, o < hdr.strtabSize) ∧
  (headerMagic m address ≠ elfMagic → elfLoad m moduleStart moduleEnd address = some none)

end Image

/-! ### What a lookup returns -/

/-- The symbol is compared, as none before it has been the one. -/
def Tried (m : Mem32) (hdr : Elf32Obj) (type : BitVec 8) (s : List Byte) (l : List Addr) (y : Addr) : Prop :=
  ∃ before after, l = before ++ y :: after ∧ Compared m hdr type y ∧ ∀ z ∈ before, ¬Coded m hdr type s z

theorem Tried.compared {hdr : Elf32Obj} {l : List Addr} {y : Addr} (h : Tried m hdr type s l y) :
    Compared m hdr type y := by
  obtain ⟨_, _, _, hy, _⟩ := h
  exact hy

theorem tried_cons {hdr : Elf32Obj} {l : List Addr} {x y : Addr} :
    Tried m hdr type s (x :: l) y ↔
      y = x ∧ Compared m hdr type x ∨ ¬Coded m hdr type s x ∧ Tried m hdr type s l y := by
  constructor
  · rintro ⟨before, after, hl, hy, hbefore⟩
    cases before with
    | nil =>
      obtain ⟨rfl, -⟩ := List.cons.inj hl
      exact Or.inl ⟨rfl, hy⟩
    | cons z before =>
      obtain ⟨rfl, htail⟩ := List.cons.inj hl
      exact Or.inr ⟨hbefore x List.mem_cons_self, before, after, htail, hy,
        fun c hc => hbefore c (List.mem_cons_of_mem _ hc)⟩
  · rintro (⟨rfl, hx⟩ | ⟨hx, before, after, rfl, hy, hbefore⟩)
    · exact ⟨[], l, rfl, hx, by simp⟩
    · exact ⟨x :: before, after, rfl, hy, by simpa [hx] using hbefore⟩

structure LookedUp (m : Mem32) (hdr : Elf32Obj) (type : BitVec 8) (s : List Byte) (l : List Addr)
    (found : Lookup) : Prop where
  first : ∀ y, First (Coded m hdr type s) l y → found.symbol = nonNull y
  none : (∀ y ∈ l, ¬Coded m hdr type s y) → found.symbol = none
  reads : ∀ o, o ∈ found.reads ↔ ∃ y, Tried m hdr type s l y ∧ symbolName m y = o

theorem lookedUp_nothing {hdr : Elf32Obj} {l : List Addr} (h : ∀ y ∈ l, ¬Compared m hdr type y) :
    LookedUp m hdr type s l ⟨none, []⟩ where
  first y hy := absurd hy.admitted.1 (h y hy.mem)
  none _ := rfl
  reads o := by
    constructor
    · simp
    · rintro ⟨y, ⟨before, after, rfl, hy, -⟩, -⟩
      exact absurd hy (h y (List.mem_append_right _ List.mem_cons_self))

theorem LookedUp.skip {hdr : Elf32Obj} {l : List Addr} {x : Addr} {found : Lookup}
    (h : LookedUp m hdr type s l found) (hx : ¬Compared m hdr type x) :
    LookedUp m hdr type s (x :: l) found where
  first y hy := by
    rcases hy.of_cons with ⟨-, hc⟩ | ⟨-, hy⟩
    · exact absurd hc.1 hx
    · exact h.first y hy
  none hnone := h.none fun y hy => hnone y (List.mem_cons_of_mem _ hy)
  reads o := by
    rw [h.reads]
    have hcoded : ¬Coded m hdr type s x := fun hc => hx hc.1
    simp only [tried_cons, hx, hcoded, and_false, not_false_eq_true, true_and, false_or]

theorem lookedUp_found {hdr : Elf32Obj} {l : List Addr} {x : Addr} (hx : Coded m hdr type s x) :
    LookedUp m hdr type s (x :: l) ⟨nonNull x, [symbolName m x]⟩ where
  first y hy := by rw [hy.eq (first_cons_self hx)]
  none hnone := absurd hx (hnone x List.mem_cons_self)
  reads o := by
    simp only [tried_cons, hx, hx.1, and_true, not_true_eq_false, false_and, or_false, exists_eq_left,
      List.mem_singleton]
    exact eq_comm

theorem LookedUp.other {hdr : Elf32Obj} {l : List Addr} {x : Addr} {found : Lookup}
    (h : LookedUp m hdr type s l found) (hx : Compared m hdr type x) (hne : ¬Coded m hdr type s x) :
    LookedUp m hdr type s (x :: l) { found with reads := symbolName m x :: found.reads } where
  first y hy := by
    rcases hy.of_cons with ⟨-, hc⟩ | ⟨-, hy⟩
    · exact absurd hc hne
    · exact h.first y hy
  none hnone := h.none fun y hy => hnone y (List.mem_cons_of_mem _ hy)
  reads o := by
    simp only [List.mem_cons, h.reads, tried_cons, hx, hne, and_true, not_false_eq_true, true_and]
    constructor
    · rintro (rfl | ⟨y, hy, rfl⟩)
      · exact ⟨x, Or.inl rfl, rfl⟩
      · exact ⟨y, Or.inr hy, rfl⟩
    · rintro ⟨y, rfl | hy, rfl⟩
      · exact Or.inl rfl
      · exact Or.inr ⟨y, hy, rfl⟩

/-- A lookup does not look at the bounds of the object. -/
theorem LookedUp.unbounded {hdr : Elf32Obj} {start stop : BitVec 32} {l : List Addr} {found : Lookup}
    (h : LookedUp m { hdr with start := start, stop := stop } type s l found) :
    LookedUp m hdr type s l found :=
  ⟨h.first, h.none, h.reads⟩

theorem lookupSymbolLoop_lookedUp {hdr : Elf32Obj} (hname : CString m name s) (l : List Addr) :
    ∃ found, lookupSymbolLoop m hdr type name l = some found ∧ LookedUp m hdr type s l found := by
  induction l with
  | nil => exact ⟨_, rfl, lookedUp_nothing (by simp)⟩
  | cons x l ih =>
    obtain ⟨found, hloop, hfound⟩ := ih
    by_cases hx : Compared m hdr type x
    · obtain ⟨t, ht⟩ := CString.exists _ hname.nul (hdr.strtabHead + symbolName m x)
      rw [lookupSymbolLoop_compared hname hx ht, hloop]
      by_cases hts : t = s
      · exact ⟨_, if_pos hts, lookedUp_found ⟨hx, hts ▸ ht⟩⟩
      · exact ⟨_, if_neg hts, hfound.other hx fun hc => hts (ht.eq hc.2)⟩
    · rw [lookupSymbolLoop_skip hx]
      exact ⟨found, hloop, hfound.skip hx⟩

/-- With a string to compare with, a lookup ends. An object without sections has no string
table either, so that the tests before the loop change nothing. -/
theorem elfLookupSymbolByName_lookedUp {hdr : Elf32Obj} (type : BitVec 8) (hname : CString m name s)
    (hsec : hdr.sectabSize = 0 → hdr.strtabSize = 0) :
    ∃ found, elfLookupSymbolByName m hdr type name = some found ∧
      LookedUp m hdr type s hdr.symbols found := by
  rw [elfLookupSymbolByName]
  split_ifs with hempty
  · refine ⟨_, rfl, lookedUp_nothing fun y hy hc => ?_⟩
    have hstr : hdr.strtabSize = 0 → False := fun h0 => by
      have hle := hc.2.2
      rw [h0] at hle
      exact hc.2.1 (BitVec.le_zero_iff.mp hle)
    rcases hempty with h | h | h
    · exact hstr (hsec h)
    · simp [Elf32Obj.symbols, entries, h] at hy
    · exact hstr h
  · exact lookupSymbolLoop_lookedUp hname _

/-! ### The load -/

section Load

variable (m : Mem32) (address : Addr)

theorem loadTables_sections : (loadTables m address).sections = imageSections m address := by
  have hnum : ((headerShnum m address).setWidth 32).toNat = (headerShnum m address).toNat := by
    rw [BitVec.toNat_setWidth]
    exact Nat.mod_eq_of_lt ((headerShnum m address).isLt.trans (by decide))
  simp only [Elf32Obj.sections, imageSections, loadTables, hnum]

/-- The sections that `ELFLoad` looks up are those of the object it returns. -/
theorem lookupSection_eq (type : BitVec 8) :
    elfLookupSectionByType m (loadTables m address) type =
      (imageSections m address).find? fun s => sectionType m s = type.setWidth 32 := by
  rw [elfLookupSectionByType, loadTables_sections]

theorem loadTables_strtab :
    (loadTables m address).strtabHead = firstStrtabHead m address ∧
      (loadTables m address).strtabSize = firstStrtabSize m address := by
  have hlookup : elfLookupSectionByType m (loadTables m address) eshtStrtab = firstStrtab m address :=
    lookupSection_eq m address eshtStrtab
  rw [firstStrtabHead, firstStrtabSize, ← hlookup]
  exact ⟨rfl, rfl⟩

theorem loadTables_symbols : (loadTables m address).symbols = foundSymbols m address := by
  have hlookup : elfLookupSectionByType m (loadTables m address) eshtSymtab = symtabSection m address :=
    lookupSection_eq m address eshtSymtab
  have hsymbols : (loadTables m address).symbols =
      entries ((elfLookupSectionByType m (loadTables m address) eshtSymtab).elim 0
        fun s => address + sectionOffset m s) 16
        (sectionSize m ((elfLookupSectionByType m (loadTables m address) eshtSymtab).getD 0) / 16).toNat := rfl
  rw [hsymbols, hlookup, foundSymbols]
  cases hsymtab : symtabSection m address with
  | none => rfl
  | some symtab =>
    rw [imageSymbols, hsymtab]
    rfl

theorem loadTables_noSections (h : (loadTables m address).sectabSize = 0) :
    (loadTables m address).strtabSize = 0 := by
  have hnil : (loadTables m address).sections = [] := by simp [Elf32Obj.sections, entries, h]
  rw [(loadTables_strtab m address).2, firstStrtabSize, firstStrtab, ← loadTables_sections, hnil]
  rfl

theorem compared_eq (type : BitVec 8) : Compared m (loadTables m address) type = InFirst m address type := by
  funext y
  rw [Compared, (loadTables_strtab m address).2, InFirst]

theorem coded_eq (type : BitVec 8) (s : List Byte) :
    Coded m (loadTables m address) type s = NamedInFirst m address type s := by
  funext y
  rw [Coded, compared_eq, (loadTables_strtab m address).1, NamedInFirst]

end Load

/-- With any string in memory the lookups of the bounds end. -/
theorem elfLoad_accepted (moduleStart moduleEnd : Addr) (hname : CString m name s) (h : elf32CheckMagic m address) :
    ∃ start stop, elfLoad m moduleStart moduleEnd address =
      some (some { loadTables m address with start := start, stop := stop }) := by
  obtain ⟨t, ht⟩ := CString.exists _ hname.nul moduleStart
  obtain ⟨u, hu⟩ := CString.exists _ hname.nul moduleEnd
  obtain ⟨startsym, hstart, -⟩ :=
    elfLookupSymbolByName_lookedUp sttNotype ht (loadTables_noSections m address)
  obtain ⟨endsym, hend, -⟩ :=
    elfLookupSymbolByName_lookedUp sttNotype hu (loadTables_noSections m address)
  rw [elfLoad, if_pos h]
  simp only [hstart, hend, Option.bind_eq_bind, Option.bind_some]
  exact ⟨_, _, rfl⟩

/-! ### When the lookup is right -/

/-- The first symbol named in the linked string table is the first one named in the first string
table, and it does not lie at NULL; without one none is named there, but for one at NULL. -/
structure SameFirst (m : Mem32) (address : Addr) (type : BitVec 8) (s : List Byte) : Prop where
  named : ∀ y, First (Named m address type s) (imageSymbols m address) y →
    First (NamedInFirst m address type s) (foundSymbols m address) y ∧ y ≠ 0
  unnamed : (∀ y ∈ imageSymbols m address, ¬Named m address type s y) →
    ∀ y, First (NamedInFirst m address type s) (foundSymbols m address) y → y = 0

theorem nonNull_eq_some {x y : Addr} : nonNull x = some y ↔ x = y ∧ y ≠ 0 := by
  rw [nonNull]
  split_ifs with h
  · simp only [false_iff, not_and, not_not]
    exact fun hxy => hxy ▸ h
  · rw [Option.some.injEq]
    exact ⟨fun hxy => ⟨hxy, hxy ▸ h⟩, And.left⟩

theorem nonNull_eq_none {x : Addr} : nonNull x = none ↔ x = 0 := by
  rw [nonNull]
  split_ifs with h
  · simp [h]
  · simpa using h

theorem LookedUp.nameResult_iff {found : Lookup}
    (h : LookedUp m (loadTables m address) type s (loadTables m address).symbols found) :
    NameResult m address type s found.symbol ↔ SameFirst m address type s := by
  have hfirst := h.first
  have hnothing := h.none
  rw [coded_eq, loadTables_symbols] at hfirst hnothing
  constructor
  · rintro (⟨y, hy, hfound⟩ | ⟨hnone, hfound⟩)
    · refine ⟨fun z hz => ?_, fun hnone => absurd hy.admitted (hnone y hy.mem)⟩
      obtain rfl := hz.eq hy
      by_cases hcoded : ∃ x ∈ foundSymbols m address, NamedInFirst m address type s x
      · obtain ⟨x, hx⟩ := exists_first hcoded
        obtain ⟨rfl, hne⟩ := nonNull_eq_some.mp ((hfirst x hx).symm.trans hfound)
        exact ⟨hx, hne⟩
      · push Not at hcoded
        cases (hnothing hcoded).symm.trans hfound
    · refine ⟨fun y hy => absurd hy.admitted (hnone y hy.mem), fun _ y hy => ?_⟩
      exact nonNull_eq_none.mp ((hfirst y hy).symm.trans hfound)
  · intro hsame
    by_cases hnamed : ∃ y ∈ imageSymbols m address, Named m address type s y
    · obtain ⟨y, hy⟩ := exists_first hnamed
      obtain ⟨hcoded, hne⟩ := hsame.named y hy
      exact Or.inl ⟨y, hy, (hfirst y hcoded).trans (nonNull_eq_some.mpr ⟨rfl, hne⟩)⟩
    · push Not at hnamed
      refine Or.inr ⟨hnamed, ?_⟩
      by_cases hcoded : ∃ x ∈ foundSymbols m address, NamedInFirst m address type s x
      · obtain ⟨x, hx⟩ := exists_first hcoded
        rw [hfirst x hx, nonNull_eq_none]
        exact hsame.unnamed hnamed x hx
      · push Not at hcoded
        exact hnothing hcoded

/-- A lookup reads names at offsets up to the size, and so stays inside the string table unless
a symbol has its name just behind it. -/
theorem LookedUp.reads_iff {hdr : Elf32Obj} {l : List Addr} {found : Lookup}
    (h : LookedUp m hdr type s l found) :
    (∀ o ∈ found.reads, o < hdr.strtabSize) ↔
      ∀ y, Tried m hdr type s l y → symbolName m y ≠ hdr.strtabSize := by
  constructor
  · intro hreads y hy heq
    have hlt := hreads _ ((h.reads _).mpr ⟨y, hy, rfl⟩)
    exact absurd heq (BitVec.ne_of_lt hlt)
  · intro hne o ho
    obtain ⟨y, hy, rfl⟩ := (h.reads o).mp ho
    have hle := hy.compared.2.2
    have hname := hne y hy
    bv_omega

/-- No symbol that the lookup tries has its name just behind the string table. -/
def NoneBehind (m : Mem32) (address : Addr) (type : BitVec 8) (s : List Byte) : Prop :=
  ∀ before y after, foundSymbols m address = before ++ y :: after → InFirst m address type y →
    (∀ z ∈ before, ¬NamedInFirst m address type s z) → symbolName m y ≠ firstStrtabSize m address

theorem LookedUp.inside_iff {found : Lookup}
    (h : LookedUp m (loadTables m address) type s (loadTables m address).symbols found) :
    (∀ o ∈ found.reads, o < (loadTables m address).strtabSize) ↔ NoneBehind m address type s := by
  rw [h.reads_iff, loadTables_symbols, (loadTables_strtab m address).2, NoneBehind]
  simp only [Tried, compared_eq, coded_eq]
  constructor
  · exact fun hne before y after hsplit hy hbefore => hne y ⟨before, after, hsplit, hy, hbefore⟩
  · rintro hne y ⟨before, after, hsplit, hy, hbefore⟩
    exact hne before y after hsplit hy hbefore

/-- What the two string tables have to be for a symbol of the type. An offset that the first one
does not count, 0 or one behind its size, is not one of the name in the linked one; none is the
size; and below it the name is in the one as it is in the other. A symbol at NULL may have it in
the first one only, and counts as none. -/
structure Alike (m : Mem32) (address : Addr) (type : BitVec 8) (s : List Byte) (y : Addr) : Prop where
  passed : symbolName m y = 0 ∨ firstStrtabSize m address < symbolName m y → ¬LinkedName m address s y
  inside : symbolName m y ≠ 0 → symbolName m y ≠ firstStrtabSize m address
  linked : symbolName m y ≠ 0 → symbolName m y < firstStrtabSize m address → LinkedName m address s y →
    CString m (firstStrtabHead m address + symbolName m y) s
  first : symbolName m y ≠ 0 → symbolName m y < firstStrtabSize m address →
    CString m (firstStrtabHead m address + symbolName m y) s →
    LinkedName m address s y ∧ y ≠ 0 ∨ y = 0 ∧ ∀ z ∈ imageSymbols m address, ¬Named m address type s z

/-- The two string tables are alike for every symbol of the type, up to the first one that has the
name in the first table. -/
def TablesServe (m : Mem32) (address : Addr) (type : BitVec 8) (s : List Byte) : Prop :=
  ∀ before y after, foundSymbols m address = before ++ y :: after → sttChecktype m y type →
    (∀ z ∈ before, ¬NamedInFirst m address type s z) → Alike m address type s y

section Serve

theorem mem_foundSymbols {y : Addr} (hy : y ∈ imageSymbols m address) : y ∈ foundSymbols m address := by
  unfold foundSymbols
  unfold imageSymbols at hy ⊢
  cases hsymtab : symtabSection m address with
  | none => simp [hsymtab] at hy
  | some symtab => simpa [hsymtab] using hy

/-- Without a symbol table nothing is named. -/
theorem foundSymbols_of_linked {y : Addr} (hy : LinkedName m address s y) :
    foundSymbols m address = imageSymbols m address := by
  obtain ⟨symtab, -, hsymtab, -⟩ := hy
  rw [foundSymbols, hsymtab]
  rfl

/-- A symbol of the type that is not of the name in the first table is not in the linked one. -/
theorem Alike.not_linked {y : Addr} (h : Alike m address type s y) (htype : sttChecktype m y type)
    (hnot : ¬NamedInFirst m address type s y) : ¬LinkedName m address s y := by
  by_cases hzero : symbolName m y = 0
  · exact h.passed (.inl hzero)
  by_cases hlt : symbolName m y < firstStrtabSize m address
  · exact fun hlinked => hnot ⟨⟨htype, hzero, BitVec.le_of_lt hlt⟩, h.linked hzero hlt hlinked⟩
  · have hne := h.inside hzero
    exact h.passed (.inr (by bv_omega))

theorem Alike.of_named {y : Addr} (h : Alike m address type s y) (hy : NamedInFirst m address type s y) :
    LinkedName m address s y ∧ y ≠ 0 ∨ y = 0 ∧ ∀ z ∈ imageSymbols m address, ¬Named m address type s z := by
  obtain ⟨⟨-, hzero, hle⟩, hstring⟩ := hy
  have hne := h.inside hzero
  exact h.first hzero (by bv_omega) hstring

theorem TablesServe.sameFirst (h : TablesServe m address type s) : SameFirst m address type s := by
  by_cases hcoded : ∃ y ∈ foundSymbols m address, NamedInFirst m address type s y
  · obtain ⟨x, hx⟩ := exists_first hcoded
    obtain ⟨before, after, hsplit, hbefore⟩ := hx.first
    rcases (h before x after hsplit hx.admitted.1.1 hbefore).of_named hx.admitted with ⟨hlinked, hne⟩ | ⟨rfl, hnone⟩
    · -- the symbols before are named in neither table
      have hfirst : First (Named m address type s) (imageSymbols m address) x := by
        rw [← foundSymbols_of_linked hlinked]
        refine ⟨⟨hx.admitted.1.1, hlinked⟩, before, after, hsplit, fun z hz hnamed => ?_⟩
        obtain ⟨before', after', rfl⟩ := List.append_of_mem hz
        refine (h before' z (after' ++ x :: after) (by simp [hsplit]) hnamed.1 fun w hw => ?_).not_linked hnamed.1
          (hbefore z hz) hnamed.2
        exact hbefore w (List.mem_append_left _ hw)
      refine ⟨fun y hy => ?_, fun hnone => absurd hfirst.admitted (hnone x hfirst.mem)⟩
      obtain rfl := hfirst.eq hy
      exact ⟨hx, hne⟩
    · exact ⟨fun y hy => absurd hy.admitted (hnone y hy.mem), fun _ y hy => hy.eq hx⟩
  · push Not at hcoded
    refine ⟨fun y hy => ?_, fun _ y hy => absurd hy.admitted (hcoded y hy.mem)⟩
    have hmem := mem_foundSymbols hy.mem
    obtain ⟨before, after, hsplit⟩ := List.append_of_mem hmem
    have hbefore : ∀ z ∈ before, ¬NamedInFirst m address type s z := fun z hz =>
      hcoded z (hsplit ▸ List.mem_append_left _ hz)
    exact absurd hy.admitted.2
      ((h before y after hsplit hy.admitted.1 hbefore).not_linked hy.admitted.1 (hcoded y hmem))

theorem TablesServe.noneBehind (h : TablesServe m address type s) : NoneBehind m address type s :=
  fun before y after hsplit hy hbefore => (h before y after hsplit hy.1 hbefore).inside hy.2.1

theorem SameFirst.not_linked (h : SameFirst m address type s) {before after : List Addr} {y : Addr}
    (hsplit : foundSymbols m address = before ++ y :: after) (htype : sttChecktype m y type)
    (hbefore : ∀ z ∈ before, ¬NamedInFirst m address type s z) (hnot : ¬NamedInFirst m address type s y) :
    ¬LinkedName m address s y := by
  intro hlinked
  obtain ⟨w, hw⟩ := exists_first (l := before ++ [y]) (p := Named m address type s) ⟨y, by simp, htype, hlinked⟩
  have hall := hw.append after
  rw [List.append_assoc, List.singleton_append, ← hsplit, foundSymbols_of_linked hlinked] at hall
  obtain ⟨hcoded, -⟩ := h.named w hall
  rcases List.mem_append.mp hw.mem with hmem | hmem
  · exact hbefore w hmem hcoded.admitted
  · exact hnot (List.mem_singleton.mp hmem ▸ hcoded.admitted)

theorem SameFirst.serve (h : SameFirst m address type s) (hbehind : NoneBehind m address type s) :
    TablesServe m address type s := by
  intro before y after hsplit htype hbefore
  refine ⟨fun hpassed => ?_, fun hzero heq => ?_, fun hzero hlt hlinked => ?_, fun hzero hlt hstring => ?_⟩
  · refine h.not_linked hsplit htype hbefore fun hy => ?_
    rcases hpassed with hzero | hgt
    · exact hy.1.2.1 hzero
    · exact BitVec.not_le.mpr hgt hy.1.2.2
  · exact hbehind before y after hsplit ⟨htype, hzero, BitVec.le_of_eq heq⟩ hbefore heq
  · by_contra hstring
    exact h.not_linked hsplit htype hbefore (fun hy => hstring hy.2) hlinked
  · have hy : First (NamedInFirst m address type s) (foundSymbols m address) y :=
      ⟨⟨⟨htype, hzero, BitVec.le_of_lt hlt⟩, hstring⟩, before, after, hsplit, hbefore⟩
    by_cases hnamed : ∃ z ∈ imageSymbols m address, Named m address type s z
    · obtain ⟨w, hw⟩ := exists_first hnamed
      obtain ⟨hcoded, hne⟩ := h.named w hw
      obtain rfl := hcoded.eq hy
      exact .inl ⟨hw.admitted.2, hne⟩
    · push Not at hnamed
      exact .inr ⟨h.unnamed hnamed y hy, hnamed⟩

/-- A linker's usual output: the first string table is the linked one, all names have their offsets
in it, and no symbol is at NULL or named at the offset 0. -/
theorem tablesServe_of_linked {symtab strtab : Addr} (hsymtab : symtabSection m address = some symtab)
    (hlink : (imageSections m address)[(sectionLink m symtab).toNat]? = some strtab)
    (hfirst : firstStrtab m address = some strtab)
    (hoffset : ∀ y ∈ imageSymbols m address, symbolName m y < sectionSize m strtab)
    (hnull : (0 : Addr) ∉ imageSymbols m address)
    (hempty : ¬CString m (address + sectionOffset m strtab) s) : TablesServe m address type s := by
  have hhead : firstStrtabHead m address = address + sectionOffset m strtab := by rw [firstStrtabHead, hfirst]; rfl
  have hsize : firstStrtabSize m address = sectionSize m strtab := by rw [firstStrtabSize, hfirst]; rfl
  have hlinked : ∀ y ∈ imageSymbols m address,
      (LinkedName m address s y ↔ CString m (firstStrtabHead m address + symbolName m y) s) := by
    intro y hy
    rw [hhead]
    constructor
    · rintro ⟨symtab', strtab', hsymtab', hlink', -, hstring⟩
      obtain rfl := Option.some.inj (hsymtab.symm.trans hsymtab')
      obtain rfl := Option.some.inj (hlink.symm.trans hlink')
      exact hstring
    · exact fun hstring => ⟨symtab, strtab, hsymtab, hlink, hoffset y hy, hstring⟩
  have hsymbols : foundSymbols m address = imageSymbols m address := by rw [foundSymbols, hsymtab]; rfl
  intro before y after hsplit htype hbefore
  have hy : y ∈ imageSymbols m address := hsymbols ▸ hsplit ▸ List.mem_append_right _ List.mem_cons_self
  have hin := hoffset y hy
  refine ⟨fun hpassed => ?_, fun _ => ?_, fun _ _ => (hlinked y hy).mp, fun _ _ hstring => ?_⟩
  · rcases hpassed with hzero | hgt
    · rwa [hlinked y hy, hhead, hzero, show address + sectionOffset m strtab + 0 = address + sectionOffset m strtab
        from BitVec.add_zero _]
    · rw [hsize] at hgt
      exact absurd hin (BitVec.not_lt.mpr (BitVec.le_of_lt hgt))
  · rw [hsize]
    exact BitVec.ne_of_lt hin
  · exact .inl ⟨(hlinked y hy).mpr hstring, fun hzero => hnull (hzero ▸ hy)⟩

end Serve

theorem elfLookupSymbolByName_correct_iff (hname : CString m name s) :
    LookupCorrect m address moduleStart moduleEnd type name s ↔
      (headerMagic m address = elfMagic → TablesServe m address type s) ∧
      (headerMagic m address ≠ elfMagic → headerMagic m address &&& elfMagic ≠ elfMagic) := by
  refine and_congr ?_ ?_
  · refine forall_congr' fun hmagic => ?_
    have hcheck : elf32CheckMagic m address := by simp [elf32CheckMagic, hmagic]
    obtain ⟨start, stop, hload⟩ := elfLoad_accepted moduleStart moduleEnd hname hcheck
    have hsec : ({ loadTables m address with start := start, stop := stop } : Elf32Obj).sectabSize = 0 →
        ({ loadTables m address with start := start, stop := stop } : Elf32Obj).strtabSize = 0 :=
      loadTables_noSections m address
    obtain ⟨found, hlookup, hbounded⟩ := elfLookupSymbolByName_lookedUp type hname hsec
    have hfound := hbounded.unbounded
    constructor
    · rintro ⟨hdr, found', hload', hlookup', hresult, hreads⟩
      obtain rfl := Option.some.inj (Option.some.inj (hload.symm.trans hload'))
      obtain rfl := Option.some.inj (hlookup.symm.trans hlookup')
      exact (hfound.nameResult_iff.mp hresult).serve (hfound.inside_iff.mp hreads)
    · intro hserve
      exact ⟨_, found, hload, hlookup, hfound.nameResult_iff.mpr hserve.sameFirst,
        hfound.inside_iff.mpr hserve.noneBehind⟩
  · refine forall_congr' fun _ => ?_
    rw [elfLoad]
    split_ifs with hcheck
    · obtain ⟨start, stop, hload⟩ := elfLoad_accepted moduleStart moduleEnd hname hcheck
      rw [elfLoad, if_pos hcheck] at hload
      rw [hload]
      simpa [elf32CheckMagic] using hcheck
    · simpa [elf32CheckMagic] using hcheck

/-- The bytes other than zero of an image at `0x1000` with a symbol table of three symbols, the last
two of them functions, and its string table of the names `a` and `b`, and of the string `b`. -/
def linkedBytes : List (Addr × Byte) :=
  [(0x1000, 0x7F), (0x1001, 0x45), (0x1002, 0x4C), (0x1003, 0x46), (0x1020, 0x40), (0x1030, 3),
    (0x106C, 2), (0x1079, 1), (0x107C, 48), (0x1080, 2), (0x1094, 3), (0x10A0, 0x80), (0x10A1, 1), (0x10A4, 5),
    (0x1110, 1), (0x111C, 2), (0x1120, 3), (0x112C, 2), (0x1181, 0x61), (0x1183, 0x62), (0x3000, 0x62)]

def linkedImage : Mem32 := fun a => (linkedBytes.lookup a).getD 0

/-- The second function is found by its name. -/
theorem elfLookupSymbolByName_correct_linkedImage :
    LookupCorrect linkedImage 0x1000 0 0 sttFunc 0x3000 [0x62] ∧
      First (Named linkedImage 0x1000 sttFunc [0x62]) (imageSymbols linkedImage 0x1000) 0x1120 := by
  have hsymtab : symtabSection linkedImage 0x1000 = some 0x1068 := by decide
  have hlink : (imageSections linkedImage 0x1000)[(sectionLink linkedImage 0x1068).toNat]? = some 0x1090 := by decide
  have hsymbols : imageSymbols linkedImage 0x1000 = [0x1100, 0x1110, 0x1120] := by decide
  have hname : CString linkedImage 0x3000 [0x62] := ⟨by decide, by decide, rfl⟩
  have hmagic : headerMagic linkedImage 0x1000 = elfMagic := by decide
  have hoffset : ∀ y ∈ imageSymbols linkedImage 0x1000, symbolName linkedImage y < sectionSize linkedImage 0x1090 := by
    intro y hy
    simp only [hsymbols, List.mem_cons, List.not_mem_nil, or_false] at hy
    rcases hy with rfl | rfl | rfl <;> decide
  refine ⟨(elfLookupSymbolByName_correct_iff hname).mpr ⟨fun _ => ?_, fun h => absurd hmagic h⟩, ?_⟩
  · refine tablesServe_of_linked hsymtab hlink (by decide) hoffset (by rw [hsymbols]; decide) ?_
    exact fun hempty => absurd hempty.1 (by decide)
  · refine ⟨⟨by decide, 0x1068, 0x1090, hsymtab, hlink, by decide, by decide, by decide, rfl⟩,
      [0x1100, 0x1110], [], hsymbols, ?_⟩
    rintro y hy ⟨htype, symtab, strtab, hsymtab', hlink', -, hstring⟩
    obtain rfl := Option.some.inj (hsymtab.symm.trans hsymtab')
    obtain rfl := Option.some.inj (hlink.symm.trans hlink')
    simp only [List.mem_cons, List.not_mem_nil, or_false] at hy
    rcases hy with rfl | rfl
    · exact absurd htype (by decide)
    · exact absurd hstring.1 (by decide)

/-- A header of zeros but for a magic that ends in `b`. -/
def headerOnly (b : Byte) : Mem32 := fun a =>
  if a = 0x1000 then b else if a = 0x1001 then 0x45 else if a = 0x1002 then 0x4C
  else if a = 0x1003 then 0x46 else 0

/-- The magic `FF 45 4C 46` passes the mask. -/
theorem not_lookupCorrect_superset : ¬LookupCorrect (headerOnly 0xFF) 0x1000 0 0 sttFunc 0 [] := by
  rintro ⟨-, hreject⟩
  have hload : elfLoad (headerOnly 0xFF) 0 0 0x1000 ≠ some none := by decide
  exact hload (hreject (by decide))

/-! ### The nearest symbol -/

/-- What `ELFFindNearestSymbolByAddress` should return: the earliest symbol of the type among
those of the greatest value up to the address. -/
def NearestResult (m : Mem32) (hdr : Elf32Obj) (type : BitVec 8) (address : BitVec 32)
    (symbol : Option Addr) : Prop :=
  Best (fun y => sttChecktype m y type ∧ symbolValue m y ≤ address)
    (fun y => OrderDual.toDual (symbolValue m y).toNat) hdr.symbols symbol

/-- The distance from a symbol up to the address, around the address space. -/
def distance (m : Mem32) (address : BitVec 32) (y : Addr) : ℕ := (address - symbolValue m y).toNat

theorem nearestSymbolLoop_best {l rest : List Addr} {nearest : Option Addr}
    (h : Best (fun y => sttChecktype m y type) (distance m address) l nearest) :
    Best (fun y => sttChecktype m y type) (distance m address) (l ++ rest)
      (nearestSymbolLoop m type address rest nearest) := by
  induction rest generalizing l nearest with
  | nil => rwa [List.append_nil]
  | cons y rest ih =>
    rw [List.append_cons, nearestSymbolLoop]
    by_cases htype : sttChecktype m y type
    · rw [if_neg (not_not.mpr htype)]
      refine ih ?_
      cases nearest with
      | none =>
        rw [Option.getD_none, ite_self]
        exact h.replace htype fun b hb => by cases hb
      | some b =>
        split_ifs with hlt
        · exact h.replace htype fun c hc => Option.some.inj hc ▸ hlt
        · exact h.keep (Nat.le_of_not_lt hlt)
    · rw [if_pos htype]
      exact ih (h.skip htype)

/-- Every symbol up to the address is nearer than any symbol above it. -/
theorem le_of_distance_le {y z : Addr} (hy : symbolValue m y ≤ address)
    (h : distance m address z ≤ distance m address y) : symbolValue m z ≤ address := by
  unfold distance at h
  bv_omega

theorem distance_le_iff {y z : Addr} (hy : symbolValue m y ≤ address) (hz : symbolValue m z ≤ address) :
    distance m address y ≤ distance m address z ↔ symbolValue m z ≤ symbolValue m y := by
  unfold distance
  bv_omega

/-- Between the bounds only the number of sections matters before the loop. -/
theorem elfFindNearestSymbolByAddress_eq {hdr : Elf32Obj} (hstart : hdr.start ≤ address)
    (hstop : address ≤ hdr.stop) :
    elfFindNearestSymbolByAddress m hdr type address =
      if hdr.sectabSize = 0 then none else nearestSymbolLoop m type address hdr.symbols none := by
  have hlow : ¬address < hdr.start := BitVec.not_lt.mpr hstart
  have hhigh : ¬address > hdr.stop := BitVec.not_lt.mpr hstop
  simp only [elfFindNearestSymbolByAddress, hlow, hhigh, or_false]
  by_cases hsym : hdr.symtabSize = 0
  · have hnil : hdr.symbols = [] := by simp [Elf32Obj.symbols, entries, hsym]
    simp [hsym, hnil, nearestSymbolLoop]
  · simp only [hsym, or_false]

/-- The result is right unless there are symbols of the type and all of them lie above the
address, or an object without sections has one up to the address. -/
theorem elfFindNearestSymbolByAddress_iff {hdr : Elf32Obj} (hstart : hdr.start ≤ address)
    (hstop : address ≤ hdr.stop) :
    NearestResult m hdr type address (elfFindNearestSymbolByAddress m hdr type address) ↔
      ((∃ y ∈ hdr.symbols, sttChecktype m y type) ∧ hdr.sectabSize ≠ 0 ↔
        ∃ y ∈ hdr.symbols, sttChecktype m y type ∧ symbolValue m y ≤ address) := by
  rw [elfFindNearestSymbolByAddress_eq hstart hstop]
  split_ifs with hsec
  · -- nothing is returned, whatever the table holds
    simp only [hsec, ne_eq, not_true_eq_false, and_false, false_iff, not_exists, not_and]
    exact ⟨fun h y hy htype hle => h.none_iff.mp rfl y hy ⟨htype, hle⟩,
      fun h => ⟨⟨fun _ y hy hq => h y hy hq.1 hq.2, fun _ => rfl⟩, fun _ hy => by cases hy⟩⟩
  · have hbest : Best (fun y => sttChecktype m y type) (distance m address) hdr.symbols
        (nearestSymbolLoop m type address hdr.symbols none) := nearestSymbolLoop_best best_nil
    simp only [ne_eq, hsec, not_false_eq_true, and_true]
    constructor
    · refine fun h => ⟨fun ⟨y, hy, htype⟩ => ?_, fun ⟨y, hy, htype, _⟩ => ⟨y, hy, htype⟩⟩
      by_contra hnone
      push Not at hnone
      have hresult := h.none_iff.mpr fun z hz hq => hnone z hz hq.1 hq.2
      exact hbest.none_iff.mp hresult y hy htype
    · intro hsome
      refine hbest.narrow (fun _ h => h.1) hsome.mp ?_ ?_
      · exact fun a b ha hb hle => ⟨hb, le_of_distance_le ha.2 hle⟩
      · exact fun a b ha hb => (distance_le_iff ha.2 hb.2).symm

/-- A table of six symbols: one without a type, functions at `0x40`, `0x10` and twice at `0x20`,
and an object at `0x28`. -/
def sixSymbols : Mem32 := fun a =>
  (([(0x1014, 0x40), (0x101C, 2), (0x1024, 0x10), (0x102C, 2), (0x1034, 0x20), (0x103C, 2), (0x1044, 0x20),
    (0x104C, 2), (0x1054, 0x28), (0x105C, 1)] : List (Addr × Byte)).lookup a).getD 0

def sixObj : Elf32Obj := ⟨0, 0x2000, 1, 0, 0, 0x1000, 6, 0, 0, 0, 0, 0xFFFFFFFF⟩

/-- The first of the two functions at `0x20` is the nearest one to `0x30`. -/
theorem elfFindNearestSymbolByAddress_six :
    NearestResult sixSymbols sixObj sttFunc 0x30 (elfFindNearestSymbolByAddress sixSymbols sixObj sttFunc 0x30) ∧
      elfFindNearestSymbolByAddress sixSymbols sixObj sttFunc 0x30 = some 0x1030 :=
  ⟨(elfFindNearestSymbolByAddress_iff (by decide) (by decide)).mpr
    ⟨fun _ => ⟨0x1030, by decide⟩, fun _ => ⟨⟨0x1030, by decide⟩, by decide⟩⟩, by decide⟩

/-- A table of one function, at `value`. -/
def oneFunction (value : Byte) : Mem32 := fun a => if a = 0x1004 then value else if a = 0x100C then 2 else 0

def oneSymbol : Elf32Obj := ⟨0, 0x2000, 1, 0, 0, 0x1000, 1, 0, 0, 0, 0, 0xFFFFFFFF⟩

theorem not_nearestResult_above :
    ¬NearestResult (oneFunction 0x20) oneSymbol sttFunc 0x10
      (elfFindNearestSymbolByAddress (oneFunction 0x20) oneSymbol sttFunc 0x10) := by
  intro h
  have hresult : elfFindNearestSymbolByAddress (oneFunction 0x20) oneSymbol sttFunc 0x10 = some 0x1000 := by decide
  exact absurd (h.least _ hresult).admitted.2 (by decide)

end JustKernel.Elf32
