import JustKernel.Klibc.CString

/-! The reader of ELF images, `fs/elf/elf.c`. An image lies in memory at the address of its
header, and the object that `ELFLoad` fills in holds the addresses of its tables. A pointer
that may be NULL is an option, and in the fields of the object the address 0. A lookup by name
calls `strcmp`, which need not end, and it notes the offsets in the string table at which it
has started to read a name. -/

namespace JustKernel.Elf32

open AddressSpace Klibc
open Memory (Byte)

def elfMagic : BitVec 32 := 0x464C457F

def eshtSymtab : BitVec 8 := 2

def eshtStrtab : BitVec 8 := 3

def sttNotype : BitVec 8 := 0

def sttFunc : BitVec 8 := 2

/-- `ELF32Obj_t` with the tables of `ELF32SectionObj_t`; `stop` is the field `end`. -/
structure Elf32Obj where
  header : Addr
  sectabHead : Addr
  sectabSize : BitVec 32
  progtabHead : Addr
  progtabSize : BitVec 32
  symtabHead : Addr
  symtabSize : BitVec 32
  strtabHead : Addr
  strtabSize : BitVec 32
  hstrtabHead : Addr
  start : BitVec 32
  stop : BitVec 32
  deriving DecidableEq

section Fields

variable (m : Mem32)

/-! The fields of `ELF32Header_t`. -/

def headerMagic (h : Addr) : BitVec 32 := read32 m h

def headerPhoff (h : Addr) : BitVec 32 := read32 m (h + 28)

def headerShoff (h : Addr) : BitVec 32 := read32 m (h + 32)

def headerPhnum (h : Addr) : BitVec 16 := read16 m (h + 44)

def headerShnum (h : Addr) : BitVec 16 := read16 m (h + 48)

def headerShstrndx (h : Addr) : BitVec 16 := read16 m (h + 50)

/-! The fields of `ELF32SectionHeader_t`, which takes 40 bytes. -/

def sectionType (s : Addr) : BitVec 32 := read32 m (s + 4)

def sectionOffset (s : Addr) : BitVec 32 := read32 m (s + 16)

def sectionSize (s : Addr) : BitVec 32 := read32 m (s + 20)

def sectionLink (s : Addr) : BitVec 32 := read32 m (s + 24)

/-! The fields of `ELF32Symbol_t`, which takes 16 bytes. -/

def symbolName (y : Addr) : BitVec 32 := read32 m y

def symbolValue (y : Addr) : BitVec 32 := read32 m (y + 4)

/-- `STT_CHECKTYPE`. -/
def sttChecktype (y : Addr) (type : BitVec 8) : Prop := m (y + 12) &&& 0xF = type

instance (y : Addr) (type : BitVec 8) : Decidable (sttChecktype m y type) :=
  inferInstanceAs (Decidable (_ = _))

end Fields

/-- The addresses of the entries of a table, in order. -/
def entries (head : Addr) (size : ℕ) (count : ℕ) : List Addr := (List.range count).map (entry head size)

def Elf32Obj.sections (hdr : Elf32Obj) : List Addr := entries hdr.sectabHead 40 hdr.sectabSize.toNat

def Elf32Obj.symbols (hdr : Elf32Obj) : List Addr := entries hdr.symtabHead 16 hdr.symtabSize.toNat

def elf32CheckMagic (m : Mem32) (hdr : Addr) : Bool := headerMagic m hdr &&& elfMagic == elfMagic

def elfLookupSectionByType (m : Mem32) (hdr : Elf32Obj) (type : BitVec 8) : Option Addr :=
  hdr.sections.find? fun s => sectionType m s = type.setWidth 32

/-- What a lookup by name has returned, and the offsets at which it has read names. -/
structure Lookup where
  symbol : Option Addr
  reads : List (BitVec 32)
  deriving DecidableEq

/-- The address 0 is NULL. -/
def nonNull (p : Addr) : Option Addr := if p = 0 then none else some p

/-- The loop of `ELFLookupSymbolByName` over the symbols. -/
def lookupSymbolLoop (m : Mem32) (hdr : Elf32Obj) (type : BitVec 8) (name : Addr) :
    List Addr → Option Lookup
  | [] => some ⟨none, []⟩
  | symbol :: rest =>
    if ¬sttChecktype m symbol type then lookupSymbolLoop m hdr type name rest
    else if symbolName m symbol = 0 then lookupSymbolLoop m hdr type name rest
    else if symbolName m symbol > hdr.strtabSize then lookupSymbolLoop m hdr type name rest
    else do
      let cmp ← strcmp m (hdr.strtabHead + symbolName m symbol) name
      if cmp = 0 then some ⟨nonNull symbol, [symbolName m symbol]⟩
      else
        let found ← lookupSymbolLoop m hdr type name rest
        some { found with reads := symbolName m symbol :: found.reads }

def elfLookupSymbolByName (m : Mem32) (hdr : Elf32Obj) (type : BitVec 8) (name : Addr) : Option Lookup :=
  if hdr.sectabSize = 0 ∨ hdr.symtabSize = 0 ∨ hdr.strtabSize = 0 then some ⟨none, []⟩
  else lookupSymbolLoop m hdr type name hdr.symbols

/-- The loop of `ELFFindNearestSymbolByAddress` over the symbols. The second test compares with
`nearest` as the first one has left it. No symbol lies at NULL, so that `!nearest` holds only as
long as there was none. -/
def nearestSymbolLoop (m : Mem32) (type : BitVec 8) (address : BitVec 32) :
    List Addr → Option Addr → Option Addr
  | [], nearest => nearest
  | symbol :: rest, nearest =>
    if ¬sttChecktype m symbol type then nearestSymbolLoop m type address rest nearest
    else
      let nearest := nearest.getD symbol
      nearestSymbolLoop m type address rest
        (if address - symbolValue m symbol < address - symbolValue m nearest then some symbol else some nearest)

def elfFindNearestSymbolByAddress (m : Mem32) (hdr : Elf32Obj) (type : BitVec 8) (address : BitVec 32) :
    Option Addr :=
  if hdr.sectabSize = 0 ∨ hdr.symtabSize = 0 ∨ address < hdr.start ∨ address > hdr.stop then none
  else nearestSymbolLoop m type address hdr.symbols none

/-- The object before `ELFLoad` looks up its bounds. Without a symbol table the size comes from
the section header at NULL. -/
def loadTables (m : Mem32) (address : Addr) : Elf32Obj :=
  let sectabHead := address + headerShoff m address
  let out : Elf32Obj :=
    { header := address
      sectabHead := sectabHead
      sectabSize := (headerShnum m address).setWidth 32
      progtabHead := address + headerPhoff m address
      progtabSize := (headerPhnum m address).setWidth 32
      symtabHead := 0
      symtabSize := 0
      strtabHead := 0
      strtabSize := 0
      hstrtabHead := address + sectionOffset m (entry sectabHead 40 (headerShstrndx m address).toNat)
      start := 0
      stop := 0 }
  let symtab := elfLookupSectionByType m out eshtSymtab
  let strtab := elfLookupSectionByType m out eshtStrtab
  { out with
    symtabHead := symtab.elim 0 fun s => address + sectionOffset m s
    symtabSize := sectionSize m (symtab.getD 0) / 16
    strtabHead := strtab.elim 0 fun s => address + sectionOffset m s
    strtabSize := strtab.elim 0 fun s => sectionSize m s }

/-- `ELFLoad`: nothing if the image is rejected, or else the object. The two literals lie in
memory at `moduleStart` and `moduleEnd`. -/
def elfLoad (m : Mem32) (moduleStart moduleEnd address : Addr) : Option (Option Elf32Obj) :=
  if elf32CheckMagic m address then do
    let out := loadTables m address
    let startsym ← elfLookupSymbolByName m out sttNotype moduleStart
    let endsym ← elfLookupSymbolByName m out sttNotype moduleEnd
    some (some
      { out with
        start := startsym.symbol.elim 0 (symbolValue m)
        stop := endsym.symbol.elim 0 (symbolValue m) })
  else some none

/-! ### What a lookup compares -/

section Lookup

variable {m : Mem32} {hdr : Elf32Obj} {type : BitVec 8} {name symbol : Addr} {rest : List Addr} {s : List Byte}

/-- A symbol whose name a lookup compares: one of the type, with its name in the string table
of the object at an offset from 1 to the size. -/
def Compared (m : Mem32) (hdr : Elf32Obj) (type : BitVec 8) (symbol : Addr) : Prop :=
  sttChecktype m symbol type ∧ symbolName m symbol ≠ 0 ∧ symbolName m symbol ≤ hdr.strtabSize

/-- A symbol that a lookup stops at. -/
def Coded (m : Mem32) (hdr : Elf32Obj) (type : BitVec 8) (s : List Byte) (symbol : Addr) : Prop :=
  Compared m hdr type symbol ∧ CString m (hdr.strtabHead + symbolName m symbol) s

theorem lookupSymbolLoop_skip (h : ¬Compared m hdr type symbol) :
    lookupSymbolLoop m hdr type name (symbol :: rest) = lookupSymbolLoop m hdr type name rest := by
  rw [lookupSymbolLoop]
  split_ifs with htype hzero hsize
  · rfl
  · rfl
  · exact absurd ⟨htype, hzero, BitVec.not_lt.mp hsize⟩ h
  · rfl

theorem lookupSymbolLoop_compared (hname : CString m name s) (h : Compared m hdr type symbol)
    {t : List Byte} (ht : CString m (hdr.strtabHead + symbolName m symbol) t) :
    lookupSymbolLoop m hdr type name (symbol :: rest) =
      if t = s then some ⟨nonNull symbol, [symbolName m symbol]⟩
      else (lookupSymbolLoop m hdr type name rest).map fun found =>
        { found with reads := symbolName m symbol :: found.reads } := by
  obtain ⟨htype, hzero, hsize⟩ := h
  rw [lookupSymbolLoop, if_neg (not_not.mpr htype), if_neg hzero, if_neg (BitVec.not_lt.mpr hsize),
    strcmp_eq ht hname]
  by_cases hts : t = s
  · simp [hts]
  · simp only [hts, if_false, Option.bind_eq_bind, Option.bind_some, one_ne_zero]
    rw [Option.map_eq_bind]
    rfl

end Lookup

end JustKernel.Elf32
