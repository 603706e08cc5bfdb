import JustKernel.Klibc.BoundedCopy
import JustKernel.Klibc.String

/-! The name of a process, `proc_alloc` of `proc/proc.c`. It is the first field of `process_t`, 64
bytes long, and `cr3` comes right behind it. `strncpy` with the size of the field as its bound stores
to the first byte of `cr3` when the name has 63 characters or more. -/

namespace JustKernel.Proc

open AddressSpace Klibc
open Memory (Byte)

/-- `sizeof(process_t)`: the name, `cr3`, `ring` with its padding, `heap`, `elf_obj` and two links. -/
def processSize : ℕ := 64 + 4 + 4 + 4 + 4 + 8 + 8

/-- The size of `process_t.name`. -/
def nameSize : BitVec 32 := 64

/-- What `proc_alloc` does for the name of a process that `kmalloc` has placed at `proc`. -/
def procAllocName (m : Mem32) (proc name : Addr) : Option Traced :=
  strncpy (memset m proc 0 processSize) name proc nameSize

/-- The copy of the name stores to the field only. -/
def NameKept (m : Mem32) (proc name : Addr) : Prop :=
  ∃ t, procAllocName m proc name = some t ∧ ∀ a ∈ t.writes, (a - proc).toNat < nameSize.toNat

variable {m : Mem32} {proc name : Addr} {s : List Byte}

theorem nameKept_iff (hname : CString (memset m proc 0 processSize) name s) :
    NameKept m proc name ↔ s.length + 1 < 64 ∨ s.length + 1 = 2 ^ 32 := by
  have hlen := hname.length_lt
  rw [NameKept, procAllocName, writes_bounded_iff hname, copyLength, show nameSize.toNat = 64 from rfl]
  omega

/-- `strncpy` is a bounded copy exactly if the string fits with a byte to spare and is not overwritten
before it is read, and `proc_alloc` keeps to the name field exactly for names of up to 62 characters. -/
theorem strncpy_procAlloc_iff (m : Mem32) :
    (∀ src dst max s, CString m src s → 1 ≤ max →
      (BoundedCopy m src dst max s ↔ CopyFits src dst max s)) ∧
    ∀ proc name s, CString (memset m proc 0 processSize) name s →
      (NameKept m proc name ↔ s.length + 1 < 64 ∨ s.length + 1 = 2 ^ 32) :=
  ⟨fun _ _ _ _ hs hmax => boundedCopy_iff hs hmax, fun _ _ _ hname => nameKept_iff hname⟩

/-- A memory with a name at `0x2000`. -/
def named (text : List Byte) : Mem32 := put (fun _ => 0) 0x2000 (text ++ [0])

theorem cstring_named (text : List Byte) (hzero : 0 ∉ text) (hlen : text.length < 100) :
    CString (named text) 0x2000 text ∧ CString (memset (named text) 0x1000 0 processSize) 0x2000 text := by
  have hstr : CString (named text) 0x2000 text := cstring_put hzero (by omega)
  refine ⟨hstr, cstring_iff.mpr ⟨hzero, fun i hi => ?_⟩⟩
  have hout : ∀ i < 100, ¬(0x2000 + BitVec.ofNat 32 i - 0x1000 : Addr).toNat < processSize := by decide
  rw [memset_apply (by decide), if_neg (hout i (by omega))]
  exact (cstring_iff.mp hstr).2 i hi

/-- The name of the process for virtual-8086 tasks. -/
def v86Name : List Byte := ['_', 'v', '8', '6'].map chr

theorem strncpy_procAlloc_v86 :
    BoundedCopy (named v86Name) 0x2000 0x1000 64 v86Name ∧ NameKept (named v86Name) 0x1000 0x2000 := by
  obtain ⟨hstr, hname⟩ := cstring_named v86Name (by decide) (by decide)
  obtain ⟨hcopy, hkept⟩ := strncpy_procAlloc_iff (named v86Name)
  exact ⟨(hcopy _ _ _ _ hstr (by decide)).mpr (Or.inl ⟨by decide, Or.inr (by decide)⟩),
    (hkept _ _ _ hname).mpr (Or.inl (by decide))⟩

/-- A name of 63 characters. -/
def fullName : List Byte := List.replicate 63 (chr 'a')

theorem not_boundedCopy_fullName :
    CString (named fullName) 0x2000 fullName ∧ ¬BoundedCopy (named fullName) 0x2000 0x1000 64 fullName ∧
      ¬NameKept (named fullName) 0x1000 0x2000 := by
  obtain ⟨hstr, hname⟩ := cstring_named fullName (by decide) (by decide)
  refine ⟨hstr, ?_, ?_⟩
  · rw [boundedCopy_iff hstr (by decide)]
    rintro (⟨hlen, -⟩ | ⟨hlen, -⟩)
    · exact absurd hlen (by decide)
    · exact absurd hlen (by decide)
  · rw [nameKept_iff hname]
    rintro (hlen | hlen)
    · exact absurd hlen (by decide)
    · exact absurd hlen (by decide)

end JustKernel.Proc
