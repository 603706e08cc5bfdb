import JustKernel.Proc.V86
import Mathlib.Tactic.IntervalCases

/-! System calls, `proc/syscalls.c` and the stubs of `proc/syscalls_asm.s`. The array
`syscalls` holds the addresses of the functions, and a zero where there is none. A stub
loads the number and the arguments from its stack into registers and raises interrupt
`0x80`; the handler fetches the word of the number and calls it with the registers pushed
as arguments. `syscalls_set` refuses numbers from 256 on. The handler has no such test, so
a larger number makes it call whatever word the index leads to. -/

namespace JustKernel.Syscalls

open Memory
open V86 (CoreRegs)

/-- Where the linker has put the array `syscalls`. -/
structure SyscallTable where
  base : ℕ
  fits : base + 1024 ≤ 2 ^ 32

def syscallsSet (T : SyscallTable) (num call : BitVec 32) (m : Mem) : Mem :=
  if 256 ≤ num.toNat then m else write32 m (T.base + 4 * num.toNat) call.toNat

/-- `syscalls[num]`; the address of an element is a 32-bit sum. -/
def SyscallTable.fetch (T : SyscallTable) (m : Mem) (num : BitVec 32) : BitVec 32 :=
  BitVec.ofNat 32 (read32 m ((T.base + 4 * num.toNat) % 2 ^ 32))

def push (x : BitVec 32) (stack : List (BitVec 32)) : List (BitVec 32) := x :: stack

/-- What the handler has done: the function it called, if any, with the words it had pushed,
the last of them first; and memory and the saved registers, if the function returned. -/
structure Outcome where
  called : Option (BitVec 32 × List (BitVec 32))
  after : Option (Mem × CoreRegs)

/-- `syscalls_handler`. What the code at an address does is a parameter: it finds the pushed
words on the stack, and leaves a result in `eax` if it returns. -/
def syscallsHandler (T : SyscallTable) (invoke : BitVec 32 → List (BitVec 32) → Mem → Option (BitVec 32 × Mem))
    (m : Mem) (regs : CoreRegs) : Outcome :=
  let location := T.fetch m regs.eax
  if location = 0 then ⟨none, some (m, regs)⟩
  else
    let stack := push regs.ebx (push regs.ecx (push regs.edx (push regs.esi (push regs.edi []))))
    ⟨some (location, stack), (invoke location stack m).map fun r => (r.2, { regs with eax := r.1 })⟩

/-- `[esp + off]`. -/
def stackWord (m : Mem) (esp : BitVec 32) (off : ℕ) : BitVec 32 :=
  BitVec.ofNat 32 (read32 m ((esp.toNat + off) % 2 ^ 32))

/-- The registers with which the stub of a call with `n` arguments raises the interrupt. -/
def syscallStub (n : ℕ) (m : Mem) (esp : BitVec 32) (r : CoreRegs) : CoreRegs :=
  { r with
    eax := stackWord m esp 4
    ebx := if 1 ≤ n then stackWord m esp 8 else r.ebx
    ecx := if 2 ≤ n then stackWord m esp 12 else r.ecx
    edx := if 3 ≤ n then stackWord m esp 16 else r.edx
    esi := if 4 ≤ n then stackWord m esp 20 else r.esi
    edi := if 5 ≤ n then stackWord m esp 24 else r.edi }

def syscall0 := syscallStub 0
def syscall1 := syscallStub 1
def syscall2 := syscallStub 2
def syscall3 := syscallStub 3
def syscall4 := syscallStub 4
def syscall5 := syscallStub 5

/-! ### Registration -/

/-- The function most recently registered for a number, the latest call of `syscalls_set`
first. A call with a number from 256 on registers nothing, and a null pointer is no function. -/
def registered : List (BitVec 32 × BitVec 32) → BitVec 32 → Option (BitVec 32)
  | [], _ => none
  | (num, call) :: sets, n =>
    if num = n ∧ num.toNat < 256 then (if call = 0 then none else some call) else registered sets n

/-- Memory after a sequence of calls of `syscalls_set`, with anything else done to it in
between that leaves the array alone. -/
inductive Registers (T : SyscallTable) : List (BitVec 32 × BitVec 32) → Mem → Prop
  | boot {m : Mem} (h : ∀ x, T.base ≤ x → x < T.base + 1024 → m x = 0) : Registers T [] m
  | set {sets : List (BitVec 32 × BitVec 32)} {m : Mem} (num call : BitVec 32) (h : Registers T sets m) :
      Registers T ((num, call) :: sets) (syscallsSet T num call m)
  | other {sets : List (BitVec 32 × BitVec 32)} {m m' : Mem} (h : Registers T sets m)
      (hsame : ∀ x, T.base ≤ x → x < T.base + 1024 → m' x = m x) : Registers T sets m'

section Registration

variable {T : SyscallTable} {sets : List (BitVec 32 × BitVec 32)} {m : Mem}

theorem registered_of_large {n : BitVec 32} (hn : 256 ≤ n.toNat) : registered sets n = none := by
  induction sets with
  | nil => rfl
  | cons call sets ih =>
    rw [registered, if_neg]
    · exact ih
    · rintro ⟨heq, hlt⟩
      rw [heq] at hlt
      omega

/-- The element of a number below 256 is the function registered for it. -/
theorem Registers.read32_spec (h : Registers T sets m) {n : BitVec 32} (hn : n.toNat < 256) :
    read32 m (T.base + 4 * n.toNat) = ((registered sets n).getD 0).toNat := by
  induction h with
  | @boot m hzero =>
    have hload : read32 m (T.base + 4 * n.toNat) = read32 (fun _ => 0) (T.base + 4 * n.toNat) :=
      load_congr fun x h1 h2 => hzero x (by omega) (by omega)
    rw [hload]
    simp [load, registered]
  | @set sets m num call h ih =>
    rw [registered, syscallsSet]
    by_cases heq : num = n
    · subst heq
      rw [if_neg (by omega), if_pos ⟨rfl, hn⟩, read32_write32 _ _ _ call.isLt]
      split_ifs with hnull
      · rw [hnull]
        rfl
      · rfl
    · have hne : num.toNat ≠ n.toNat := fun h' => heq (BitVec.eq_of_toNat_eq h')
      rw [if_neg (show ¬(num = n ∧ num.toNat < 256) from fun h' => heq h'.1)]
      split_ifs
      · exact ih
      · rw [read32_write32_of_disjoint _ (by omega)]
        exact ih
  | @other sets m m' h hsame ih =>
    rw [← ih]
    exact load_congr fun x h1 h2 => hsame x (by omega) (by omega)

theorem Registers.fetch_spec (h : Registers T sets m) {n : BitVec 32} (hn : n.toNat < 256) :
    T.fetch m n = (registered sets n).getD 0 := by
  have hfits := T.fits
  rw [SyscallTable.fetch, Nat.mod_eq_of_lt (by omega), h.read32_spec hn, BitVec.ofNat_toNat, BitVec.setWidth_eq]

/-- A registered function is not null. -/
theorem registered_ne_zero {n f : BitVec 32} (h : registered sets n = some f) : f ≠ 0 := by
  induction sets with
  | nil => cases h
  | cons call sets ih =>
    rw [registered] at h
    split_ifs at h with hnum hnull
    · cases h
      exact hnull
    · exact ih h

end Registration

/-! ### Dispatch -/

/-- The outcome is that of a call of the registered function, or nothing has happened. -/
def Dispatches (invoke : BitVec 32 → List (BitVec 32) → Mem → Option (BitVec 32 × Mem))
    (sets : List (BitVec 32 × BitVec 32)) (m : Mem) (regs : CoreRegs) (o : Outcome) : Prop :=
  match registered sets regs.eax with
  | none => o = ⟨none, some (m, regs)⟩
  | some f =>
    o = ⟨some (f, [regs.ebx, regs.ecx, regs.edx, regs.esi, regs.edi]),
      (invoke f [regs.ebx, regs.ecx, regs.edx, regs.esi, regs.edi] m).map fun r =>
        (r.2, { regs with eax := r.1 })⟩

/-- The registers as a stub leaves them for the handler: the number is the first word that
its caller has passed, and the arguments are the next ones in order. -/
def Marshals (n : ℕ) (stub : Mem → BitVec 32 → CoreRegs → CoreRegs) : Prop :=
  ∀ m esp r, (stub m esp r).eax = stackWord m esp 4 ∧
    [(stub m esp r).ebx, (stub m esp r).ecx, (stub m esp r).edx, (stub m esp r).esi, (stub m esp r).edi].take n =
      (List.range n).map fun i => stackWord m esp (8 + 4 * i)

/-- All six stubs agree with the handler. -/
def StubsAgree : Prop :=
  Marshals 0 syscall0 ∧ Marshals 1 syscall1 ∧ Marshals 2 syscall2 ∧ Marshals 3 syscall3 ∧
    Marshals 4 syscall4 ∧ Marshals 5 syscall5

theorem marshals_syscallStub {n : ℕ} (hn : n ≤ 5) : Marshals n (syscallStub n) := by
  intro m esp r
  refine ⟨rfl, ?_⟩
  interval_cases n <;> rfl

theorem stubsAgree : StubsAgree :=
  ⟨marshals_syscallStub (by omega), marshals_syscallStub (by omega), marshals_syscallStub (by omega),
    marshals_syscallStub (by omega), marshals_syscallStub (by omega), marshals_syscallStub (by omega)⟩

/-- For every sequence of registrations and all registers, the handler calls exactly what is
registered for the number, as the stubs mean it, if and only if the number is one that
`syscalls_set` accepts or its word, wherever the index leads, is null. -/
theorem syscalls_dispatch_iff (T : SyscallTable)
    (invoke : BitVec 32 → List (BitVec 32) → Mem → Option (BitVec 32 × Mem))
    {sets : List (BitVec 32 × BitVec 32)} {m : Mem} (h : Registers T sets m) (regs : CoreRegs) :
    Dispatches invoke sets m regs (syscallsHandler T invoke m regs) ∧ StubsAgree ↔
      regs.eax.toNat < 256 ∨ T.fetch m regs.eax = 0 := by
  have hagree := stubsAgree
  rcases Nat.lt_or_ge regs.eax.toNat 256 with hsmall | hlarge
  · -- both sides hold: the word is the registered function
    refine iff_of_true ⟨?_, hagree⟩ (Or.inl hsmall)
    have hfetch := h.fetch_spec hsmall
    unfold Dispatches syscallsHandler
    rw [hfetch]
    cases hreg : registered sets regs.eax with
    | none => rfl
    | some f => exact if_neg (registered_ne_zero hreg)
  · have hnone : registered sets regs.eax = none := registered_of_large hlarge
    unfold Dispatches syscallsHandler
    rw [hnone]
    dsimp only
    by_cases hnull : T.fetch m regs.eax = 0
    · exact iff_of_true ⟨if_pos hnull, hagree⟩ (Or.inr hnull)
    · refine iff_of_false ?_ (not_or_intro (by omega) hnull)
      rintro ⟨hcall, -⟩
      rw [if_neg hnull] at hcall
      have := congrArg Outcome.called hcall
      cases this

/-! ### One registered function -/

/-- The array at two megabytes. -/
def smallTable : SyscallTable := ⟨0x200000, by omega⟩

/-- The handler of number 100 is registered. -/
def oneRegistered : Mem := syscallsSet smallTable 100 0x101000 fun _ => 0

theorem registers_oneRegistered : Registers smallTable [(100, 0x101000)] oneRegistered :=
  Registers.set _ _ (Registers.boot fun _ _ _ => rfl)

/-- The registers at the interrupt, with the number given. -/
def regsWith (num : BitVec 32) : CoreRegs :=
  ⟨0x23, 5, 4, 0, 0, 1, 3, 2, num, 0x400000, 0x1B, 0x202, 0x800000, 0x23, 0, 0, 0, 0⟩

theorem syscalls_dispatch_registered :
    Dispatches (fun _ _ m => some (7, m)) [(100, 0x101000)] oneRegistered (regsWith 100)
      (syscallsHandler smallTable (fun _ _ m => some (7, m)) oneRegistered (regsWith 100)) :=
  ((syscalls_dispatch_iff smallTable _ registers_oneRegistered (regsWith 100)).mpr (Or.inl (by decide))).1

/-- The index `0x40000064` leads back to element 100, since the sum wraps. -/
theorem large_number_called : ¬∀ (sets : List (BitVec 32 × BitVec 32)) (m : Mem) (regs : CoreRegs),
    Registers smallTable sets m →
    Dispatches (fun _ _ m => some (7, m)) sets m regs (syscallsHandler smallTable (fun _ _ m => some (7, m)) m regs) := by
  intro hall
  have hdisp := hall _ _ (regsWith 0x40000064) registers_oneRegistered
  have hnone : registered [(100, 0x101000)] (regsWith 0x40000064).eax = none := by decide
  have hcalled : (syscallsHandler smallTable (fun _ _ m => some (7, m)) oneRegistered (regsWith 0x40000064)).called =
      some (0x101000, [1, 2, 3, 4, 5]) := by decide +kernel
  unfold Dispatches at hdisp
  rw [hnone] at hdisp
  rw [show (syscallsHandler smallTable (fun _ _ m => some (7, m)) oneRegistered (regsWith 0x40000064)).called = none
    from congrArg Outcome.called hdisp] at hcalled
  cases hcalled

end JustKernel.Syscalls
