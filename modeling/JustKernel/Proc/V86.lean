import JustKernel.Base.Memory

/-! The virtual-8086 monitor, `proc/v86.c`. A real-mode guest runs in a 32-bit
task with `IOPL = 0`, so each of its privileged instructions raises a general
protection fault, and `v86_monitor` carries the instruction out on the trap
frame and on the guest's memory. Words are pushed and popped at `ss:sp` with a
16-bit stack pointer. The frame's interrupt flag belongs to the kernel; the
guest's own one is `v86_if` of the thread. -/

namespace JustKernel.V86

open Memory

/-- The trap frame `core_regs_t`: the registers of `base`, of `user` and of `v86`.
The fields `cr3`, `int_num` and `int_err` are not used in virtual-8086 mode. -/
structure CoreRegs where
  ds : BitVec 32
  edi : BitVec 32
  esi : BitVec 32
  ebp : BitVec 32
  esp : BitVec 32
  ebx : BitVec 32
  edx : BitVec 32
  ecx : BitVec 32
  eax : BitVec 32
  eip : BitVec 32
  cs : BitVec 32
  eflags : BitVec 32
  userEsp : BitVec 32
  userSs : BitVec 32
  v86Es : BitVec 32
  v86Ds : BitVec 32
  v86Fs : BitVec 32
  v86Gs : BitVec 32
  deriving DecidableEq

/-- What the monitor works on: the frame, two fields of the thread, and memory. -/
structure Machine where
  regs : CoreRegs
  v86If : Bool
  kernelStack : BitVec 32
  mem : Mem

/-- `FP_TO_LINEAR`; both arguments are cut to 16 bits first. -/
def fpToLinear (seg off : BitVec 32) : ℕ :=
  (seg.setWidth 16).toNat <<< 4 + (off.setWidth 16).toNat

/-- Addresses of code the monitor jumps to, fixed when the kernel is linked. -/
structure Symbols where
  exitV86 : BitVec 32
  v86Exit : BitVec 32

def descSeg (n cpl : BitVec 32) : BitVec 32 := (8 * n) ||| cpl

def descKernelCode : BitVec 32 := 1

def descKernelData : BitVec 32 := 2

def plRing0 : BitVec 32 := 0

/-- The frame with which `_enter_v86` drops into the guest: `VM = 1`, `IOPL = 0`,
`IF = 1` and all data segments zero. -/
def enterV86 (ss sp cs ip : BitVec 32) (s : Machine) : Machine :=
  { s with regs := { s.regs with
      v86Gs := 0, v86Fs := 0, v86Ds := 0, v86Es := 0
      userSs := ss, userEsp := sp, eflags := 0x00020202, cs := cs, eip := ip, ebp := 0 } }

def v86Push (value : BitVec 32) (is32 : Bool) (s : Machine) : Machine :=
  let stack := s.regs.userEsp.setWidth 16
  if is32 then
    let stack := (stack - 4).setWidth 32
    { s with
      mem := write32 s.mem (fpToLinear s.regs.userSs stack) value.toNat
      regs := { s.regs with userEsp := stack } }
  else
    let stack := (stack - 2).setWidth 32
    { s with
      mem := write16 s.mem (fpToLinear s.regs.userSs stack) value.toNat
      regs := { s.regs with userEsp := stack } }

def v86Pop (is32 : Bool) (s : Machine) : BitVec 32 × Machine :=
  let stack := s.regs.userEsp.setWidth 16
  if is32 then
    (BitVec.ofNat 32 (read32 s.mem (fpToLinear s.regs.userSs (stack.setWidth 32))),
      { s with regs := { s.regs with userEsp := (stack + 4).setWidth 32 } })
  else
    (BitVec.ofNat 32 (read16 s.mem (fpToLinear s.regs.userSs (stack.setWidth 32))),
      { s with regs := { s.regs with userEsp := (stack + 2).setWidth 32 } })

/-- The low half of `eip` plus one; the high half stays. -/
def incIp (eip : BitVec 32) : BitVec 32 := eip.extractLsb' 16 16 ++ (eip.setWidth 16 + 1#16)

def v86GetIpByte (s : Machine) : Byte × Machine :=
  (s.mem (fpToLinear s.regs.cs s.regs.eip), { s with regs := { s.regs with eip := incIp s.regs.eip } })

/-- `SET_BIT` or `CLEAR_BIT` of the interrupt flag. -/
def withIf (eflags : BitVec 32) (flag : Bool) : BitVec 32 :=
  if flag then eflags ||| 1#32 <<< 9 else eflags &&& ~~~(1#32 <<< 9)

/-- The flags word that `PUSHF` and `INT` show to the guest. -/
def flagsImage (s : Machine) : BitVec 32 := withIf (s.regs.eflags ||| 0x20002) s.v86If

def pushf (is32 : Bool) (s : Machine) : Machine := v86Push (flagsImage s) is32 s

def popf (is32 : Bool) (s : Machine) : Machine :=
  let (value, s) := v86Pop is32 s
  let eflags := value ||| 0x20002
  { s with v86If := eflags.getLsbD 9, regs := { s.regs with eflags := eflags } }

/-- `INT n` for `n ≠ 3`. The return address goes to the stack as a double word, and the
vector is read after the three pushes. -/
def interrupt (intNum : Byte) (s : Machine) : Machine :=
  let s := v86Push (flagsImage s) false s
  let s := v86Push s.regs.cs false s
  let s := v86Push s.regs.eip true s
  { s with regs := { s.regs with
      cs := BitVec.ofNat 32 (read16 s.mem (4 * intNum.toNat + 2))
      eip := BitVec.ofNat 32 (read16 s.mem (4 * intNum.toNat)) } }

/-- `INT 3`: the frame returns to the kernel's `_exit_v86`, with the guest's stack
pointer in `ebx`. -/
def leave (sym : Symbols) (s : Machine) : Machine :=
  { s with regs := { s.regs with
      cs := descSeg descKernelCode plRing0
      ds := descSeg descKernelData plRing0
      eip := sym.exitV86
      eflags := 0x202
      esp := s.kernelStack
      eax := sym.v86Exit
      ebx := s.regs.userEsp } }

def iret (s : Machine) : Machine :=
  let (eip, s) := v86Pop true s
  let s := { s with regs := { s.regs with eip := eip } }
  let (cs, s) := v86Pop false s
  let s := { s with regs := { s.regs with cs := cs } }
  let (value, s) := v86Pop false s
  let eflags := value ||| 0x20002
  { s with regs := { s.regs with eflags := eflags }, v86If := eflags.getLsbD 9 }

/-- How a trap ends: back in the guest, on the way out to the kernel, in `panic`, or not
at all. -/
inductive Outcome where
  | resumed (s : Machine)
  | left (s : Machine)
  | panic
  | spin

/-- The loop over the prefixes `0x66` and `0x67`: the first other byte, whether `0x66` was
seen, and the frame after it. The address size is recorded by the source but never used. -/
def v86Decode : ℕ → Bool → Machine → Option (Byte × Bool × Machine)
  | 0, _, _ => none
  | n + 1, isOperand32, s =>
    let (instr, s) := v86GetIpByte s
    if instr = 0x66 then v86Decode n true s
    else if instr = 0x67 then v86Decode n isOperand32 s
    else some (instr, isOperand32, s)

/-- The instructions of the `switch`. -/
def v86Execute (sym : Symbols) (instr : Byte) (isOperand32 : Bool) (s : Machine) : Outcome :=
  if instr = 0x9c then .resumed (pushf isOperand32 s)
  else if instr = 0x9d then .resumed (popf isOperand32 s)
  else if instr = 0xcd then
    let (intNum, s) := v86GetIpByte s
    if intNum = 0x03 then .left (leave sym s) else .resumed (interrupt intNum s)
  else if instr = 0xcf then .resumed (iret s)
  else if instr = 0xfa then .resumed { s with v86If := false }
  else if instr = 0xfb then .resumed { s with v86If := true }
  else .panic

/-- A code segment has `65536` bytes, so a loop that has met only prefixes after that many
of them meets only prefixes for ever. -/
def v86Monitor (sym : Symbols) (s : Machine) : Outcome :=
  match v86Decode 65536 false s with
  | none => .spin
  | some (instr, isOperand32, s) => v86Execute sym instr isOperand32 s

/-! ### The instruction pointer and the prefix loop -/

theorem setWidth_incIp (eip : BitVec 32) : (incIp eip).setWidth 16 = eip.setWidth 16 + 1#16 := by
  rw [incIp, BitVec.setWidth_append_eq_right]

/-- The frame after `n` fetches. -/
def skipIp (n : ℕ) (s : Machine) : Machine := (fun s => (v86GetIpByte s).2)^[n] s

/-- A fetch moves the instruction pointer and changes nothing else. -/
theorem skipIp_eq (n : ℕ) (s : Machine) :
    skipIp n s = { s with regs := { s.regs with eip := incIp^[n] s.regs.eip } } := by
  unfold skipIp
  induction n with
  | zero => rfl
  | succ n ih => rw [Function.iterate_succ_apply', Function.iterate_succ_apply', ih]; rfl

theorem setWidth_incIp_iterate (n : ℕ) (eip : BitVec 32) :
    (incIp^[n] eip).setWidth 16 = eip.setWidth 16 + BitVec.ofNat 16 n := by
  induction n with
  | zero => simp
  | succ n ih =>
    rw [Function.iterate_succ_apply', setWidth_incIp, ih, BitVec.ofNat_add, BitVec.add_assoc]

/-- The byte at the instruction pointer after `n` fetches. -/
def ipByte (n : ℕ) (s : Machine) : Byte :=
  s.mem (fpToLinear s.regs.cs (incIp^[n] s.regs.eip))

theorem ipByte_add_segment (n : ℕ) (s : Machine) : ipByte (n + 65536) s = ipByte n s := by
  unfold ipByte fpToLinear
  rw [setWidth_incIp_iterate, setWidth_incIp_iterate, BitVec.ofNat_add]
  simp

/-- The operand-size and address-size prefixes. -/
def IsSizeByte (b : Byte) : Prop := b = 0x66 ∨ b = 0x67

/-- What the loop returns: the first byte that is no prefix, reached after prefixes only. -/
theorem v86Decode_eq_some {n : ℕ} {o o' : Bool} {s s' : Machine} {instr : Byte}
    (h : v86Decode n o s = some (instr, o', s')) :
    ∃ k < n, ¬IsSizeByte instr ∧ instr = ipByte k s ∧ s' = skipIp (k + 1) s := by
  induction n generalizing o s with
  | zero => cases h
  | succ n ih =>
    rw [v86Decode] at h
    dsimp only at h
    split_ifs at h with h66 h67
    · obtain ⟨k, hk, hp, hb, hs⟩ := ih h
      exact ⟨k + 1, by omega, hp, hb, hs⟩
    · obtain ⟨k, hk, hp, hb, hs⟩ := ih h
      exact ⟨k + 1, by omega, hp, hb, hs⟩
    · cases h
      exact ⟨0, by omega, not_or.mpr ⟨h66, h67⟩, rfl, rfl⟩

theorem v86Decode_eq_none {n : ℕ} {o : Bool} {s : Machine} :
    v86Decode n o s = none ↔ ∀ k < n, IsSizeByte (ipByte k s) := by
  induction n generalizing o s with
  | zero => simp [v86Decode]
  | succ n ih =>
    have hshift : ∀ k, ipByte k (v86GetIpByte s).2 = ipByte (k + 1) s := fun _ => rfl
    have hfirst : (v86GetIpByte s).1 = ipByte 0 s := rfl
    have hall : (∀ k < n + 1, IsSizeByte (ipByte k s)) ↔
        IsSizeByte (ipByte 0 s) ∧ ∀ k < n, IsSizeByte (ipByte (k + 1) s) := by
      constructor
      · exact fun h => ⟨h 0 (by omega), fun k hk => h (k + 1) (by omega)⟩
      · rintro ⟨h0, hs⟩ (_ | k) hk
        · exact h0
        · exact hs k (by omega)
    rw [hall, v86Decode]
    simp only [hfirst, ← hshift]
    split_ifs with h66 h67
    · rw [ih]
      simp [IsSizeByte, h66]
    · rw [ih]
      simp [IsSizeByte, h67]
    · exact iff_of_false (by simp) (fun h => h.1.elim h66 h67)

/-- The bound of `v86Monitor` loses nothing: where it gives up, no number of iterations
of the source's loop ends. -/
theorem v86Decode_none_of_segment {s : Machine} {o : Bool} (h : v86Decode 65536 o s = none) (n : ℕ) :
    v86Decode n o s = none := by
  rw [v86Decode_eq_none] at h ⊢
  intro k _
  induction k using Nat.strongRecOn with
  | ind k ih =>
    rcases lt_or_ge k 65536 with hk | hk
    · exact h k hk
    · obtain ⟨j, rfl⟩ := Nat.exists_eq_add_of_le' hk
      rw [ipByte_add_segment]
      exact ih j (by omega) (by omega)

/-- An instruction without prefix is decoded at once. -/
theorem v86Monitor_of_not_sizeByte (sym : Symbols) (s : Machine) (h : ¬IsSizeByte (v86GetIpByte s).1) :
    v86Monitor sym s = v86Execute sym (v86GetIpByte s).1 false (v86GetIpByte s).2 := by
  obtain ⟨h66, h67⟩ := not_or.mp h
  rw [v86Monitor, v86Decode]
  simp only [if_neg h66, if_neg h67]

end JustKernel.V86
