import JustKernel.Proc.V86
import Mathlib.Tactic.SplitIfs

/-! Which guests keep the virtual-8086 frame confined to `VM = 1`, `IOPL = 0` and
a set physical interrupt flag. Between two traps the guest may change its
memory, its registers and its arithmetic flags at will, but the processor keeps
these four bits. The monitor keeps `VM`, because it sets the bit in every flags
word it loads; the interrupt flag and the `IOPL` of the frame, however, are
taken over from the word that `POPF` and `IRET` pop. -/

namespace JustKernel.V86

open Memory

/-- `VM = 1`, `IOPL = 0`, `IF = 1`. -/
def Confined (eflags : BitVec 32) : Prop :=
  eflags.getLsbD 17 = true ∧ (eflags.getLsbD 12 = false ∧ eflags.getLsbD 13 = false) ∧
    eflags.getLsbD 9 = true

/-- The frame is confined, and the interrupt flag the guest is shown is `v86_if`. -/
def Sealed (s : Machine) : Prop :=
  Confined s.regs.eflags ∧ (flagsImage s).getLsbD 9 = s.v86If

theorem flagsImage_if (s : Machine) : (flagsImage s).getLsbD 9 = s.v86If := by
  unfold flagsImage withIf
  cases s.v86If <;> simp

theorem sealed_iff (s : Machine) : Sealed s ↔ Confined s.regs.eflags :=
  and_iff_left (flagsImage_if s)

/-- A popped flags word that keeps the frame confined. -/
def KeepsFlags (word : ℕ) : Prop :=
  word.testBit 9 = true ∧ word.testBit 12 = false ∧ word.testBit 13 = false

theorem confined_or_iff (v : BitVec 32) : Confined (v ||| 0x20002) ↔ KeepsFlags v.toNat := by
  unfold Confined KeepsFlags
  simp only [BitVec.getLsbD_or, BitVec.testBit_toNat]
  simp only [show (0x20002 : BitVec 32).getLsbD 17 = true by decide,
    show (0x20002 : BitVec 32).getLsbD 12 = false by decide,
    show (0x20002 : BitVec 32).getLsbD 13 = false by decide,
    show (0x20002 : BitVec 32).getLsbD 9 = false by decide, Bool.or_true, Bool.or_false, true_and]
  exact and_comm

/-- Only the low word counts, so the 32-bit `POPF` is no different. -/
theorem keepsFlags_mod (w : ℕ) : KeepsFlags (w % 65536) ↔ KeepsFlags w := by
  unfold KeepsFlags
  rw [show 65536 = 2 ^ 16 by omega, Nat.testBit_mod_two_pow, Nat.testBit_mod_two_pow,
    Nat.testBit_mod_two_pow]
  simp

theorem read32_mod (m : Mem) (a : ℕ) : read32 m a % 65536 = read16 m a := by
  have h := read16_lt m a
  have hsplit : read32 m a = read16 m a + 65536 * read16 m (a + 2) := by
    simp only [read32, read16, load]
    ring
  rw [hsplit]
  omega

theorem fpToLinear_setWidth (seg off : BitVec 32) :
    fpToLinear seg ((off.setWidth 16).setWidth 32) = fpToLinear seg off := by
  unfold fpToLinear
  rw [BitVec.setWidth_setWidth_of_le _ (by omega), BitVec.setWidth_eq]

theorem popf_eflags (is32 : Bool) (s : Machine) :
    Confined (popf is32 s).regs.eflags ↔
      KeepsFlags (read16 s.mem (fpToLinear s.regs.userSs s.regs.userEsp)) := by
  cases is32 with
  | false =>
    simp only [popf, v86Pop, Bool.false_eq_true, if_false, confined_or_iff, fpToLinear_setWidth,
      BitVec.toNat_ofNat]
    rw [Nat.mod_eq_of_lt ((read16_lt _ _).trans (by omega))]
  | true =>
    simp only [popf, v86Pop, if_true, confined_or_iff, fpToLinear_setWidth, BitVec.toNat_ofNat]
    rw [Nat.mod_eq_of_lt ((read32_lt _ _).trans_eq (by omega)), ← keepsFlags_mod, read32_mod]

theorem iret_eflags (s : Machine) :
    Confined (iret s).regs.eflags ↔
      KeepsFlags (read16 s.mem (fpToLinear s.regs.userSs (s.regs.userEsp + 6))) := by
  have hsp : ((((((s.regs.userEsp.setWidth 16 + 4).setWidth 32).setWidth 16 + 2).setWidth
      32).setWidth 16).setWidth 32).setWidth 16 = (s.regs.userEsp + 6).setWidth 16 := by
    bv_omega
  simp only [iret, v86Pop, Bool.false_eq_true, if_false, if_true, confined_or_iff,
    BitVec.toNat_ofNat]
  rw [Nat.mod_eq_of_lt ((read16_lt _ _).trans (by omega))]
  simp only [fpToLinear]
  rw [← hsp]

/-- The flags word that the trapped instruction pops, if it is `POPF` or `IRET`. The
latter finds it above a double word and a word. -/
def poppedFlags (s : Machine) : Option ℕ :=
  match v86Decode 65536 false s with
  | none => none
  | some (instr, _, s) =>
    if instr = 0x9d then some (read16 s.mem (fpToLinear s.regs.userSs s.regs.userEsp))
    else if instr = 0xcf then some (read16 s.mem (fpToLinear s.regs.userSs (s.regs.userEsp + 6)))
    else none

theorem v86Decode_eflags {n : ℕ} {o o' : Bool} {s s' : Machine} {instr : Byte}
    (h : v86Decode n o s = some (instr, o', s')) : s'.regs.eflags = s.regs.eflags := by
  obtain ⟨k, -, -, -, rfl⟩ := v86Decode_eq_some h
  rw [skipIp_eq]

theorem v86Push_eflags (value : BitVec 32) (is32 : Bool) (s : Machine) :
    (v86Push value is32 s).regs.eflags = s.regs.eflags := by
  cases is32 <;> rfl

theorem interrupt_eflags (n : Byte) (s : Machine) : (interrupt n s).regs.eflags = s.regs.eflags := by
  simp only [interrupt, v86Push_eflags]

/-- One trap: a confined frame is confined afterwards exactly if the flags word popped by
the instruction, if any, keeps it so. -/
theorem v86Monitor_confined_iff {sym : Symbols} {s s' : Machine}
    (hrun : v86Monitor sym s = .resumed s') (h : Confined s.regs.eflags) :
    Confined s'.regs.eflags ↔ ∀ word ∈ poppedFlags s, KeepsFlags word := by
  unfold v86Monitor at hrun
  unfold poppedFlags
  cases hdecode : v86Decode 65536 false s with
  | none => rw [hdecode] at hrun; cases hrun
  | some r =>
    obtain ⟨instr, o, s₁⟩ := r
    rw [hdecode] at hrun
    have hkept : Confined s₁.regs.eflags := by rw [v86Decode_eflags hdecode]; exact h
    dsimp only [v86Execute] at hrun ⊢
    split_ifs at hrun with h9c h9d hcd h03 hcf hfa hfb <;> cases hrun
    · simp [h9c, pushf, v86Push_eflags, hkept]
    · simp [h9d, popf_eflags]
    · simp [hcd, interrupt_eflags, v86GetIpByte, hkept]
    · simp [hcf, iret_eflags]
    · simp [hfa, hkept]
    · simp [hfb, hkept]

/-! ### Runs of a guest -/

/-- The bits of `EFLAGS` that no instruction of the guest changes without a trap. -/
def protectedFlags : BitVec 32 := 0x23200

/-- What the guest has made of its memory and registers by the next trap. -/
structure GuestMove where
  mem : Mem
  regs : CoreRegs

def guestRun (g : GuestMove) (s : Machine) : Machine :=
  { s with
    mem := g.mem
    regs := { g.regs with eflags :=
      s.regs.eflags &&& protectedFlags ||| g.regs.eflags &&& ~~~protectedFlags } }

theorem guestRun_confined {g : GuestMove} {s : Machine} (h : Confined s.regs.eflags) :
    Confined (guestRun g s).regs.eflags := by
  obtain ⟨hvm, ⟨hl, hh⟩, hif⟩ := h
  have hbit : ∀ i, protectedFlags.getLsbD i = true →
      (guestRun g s).regs.eflags.getLsbD i = s.regs.eflags.getLsbD i := by
    intro i hi
    simp only [guestRun, BitVec.getLsbD_or, BitVec.getLsbD_and, BitVec.getLsbD_not, hi]
    simp
  unfold Confined
  rw [hbit 17 (by decide), hbit 12 (by decide), hbit 13 (by decide), hbit 9 (by decide)]
  exact ⟨hvm, ⟨hl, hh⟩, hif⟩

/-- The guest runs to its next trap and the monitor handles it; `INT 3`, an unknown
instruction and a segment of prefixes end the run. -/
def guestStep (sym : Symbols) (g : GuestMove) (s : Machine) : Option Machine :=
  match v86Monitor sym (guestRun g s) with
  | .resumed s' => some s'
  | _ => none

/-- After each handled instruction of the run the frame is sealed. -/
def RunSealed (sym : Symbols) : List GuestMove → Machine → Prop
  | [], _ => True
  | g :: rest, s => ∀ s', guestStep sym g s = some s' → Sealed s' ∧ RunSealed sym rest s'

/-- Each flags word popped in the run has bit 9 set and bits 12 and 13 clear. -/
def RunKeepsFlags (sym : Symbols) : List GuestMove → Machine → Prop
  | [], _ => True
  | g :: rest, s => ∀ s', guestStep sym g s = some s' →
    (∀ word ∈ poppedFlags (guestRun g s), KeepsFlags word) ∧ RunKeepsFlags sym rest s'

theorem guestStep_sealed_iff {sym : Symbols} {g : GuestMove} {s s' : Machine}
    (hstep : guestStep sym g s = some s') (h : Confined s.regs.eflags) :
    Sealed s' ↔ ∀ word ∈ poppedFlags (guestRun g s), KeepsFlags word := by
  unfold guestStep at hstep
  split at hstep
  · rename_i t hrun
    cases hstep
    rw [sealed_iff]
    exact v86Monitor_confined_iff hrun (guestRun_confined h)
  · cases hstep

theorem runSealed_iff (sym : Symbols) (l : List GuestMove) (s : Machine)
    (h : Confined s.regs.eflags) : RunSealed sym l s ↔ RunKeepsFlags sym l s := by
  induction l generalizing s with
  | nil => exact Iff.rfl
  | cons g rest ih =>
    apply forall_congr'
    intro s'
    apply imp_congr_right
    intro hstep
    rw [← guestStep_sealed_iff hstep h]
    apply and_congr_right
    intro hsealed
    exact ih s' ((sealed_iff s').mp hsealed)

/-- From `_enter_v86` on, every handled instruction leaves `VM = 1`, `IOPL = 0` and `IF = 1`
in the frame if and only if every flags word the guest pops has bit 9 set and bits 12
and 13 clear. -/
theorem privilege_kept_iff (sym : Symbols) (ss sp cs ip : BitVec 32) (s : Machine)
    (l : List GuestMove) :
    RunSealed sym l (enterV86 ss sp cs ip s) ↔ RunKeepsFlags sym l (enterV86 ss sp cs ip s) := by
  apply runSealed_iff
  show Confined 0x00020202
  unfold Confined
  decide

/-- The guest pops a zero word: a `POPF` at `0000:7C00` with the stack at `0000:9000` in
memory that is zero elsewhere. -/
def popsZero : GuestMove where
  mem := fun a => if a = 0x7C00 then 0x9d else 0
  regs := ⟨0, 0, 0, 0, 0, 0, 0, 0, 0, 0x7C00, 0, 0x20202, 0x9000, 0, 0, 0, 0, 0⟩

def idleMachine : Machine := ⟨popsZero.regs, false, 0, fun _ => 0⟩

/-- After it the frame's interrupt flag is clear: the kernel runs the guest with
interrupts off. -/
theorem popf_clears_physical_if :
    ¬RunSealed ⟨0, 0⟩ [popsZero] (enterV86 0 0x9000 0 0x7C00 idleMachine) := by
  intro h
  have hstep : guestStep ⟨0, 0⟩ popsZero (enterV86 0 0x9000 0 0x7C00 idleMachine) =
      some (popf false (v86GetIpByte (guestRun popsZero
        (enterV86 0 0x9000 0 0x7C00 idleMachine))).2) := by
    rw [guestStep, v86Monitor_of_not_sizeByte]
    · rfl
    · intro hb
      rcases hb with hb | hb <;> cases hb
  have hif := (h _ hstep).1.1.2.2
  cases hif

end JustKernel.V86
