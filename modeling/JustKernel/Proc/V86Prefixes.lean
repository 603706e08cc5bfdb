import JustKernel.Proc.V86

/-! The loop over the prefixes of an instruction, `v86_monitor` of `proc/v86.c`, has no bound of its
own: a prefix only sets a flag and the loop goes on. The instruction pointer goes round the 64 KiB of
the code segment, so the loop ends if and only if the segment has a byte that is no prefix, and then
within one round. In a segment of prefixes it neither handles an instruction nor reaches the panic. -/

namespace JustKernel.V86

open Memory (Byte)

/-- The byte of the code segment at an offset. -/
def segmentByte (s : Machine) (ip : BitVec 16) : Byte := s.mem (fpToLinear s.regs.cs (ip.setWidth 32))

variable {s : Machine} {o : Bool}

theorem ipByte_eq (n : ℕ) (s : Machine) :
    ipByte n s = segmentByte s (s.regs.eip.setWidth 16 + BitVec.ofNat 16 n) := by
  unfold ipByte segmentByte fpToLinear
  rw [setWidth_incIp_iterate, BitVec.setWidth_setWidth_of_le _ (by decide), BitVec.setWidth_eq]

/-- One round of the instruction pointer comes to every byte of the segment. -/
theorem segmentByte_eq (s : Machine) (ip : BitVec 16) :
    segmentByte s ip = ipByte (ip - s.regs.eip.setWidth 16).toNat s := by
  rw [ipByte_eq, BitVec.ofNat_toNat, BitVec.setWidth_eq, BitVec.add_comm, BitVec.sub_add_cancel]

theorem v86Decode_segment_eq_none :
    v86Decode 65536 o s = none ↔ ∀ ip, IsSizeByte (segmentByte s ip) := by
  rw [v86Decode_eq_none]
  constructor
  · intro h ip
    rw [segmentByte_eq]
    exact h _ (BitVec.isLt _)
  · intro h k _
    rw [ipByte_eq]
    exact h _

/-- In a segment of prefixes no number of iterations is enough. -/
theorem v86Decode_of_prefixes (hall : ∀ ip, IsSizeByte (segmentByte s ip)) (n : ℕ) :
    v86Decode n o s = none :=
  v86Decode_none_of_segment (v86Decode_segment_eq_none.mpr hall) n

theorem v86Execute_ne_spin (sym : Symbols) (instr : Byte) (o : Bool) (s : Machine) :
    v86Execute sym instr o s ≠ .spin := by
  unfold v86Execute
  dsimp only
  split_ifs <;> exact Outcome.noConfusion

/-- The monitor hangs exactly in a segment of prefixes. -/
theorem v86Monitor_eq_spin (sym : Symbols) :
    v86Monitor sym s = .spin ↔ ∀ ip, IsSizeByte (segmentByte s ip) := by
  rw [← v86Decode_segment_eq_none (o := false), v86Monitor]
  cases hdecode : v86Decode 65536 false s with
  | none => simp
  | some r => simpa using v86Execute_ne_spin sym r.1 r.2.1 r.2.2

/-- The loop ends, after whatever number of bytes, if and only if the code segment has a byte that is
no prefix. -/
theorem v86Decode_ends_iff (s : Machine) :
    (∃ n, (v86Decode n false s).isSome) ↔ ∃ ip, ¬IsSizeByte (segmentByte s ip) := by
  constructor
  · rintro ⟨n, hn⟩
    by_contra hall
    push Not at hall
    rw [v86Decode_of_prefixes hall] at hn
    cases hn
  · rintro ⟨ip, hip⟩
    refine ⟨65536, Option.isSome_iff_ne_none.mpr ?_⟩
    exact fun hnone => hip (v86Decode_segment_eq_none.mp hnone ip)

/-- A guest whose code segment at `0x20000` is full of operand-size prefixes. -/
def prefixGuest : Machine where
  regs :=
    { ds := 0, edi := 0, esi := 0, ebp := 0, esp := 0, ebx := 0, edx := 0, ecx := 0, eax := 0, eip := 0, cs := 0x2000,
      eflags := 0x20202, userEsp := 0, userSs := 0, v86Es := 0, v86Ds := 0, v86Fs := 0, v86Gs := 0 }
  v86If := false
  kernelStack := 0
  mem := fun a => if 0x20000 ≤ a ∧ a < 0x30000 then 0x66 else 0

theorem segmentByte_prefixGuest (ip : BitVec 16) : segmentByte prefixGuest ip = 0x66 := by
  have hip := ip.isLt
  have hlinear : fpToLinear prefixGuest.regs.cs (ip.setWidth 32) = 0x20000 + ip.toNat := by
    unfold fpToLinear
    rw [BitVec.setWidth_setWidth_of_le _ (by decide), BitVec.setWidth_eq]
    rfl
  rw [segmentByte, hlinear]
  exact if_pos ⟨by omega, by omega⟩

theorem v86Decode_prefixGuest : ¬∃ n, (v86Decode n false prefixGuest).isSome := by
  rintro ⟨n, hn⟩
  rw [v86Decode_of_prefixes fun ip => Or.inl (segmentByte_prefixGuest ip)] at hn
  cases hn

end JustKernel.V86
