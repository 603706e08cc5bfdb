import JustKernel.Proc.V86
import Mathlib.Tactic.SplitIfs

/-! The monitor against the processor it stands in for. `RealMode` is the 8086
itself, with 16-bit registers, one interrupt flag and word accesses that wrap
inside their segment; `view` reads a guest state off a trap frame, with the
thread's `v86_if` as the interrupt flag. On `CLI`, `STI`, `PUSHF` and `POPF` one
step of the monitor is one step of the 8086, save for a word that straddles the
end of the stack segment. `INT n` and `IRET` never agree: the monitor's frame
holds the return address as a double word and is eight bytes long. -/

namespace JustKernel.V86

open Memory

/-- An 8086. The registers that none of the instructions below touches are kept in `others`. -/
structure RealMode where
  ip : BitVec 16
  cs : BitVec 16
  sp : BitVec 16
  ss : BitVec 16
  flags : BitVec 16
  others : CoreRegs
  mem : Mem

namespace RealMode

def linear (seg off : BitVec 16) : ℕ := seg.toNat * 16 + off.toNat

/-- The word at `seg:off`; its high byte is at offset zero if the low one is the segment's last. -/
def readWord (m : Mem) (seg off : BitVec 16) : BitVec 16 :=
  m (linear seg (off + 1)) ++ m (linear seg off)

def writeWord (m : Mem) (seg off word : BitVec 16) : Mem :=
  Function.update (Function.update m (linear seg off) (word.setWidth 8))
    (linear seg (off + 1)) (word.extractLsb' 8 8)

def push (word : BitVec 16) (r : RealMode) : RealMode :=
  { r with sp := r.sp - 2, mem := writeWord r.mem r.ss (r.sp - 2) word }

def pop (r : RealMode) : BitVec 16 × RealMode :=
  (readWord r.mem r.ss r.sp, { r with sp := r.sp + 2 })

def fetch (r : RealMode) : Byte × RealMode :=
  (r.mem (linear r.cs r.ip), { r with ip := r.ip + 1 })

def ifMask : BitVec 16 := 0x200

def int (n : Byte) (r : RealMode) : RealMode :=
  let r := push r.flags r
  let r := push r.cs r
  let r := push r.ip r
  let vector := n.setWidth 16 * 4
  { r with
    flags := r.flags &&& ~~~ifMask
    cs := readWord r.mem 0 (vector + 2)
    ip := readWord r.mem 0 vector }

def iret (r : RealMode) : RealMode :=
  let (ip, r) := pop r
  let (cs, r) := pop r
  let (flags, r) := pop r
  { r with ip := ip, cs := cs, flags := flags ||| 2 }

/-- One of the six privileged instructions, without a prefix; `INT 3` is the monitor's exit. -/
def step (r : RealMode) : Option RealMode :=
  let (instr, r) := fetch r
  if instr = 0x9c then some (push r.flags r)
  else if instr = 0x9d then
    let (flags, r) := pop r
    some { r with flags := flags ||| 2 }
  else if instr = 0xcd then
    let (n, r) := fetch r
    if n = 3 then none else some (int n r)
  else if instr = 0xcf then some (iret r)
  else if instr = 0xfa then some { r with flags := r.flags &&& ~~~ifMask }
  else if instr = 0xfb then some { r with flags := r.flags ||| ifMask }
  else none

end RealMode

open RealMode (linear readWord writeWord ifMask)

/-- `FLAGS` as the guest has it: bit 1 is always set, and bit 9 is `v86_if`. -/
def guestFlags (eflags : BitVec 32) (flag : Bool) : BitVec 16 :=
  (eflags.setWidth 16 ||| 2) &&& ~~~ifMask ||| if flag then ifMask else 0

/-- The guest that a frame stands for. -/
def view (s : Machine) : RealMode where
  ip := s.regs.eip.setWidth 16
  cs := s.regs.cs.setWidth 16
  sp := s.regs.userEsp.setWidth 16
  ss := s.regs.userSs.setWidth 16
  flags := guestFlags s.regs.eflags s.v86If
  others := { s.regs with eip := 0, cs := 0, userEsp := 0, userSs := 0, eflags := 0 }
  mem := s.mem

theorem fpToLinear_eq (seg off : BitVec 32) :
    fpToLinear seg off = linear (seg.setWidth 16) (off.setWidth 16) := by
  rw [fpToLinear, linear, Nat.shiftLeft_eq]

theorem view_fetch (s : Machine) :
    (view s).fetch = ((v86GetIpByte s).1, view (v86GetIpByte s).2) := by
  simp only [RealMode.fetch, view, v86GetIpByte, fpToLinear_eq, setWidth_incIp]
  rfl

/-! ### Words on the stack -/

theorem linear_succ {seg off : BitVec 16} (h : off ≠ 0xFFFF) :
    linear seg (off + 1) = linear seg off + 1 := by
  unfold linear
  bv_omega

theorem linear_wrap (seg : BitVec 16) : linear seg (0xFFFF + 1) = seg.toNat * 16 := by
  simp [linear]

theorem write16_eq (m : Mem) (a : ℕ) (v : BitVec 32) :
    write16 m a v.toNat = Function.update
      (Function.update m a ((v.setWidth 16).setWidth 8)) (a + 1)
      ((v.setWidth 16).extractLsb' 8 8) := by
  have hlow : BitVec.ofNat 8 v.toNat = (v.setWidth 16).setWidth 8 := by bv_omega
  have hhigh : BitVec.ofNat 8 (v.toNat / 256) = (v.setWidth 16).extractLsb' 8 8 := by
    apply BitVec.eq_of_toNat_eq
    simp only [BitVec.toNat_ofNat, BitVec.extractLsb'_toNat, BitVec.toNat_setWidth,
      Nat.shiftRight_eq_div_pow]
    omega
  simp only [write16, store, hlow, hhigh]

/-- Two writes of one byte at different places agree only where they change nothing. -/
theorem update_eq_update_iff {m : Mem} {a b : ℕ} {x : Byte} (h : a ≠ b) :
    Function.update m a x = Function.update m b x ↔ m a = x ∧ m b = x := by
  constructor
  · intro heq
    have ha := congrFun heq a
    have hb := congrFun heq b
    rw [Function.update_self, Function.update_of_ne h] at ha
    rw [Function.update_self, Function.update_of_ne h.symm] at hb
    exact ⟨ha.symm, hb⟩
  · intro hx
    obtain ⟨ha, hb⟩ := hx
    nth_rewrite 1 [← ha]
    nth_rewrite 1 [← hb]
    rw [Function.update_eq_self, Function.update_eq_self]

/-- A push of the monitor's writes the same bytes as the 8086, unless the word straddles
the end of the segment. -/
theorem write16_eq_writeWord_iff (m : Mem) (seg off : BitVec 16) (v : BitVec 32) :
    write16 m (linear seg off) v.toNat = writeWord m seg off (v.setWidth 16) ↔
      (off = 0xFFFF → m (seg.toNat * 16) = (v.setWidth 16).extractLsb' 8 8 ∧
        m (seg.toNat * 16 + 65536) = (v.setWidth 16).extractLsb' 8 8) := by
  rw [write16_eq, writeWord]
  by_cases hoff : off = 0xFFFF
  · subst hoff
    have hend : linear seg 0xFFFF + 1 = seg.toNat * 16 + 65536 := by
      simp [linear]
    have hlast : linear seg 0xFFFF = seg.toNat * 16 + 65535 := by
      simp [linear]
    rw [linear_wrap, hend, update_eq_update_iff (by omega), Function.update_of_ne (by omega),
      Function.update_of_ne (by omega), and_comm]
    simp
  · rw [linear_succ hoff]
    exact iff_of_true rfl fun h => absurd h hoff

theorem setWidth_ofNat_read16 (m : Mem) (a : ℕ) :
    (BitVec.ofNat 32 (read16 m a)).setWidth 16 = m (a + 1) ++ m a := by
  have h0 := (m a).isLt
  have h1 := (m (a + 1)).isLt
  apply BitVec.eq_of_toNat_eq
  rw [BitVec.toNat_append, BitVec.toNat_setWidth, BitVec.toNat_ofNat, Nat.shiftLeft_eq,
    Nat.mul_comm, ← Nat.two_pow_add_eq_or_of_lt h0]
  simp only [read16, load]
  omega

/-! ### The flags word -/

theorem getLsbD_ifMask (i : ℕ) : ifMask.getLsbD i = decide (i = 9) := by
  rw [show ifMask = BitVec.twoPow 16 9 by decide, BitVec.getLsbD_twoPow]
  simp [eq_comm]

theorem getLsbD_two (i : ℕ) : (2 : BitVec 16).getLsbD i = decide (i = 1) := by
  rw [show (2 : BitVec 16) = BitVec.twoPow 16 1 by decide, BitVec.getLsbD_twoPow]
  simp [eq_comm]

/-- Of the two bits the monitor sets, only bit 1 is in the low word. -/
theorem getLsbD_reserved {i : ℕ} (hi : i < 16) :
    (0x20002 : BitVec 32).getLsbD i = decide (i = 1) := by
  rw [show (0x20002 : BitVec 32) = BitVec.twoPow 32 1 ||| BitVec.twoPow 32 17 by decide,
    BitVec.getLsbD_or, BitVec.getLsbD_twoPow, BitVec.getLsbD_twoPow]
  simp [show ¬17 = i by omega, eq_comm]

theorem getLsbD_guestFlags (eflags : BitVec 32) (flag : Bool) {i : ℕ} (hi : i < 16) :
    (guestFlags eflags flag).getLsbD i =
      if i = 9 then flag else if i = 1 then true else eflags.getLsbD i := by
  have hif : (if flag then ifMask else 0).getLsbD i = (flag && decide (i = 9)) := by
    cases flag <;> simp [getLsbD_ifMask]
  simp only [guestFlags, BitVec.getLsbD_or, BitVec.getLsbD_and, BitVec.getLsbD_not,
    BitVec.getLsbD_setWidth, getLsbD_ifMask, getLsbD_two, hif, hi]
  split_ifs <;> simp [*]

theorem getLsbD_withIf (eflags : BitVec 32) (flag : Bool) {i : ℕ} (hi : i < 32) :
    (withIf eflags flag).getLsbD i = if i = 9 then flag else eflags.getLsbD i := by
  have hbit : (1#32 <<< 9).getLsbD i = decide (i = 9) := by
    rw [show 1#32 <<< 9 = BitVec.twoPow 32 9 by decide, BitVec.getLsbD_twoPow]
    simp [eq_comm]
  cases flag <;>
    simp only [withIf, BitVec.getLsbD_or, BitVec.getLsbD_and, BitVec.getLsbD_not, hbit, hi, if_true,
      Bool.false_eq_true, if_false]
  · split_ifs <;> simp [*]
  · split_ifs <;> simp [*]

/-- What `PUSHF` pushes is the guest's `FLAGS`. -/
theorem flagsImage_setWidth (s : Machine) :
    (flagsImage s).setWidth 16 = guestFlags s.regs.eflags s.v86If := by
  apply BitVec.eq_of_getLsbD_eq
  intro i hi
  rw [getLsbD_guestFlags _ _ hi, BitVec.getLsbD_setWidth, flagsImage,
    getLsbD_withIf _ _ (by omega), BitVec.getLsbD_or, getLsbD_reserved hi]
  split_ifs <;> simp [*]

/-- What a popped word leaves in the guest's `FLAGS`. -/
theorem guestFlags_popped (v : BitVec 32) :
    guestFlags (v ||| 0x20002) ((v ||| 0x20002).getLsbD 9) = v.setWidth 16 ||| 2 := by
  apply BitVec.eq_of_getLsbD_eq
  intro i hi
  have hor : ∀ j < 16, (v ||| 0x20002).getLsbD j = (v.setWidth 16 ||| 2).getLsbD j := by
    intro j hj
    rw [BitVec.getLsbD_or, BitVec.getLsbD_or, getLsbD_reserved hj, getLsbD_two,
      BitVec.getLsbD_setWidth, decide_eq_true hj, Bool.true_and]
  rw [getLsbD_guestFlags _ _ hi, hor 9 (by omega), hor i hi]
  split_ifs with h9 h1
  · rw [h9]
  · rw [BitVec.getLsbD_or, getLsbD_two, decide_eq_true h1, Bool.or_true]
  · rfl

theorem guestFlags_cli (eflags : BitVec 32) (flag : Bool) :
    guestFlags eflags false = guestFlags eflags flag &&& ~~~ifMask := by
  apply BitVec.eq_of_getLsbD_eq
  intro i hi
  rw [BitVec.getLsbD_and, BitVec.getLsbD_not, getLsbD_guestFlags _ _ hi, getLsbD_guestFlags _ _ hi,
    getLsbD_ifMask]
  split_ifs <;> simp [*]

theorem guestFlags_sti (eflags : BitVec 32) (flag : Bool) :
    guestFlags eflags true = guestFlags eflags flag ||| ifMask := by
  apply BitVec.eq_of_getLsbD_eq
  intro i hi
  rw [BitVec.getLsbD_or, getLsbD_guestFlags _ _ hi, getLsbD_guestFlags _ _ hi, getLsbD_ifMask]
  split_ifs <;> simp [*]

/-! ### One step -/

theorem view_pushf_iff (s : Machine) :
    view (pushf false s) = (view s).push (view s).flags ↔
      ((view s).sp = 1 → s.mem ((view s).ss.toNat * 16) = (view s).flags.extractLsb' 8 8 ∧
        s.mem ((view s).ss.toNat * 16 + 65536) = (view s).flags.extractLsb' 8 8) := by
  have hsp : ((view s).sp = 1) ↔ ((view s).sp - 2 = 0xFFFF) := by
    generalize (view s).sp = sp
    constructor <;> bv_omega
  have hflags : (view s).flags = (flagsImage s).setWidth 16 := (flagsImage_setWidth s).symm
  have hmem := write16_eq_writeWord_iff s.mem (view s).ss ((view s).sp - 2) (flagsImage s)
  rw [hsp, hflags, ← hmem]
  constructor
  · intro h
    have := congrArg RealMode.mem h
    simpa [pushf, v86Push, view, RealMode.push, fpToLinear_eq, flagsImage_setWidth] using this
  · intro h
    simpa [pushf, v86Push, view, RealMode.push, fpToLinear_eq, flagsImage_setWidth] using h

theorem append_or_two_eq_iff {a b c : Byte} :
    (a ++ c : BitVec 16) ||| 2 = (b ++ c : BitVec 16) ||| 2 ↔ a = b := by
  have hhigh : ∀ x : Byte, ((x ++ c : BitVec 16) ||| 2).extractLsb' 8 8 = x := by
    intro x
    apply BitVec.eq_of_getLsbD_eq
    intro i hi
    rw [BitVec.getLsbD_extractLsb', BitVec.getLsbD_or, getLsbD_two, BitVec.getLsbD_append]
    simp [hi, show ¬8 + i = 1 by omega]
  constructor
  · intro h
    rw [← hhigh a, h, hhigh b]
  · intro h
    rw [h]

theorem view_popf (s : Machine) :
    view (popf false s) = { view s with
      sp := (view s).sp + 2
      flags := (BitVec.ofNat 32 (read16 s.mem (linear (view s).ss (view s).sp))).setWidth 16 ||| 2 } := by
  simp only [view, popf, v86Pop, Bool.false_eq_true, if_false, guestFlags_popped, fpToLinear_eq,
    BitVec.setWidth_setWidth_of_le _ (show 16 ≤ 32 by omega), BitVec.setWidth_eq]

theorem view_popf_iff (s : Machine) :
    view (popf false s) = { (view s).pop.2 with flags := (view s).pop.1 ||| 2 } ↔
      ((view s).sp = 0xFFFF →
        s.mem ((view s).ss.toNat * 16) = s.mem ((view s).ss.toNat * 16 + 65536)) := by
  have hflags : view (popf false s) = { (view s).pop.2 with flags := (view s).pop.1 ||| 2 } ↔
      (BitVec.ofNat 32 (read16 s.mem (linear (view s).ss (view s).sp))).setWidth 16 ||| 2 =
        readWord s.mem (view s).ss (view s).sp ||| 2 := by
    rw [view_popf]
    constructor
    · exact fun h => congrArg RealMode.flags h
    · intro h
      rw [h]
      rfl
  rw [hflags, setWidth_ofNat_read16, readWord, append_or_two_eq_iff]
  by_cases hsp : (view s).sp = 0xFFFF
  · have hend : linear (view s).ss 0xFFFF + 1 = (view s).ss.toNat * 16 + 65536 := by
      simp [linear]
    rw [hsp, linear_wrap, hend]
    simp [eq_comm]
  · rw [linear_succ hsp]
    exact iff_of_true rfl fun h => absurd h hsp

theorem view_interrupt_sp (n : Byte) (s : Machine) :
    (view (interrupt n s)).sp = (view s).sp - 8 := by
  simp only [interrupt, v86Push, view, if_true, Bool.false_eq_true, if_false]
  bv_omega

theorem view_iret_sp (s : Machine) : (view (iret s)).sp = (view s).sp + 8 := by
  simp only [iret, v86Pop, view, if_true, Bool.false_eq_true, if_false]
  bv_omega

/-- Three words instead of two words and a double word. -/
theorem view_interrupt_ne (n : Byte) (s : Machine) : view (interrupt n s) ≠ (view s).int n := by
  intro h
  have hsp := congrArg RealMode.sp h
  rw [view_interrupt_sp] at hsp
  simp only [RealMode.int, RealMode.push] at hsp
  revert hsp
  generalize (view s).sp = sp
  bv_omega

theorem view_iret_ne (s : Machine) : view (iret s) ≠ (view s).iret := by
  intro h
  have hsp := congrArg RealMode.sp h
  rw [view_iret_sp] at hsp
  simp only [RealMode.iret, RealMode.pop] at hsp
  revert hsp
  generalize (view s).sp = sp
  bv_omega

/-- The instructions and states on which the monitor does what the 8086 does: `CLI` and
`STI`; `PUSHF`, unless the pushed word straddles the end of the stack segment and changes
one of the two bytes that might take its high half; `POPF`, unless the popped word
straddles it and these two bytes differ. -/
def Faithful (s : Machine) : Prop :=
  let instr := (v86GetIpByte s).1
  let r := view s
  instr = 0xfa ∨ instr = 0xfb ∨
    (instr = 0x9c ∧ (r.sp = 1 → s.mem (r.ss.toNat * 16) = r.flags.extractLsb' 8 8 ∧
      s.mem (r.ss.toNat * 16 + 65536) = r.flags.extractLsb' 8 8)) ∨
    (instr = 0x9d ∧ (r.sp = 0xFFFF → s.mem (r.ss.toNat * 16) = s.mem (r.ss.toNat * 16 + 65536)))

/-- On an instruction without prefix, the monitor's step is the 8086's step exactly in the
states of `Faithful`; in particular never on `INT n` and never on `IRET`. -/
theorem v86Monitor_refines_iff (sym : Symbols) (s : Machine) (r : RealMode)
    (hstep : (view s).step = some r) :
    (∃ s', v86Monitor sym s = .resumed s' ∧ view s' = r) ↔ Faithful s := by
  have hsize : ¬IsSizeByte (v86GetIpByte s).1 := by
    intro h
    unfold RealMode.step at hstep
    rw [view_fetch] at hstep
    rcases h with h | h <;> simp [h] at hstep
  rw [v86Monitor_of_not_sizeByte sym s hsize]
  unfold RealMode.step at hstep
  rw [view_fetch] at hstep
  unfold Faithful v86Execute
  dsimp only at hstep ⊢
  have hpushf := view_pushf_iff (v86GetIpByte s).2
  have hpopf := view_popf_iff (v86GetIpByte s).2
  change _ ↔ ((view s).sp = 1 → s.mem ((view s).ss.toNat * 16) = (view s).flags.extractLsb' 8 8 ∧
    s.mem ((view s).ss.toNat * 16 + 65536) = (view s).flags.extractLsb' 8 8) at hpushf
  change _ ↔ ((view s).sp = 0xFFFF →
    s.mem ((view s).ss.toNat * 16) = s.mem ((view s).ss.toNat * 16 + 65536)) at hpopf
  generalize (v86GetIpByte s).1 = instr at hstep ⊢
  split_ifs at hstep with h9c h9d hcd h03 hcf hfa hfb
  · cases hstep
    simp [h9c, hpushf]
  · cases hstep
    simpa [h9d] using hpopf
  · cases hstep
    rw [view_fetch] at h03 ⊢
    dsimp only at h03
    subst hcd
    rw [if_neg (by decide), if_neg (by decide), if_pos rfl, if_neg h03]
    simp [view_interrupt_ne]
  · cases hstep
    simp [hcf, view_iret_ne]
  · cases hstep
    simp [hfa, view, guestFlags_cli _ (v86GetIpByte s).2.v86If]
  · cases hstep
    simp [hfb, view, guestFlags_sti _ (v86GetIpByte s).2.v86If]

/-- A frame at `0000:7C00` with its stack at `0000:9000` and, in otherwise empty memory,
the instruction bytes `instr` and `operand`. -/
def frameAt (instr operand : Byte) : Machine where
  regs := ⟨0, 0, 0, 0, 0, 0, 0, 0, 0, 0x7C00, 0, 0x20202, 0x9000, 0, 0, 0, 0, 0⟩
  v86If := true
  kernelStack := 0
  mem := fun a => if a = 0x7C00 then instr else if a = 0x7C01 then operand else 0

/-- A `PUSHF` with room on the stack is carried out as on the 8086. -/
theorem v86Monitor_refines_pushf :
    (view (frameAt 0x9c 0)).step =
        some ((view (v86GetIpByte (frameAt 0x9c 0)).2).push (view (frameAt 0x9c 0)).flags) ∧
      ∃ s', v86Monitor ⟨0, 0⟩ (frameAt 0x9c 0) = .resumed s' ∧
        view s' = (view (v86GetIpByte (frameAt 0x9c 0)).2).push (view (frameAt 0x9c 0)).flags := by
  have hstep : (view (frameAt 0x9c 0)).step =
      some ((view (v86GetIpByte (frameAt 0x9c 0)).2).push (view (frameAt 0x9c 0)).flags) := by
    unfold RealMode.step
    rw [view_fetch]
    rfl
  refine ⟨hstep, (v86Monitor_refines_iff ⟨0, 0⟩ _ _ hstep).mpr ?_⟩
  refine Or.inr (Or.inr (Or.inl ⟨rfl, ?_⟩))
  intro h
  cases h

/-- `INT 10h`: the stack pointer is eight bytes down, not six. -/
theorem int_frame_differs :
    (view (frameAt 0xcd 0x10)).step = some ((view (skipIp 2 (frameAt 0xcd 0x10))).int 0x10) ∧
      v86Monitor ⟨0, 0⟩ (frameAt 0xcd 0x10) =
        .resumed (interrupt 0x10 (skipIp 2 (frameAt 0xcd 0x10))) ∧
      view (interrupt 0x10 (skipIp 2 (frameAt 0xcd 0x10))) ≠
        (view (skipIp 2 (frameAt 0xcd 0x10))).int 0x10 := by
  have hsize : ¬IsSizeByte (v86GetIpByte (frameAt 0xcd 0x10)).1 := by
    intro h
    rcases h with h | h <;> cases h
  refine ⟨?_, ?_, view_interrupt_ne _ _⟩
  · unfold RealMode.step
    rw [view_fetch]
    rfl
  · rw [v86Monitor_of_not_sizeByte _ _ hsize]
    rfl

end JustKernel.V86
