import JustKernel.Proc.V86RealMode

/-! What the monitor pops is what it pushed. A push lays its bytes out from a 16-bit offset
on without wrapping inside the value, and a pop reads them back from the same linear address,
so that the two are inverse wherever the stack pointer wraps, as long as the guest leaves
those bytes, the stack segment and the stack pointer alone between them. The frame of `INT n`
is made of three pushes of which none touches the bytes of another. -/

namespace JustKernel.V86

open Memory

/-- The bytes of a pushed value. -/
def size (is32 : Bool) : ℕ := if is32 then 4 else 2

/-- The linear address of the stack `n` bytes above `sp`, modulo `2 ^ 16` in the segment. -/
def stackAt (s : Machine) (n : BitVec 16) : ℕ :=
  fpToLinear s.regs.userSs ((s.regs.userEsp.setWidth 16 + n).setWidth 32)

/-- The part of a value that a push of that size keeps. -/
def pushed (is32 : Bool) (value : BitVec 32) : BitVec 32 := BitVec.ofNat 32 (value.toNat % 256 ^ size is32)

/-- The guest has left the stack segment, the stack pointer and the listed pieces of the stack
alone, which are given by their offsets from `sp` and their lengths. -/
structure Untouched (pieces : List (BitVec 16 × ℕ)) (t u : Machine) : Prop where
  ss : u.regs.userSs = t.regs.userSs
  sp : u.regs.userEsp = t.regs.userEsp
  bytes : ∀ piece ∈ pieces, ∀ x, stackAt t piece.1 ≤ x → x < stackAt t piece.1 + piece.2 → u.mem x = t.mem x

section Stack

variable {s t u : Machine} {value : BitVec 32} {is32 : Bool} {a b : BitVec 16}

theorem size_le (is32 : Bool) : size is32 ≤ 4 := by
  cases is32 <;> decide

@[simp] theorem v86Push_userSs (value : BitVec 32) (is32 : Bool) (s : Machine) :
    (v86Push value is32 s).regs.userSs = s.regs.userSs := by
  cases is32 <;> rfl

@[simp] theorem v86Push_userEsp (value : BitVec 32) (is32 : Bool) (s : Machine) :
    (v86Push value is32 s).regs.userEsp =
      (s.regs.userEsp.setWidth 16 - BitVec.ofNat 16 (size is32)).setWidth 32 := by
  cases is32 <;> rfl

theorem v86Push_mem (value : BitVec 32) (is32 : Bool) (s : Machine) :
    (v86Push value is32 s).mem = store s.mem (stackAt (v86Push value is32 s) 0) (size is32) value.toNat := by
  cases is32 <;> simp [v86Push, stackAt, size]

/-- The stack pointer after a push, as a 16-bit offset. -/
theorem v86Push_sp (value : BitVec 32) (is32 : Bool) (s : Machine) :
    (v86Push value is32 s).regs.userEsp.setWidth 16 =
      s.regs.userEsp.setWidth 16 - BitVec.ofNat 16 (size is32) := by
  rw [v86Push_userEsp, BitVec.setWidth_setWidth_of_le _ (by decide), BitVec.setWidth_eq]

theorem v86Pop_eq (is32 : Bool) (s : Machine) :
    v86Pop is32 s = (BitVec.ofNat 32 (load s.mem (stackAt s 0) (size is32)),
      { s with regs := { s.regs with userEsp := (s.regs.userEsp.setWidth 16 + BitVec.ofNat 16 (size is32)).setWidth 32 } }) := by
  cases is32 <;> simp [v86Pop, stackAt, size]

/-- Pieces that do not overlap as offsets do not overlap in memory, wherever the offset wraps. -/
theorem stackAt_disjoint {m n : ℕ} (s : Machine) (hab : a.toNat + m ≤ b.toNat) (hlen : b.toNat + n ≤ 65536) :
    stackAt s a + m ≤ stackAt s b ∨ stackAt s b + n ≤ stackAt s a := by
  have ha := a.isLt
  have haddr : ∀ c : BitVec 16, stackAt s c = (s.regs.userSs.setWidth 16).toNat <<< 4 +
      ((s.regs.userEsp.setWidth 16).toNat + c.toNat) % 65536 := by
    intro c
    unfold stackAt fpToLinear
    rw [BitVec.setWidth_setWidth_of_le _ (by decide), BitVec.setWidth_eq, BitVec.toNat_add]
  rw [haddr, haddr]
  omega

/-- Offsets after a push are larger by its size. -/
theorem stackAt_v86Push (value : BitVec 32) (is32 : Bool) (s : Machine) (n : BitVec 16) :
    stackAt (v86Push value is32 s) (n + BitVec.ofNat 16 (size is32)) = stackAt s n := by
  unfold stackAt
  rw [v86Push_sp, v86Push_userSs, BitVec.add_comm n, ← BitVec.add_assoc, BitVec.sub_add_cancel]

/-- The machine with its stack pointer at that of `s`. -/
def backTo (s u : Machine) : Machine := { u with regs := { u.regs with userEsp := s.regs.userEsp } }

theorem setWidth_userEsp (hsp : s.regs.userEsp.toNat < 2 ^ 16) :
    (s.regs.userEsp.setWidth 16).setWidth 32 = s.regs.userEsp := by
  apply BitVec.eq_of_toNat_eq
  rw [BitVec.toNat_setWidth, BitVec.toNat_setWidth]
  omega

/-- Popping what was pushed. -/
theorem Untouched.pop {rest : List (BitVec 16 × ℕ)} (hsp : s.regs.userEsp.toNat < 2 ^ 16)
    (h : Untouched ((0, size is32) :: rest) (v86Push value is32 s) u) :
    v86Pop is32 u = (pushed is32 value, backTo s u) := by
  have htop : stackAt u 0 = stackAt (v86Push value is32 s) 0 := by
    rw [stackAt, h.ss, h.sp, stackAt]
  have hload : load u.mem (stackAt u 0) (size is32) = value.toNat % 256 ^ size is32 := by
    rw [htop, load_congr (h.bytes _ List.mem_cons_self), v86Push_mem, load_store_same]
  have hback : u.regs.userEsp.setWidth 16 + BitVec.ofNat 16 (size is32) = s.regs.userEsp.setWidth 16 := by
    rw [h.sp, v86Push_sp, BitVec.sub_add_cancel]
  rw [v86Pop_eq, hload, hback, setWidth_userEsp hsp]
  rfl

/-- What lies above the pushed value is still untouched after it has been popped. -/
theorem Untouched.popped {rest : List (BitVec 16 × ℕ)}
    (h : Untouched ((0, size is32) :: rest.map fun p => (p.1 + BitVec.ofNat 16 (size is32), p.2))
      (v86Push value is32 s) u)
    (hroom : ∀ p ∈ rest, p.1.toNat + size is32 + p.2 < 65536) : Untouched rest s (backTo s u) where
  ss := by
    rw [backTo, h.ss, v86Push_userSs]
  sp := rfl
  bytes p hp x hlow hhigh := by
    have hroom' := hroom p hp
    have hsize := size_le is32
    have hkept := h.bytes _ (List.mem_cons_of_mem _ (List.mem_map_of_mem hp)) x
    dsimp only at hkept
    rw [stackAt_v86Push] at hkept
    have hoff : (p.1 + BitVec.ofNat 16 (size is32)).toNat = p.1.toNat + size is32 := by
      rw [BitVec.toNat_add, BitVec.toNat_ofNat]
      omega
    -- the pushed bytes lie below the piece, or above it if the offset wraps between them
    have hdisj := @stackAt_disjoint 0 (p.1 + BitVec.ofNat 16 (size is32)) (size is32) p.2 (v86Push value is32 s)
      (by rw [hoff, show (0 : BitVec 16).toNat = 0 from rfl]; omega) (by rw [hoff]; omega)
    rw [stackAt_v86Push] at hdisj
    show u.mem x = s.mem x
    rw [hkept hlow hhigh, v86Push_mem]
    exact store_apply_of_not_mem _ _ _ _ _ (by omega)

/-- Only the stack's own registers and bytes matter. -/
theorem Untouched.congr {pieces : List (BitVec 16 × ℕ)} {t' u' : Machine} (h : Untouched pieces t u)
    (ht : t'.regs.userSs = t.regs.userSs ∧ t'.regs.userEsp = t.regs.userEsp ∧ t'.mem = t.mem)
    (hu : u'.regs.userSs = u.regs.userSs ∧ u'.regs.userEsp = u.regs.userEsp ∧ u'.mem = u.mem) :
    Untouched pieces t' u' := by
  have haddr : ∀ n, stackAt t' n = stackAt t n := by
    intro n
    rw [stackAt, ht.1, ht.2.1, stackAt]
  refine ⟨?_, ?_, fun p hp x => ?_⟩
  · rw [hu.1, ht.1, h.ss]
  · rw [hu.2.1, ht.2.1, h.sp]
  · rw [haddr, hu.2.2, ht.2.2]
    exact h.bytes p hp x

end Stack

/-! ### The instructions -/

/-- The frame of `INT n`: the return address as a double word, `cs`, and the flags. -/
def intFrame : List (BitVec 16 × ℕ) := [(0, 4), (4, 2), (6, 2)]

/-- The handler has returned to where `s` would have gone on: the code segment, the
instruction pointer, the stack pointer, the guest's interrupt flag, and the low 16 flag bits
other than bit 1, which is always set, and bit 9, which the monitor keeps in `v86_if`. -/
structure Returned (s v : Machine) : Prop where
  cs : v.regs.cs = (s.regs.cs.setWidth 16).setWidth 32
  eip : v.regs.eip = s.regs.eip
  sp : v.regs.userEsp = s.regs.userEsp
  flags : ∀ i < 16, i ≠ 1 → i ≠ 9 → v.regs.eflags.getLsbD i = s.regs.eflags.getLsbD i
  v86If : v.v86If = s.v86If

section Instructions

variable {s t u s₁ u₁ : Machine} {n : Byte} {o : Bool}

theorem pushed_true (value : BitVec 32) : pushed true value = value := by
  apply BitVec.eq_of_toNat_eq
  have := value.isLt
  rw [pushed, BitVec.toNat_ofNat]
  unfold size
  simp only [if_true]
  omega

theorem pushed_false (value : BitVec 32) : pushed false value = (value.setWidth 16).setWidth 32 := by
  apply BitVec.eq_of_toNat_eq
  rw [pushed, BitVec.toNat_ofNat, BitVec.toNat_setWidth, BitVec.toNat_setWidth]
  rfl

theorem getLsbD_pushed (is32 : Bool) (value : BitVec 32) {i : ℕ} (hi : i < 16) :
    (pushed is32 value).getLsbD i = value.getLsbD i := by
  cases is32 with
  | false => simp [pushed_false, hi, show i < 32 by omega]
  | true => rw [pushed_true]

/-- Flags that have been shown to the guest and popped again. -/
theorem getLsbD_flagsImage (s : Machine) (is32 : Bool) {i : ℕ} (hi : i < 16) (h1 : i ≠ 1) :
    (pushed is32 (flagsImage s) ||| 0x20002).getLsbD i =
      if i = 9 then s.v86If else s.regs.eflags.getLsbD i := by
  have hmask : (0x20002 : BitVec 32).getLsbD i = false := by
    revert h1
    revert i
    decide
  rw [BitVec.getLsbD_or, hmask, Bool.or_false, getLsbD_pushed is32 _ hi, flagsImage, getLsbD_withIf _ _ (by omega),
    BitVec.getLsbD_or, hmask, Bool.or_false]

/-- The flags that the handler's return restores, other than bit 1. -/
theorem getLsbD_popped (s : Machine) (is32 : Bool) :
    (∀ i < 16, i ≠ 1 → i ≠ 9 →
      (pushed is32 (flagsImage s) ||| 0x20002).getLsbD i = s.regs.eflags.getLsbD i) ∧
    (pushed is32 (flagsImage s) ||| 0x20002).getLsbD 9 = s.v86If := by
  refine ⟨fun i hi h1 h9 => ?_, ?_⟩
  · rw [getLsbD_flagsImage s is32 hi h1, if_neg h9]
  · rw [getLsbD_flagsImage s is32 (by decide) (by decide), if_pos rfl]

/-- `IRET` after `INT n`. -/
theorem iret_interrupt (hsp : s.regs.userEsp.toNat < 2 ^ 16) (h : Untouched intFrame (interrupt n s) u) :
    Returned s (iret u) := by
  have hlow : ∀ v b m, (v86Push v b m).regs.userEsp.toNat < 2 ^ 16 := by
    intro v b m
    rw [v86Push_userEsp, BitVec.toNat_setWidth]
    omega
  -- the three pushes, and the pops that undo them one by one
  have hpushes : ∃ A B, A = v86Push (flagsImage s) false s ∧ B = v86Push A.regs.cs false A := ⟨_, _, rfl, rfl⟩
  obtain ⟨A, B, hA, hB⟩ := hpushes
  have hframe : Untouched ((0, size true) :: [((0 : BitVec 16), 2), (2, 2)].map
      fun p => (p.1 + BitVec.ofNat 16 (size true), p.2)) (v86Push B.regs.eip true B) u := by
    refine h.congr ?_ ⟨rfl, rfl, rfl⟩
    rw [hB, hA]
    exact ⟨rfl, rfl, rfl⟩
  have hpop₁ := hframe.pop (hB ▸ hlow _ _ _)
  have hframe₁ := hframe.popped (by decide)
  generalize hu₁ : ({ backTo B u with regs := { (backTo B u).regs with eip := pushed true B.regs.eip } } : Machine) = u₁
  have hframe₁' : Untouched ((0, size false) :: [((0 : BitVec 16), 2)].map
      fun p => (p.1 + BitVec.ofNat 16 (size false), p.2)) (v86Push A.regs.cs false A) u₁ := by
    rw [← hB, ← hu₁]
    exact hframe₁.congr ⟨rfl, rfl, rfl⟩ ⟨rfl, rfl, rfl⟩
  have hpop₂ := hframe₁'.pop (hA ▸ hlow _ _ _)
  have hframe₂ := hframe₁'.popped (by decide)
  generalize hu₂ : ({ backTo A u₁ with regs := { (backTo A u₁).regs with cs := pushed false A.regs.cs } } : Machine) = u₂
  have hframe₂' : Untouched [(0, size false)] (v86Push (flagsImage s) false s) u₂ := by
    rw [← hA, ← hu₂]
    exact hframe₂.congr ⟨rfl, rfl, rfl⟩ ⟨rfl, rfl, rfl⟩
  have hpop₃ := hframe₂'.pop hsp
  have hiret : iret u = { backTo s u₂ with
      regs := { (backTo s u₂).regs with eflags := pushed false (flagsImage s) ||| 0x20002 }
      v86If := (pushed false (flagsImage s) ||| 0x20002).getLsbD 9 } := by
    rw [iret, hpop₁]
    dsimp only
    rw [hu₁, hpop₂]
    dsimp only
    rw [hu₂, hpop₃]
  have hcs : A.regs.cs = s.regs.cs := by
    rw [hA]
    rfl
  have heip : B.regs.eip = s.regs.eip := by
    rw [hB, hA]
    rfl
  obtain ⟨hflags, hif⟩ := getLsbD_popped s false
  rw [hiret]
  constructor
  · rw [← hcs, ← pushed_false, ← hu₂]
    rfl
  · rw [← heip, ← pushed_true B.regs.eip, ← hu₂, ← hu₁]
    rfl
  · rfl
  · exact hflags
  · exact hif

/-- `POPF` after `PUSHF` with the same operand size. -/
theorem popf_pushf (hsp : s.regs.userEsp.toNat < 2 ^ 16) (h : Untouched [(0, size o)] (pushf o s) u) :
    (popf o u).regs.userEsp = s.regs.userEsp ∧ (popf o u).v86If = s.v86If := by
  have hpop := h.pop hsp
  have hpopf : popf o u = { backTo s u with
      v86If := (pushed o (flagsImage s) ||| 0x20002).getLsbD 9
      regs := { (backTo s u).regs with eflags := pushed o (flagsImage s) ||| 0x20002 } } := by
    rw [popf, hpop]
  rw [hpopf]
  exact ⟨rfl, (getLsbD_popped s o).2⟩

end Instructions

/-! ### The monitor -/

/-- Prefixes move the instruction pointer only. -/
theorem v86Decode_kept {k : ℕ} {o o' : Bool} {s s' : Machine} {instr : Byte}
    (h : v86Decode k o s = some (instr, o', s')) : ∃ eip, s' = { s with regs := { s.regs with eip := eip } } := by
  obtain ⟨j, -, -, -, hs⟩ := v86Decode_eq_some h
  exact ⟨_, hs.trans (skipIp_eq _ s)⟩

theorem v86Monitor_of_decode {sym : Symbols} {s s₁ : Machine} {instr : Byte} {o : Bool}
    (h : v86Decode 65536 false s = some (instr, o, s₁)) : v86Monitor sym s = v86Execute sym instr o s₁ := by
  rw [v86Monitor, h]

/-- Wherever the stack pointer is in its segment: `INT n` and, after a handler that leaves the
stack alone, `IRET` give back the state with the instruction pointer behind the `INT`; `PUSHF`
and then `POPF` of the same operand size give back the stack pointer and the guest's interrupt
flag. -/
theorem v86Monitor_restores (sym : Symbols) (s : Machine) (hsp : s.regs.userEsp.toNat < 2 ^ 16) :
    (∀ o s₁, v86Decode 65536 false s = some (0xcd, o, s₁) → (v86GetIpByte s₁).1 ≠ 3 →
      ∃ t, v86Monitor sym s = .resumed t ∧ ∀ u, Untouched intFrame t u →
        ∀ o' u₁, v86Decode 65536 false u = some (0xcf, o', u₁) → ∃ v, v86Monitor sym u = .resumed v ∧
          Returned { s with regs := { s.regs with eip := (v86GetIpByte s₁).2.regs.eip } } v) ∧
    ∀ o s₁, v86Decode 65536 false s = some (0x9c, o, s₁) →
      ∃ t, v86Monitor sym s = .resumed t ∧ ∀ u, Untouched [(0, size o)] t u →
        ∀ u₁, v86Decode 65536 false u = some (0x9d, o, u₁) → ∃ v, v86Monitor sym u = .resumed v ∧
          v.regs.userEsp = s.regs.userEsp ∧ v.v86If = s.v86If := by
  constructor
  · intro o s₁ hint hn
    obtain ⟨eip, hs₁⟩ := v86Decode_kept hint
    have hafter : (v86GetIpByte s₁).2 =
        { s with regs := { s.regs with eip := (v86GetIpByte s₁).2.regs.eip } } := by
      rw [hs₁]
      rfl
    have hrun : v86Monitor sym s = .resumed (interrupt (v86GetIpByte s₁).1 (v86GetIpByte s₁).2) := by
      rw [v86Monitor_of_decode hint]
      simp only [v86Execute, if_neg hn]
      rfl
    refine ⟨_, hrun, fun u hu o' u₁ hiret => ?_⟩
    obtain ⟨eip', hu₁⟩ := v86Decode_kept hiret
    have hback : v86Monitor sym u = .resumed (iret u₁) := by
      rw [v86Monitor_of_decode hiret]
      rfl
    refine ⟨_, hback, ?_⟩
    rw [hafter] at hu
    exact iret_interrupt hsp (hu.congr ⟨rfl, rfl, rfl⟩ (by rw [hu₁]; exact ⟨rfl, rfl, rfl⟩))
  · intro o s₁ hpushf
    obtain ⟨eip, hs₁⟩ := v86Decode_kept hpushf
    have hrun : v86Monitor sym s = .resumed (pushf o s₁) := by
      rw [v86Monitor_of_decode hpushf]
      rfl
    refine ⟨_, hrun, fun u hu u₁ hpopf => ?_⟩
    obtain ⟨eip', hu₁⟩ := v86Decode_kept hpopf
    have hback : v86Monitor sym u = .resumed (popf o u₁) := by
      rw [v86Monitor_of_decode hpopf]
      rfl
    have hsp₁ : s₁.regs.userEsp.toNat < 2 ^ 16 := by rwa [hs₁]
    have hpop := popf_pushf hsp₁ (hu.congr ⟨rfl, rfl, rfl⟩ (by rw [hu₁]; exact ⟨rfl, rfl, rfl⟩) : Untouched _ _ u₁)
    rw [hs₁] at hpop
    exact ⟨_, hback, hpop⟩

/-- `INT 10h` with three bytes of the stack segment left, so that the pushed `cs` straddles its
end, and a handler that is a bare `IRET`. -/
def wrapGuest : Machine where
  regs := ⟨0, 0, 0, 0, 0, 0, 0, 0, 0, 0x7C00, 0, 0x20202, 3, 0x1000, 0, 0, 0, 0⟩
  v86If := true
  kernelStack := 0
  mem := fun a =>
    if a = 0x7C00 then 0xcd else if a = 0x7C01 then 0x10 else if a = 0x40 then 0x10 else if a = 0x41 then 0x7C
    else if a = 0x7C10 then 0xcf else 0

theorem v86Monitor_restores_wrapGuest : ∃ t v, v86Monitor ⟨0, 0⟩ wrapGuest = .resumed t ∧
    v86Monitor ⟨0, 0⟩ t = .resumed v ∧ v.regs.eip = 0x7C02 ∧ v.regs.userEsp = 3 := by
  have hdecode : ∀ (s : Machine) b, (v86GetIpByte s).1 = b → ¬IsSizeByte b →
      v86Decode 65536 false s = some (b, false, (v86GetIpByte s).2) := by
    rintro s b rfl hsize
    obtain ⟨h66, h67⟩ := not_or.mp hsize
    rw [v86Decode]
    simp only [if_neg h66, if_neg h67]
  have hint := hdecode wrapGuest 0xcd rfl (by unfold IsSizeByte; decide)
  obtain ⟨t, ht, hrest⟩ := (v86Monitor_restores ⟨0, 0⟩ wrapGuest (by decide)).1 false _ hint (by decide)
  have hinterrupt : t = interrupt 0x10 (skipIp 2 wrapGuest) := by
    rw [v86Monitor_of_decode hint] at ht
    exact (Outcome.resumed.inj ht).symm
  obtain ⟨v, hv, hreturned⟩ := hrest t ⟨rfl, rfl, fun _ _ _ _ _ => rfl⟩ false _
    (hdecode t 0xcf (by rw [hinterrupt]; decide) (by unfold IsSizeByte; decide))
  exact ⟨t, v, ht, hv, hreturned.eip, hreturned.sp⟩

end JustKernel.V86
