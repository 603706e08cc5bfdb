import JustKernel.Base.Words
import Mathlib.Tactic.SplitIfs

/-! The way into an interrupt and out of it, `int/int.s`, with what the processor does at both
ends. The processor changes to the stack of the kernel unless it is in ring 0 already, and
pushes where it was; the stub of the vector and `isr_common` push the rest of `core_regs_t`.
On the way out `isr_common` takes a frame, the one it pushed or another one, and everything
goes back. The frame of ring 0 ends with the flags, that of ring 3 has the stack pointer and
its segment behind them, and virtual-8086 mode the four data segments behind these.

Segment registers are selectors; that a selector can be loaded is not checked. -/

namespace JustKernel.Isr

open Memory

@[ext]
structure Cpu where
  eax : BitVec 32
  ebx : BitVec 32
  ecx : BitVec 32
  edx : BitVec 32
  esi : BitVec 32
  edi : BitVec 32
  ebp : BitVec 32
  esp : BitVec 32
  eip : BitVec 32
  eflags : BitVec 32
  cr3 : BitVec 32
  cs : BitVec 16
  ss : BitVec 16
  ds : BitVec 16
  es : BitVec 16
  fs : BitVec 16
  gs : BitVec 16
  deriving DecidableEq

structure Machine where
  cpu : Cpu
  mem : Mem

/-- The fields of `tss_entry_t` that the processor reads. -/
structure Tss where
  ss0 : BitVec 16
  esp0 : BitVec 32

def plRing (cs : BitVec 16) : BitVec 16 := cs &&& 3

def Cpu.v86Mode (c : Cpu) : Bool := c.eflags.getLsbD 17

/-- Not in ring 0. -/
def Cpu.outside (c : Cpu) : Bool := c.v86Mode || plRing c.cs != 0

/-- A selector as a double word. -/
def wide (selector : BitVec 16) : BitVec 32 := selector.setWidth 32

def Machine.push (ws : List (BitVec 32)) (s : Machine) : Machine :=
  ⟨{ s.cpu with esp := (pushWords s.mem s.cpu.esp ws).2 }, (pushWords s.mem s.cpu.esp ws).1⟩

/-- The word `n` words above the stack pointer. -/
def wordAt (m : Mem) (sp : BitVec 32) (n : ℕ) : BitVec 32 :=
  BitVec.ofNat 32 (read32 m (sp + BitVec.ofNat 32 (4 * n)).toNat)

abbrev Machine.word (s : Machine) (n : ℕ) : BitVec 32 := wordAt s.mem s.cpu.esp n

/-- Take `n` words off the stack. -/
def Cpu.drop (c : Cpu) (n : ℕ) : Cpu := { c with esp := c.esp + BitVec.ofNat 32 (4 * n) }

/-! ### In -/

/-- `TF`, `IF`, `NT`, `RF` and `VM`, which an interrupt gate clears. -/
def gateMask : BitVec 32 := 0x34300

/-- The processor takes an interrupt or an exception through a gate of `idt_set_gate`. -/
def interrupt (tss : Tss) (handler : BitVec 32) (err : Option (BitVec 32)) (s : Machine) : Machine :=
  let c := s.cpu
  let s := if c.outside then { s with cpu := { c with ss := tss.ss0, esp := tss.esp0 } } else s
  let s := if c.v86Mode then s.push [wide c.gs, wide c.fs, wide c.ds, wide c.es] else s
  let s := if c.outside then s.push [wide c.ss, c.esp] else s
  let s := s.push [c.eflags, wide c.cs, c.eip]
  let s := s.push err.toList
  let s := if c.v86Mode then { s with cpu := { s.cpu with ds := 0, es := 0, fs := 0, gs := 0 } } else s
  { s with cpu := { s.cpu with cs := 0x08, eip := handler, eflags := c.eflags &&& ~~~gateMask } }

/-- The vectors with `error_isr`. -/
def errorIsrs : List ℕ := [8, 10, 11, 12, 13, 14]

/-- `isr0` to `isr255`. -/
def isr (num : ℕ) (s : Machine) : Machine :=
  s.push (if num ∈ errorIsrs then [BitVec.ofNat 32 num] else [0, BitVec.ofNat 32 num])

def pushad (s : Machine) : Machine :=
  let c := s.cpu
  s.push [c.eax, c.ecx, c.edx, c.ebx, c.esp, c.ebp, c.esi, c.edi]

def saveRegs (s : Machine) : Machine :=
  let s := pushad s
  let s : Machine := { s with cpu := { s.cpu with eax := wide s.cpu.ds } }
  let s := s.push [s.cpu.eax]
  let s : Machine := { s with cpu := { s.cpu with eax := s.cpu.cr3 } }
  s.push [s.cpu.eax]

def switchSeg (s : Machine) : Machine :=
  { s with cpu := { s.cpu with ebx := 0x10, ds := 0x10, es := 0x10, fs := 0x10, gs := 0x10 } }

/-- All the way to the call of `isr_handler`; the frame is at the stack pointer then. -/
def isrEntry (tss : Tss) (handler : BitVec 32) (err : Option (BitVec 32)) (num : ℕ) (s : Machine) : Machine :=
  switchSeg (saveRegs (isr num (interrupt tss handler err s)))

/-! ### Out -/

def restoreRegs (s : Machine) : Machine :=
  let cr3 := s.word 0
  let s : Machine := { s with cpu := { s.cpu.drop 1 with
    eax := cr3, ebx := s.cpu.cr3, cr3 := if cr3 = s.cpu.cr3 then s.cpu.cr3 else cr3 } }
  let ds := s.word 0
  let s : Machine := { s with cpu := { s.cpu.drop 1 with
    eax := ds, ds := ds.setWidth 16, es := ds.setWidth 16 } }
  -- `popad`, which skips `esp`
  { s with cpu := { s.cpu.drop 8 with
      edi := s.word 0, esi := s.word 1, ebp := s.word 2, ebx := s.word 4, edx := s.word 5, ecx := s.word 6
      eax := s.word 7 } }

/-- What `iret` to an outer ring leaves in a data segment: it takes segments of the kernel away. -/
def outward (selector : BitVec 16) : BitVec 16 :=
  if selector >>> 3 = 1 ∨ selector >>> 3 = 2 then 0 else selector

/-- `iret` in ring 0. -/
def iret (s : Machine) : Machine :=
  let c := { s.cpu with eip := s.word 0, cs := (s.word 1).setWidth 16, eflags := s.word 2 }
  if c.v86Mode then
    { s with cpu := { c with
        esp := s.word 3, ss := (s.word 4).setWidth 16, es := (s.word 5).setWidth 16
        ds := (s.word 6).setWidth 16, fs := (s.word 7).setWidth 16, gs := (s.word 8).setWidth 16 } }
  else if plRing c.cs ≠ 0 then
    { s with cpu := { c with
        esp := s.word 3, ss := (s.word 4).setWidth 16, ds := outward c.ds, es := outward c.es
        fs := outward c.fs, gs := outward c.gs } }
  else { s with cpu := c.drop 3 }

/-- From the return of `isr_handler` on, with the frame that it left to go back to. -/
def isrExit (back : BitVec 32) (s : Machine) : Machine :=
  let s : Machine := { s with cpu := { s.cpu with esp := back } }
  let s := restoreRegs s
  iret { s with cpu := s.cpu.drop 2 }

/-! ### Frames -/

/-- `core_regs_t` for a processor that was interrupted in the state `c`. The field `esp` of `base`
is the kernel's own stack pointer and is not read again. -/
def frameWords (c : Cpu) (esp num err : BitVec 32) : List (BitVec 32) :=
  [c.cr3, wide (if c.v86Mode then 0 else c.ds), c.edi, c.esi, c.ebp, esp, c.ebx, c.edx, c.ecx, c.eax,
    num, err, c.eip, wide c.cs, c.eflags] ++
  (if c.outside then [c.esp, wide c.ss] else []) ++
  (if c.v86Mode then [wide c.es, wide c.ds, wide c.fs, wide c.gs] else [])

/-- The bytes of the frame. -/
def frameSize (c : Cpu) : ℕ := 60 + (if c.outside then 8 else 0) + (if c.v86Mode then 16 else 0)

/-- A frame at `a` from which the processor goes on in the state `c`. -/
structure Framed (m : Mem) (a : ℕ) (c : Cpu) : Prop where
  words : ∃ esp num err, Laid m a (frameWords c esp num err)
  room : a + frameSize c ≤ 4294967296
  inside : c.outside = false → c.esp.toNat = a + 60

/-- The state that comes out of the frame of `c` when the handler left the processor in `u`: the
frame has `ds` for both `ds` and `es` outside virtual-8086 mode, and no `fs` and `gs`. -/
def resumed (c u : Cpu) : Cpu :=
  if c.v86Mode then c
  else if c.outside then
    { c with ds := outward c.ds, es := outward c.ds, fs := outward u.fs, gs := outward u.gs }
  else { c with es := c.ds, fs := u.fs, gs := u.gs, ss := u.ss }

section Entry

variable {tss : Tss} {handler : BitVec 32} {err : Option (BitVec 32)} {num : ℕ} {s t : Machine} {c : Cpu}

@[simp] theorem wide_setWidth (selector : BitVec 16) : (wide selector).setWidth 16 = selector := by
  rw [wide, BitVec.setWidth_setWidth_of_le _ (by decide), BitVec.setWidth_eq]

theorem push_push (ws vs : List (BitVec 32)) : (s.push ws).push vs = s.push (ws ++ vs) := by
  simp [Machine.push, pushWords_append]

theorem outside_of_v86Mode (h : c.v86Mode = true) : c.outside = true := by rw [Cpu.outside, h, Bool.true_or]

theorem length_frameWords (c : Cpu) (esp num err : BitVec 32) :
    4 * (frameWords c esp num err).length = frameSize c := by
  unfold frameWords frameSize
  split_ifs <;> simp

theorem frameSize_inside (h : c.outside = false) : frameSize c = 60 := by
  have hv : c.v86Mode = false := by
    by_contra hv
    rw [outside_of_v86Mode (by simpa using hv)] at h
    cases h
  simp [frameSize, h, hv]

theorem frameSize_le (c : Cpu) : frameSize c ≤ 84 := by
  unfold frameSize
  split_ifs <;> omega

/-- The kernel's stack pointer when the interrupt comes. -/
def kernelSp (tss : Tss) (c : Cpu) : BitVec 32 := if c.outside then tss.esp0 else c.esp

/-- What the processor pushes. -/
def gateWords (c : Cpu) (err : Option (BitVec 32)) : List (BitVec 32) :=
  (if c.v86Mode then [wide c.gs, wide c.fs, wide c.ds, wide c.es] else []) ++
  (if c.outside then [wide c.ss, c.esp] else []) ++ [c.eflags, wide c.cs, c.eip] ++ err.toList

theorem interrupt_eq : ∃ ss es fs gs, interrupt tss handler err s =
    (⟨{ s.cpu with
        esp := kernelSp tss s.cpu, ss := ss, ds := if s.cpu.v86Mode then 0 else s.cpu.ds, es := es, fs := fs
        gs := gs, cs := 0x08, eip := handler, eflags := s.cpu.eflags &&& ~~~gateMask }, s.mem⟩ : Machine).push
      (gateWords s.cpu err) := by
  unfold interrupt gateWords kernelSp
  cases hv : s.cpu.v86Mode with
  | true =>
    simp only [hv, outside_of_v86Mode hv, if_true, push_push]
    exact ⟨_, _, _, _, rfl⟩
  | false =>
    cases ho : s.cpu.outside with
    | true =>
      simp only [hv, ho, if_true, Bool.false_eq_true, if_false, push_push]
      exact ⟨_, _, _, _, rfl⟩
    | false =>
      simp only [hv, ho, Bool.false_eq_true, if_false, push_push]
      exact ⟨_, _, _, _, rfl⟩

/-- What `save_regs` pushes. -/
def saveWords (c : Cpu) : List (BitVec 32) :=
  [c.eax, c.ecx, c.edx, c.ebx, c.esp, c.ebp, c.esi, c.edi, wide c.ds, c.cr3]

theorem saveRegs_eq (s : Machine) :
    ((saveRegs s).mem, (saveRegs s).cpu.esp) = pushWords s.mem s.cpu.esp (saveWords s.cpu) := by
  rw [show saveWords s.cpu = [s.cpu.eax, s.cpu.ecx, s.cpu.edx, s.cpu.ebx, s.cpu.esp, s.cpu.ebp, s.cpu.esi,
    s.cpu.edi] ++ [wide s.cpu.ds] ++ [s.cpu.cr3] from rfl, pushWords_append, pushWords_append]
  rfl

theorem pushWords_push (ws vs : List (BitVec 32)) :
    pushWords (s.push ws).mem (s.push ws).cpu.esp vs = pushWords s.mem s.cpu.esp (ws ++ vs) :=
  pushWords_append.symm

/-- All that is pushed is the frame. -/
theorem isrEntry_eq (herr : err.isSome = decide (num ∈ errorIsrs)) : ∃ esp,
    ((isrEntry tss handler err num s).mem, (isrEntry tss handler err num s).cpu.esp) =
      pushWords s.mem (kernelSp tss s.cpu) (frameWords s.cpu esp (BitVec.ofNat 32 num) (err.getD 0)).reverse := by
  obtain ⟨ss, es, fs, gs, heq⟩ := @interrupt_eq tss handler err s
  have hstub : err.toList ++ (if num ∈ errorIsrs then [BitVec.ofNat 32 num] else [0, BitVec.ofNat 32 num]) =
      [err.getD 0, BitVec.ofNat 32 num] := by
    cases err <;> simp_all
  generalize ht : isr num (interrupt tss handler err s) = t
  have hsave : ((isrEntry tss handler err num s).mem, (isrEntry tss handler err num s).cpu.esp) =
      pushWords t.mem t.cpu.esp (saveWords t.cpu) := by
    rw [← saveRegs_eq, ← ht]
    rfl
  have hwords : saveWords t.cpu = [s.cpu.eax, s.cpu.ecx, s.cpu.edx, s.cpu.ebx, t.cpu.esp, s.cpu.ebp, s.cpu.esi,
      s.cpu.edi, wide (if s.cpu.v86Mode then 0 else s.cpu.ds), s.cpu.cr3] := by
    rw [← ht, isr, heq]
    rfl
  have hbefore : ∀ ws, pushWords t.mem t.cpu.esp ws = pushWords s.mem (kernelSp tss s.cpu)
      (gateWords s.cpu err ++
        (if num ∈ errorIsrs then [BitVec.ofNat 32 num] else [0, BitVec.ofNat 32 num]) ++ ws) := by
    intro ws
    rw [← ht, isr, heq, push_push]
    exact pushWords_push _ ws
  refine ⟨t.cpu.esp, hsave.trans ?_⟩
  rw [hwords, hbefore, gateWords, List.append_assoc _ err.toList, hstub]
  congr 1
  unfold frameWords
  cases hv : s.cpu.v86Mode with
  | true => simp [outside_of_v86Mode hv]
  | false => cases ho : s.cpu.outside <;> simp

/-- The frame that an interrupt leaves. -/
theorem isrEntry_framed (herr : err.isSome = decide (num ∈ errorIsrs))
    (hroom : 84 ≤ (kernelSp tss s.cpu).toNat) :
    Framed (isrEntry tss handler err num s).mem (isrEntry tss handler err num s).cpu.esp.toNat s.cpu ∧
      (isrEntry tss handler err num s).cpu.esp.toNat + frameSize s.cpu = (kernelSp tss s.cpu).toNat ∧
      (∀ x, x < (isrEntry tss handler err num s).cpu.esp.toNat ∨ (kernelSp tss s.cpu).toNat ≤ x →
        (isrEntry tss handler err num s).mem x = s.mem x) := by
  obtain ⟨esp, heq⟩ := @isrEntry_eq tss handler err num s herr
  obtain ⟨hmem, hesp⟩ := Prod.mk.inj heq
  have hlen := length_frameWords s.cpu esp (BitVec.ofNat 32 num) (err.getD 0)
  have hsize := frameSize_le s.cpu
  rw [← List.length_reverse] at hlen
  have hsp := toNat_pushWords (m := s.mem) (hlen.trans_le (hsize.trans hroom))
  rw [← hesp, hlen] at hsp
  refine ⟨⟨⟨esp, BitVec.ofNat 32 num, err.getD 0, ?_⟩, ?_, fun ho => ?_⟩, by omega, fun x hx => ?_⟩
  · have hlaid := @Laid.push s.mem (kernelSp tss s.cpu) _ [] trivial (hlen.trans_le (hsize.trans hroom))
    rw [List.reverse_reverse, List.append_nil] at hlaid
    rw [hmem, hesp]
    exact hlaid
  · have := (kernelSp tss s.cpu).isLt
    omega
  · have h60 := frameSize_inside ho
    have hk : kernelSp tss s.cpu = s.cpu.esp := by rw [kernelSp, ho]; rfl
    rw [hk] at hsp hroom
    omega
  · rw [hmem]
    exact pushWords_other (hlen.trans_le (hsize.trans hroom)) (by omega)

end Entry

section Exit

variable {c u : Cpu} {s : Machine} {m : Mem} {sp : BitVec 32}

theorem wordAt_add (m : Mem) (sp : BitVec 32) (k n : ℕ) :
    wordAt m (sp + BitVec.ofNat 32 (4 * k)) n = wordAt m sp (k + n) := by
  unfold wordAt
  rw [BitVec.add_assoc, ← BitVec.ofNat_add, Nat.mul_add]

theorem add_words (sp : BitVec 32) (k n : ℕ) :
    sp + BitVec.ofNat 32 (4 * k) + BitVec.ofNat 32 (4 * n) = sp + BitVec.ofNat 32 (4 * (k + n)) := by
  rw [BitVec.add_assoc, ← BitVec.ofNat_add, Nat.mul_add]

/-- The jump around the load of `cr3`. -/
theorem ite_same (a b : BitVec 32) [Decidable (a = b)] : (if a = b then b else a) = a := by
  split_ifs with h
  · exact h.symm
  · rfl

theorem restoreRegs_eq (s : Machine) : restoreRegs s =
    ⟨{ s.cpu with
        cr3 := s.word 0, ds := (s.word 1).setWidth 16, es := (s.word 1).setWidth 16, edi := s.word 2
        esi := s.word 3, ebp := s.word 4, ebx := s.word 6, edx := s.word 7, ecx := s.word 8, eax := s.word 9
        esp := s.cpu.esp + BitVec.ofNat 32 (4 * 10) }, s.mem⟩ := by
  simp only [restoreRegs, Cpu.drop, Machine.word, add_words, wordAt_add, ite_same]

/-- What a frame has at an index. -/
theorem Framed.word (h : Framed m sp.toNat c) : ∃ esp num err, ∀ n w,
    (frameWords c esp num err)[n]? = some w → wordAt m sp n = w := by
  obtain ⟨⟨esp, num, err, hlaid⟩, hroom, -⟩ := h
  refine ⟨esp, num, err, fun n w hn => ?_⟩
  have hlen := length_frameWords c esp num err
  have hlt : n < (frameWords c esp num err).length := (List.getElem?_eq_some_iff.mp hn).1
  have hadd : (sp + BitVec.ofNat 32 (4 * n)).toNat = sp.toNat + 4 * n := by
    rw [BitVec.toNat_add, BitVec.toNat_ofNat]
    omega
  rw [wordAt, hadd, hlaid.get hn, BitVec.ofNat_toNat, BitVec.setWidth_eq]

/-- The way out of a frame. -/
theorem isrExit_framed (h : Framed s.mem sp.toNat c) : isrExit sp s = ⟨resumed c s.cpu, s.mem⟩ := by
  obtain ⟨esp, num, err, hword⟩ := h.word
  have h0 := hword 0 c.cr3 rfl
  have h1 := hword 1 _ rfl
  have h2 := hword 2 c.edi rfl
  have h3 := hword 3 c.esi rfl
  have h4 := hword 4 c.ebp rfl
  have h6 := hword 6 c.ebx rfl
  have h7 := hword 7 c.edx rfl
  have h8 := hword 8 c.ecx rfl
  have h9 := hword 9 c.eax rfl
  have h12 := hword 12 c.eip rfl
  have h13 := hword 13 (wide c.cs) rfl
  have h14 := hword 14 c.eflags rfl
  have hback : c.outside = false → sp + BitVec.ofNat 32 60 = c.esp := by
    intro ho
    apply BitVec.eq_of_toNat_eq
    have := c.esp.isLt
    rw [h.inside ho, BitVec.toNat_add, BitVec.toNat_ofNat]
    have := h.inside ho
    omega
  simp only [isrExit, restoreRegs_eq, iret, Cpu.drop, Machine.word, add_words, wordAt_add]
  simp only [Nat.reduceAdd, Nat.reduceMul, h0, h1, h2, h3, h4, h6, h7, h8, h9, h12, h13, h14, wide_setWidth]
  cases hv : c.v86Mode with
  | true =>
    have hv' : c.eflags.getLsbD 17 = true := hv
    have h15 := hword 15 c.esp (by simp [frameWords, outside_of_v86Mode hv])
    have h16 := hword 16 (wide c.ss) (by simp [frameWords, outside_of_v86Mode hv])
    have h17 := hword 17 (wide c.es) (by simp [frameWords, outside_of_v86Mode hv, hv])
    have h18 := hword 18 (wide c.ds) (by simp [frameWords, outside_of_v86Mode hv, hv])
    have h19 := hword 19 (wide c.fs) (by simp [frameWords, outside_of_v86Mode hv, hv])
    have h20 := hword 20 (wide c.gs) (by simp [frameWords, outside_of_v86Mode hv, hv])
    simp only [resumed, Cpu.v86Mode, hv', if_true, h15, h16, h17, h18, h19, h20, wide_setWidth]
  | false =>
    have hv' : c.eflags.getLsbD 17 = false := hv
    simp only [resumed, Cpu.v86Mode, hv', Bool.false_eq_true, if_false]
    cases ho : c.outside with
    | true =>
      have hring : plRing c.cs ≠ 0 := by simpa [Cpu.outside, hv] using ho
      have h15 := hword 15 c.esp (by simp [frameWords, ho])
      have h16 := hword 16 (wide c.ss) (by simp [frameWords, ho])
      simp only [if_pos hring, if_true, h15, h16, wide_setWidth]
    | false =>
      have hring : ¬plRing c.cs ≠ 0 := by simpa [Cpu.outside, hv] using ho
      simp only [if_neg hring, Bool.false_eq_true, if_false, hback ho]

/-- A frame is its own bytes. -/
theorem Framed.congr {m' : Mem} {a : ℕ} (h : Framed m a c)
    (hm : ∀ x, a ≤ x → x < a + frameSize c → m' x = m x) : Framed m' a c := by
  obtain ⟨⟨esp, num, err, hlaid⟩, hroom, hinside⟩ := h
  refine ⟨⟨esp, num, err, hlaid.congr fun x h1 h2 => hm x h1 ?_⟩, hroom, hinside⟩
  rw [length_frameWords] at h2
  exact h2

/-- The segments as the kernel and its threads have them: one data segment, and none in `fs` and
`gs` outside the kernel. Virtual-8086 mode has all four to itself. -/
def Cpu.Plain (c : Cpu) : Prop :=
  c.v86Mode = true ∨ c.es = c.ds ∧
    if c.outside then outward c.ds = c.ds ∧ c.fs = 0 ∧ c.gs = 0
    else c.fs = 0x10 ∧ c.gs = 0x10 ∧ c.ss = 0x10

/-- The segments that `switch_seg` and the change of the stack load. -/
structure Cpu.InKernel (u : Cpu) : Prop where
  fs : u.fs = 0x10
  gs : u.gs = 0x10
  ss : u.ss = 0x10

theorem resumed_of_plain (hc : c.Plain) (hu : u.InKernel) : resumed c u = c := by
  unfold resumed
  rcases hc with hv | ⟨hes, hseg⟩
  · exact if_pos hv
  · by_cases hv : c.v86Mode = true
    · exact if_pos hv
    · rw [if_neg hv]
      cases ho : c.outside with
      | true =>
        rw [ho, if_pos rfl] at hseg
        obtain ⟨hds, hfs, hgs⟩ := hseg
        have h0 : outward 16#16 = 0#16 := by decide
        apply Cpu.ext <;> simp [hu.fs, hu.gs, h0, hes, hds, hfs, hgs]
      | false =>
        rw [ho, if_neg Bool.false_ne_true] at hseg
        obtain ⟨hfs, hgs, hss⟩ := hseg
        apply Cpu.ext <;> simp [hu.fs, hu.gs, hu.ss, hes, hfs, hgs, hss]

end Exit

/-- For every mode, vector and error code: whatever the handler does outside the frame that the
interrupt left, and whatever state it leaves the processor in, the way out of that frame goes
back to what was interrupted. Above the kernel's old stack pointer and below the frame nothing
was written. -/
theorem isr_round_trip {tss : Tss} {handler : BitVec 32} {err : Option (BitVec 32)} {num : ℕ} {s u : Machine}
    (herr : err.isSome = decide (num ∈ errorIsrs)) (hroom : 84 ≤ (kernelSp tss s.cpu).toNat)
    (hu : ∀ x, (isrEntry tss handler err num s).cpu.esp.toNat ≤ x → x < (kernelSp tss s.cpu).toNat →
      u.mem x = (isrEntry tss handler err num s).mem x) :
    isrExit (isrEntry tss handler err num s).cpu.esp u = ⟨resumed s.cpu u.cpu, u.mem⟩ ∧
      (s.cpu.Plain → u.cpu.InKernel → resumed s.cpu u.cpu = s.cpu) ∧
      ∀ x, x < (isrEntry tss handler err num s).cpu.esp.toNat ∨ (kernelSp tss s.cpu).toNat ≤ x →
        (isrEntry tss handler err num s).mem x = s.mem x := by
  obtain ⟨hframed, htop, hother⟩ := @isrEntry_framed tss handler err num s herr hroom
  refine ⟨isrExit_framed (hframed.congr fun x h1 h2 => hu x h1 (by omega)), resumed_of_plain, hother⟩

/-- A page fault in ring 3. -/
def faulting : Machine where
  cpu := {
    eax := 1, ebx := 2, ecx := 3, edx := 4, esi := 5, edi := 6, ebp := 7, esp := 0x50000F00, eip := 0x8048000
    eflags := 0x202, cr3 := 0x5000, cs := 0x1B, ss := 0x23, ds := 0x23, es := 0x23, fs := 0, gs := 0 }
  mem _ := 0

theorem isr_round_trip_page_fault : ∃ u : Machine, isrExit 0x1FBC u = ⟨faulting.cpu, u.mem⟩ := by
  have hesp : (isrEntry ⟨0x10, 0x2000⟩ 0x100000 (some 4) 14 faulting).cpu.esp = 0x1FBC := rfl
  have hkernel : Cpu.InKernel (isrEntry ⟨0x10, 0x2000⟩ 0x100000 (some 4) 14 faulting).cpu :=
    ⟨rfl, rfl, rfl⟩
  obtain ⟨hexit, hplain, -⟩ := @isr_round_trip ⟨0x10, 0x2000⟩ 0x100000 (some 4) 14 faulting _ (by decide) (by decide)
    (fun _ _ _ => rfl)
  rw [hplain (Or.inr ⟨rfl, by decide⟩) hkernel, hesp] at hexit
  exact ⟨_, hexit⟩

end JustKernel.Isr
