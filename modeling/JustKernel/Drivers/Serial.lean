import JustKernel.Base.PolledFifo
import JustKernel.Klibc.Log
import Mathlib.Algebra.BigOperators.Group.Finset.Basic
import Mathlib.Tactic.IntervalCases

/-! The serial line. `serial_init` sets the UART up and `serial_writeChar` waits until the
transmitter is empty and writes one character, and a carriage return after a newline. Nothing
keeps a second writer from writing between the look and the write of the first: `ser_printf` has
one lock for interrupts and one for the rest, and both may be held at once. The queue of the
transmitter, which `serial_init` turns on, has room for what all of them write then. The device
is a 16550: it sends in its own time, and loses what it has no place for. -/

namespace JustKernel.Serial

open Memory (Byte)
open Klibc (chr serialWriteChar)
open PolledFifo (sentBy)
open Runs

def uartDar : BitVec 16 := 0
def uartIer : BitVec 16 := 1
def uartDlLow : BitVec 16 := 0
def uartDlHigh : BitVec 16 := 1
def uartFcr : BitVec 16 := 2
def uartLcr : BitVec 16 := 3
def uartMcr : BitVec 16 := 4

def uartLcrDlab : Byte := 0b10000000
def uartLcr8Bit : Byte := 0b00000011

/-- The transmitter's side of a 16550, with `base` its first port. `tx` is what waits in it, `line`
what it has sent, each character with its writer. -/
structure Uart (W : Type) where
  base : BitVec 16
  ier : Byte
  lcr : Byte
  mcr : Byte
  dll : Byte
  dlm : Byte
  fifo : Bool
  tx : List (W × Byte)
  line : List (W × Byte)

variable {W : Type}

def Uart.divisor (u : Uart W) : BitVec 16 := u.dlm ++ u.dll

/-- The places for characters that wait. -/
def Uart.depth (u : Uart W) : ℕ := if u.fifo then 16 else 1

/-- The first two registers are the divisor's while bit 7 of `UART_LCR` is set. The queue is emptied
when it is turned on or off, and by bit 2 while it is on. -/
def Uart.write (u : Uart W) (w : W) (reg : BitVec 16) (data : Byte) : Uart W :=
  match reg.toNat with
  | 0 =>
    if u.lcr.getLsbD 7 then { u with dll := data }
    else { u with tx := if u.tx.length < u.depth then u.tx ++ [(w, data)] else u.tx }
  | 1 => if u.lcr.getLsbD 7 then { u with dlm := data } else { u with ier := data }
  | 2 => { u with
      fifo := data.getLsbD 0
      tx := if data.getLsbD 0 != u.fifo || data.getLsbD 0 && data.getLsbD 2 then [] else u.tx }
  | 3 => { u with lcr := data }
  | 4 => { u with mcr := data }
  | _ => u

def portOutb (u : Uart W) (w : W) (port : BitVec 16) (data : Byte) : Uart W := u.write w (port - u.base) data

/-- `UART_LSR`; `other` has the bits that are not the transmitter's. -/
def Uart.lsr (u : Uart W) (other : Byte) : Byte := if u.tx.isEmpty then other ||| 0x20 else other &&& 0xDF

/-- The transmitter sends a character. In loopback mode, bit 4 of `UART_MCR`, it is not on the line. -/
def Uart.shift (u : Uart W) (x : W × Byte) (rest : List (W × Byte)) : Uart W :=
  { u with tx := rest, line := if u.mcr.getLsbD 4 then u.line else u.line ++ [x] }

/-- The device and `_active_port`. -/
def serialInit (w : W) (port baud : BitVec 16) (u : Uart W) (activePort : BitVec 16) : Uart W × BitVec 16 :=
  let u := portOutb u w (port + uartIer) 0x00
  let u := portOutb u w (port + uartLcr) uartLcrDlab
  let u := portOutb u w (port + uartDlLow) ((baud &&& 0x00FF).setWidth 8)
  let u := portOutb u w (port + uartDlHigh) (((baud &&& 0xFF00) >>> 8).setWidth 8)
  let u := portOutb u w (port + uartLcr) uartLcr8Bit
  let u := portOutb u w (port + uartFcr) 0xC7
  let u := portOutb u w (port + uartMcr) 0x0B
  let u := portOutb u w (port + uartMcr) 0x1E
  let u := portOutb u w (port + uartMcr) 0x0F
  (u, if activePort = 0 then port else activePort)

def serialIsTransmitEmpty (lsr : Byte) : Byte := lsr &&& 0x20

/-- Where a writer is: between two characters, in the loop of `serial_writeChar`, or past it. -/
inductive Phase
  | idle
  | poll (c : Byte)
  | ready (c : Byte)
  deriving DecidableEq

/-- The writers have the characters they are yet to call `serial_writeChar` for. -/
structure Sys (W : Type) where
  uart : Uart W
  activePort : BitVec 16
  writer : W → List Byte × Phase

section Model

variable [DecidableEq W]

def Sys.put (s : Sys W) (i : W) (text : List Byte) (p : Phase) : Sys W :=
  { s with writer := Function.update s.writer i (text, p) }

inductive Step (s : Sys W) : Sys W → Prop
  | call (i : W) (c : Byte) (text : List Byte) : s.writer i = (c :: text, .idle) → Step s (s.put i text (.poll c))
  | poll (i : W) (c : Byte) (text : List Byte) (other : Byte) : s.writer i = (text, .poll c) →
      Step s (s.put i text (if serialIsTransmitEmpty (s.uart.lsr other) = 0 then .poll c else .ready c))
  | write (i : W) (c : Byte) (text : List Byte) : s.writer i = (text, .ready c) →
      Step s { s.put i text (if c = chr '\n' then .poll (chr '\r') else .idle) with
        uart := portOutb s.uart i s.activePort c }
  | shift (x : W × Byte) (rest : List (W × Byte)) : s.uart.tx = x :: rest →
      Step s { s with uart := s.uart.shift x rest }

/-- After `serial_init`, with the characters that each writer is to write. -/
def started (w : W) (port baud : BitVec 16) (u : Uart W) (text : W → List Byte) : Sys W :=
  { uart := (serialInit w port baud u 0).1
    activePort := (serialInit w port baud u 0).2
    writer := fun i => (text i, .idle) }

end Model

/-! ### What `serial_init` leaves -/

/-- The queue is on, the character register is that, and what is sent gets on the line. -/
structure Uart.Ready (u : Uart W) (port baud : BitVec 16) : Prop where
  base : u.base = port
  divisor : u.divisor = baud
  lcr : u.lcr = uartLcr8Bit
  mcr : u.mcr = 0x0F
  fifo : u.fifo = true

@[simp] theorem Uart.write_base (u : Uart W) (w : W) (reg : BitVec 16) (data : Byte) :
    (u.write w reg data).base = u.base := by
  unfold Uart.write
  split <;> (try split_ifs) <;> rfl

theorem portOutb_reg (u : Uart W) (w : W) (port reg : BitVec 16) (data : Byte) (h : u.base = port) :
    portOutb u w (port + reg) data = u.write w reg data := by
  rw [portOutb, h, BitVec.add_comm, BitVec.add_sub_cancel]

/-- A UART that is left with the divisor's registers in place keeps its interrupts. -/
theorem serialInit_eq (w : W) (port baud : BitVec 16) (u : Uart W) (activePort : BitVec 16) (h : u.base = port) :
    (serialInit w port baud u activePort).1 =
      { base := port
        ier := if u.lcr.getLsbD 7 then u.ier else 0
        lcr := uartLcr8Bit
        mcr := 0x0F
        dll := (baud &&& 0x00FF).setWidth 8
        dlm := ((baud &&& 0xFF00) >>> 8).setWidth 8
        fifo := true
        tx := []
        line := u.line } := by
  obtain ⟨base, ier, lcr, mcr, dll, dlm, fifo, tx, line⟩ := u
  obtain rfl : base = port := h
  simp only [serialInit, portOutb_reg, Uart.write_base]
  cases hdlab : lcr.getLsbD 7 <;> simp only [BitVec.getLsbD_eq_getElem, Nat.reduceLT] at hdlab <;>
    simp [Uart.write, uartIer, uartLcr, uartDlLow, uartDlHigh, uartFcr, uartMcr, uartLcrDlab, uartLcr8Bit, hdlab]

/-- The two halves of the divisor. -/
theorem divisor_halves (baud : BitVec 16) :
    (((baud &&& 0xFF00) >>> 8).setWidth 8 ++ (baud &&& 0x00FF).setWidth 8 : BitVec 16) = baud := by
  ext i hi
  simp only [BitVec.getElem_append, BitVec.getElem_setWidth, BitVec.getLsbD_and, BitVec.getLsbD_ushiftRight]
  interval_cases i <;> simp

theorem serialInit_ready (w : W) (port baud : BitVec 16) (u : Uart W) (activePort : BitVec 16)
    (h : u.base = port) : (serialInit w port baud u activePort).1.Ready port baud := by
  rw [serialInit_eq w port baud u activePort h]
  exact ⟨rfl, divisor_halves baud, rfl, rfl, rfl⟩

/-! ### The queue -/

variable [DecidableEq W] {s t : Sys W} {port baud : BitVec 16}

/-- What a writer is yet to write. -/
def pending : List Byte × Phase → List Byte
  | (text, .idle) => text.flatMap serialWriteChar
  | (text, .poll c) | (text, .ready c) => serialWriteChar c ++ text.flatMap serialWriteChar

def Phase.seen : Phase → Bool
  | .ready _ => true
  | _ => false

/-- The writers and the queue, without the rest of the device. -/
def Sys.fifo (s : Sys W) : PolledFifo.State W Byte :=
  { todo := fun i => pending (s.writer i)
    seen := fun i => (s.writer i).2.seen
    queue := s.uart.tx
    out := s.uart.line }

/-- The device stays as `serial_init` leaves it, and the characters go to it. -/
structure Sys.Ready (s : Sys W) (port baud : BitVec 16) : Prop where
  uart : s.uart.Ready port baud
  activePort : s.activePort = port

omit [DecidableEq W] in
theorem started_ready (w : W) (u : Uart W) (text : W → List Byte) (h : u.base = port) :
    (started w port baud u text).Ready port baud := by
  refine ⟨serialInit_ready w port baud u 0 h, ?_⟩
  simp [started, serialInit]

omit [DecidableEq W] in
/-- A character goes into the queue. -/
theorem Sys.Ready.portOutb (h : s.Ready port baud) (i : W) (c : Byte) : portOutb s.uart i s.activePort c =
    { s.uart with tx := if s.uart.tx.length < 16 then s.uart.tx ++ [(i, c)] else s.uart.tx } := by
  have hreg : s.activePort = port + uartDar := by simp [h.activePort, uartDar]
  rw [hreg, portOutb_reg _ _ _ _ _ h.uart.base]
  simp [Uart.write, uartDar, h.uart.lcr, uartLcr8Bit, Uart.depth, h.uart.fifo]

theorem Step.ready (hst : Step s t) (h : s.Ready port baud) : t.Ready port baud := by
  cases hst with
  | call i c text _ => exact ⟨h.uart, h.activePort⟩
  | poll i c text other _ => exact ⟨h.uart, h.activePort⟩
  | write i c text _ =>
    rw [h.portOutb]
    exact ⟨⟨h.uart.base, h.uart.divisor, h.uart.lcr, h.uart.mcr, h.uart.fifo⟩, h.activePort⟩
  | shift x rest _ => exact ⟨⟨h.uart.base, h.uart.divisor, h.uart.lcr, h.uart.mcr, h.uart.fifo⟩, h.activePort⟩

theorem transmitEmpty_set (other : Byte) : serialIsTransmitEmpty (other ||| 0x20) = 0x20 := by
  unfold serialIsTransmitEmpty
  ext i hi
  interval_cases i <;> simp

theorem transmitEmpty_clear (other : Byte) : serialIsTransmitEmpty (other &&& 0xDF) = 0 := by
  unfold serialIsTransmitEmpty
  rw [BitVec.and_assoc]
  simp

omit [DecidableEq W] in
/-- The loop ends when the queue is empty, and not before. -/
theorem serialIsTransmitEmpty_lsr (u : Uart W) (other : Byte) :
    serialIsTransmitEmpty (u.lsr other) = 0 ↔ u.tx ≠ [] := by
  cases htx : u.tx with
  | nil =>
    have hlsr : u.lsr other = other ||| 0x20 := by simp [Uart.lsr, htx]
    rw [hlsr, transmitEmpty_set]
    simp
  | cons x rest =>
    have hlsr : u.lsr other = other &&& 0xDF := by simp [Uart.lsr, htx]
    rw [hlsr, transmitEmpty_clear]
    simp

theorem put_fifo (s : Sys W) (i : W) (text : List Byte) (p : Phase) : (s.put i text p).fifo =
    { s.fifo with
      todo := Function.update s.fifo.todo i (pending (text, p))
      seen := Function.update s.fifo.seen i p.seen } := by
  simp only [Sys.fifo, Sys.put]
  congr 1
  · funext j
    by_cases hj : j = i <;> simp [hj]
  · funext j
    by_cases hj : j = i <;> simp [hj]

theorem Sys.Ready.write_fifo (h : s.Ready port baud) (i : W) (c : Byte) (text : List Byte) (p : Phase) :
    ({ s.put i text p with uart := Serial.portOutb s.uart i s.activePort c } : Sys W).fifo =
      { s.fifo with
        todo := Function.update s.fifo.todo i (pending (text, p))
        seen := Function.update s.fifo.seen i p.seen
        queue := if s.fifo.queue.length < 16 then s.fifo.queue ++ [(i, c)] else s.fifo.queue } := by
  have hput := put_fifo s i text p
  simp only [Sys.fifo, PolledFifo.State.mk.injEq] at hput
  rw [h.portOutb]
  simp only [Sys.fifo, hput]
  rfl

/-- A writer that changes neither what it is to write nor what it has seen. -/
theorem put_fifo_same {i : W} {text : List Byte} {p : Phase} (htodo : pending (text, p) = pending (s.writer i))
    (hseen : p.seen = (s.writer i).2.seen) : (s.put i text p).fifo = s.fifo := by
  have htodo' : pending (text, p) = s.fifo.todo i := htodo
  have hseen' : p.seen = s.fifo.seen i := hseen
  rw [put_fifo, htodo', hseen', Function.update_eq_self, Function.update_eq_self]

theorem pending_ready (c : Byte) (text : List Byte) : pending (text, .ready c) =
    c :: pending (text, if c = chr '\n' then .poll (chr '\r') else .idle) := by
  have hreturn : serialWriteChar (chr '\r') = [chr '\r'] := by decide
  have hnewline : serialWriteChar (chr '\n') = [chr '\n', chr '\r'] := by decide
  by_cases hc : c = chr '\n'
  · rw [if_pos hc, hc]
    simp [pending, hreturn, hnewline]
  · simp [pending, hc, serialWriteChar]

/-- Every step is one of the writers and the queue, or none. -/
theorem Step.simulates (hst : Step s t) (h : s.Ready port baud) :
    t.fifo = s.fifo ∨ PolledFifo.Step 16 s.fifo t.fifo := by
  cases hst with
  | call i c text hi =>
    left
    exact put_fifo_same (by simp [hi, pending]) (by simp [hi, Phase.seen])
  | poll i c text other hi =>
    by_cases hlsr : serialIsTransmitEmpty (s.uart.lsr other) = 0
    · rw [if_pos hlsr]
      left
      exact put_fifo_same (by rw [hi]) (by rw [hi])
    · rw [if_neg hlsr]
      right
      have hempty : s.fifo.queue = [] := by
        rw [serialIsTransmitEmpty_lsr, not_not] at hlsr
        exact hlsr
      have htodo : pending (text, .ready c) = s.fifo.todo i := by simp only [Sys.fifo, hi, pending]
      rw [put_fifo, htodo, Function.update_eq_self]
      exact .look i hempty
  | write i c text hi =>
    right
    have hseen : s.fifo.seen i = true := by simp only [Sys.fifo, hi, Phase.seen]
    have htodo : s.fifo.todo i = c :: pending (text, if c = chr '\n' then .poll (chr '\r') else .idle) := by
      simp only [Sys.fifo, hi, pending_ready]
    have hidle : (if c = chr '\n' then Phase.poll (chr '\r') else .idle).seen = false := by split_ifs <;> rfl
    rw [h.write_fifo, hidle]
    exact .put i c _ hseen htodo
  | shift x rest hq =>
    right
    have hstep : PolledFifo.Step 16 s.fifo { s.fifo with queue := rest, out := s.fifo.out ++ [x] } :=
      .take x rest hq
    simpa [Sys.fifo, Uart.shift, h.uart.mcr] using hstep

/-- A run of the writers and the device is one of the writers and the queue. -/
theorem Reaches.simulates (hrun : Reaches Step s t) (h : s.Ready port baud) :
    Reaches (PolledFifo.Step 16) s.fifo t.fifo ∧ t.Ready port baud := by
  apply hrun.invariant (fun t => Reaches (PolledFifo.Step 16) s.fifo t.fifo ∧ t.Ready port baud)
  · rintro t u ⟨hreach, hready⟩ hst
    refine ⟨?_, hst.ready hready⟩
    rcases hst.simulates hready with hsame | hstep
    · rw [hsame]
      exact hreach
    · exact hreach.tail hstep
  · exact ⟨.refl, h⟩

omit [DecidableEq W] in
theorem started_fifo (w : W) (u : Uart W) (text : W → List Byte) (h : u.base = port) :
    (started w port baud u text).fifo =
      ⟨fun i => (text i).flatMap serialWriteChar, fun _ => false, [], u.line⟩ := by
  simp [started, Sys.fifo, serialInit_eq _ _ _ _ _ h, pending, Phase.seen]

/-! ### The end -/

section Work

variable [Fintype W]

/-- How far a writer is from its end. -/
def weight (x : List Byte × Phase) : ℕ :=
  4 * (pending x).length + match x.2 with
    | .idle => 2
    | .poll _ => 1
    | .ready _ => 0

def Sys.work (s : Sys W) : ℕ := ∑ i, weight (s.writer i) + s.uart.tx.length

/-- Everything is on the line. -/
def Sys.Done (s : Sys W) : Prop := s.uart.tx = [] ∧ ∀ i, s.writer i = ([], .idle)

theorem weight_put (s : Sys W) (i : W) (text : List Byte) (p : Phase) :
    ∑ j, weight ((s.put i text p).writer j) + weight (s.writer i) =
      ∑ j, weight (s.writer j) + weight (text, p) := by
  have hself : (s.put i text p).writer i = (text, p) := Function.update_self ..
  have hothers : ∑ j ∈ Finset.univ.erase i, weight ((s.put i text p).writer j) =
      ∑ j ∈ Finset.univ.erase i, weight (s.writer j) := by
    apply Finset.sum_congr rfl
    intro j hj
    have hother : (s.put i text p).writer j = s.writer j := Function.update_of_ne (Finset.ne_of_mem_erase hj) ..
    rw [hother]
  rw [← Finset.add_sum_erase _ _ (Finset.mem_univ i), ← Finset.add_sum_erase _ (fun j => weight (s.writer j))
    (Finset.mem_univ i), hself, hothers]
  omega

/-- There is always something to do until then. -/
theorem Sys.Ready.exists_step (h : s.Ready port baud) (hdone : ¬s.Done) : ∃ t, Step s t ∧ t.work < s.work := by
  cases htx : s.uart.tx with
  | cons x rest =>
    refine ⟨_, .shift x rest htx, ?_⟩
    simp [Sys.work, Uart.shift, htx]
  | nil =>
    obtain ⟨i, hi⟩ : ∃ i, s.writer i ≠ ([], .idle) := by
      by_contra hall
      push Not at hall
      exact hdone ⟨htx, hall⟩
    rcases hw : s.writer i with ⟨text, _ | c | c⟩
    · -- the next character
      cases text with
      | nil => exact absurd hw hi
      | cons c text =>
        have hput := weight_put s i text (.poll c)
        have hweight : weight (c :: text, .idle) = weight (text, .poll c) + 1 := by simp [weight, pending]
        refine ⟨_, .call i c text hw, ?_⟩
        rw [hw, hweight] at hput
        simp only [Sys.work, Sys.put] at hput ⊢
        omega
    · -- the queue is empty
      have hempty : serialIsTransmitEmpty (s.uart.lsr 0) ≠ 0 := by
        rw [ne_eq, serialIsTransmitEmpty_lsr, not_not, htx]
      have hstep := Step.poll i c text 0 hw
      rw [if_neg hempty] at hstep
      have hput := weight_put s i text (.ready c)
      have hweight : weight (text, .poll c) = weight (text, .ready c) + 1 := by simp [weight, pending]
      refine ⟨_, hstep, ?_⟩
      rw [hw, hweight] at hput
      simp only [Sys.work, Sys.put] at hput ⊢
      omega
    · -- one character fewer, and one more in the queue
      have hput := weight_put s i text (if c = chr '\n' then .poll (chr '\r') else .idle)
      have hweight : weight (text, if c = chr '\n' then .poll (chr '\r') else .idle) + 2 ≤
          weight (text, .ready c) := by
        rw [weight, weight, pending_ready]
        split_ifs <;> simp <;> omega
      refine ⟨_, .write i c text hw, ?_⟩
      rw [hw] at hput
      rw [h.portOutb]
      simp only [Sys.work, Sys.put, htx] at hput ⊢
      simp only [List.length_nil, Nat.zero_lt_succ, if_true, List.nil_append, List.length_singleton]
      omega

/-- It can be brought to an end from every state. -/
theorem Sys.Ready.finishes (h : s.Ready port baud) : ∃ t, Reaches Step s t ∧ t.Done := by
  induction hn : s.work using Nat.strong_induction_on generalizing s with
  | _ n ih =>
    by_cases hdone : s.Done
    · exact ⟨s, .refl, hdone⟩
    · obtain ⟨t, hst, hwork⟩ := h.exists_step hdone
      obtain ⟨u, hrun, hu⟩ := ih t.work (hn ▸ hwork) (hst.ready h) rfl
      exact ⟨u, .head hst hrun, hu⟩

/-- After `serial_init`, whatever state it finds the device in, and up to as many writers as the
queue has places, each with any text and in any order of all their steps: what the line has got from
a writer, what is in the queue and what it has yet to write is its text, with a carriage return after
each newline, at the rate and in the format that `serial_init` was called for; and it can all be
brought to the line. -/
theorem serial_sends (w : W) (u : Uart W) (text : W → List Byte) (hbase : u.base = port)
    (hcard : Fintype.card W ≤ 16) (hrun : Reaches Step (started w port baud u text) s) :
    s.uart.divisor = baud ∧ s.uart.lcr = uartLcr8Bit ∧
      (∀ i, sentBy i (s.uart.line ++ s.uart.tx) ++ pending (s.writer i) =
        sentBy i u.line ++ (text i).flatMap serialWriteChar) ∧
      ∃ t, Reaches Step s t ∧ t.Done ∧
        ∀ i, sentBy i t.uart.line = sentBy i u.line ++ (text i).flatMap serialWriteChar := by
  have hsent : ∀ {t : Sys W}, Reaches Step (started w port baud u text) t → t.Ready port baud ∧
      ∀ i, sentBy i (t.uart.line ++ t.uart.tx) ++ pending (t.writer i) =
        sentBy i u.line ++ (text i).flatMap serialWriteChar := by
    intro t hrun
    obtain ⟨hfifo, hready⟩ := Reaches.simulates hrun (started_ready w u text hbase)
    rw [started_fifo w u text hbase] at hfifo
    obtain ⟨-, hconserved⟩ := PolledFifo.Reaches.single_conserved hfifo ⟨by simp, by simp⟩ hcard
    refine ⟨hready, fun i => ?_⟩
    simpa [Sys.fifo] using hconserved i
  obtain ⟨hready, hnow⟩ := hsent hrun
  obtain ⟨t, hfinish, hdone⟩ := hready.finishes
  refine ⟨hready.uart.divisor, hready.uart.lcr, hnow, t, hfinish, hdone, fun i => ?_⟩
  have hend := (hsent (hrun.trans hfinish)).2 i
  simpa [hdone.1, hdone.2 i, pending] using hend

end Work

/-! Two writers, an interrupt and a thread, have both looked before either wrote. -/

def com1 : BitVec 16 := 0x3F8
def uartBaud115200 : BitVec 16 := 1

/-- A UART in the middle of something else. -/
def someUart : Uart Bool := ⟨com1, 0x0F, 0x83, 0x1F, 0x0C, 0, false, [(false, 0)], []⟩

def twoTexts : Bool → List Byte
  | false => [chr 'a', chr '\n']
  | true => [chr 'b']

theorem serial_sends_two : ∃ s, s.uart.tx = [(false, chr 'a'), (true, chr 'b')] ∧
    s.uart.divisor = uartBaud115200 ∧ s.uart.lcr = uartLcr8Bit ∧
      (∀ i, sentBy i (s.uart.line ++ s.uart.tx) ++ pending (s.writer i) =
        sentBy i someUart.line ++ (twoTexts i).flatMap serialWriteChar) ∧
      ∃ t, Reaches Step s t ∧ t.Done ∧
        ∀ i, sentBy i t.uart.line = sentBy i someUart.line ++ (twoTexts i).flatMap serialWriteChar := by
  have hrun : ∃ s, Reaches Step (started false com1 uartBaud115200 someUart twoTexts) s ∧
      s.uart.tx = [(false, chr 'a'), (true, chr 'b')] :=
    ⟨_, .tail (.tail (.tail (.tail (.tail (.tail .refl
      (.call false (chr 'a') [chr '\n'] rfl))
      (.call true (chr 'b') [] rfl))
      (.poll false (chr 'a') [chr '\n'] 0 rfl))
      (.poll true (chr 'b') [] 0 rfl))
      (.write false (chr 'a') [chr '\n'] rfl))
      (.write true (chr 'b') [] rfl), rfl⟩
  obtain ⟨s, hrun, htx⟩ := hrun
  exact ⟨s, htx, serial_sends false someUart twoTexts rfl (by decide) hrun⟩

end JustKernel.Serial
