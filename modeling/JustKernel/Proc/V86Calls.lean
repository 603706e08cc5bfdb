import JustKernel.Proc.V86

/-! The call queue of the virtual-8086 worker, `v86_call`, `v86_enter` and
`v86_exit` of `proc/v86.c` with the guest code of `proc/v86_asm.s`. Clients
append call records to a list and spin on their type; one worker thread takes
the head record, patches its interrupt number into the guest code, hands over
its registers as a `popa` image on the guest's stack and drops into the guest.
The guest code raises the interrupt, pushes the registers again and leaves with
`int 3`, whose handler copies the image back into the head record. The BIOS
behind the interrupt vectors is not part of the kernel and stays a relation
between the machine at a handler's first instruction and the machine at its
`iret`. -/

namespace JustKernel.V86

open Memory

/-- `v86_ctx_t`, in the order of a `popa` image. -/
@[ext]
structure Ctx where
  di : BitVec 16
  si : BitVec 16
  bp : BitVec 16
  sp : BitVec 16
  bx : BitVec 16
  dx : BitVec 16
  cx : BitVec 16
  ax : BitVec 16
  deriving DecidableEq

inductive CallType where
  | complete
  | genericInt
  deriving DecidableEq

/-- `v86_call_t` without its list node. -/
structure Call where
  ctx : Ctx
  type : CallType
  intNum : Byte

/-! ### Word accesses and the register image -/

def readWord16 (m : Mem) (a : ℕ) : BitVec 16 := BitVec.ofNat 16 (read16 m a)

def writeWord16 (m : Mem) (a : ℕ) (w : BitVec 16) : Mem := write16 m a w.toNat

theorem readWord16_writeWord16 (m : Mem) (a : ℕ) (w : BitVec 16) :
    readWord16 (writeWord16 m a w) a = w := by
  have hw := w.isLt
  rw [readWord16, writeWord16, read16, write16, load_store_same]
  apply BitVec.eq_of_toNat_eq
  rw [BitVec.toNat_ofNat]
  omega

theorem readWord16_writeWord16_of_disjoint (m : Mem) {a b : ℕ} (w : BitVec 16)
    (h : a + 2 ≤ b ∨ b + 2 ≤ a) : readWord16 (writeWord16 m a w) b = readWord16 m b := by
  rw [readWord16, writeWord16, read16, write16, load_store_of_disjoint m h, readWord16]

theorem writeWord16_apply (m : Mem) {a x : ℕ} (w : BitVec 16) (h : x < a ∨ a + 2 ≤ x) :
    writeWord16 m a w x = m x :=
  store_apply_of_not_mem m a 2 w.toNat x h

/-- `memcpy` of a context to memory. -/
def storeCtx (m : Mem) (a : ℕ) (c : Ctx) : Mem :=
  let m := writeWord16 m a c.di
  let m := writeWord16 m (a + 2) c.si
  let m := writeWord16 m (a + 4) c.bp
  let m := writeWord16 m (a + 6) c.sp
  let m := writeWord16 m (a + 8) c.bx
  let m := writeWord16 m (a + 10) c.dx
  let m := writeWord16 m (a + 12) c.cx
  writeWord16 m (a + 14) c.ax

/-- `memcpy` of a context from memory. -/
def loadCtx (m : Mem) (a : ℕ) : Ctx where
  di := readWord16 m a
  si := readWord16 m (a + 2)
  bp := readWord16 m (a + 4)
  sp := readWord16 m (a + 6)
  bx := readWord16 m (a + 8)
  dx := readWord16 m (a + 10)
  cx := readWord16 m (a + 12)
  ax := readWord16 m (a + 14)

theorem loadCtx_storeCtx (m : Mem) (a : ℕ) (c : Ctx) : loadCtx (storeCtx m a c) a = c := by
  ext1 <;>
    simp (disch := omega) only [loadCtx, storeCtx, readWord16_writeWord16,
      readWord16_writeWord16_of_disjoint]

theorem storeCtx_apply (m : Mem) {a x : ℕ} (c : Ctx) (h : x < a ∨ a + 16 ≤ x) :
    storeCtx m a c x = m x := by
  simp (disch := omega) only [storeCtx, writeWord16_apply]

/-- The guest's 16-bit register file. -/
def registers (r : CoreRegs) : Ctx where
  di := r.edi.setWidth 16
  si := r.esi.setWidth 16
  bp := r.ebp.setWidth 16
  sp := r.userEsp.setWidth 16
  bx := r.ebx.setWidth 16
  dx := r.edx.setWidth 16
  cx := r.ecx.setWidth 16
  ax := r.eax.setWidth 16

/-- A 16-bit load into a 32-bit register. -/
def withLow (r : BitVec 32) (w : BitVec 16) : BitVec 32 := r.extractLsb' 16 16 ++ w

theorem setWidth_withLow (r : BitVec 32) (w : BitVec 16) : (withLow r w).setWidth 16 = w := by
  rw [withLow, BitVec.setWidth_append_eq_right]

/-! ### Instructions the guest runs without a trap -/

/-- The word `k` words above the stack pointer. -/
def stackWord (s : Machine) (k : ℕ) : BitVec 16 :=
  readWord16 s.mem (fpToLinear s.regs.userSs (s.regs.userEsp + BitVec.ofNat 32 (2 * k)))

def popa (s : Machine) : Machine :=
  { s with regs := { s.regs with
      edi := withLow s.regs.edi (stackWord s 0)
      esi := withLow s.regs.esi (stackWord s 1)
      ebp := withLow s.regs.ebp (stackWord s 2)
      ebx := withLow s.regs.ebx (stackWord s 4)
      edx := withLow s.regs.edx (stackWord s 5)
      ecx := withLow s.regs.ecx (stackWord s 6)
      eax := withLow s.regs.eax (stackWord s 7)
      userEsp := withLow s.regs.userEsp (s.regs.userEsp.setWidth 16 + 16) } }

/-- The word `k` words below the stack pointer is written. -/
def putBelow (s : Machine) (k : ℕ) (w : BitVec 16) (m : Mem) : Mem :=
  writeWord16 m (fpToLinear s.regs.userSs (s.regs.userEsp - BitVec.ofNat 32 (2 * k))) w

def pusha (s : Machine) : Machine :=
  let c := registers s.regs
  let m := putBelow s 1 c.ax s.mem
  let m := putBelow s 2 c.cx m
  let m := putBelow s 3 c.dx m
  let m := putBelow s 4 c.bx m
  let m := putBelow s 5 c.sp m
  let m := putBelow s 6 c.bp m
  let m := putBelow s 7 c.si m
  let m := putBelow s 8 c.di m
  { s with
    mem := m
    regs := { s.regs with userEsp := withLow s.regs.userEsp (s.regs.userEsp.setWidth 16 - 16) } }

/-- `jmp` with an 8-bit displacement. -/
def jmpShort (s : Machine) : Machine :=
  let (rel, s) := v86GetIpByte s
  { s with regs := { s.regs with
      eip := withLow s.regs.eip (s.regs.eip.setWidth 16 + rel.signExtend 16) } }

/-- The instructions of the guest code that the processor carries out by itself. -/
def nativeStep (s : Machine) : Option Machine :=
  let (instr, s) := v86GetIpByte s
  if instr = 0x60 then some (pusha s)
  else if instr = 0x61 then some (popa s)
  else if instr = 0xeb then some (jmpShort s)
  else none

/-! ### The worker and its clients -/

/-- `popa`, `int 0`, `jmp exit`, `pusha`, `int 3`, `jmp inf_loop`. -/
def v86Code : List Byte := [0x61, 0xcd, 0x00, 0xeb, 0x00, 0x60, 0xcd, 0x03, 0xeb, 0xfe]

def v86Ptr : ℕ := 0x7C00

def v86Stack : BitVec 16 := 0xA000

/-- `memcpy` of the guest code. -/
def copyCode (m : Mem) : ℕ → List Byte → Mem
  | _, [] => m
  | a, b :: rest => copyCode (Function.update m a b) (a + 1) rest

/-- Where the worker thread is. -/
inductive Phase (K : Type) where
  /-- in the loop that waits for a call -/
  | polling
  /-- past that loop -/
  | launching
  /-- in the guest code -/
  | guest
  /-- at the first instruction of the handler of an interrupt -/
  | bios (n : Byte)
  /-- at the handler's `iret` -/
  | returning
  /-- in `v86_exit` -/
  | exiting
  /-- in `v86_exit`, after `del_v86_call` -/
  | storing (call : K)
  /-- in `v86_exit`, after `memcpy` -/
  | marking (call : K)

structure State (K : Type) where
  machine : Machine
  phase : Phase K
  queue : List K
  calls : K → Call
  v86Proc : Bool

variable {K : Type} [DecidableEq K]

def v86Init (s : State K) : State K :=
  { s with
    queue := []
    machine := { s.machine with mem := copyCode s.machine.mem v86Ptr v86Code }
    v86Proc := true
    phase := .polling }

/-- `v86_call` up to its waiting loop, on a record filled in by the client. -/
def v86Call (k : K) (call : Call) (s : State K) : State K :=
  let s := { s with calls := Function.update s.calls k call }
  if s.v86Proc then { s with queue := s.queue ++ [k] } else s

def v86CallGenericInt (intNum : Byte) (ctx : Ctx) (m : Machine) : Machine :=
  let mem := Function.update m.mem (v86Ptr + 2) intNum
  let stack := ctx.sp - 16
  let mem := storeCtx mem (fpToLinear 0 (stack.setWidth 32)) ctx
  enterV86 0 (stack.setWidth 32) 0 (BitVec.ofNat 32 v86Ptr) { m with mem := mem }

/-- The body of the loop of `v86_enter`, on the head record. -/
def v86Enter (k : K) (s : State K) : State K :=
  let call := s.calls k
  let ctx := { call.ctx with sp := v86Stack }
  let s := { s with calls := Function.update s.calls k { call with ctx := ctx } }
  match call.type with
  | .genericInt =>
    { s with machine := v86CallGenericInt call.intNum ctx s.machine, phase := .guest }
  | .complete => { s with phase := .polling }

/-- What a step does, for the records and for the guest. -/
inductive Label (K : Type) where
  | enqueue (k : K) (call : Call)
  | pause
  | internal
  | interrupt (n : Byte) (regs : Ctx)
  | returned (regs : Ctx)
  | store (k : K) (ctx : Ctx)
  | complete (k : K)

section Steps

variable (sym : Symbols) (bios : Byte → Machine → Machine → Prop)

/-- Any client's enqueue, or the next step of the worker. -/
inductive Step : State K → Label K → State K → Prop
  | enqueue (s : State K) (k : K) (call : Call) : Step s (.enqueue k call) (v86Call k call s)
  | pause (s : State K) (hphase : s.phase = .polling) (hempty : s.queue = []) : Step s .pause s
  | leaveLoop (s : State K) (hphase : s.phase = .polling) (hempty : s.queue ≠ []) :
      Step s .internal { s with phase := .launching }
  | enter (s : State K) (k : K) (rest : List K) (hphase : s.phase = .launching)
      (hqueue : s.queue = k :: rest) : Step s .internal (v86Enter k s)
  | native (s : State K) (m : Machine) (hphase : s.phase = .guest)
      (hrun : nativeStep s.machine = some m) : Step s .internal { s with machine := m }
  | trapInt (s : State K) (m : Machine) (hphase : s.phase = .guest)
      (hint : ipByte 0 s.machine = 0xcd) (hrun : v86Monitor sym s.machine = .resumed m) :
      Step s (.interrupt (ipByte 1 s.machine) (registers s.machine.regs))
        { s with machine := m, phase := .bios (ipByte 1 s.machine) }
  | handler (s : State K) (n : Byte) (m : Machine) (hphase : s.phase = .bios n)
      (hrun : bios n s.machine m) : Step s .internal { s with machine := m, phase := .returning }
  | trapIret (s : State K) (m : Machine) (hphase : s.phase = .returning)
      (hiret : ipByte 0 s.machine = 0xcf) (hrun : v86Monitor sym s.machine = .resumed m) :
      Step s (.returned (registers m.regs)) { s with machine := m, phase := .guest }
  | trapExit (s : State K) (m : Machine) (hphase : s.phase = .guest)
      (hint : ipByte 0 s.machine = 0xcd) (hrun : v86Monitor sym s.machine = .left m) :
      Step s .internal { s with machine := m, phase := .exiting }
  | delete (s : State K) (k : K) (rest : List K) (hphase : s.phase = .exiting)
      (hqueue : s.queue = k :: rest) :
      Step s .internal { s with queue := rest, phase := .storing k }
  | copy (s : State K) (k : K) (ctx : Ctx) (hphase : s.phase = .storing k)
      (hctx : ctx = loadCtx s.machine.mem (fpToLinear 0 s.machine.regs.ebx)) :
      Step s (.store k ctx) { s with
        calls := Function.update s.calls k { s.calls k with ctx := ctx }
        phase := .marking k }
  | mark (s : State K) (k : K) (hphase : s.phase = .marking k) :
      Step s (.complete k) { s with
        calls := Function.update s.calls k { s.calls k with type := .complete }
        phase := .polling }

/-- A run and the labels of its steps. -/
inductive Run (init : State K) : List (Label K) → State K → Prop
  | start : Run init [] init
  | step {tr : List (Label K)} {s t : State K} {l : Label K} (hrun : Run init tr s)
      (hstep : Step sym bios s l t) : Run init (tr ++ [l]) t

end Steps

end JustKernel.V86
