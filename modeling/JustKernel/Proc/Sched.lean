import JustKernel.Base.Halting
import Mathlib.Algebra.Group.Nat.Defs
import Mathlib.Logic.Function.Basic
import Mathlib.Data.Int.Notation
import Mathlib.Data.Nat.Notation

/-! The scheduler of `proc/sched.c` with the handlers that drive it: `pick_thread`,
the context hand-over between a core and a thread, `_sched`, the exit, sleep and
yield system calls, the timer, and the page-fault handler of `mm/vmm.c`, all
entered through `isr_handler`. The machine is the cores' locals, the thread
records and the two global lists; pointers to threads, processes and saved
frames are numbers. A failed assertion halts the computation in the state it
has reached, with `_sched_lock` still held if it failed under the lock.
Log output, the end-of-interrupt writes and the records nothing here reads are
left out. -/

namespace JustKernel.Sched

open Halting

abbrev ThreadId := ℕ

abbrev ProcId := ℕ

/-- `thread_state_t`. -/
inductive ThreadState
  | stopped | running | sleeping | terminated
  deriving DecidableEq

/-- `core_state_t`. -/
inductive CoreState
  | offline | booting | online | idle
  deriving DecidableEq

/-- The fields of `thread_t` the scheduler works on. `regs` points to the saved frame. -/
structure Thread where
  regs : ℕ
  state : ThreadState
  cpu : ℤ
  kernelStack : ℕ
  sleepTime : ℕ
  exitcode : ℕ
  priority : ℕ

/-- The fields of `core_locals_t` the scheduler works on; `kernelStack` is the
stack pointer `set_kernel_stack` puts into the task state segment. -/
structure Core where
  inIrq : Bool
  nestedIrq : Bool
  needResched : Bool
  irqRegs : ℕ
  state : CoreState
  currentThread : Option ThreadId
  idleThread : ThreadId
  coreId : ℕ
  kernelStack : ℕ

structure System (C : Type) where
  cores : C → Core
  threads : ThreadId → Thread
  threadList : List ThreadId
  procList : List ProcId
  procThreads : ProcId → List ThreadId
  kernelProc : ProcId
  schedLock : Bool
  globalTicks : ℕ

/-- The assertions of the scheduler, by the function they stand in. -/
inductive Assertion
  | saveThread | loadThread | enterIdle
  | schedOnlineThread | schedOnlineRunning | schedIdle | schedBooting
  | runThread | runProcEmpty | runProcThread
  deriving DecidableEq

abbrev SchedM (C : Type) := EStateM Assertion (System C)

variable {C : Type} [DecidableEq C]

def assert (a : Assertion) (b : Bool) : SchedM C Unit := if b then pure () else throw a

def System.updateCore (s : System C) (i : C) (f : Core → Core) : System C :=
  { s with cores := Function.update s.cores i (f (s.cores i)) }

omit [DecidableEq C] in
def System.updateThread (s : System C) (t : ThreadId) (f : Thread → Thread) : System C :=
  { s with threads := Function.update s.threads t (f (s.threads t)) }

/-- `PIT_SPEED_US`, with the divisor `PIT_BASE_SPEED / PIT_SPEED_HZ`. -/
def pitSpeedUs : ℕ := 1193182 / 250 * 1000000 / 1193182

/-- The sleep time left after one pass. -/
def sleepLeft (sleepTime : ℕ) : ℕ :=
  sleepTime - (if pitSpeedUs * 8 > sleepTime then sleepTime else pitSpeedUs * 8)

/-- What one pass does to a thread it meets on the list. -/
def wake (t : Thread) : Thread :=
  if t.state = .sleeping then
    { t with
      sleepTime := sleepLeft t.sleepTime
      state := if sleepLeft t.sleepTime = 0 then .stopped else t.state }
  else t

/-- The state after `update_sleeping_threads` on core `i`. -/
def updateSleepingThreads (i : C) (s : System C) : System C :=
  if (s.cores i).coreId ≠ 0 then s
  else s.threadList.foldl (fun s t => s.updateThread t wake) s

/-- The loop of `pick_thread`, with the thread picked so far and its priority. -/
def pickThreadLoop (s : System C) (coreId : ℕ) :
    List ThreadId → Option ThreadId → ℕ → Option ThreadId
  | [], picked, _ => picked
  | t :: rest, picked, minPriority =>
    if ((s.threads t).cpu = -1 ∨ (s.threads t).cpu = (coreId : ℤ)) ∧
        (s.threads t).state = .stopped ∧ (s.threads t).priority < minPriority then
      pickThreadLoop s coreId rest (some t) (s.threads t).priority
    else pickThreadLoop s coreId rest picked minPriority

def pickThread (i : C) (s : System C) : Option ThreadId :=
  pickThreadLoop s (s.cores i).coreId s.threadList none 0xFFFFFFFF

/-- The state after `save_thread`: the frame of the interrupt becomes the thread's. -/
def System.saved (s : System C) (i : C) (t : ThreadId) (state : ThreadState) : System C :=
  s.updateThread t fun thread => { thread with state := state, regs := (s.cores i).irqRegs }

def saveThread (i : C) (thread : Option ThreadId) (state : ThreadState) : SchedM C Unit :=
  match thread with
  | none => throw .saveThread
  | some t => modify fun s => s.saved i t state

/-- The state after `load_thread`. -/
def System.loaded (s : System C) (i : C) (t : ThreadId) : System C :=
  (s.updateCore i fun core =>
    { core with
      state := if core.state = .idle then .online else core.state
      currentThread := some t
      irqRegs := (s.threads t).regs
      kernelStack := (s.threads t).kernelStack }).updateThread t
    fun thread => { thread with state := .running }

def loadThread (i : C) (thread : Option ThreadId) : SchedM C Unit :=
  match thread with
  | none => throw .loadThread
  | some t => modify fun s => s.loaded i t

/-- The state after `enter_idle`. -/
def System.idled (s : System C) (i : C) : System C :=
  s.updateCore i fun core =>
    { core with
      state := .idle
      irqRegs := (s.threads core.idleThread).regs
      kernelStack := (s.threads core.idleThread).kernelStack }

def enterIdle (i : C) : SchedM C Unit := do
  let s ← get
  assert .enterIdle (s.cores i).currentThread.isNone
  modify fun s => s.idled i

def isRunning (s : System C) : Option ThreadId → Bool
  | none => false
  | some t => (s.threads t).state = .running

/-- `_sched`. -/
def sched (i : C) : SchedM C Unit := do
  modify (updateSleepingThreads i)
  let s ← get
  let newThread := pickThread i s
  match (s.cores i).state with
  | .online =>
    assert .schedOnlineThread (s.cores i).currentThread.isSome
    assert .schedOnlineRunning (isRunning s (s.cores i).currentThread)
    if newThread.isNone then return
    saveThread i (s.cores i).currentThread .stopped
    loadThread i newThread
  | .idle =>
    assert .schedIdle (s.cores i).currentThread.isNone
    if newThread.isNone then return
    loadThread i newThread
  | .booting =>
    assert .schedBooting (s.cores i).currentThread.isNone
    enterIdle i
  | .offline => return

/-- `_sched_runner`: skipped when another core holds the lock. -/
def schedRunner (i : C) : SchedM C Unit := do
  if (← get).schedLock then return
  modify fun s => { s with schedLock := true }
  sched i
  modify fun s => { s with schedLock := false }

/-- `_sched_all`; the interrupt it sends to the other cores arrives there as an event of its own. -/
def schedAll (i : C) : SchedM C Unit := do
  let s ← get
  if s.procList.isEmpty then return
  if (s.procThreads s.kernelProc).isEmpty then return
  schedRunner i

def timerHandler (i : C) : SchedM C Unit := do
  modify fun s => { s with globalTicks := (s.globalTicks + 1) % 2 ^ 32 }
  if (← get).globalTicks % 8 = 0 then schedAll i

/-- The common tail of `sched_thread_exit` and `sched_thread_sleep`: the calling
thread leaves the core in `state`, `record` notes the call's argument in it. -/
def leaveCore (i : C) (state : ThreadState) (record : Thread → Thread) : SchedM C Unit := do
  let s ← get
  match (s.cores i).currentThread, (s.cores i).inIrq with
  | some t, true =>
    saveThread i (some t) state
    modify fun s => s.updateThread t record
    modify fun s => s.updateCore i fun core => { core with currentThread := none }
    enterIdle i
  | _, _ => return

def schedThreadExit (i : C) (code : ℕ) : SchedM C Unit :=
  leaveCore i .terminated fun thread => { thread with exitcode := code }

def schedThreadSleep (i : C) (timeMs : ℕ) : SchedM C Unit :=
  leaveCore i .sleeping fun thread => { thread with sleepTime := timeMs * 1000 % 2 ^ 32 }

def schedThreadYield (i : C) : SchedM C Unit := schedRunner i

/-- `vmm_page_fault`. -/
def vmmPageFault (i : C) : SchedM C Unit := do
  match ((← get).cores i).currentThread with
  | some t => modify fun s => s.updateThread t fun thread => { thread with state := .terminated }
  | none => pure ()
  modify fun s => s.updateCore i fun core => { core with needResched := true }

omit [DecidableEq C] in
/-- `sched_run_thread`; it waits for the lock, so it has no effect while the lock is held. -/
def schedRunThread (t : ThreadId) : SchedM C Unit := do
  let s ← get
  if s.schedLock then return
  assert .runThread (decide ((s.threads t).state = .stopped))
  modify fun s => { s with threadList := s.threadList ++ [t] }

omit [DecidableEq C] in
/-- The loop of `sched_run_proc` over the threads of the process. -/
def addThreads : List ThreadId → SchedM C Unit
  | [] => pure ()
  | t :: rest => do
    assert .runProcThread (decide (((← get).threads t).state = .stopped))
    modify fun s => { s with threadList := s.threadList ++ [t] }
    addThreads rest

omit [DecidableEq C] in
def schedRunProc (p : ProcId) : SchedM C Unit := do
  let s ← get
  if s.schedLock then return
  assert .runProcEmpty (!(s.procThreads p).isEmpty)
  modify fun s => { s with procList := s.procList ++ [p] }
  addThreads (s.procThreads p)

/-- The interrupts that reach the scheduler. -/
inductive Interrupt
  | timer
  | ipi
  | exit (code : ℕ)
  | sleep (timeMs : ℕ)
  | yield
  | pageFault
  deriving DecidableEq

/-- The registered handler of an interrupt; system calls go through `syscalls_handler`. -/
def handler (i : C) : Interrupt → SchedM C Unit
  | .timer => timerHandler i
  | .ipi => schedRunner i
  | .exit code => schedThreadExit i code
  | .sleep timeMs => schedThreadSleep i timeMs
  | .yield => schedThreadYield i
  | .pageFault => vmmPageFault i

/-- `isr_handler` with the frame `regs`; returns the frame it goes back to. -/
def isrHandler (i : C) (int : Interrupt) (regs : ℕ) : SchedM C ℕ := do
  if ((← get).cores i).inIrq then
    modify fun s => s.updateCore i fun core => { core with nestedIrq := true }
  else
    modify fun s => s.updateCore i fun core => { core with inIrq := true, irqRegs := regs }
  handler i int
  if ((← get).cores i).needResched then schedRunner i
  if ((← get).cores i).nestedIrq then
    modify fun s => s.updateCore i fun core => { core with nestedIrq := false }
    return regs
  else
    let back := ((← get).cores i).irqRegs
    modify fun s => s.updateCore i fun core => { core with inIrq := false }
    return back

end JustKernel.Sched
