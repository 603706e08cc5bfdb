import JustKernel.Proc.Sched

/-! The scheduler as the cores really run it: not pass by pass, but access by access.
`_sched_lock` keeps the passes apart from each other and from `sched_run_thread` and
`sched_run_proc`, but `sched_thread_exit`, `sched_thread_sleep` and `vmm_page_fault`
work on the thread of their core without it, and their writes fall between the reads
of a pass that another core is making. A core is described by its place in the code.
One step is one access to memory that other cores use (a thread record, the lists,
the lock) together with what the core does to its own locals before the next one.
Interrupts do not nest: every gate of the descriptor table clears the interrupt flag. -/

namespace JustKernel.SchedSmp

open Sched

/-- How a thread gives its core up. -/
inductive Quit
  | exit (code : ℕ)
  | sleep (timeMs : ℕ)
  deriving DecidableEq

/-- The state `save_thread` is called with. -/
def Quit.state : Quit → ThreadState
  | .exit _ => .terminated
  | .sleep _ => .sleeping

/-- The field that is written after `save_thread`. -/
def Quit.record : Quit → Thread → Thread
  | .exit code, thread => { thread with exitcode := code }
  | .sleep timeMs, thread => { thread with sleepTime := timeMs * 1000 % 2 ^ 32 }

/-- What `sched_run_thread` and `sched_run_proc` are called with. -/
inductive Job
  | thread (t : ThreadId)
  | proc (p : ProcId)
  deriving DecidableEq

/-- Where a core is. A list is what a loop still has to visit. -/
inductive Position
  /-- Outside the scheduler, with interrupts enabled. -/
  | away
  | timer
  | quitState (t : ThreadId) (q : Quit)
  | quitRegs (t : ThreadId) (q : Quit)
  | quitRecord (t : ThreadId) (q : Quit)
  | fault
  /-- At the test of `need_resched`, and at the end of `isr_handler`. -/
  | tail
  | leave
  /-- At `check_and_lock`, and behind it. -/
  | tryLock
  | pass
  /-- In `update_sleeping_threads`: at the test of the state, the read and the write of the
  sleep time, its test and the write of the state. -/
  | wake (l : List ThreadId)
  | wakeRead (t : ThreadId) (l : List ThreadId)
  | wakeWrite (t : ThreadId) (left : ℕ) (l : List ThreadId)
  | wakeTest (t : ThreadId) (l : List ThreadId)
  | wakeStop (t : ThreadId) (l : List ThreadId)
  | pick (l : List ThreadId) (picked : Option ThreadId) (minPriority : ℕ)
  /-- At the `switch` of `_sched`. -/
  | switch (new : Option ThreadId)
  | saveState (t new : ThreadId)
  | saveRegs (t new : ThreadId)
  | loadRegs (new : ThreadId)
  | loadState (new : ThreadId)
  | unlock
  /-- In `sched_run_thread` or `sched_run_proc`, with interrupts disabled. -/
  | runLock (job : Job)
  | runBody (job : Job)
  | runTest (a : Assertion) (l : List ThreadId)
  | runLink (a : Assertion) (t : ThreadId) (l : List ThreadId)
  | runUnlock
  /-- Stopped for ever, by an assertion or by the panic interrupt. -/
  | failed (a : Assertion)
  | halted
  deriving DecidableEq

/-- The system with the cores' places, and whether a core is in the pass that
`isr_handler` adds for `need_resched`. -/
structure Smp (C : Type) where
  sys : System C
  pos : C → Position
  extra : C → Bool

variable {C : Type} [DecidableEq C]

def Smp.goto (s : Smp C) (i : C) (p : Position) : Smp C :=
  { s with pos := Function.update s.pos i p }

omit [DecidableEq C] in
def Smp.writeThread (s : Smp C) (t : ThreadId) (f : Thread → Thread) : Smp C :=
  { s with sys := s.sys.updateThread t f }

def Smp.writeCore (s : Smp C) (i : C) (f : Core → Core) : Smp C :=
  { s with sys := s.sys.updateCore i f }

omit [DecidableEq C] in
def Smp.setLock (s : Smp C) (b : Bool) : Smp C := { s with sys := { s.sys with schedLock := b } }

def Smp.setExtra (s : Smp C) (i : C) (b : Bool) : Smp C :=
  { s with extra := Function.update s.extra i b }

/-- The first position of the handler of an interrupt. `sched_thread_exit` and
`sched_thread_sleep` return at once on a core without a thread; `in_irq` is set here. -/
def handlerStart (core : Core) : Interrupt → Position
  | .timer => .timer
  | .ipi => .tryLock
  | .yield => .tryLock
  | .exit code => core.currentThread.elim .tail fun t => .quitState t (.exit code)
  | .sleep timeMs => core.currentThread.elim .tail fun t => .quitState t (.sleep timeMs)
  | .pageFault => .fault

/-- The interrupt `int` with the frame `regs` reaches core `i`. -/
def Smp.interrupted (s : Smp C) (i : C) (int : Interrupt) (regs : ℕ) : Smp C :=
  (s.writeCore i fun core => { core with inIrq := true, irqRegs := regs }).goto i
    (handlerStart (s.sys.cores i) int)

/-- `_panic`, the handler of the interrupt that `sched_panic` sends: the core idles for ever. -/
def Smp.panicked (s : Smp C) (i : C) (regs : ℕ) : Smp C :=
  (s.writeCore i fun core => { core with inIrq := true, irqRegs := regs, state := .offline }).goto i
    .halted

omit [DecidableEq C] in
/-- The tests of `timer_handler` and `_sched_all` on the new tick. -/
def afterTick (s : System C) : Position :=
  if s.globalTicks % 8 = 0 ∧ s.procList ≠ [] ∧ s.procThreads s.kernelProc ≠ [] then .tryLock else .tail

/-- Where a core goes after `_sched_runner`. -/
def Smp.afterRunner (s : Smp C) (i : C) : Position := if s.extra i then .leave else .tail

/-- The `switch` of `_sched` in the state `new` was picked. -/
def Smp.decide (s : Smp C) (i : C) (new : Option ThreadId) : Smp C :=
  match (s.sys.cores i).state with
  | .online =>
    match (s.sys.cores i).currentThread with
    | none => s.goto i (.failed .schedOnlineThread)
    | some t =>
      if (s.sys.threads t).state = .running then
        s.goto i (new.elim .unlock fun n => .saveState t n)
      else s.goto i (.failed .schedOnlineRunning)
  | .idle =>
    if (s.sys.cores i).currentThread = none then s.goto i (new.elim .unlock .loadRegs)
    else s.goto i (.failed .schedIdle)
  | .booting =>
    if (s.sys.cores i).currentThread = none then
      ({ s with sys := s.sys.idled i } : Smp C).goto i .unlock
    else s.goto i (.failed .schedBooting)
  | .offline => s.goto i .unlock

/-- The next step of core `i`. -/
def Smp.advance (s : Smp C) (i : C) : Smp C :=
  match s.pos i with
  | .away => s
  | .timer =>
    let sys := { s.sys with globalTicks := (s.sys.globalTicks + 1) % 2 ^ 32 }
    ({ s with sys := sys } : Smp C).goto i (afterTick sys)
  | .quitState t q =>
    (s.writeThread t fun thread => { thread with state := q.state }).goto i (.quitRegs t q)
  | .quitRegs t q =>
    (s.writeThread t fun thread => { thread with regs := (s.sys.cores i).irqRegs }).goto i
      (.quitRecord t q)
  | .quitRecord t q =>
    let s := (s.writeThread t q.record).writeCore i fun core => { core with currentThread := none }
    ({ s with sys := s.sys.idled i } : Smp C).goto i .tail
  | .fault =>
    ((match (s.sys.cores i).currentThread with
      | some t => s.writeThread t fun thread => { thread with state := .terminated }
      | none => s).writeCore i fun core => { core with needResched := true }).goto i .tail
  | .tail =>
    if (s.sys.cores i).needResched then (s.setExtra i true).goto i .tryLock else s.goto i .leave
  | .leave =>
    ((s.setExtra i false).writeCore i fun core => { core with inIrq := false }).goto i .away
  | .tryLock =>
    if s.sys.schedLock then s.goto i (s.afterRunner i) else (s.setLock true).goto i .pass
  | .pass =>
    s.goto i (if (s.sys.cores i).coreId ≠ 0 then .pick s.sys.threadList none 0xFFFFFFFF
      else .wake s.sys.threadList)
  | .wake [] => s.goto i (.pick s.sys.threadList none 0xFFFFFFFF)
  | .wake (t :: l) =>
    s.goto i (if (s.sys.threads t).state = .sleeping then .wakeRead t l else .wake l)
  | .wakeRead t l => s.goto i (.wakeWrite t (sleepLeft (s.sys.threads t).sleepTime) l)
  | .wakeWrite t left l =>
    (s.writeThread t fun thread => { thread with sleepTime := left }).goto i (.wakeTest t l)
  | .wakeTest t l =>
    s.goto i (if (s.sys.threads t).sleepTime = 0 then .wakeStop t l else .wake l)
  | .wakeStop t l =>
    (s.writeThread t fun thread => { thread with state := .stopped }).goto i (.wake l)
  | .pick [] picked _ => s.goto i (.switch picked)
  | .pick (t :: l) picked minPriority =>
    s.goto i
      (if ((s.sys.threads t).cpu = -1 ∨ (s.sys.threads t).cpu = ((s.sys.cores i).coreId : ℤ)) ∧
          (s.sys.threads t).state = .stopped ∧ (s.sys.threads t).priority < minPriority then
        .pick l (some t) (s.sys.threads t).priority
      else .pick l picked minPriority)
  | .switch new => s.decide i new
  | .saveState t new =>
    (s.writeThread t fun thread => { thread with state := .stopped }).goto i (.saveRegs t new)
  | .saveRegs t new =>
    (s.writeThread t fun thread => { thread with regs := (s.sys.cores i).irqRegs }).goto i
      (.loadRegs new)
  | .loadRegs new =>
    (s.writeCore i fun core =>
      { core with
        state := if core.state = .idle then .online else core.state
        currentThread := some new
        irqRegs := (s.sys.threads new).regs }).goto i (.loadState new)
  | .loadState new =>
    ((s.writeThread new fun thread => { thread with state := .running }).writeCore i fun core =>
      { core with kernelStack := (s.sys.threads new).kernelStack }).goto i .unlock
  | .unlock => (s.setLock false).goto i (s.afterRunner i)
  | .runLock job => if s.sys.schedLock then s else (s.setLock true).goto i (.runBody job)
  | .runBody (.thread t) => s.goto i (.runTest .runThread [t])
  | .runBody (.proc p) =>
    if s.sys.procThreads p = [] then s.goto i (.failed .runProcEmpty)
    else ({ s with sys := { s.sys with procList := s.sys.procList ++ [p] } } : Smp C).goto i
      (.runTest .runProcThread (s.sys.procThreads p))
  | .runTest _ [] => s.goto i .runUnlock
  | .runTest a (t :: l) =>
    s.goto i (if (s.sys.threads t).state = .stopped then .runLink a t l else .failed a)
  | .runLink a t l =>
    ({ s with sys := { s.sys with threadList := s.sys.threadList ++ [t] } } : Smp C).goto i
      (.runTest a l)
  | .runUnlock => (s.setLock false).goto i .away
  | .failed _ => s
  | .halted => s

/-- What can happen next, on any core. A page fault of a thread needs `mayFault`. -/
inductive Step (mayFault : Prop) (s : Smp C) : Smp C → Prop
  | interrupt (i : C) (int : Interrupt) (regs : ℕ) : s.pos i = .away →
      (int = .pageFault → (s.sys.cores i).currentThread ≠ none → mayFault) →
      Step mayFault s (s.interrupted i int regs)
  | panicInterrupt (i : C) (regs : ℕ) : s.pos i = .away → Step mayFault s (s.panicked i regs)
  | call (i : C) (job : Job) : s.pos i = .away → Step mayFault s (s.goto i (.runLock job))
  | advance (i : C) : Step mayFault s (s.advance i)

end JustKernel.SchedSmp
