import JustKernel.Base.Halting
import JustKernel.Fs.ElfSymbols

/-! The stack trace of `sys/stack_trace.c`. A frame is a saved `ebp`, the link to the next frame,
with the return address behind it. A trace keeps the lines it has printed and counts the links
it has followed; a lookup that never ends halts it where it stands. The two lines around a
trace and the newline behind a frame are left out. -/

namespace JustKernel.StackTrace

open AddressSpace Elf32 Halting

/-- What `print_stack_frame` reads of the current thread and its process. -/
structure CurrentThread where
  tid : BitVec 32
  name : Addr
  elfObj : Addr

/-- The fields of `core_locals_t` a trace works on, with two of the saved registers. -/
structure Locals where
  inIrq : Bool
  currentThread : Option CurrentThread
  irqEbp : Addr
  irqEip : BitVec 32

structure Machine where
  mem : Mem32
  objs : Addr → Elf32Obj
  kernelTableObj : Addr
  locals : Locals

/-- The arguments of one printed frame: no name is printed as `UNKNOWN`. -/
structure FrameLine where
  ifFaulting : Bool
  address : BitVec 32
  name : Option Addr
  value : BitVec 32
  process : Option (Addr × BitVec 32)

structure Trace where
  frames : List FrameLine
  links : ℕ

abbrev TraceM := EStateM Unit Trace

/-- The lookup loop of `print_stack_frame` at the object `hdr`. -/
def resolveLoop (M : Machine) (address : BitVec 32) : ℕ → Addr → Option (Addr × Option Addr)
  | 0, _ => none
  | fuel + 1, hdr =>
    let symbol := elfFindNearestSymbolByAddress M.mem (M.objs hdr) sttFunc address
    match M.locals.currentThread with
    | some thread =>
      if symbol = none ∧ hdr = M.kernelTableObj then resolveLoop M address fuel thread.elfObj
      else some (hdr, symbol)
    | none => some (hdr, symbol)

def frameLine (M : Machine) (address : BitVec 32) (ifFaulting : Bool) (hdr : Addr) (symbol : Option Addr) :
    FrameLine where
  ifFaulting := ifFaulting
  address := address
  name := symbol.map fun y => (M.objs hdr).strtabHead + symbolName M.mem y
  value := symbol.elim address (symbolValue M.mem)
  process := M.locals.currentThread.map fun thread => (thread.name, thread.tid)

def printStackFrame (M : Machine) (fuel : ℕ) (address : BitVec 32) (ifFaulting : Bool) : TraceM Unit :=
  if address = 0 then pure ()
  else
    match resolveLoop M address fuel M.kernelTableObj with
    | none => throw ()
    | some (hdr, symbol) =>
      modify fun t => { t with frames := t.frames ++ [frameLine M address ifFaulting hdr symbol] }

/-- The fields of `stackFrame_t`. -/
def frameEbp (M : Machine) (stk : Addr) : Addr := read32 M.mem stk

def frameEip (M : Machine) (stk : Addr) : BitVec 32 := read32 M.mem (stk + 4)

/-- A walk with `n` frames left in the budget, up to the frame `last` if there is one. It
returns what is left of the budget and the frame it has come to. -/
def walk (M : Machine) (fuel : ℕ) (last : Option Addr) : ℕ → Addr → TraceM (ℕ × Addr)
  | 0, stk => pure (0, stk)
  | n + 1, stk =>
    if last = some stk ∨ stk = 0 then pure (n + 1, stk)
    else do
      printStackFrame M fuel (frameEip M stk) false
      modify fun t => { t with links := t.links + 1 }
      walk M fuel last n (frameEbp M stk)

/-- The part of `stack_trace` for a core in an interrupt: the frames of the handler and the
interrupted instruction. -/
def irqFrames (M : Machine) (fuel : ℕ) (stk : Addr) (maxFrames : BitVec 32) : TraceM (BitVec 32 × Addr) := do
  let r ← if stk ≠ 0 then walk M fuel (some M.locals.irqEbp) maxFrames.toNat stk
    else pure (maxFrames.toNat, stk)
  printStackFrame M fuel M.locals.irqEip true
  return (BitVec.ofNat 32 r.1 - 1, M.locals.irqEbp)

/-- `stack_trace`, with its own frame at `ebp`. -/
def stackTrace (M : Machine) (fuel : ℕ) (ebp : Addr) (maxFrames : BitVec 32) : TraceM Unit := do
  let (left, stk) ← if M.locals.inIrq then irqFrames M fuel ebp maxFrames else pure (maxFrames, ebp)
  if stk ≠ 0 then
    let _ ← walk M fuel none left.toNat stk

/-- The trace before anything is printed. -/
def Trace.empty : Trace := ⟨[], 0⟩

/-! ### The lookups of a frame -/

/-- The object has no function to offer for the address. -/
def Unresolved (m : Mem32) (hdr : Elf32Obj) (address : BitVec 32) : Prop :=
  hdr.sectabSize = 0 ∨ address < hdr.start ∨ hdr.stop < address ∨ ∀ y ∈ hdr.symbols, ¬sttChecktype m y sttFunc

/-- The kernel's table fails, and the thread that is asked instead belongs to the kernel. -/
def Stuck (M : Machine) (address : BitVec 32) : Prop :=
  address ≠ 0 ∧ Unresolved M.mem (M.objs M.kernelTableObj) address ∧
    ∃ thread, M.locals.currentThread = some thread ∧ thread.elfObj = M.kernelTableObj

variable {M : Machine} {address : BitVec 32} {fuel n : ℕ}

theorem elfFindNearestSymbolByAddress_eq_none {m : Mem32} {hdr : Elf32Obj} :
    elfFindNearestSymbolByAddress m hdr sttFunc address = none ↔ Unresolved m hdr address := by
  rw [Unresolved]
  by_cases hstart : address < hdr.start
  · simp [elfFindNearestSymbolByAddress, hstart]
  by_cases hstop : hdr.stop < address
  · simp [elfFindNearestSymbolByAddress, hstop]
  rw [elfFindNearestSymbolByAddress_eq (BitVec.not_lt.mp hstart) (BitVec.not_lt.mp hstop)]
  by_cases hsec : hdr.sectabSize = 0
  · simp [hsec]
  · rw [if_neg hsec, (nearestSymbolLoop_best FirstLeast.best_nil).none_iff]
    simp only [hsec, hstart, hstop, false_or, List.nil_append]

/-- The loop asks the kernel's table and at most one object more, unless that object is the
kernel's table again. -/
theorem resolveLoop_ends (haddress : address ≠ 0) (h : ¬Stuck M address) (fuel : ℕ) :
    ∃ r, resolveLoop M address (fuel + 2) M.kernelTableObj = some r := by
  rw [resolveLoop]
  cases hthread : M.locals.currentThread with
  | none => exact ⟨_, rfl⟩
  | some thread =>
    dsimp only
    split_ifs with hnone
    · have hother : thread.elfObj ≠ M.kernelTableObj := fun hobj =>
        h ⟨haddress, elfFindNearestSymbolByAddress_eq_none.mp hnone.1, thread, hthread, hobj⟩
      rw [resolveLoop, hthread]
      exact ⟨_, if_neg fun hagain => hother hagain.2⟩
    · exact ⟨_, rfl⟩

theorem resolveLoop_stuck (h : Stuck M address) (fuel : ℕ) :
    resolveLoop M address fuel M.kernelTableObj = none := by
  obtain ⟨-, hnone, thread, hthread, hobj⟩ := h
  have hsymbol := elfFindNearestSymbolByAddress_eq_none.mpr hnone
  induction fuel with
  | zero => rfl
  | succ fuel ih =>
    rw [resolveLoop, hthread]
    dsimp only
    rw [if_pos ⟨hsymbol, rfl⟩, hobj, ih]

/-- The frame needs no lookup, or the lookup loop ends within `n` of them. -/
def ResolvesIn (M : Machine) (n : ℕ) (address : BitVec 32) : Prop :=
  address = 0 ∨ ∃ r, resolveLoop M address n M.kernelTableObj = some r

/-- Two lookups are enough, or none are: for the kernel's own threads the loop asks the kernel's
table over and over. -/
theorem resolvesIn_two_iff : ResolvesIn M 2 address ↔ ¬Stuck M address := by
  constructor
  · rintro (rfl | ⟨r, hr⟩) hstuck
    · exact hstuck.1 rfl
    · rw [resolveLoop_stuck hstuck] at hr
      cases hr
  · intro h
    by_cases haddress : address = 0
    · exact Or.inl haddress
    · exact Or.inr (resolveLoop_ends haddress h 0)

/-- A machine without symbols on a thread of the kernel; `mem` holds the frames, and the fault
is at the address 1. -/
def kernelFault (mem : Mem32) : Machine where
  mem := mem
  objs _ := ⟨0, 0, 0, 0, 0, 0, 0, 0, 0, 0, 0, 0⟩
  kernelTableObj := 0x1000
  locals := ⟨true, some ⟨0, 0, 0x1000⟩, 0x200, 1⟩

/-- At the address 1 no number of lookups ends the loop. -/
theorem resolveLoop_kernelFault :
    ¬ResolvesIn (kernelFault fun _ => 0) 2 1 ∧ ¬∃ n, ResolvesIn (kernelFault fun _ => 0) n 1 := by
  have hstuck : Stuck (kernelFault fun _ => 0) 1 := ⟨by decide, Or.inl rfl, ⟨0, 0, 0x1000⟩, rfl, rfl⟩
  have hnever : ∀ n, ¬ResolvesIn (kernelFault fun _ => 0) n 1 := by
    rintro n (h | ⟨r, hr⟩)
    · exact hstuck.1 h
    · rw [resolveLoop_stuck hstuck] at hr
      cases hr
  exact ⟨hnever 2, fun ⟨n, hn⟩ => hnever n hn⟩

/-! ### A frame -/

theorem printStackFrame_stuck (h : Stuck M address) (ifFaulting : Bool) (t : Trace) :
    printStackFrame M fuel address ifFaulting t = .error () t := by
  rw [printStackFrame, if_neg h.1, resolveLoop_stuck h]
  rfl

/-- What a frame that is not stuck adds to the trace: one line, or none for the address 0. -/
theorem printStackFrame_ok (fuel : ℕ) (h : ¬Stuck M address) (ifFaulting : Bool) (t : Trace) :
    ∃ lines, printStackFrame M (fuel + 2) address ifFaulting t = .ok () { t with frames := t.frames ++ lines } ∧
      lines.length = if address = 0 then 0 else 1 := by
  rw [printStackFrame]
  split_ifs with haddress
  · exact ⟨[], by simp, rfl⟩
  · obtain ⟨⟨hdr, symbol⟩, hr⟩ := resolveLoop_ends haddress h fuel
    rw [hr]
    exact ⟨[_], rfl, rfl⟩

/-! ### A walk -/

variable {last : Option Addr} {stk : Addr} {t : Trace}

/-- The frame that `k` links lead to. -/
def frameAt (M : Machine) (stk : Addr) : ℕ → Addr
  | 0 => stk
  | k + 1 => frameAt M (frameEbp M stk) k

/-- The chain ends, or comes to the frame `last`, in fewer than `n` links. -/
def Stopped (M : Machine) (last : Option Addr) (n : ℕ) (stk : Addr) : Prop :=
  ∃ k < n, last = some (frameAt M stk k) ∨ frameAt M stk k = 0

/-- One of the first `n` frames satisfies `P`. -/
def SomeFrame (M : Machine) (P : BitVec 32 → Prop) (n : ℕ) (stk : Addr) : Prop :=
  ∃ k < n, P (frameEip M (frameAt M stk k))

theorem exists_lt_succ {P : ℕ → Prop} : (∃ k < n + 1, P k) ↔ P 0 ∨ ∃ k < n, P (k + 1) := by
  constructor
  · rintro ⟨k, hk, h⟩
    cases k with
    | zero => exact Or.inl h
    | succ k => exact Or.inr ⟨k, Nat.lt_of_succ_lt_succ hk, h⟩
  · rintro (h | ⟨k, hk, h⟩)
    · exact ⟨0, Nat.succ_pos n, h⟩
    · exact ⟨k + 1, Nat.succ_lt_succ hk, h⟩

theorem stopped_succ :
    Stopped M last (n + 1) stk ↔ (last = some stk ∨ stk = 0) ∨ Stopped M last n (frameEbp M stk) :=
  exists_lt_succ

theorem someFrame_succ {P : BitVec 32 → Prop} :
    SomeFrame M P (n + 1) stk ↔ P (frameEip M stk) ∨ SomeFrame M P n (frameEbp M stk) :=
  exists_lt_succ

theorem walk_stop (h : last = some stk ∨ stk = 0) : walk M fuel last n stk t = .ok (n, stk) t := by
  cases n with
  | zero => rfl
  | succ n =>
    rw [walk, if_pos h]
    rfl

theorem walk_stuck (h : ¬(last = some stk ∨ stk = 0)) (hstuck : Stuck M (frameEip M stk)) :
    walk M fuel last (n + 1) stk t = .error () t := by
  rw [walk, if_neg h]
  exact bind_of_error (printStackFrame_stuck hstuck false t)

/-- The state behind a frame that printed `lines`. -/
def Trace.passed (t : Trace) (lines : List FrameLine) : Trace := ⟨t.frames ++ lines, t.links + 1⟩

theorem walk_step (fuel n : ℕ) (t : Trace) (h : ¬(last = some stk ∨ stk = 0)) (hstuck : ¬Stuck M (frameEip M stk)) :
    ∃ lines, walk M (fuel + 2) last (n + 1) stk t =
        walk M (fuel + 2) last n (frameEbp M stk) (t.passed lines) ∧
      lines.length = if frameEip M stk = 0 then 0 else 1 := by
  obtain ⟨lines, hprint, hlines⟩ := printStackFrame_ok fuel hstuck false t
  refine ⟨lines, ?_, hlines⟩
  rw [walk, if_neg h, bind_of_ok hprint]
  rfl

/-- A walk takes one of its budget for every link, and prints at most one line for each. -/
theorem walk_bounds (M : Machine) (fuel : ℕ) (last : Option Addr) (n : ℕ) (stk : Addr) (t : Trace) :
    Ends (fun r t' => t'.links + r.1 = t.links + n ∧ t'.frames.length + r.1 ≤ t.frames.length + n ∧ r.1 ≤ n)
      (fun t' => t.links ≤ t'.links ∧ t'.links ≤ t.links + n ∧ t'.frames.length ≤ t.frames.length + n)
      (walk M (fuel + 2) last n stk t) := by
  induction n generalizing stk t with
  | zero => exact ⟨rfl, le_rfl, le_rfl⟩
  | succ n ih =>
    by_cases hstop : last = some stk ∨ stk = 0
    · rw [walk_stop hstop]
      exact ⟨rfl, le_rfl, le_rfl⟩
    by_cases hstuck : Stuck M (frameEip M stk)
    · rw [walk_stuck hstop hstuck]
      exact ⟨le_rfl, Nat.le_add_right _ _, Nat.le_add_right _ _⟩
    obtain ⟨lines, hwalk, hlines⟩ := walk_step fuel n t hstop hstuck
    have hone : lines.length ≤ 1 := by rw [hlines]; split_ifs <;> omega
    rw [hwalk]
    refine (ih _ (t.passed lines)).mono ?_ ?_
    · rintro r t' ⟨hlinks, hframes, hr⟩
      simp only [Trace.passed, List.length_append] at hlinks hframes
      omega
    · rintro t' ⟨hle, hlinks, hframes⟩
      simp only [Trace.passed, List.length_append] at hle hlinks hframes
      omega

/-- A walk that stops leaves some of the budget. -/
theorem walk_stopped (fuel : ℕ) (t : Trace) (h : Stopped M last n stk) :
    Ends (fun r _ => 1 ≤ r.1) (fun _ => True) (walk M (fuel + 2) last n stk t) := by
  induction n generalizing stk t with
  | zero =>
    obtain ⟨k, hk, -⟩ := h
    exact absurd hk (Nat.not_lt_zero k)
  | succ n ih =>
    by_cases hstop : last = some stk ∨ stk = 0
    · rw [walk_stop hstop]
      exact Nat.succ_pos n
    by_cases hstuck : Stuck M (frameEip M stk)
    · rw [walk_stuck hstop hstuck]
      trivial
    obtain ⟨lines, hwalk, -⟩ := walk_step fuel n t hstop hstuck
    rw [hwalk]
    exact ih (t.passed lines) ((stopped_succ.mp h).resolve_left hstop)

/-- A walk that does not stop hangs at the first frame it cannot resolve. -/
theorem walk_hangs (fuel : ℕ) (t : Trace) (h : ¬Stopped M last n stk) (hsome : SomeFrame M (Stuck M) n stk) :
    Ends (fun _ _ => False) (fun _ => True) (walk M (fuel + 2) last n stk t) := by
  induction n generalizing stk t with
  | zero =>
    obtain ⟨k, hk, -⟩ := hsome
    exact absurd hk (Nat.not_lt_zero k)
  | succ n ih =>
    obtain ⟨hstop, hrest⟩ := not_or.mp (stopped_succ.not.mp h)
    by_cases hstuck : Stuck M (frameEip M stk)
    · rw [walk_stuck hstop hstuck]
      trivial
    obtain ⟨lines, hwalk, -⟩ := walk_step fuel n t hstop hstuck
    rw [hwalk]
    exact ih (t.passed lines) hrest ((someFrame_succ.mp hsome).resolve_left hstuck)

/-- A walk that neither stops nor hangs uses up the budget, with a line for each frame unless
one of them returns to the address 0. -/
theorem walk_usedUp (fuel : ℕ) (h : ¬Stopped M last n stk) (hnone : ¬SomeFrame M (Stuck M) n stk) (t : Trace) :
    ∃ lines, walk M (fuel + 2) last n stk t =
        .ok (0, frameAt M stk n) ⟨t.frames ++ lines, t.links + n⟩ ∧
      (lines.length = n ↔ ¬SomeFrame M (· = 0) n stk) ∧ lines.length ≤ n := by
  induction n generalizing stk t with
  | zero => exact ⟨[], by simp [walk, frameAt], by simp [SomeFrame], le_rfl⟩
  | succ n ih =>
    obtain ⟨hstop, hrest⟩ := not_or.mp (stopped_succ.not.mp h)
    obtain ⟨hstuck, hnone⟩ := not_or.mp (someFrame_succ.not.mp hnone)
    obtain ⟨first, hwalk, hfirst⟩ := walk_step fuel n t hstop hstuck
    obtain ⟨lines, htail, hzero, hle⟩ := ih hrest hnone (t.passed first)
    refine ⟨first ++ lines, ?_, ?_, ?_⟩
    · rw [hwalk, htail]
      simp only [Trace.passed, List.append_assoc, frameAt]
      congr 2
      omega
    · rw [someFrame_succ, not_or, ← hzero, List.length_append, hfirst]
      split_ifs with h0
      · simp only [h0, not_true_eq_false, false_and, iff_false]
        omega
      · simp only [h0, not_false_eq_true, true_and]
        omega
    · rw [List.length_append, hfirst]
      split_ifs <;> omega

/-! ### The whole trace -/

/-- At most `n` frames printed and at most `n` links followed. -/
def Trace.Bounded (t : Trace) (n : ℕ) : Prop := t.frames.length ≤ n ∧ t.links ≤ n

/-- In an interrupt, what follows the walk of the handler's frames. -/
def irqRest (M : Machine) (fuel left : ℕ) : TraceM Unit := do
  printStackFrame M fuel M.locals.irqEip true
  let _ ← walk M fuel none (BitVec.ofNat 32 left - 1).toNat M.locals.irqEbp

theorem walk_null (M : Machine) (fuel : ℕ) (last : Option Addr) (n : ℕ) :
    walk M fuel last n 0 = pure (n, 0) :=
  funext fun _ => walk_stop (Or.inr rfl)

/-- The test for NULL before a walk changes nothing. -/
theorem walk_guard (M : Machine) (fuel : ℕ) (n : ℕ) (stk : Addr) :
    (if stk ≠ 0 then do let _ ← walk M fuel none n stk else pure () : TraceM Unit) =
      (do let _ ← walk M fuel none n stk) := by
  split_ifs with h
  · rfl
  · rw [not_not.mp h, walk_null, pure_bind]

theorem stackTrace_irq (h : M.locals.inIrq = true) (fuel : ℕ) (ebp : Addr) (maxFrames : BitVec 32) :
    stackTrace M fuel ebp maxFrames = (do
      let r ← walk M fuel (some M.locals.irqEbp) maxFrames.toNat ebp
      irqRest M fuel r.1) := by
  simp only [stackTrace, h, if_true, irqFrames, irqRest]
  by_cases h0 : ebp = 0
  · simp only [h0, walk_null, ne_eq, not_true_eq_false, if_false, bind_assoc, pure_bind]
    exact bind_congr fun _ => walk_guard M fuel _ _
  · simp only [ne_eq, h0, not_false_eq_true, if_true, bind_assoc, pure_bind]
    exact bind_congr fun _ => bind_congr fun _ => walk_guard M fuel _ _

theorem stackTrace_noIrq (h : M.locals.inIrq = false) (fuel : ℕ) (ebp : Addr) (maxFrames : BitVec 32) :
    stackTrace M fuel ebp maxFrames = (do let _ ← walk M fuel none maxFrames.toNat ebp) := by
  simp only [stackTrace, h, Bool.false_eq_true, if_false]
  exact walk_guard M fuel _ _

/-- Where only the end state matters, a walk at the end of a trace stands for itself. -/
theorem finalState_walk (M : Machine) (fuel : ℕ) (last : Option Addr) (n : ℕ) (stk : Addr) (t : Trace) :
    finalState ((do let _ ← walk M fuel last n stk : TraceM Unit) t) = finalState (walk M fuel last n stk t) := by
  cases h : walk M fuel last n stk t with
  | ok r t' => rw [bind_of_ok h]; rfl
  | error e t' => rw [bind_of_error h]; rfl

theorem walk_bounded (M : Machine) (fuel : ℕ) (last : Option Addr) (stk : Addr) {left : ℕ}
    (hframes : t.frames.length + left ≤ n) (hlinks : t.links + left ≤ n) :
    (finalState (walk M (fuel + 2) last left stk t)).Bounded n := by
  have hbounds := walk_bounds M fuel last left stk t
  refine (ends_final_iff (P := fun t' : Trace => t'.Bounded n)).mp (hbounds.mono ?_ ?_)
  · rintro r t' ⟨h1, h2, -⟩
    exact ⟨by omega, by omega⟩
  · rintro t' ⟨-, h1, h2⟩
    exact ⟨h2.trans hframes, h1.trans hlinks⟩

theorem walk_links_le (M : Machine) (fuel : ℕ) (last : Option Addr) (n : ℕ) (stk : Addr) (t : Trace) :
    t.links ≤ (finalState (walk M (fuel + 2) last n stk t)).links := by
  have hbounds := walk_bounds M fuel last n stk t
  refine (ends_final_iff (P := fun t' : Trace => t.links ≤ t'.links)).mp (hbounds.mono ?_ ?_)
  · rintro r t' ⟨h1, -, h2⟩
    omega
  · rintro t' ⟨h1, -⟩
    exact h1

/-- The interrupted instruction, before the last walk. -/
theorem irqRest_ok (h : ¬Stuck M M.locals.irqEip) (fuel left : ℕ) (t : Trace) :
    ∃ lines, finalState (irqRest M (fuel + 2) left t) =
        finalState (walk M (fuel + 2) none (BitVec.ofNat 32 left - 1).toNat M.locals.irqEbp
          { t with frames := t.frames ++ lines }) ∧
      lines.length = if M.locals.irqEip = 0 then 0 else 1 := by
  obtain ⟨lines, hprint, hlines⟩ := printStackFrame_ok fuel h true t
  refine ⟨lines, ?_, hlines⟩
  rw [irqRest, bind_of_ok hprint]
  exact finalState_walk M _ _ _ _ _

theorem irqRest_stuck (h : Stuck M M.locals.irqEip) (fuel left : ℕ) (t : Trace) :
    finalState (irqRest M fuel left t) = t := by
  rw [irqRest, bind_of_error (printStackFrame_stuck h true t)]
  rfl

/-- With some of the budget left, the decrement behind the interrupted instruction pays for it. -/
theorem irqRest_bounded {left : ℕ} (fuel : ℕ) (hleft : 1 ≤ left) (hlt : left < 2 ^ 32)
    (hframes : t.frames.length + left ≤ n) (hlinks : t.links + left ≤ n) :
    (finalState (irqRest M (fuel + 2) left t)).Bounded n := by
  by_cases hstuck : Stuck M M.locals.irqEip
  · rw [irqRest_stuck hstuck]
    exact ⟨by omega, by omega⟩
  · obtain ⟨lines, hrest, hlines⟩ := irqRest_ok hstuck fuel left t
    have hone : lines.length ≤ 1 := by rw [hlines]; split_ifs <;> omega
    have hdec : (BitVec.ofNat 32 left - 1).toNat = left - 1 := by
      rw [BitVec.toNat_sub, BitVec.toNat_ofNat]
      simp only [BitVec.toNat_ofNat, BitVec.ofNat_eq_ofNat]
      omega
    rw [hrest, hdec]
    refine walk_bounded M fuel _ _ ?_ ?_
    · simp only [List.length_append]
      omega
    · simp only
      omega

/-- With nothing left, the decrement wraps around, and the last walk goes on for as long as the
interrupted frames do. -/
theorem irqRest_usedUp_iff (hframes : t.frames.length ≤ n) (hlinks : t.links = n) (fuel : ℕ) :
    (finalState (irqRest M (fuel + 2) 0 t)).Bounded n ↔
      Stuck M M.locals.irqEip ∨ (M.locals.irqEip = 0 ∨ t.frames.length < n) ∧
        (M.locals.irqEbp = 0 ∨ Stuck M (frameEip M M.locals.irqEbp)) := by
  by_cases hstuck : Stuck M M.locals.irqEip
  · rw [irqRest_stuck hstuck]
    exact iff_of_true ⟨hframes, hlinks.le⟩ (Or.inl hstuck)
  obtain ⟨lines, hrest, hlines⟩ := irqRest_ok hstuck fuel 0 t
  have hcount : t.frames.length + lines.length ≤ n ↔ M.locals.irqEip = 0 ∨ t.frames.length < n := by
    rw [hlines]
    split_ifs with h0
    · simp [h0, hframes]
    · simp only [h0, false_or]
      omega
  have hwrap : (BitVec.ofNat 32 0 - 1).toNat = 4294967294 + 1 := by decide
  rw [hrest, hwrap]
  simp only [hstuck, false_or]
  by_cases hnull : M.locals.irqEbp = 0
  · rw [walk_stop (Or.inr hnull)]
    simp [finalState, Trace.Bounded, hlinks, hnull, hcount]
  have hgo : ¬((none : Option Addr) = some M.locals.irqEbp ∨ M.locals.irqEbp = 0) := by simpa using hnull
  by_cases hframe : Stuck M (frameEip M M.locals.irqEbp)
  · rw [walk_stuck hgo hframe]
    simp [finalState, Trace.Bounded, hlinks, hframe, hcount]
  · -- the first link of the last walk is one too many
    obtain ⟨more, hwalk, -⟩ := walk_step fuel 4294967294 { t with frames := t.frames ++ lines } hgo hframe
    rw [hwalk]
    refine iff_of_false (fun hb => ?_) fun h => h.2.elim hnull hframe
    have hle := walk_links_le M fuel none 4294967294 (frameEbp M M.locals.irqEbp)
      (Trace.passed { t with frames := t.frames ++ lines } more)
    have hmost := hb.2
    simp only [Trace.passed] at hle hmost
    omega

/-- In an interrupt the bound holds exactly if the walk of the handler's frames stops inside the
budget, or a lookup hangs before the last walk, or the first walk has used up the budget but
there is nothing left to pay for: one of the frames so far returns to the address 0, and the
interrupted code has no frame, or one that hangs. -/
theorem stackTrace_bounded_iff (M : Machine) (fuel : ℕ) (ebp : Addr) (maxFrames : BitVec 32) :
    (finalState (stackTrace M (fuel + 2) ebp maxFrames Trace.empty)).Bounded maxFrames.toNat ↔
      (M.locals.inIrq = true →
        Stopped M (some M.locals.irqEbp) maxFrames.toNat ebp ∨
        SomeFrame M (Stuck M) maxFrames.toNat ebp ∨ Stuck M M.locals.irqEip ∨
        (M.locals.irqEip = 0 ∨ SomeFrame M (· = 0) maxFrames.toNat ebp) ∧
          (M.locals.irqEbp = 0 ∨ Stuck M (frameEip M M.locals.irqEbp))) := by
  cases hirq : M.locals.inIrq with
  | false =>
    rw [stackTrace_noIrq hirq, finalState_walk]
    simp only [Bool.false_eq_true, false_implies, iff_true]
    exact walk_bounded M fuel none ebp (Nat.zero_add _).le (Nat.zero_add _).le
  | true =>
    rw [stackTrace_irq hirq]
    simp only [true_implies]
    have hbounds := walk_bounds M fuel (some M.locals.irqEbp) maxFrames.toNat ebp Trace.empty
    simp only [Trace.empty, List.length_nil, Nat.zero_add] at hbounds
    by_cases hstop : Stopped M (some M.locals.irqEbp) maxFrames.toNat ebp
    · refine iff_of_true (Ends.final_bind (P := fun t : Trace => t.Bounded maxFrames.toNat) ?_) (Or.inl hstop)
      refine (hbounds.and (walk_stopped fuel Trace.empty hstop)).mono ?_ ?_
      · rintro r t ⟨⟨hlinks, hframes, hr⟩, hleft⟩
        exact irqRest_bounded fuel hleft (hr.trans_lt maxFrames.isLt) hframes hlinks.le
      · rintro t ⟨-, hlinks, hframes⟩
        exact ⟨hframes, hlinks⟩
    simp only [hstop, false_or]
    by_cases hhangs : SomeFrame M (Stuck M) maxFrames.toNat ebp
    · refine iff_of_true (Ends.final_bind (P := fun t : Trace => t.Bounded maxFrames.toNat) ?_) (Or.inl hhangs)
      refine (hbounds.and (walk_hangs fuel Trace.empty hstop hhangs)).mono ?_ ?_
      · exact fun r t h => h.2.elim
      · rintro t ⟨-, hlinks, hframes⟩
        exact ⟨hframes, hlinks⟩
    · obtain ⟨lines, hwalk, hzero, hle⟩ := walk_usedUp fuel hstop hhangs Trace.empty
      have hshort : lines.length < maxFrames.toNat ↔ SomeFrame M (· = 0) maxFrames.toNat ebp := by
        rw [← not_iff_not, ← hzero, not_lt]
        exact ⟨hle.antisymm, ge_of_eq⟩
      simp only [Trace.empty, List.nil_append, Nat.zero_add] at hwalk
      simp only [hhangs, false_or]
      rw [Trace.empty, bind_of_ok hwalk, irqRest_usedUp_iff hle rfl, hshort]

/-- Two frames: one that links to itself at `0x100`, and the interrupted one at `0x200`. -/
def cyclicFrames : Mem32 := fun a => if a = 0x101 then 1 else if a = 0x104 ∨ a = 0x204 then 1 else 0

/-- No thread is current, so that every lookup ends. -/
def cyclicTrace : Machine := { kernelFault cyclicFrames with locals := ⟨true, none, 0x200, 1⟩ }

/-- A budget of one frame is used up by the handler's frame, and two more are printed. -/
theorem not_bounded_cyclicTrace :
    ¬(finalState (stackTrace cyclicTrace 2 0x100 1 Trace.empty)).Bounded 1 := by
  have hframes : (finalState (stackTrace cyclicTrace 2 0x100 1 Trace.empty)).frames.length = 3 := by decide
  rintro ⟨h, -⟩
  omega

end JustKernel.StackTrace
