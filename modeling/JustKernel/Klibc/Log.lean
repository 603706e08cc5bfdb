import JustKernel.Klibc.Lock
import JustKernel.Klibc.Stdio
import JustKernel.Base.Channel
import Mathlib.Logic.Function.Basic
import Mathlib.Data.List.Basic

/-! What `ser_printf` and `kprintf` write when any number of threads and interrupt handlers
call them at once. Every access of memory that others can see is a step of its own: the
accesses of `spinlock_lock` and `spinlock_unlock`, the two notes that the macros of
`klibc/lock.h` make around them, and each byte that goes out. Calls nest, since an interrupt
can come at any point and a waiter calls `deadlock_handler`, which calls `ser_printf` itself,
perhaps for the lock it is waiting for; each call that has not returned is an activation, and
the last one of a thread of control is the one that runs. What `_vprintf` makes of a call is
its text. `panic`, which lets go of locks it does not hold, is left out. -/

namespace JustKernel.Klibc

open Memory (Byte)
open Runs

/-- The locks of `ser_printf` and `kprintf`. -/
inductive LockId
  | sprintf
  | irqSprintf
  | kprintf
  deriving DecidableEq

/-- The name that `INIT_LOCK` gives. -/
def LockId.name : LockId → String
  | .sprintf => "sprintf_lock"
  | .irqSprintf => "irq_sprintf_lock"
  | .kprintf => "kprintf_lock"

/-- `__FUNCTION__` where the lock is taken. -/
def LockId.function : LockId → String
  | .kprintf => "kprintf"
  | _ => "ser_printf"

/-- The bytes that `serial_writeChar` sends. -/
def serialWriteChar (c : Byte) : List Byte := if c = chr '\n' then [c, chr '\r'] else [c]

/-- What a call finds: `_active_port`, whether the core has locals and whether they are mapped
and in an interrupt, and whether `_global_putchar` is set. -/
structure Surroundings where
  activePort : BitVec 16
  locals : Bool
  mapped : Bool
  inIrq : Bool
  globalPutchar : Bool

/-- The lock that `ser_printf` goes for. Without a port it returns at once. -/
def serPrintfLock (e : Surroundings) : Option LockId :=
  if e.activePort = 0 then none
  else if e.locals && e.mapped && e.inIrq then some .irqSprintf else some .sprintf

/-- Where a call of one of the two functions stands. The body has `rest` yet to write. -/
inductive Pc
  | attempting
  | spinning (p : Spin)
  | acquired
  | naming
  | body (rest : List Byte)
  | released
  deriving DecidableEq

/-- An activation: a call for a lock with the bytes it is to write, or `deadlock_handler` for a
lock with the calls it has made. -/
inductive Frame
  | print (lock : LockId) (bytes : List Byte) (pc : Pc)
  | handler (lock : LockId) (calls : ℕ)

/-- A call of `ser_printf`. -/
def serPrintf (e : Surroundings) (text : List Byte) : Option Frame :=
  (serPrintfLock e).map fun lock => .print lock (text.flatMap serialWriteChar) .attempting

/-- A call of `kprintf`; `_vprintf` does not write without a `putchar`. -/
def kprintf (e : Surroundings) (text : List Byte) : Frame :=
  .print .kprintf (if e.globalPutchar then text else []) .attempting

def textOf (s : String) : List Byte := s.toList.map chr

/-- The messages of `deadlock_handler`. -/
def warning (lock : LockId) (holder : String) : List Byte :=
  textOf ("Warning: Potential deadlock in lock " ++ lock.name ++ " held by " ++ holder ++ "\n")

def attempt (attemptingToGet : String) : List Byte :=
  textOf ("Attempting to get lock from " ++ attemptingToGet ++ "\n")

/-- The next access of a call: the lock, the bytes that go out, and where the call stands then,
which is nowhere when it returns. `ready` is the transmitter's bit in `UART_LSR`. -/
def access (lock : LockId) (bytes : List Byte) (ready : Bool) (k : Lock) : Pc → Lock × List Byte × Option Pc
  | .attempting => ({ k with attemptingToGet := lock.function }, [], some (.spinning .bts))
  | .spinning p =>
    let (p, dat) := spinlockLock k.dat p
    ({ k with dat := dat }, [], some (p.elim .acquired .spinning))
  | .acquired => ({ k with attemptingToGet := "None" }, [], some .naming)
  | .naming => ({ k with holder := lock.function }, [], some (.body bytes))
  | .body (b :: rest) => if ready then (k, [b], some (.body rest)) else (k, [], some (.body (b :: rest)))
  | .body [] => ({ k with dat := btr k.dat }, [], some .released)
  | .released => ({ k with holder := "None" }, [], none)

/-- The threads of control `A` with their activations, the last one first. `out` is all that has
been written, with the lock under which it was. -/
structure Sys (A ι : Type) where
  locks : LockId → Lock
  frames : ι → Option Frame
  stack : A → List ι
  out : List (LockId × Byte)

section Model

variable {A ι : Type} [DecidableEq A] [DecidableEq ι]

def Sys.put (s : Sys A ι) (x : ι) (f : Frame) : Sys A ι :=
  { s with frames := Function.update s.frames x (some f) }

/-- A call from `a`. -/
def Sys.push (s : Sys A ι) (a : A) (x : ι) (f : Frame) : Sys A ι :=
  { s.put x f with stack := Function.update s.stack a (x :: s.stack a) }

/-- The last activation of `a` returns. -/
def Sys.pop (s : Sys A ι) (a : A) (x : ι) (rest : List ι) : Sys A ι :=
  { s with frames := Function.update s.frames x none, stack := Function.update s.stack a rest }

/-- No activation has this name. -/
def Sys.Unused (s : Sys A ι) (x : ι) : Prop := s.frames x = none ∧ ∀ a, x ∉ s.stack a

/-- The activation `x` of `a`, a call, makes its next access. -/
def Sys.accessed (s : Sys A ι) (a : A) (x : ι) (rest : List ι) (lock : LockId) (bytes : List Byte)
    (ready : Bool) (pc : Pc) : Sys A ι :=
  let (k, out, pc') := access lock bytes ready (s.locks lock) pc
  let s := { s with locks := Function.update s.locks lock k, out := s.out ++ out.map (lock, ·) }
  match pc' with
  | some pc => s.put x (.print lock bytes pc)
  | none => s.pop a x rest

/-- The call has got the lock with the access. -/
def takes (k : Lock) (pc : Pc) : Bool := pc = .spinning .bts && !k.dat.getLsbD 0

/-- One step, with the bytes of the call if it takes its lock. A call can begin at any time, and
a call at `deadlock` is overlaid by one of `deadlock_handler`, with any `eax` for its return. -/
inductive Step (s : Sys A ι) : Option (LockId × List Byte) → Sys A ι → Prop
  | serPrintf (a : A) (x : ι) (e : Surroundings) (text : List Byte) {f : Frame} : s.Unused x →
      Klibc.serPrintf e text = some f → Step s none (s.push a x f)
  | kprintf (a : A) (x : ι) (e : Surroundings) (text : List Byte) : s.Unused x →
      Step s none (s.push a x (Klibc.kprintf e text))
  | access {a : A} {x : ι} {rest : List ι} {lock : LockId} {bytes : List Byte} {pc : Pc} (ready : Bool) :
      s.stack a = x :: rest → s.frames x = some (.print lock bytes pc) → pc ≠ .spinning .deadlock →
      Step s (if takes (s.locks lock) pc then some (lock, bytes) else none)
        (s.accessed a x rest lock bytes ready pc)
  | deadlock {a : A} {x y : ι} {rest : List ι} {lock : LockId} {bytes : List Byte} (eax : BitVec 32) :
      s.stack a = x :: rest → s.frames x = some (.print lock bytes (.spinning .deadlock)) → s.Unused y →
      Step s none ((s.put x (.print lock bytes (.spinning (.spin eax)))).push a y (.handler lock 0))
  | warn {a : A} {x y : ι} {rest : List ι} {lock : LockId} {calls : ℕ} (e : Surroundings) {f : Frame} :
      s.stack a = x :: rest → s.frames x = some (.handler lock calls) → calls < 2 → s.Unused y →
      Klibc.serPrintf e (if calls = 0 then warning lock (s.locks lock).holder
        else attempt (s.locks lock).attemptingToGet) = some f →
      Step s none ((s.put x (.handler lock (calls + 1))).push a y f)
  | mute {a : A} {x : ι} {rest : List ι} {lock : LockId} {calls : ℕ} (e : Surroundings) :
      s.stack a = x :: rest → s.frames x = some (.handler lock calls) → calls < 2 →
      serPrintfLock e = none → Step s none (s.put x (.handler lock (calls + 1)))
  | handled {a : A} {x : ι} {rest : List ι} {lock : LockId} : s.stack a = x :: rest →
      s.frames x = some (.handler lock 2) → Step s none (s.pop a x rest)

/-- Nobody has printed anything. -/
def silent : Sys A ι := ⟨fun _ => initLock, fun _ => none, fun _ => [], []⟩

/-- A run, with the calls that took their locks in the order in which they did. -/
inductive Run (s : Sys A ι) : List (LockId × List Byte) → Sys A ι → Prop
  | nil : Run s [] s
  | tail {log : List (LockId × List Byte)} {taken : Option (LockId × List Byte)} {t u : Sys A ι} :
      Run s log t → Step t taken u → Run s (log ++ taken.toList) u

end Model

/-! ### The channel behind a lock -/

/-- What a call has yet to write while it has its lock. -/
def Pc.left (bytes : List Byte) : Pc → Option (List Byte)
  | .acquired | .naming => some bytes
  | .body rest => some rest
  | .attempting | .spinning _ | .released => none

/-- The same for an activation, if the lock is `l`. -/
def Frame.left (l : LockId) : Frame → Option (List Byte)
  | .print lock bytes pc => if lock = l then pc.left bytes else none
  | .handler _ _ => none

section Simulation

variable {A ι : Type} {s s' : Sys A ι} {c : Channels.Channel ι Byte} {l lock : LockId} {a : A} {x y : ι}
  {f : Frame} {rest : List ι} {bytes : List Byte} {pc : Pc} {ready : Bool} {taken : Option (LockId × List Byte)}

def Sys.left (s : Sys A ι) (l : LockId) (x : ι) : Option (List Byte) := (s.frames x).bind (Frame.left l)

/-- What has been written under the lock `l`. -/
def Sys.sent (s : Sys A ι) (l : LockId) : List Byte := (s.out.filter (·.1 = l)).map Prod.snd

/-- The activation that has the lock is the writer of the channel, and the word tells whether
there is one. -/
structure Abstracts (s : Sys A ι) (l : LockId) (c : Channels.Channel ι Byte) : Prop where
  sent : c.sent = s.sent l
  writer : ∀ x rest, s.left l x = some rest ↔ c.writer = some (x, rest)
  word : (s.locks l).dat = lockWord c.writer.isSome

/-- The messages under `l` among calls that took their locks. -/
def messages (l : LockId) (log : List (LockId × List Byte)) : List (List Byte) :=
  (log.filter (·.1 = l)).map Prod.snd

theorem messages_append (l : LockId) (log log' : List (LockId × List Byte)) :
    messages l (log ++ log') = messages l log ++ messages l log' := by
  simp [messages]

theorem Abstracts.of_same (h : Abstracts s l c) (hsent : s'.sent l = s.sent l) (hleft : s'.left l = s.left l)
    (hword : (s'.locks l).dat = (s.locks l).dat) : Abstracts s' l c :=
  ⟨h.sent.trans hsent.symm, fun x rest => by rw [hleft]; exact h.writer x rest, hword.trans h.word⟩

theorem left_of_frame (hx : s.frames x = some f) : s.left l x = f.left l := by
  rw [Sys.left, hx, Option.bind_some]

variable [DecidableEq ι]

theorem put_left : (s.put x f).left l = Function.update (s.left l) x (f.left l) := by
  funext y
  unfold Sys.left Sys.put
  by_cases hy : y = x
  · subst hy
    simp
  · simp [Function.update_of_ne hy]

variable [DecidableEq A]

theorem pop_left : (s.pop a x rest).left l = Function.update (s.left l) x none := by
  funext y
  unfold Sys.left Sys.pop
  by_cases hy : y = x
  · subst hy
    simp
  · simp [Function.update_of_ne hy]

omit [DecidableEq A] in
/-- An activation that has not got a lock may come, change and go. -/
theorem Abstracts.put (h : Abstracts s l c) (hx : s.left l x = none) (hf : f.left l = none) :
    Abstracts (s.put x f) l c := by
  refine h.of_same rfl ?_ rfl
  rw [put_left, hf, ← hx, Function.update_eq_self]

theorem Abstracts.push (h : Abstracts s l c) (hx : s.Unused x) (hf : f.left l = none) :
    Abstracts (s.push a x f) l c := by
  have hleft : s.left l x = none := by rw [Sys.left, hx.1, Option.bind_none]
  exact (h.put hleft hf).of_same rfl rfl rfl

theorem Abstracts.pop (h : Abstracts s l c) (hx : s.left l x = none) : Abstracts (s.pop a x rest) l c := by
  refine h.of_same rfl ?_ rfl
  rw [pop_left, ← hx, Function.update_eq_self]

theorem print_left (l lock : LockId) (bytes : List Byte) (pc : Pc) :
    (Frame.print lock bytes pc).left l = if lock = l then pc.left bytes else none := rfl

theorem serPrintf_left {e : Surroundings} {text : List Byte} (hf : serPrintf e text = some f) :
    f.left l = none := by
  unfold serPrintf at hf
  obtain ⟨k, -, rfl⟩ := Option.map_eq_some_iff.mp hf
  exact ite_self none

theorem kprintf_left (e : Surroundings) (text : List Byte) : (kprintf e text).left l = none := ite_self none

/-- The parts of the state after an access. -/
theorem accessed_sent : (s.accessed a x rest lock bytes ready pc).sent l =
    s.sent l ++ if lock = l then (access lock bytes ready (s.locks lock) pc).2.1 else [] := by
  have hmap : ∀ out : List Byte, ((out.map (lock, ·)).filter (fun o => o.1 = l)).map Prod.snd =
      if lock = l then out else [] := by
    intro out
    split_ifs with hl <;> simp [List.filter_map, Function.comp_def, hl]
  have hout : (s.accessed a x rest lock bytes ready pc).out =
      s.out ++ (access lock bytes ready (s.locks lock) pc).2.1.map (lock, ·) := by
    unfold Sys.accessed
    obtain ⟨k, out, _ | pc'⟩ := access lock bytes ready (s.locks lock) pc <;> rfl
  rw [Sys.sent, hout, List.filter_append, List.map_append, hmap]
  rfl

theorem accessed_locks : (s.accessed a x rest lock bytes ready pc).locks =
    Function.update s.locks lock (access lock bytes ready (s.locks lock) pc).1 := by
  unfold Sys.accessed
  obtain ⟨k, out, _ | pc'⟩ := access lock bytes ready (s.locks lock) pc <;> rfl

theorem accessed_left : (s.accessed a x rest lock bytes ready pc).left l = Function.update (s.left l) x
    (if lock = l then (access lock bytes ready (s.locks lock) pc).2.2.bind (Pc.left bytes) else none) := by
  unfold Sys.accessed
  obtain ⟨k, out, _ | pc'⟩ := access lock bytes ready (s.locks lock) pc
  · exact pop_left.trans (by rw [Option.bind_none, ite_self]; rfl)
  · exact put_left

/-- Accesses under other locks. -/
theorem Abstracts.access_other (h : Abstracts s l c) (hx : s.frames x = some (.print lock bytes pc))
    (hl : lock ≠ l) : Abstracts (s.accessed a x rest lock bytes ready pc) l c := by
  have hleft : s.left l x = none := by rw [left_of_frame hx, print_left, if_neg hl]
  refine h.of_same ?_ ?_ ?_
  · rw [accessed_sent, if_neg hl, List.append_nil]
  · rw [accessed_left, if_neg hl, ← hleft, Function.update_eq_self]
  · rw [accessed_locks, Function.update_of_ne (Ne.symm hl)]

/-- The rule for accesses under the lock itself. -/
theorem Abstracts.access_own {c' : Channels.Channel ι Byte} {k : Lock} {out : List Byte} {pc' : Option Pc}
    (h : Abstracts s l c) (heq : access l bytes ready (s.locks l) pc = (k, out, pc'))
    (hsent : c'.sent = c.sent ++ out)
    (hwriter : ∀ y r, (if y = x then pc'.bind (Pc.left bytes) else s.left l y) = some r ↔
      c'.writer = some (y, r))
    (hword : k.dat = lockWord c'.writer.isSome) : Abstracts (s.accessed a x rest l bytes ready pc) l c' := by
  refine ⟨?_, fun y r => ?_, ?_⟩
  · rw [accessed_sent, if_pos rfl, heq, hsent, h.sent]
  · rw [accessed_left, if_pos rfl, heq, Function.update_apply]
    exact hwriter y r
  · rw [accessed_locks, Function.update_self, heq, hword]

/-- Accesses that neither take the lock nor write nor give it back. -/
theorem Abstracts.access_same {k : Lock} {pc' : Option Pc} (h : Abstracts s l c)
    (hx : s.frames x = some (.print l bytes pc)) (heq : access l bytes ready (s.locks l) pc = (k, [], pc'))
    (hleft : pc'.bind (Pc.left bytes) = pc.left bytes) (hdat : k.dat = (s.locks l).dat) :
    Abstracts (s.accessed a x rest l bytes ready pc) l c := by
  refine h.access_own heq (List.append_nil _).symm (fun y r => ?_) (hdat.trans h.word)
  rw [← h.writer, hleft]
  split_ifs with hy
  · rw [hy, left_of_frame hx, print_left, if_pos rfl]
  · rfl

/-- What the channel does at an access under its lock. -/
theorem access_simulates (a : A) (rest : List ι) (ready : Bool) (h : Abstracts s l c)
    (hx : s.frames x = some (.print l bytes pc)) (hpc : pc ≠ .spinning .deadlock) : ∃ c', (c' = c ∨ Channels.Step c c') ∧
      Abstracts (s.accessed a x rest l bytes ready pc) l c' ∧
      c'.taken = c.taken ++ if takes (s.locks l) pc then [bytes] else [] := by
  have hleft : s.left l x = pc.left bytes := by rw [left_of_frame hx, print_left, if_pos rfl]
  have hself := h.writer x
  rw [hleft] at hself
  obtain ⟨sent, taken, writer⟩ := c
  have hword : (s.locks l).dat = lockWord writer.isSome := h.word
  cases pc with
  | attempting => exact ⟨_, Or.inl rfl, h.access_same hx rfl rfl rfl, (List.append_nil _).symm⟩
  | acquired => exact ⟨_, Or.inl rfl, h.access_same hx rfl rfl rfl, (List.append_nil _).symm⟩
  | naming => exact ⟨_, Or.inl rfl, h.access_same hx rfl rfl rfl, (List.append_nil _).symm⟩
  | released => exact ⟨_, Or.inl rfl, h.access_same hx rfl rfl rfl, (List.append_nil _).symm⟩
  | spinning p =>
    rcases spinlockLock_lockWord writer.isSome p with ⟨p', hspin, hheld⟩ | ⟨rfl, hfree, hspin⟩
    · -- the lock is not taken
      rw [← hword] at hspin
      refine ⟨_, Or.inl rfl, h.access_same hx (by simp only [access, hspin]; rfl) rfl rfl, ?_⟩
      have htakes : takes (s.locks l) (.spinning p) = false := by
        rw [takes, hword, lockWord_bit, Bool.and_eq_false_iff, Bool.not_eq_false']
        by_cases hp : p = .bts
        · exact Or.inr (hheld hp)
        · exact Or.inl (by simpa using hp)
      rw [htakes]
      exact (List.append_nil _).symm
    · -- the lock was free
      obtain rfl : writer = none := Option.not_isSome_iff_eq_none.mp (by rw [hfree]; exact Bool.false_ne_true)
      rw [← hword] at hspin
      refine ⟨_, Or.inr (.take x bytes), h.access_own (by simp only [access, hspin]; rfl)
        (List.append_nil _).symm (fun y r => ?_) rfl, ?_⟩
      · split_ifs with hy
        · simp [Pc.left, hy]
        · simp [h.writer, Ne.symm hy]
      · have htakes : takes (s.locks l) (.spinning .bts) = true := by
          rw [takes, hword, lockWord_bit]
          simp
        rw [htakes]
        rfl
  | body left =>
    obtain rfl : writer = some (x, left) := (hself left).mp rfl
    have hother : ∀ y, y ≠ x → ∀ r, s.left l y ≠ some r := by
      intro y hy r hr
      have hwriter := (h.writer y r).mp hr
      simp only [Option.some.injEq, Prod.mk.injEq] at hwriter
      exact hy hwriter.1.symm
    cases left with
    | nil =>
      refine ⟨_, Or.inr .giveBack, h.access_own rfl (List.append_nil _).symm (fun y r => ?_) ?_,
        (List.append_nil _).symm⟩
      · split_ifs with hy
        · simp [Pc.left]
        · simp [hother y hy]
      · rw [hword]
        exact btr_lockWord true
    | cons b left =>
      cases ready with
      | false => exact ⟨_, Or.inl rfl, h.access_same hx rfl rfl rfl, (List.append_nil _).symm⟩
      | true =>
        refine ⟨_, Or.inr (.send b), h.access_own rfl rfl (fun y r => ?_) hword, (List.append_nil _).symm⟩
        split_ifs with hy
        · simp [Pc.left, hy]
        · simp [hother y hy, Ne.symm hy]

/-- Every step is one of the channel behind each lock, or none. -/
theorem Step.simulates (hstep : Step s taken s') (h : Abstracts s l c) :
    ∃ c', (c' = c ∨ Channels.Step c c') ∧ Abstracts s' l c' ∧
      c'.taken = c.taken ++ messages l taken.toList := by
  have hstill : ∀ {t : Sys A ι}, Abstracts t l c →
      ∃ c', (c' = c ∨ Channels.Step c c') ∧ Abstracts t l c' ∧ c'.taken = c.taken ++ messages l [] :=
    fun ht => ⟨c, Or.inl rfl, ht, (List.append_nil _).symm⟩
  cases hstep with
  | serPrintf a x e text hx hf => exact hstill (h.push hx (serPrintf_left hf))
  | kprintf a x e text hx => exact hstill (h.push hx (kprintf_left e text))
  | @access a x rest lock bytes pc ready hstack hx hpc =>
    by_cases hl : lock = l
    · subst hl
      obtain ⟨c', hc', habs, htaken⟩ := access_simulates a rest ready h hx hpc
      refine ⟨c', hc', habs, htaken.trans ?_⟩
      split_ifs <;> simp [messages]
    · refine ⟨c, Or.inl rfl, h.access_other hx hl, ?_⟩
      split_ifs <;> simp [messages, hl]
  | @deadlock a x y rest lock bytes eax hstack hx hy =>
    have hleft : s.left l x = none := by rw [left_of_frame hx, print_left]; exact ite_self none
    have hne : y ≠ x := by
      rintro rfl
      rw [hy.1] at hx
      cases hx
    have hput := h.put (f := .print lock bytes (.spinning (.spin eax))) hleft
      (by rw [print_left]; exact ite_self none)
    exact hstill (hput.push ⟨(Function.update_of_ne hne ..).trans hy.1, hy.2⟩ rfl)
  | @warn a x y rest lock calls e f hstack hx hcalls hy hf =>
    have hleft : s.left l x = none := by rw [left_of_frame hx]; rfl
    have hne : y ≠ x := by
      rintro rfl
      rw [hy.1] at hx
      cases hx
    have hput := h.put (f := .handler lock (calls + 1)) hleft rfl
    exact hstill (hput.push ⟨(Function.update_of_ne hne ..).trans hy.1, hy.2⟩ (serPrintf_left hf))
  | @mute a x rest lock calls e hstack hx hcalls hlock =>
    exact hstill (h.put (by rw [left_of_frame hx]; rfl) rfl)
  | @handled a x rest lock hstack hx => exact hstill (h.pop (by rw [left_of_frame hx]; rfl))

/-- Every run is a run of the channel behind each lock. -/
theorem Run.simulates {log : List (LockId × List Byte)} (hrun : Run (silent : Sys A ι) log s) (l : LockId) :
    ∃ c, Reaches Channels.Step Channels.Channel.fresh c ∧ Abstracts s l c ∧ c.taken = messages l log := by
  induction hrun with
  | nil => exact ⟨_, .refl, ⟨rfl, by simp [Sys.left, silent, Channels.Channel.fresh], rfl⟩, rfl⟩
  | tail _ hstep ih =>
    obtain ⟨c, hreach, habs, htaken⟩ := ih
    obtain ⟨c', hc', habs', htaken'⟩ := hstep.simulates habs
    refine ⟨c', ?_, habs', ?_⟩
    · rcases hc' with rfl | hc'
      · exact hreach
      · exact hreach.tail hc'
    · rw [htaken', htaken, messages_append]

/-- What has been written under the lock `l` when the calls in `log` have taken their locks, in
that order: whole messages while the lock is free, and a part of the last one while a call, and
no other, has it. The word of the lock tells the two apart, and has no other bits. -/
inductive Written (s : Sys A ι) (l : LockId) (log : List (LockId × List Byte)) : Prop
  | whole : (s.locks l).dat = 0 → (∀ x, s.left l x = none) → s.sent l = (messages l log).flatten →
      Written s l log
  | part {x : ι} {before : List (List Byte)} {written left : List Byte} : (s.locks l).dat = 1 →
      s.left l x = some left → (∀ y, y ≠ x → s.left l y = none) →
      messages l log = before ++ [written ++ left] → s.sent l = before.flatten ++ written → Written s l log

/-- In every run, calls under one lock do not mix what they write. -/
theorem messages_whole {log : List (LockId × List Byte)} (hrun : Run (silent : Sys A ι) log s) (l : LockId) :
    Written s l log := by
  obtain ⟨⟨sent, taken, writer⟩, hreach, habs, rfl⟩ := hrun.simulates l
  have hwhole := Channels.Reaches.whole hreach
  have hsent : sent = s.sent l := habs.sent
  cases writer with
  | none =>
    refine .whole habs.word (fun x => ?_) (hsent.symm.trans hwhole)
    exact Option.eq_none_iff_forall_ne_some.mpr fun r hr => by cases (habs.writer x r).mp hr
  | some w =>
    obtain ⟨x, left⟩ := w
    obtain ⟨before, written, htaken, hpart⟩ := hwhole
    refine .part habs.word ((habs.writer x left).mpr rfl) (fun y hy => ?_) htaken (hsent.symm.trans hpart)
    refine Option.eq_none_iff_forall_ne_some.mpr fun r hr => hy ?_
    have hwriter := (habs.writer y r).mp hr
    simp only [Option.some.injEq, Prod.mk.injEq] at hwriter
    exact hwriter.1.symm

end Simulation

/-! Two threads print at once: the first has the lock and has written one of its two bytes, and the
second spins. -/

def onSerial : Surroundings := ⟨0x3F8, true, true, false, false⟩

theorem unused_silent (x : ℕ) : (silent : Sys Bool ℕ).Unused x := ⟨rfl, by simp [silent]⟩

theorem messages_whole_two : ∃ s : Sys Bool ℕ, s.left .sprintf 0 = some [chr 'b'] ∧
    s.frames 1 = some (.print .sprintf [chr 'c'] (.spinning (.spin 0))) ∧
    Written s .sprintf [(.sprintf, [chr 'a', chr 'b'])] := by
  have hunused :
      ((silent : Sys Bool ℕ).push false 0 (.print .sprintf [chr 'a', chr 'b'] .attempting)).Unused 1 := by
    refine ⟨rfl, fun a => ?_⟩
    cases a <;> simp [Sys.push, Sys.put, silent]
  exact ⟨_, rfl, rfl, messages_whole
    (.tail (.tail (.tail (.tail (.tail (.tail (.tail (.tail (.tail .nil
      (.serPrintf false 0 onSerial [chr 'a', chr 'b'] (unused_silent 0) rfl))
      (.serPrintf true 1 onSerial [chr 'c'] hunused rfl))
      (.access true (a := false) rfl rfl (by decide)))
      (.access true (a := false) rfl rfl (by decide)))
      (.access true (a := true) rfl rfl (by decide)))
      (.access true (a := true) rfl rfl (by decide)))
      (.access true (a := false) rfl rfl (by decide)))
      (.access true (a := false) rfl rfl (by decide)))
      (.access true (a := false) rfl rfl (by decide))) .sprintf⟩

end JustKernel.Klibc
