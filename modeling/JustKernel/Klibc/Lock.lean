import JustKernel.Base.Memory

/-! The spinlock of `klibc/lock_asm.s` and the macros of `klibc/lock.h`. A step goes from one
access of memory that others can see to the next; the instructions between them work on the
registers only. `eax` counts the turns of the spinning loop, and a waiter that has counted
far enough calls `deadlock_handler`, which prints and returns, and goes on counting from
what the call left in `eax`. -/

namespace JustKernel.Klibc

/-- `lock_t` without its name. -/
structure Lock where
  dat : BitVec 32
  holder : String
  attemptingToGet : String
  deriving DecidableEq

/-- `INIT_LOCK`. -/
def initLock : Lock := ⟨0, "None", "None"⟩

/-- `lock bts dword [edi], 0`: the carry flag, and the word. -/
def bts (dat : BitVec 32) : Bool × BitVec 32 := (dat.getLsbD 0, dat ||| 1)

/-- `lock btr dword [edi], 0`. -/
def btr (dat : BitVec 32) : BitVec 32 := dat &&& ~~~1

/-- The turns after which a waiter gives a warning. -/
def deadlockTurns : BitVec 32 := 0x10000000

/-- Where `spinlock_lock` stands; at `deadlock` it is in the call of `deadlock_handler`. -/
inductive Spin
  | bts
  | spin (eax : BitVec 32)
  | deadlock
  deriving DecidableEq

/-- `spinlock_lock` up to the next access, with the word that it leaves. With the lock it is
nowhere any more. -/
def spinlockLock (dat : BitVec 32) : Spin → Option Spin × BitVec 32
  | .bts =>
    let (carry, dat) := bts dat
    (if carry then some (.spin 0) else none, dat)
  | .spin eax =>
    let eax := eax + 1
    (some (if eax = deadlockTurns then .deadlock else if dat.getLsbD 0 then .spin eax else .bts), dat)
  | .deadlock => (some .deadlock, dat)

/-- The word of a lock that is held, or not. -/
def lockWord (held : Bool) : BitVec 32 := if held then 1 else 0

@[simp] theorem lockWord_bit (held : Bool) : (lockWord held).getLsbD 0 = held := by
  cases held <;> rfl

@[simp] theorem bts_lockWord (held : Bool) : bts (lockWord held) = (held, lockWord true) := by
  cases held <;> rfl

@[simp] theorem btr_lockWord (held : Bool) : btr (lockWord held) = lockWord false := by
  cases held <;> rfl

/-- The lock is taken from a word that says that it is free. -/
theorem spinlockLock_lockWord (held : Bool) (p : Spin) :
    (∃ p', spinlockLock (lockWord held) p = (some p', lockWord held) ∧ (p = .bts → held = true)) ∨
      (p = .bts ∧ held = false ∧ spinlockLock (lockWord held) p = (none, lockWord true)) := by
  cases p with
  | bts => cases held <;> simp [spinlockLock]
  | spin eax => exact Or.inl ⟨_, rfl, by simp⟩
  | deadlock => exact Or.inl ⟨_, rfl, by simp⟩

end JustKernel.Klibc
