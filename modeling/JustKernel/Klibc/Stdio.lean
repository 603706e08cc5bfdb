import JustKernel.Klibc.String
import Mathlib.Logic.Function.Iterate

/-! `_vprintf` of `klibc/stdio.c` as a machine. Its program points are the head of the `while`
loop, the label `back` in front of the `switch`, and in the `default` branch the test for `-`
and the loop over the digits of the width; one step goes from one of them to the next. The
format is memory from the pointer on, of which every byte read is recorded, arguments are
words in the order in which `va_arg` takes them, and what `putchar` is called with is the
output. The counter `num` is a signed `char`. -/

namespace JustKernel.Klibc

open Memory (Byte)

/-- What a call finds: memory from `format` on, the argument words, and the string at a
pointer that is not NULL. -/
structure Call where
  format : ℕ → Byte
  args : ℕ → BitVec 32
  str : BitVec 32 → List Byte

inductive Label
  | loop
  | back (c : Byte)
  | minus (c : Byte)
  | width (c : Byte)
  | done
  deriving DecidableEq

/-- `pos` is how far `format` has moved and `arg` how many arguments are taken. `reads` are the
offsets of the bytes of the format that have been read, the latest first. -/
structure State where
  label : Label
  pos : ℕ
  arg : ℕ
  num : Byte
  sym : Byte
  padRight : Bool
  out : List Byte
  reads : List ℕ

/-- `c == '0' || c == ' ' || c == '.'`. -/
def IsPad (c : Byte) : Prop := c = chr '0' ∨ c = chr ' ' ∨ c = chr '.'

/-- `c >= '1' && c <= '9'`. -/
def IsWidth (c : Byte) : Prop := chr '1' ≤ c ∧ c ≤ chr '9'

instance (c : Byte) : Decidable (IsPad c) := inferInstanceAs (Decidable (_ ∨ _))

instance (c : Byte) : Decidable (IsWidth c) := inferInstanceAs (Decidable (_ ∧ _))

section Model

variable (C : Call)

/-- `c = *format++`, and on to the label. -/
def fetch (label : Byte → Label) (s : State) : State :=
  { s with label := label (C.format s.pos), pos := s.pos + 1, reads := s.pos :: s.reads }

def putchar (c : Byte) (s : State) : State := { s with out := s.out ++ [c] }

/-- `num -= (char)strlen(p) > num ? num : (char)strlen(p)`. -/
def padding (num : Byte) (p : List Byte) : Byte :=
  let len := BitVec.ofNat 8 p.length
  num - if num.slt len then num else len

/-- `while (num--) putchar(sym)`, which counts a negative `num` down through `-128`. -/
def pads (num sym : Byte) : List Byte := List.replicate num.toNat sym

/-- The branch at the label `string`. What it leaves in `num` is not read before the loop sets
`num` to zero. -/
def putString (p : List Byte) (s : State) : State :=
  let num := if s.num ≠ 0 then padding s.num p else 0
  let left := if s.padRight then [] else pads num s.sym
  let right := if s.padRight then pads num s.sym else []
  { s with label := .loop, out := s.out ++ left ++ p ++ right }

/-- `va_arg` as a word. -/
def vaArg (s : State) : BitVec 32 × State := (C.args s.arg, { s with arg := s.arg + 1 })

/-- `va_arg` as a pointer to a string. -/
def vaString (s : State) : List Byte × State :=
  let (p, s) := vaArg C s
  (if p = 0 then ['(', 'n', 'u', 'l', 'l', ')'].map chr else C.str p, s)

/-- `va_arg` as a character, which is written. -/
def putArg (s : State) : State :=
  let (v, s) := vaArg C s
  { putchar (v.setWidth 8) s with label := .loop }

/-- The `switch`. -/
def stepBack (c : Byte) (s : State) : State :=
  if c = chr 'd' ∨ c = chr 'u' ∨ c = chr 'x' then
    let (v, s) := vaArg C s
    putString (if c = chr 'x' then htoa v else itoa v) s
  else if c = chr 's' then
    let (p, s) := vaString C s
    putString p s
  else if c = chr 'c' then putArg C s
  else
    let before := C.format (s.pos - 2)
    let s := { s with reads := (s.pos - 2) :: s.reads }
    if before = chr '%' then
      if IsPad c then fetch C .minus { s with sym := c }
      else { s with label := .minus c }
    else putArg C s

def stepMinus (c : Byte) (s : State) : State :=
  if c = chr '-' then fetch C .width { s with padRight := true, num := 0 }
  else { s with label := .width c, num := 0 }

/-- The loop over the digits; `c - '0'` and the product are cut to a `char`. -/
def stepWidth (c : Byte) (s : State) : State :=
  if IsWidth c then fetch C .width { s with num := s.num * 10 + (c - chr '0') }
  else { s with label := .back c }

/-- The head of the loop. -/
def stepLoop (s : State) : State :=
  let c := C.format s.pos
  let s := fetch C (fun _ => .done) s
  if c = 0 then s
  else
    let s := { s with padRight := false, sym := chr ' ', num := 0 }
    if c ≠ chr '%' then { putchar c s with label := .loop } else fetch C .back s

def step (s : State) : State :=
  match s.label with
  | .loop => stepLoop C s
  | .back c => stepBack C c s
  | .minus c => stepMinus C c s
  | .width c => stepWidth C c s
  | .done => s

/-- The call; without a `putchar` it returns at once. -/
def vprintf (putchar : Bool) : State where
  label := if putchar then .loop else .done
  pos := 0
  arg := 0
  num := 0
  sym := chr ' '
  padRight := false
  out := []
  reads := []

/-- The state after `n` steps. -/
def run (n : ℕ) (s : State) : State := (step C)^[n] s

end Model

/-- `d`, `u`, `x`, `s` and `c`. -/
def IsConversion (c : Byte) : Prop := c = chr 'd' ∨ c = chr 'u' ∨ c = chr 'x' ∨ c = chr 's' ∨ c = chr 'c'

instance (c : Byte) : Decidable (IsConversion c) := inferInstanceAs (Decidable (_ ∨ _))

/-- What stands between `%` and a conversion is neither. -/
theorem flag_ne {c : Byte} (hc : IsPad c ∨ c = chr '-' ∨ IsWidth c) : ¬IsConversion c ∧ c ≠ chr '%' := by
  revert c
  decide

/-! ### The head of the loop and the `switch`, by cases -/

section Loop

variable {C : Call} {s : State}

theorem stepLoop_nul (hc : C.format s.pos = 0) :
    stepLoop C s = { s with label := .done, pos := s.pos + 1, reads := s.pos :: s.reads } := if_pos hc

theorem stepLoop_literal (hnul : C.format s.pos ≠ 0) (hc : C.format s.pos ≠ chr '%') :
    stepLoop C s =
      { s with
        label := .loop, pos := s.pos + 1, num := 0, sym := chr ' ', padRight := false
        out := s.out ++ [C.format s.pos], reads := s.pos :: s.reads } :=
  (if_neg hnul).trans (if_pos hc)

theorem stepLoop_percent (hc : C.format s.pos = chr '%') :
    stepLoop C s =
      { s with
        label := .back (C.format (s.pos + 1)), pos := s.pos + 1 + 1, num := 0, sym := chr ' ', padRight := false
        reads := (s.pos + 1) :: s.pos :: s.reads } :=
  (if_neg (by rw [hc]; decide)).trans (if_neg (not_not_intro hc))

end Loop

section Switch

variable {C : Call} {c : Byte}

theorem stepBack_number (hc : c = chr 'd' ∨ c = chr 'u' ∨ c = chr 'x') (s : State) :
    stepBack C c s = putString (if c = chr 'x' then htoa (C.args s.arg) else itoa (C.args s.arg))
      { s with arg := s.arg + 1 } := if_pos hc

theorem stepBack_string (s : State) :
    stepBack C (chr 's') s = putString (vaString C s).1 { s with arg := s.arg + 1 } := rfl

theorem stepBack_char (s : State) : stepBack C (chr 'c') s = putArg C s := rfl

/-- No conversion, after any other character than `%`. -/
theorem stepBack_other (hc : ¬IsConversion c) {s : State} (hbefore : C.format (s.pos - 2) ≠ chr '%') :
    stepBack C c s = putArg C { s with reads := (s.pos - 2) :: s.reads } := by
  unfold IsConversion at hc
  rw [stepBack, if_neg (by tauto), if_neg (by tauto), if_neg (by tauto)]
  exact if_neg hbefore

/-- No conversion, right after `%`. -/
theorem stepBack_flags (hc : ¬IsConversion c) {s : State} (hbefore : C.format (s.pos - 2) = chr '%') :
    stepBack C c s = if IsPad c then fetch C .minus { s with reads := (s.pos - 2) :: s.reads, sym := c }
      else { s with reads := (s.pos - 2) :: s.reads, label := .minus c } := by
  unfold IsConversion at hc
  rw [stepBack, if_neg (by tauto), if_neg (by tauto), if_neg (by tauto)]
  exact if_pos hbefore

end Switch

/-- From offset `p` on the format is `text` and then a NUL. -/
def FormatAt (C : Call) : ℕ → List Byte → Prop
  | p, [] => C.format p = 0
  | p, c :: text => C.format p = c ∧ c ≠ 0 ∧ FormatAt C (p + 1) text

/-! ### Runs -/

section Runs

variable {C : Call} {s t u : State} {n m : ℕ}

/-- Some number of steps leads from `s` to `t`. -/
def Leads (C : Call) (s t : State) : Prop := ∃ n, run C n s = t

theorem run_add (n m : ℕ) (s : State) : run C (n + m) s = run C m (run C n s) := by
  rw [run, Nat.add_comm, Function.iterate_add_apply, run, run]

theorem Leads.refl (s : State) : Leads C s s := ⟨0, rfl⟩

theorem Leads.trans (h : Leads C s t) (h' : Leads C t u) : Leads C s u := by
  obtain ⟨n, rfl⟩ := h
  obtain ⟨m, rfl⟩ := h'
  exact ⟨n + m, run_add n m s⟩

theorem leads_step (h : step C s = t) : Leads C s t := ⟨1, h⟩

/-- First one step, then the rest. -/
theorem Leads.head (h : step C s = t) (h' : Leads C t u) : Leads C s u := (leads_step h).trans h'

/-- What a step preserves, a run preserves. -/
theorem run_invariant (P : State → Prop) (hstep : ∀ s, P s → P (step C s)) (hs : P s) (n : ℕ) : P (run C n s) := by
  induction n with
  | zero => exact hs
  | succ n ih =>
    rw [run_add]
    exact hstep _ ih

/-- A call that has returned stays so. -/
theorem run_done (h : s.label = .done) (n : ℕ) : run C n s = s := by
  have hstep : step C s = s := by rw [step, h]
  rw [run, Function.iterate_fixed hstep]

/-- The state in which a call returns is the only one. -/
theorem done_unique (hn : (run C n s).label = .done) (hm : (run C m s).label = .done) : run C n s = run C m s := by
  rcases Nat.le_total n m with hle | hle
  · obtain ⟨k, rfl⟩ := Nat.exists_eq_add_of_le hle
    rw [run_add, run_done hn]
  · obtain ⟨k, rfl⟩ := Nat.exists_eq_add_of_le hle
    rw [run_add, run_done hm]

end Runs

end JustKernel.Klibc
