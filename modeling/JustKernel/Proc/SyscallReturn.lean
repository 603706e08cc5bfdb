import JustKernel.Int.Isr
import JustKernel.Proc.Syscalls

/-! A system call from its caller's side. The stub of `proc/syscalls_asm.s` takes the words of its
caller's stack into registers and raises the interrupt; the registers lie in the frame then, the
handler finds its arguments there and puts the result over the saved `eax`, and the way out of the
frame and the `ret` of the stub bring it back. The pieces are those of the interrupt's way in and
out and of the dispatch; between them there is nothing but the frame in memory. -/

namespace JustKernel.Syscalls

open Memory Isr
open V86 (CoreRegs)

/-- `core_regs_t` at an address. -/
def readRegs (m : Mem) (a : ℕ) : CoreRegs where
  ds := BitVec.ofNat 32 (read32 m (a + 4))
  edi := BitVec.ofNat 32 (read32 m (a + 8))
  esi := BitVec.ofNat 32 (read32 m (a + 12))
  ebp := BitVec.ofNat 32 (read32 m (a + 16))
  esp := BitVec.ofNat 32 (read32 m (a + 20))
  ebx := BitVec.ofNat 32 (read32 m (a + 24))
  edx := BitVec.ofNat 32 (read32 m (a + 28))
  ecx := BitVec.ofNat 32 (read32 m (a + 32))
  eax := BitVec.ofNat 32 (read32 m (a + 36))
  eip := BitVec.ofNat 32 (read32 m (a + 48))
  cs := BitVec.ofNat 32 (read32 m (a + 52))
  eflags := BitVec.ofNat 32 (read32 m (a + 56))
  userEsp := BitVec.ofNat 32 (read32 m (a + 60))
  userSs := BitVec.ofNat 32 (read32 m (a + 64))
  v86Es := BitVec.ofNat 32 (read32 m (a + 68))
  v86Ds := BitVec.ofNat 32 (read32 m (a + 72))
  v86Fs := BitVec.ofNat 32 (read32 m (a + 76))
  v86Gs := BitVec.ofNat 32 (read32 m (a + 80))

/-- `syscalls_handler` on the frame at `irqRegs`: the result is written over `eax` there. -/
def syscallsHandlerAt (T : SyscallTable) (invoke : BitVec 32 → List (BitVec 32) → Mem → Option (BitVec 32 × Mem))
    (irqRegs : ℕ) (m : Mem) : Option Mem :=
  let o := syscallsHandler T invoke m (readRegs m irqRegs)
  match o.called with
  | none => some m
  | some _ => o.after.map fun r => write32 r.1 (irqRegs + 36) r.2.eax.toNat

/-- The registers that the stubs load, as the record that `syscallStub` changes. -/
def argRegs (c : Cpu) : CoreRegs :=
  ⟨wide c.ds, c.edi, c.esi, c.ebp, c.esp, c.ebx, c.edx, c.ecx, c.eax, c.eip, wide c.cs, c.eflags, c.esp, wide c.ss,
    wide c.es, wide c.ds, wide c.fs, wide c.gs⟩

/-- The stub of a call with `n` arguments up to its `int 0x80`, which is followed by the `ret`. -/
def enterStub (n : ℕ) (ret : BitVec 32) (s : Machine) : Machine :=
  let r := syscallStub n s.mem s.cpu.esp (argRegs s.cpu)
  { s with cpu := { s.cpu with
      eax := r.eax, ebx := r.ebx, ecx := r.ecx, edx := r.edx, esi := r.esi, edi := r.edi, eip := ret } }

/-- The `ret` of the stub. -/
def nearRet (s : Machine) : Machine := { s with cpu := { s.cpu.drop 1 with eip := s.word 0 } }

section Frame

variable {m : Mem} {a : ℕ} {c : Cpu}

/-- Another value for `eax` in a frame. -/
theorem framed_setEax (h : Framed m a c) (v : BitVec 32) :
    Framed (write32 m (a + 36) v.toNat) a { c with eax := v } := by
  obtain ⟨⟨esp, num, err, hlaid⟩, hroom, hinside⟩ := h
  have hset := hlaid.set (n := 9) (by simp [frameWords]) v
  exact ⟨⟨esp, num, err, hset⟩, hroom, hinside⟩

/-- The handler reads the registers that were saved. -/
theorem framed_readRegs (h : Framed m a c) : (readRegs m a).eax = c.eax ∧
    [(readRegs m a).ebx, (readRegs m a).ecx, (readRegs m a).edx, (readRegs m a).esi, (readRegs m a).edi] =
      [c.ebx, c.ecx, c.edx, c.esi, c.edi] := by
  obtain ⟨⟨esp, num, err, hlaid⟩, hroom, hinside⟩ := h
  have hword : ∀ n w, (frameWords c esp num err)[n]? = some w → BitVec.ofNat 32 (read32 m (a + 4 * n)) = w := by
    intro n w hn
    rw [hlaid.get hn, BitVec.ofNat_toNat, BitVec.setWidth_eq]
  have hedi := hword 2 c.edi rfl
  have hesi := hword 3 c.esi rfl
  have hebx := hword 6 c.ebx rfl
  have hedx := hword 7 c.edx rfl
  have hecx := hword 8 c.ecx rfl
  have heax := hword 9 c.eax rfl
  simp only [readRegs]
  simp_all

end Frame

/-- The handler's outcome, when the number can be registered. -/
theorem syscallsHandlerAt_spec {T : SyscallTable}
    {invoke : BitVec 32 → List (BitVec 32) → Mem → Option (BitVec 32 × Mem)}
    {sets : List (BitVec 32 × BitVec 32)} {m m' : Mem} {a : ℕ} (h : Registers T sets m)
    (hnum : (readRegs m a).eax.toNat < 256) (hm' : syscallsHandlerAt T invoke a m = some m') :
    match registered sets (readRegs m a).eax with
    | none => m' = m
    | some f => ∃ r after,
        invoke f [(readRegs m a).ebx, (readRegs m a).ecx, (readRegs m a).edx, (readRegs m a).esi, (readRegs m a).edi] m =
          some (r, after) ∧ m' = write32 after (a + 36) r.toNat := by
  have hfetch := h.fetch_spec hnum
  simp only [syscallsHandlerAt, syscallsHandler, hfetch] at hm'
  cases hreg : registered sets (readRegs m a).eax with
  | none =>
    rw [hreg, Option.getD_none, if_pos rfl] at hm'
    exact (Option.some.inj hm').symm
  | some f =>
    rw [hreg, Option.getD_some, if_neg (registered_ne_zero hreg)] at hm'
    obtain ⟨r, hr, rfl⟩ := Option.map_eq_some_iff.mp hm'
    obtain ⟨⟨result, after⟩, hinvoke, rfl⟩ := Option.map_eq_some_iff.mp hr
    exact ⟨result, after, hinvoke, rfl⟩

section Return

variable {tss : Tss} {handler : BitVec 32} {T : SyscallTable}
  {invoke : BitVec 32 → List (BitVec 32) → Mem → Option (BitVec 32 × Mem)}
  {sets : List (BitVec 32 × BitVec 32)} {n : ℕ} {ret : BitVec 32} {s u : Machine} {m₁ m₂ : Mem}

/-- The processor and memory at the call of `isr_handler`. -/
def raised (tss : Tss) (handler : BitVec 32) (n : ℕ) (ret : BitVec 32) (s : Machine) : Machine :=
  isrEntry tss handler none 0x80 (enterStub n ret s)

/-- The bytes of the frame. -/
def InFrame (tss : Tss) (handler : BitVec 32) (n : ℕ) (ret : BitVec 32) (s : Machine) (x : ℕ) : Prop :=
  (raised tss handler n ret s).cpu.esp.toNat ≤ x ∧ x < (kernelSp tss s.cpu).toNat

/-- The call between its two ends: `m₁` is the memory when `syscalls_handler` is called, `m₂` when
it returns and `u` the machine when `isr_handler` does. Nothing but the handler writes the frame. -/
structure Serviced (tss : Tss) (handler : BitVec 32) (T : SyscallTable)
    (invoke : BitVec 32 → List (BitVec 32) → Mem → Option (BitVec 32 × Mem))
    (sets : List (BitVec 32 × BitVec 32)) (n : ℕ) (ret : BitVec 32) (s : Machine) (m₁ m₂ : Mem) (u : Machine) :
    Prop where
  mode : s.cpu.v86Mode = false
  before : ∀ x, InFrame tss handler n ret s x → m₁ x = (raised tss handler n ret s).mem x
  table : Registers T sets m₁
  handled : syscallsHandlerAt T invoke (raised tss handler n ret s).cpu.esp.toNat m₁ = some m₂
  kept : ∀ f args r m', invoke f args m₁ = some (r, m') → ∀ x, InFrame tss handler n ret s x → m' x = m₁ x
  after : ∀ x, InFrame tss handler n ret s x → u.mem x = m₂ x
  kernel : u.cpu.InKernel

/-- What the caller of the stub has when the call returns `r`. -/
def returned (n : ℕ) (s : Machine) (r : BitVec 32) (m : Mem) : Cpu :=
  { (enterStub n 0 s).cpu with eax := r, eip := wordAt m s.cpu.esp 0, esp := s.cpu.esp + 4 }

/-- A system call of any of the six stubs, from the first instruction of the stub to the one behind
the call of it: what is registered for the number is called with the caller's words, its result is
in `eax`, and of the other registers only those differ that the stub has loaded arguments into. -/
theorem syscall_returns (hn : n ≤ 5) (hroom : 84 ≤ (kernelSp tss s.cpu).toNat)
    (hplain : s.cpu.Plain) (hnum : (stackWord s.mem s.cpu.esp 4).toNat < 256)
    (h : Serviced tss handler T invoke sets n ret s m₁ m₂ u) :
    ∃ r, nearRet (isrExit (raised tss handler n ret s).cpu.esp u) = ⟨returned n s r u.mem, u.mem⟩ ∧
      match registered sets (stackWord s.mem s.cpu.esp 4) with
      | none => r = stackWord s.mem s.cpu.esp 4 ∧ m₂ = m₁
      | some f => ∃ args m', args.length = 5 ∧
          args.take n = (List.range n).map (fun i => stackWord s.mem s.cpu.esp (8 + 4 * i)) ∧
          invoke f args m₁ = some (r, m') := by
  have herr : (none : Option (BitVec 32)).isSome = decide (0x80 ∈ errorIsrs) := by decide
  obtain ⟨hframed, htop, -⟩ := @isrEntry_framed tss handler none 0x80 (enterStub n ret s) herr hroom
  change Framed (raised tss handler n ret s).mem (raised tss handler n ret s).cpu.esp.toNat _ at hframed
  change (raised tss handler n ret s).cpu.esp.toNat + _ = (kernelSp tss s.cpu).toNat at htop
  have hin : ∀ x, (raised tss handler n ret s).cpu.esp.toNat ≤ x →
      x < (raised tss handler n ret s).cpu.esp.toNat + frameSize (enterStub n ret s).cpu →
      InFrame tss handler n ret s x := fun x h1 h2 => ⟨h1, htop ▸ h2⟩
  generalize hesp : (raised tss handler n ret s).cpu.esp = sp at *
  have hframed₁ := hframed.congr fun x h1 h2 => h.before x (hin x h1 h2)
  obtain ⟨heax, hargs⟩ := framed_readRegs hframed₁
  have hnum₁ : (readRegs m₁ sp.toNat).eax = stackWord s.mem s.cpu.esp 4 := heax
  -- a frame with `r` for `eax` leads to `r` in `eax`
  have hexit : ∀ r, Framed u.mem sp.toNat { (enterStub n ret s).cpu with eax := r } →
      nearRet (isrExit sp u) = ⟨returned n s r u.mem, u.mem⟩ := by
    intro r hr
    have hplain' : Cpu.Plain { (enterStub n ret s).cpu with eax := r } := hplain
    rw [isrExit_framed hr, resumed_of_plain hplain' h.kernel]
    rfl
  have hspec := syscallsHandlerAt_spec h.table (hnum₁ ▸ hnum) (hesp ▸ h.handled)
  rw [hnum₁] at hspec
  cases hreg : registered sets (stackWord s.mem s.cpu.esp 4) with
  | none =>
    rw [hreg] at hspec
    obtain rfl : m₂ = m₁ := hspec
    refine ⟨_, hexit _ ?_, rfl, rfl⟩
    exact hframed₁.congr fun x h1 h2 => h.after x (hin x h1 h2)
  | some f =>
    rw [hreg] at hspec
    obtain ⟨r, m', hinvoke, rfl⟩ := hspec
    have hframed₂ := hframed₁.congr fun x h1 h2 => h.kept _ _ _ _ hinvoke x (hin x h1 h2)
    refine ⟨r, hexit r ?_, _, m', rfl, ?_, hinvoke⟩
    · exact (framed_setEax hframed₂ r).congr fun x h1 h2 => h.after x (hin x h1 h2)
    · rw [hargs]
      exact (marshals_syscallStub hn s.mem s.cpu.esp (argRegs s.cpu)).2

/-- Memory with the function of number 7 registered, the stack of a caller in ring 3 and the words
`7` and `41` on it behind the return address. -/
def callerMem : Mem :=
  write32 (write32 (write32 (syscallsSet smallTable 7 0x101000 fun _ => 0) 0x3000 0x8048100) 0x3004 7) 0x3008 41

/-- The caller in front of the stub. -/
def caller : Machine where
  cpu := {
    eax := 1, ebx := 2, ecx := 3, edx := 4, esi := 5, edi := 6, ebp := 8, esp := 0x3000, eip := 0x8048200
    eflags := 0x202, cr3 := 0x5000, cs := 0x1B, ss := 0x23, ds := 0x23, es := 0x23, fs := 0, gs := 0 }
  mem := callerMem

/-- A function that adds one to its first argument. -/
def addOne (_ : BitVec 32) (args : List (BitVec 32)) (m : Mem) : Option (BitVec 32 × Mem) :=
  some (args.headD 0 + 1, m)

theorem callerMem_table {x : ℕ} (hx : 0x200000 ≤ x) :
    callerMem x = syscallsSet smallTable 7 0x101000 (fun _ => 0) x := by
  rw [callerMem]
  simp only [write32]
  rw [store_apply_of_not_mem _ _ _ _ _ (by omega), store_apply_of_not_mem _ _ _ _ _ (by omega),
    store_apply_of_not_mem _ _ _ _ _ (by omega)]

theorem syscall_returns_addOne : ∃ u : Machine,
    (nearRet (isrExit (raised ⟨0x10, 0x2000⟩ 0x100000 1 0x8048300 caller).cpu.esp u)).cpu.eax = 42 := by
  obtain ⟨-, htop, hother⟩ :=
    @isrEntry_framed ⟨0x10, 0x2000⟩ 0x100000 none 0x80 (enterStub 1 0x8048300 caller) (by decide) (by decide)
  generalize hm₁ : (raised ⟨0x10, 0x2000⟩ 0x100000 1 0x8048300 caller).mem = m₁
  generalize ha : (raised ⟨0x10, 0x2000⟩ 0x100000 1 0x8048300 caller).cpu.esp.toNat = a
  have htable : Registers smallTable [(7, 0x101000)] m₁ := by
    apply Registers.other (Registers.set 7 0x101000 (Registers.boot fun _ _ _ => rfl))
    intro x hlo hhi
    rw [← callerMem_table hlo, ← hm₁]
    exact hother x (Or.inr (Nat.le_trans (by decide) hlo))
  obtain ⟨m₂, hm₂⟩ : ∃ m₂, syscallsHandlerAt smallTable addOne a m₁ = some m₂ := by
    unfold syscallsHandlerAt syscallsHandler
    dsimp only
    split_ifs
    · exact ⟨_, rfl⟩
    · exact ⟨_, rfl⟩
  have hserviced : Serviced ⟨0x10, 0x2000⟩ 0x100000 smallTable addOne [(7, 0x101000)] 1 0x8048300 caller m₁ m₂
      ⟨{ caller.cpu with fs := 0x10, gs := 0x10, ss := 0x10 }, m₂⟩ := by
    refine ⟨rfl, fun _ _ => by rw [hm₁], htable, by rw [ha, hm₂], ?_, fun _ _ => rfl, ⟨rfl, rfl, rfl⟩⟩
    intro f args r m' hinvoke x hx
    obtain ⟨-, rfl⟩ : args.headD 0 + 1 = r ∧ m₁ = m' := by simpa [addOne] using hinvoke
    rfl
  have hword : ∀ off w, read32 callerMem (0x3000 + off) = w → off < 16 →
      stackWord caller.mem caller.cpu.esp off = BitVec.ofNat 32 w := by
    rintro off w rfl hoff
    rw [stackWord]
    congr 2
    exact Nat.mod_eq_of_lt (show 0x3000 + off < 2 ^ 32 by omega)
  have hnum : stackWord caller.mem caller.cpu.esp 4 = 7 := by
    apply hword 4 7 _ (by omega)
    rw [callerMem, read32_write32_of_disjoint _ (by omega), read32_write32 _ _ _ (by omega)]
  have harg : stackWord caller.mem caller.cpu.esp 8 = 41 := by
    apply hword 8 41 _ (by omega)
    rw [callerMem, read32_write32 _ _ _ (by omega)]
  obtain ⟨r, hret, hcall⟩ := syscall_returns (n := 1) (by omega) (by decide) (Or.inr ⟨rfl, by decide⟩)
    (hnum ▸ by decide) hserviced
  have hreg : registered [(7, 0x101000)] (7 : BitVec 32) = some 0x101000 := by decide
  rw [hnum, hreg] at hcall
  obtain ⟨args, m', -, hargs, hinvoke⟩ := hcall
  obtain ⟨rfl, -⟩ : args.headD 0 + 1 = r ∧ m₁ = m' := by simpa [addOne] using hinvoke
  have hhead : args.headD 0 = 41 := by
    cases args with
    | nil => simp at hargs
    | cons arg args => simpa [harg] using hargs
  rw [hhead] at hret
  exact ⟨_, congrArg (fun s : Machine => s.cpu.eax) hret⟩

end Return

end JustKernel.Syscalls
