import JustKernel.Proc.V86Calls

/-! The call queue serves every call once and in order. A run of the worker is
cut into blocks of twelve steps, one block for each call: the interrupt is raised
with the registers of the call, the guest comes back from it, and these
registers are stored in the record before it is marked complete. Enqueues may
fall anywhere in between, because the worker only looks at the head of the list
and clients only touch its tail. -/

namespace JustKernel.V86

open Memory

/-! ### The guest code, instruction by instruction -/

/-- The guest code is in place, up to the patched interrupt number. -/
def CodeLoaded (m : Mem) : Prop :=
  m 0x7C00 = 0x61 ∧ m 0x7C01 = 0xcd ∧ m 0x7C03 = 0xeb ∧ m 0x7C04 = 0x00 ∧ m 0x7C05 = 0x60 ∧
    m 0x7C06 = 0xcd ∧ m 0x7C07 = 0x03

theorem CodeLoaded.of_eq {m m' : Mem} (h : CodeLoaded m)
    (heq : ∀ a, 0x7C00 ≤ a → a < 0x7C0A → a ≠ 0x7C02 → m' a = m a) : CodeLoaded m' := by
  unfold CodeLoaded
  rw [heq 0x7C00, heq 0x7C01, heq 0x7C03, heq 0x7C04, heq 0x7C05, heq 0x7C06, heq 0x7C07]
  · exact h
  all_goals omega

/-- The guest is at `ip` of segment zero, with its stack pointer at `sp`. -/
structure GuestAt (ip sp : BitVec 32) (m : Machine) : Prop where
  cs : m.regs.cs = 0
  eip : m.regs.eip = ip
  ss : m.regs.userSs = 0
  sp : m.regs.userEsp = sp

theorem fpToLinear_zero (off : BitVec 32) : fpToLinear 0 off = (off.setWidth 16).toNat := by
  simp [fpToLinear]

theorem GuestAt.ipByte {ip sp : BitVec 32} {m : Machine} (h : GuestAt ip sp m) (n : ℕ) :
    ipByte n m = m.mem ((incIp^[n] ip).setWidth 16).toNat := by
  rw [V86.ipByte, h.cs, h.eip, fpToLinear_zero]

theorem GuestAt.fetch {ip sp : BitVec 32} {m : Machine} (h : GuestAt ip sp m) :
    GuestAt (incIp ip) sp (v86GetIpByte m).2 :=
  ⟨h.cs, congrArg incIp h.eip, h.ss, h.sp⟩

/-- `popa` of a stored context loads it, the stack pointer excepted. -/
theorem popa_registers {ip : BitVec 32} {m : Machine} (h : GuestAt ip 0x9FF0 m) :
    registers (popa m).regs = { loadCtx m.mem 0x9FF0 with sp := 0xA000 } := by
  have hword : ∀ k, k < 8 → stackWord m k = readWord16 m.mem (0x9FF0 + 2 * k) := by
    intro k hk
    have haddr : ((0x9FF0#32 + BitVec.ofNat 32 (2 * k)).setWidth 16).toNat = 0x9FF0 + 2 * k := by
      bv_omega
    rw [stackWord, h.ss, h.sp, fpToLinear_zero]
    exact congrArg _ haddr
  simp only [registers, popa, setWidth_withLow, h.sp, hword 0 (by omega), hword 1 (by omega),
    hword 2 (by omega), hword 4 (by omega), hword 5 (by omega), hword 6 (by omega),
    hword 7 (by omega), loadCtx]
  rfl

theorem pusha_mem {ip : BitVec 32} {m : Machine} (h : GuestAt ip 0xA000 m) :
    loadCtx (pusha m).mem 0x9FF0 = registers m.regs ∧
      ∀ x, x < 0x9FF0 → (pusha m).mem x = m.mem x := by
  have hput : ∀ k w m', k ≤ 8 → putBelow m k w m' = writeWord16 m' (0xA000 - 2 * k) w := by
    intro k w m' hk
    have haddr : ((0xA000#32 - BitVec.ofNat 32 (2 * k)).setWidth 16).toNat = 0xA000 - 2 * k := by
      bv_omega
    rw [putBelow, h.ss, h.sp, fpToLinear_zero, ← haddr]
    rfl
  have hmem : (pusha m).mem = putBelow m 8 (registers m.regs).di (putBelow m 7 (registers m.regs).si
      (putBelow m 6 (registers m.regs).bp (putBelow m 5 (registers m.regs).sp
      (putBelow m 4 (registers m.regs).bx (putBelow m 3 (registers m.regs).dx
      (putBelow m 2 (registers m.regs).cx (putBelow m 1 (registers m.regs).ax m.mem))))))) := rfl
  rw [hmem]
  simp only [hput 1 _ _ (by omega), hput 2 _ _ (by omega), hput 3 _ _ (by omega),
    hput 4 _ _ (by omega), hput 5 _ _ (by omega), hput 6 _ _ (by omega), hput 7 _ _ (by omega),
    hput 8 _ _ (by omega)]
  constructor
  · ext1 <;>
      simp (disch := omega) only [loadCtx, readWord16_writeWord16,
        readWord16_writeWord16_of_disjoint]
  · intro x hx
    simp (disch := omega) only [writeWord16_apply]

/-- A machine that runs a handler raised by the guest code: the stack pointer is at the
interrupt frame, the frame holds the return address `0000:7C03`, and the guest code is
untouched. -/
structure HandlerFrame (m : Machine) : Prop where
  ss : m.regs.userSs = 0
  sp : m.regs.userEsp = 0x9FF8
  eip : read32 m.mem 0x9FF8 = 0x7C03
  cs : read16 m.mem 0x9FFC = 0
  code : CodeLoaded m.mem

/-- Each handler returns, by an `iret` with a balanced stack. -/
structure BiosReturns (bios : Byte → Machine → Machine → Prop) : Prop where
  returns : ∀ n m, HandlerFrame m → ∃ m', bios n m m'
  balanced : ∀ n m m', HandlerFrame m → bios n m m' → HandlerFrame m' ∧ ipByte 0 m' = 0xcf

theorem nativeStep_popa {m : Machine} (h : GuestAt 0x7C00 0x9FF0 m) (hcode : CodeLoaded m.mem) :
    nativeStep m = some (popa (v86GetIpByte m).2) := by
  have hb : (v86GetIpByte m).1 = 0x61 := (h.ipByte 0).trans hcode.1
  simp only [nativeStep, hb]
  rfl

theorem nativeStep_jmp {m : Machine} (h : GuestAt 0x7C03 0xA000 m) (hcode : CodeLoaded m.mem) :
    nativeStep m = some (jmpShort (v86GetIpByte m).2) := by
  have hb : (v86GetIpByte m).1 = 0xeb := (h.ipByte 0).trans hcode.2.2.1
  simp only [nativeStep, hb]
  rfl

theorem nativeStep_pusha {m : Machine} (h : GuestAt 0x7C05 0xA000 m) (hcode : CodeLoaded m.mem) :
    nativeStep m = some (pusha (v86GetIpByte m).2) := by
  have hb : (v86GetIpByte m).1 = 0x60 := (h.ipByte 0).trans hcode.2.2.2.2.1
  simp only [nativeStep, hb]
  rfl

theorem nativeStep_int {m : Machine} (h : ipByte 0 m = 0xcd) : nativeStep m = none := by
  have hb : (v86GetIpByte m).1 = 0xcd := h
  simp only [nativeStep, hb]
  rfl

theorem popa_guestAt {m : Machine} (h : GuestAt 0x7C00 0x9FF0 m) :
    GuestAt 0x7C01 0xA000 (popa (v86GetIpByte m).2) := by
  obtain ⟨hcs, heip, hss, hsp⟩ := h.fetch
  refine ⟨hcs, heip.trans (by decide), hss, ?_⟩
  show withLow (v86GetIpByte m).2.regs.userEsp _ = _
  rw [hsp]
  decide

theorem jmpShort_guestAt {m : Machine} (h : GuestAt 0x7C03 0xA000 m) (hcode : CodeLoaded m.mem) :
    GuestAt 0x7C05 0xA000 (jmpShort (v86GetIpByte m).2) := by
  have hrel : (v86GetIpByte (v86GetIpByte m).2).1 = 0x00 := (h.ipByte 1).trans hcode.2.2.2.1
  obtain ⟨hcs, heip, hss, hsp⟩ := h.fetch.fetch
  refine ⟨hcs, ?_, hss, hsp⟩
  simp only [jmpShort, hrel, heip]
  decide

theorem pusha_guestAt {m : Machine} (h : GuestAt 0x7C05 0xA000 m) :
    GuestAt 0x7C06 0x9FF0 (pusha (v86GetIpByte m).2) := by
  obtain ⟨hcs, heip, hss, hsp⟩ := h.fetch
  refine ⟨hcs, heip.trans (by decide), hss, ?_⟩
  show withLow (v86GetIpByte m).2.regs.userEsp _ = _
  rw [hsp]
  decide

theorem v86Monitor_int (sym : Symbols) {m : Machine} (h : ipByte 0 m = 0xcd) :
    v86Monitor sym m = if ipByte 1 m = 0x03 then .left (leave sym (skipIp 2 m))
      else .resumed (interrupt (ipByte 1 m) (skipIp 2 m)) := by
  have hb : (v86GetIpByte m).1 = 0xcd := h
  rw [v86Monitor_of_not_sizeByte, hb]
  · rfl
  · rw [hb]
    intro hs
    rcases hs with hs | hs <;> cases hs

theorem v86Monitor_iret (sym : Symbols) {m : Machine} (h : ipByte 0 m = 0xcf) :
    v86Monitor sym m = .resumed (iret (v86GetIpByte m).2) := by
  have hb : (v86GetIpByte m).1 = 0xcf := h
  rw [v86Monitor_of_not_sizeByte, hb]
  · rfl
  · rw [hb]
    intro hs
    rcases hs with hs | hs <;> cases hs

/-- The frame of an interrupt raised at `0000:7C01`. -/
theorem interrupt_frame (n : Byte) {m : Machine} (h : GuestAt 0x7C03 0xA000 m)
    (hcode : CodeLoaded m.mem) : HandlerFrame (interrupt n m) := by
  have hmem : (interrupt n m).mem = write32 (write16 (write16 m.mem 0x9FFE (flagsImage m).toNat)
      0x9FFC 0) 0x9FF8 0x7C03 := by
    simp only [interrupt, v86Push, h.ss, h.sp, h.cs, h.eip, if_true, Bool.false_eq_true, if_false]
    rfl
  refine ⟨?_, ?_, ?_, ?_, ?_⟩
  · simp only [interrupt, v86Push, h.ss, if_true, Bool.false_eq_true, if_false]
  · simp only [interrupt, v86Push, h.sp, if_true, Bool.false_eq_true, if_false]
    decide
  · rw [hmem, read32_write32 _ _ _ (by omega)]
  · rw [hmem, read16, write32, load_store_of_disjoint _ (by omega), write16, load_store_same,
      Nat.zero_mod]
  · apply hcode.of_eq
    intro a ha hlt _
    rw [hmem, write32, store_apply_of_not_mem _ _ _ _ _ (by omega), write16,
      store_apply_of_not_mem _ _ _ _ _ (by omega), write16,
      store_apply_of_not_mem _ _ _ _ _ (by omega)]

/-- The return from it. -/
theorem iret_guestAt {m : Machine} (h : HandlerFrame m) : GuestAt 0x7C03 0xA000 (iret m) := by
  obtain ⟨hss, hsp, heip, hcs, -⟩ := h
  have hlow : fpToLinear 0 (((0x9FF8 : BitVec 32).setWidth 16).setWidth 32) = 0x9FF8 := by decide
  have hhigh : fpToLinear 0 (((((0x9FF8 : BitVec 32).setWidth 16 + 4).setWidth 32).setWidth
      16).setWidth 32) = 0x9FFC := by decide
  refine ⟨?_, ?_, hss, ?_⟩
  · simp only [iret, v86Pop, hss, hsp, if_true, Bool.false_eq_true, if_false]
    rw [hhigh, hcs]
    rfl
  · simp only [iret, v86Pop, hss, hsp, if_true, Bool.false_eq_true, if_false]
    rw [hlow, heip]
    rfl
  · simp only [iret, v86Pop, hsp, if_true, Bool.false_eq_true, if_false]
    decide

/-! ### Stages of a call -/

variable {K : Type} [DecidableEq K]

/-- The registers with which the guest raises the interrupt of a call. -/
def Call.entry (call : Call) : Ctx := { call.ctx with sp := v86Stack }

/-- Where the worker is with a call that is still at the head of the list, which labels it
has shown for it, and how many steps it has made. -/
inductive GuestStage (call : Call) : Phase K → Machine → List (Label K) → ℕ → Prop
  | entered (m : Machine) (hat : GuestAt 0x7C00 0x9FF0 m) (hint : m.mem 0x7C02 = call.intNum)
      (hctx : loadCtx m.mem 0x9FF0 = call.entry) : GuestStage call .guest m [] 2
  | loaded (m : Machine) (hat : GuestAt 0x7C01 0xA000 m) (hint : m.mem 0x7C02 = call.intNum)
      (hregs : registers m.regs = call.entry) : GuestStage call .guest m [] 3
  | raised (m : Machine) (hframe : HandlerFrame m) :
      GuestStage call (.bios call.intNum) m [.interrupt call.intNum call.entry] 4
  | handled (m : Machine) (hframe : HandlerFrame m) (hiret : ipByte 0 m = 0xcf) :
      GuestStage call .returning m [.interrupt call.intNum call.entry] 5
  | returned (m : Machine) (hat : GuestAt 0x7C03 0xA000 m) :
      GuestStage call .guest m
        [.interrupt call.intNum call.entry, .returned (registers m.regs)] 6
  | jumped (m : Machine) (hat : GuestAt 0x7C05 0xA000 m) :
      GuestStage call .guest m
        [.interrupt call.intNum call.entry, .returned (registers m.regs)] 7
  | pushed (m : Machine) (hat : GuestAt 0x7C06 0x9FF0 m) :
      GuestStage call .guest m
        [.interrupt call.intNum call.entry, .returned (loadCtx m.mem 0x9FF0)] 8
  | exiting (m : Machine) (hstack : m.regs.ebx = 0x9FF0) :
      GuestStage call .exiting m
        [.interrupt call.intNum call.entry, .returned (loadCtx m.mem 0x9FF0)] 9

/-- The records of waiting calls are as their clients filled them in. -/
def Waiting (s : State K) (rest : List (K × Call)) : Prop := ∀ r ∈ rest, s.calls r.1 = r.2

/-- Where the worker is, with the calls `rest` still to be completed. -/
inductive Stage (s : State K) : List (K × Call) → List (Label K) → ℕ → Prop
  | polling (rest : List (K × Call)) (hphase : s.phase = .polling)
      (hqueue : s.queue = rest.map Prod.fst) (hwait : Waiting s rest) : Stage s rest [] 0
  | launching (rest : List (K × Call)) (hphase : s.phase = .launching) (hne : rest ≠ [])
      (hqueue : s.queue = rest.map Prod.fst) (hwait : Waiting s rest) : Stage s rest [] 1
  | busy (k : K) (call : Call) (more : List (K × Call)) (obs : List (Label K)) (rank : ℕ)
      (hguest : GuestStage call s.phase s.machine obs rank)
      (hqueue : s.queue = k :: more.map Prod.fst) (hwait : Waiting s more)
      (htype : (s.calls k).type = .genericInt) (hint : (s.calls k).intNum = call.intNum) :
      Stage s ((k, call) :: more) obs rank
  | storing (k : K) (call : Call) (more : List (K × Call)) (hphase : s.phase = .storing k)
      (hstack : s.machine.regs.ebx = 0x9FF0) (hqueue : s.queue = more.map Prod.fst)
      (hwait : Waiting s more) (htype : (s.calls k).type = .genericInt)
      (hint : (s.calls k).intNum = call.intNum) :
      Stage s ((k, call) :: more) [.interrupt call.intNum call.entry,
        .returned (loadCtx s.machine.mem 0x9FF0)] 10
  | marking (k : K) (call : Call) (more : List (K × Call)) (hphase : s.phase = .marking k)
      (hqueue : s.queue = more.map Prod.fst) (hwait : Waiting s more)
      (htype : (s.calls k).type = .genericInt) (hint : (s.calls k).intNum = call.intNum) :
      Stage s ((k, call) :: more) [.interrupt call.intNum call.entry,
        .returned (s.calls k).ctx, .store k (s.calls k).ctx] 11

/-- A completed call. -/
structure Served (K : Type) where
  k : K
  call : Call
  out : Ctx

def Served.request (d : Served K) : K × Call := (d.k, d.call)

/-- The record as the client finds it. -/
def Served.result (d : Served K) : Call := ⟨d.out, .complete, d.call.intNum⟩

/-- What the worker has done for it. -/
def Served.labels (d : Served K) : List (Label K) :=
  [.interrupt d.call.intNum d.call.entry, .returned d.out, .store d.k d.out, .complete d.k]

/-- The calls enqueued in a run, in order. -/
def requests (tr : List (Label K)) : List (K × Call) :=
  tr.filterMap fun
    | .enqueue k call => some (k, call)
    | _ => none

/-- The labels of the worker's visible steps. -/
def observed (tr : List (Label K)) : List (Label K) :=
  tr.filter fun
    | .enqueue _ _ => false
    | .pause => false
    | .internal => false
    | _ => true

/-- The number of the worker's steps, waiting apart. -/
def workerSteps (tr : List (Label K)) : ℕ :=
  (tr.filter fun
    | .enqueue _ _ => false
    | .pause => false
    | _ => true).length

/-! ### What a step of the worker can do -/

section Steps

variable {sym : Symbols} {bios : Byte → Machine → Machine → Prop}

/-- The steps of the worker, by its phase. -/
def WorkerStep (sym : Symbols) (bios : Byte → Machine → Machine → Prop) (s : State K)
    (l : Label K) (t : State K) : Prop :=
  match s.phase with
  | .polling => (s.queue = [] ∧ l = .pause ∧ t = s) ∨
      (s.queue ≠ [] ∧ l = .internal ∧ t = { s with phase := .launching })
  | .launching => ∃ k rest, s.queue = k :: rest ∧ l = .internal ∧ t = v86Enter k s
  | .guest => (∃ m, nativeStep s.machine = some m ∧ l = .internal ∧ t = { s with machine := m }) ∨
      (ipByte 0 s.machine = 0xcd ∧ ∃ m,
        (v86Monitor sym s.machine = .resumed m ∧
          l = .interrupt (ipByte 1 s.machine) (registers s.machine.regs) ∧
          t = { s with machine := m, phase := .bios (ipByte 1 s.machine) }) ∨
        (v86Monitor sym s.machine = .left m ∧ l = .internal ∧
          t = { s with machine := m, phase := .exiting }))
  | .bios n => ∃ m, bios n s.machine m ∧ l = .internal ∧ t = { s with machine := m, phase := .returning }
  | .returning => ∃ m, v86Monitor sym s.machine = .resumed m ∧ l = .returned (registers m.regs) ∧
      t = { s with machine := m, phase := .guest }
  | .exiting => ∃ k rest, s.queue = k :: rest ∧ l = .internal ∧
      t = { s with queue := rest, phase := .storing k }
  | .storing k =>
      l = .store k (loadCtx s.machine.mem (fpToLinear 0 s.machine.regs.ebx)) ∧
        t = { s with
          calls := Function.update s.calls k { s.calls k with
            ctx := loadCtx s.machine.mem (fpToLinear 0 s.machine.regs.ebx) }
          phase := .marking k }
  | .marking k => l = .complete k ∧ t = { s with
      calls := Function.update s.calls k { s.calls k with type := .complete }
      phase := .polling }

theorem step_cases {s t : State K} {l : Label K} (h : Step sym bios s l t) :
    (∃ k call, l = .enqueue k call ∧ t = v86Call k call s) ∨ WorkerStep sym bios s l t := by
  unfold WorkerStep
  cases h with
  | enqueue k call => exact Or.inl ⟨k, call, rfl, rfl⟩
  | pause hphase hempty => simp [hphase, hempty]
  | leaveLoop hphase hne => simp [hphase, hne]
  | enter k rest hphase hqueue =>
    rw [hphase]
    exact Or.inr ⟨k, rest, hqueue, rfl, rfl⟩
  | native m hphase hrun =>
    rw [hphase]
    exact Or.inr (Or.inl ⟨m, hrun, rfl, rfl⟩)
  | trapInt m hphase hint hrun =>
    rw [hphase]
    exact Or.inr (Or.inr ⟨hint, m, Or.inl ⟨hrun, rfl, rfl⟩⟩)
  | handler n m hphase hrun =>
    rw [hphase]
    exact Or.inr ⟨m, hrun, rfl, rfl⟩
  | trapIret m hphase hiret hrun =>
    rw [hphase]
    exact Or.inr ⟨m, hrun, rfl, rfl⟩
  | trapExit m hphase hint hrun =>
    rw [hphase]
    exact Or.inr (Or.inr ⟨hint, m, Or.inr ⟨hrun, rfl, rfl⟩⟩)
  | delete k rest hphase hqueue =>
    rw [hphase]
    exact Or.inr ⟨k, rest, hqueue, rfl, rfl⟩
  | copy k ctx hphase hctx =>
    rw [hphase, hctx]
    exact Or.inr ⟨rfl, rfl⟩
  | mark k hphase =>
    rw [hphase]
    exact Or.inr ⟨rfl, rfl⟩

/-- The guest code is at an instruction that needs no trap. -/
theorem workerStep_native {s t : State K} {l : Label K} {m : Machine} (hphase : s.phase = .guest)
    (hrun : nativeStep s.machine = some m) (hstep : WorkerStep sym bios s l t) :
    l = .internal ∧ t = { s with machine := m, phase := .guest } := by
  unfold WorkerStep at hstep
  rw [hphase] at hstep
  rcases hstep with ⟨m', hrun', hl, ht⟩ | ⟨hint, -⟩
  · rw [hrun] at hrun'
    cases hrun'
    exact ⟨hl, ht⟩
  · rw [nativeStep_int hint] at hrun
    cases hrun

/-- The guest code is at an `int`. -/
theorem workerStep_int {s t : State K} {l : Label K} (hphase : s.phase = .guest)
    (hint : ipByte 0 s.machine = 0xcd) (hstep : WorkerStep sym bios s l t) :
    (ipByte 1 s.machine ≠ 3 ∧ l = .interrupt (ipByte 1 s.machine) (registers s.machine.regs) ∧
      t = { s with
        machine := interrupt (ipByte 1 s.machine) (skipIp 2 s.machine)
        phase := .bios (ipByte 1 s.machine) }) ∨
    (ipByte 1 s.machine = 3 ∧ l = .internal ∧
      t = { s with machine := leave sym (skipIp 2 s.machine), phase := .exiting }) := by
  unfold WorkerStep at hstep
  rw [hphase] at hstep
  rcases hstep with ⟨m, hrun, -⟩ | ⟨-, m, ⟨hrun, hl, ht⟩ | ⟨hrun, hl, ht⟩⟩
  · rw [nativeStep_int hint] at hrun
    cases hrun
  · rw [v86Monitor_int sym hint] at hrun
    split_ifs at hrun with h3
    cases hrun
    exact Or.inl ⟨h3, hl, ht⟩
  · rw [v86Monitor_int sym hint] at hrun
    split_ifs at hrun with h3
    cases hrun
    exact Or.inr ⟨h3, hl, ht⟩

/-- What a step of the guest, of its BIOS or of the monitor leaves alone. -/
structure Kept (s t : State K) (l : Label K) : Prop where
  code : CodeLoaded t.machine.mem
  calls : t.calls = s.calls
  queue : t.queue = s.queue
  proc : t.v86Proc = s.v86Proc
  request : requests [l] = []
  count : workerSteps [l] = 1

/-- Such a step moves a call one stage on. -/
theorem GuestStage.step (hbios : BiosReturns bios) {call : Call} {s t : State K} {l : Label K}
    {obs : List (Label K)} {rank : ℕ} (h : GuestStage call s.phase s.machine obs rank)
    (hrank : rank < 9) (hcode : CodeLoaded s.machine.mem) (hne : call.intNum ≠ 3)
    (hstep : WorkerStep sym bios s l t) :
    GuestStage call t.phase t.machine (obs ++ observed [l]) (rank + 1) ∧ Kept s t l := by
  generalize hphase : s.phase = phase at h
  generalize hm : s.machine = m at h
  cases h with
  | entered _ hat hint hctx =>
    subst hm
    obtain ⟨rfl, rfl⟩ := workerStep_native hphase (nativeStep_popa hat hcode) hstep
    refine ⟨?_, hcode, rfl, rfl, rfl, rfl, rfl⟩
    refine GuestStage.loaded _ (popa_guestAt hat) hint ?_
    rw [popa_registers hat.fetch]
    exact congrArg (fun c : Ctx => { c with sp := 0xA000 }) hctx
  | loaded _ hat hint hregs =>
    subst hm
    have hbyte : ipByte 1 s.machine = call.intNum := (hat.ipByte 1).trans hint
    rcases workerStep_int hphase ((hat.ipByte 0).trans hcode.2.1) hstep with
      ⟨-, rfl, rfl⟩ | ⟨h3, -⟩
    · rw [hbyte, hregs]
      have hframe := interrupt_frame call.intNum hat.fetch.fetch hcode
      exact ⟨GuestStage.raised _ hframe, hframe.code, rfl, rfl, rfl, rfl, rfl⟩
    · exact absurd (hbyte.symm.trans h3) hne
  | raised _ hframe =>
    subst hm
    unfold WorkerStep at hstep
    rw [hphase] at hstep
    obtain ⟨m, hrun, rfl, rfl⟩ := hstep
    obtain ⟨hframe', hiret⟩ := hbios.balanced _ _ _ hframe hrun
    exact ⟨GuestStage.handled _ hframe' hiret, hframe'.code, rfl, rfl, rfl, rfl, rfl⟩
  | handled _ hframe hiret =>
    subst hm
    unfold WorkerStep at hstep
    rw [hphase] at hstep
    obtain ⟨m, hrun, rfl, rfl⟩ := hstep
    rw [v86Monitor_iret sym hiret] at hrun
    cases hrun
    have hframe' : HandlerFrame (v86GetIpByte s.machine).2 :=
      ⟨hframe.ss, hframe.sp, hframe.eip, hframe.cs, hframe.code⟩
    exact ⟨GuestStage.returned _ (iret_guestAt hframe'), hcode, rfl, rfl, rfl, rfl, rfl⟩
  | returned _ hat =>
    subst hm
    obtain ⟨rfl, rfl⟩ := workerStep_native hphase (nativeStep_jmp hat hcode) hstep
    exact ⟨GuestStage.jumped _ (jmpShort_guestAt hat hcode), hcode, rfl, rfl, rfl, rfl, rfl⟩
  | jumped _ hat =>
    subst hm
    obtain ⟨rfl, rfl⟩ := workerStep_native hphase (nativeStep_pusha hat hcode) hstep
    obtain ⟨hload, hmem⟩ := pusha_mem hat.fetch
    refine ⟨?_, hcode.of_eq fun a _ ha _ => hmem a (by omega), rfl, rfl, rfl, rfl, rfl⟩
    have hpushed : GuestStage call (.guest : Phase K) (pusha (v86GetIpByte s.machine).2)
        [.interrupt call.intNum call.entry, .returned (loadCtx _ 0x9FF0)] 8 :=
      .pushed _ (pusha_guestAt hat)
    rw [hload] at hpushed
    exact hpushed
  | pushed _ hat =>
    subst hm
    have hbyte : ipByte 1 s.machine = 3 := (hat.ipByte 1).trans hcode.2.2.2.2.2.2
    rcases workerStep_int hphase ((hat.ipByte 0).trans hcode.2.2.2.2.2.1) hstep with
      ⟨hn3, -⟩ | ⟨-, rfl, rfl⟩
    · exact absurd hbyte hn3
    · exact ⟨GuestStage.exiting _ hat.sp, hcode, rfl, rfl, rfl, rfl, rfl⟩
  | exiting _ hstack => omega

/-! ### Whole calls -/

omit [DecidableEq K] in
theorem GuestStage.eq_exiting {call : Call} {phase : Phase K} {m : Machine} {obs : List (Label K)}
    {rank : ℕ} (h : GuestStage call phase m obs rank) (hrank : ¬rank < 9) :
    phase = .exiting ∧ rank = 9 ∧ m.regs.ebx = 0x9FF0 ∧
      obs = [.interrupt call.intNum call.entry, .returned (loadCtx m.mem 0x9FF0)] := by
  cases h with
  | exiting _ hstack => exact ⟨rfl, rfl, hstack, rfl⟩
  | _ => omega

omit [DecidableEq K] in
theorem v86CallGenericInt_entered (call : Call) {m : Machine} (hcode : CodeLoaded m.mem) :
    GuestStage (K := K) call .guest (v86CallGenericInt call.intNum call.entry m) [] 2 ∧
      CodeLoaded (v86CallGenericInt call.intNum call.entry m).mem := by
  have hstack : fpToLinear 0 ((v86Stack - 16).setWidth 32) = 0x9FF0 := by decide
  have hmem : (v86CallGenericInt call.intNum call.entry m).mem =
      storeCtx (Function.update m.mem 0x7C02 call.intNum) 0x9FF0 call.entry := by
    rw [← hstack]
    rfl
  constructor
  · have hsp : (v86CallGenericInt call.intNum call.entry m).regs.userEsp =
        (v86Stack - 16).setWidth 32 := rfl
    refine GuestStage.entered _ ⟨rfl, rfl, rfl, hsp.trans (by decide)⟩ ?_ ?_
    · rw [hmem, storeCtx_apply _ _ (by omega), Function.update_self]
    · rw [hmem, loadCtx_storeCtx]
  · apply hcode.of_eq
    intro a _ ha hne
    rw [hmem, storeCtx_apply _ _ (by omega), Function.update_of_ne hne]

omit [DecidableEq K] in
theorem Waiting.of_eq {s t : State K} {rest : List (K × Call)} (h : Waiting s rest)
    (heq : ∀ k ∈ rest.map Prod.fst, t.calls k = s.calls k) : Waiting t rest := by
  intro r hr
  rw [heq r.1 (List.mem_map_of_mem hr)]
  exact h r hr

/-- A write to the head record leaves the waiting ones alone. -/
theorem Waiting.update {s t : State K} {k : K} {more : List (K × Call)} {c : Call}
    (h : Waiting s more) (hk : k ∉ more.map Prod.fst)
    (ht : t.calls = Function.update s.calls k c) : Waiting t more := by
  apply h.of_eq
  intro j hj
  have hjk : j ≠ k := by rintro rfl; exact hk hj
  rw [ht, Function.update_of_ne hjk]

/-- What a step of the worker comes to, while the calls `rest` are to be completed. -/
inductive Moved (rest : List (K × Call)) (obs : List (Label K)) (rank : ℕ) (s t : State K) :
    Label K → Prop
  | waited (heq : t = s) : Moved rest obs rank s t .pause
  | advanced (l : Label K) (hstage : Stage t rest (obs ++ observed [l]) (rank + 1))
      (hrequest : requests [l] = []) (hcount : workerSteps [l] = 1) : Moved rest obs rank s t l
  | completed (d : Served K) (more : List (K × Call)) (hrest : rest = d.request :: more)
      (hrank : rank = 11) (hobs : obs ++ [.complete d.k] = d.labels)
      (hresult : t.calls d.k = d.result) (hstage : Stage t more [] 0) :
      Moved rest obs rank s t (.complete d.k)

/-- Such a step, with what it leaves alone: the guest code, and the records of other calls. -/
structure Advance (rest : List (K × Call)) (obs : List (Label K)) (rank : ℕ) (s t : State K)
    (l : Label K) : Prop where
  moved : Moved rest obs rank s t l
  code : CodeLoaded t.machine.mem
  proc : t.v86Proc = s.v86Proc
  others : ∀ j, j ∉ rest.map Prod.fst → t.calls j = s.calls j

section Calls

variable {s t : State K} {l : Label K} {rest more : List (K × Call)} {k : K} {call : Call}
  {obs : List (Label K)} {rank : ℕ}

theorem advance_polling (hphase : s.phase = .polling) (hqueue : s.queue = rest.map Prod.fst)
    (hwait : Waiting s rest) (hcode : CodeLoaded s.machine.mem)
    (hstep : WorkerStep sym bios s l t) : Advance rest [] 0 s t l := by
  unfold WorkerStep at hstep
  rw [hphase] at hstep
  rcases hstep with ⟨-, rfl, rfl⟩ | ⟨hne, rfl, rfl⟩
  · exact ⟨.waited rfl, hcode, rfl, fun _ _ => rfl⟩
  · refine ⟨.advanced _ (.launching rest rfl ?_ hqueue hwait) rfl rfl, hcode, rfl, fun _ _ => rfl⟩
    rintro rfl
    exact hne hqueue

/-- The worker takes the head record. -/
theorem advance_launching (hphase : s.phase = .launching)
    (hqueue : s.queue = k :: more.map Prod.fst) (hwait : Waiting s ((k, call) :: more))
    (hcode : CodeLoaded s.machine.mem) (htype : call.type = .genericInt)
    (hk : k ∉ more.map Prod.fst) (hstep : WorkerStep sym bios s l t) :
    Advance ((k, call) :: more) [] 1 s t l := by
  unfold WorkerStep at hstep
  rw [hphase] at hstep
  obtain ⟨k', ids, hids, rfl, rfl⟩ := hstep
  rw [hqueue, List.cons.injEq] at hids
  obtain ⟨rfl, rfl⟩ := hids
  have hcall : s.calls k = call := hwait _ (List.mem_cons_self ..)
  have hrun : v86Enter k s = { s with
      calls := Function.update s.calls k { call with ctx := call.entry }
      machine := v86CallGenericInt call.intNum call.entry s.machine
      phase := .guest } := by
    unfold v86Enter
    simp only [hcall, htype]
    rfl
  obtain ⟨hguest, hcode'⟩ := v86CallGenericInt_entered (K := K) call hcode
  rw [hrun]
  refine ⟨.advanced _ (.busy k call more _ _ hguest hqueue ?_ ?_ ?_) rfl rfl, hcode', rfl, ?_⟩
  · exact Waiting.update (fun r hr => hwait r (List.mem_cons_of_mem _ hr)) hk rfl
  · dsimp only
    rw [Function.update_self]
    exact htype
  · dsimp only
    rw [Function.update_self]
  · intro j hj
    have hjk : j ≠ k := by rintro rfl; exact hj (List.mem_cons_self ..)
    exact Function.update_of_ne hjk _ _

/-- The guest runs, up to the deletion of the head record from the list. -/
theorem advance_busy (hbios : BiosReturns bios)
    (hguest : GuestStage call s.phase s.machine obs rank)
    (hqueue : s.queue = k :: more.map Prod.fst) (hwait : Waiting s more)
    (htype : (s.calls k).type = .genericInt) (hint : (s.calls k).intNum = call.intNum)
    (hcode : CodeLoaded s.machine.mem) (hne : call.intNum ≠ 3)
    (hstep : WorkerStep sym bios s l t) : Advance ((k, call) :: more) obs rank s t l := by
  by_cases hrank : rank < 9
  · obtain ⟨hnext, hkept⟩ := hguest.step hbios hrank hcode hne hstep
    refine ⟨.advanced _ (.busy k call more _ _ hnext ?_ ?_ ?_ ?_) hkept.request hkept.count,
      hkept.code, hkept.proc, fun j _ => by rw [hkept.calls]⟩
    · rw [hkept.queue, hqueue]
    · exact hwait.of_eq fun j _ => by rw [hkept.calls]
    · rw [hkept.calls, htype]
    · rw [hkept.calls, hint]
  · obtain ⟨hphase, rfl, hstack, rfl⟩ := hguest.eq_exiting hrank
    unfold WorkerStep at hstep
    rw [hphase] at hstep
    obtain ⟨k', ids, hids, rfl, rfl⟩ := hstep
    rw [hqueue, List.cons.injEq] at hids
    obtain ⟨rfl, rfl⟩ := hids
    exact ⟨.advanced _ (.storing k call more rfl hstack rfl hwait htype hint) rfl rfl, hcode, rfl,
      fun _ _ => rfl⟩

/-- The registers are copied into the record. -/
theorem advance_storing (hphase : s.phase = .storing k) (hstack : s.machine.regs.ebx = 0x9FF0)
    (hqueue : s.queue = more.map Prod.fst) (hwait : Waiting s more)
    (htype : (s.calls k).type = .genericInt) (hint : (s.calls k).intNum = call.intNum)
    (hcode : CodeLoaded s.machine.mem) (hk : k ∉ more.map Prod.fst)
    (hstep : WorkerStep sym bios s l t) :
    Advance ((k, call) :: more) [.interrupt call.intNum call.entry,
      .returned (loadCtx s.machine.mem 0x9FF0)] 10 s t l := by
  have haddr : fpToLinear 0 0x9FF0 = 0x9FF0 := by decide
  unfold WorkerStep at hstep
  rw [hphase] at hstep
  obtain ⟨rfl, rfl⟩ := hstep
  rw [hstack, haddr]
  generalize loadCtx s.machine.mem 0x9FF0 = out
  refine ⟨.advanced _ ?_ rfl rfl, hcode, rfl, ?_⟩
  · have := Stage.marking (s := { s with
        calls := Function.update s.calls k { s.calls k with ctx := out }, phase := .marking k })
      k call more rfl hqueue (hwait.update hk rfl)
    simp only [Function.update_self] at this
    exact this htype hint
  · intro j hj
    have hjk : j ≠ k := by rintro rfl; exact hj (List.mem_cons_self ..)
    exact Function.update_of_ne hjk _ _

/-- The record is marked complete. -/
theorem advance_marking (hphase : s.phase = .marking k) (hqueue : s.queue = more.map Prod.fst)
    (hwait : Waiting s more) (hint : (s.calls k).intNum = call.intNum)
    (hcode : CodeLoaded s.machine.mem) (hk : k ∉ more.map Prod.fst)
    (hstep : WorkerStep sym bios s l t) :
    Advance ((k, call) :: more) [.interrupt call.intNum call.entry, .returned (s.calls k).ctx,
      .store k (s.calls k).ctx] 11 s t l := by
  unfold WorkerStep at hstep
  rw [hphase] at hstep
  obtain ⟨rfl, rfl⟩ := hstep
  refine ⟨.completed ⟨k, call, (s.calls k).ctx⟩ more rfl rfl rfl ?_
    (.polling more rfl hqueue (hwait.update hk rfl)), hcode, rfl, ?_⟩
  · dsimp only [Served.result]
    rw [Function.update_self, hint]
  · intro j hj
    have hjk : j ≠ k := by rintro rfl; exact hj (List.mem_cons_self ..)
    exact Function.update_of_ne hjk _ _

/-- One step of the worker. -/
theorem Stage.step (hbios : BiosReturns bios) (h : Stage s rest obs rank)
    (hcode : CodeLoaded s.machine.mem)
    (hreq : ∀ r ∈ rest, r.2.type = .genericInt ∧ r.2.intNum ≠ 3)
    (hnodup : (rest.map Prod.fst).Nodup) (hstep : WorkerStep sym bios s l t) :
    Advance rest obs rank s t l := by
  cases h with
  | polling _ hphase hqueue hwait => exact advance_polling hphase hqueue hwait hcode hstep
  | launching _ hphase hne hqueue hwait =>
    obtain ⟨⟨k, call⟩, more, rfl⟩ := List.exists_cons_of_ne_nil hne
    exact advance_launching hphase hqueue hwait hcode (hreq _ (List.mem_cons_self ..)).1
      (List.nodup_cons.mp hnodup).1 hstep
  | busy k call more _ _ hguest hqueue hwait htype hint =>
    exact advance_busy hbios hguest hqueue hwait htype hint hcode
      (hreq _ (List.mem_cons_self ..)).2 hstep
  | storing k call more hphase hstack hqueue hwait htype hint =>
    exact advance_storing hphase hstack hqueue hwait htype hint hcode
      (List.nodup_cons.mp hnodup).1 hstep
  | marking k call more hphase hqueue hwait htype hint =>
    exact advance_marking hphase hqueue hwait hint hcode (List.nodup_cons.mp hnodup).1 hstep

/-! ### Enqueues -/

theorem Waiting.enqueue {q : List K} (h : Waiting s rest) (hk : k ∉ rest.map Prod.fst) :
    Waiting { s with queue := q, calls := Function.update s.calls k call }
      (rest ++ [(k, call)]) := by
  intro r hr
  rcases List.mem_append.mp hr with hr | hr
  · exact h.update (t := { s with queue := q, calls := Function.update s.calls k call }) hk rfl r hr
  · rw [List.mem_singleton.mp hr]
    exact Function.update_self ..

/-- An enqueue leaves the worker where it is. -/
theorem Stage.enqueue (h : Stage s rest obs rank) (hproc : s.v86Proc = true)
    (hk : k ∉ rest.map Prod.fst) : Stage (v86Call k call s) (rest ++ [(k, call)]) obs rank := by
  have hrun : v86Call k call s = { s with
      queue := s.queue ++ [k], calls := Function.update s.calls k call } := by
    simp [v86Call, hproc]
  rw [hrun]
  cases h with
  | polling _ hphase hqueue hwait =>
    exact .polling _ hphase (by simp [hqueue]) (hwait.enqueue hk)
  | launching _ hphase hne hqueue hwait =>
    exact .launching _ hphase (by simp) (by simp [hqueue]) (hwait.enqueue hk)
  | busy k' c more _ _ hguest hqueue hwait htype hint =>
    rw [List.map_cons, List.mem_cons, not_or] at hk
    have hhead : Function.update s.calls k call k' = s.calls k' :=
      Function.update_of_ne (Ne.symm hk.1) _ _
    refine .busy k' c (more ++ [(k, call)]) _ _ hguest (by simp [hqueue]) (hwait.enqueue hk.2) ?_ ?_
    · dsimp only
      rw [hhead, htype]
    · dsimp only
      rw [hhead, hint]
  | storing k' c more hphase hstack hqueue hwait htype hint =>
    rw [List.map_cons, List.mem_cons, not_or] at hk
    have hhead : Function.update s.calls k call k' = s.calls k' :=
      Function.update_of_ne (Ne.symm hk.1) _ _
    refine Stage.storing (s := { s with
        queue := s.queue ++ [k], calls := Function.update s.calls k call })
      k' c (more ++ [(k, call)]) hphase hstack (by simp [hqueue]) (hwait.enqueue hk.2) ?_ ?_
    · dsimp only
      rw [hhead, htype]
    · dsimp only
      rw [hhead, hint]
  | marking k' c more hphase hqueue hwait htype hint =>
    rw [List.map_cons, List.mem_cons, not_or] at hk
    have hhead : Function.update s.calls k call k' = s.calls k' :=
      Function.update_of_ne (Ne.symm hk.1) _ _
    have := Stage.marking (s := { s with
        queue := s.queue ++ [k], calls := Function.update s.calls k call })
      k' c (more ++ [(k, call)]) hphase (by simp [hqueue]) (hwait.enqueue hk.2)
    simp only [hhead] at this
    exact this htype hint

/-! ### The worker never blocks -/

theorem canStep_native {m : Machine} (hphase : s.phase = .guest)
    (hrun : nativeStep s.machine = some m) :
    ∃ l t, Step sym bios s l t ∧ workerSteps [l] = 1 :=
  ⟨_, _, .native s m hphase hrun, rfl⟩

theorem canStep_int (hphase : s.phase = .guest) (hint : ipByte 0 s.machine = 0xcd) :
    ∃ l t, Step sym bios s l t ∧ workerSteps [l] = 1 := by
  have hrun := v86Monitor_int sym hint
  by_cases h3 : ipByte 1 s.machine = 3
  · rw [if_pos h3] at hrun
    exact ⟨_, _, .trapExit s _ hphase hint hrun, rfl⟩
  · rw [if_neg h3] at hrun
    exact ⟨_, _, .trapInt s _ hphase hint hrun, rfl⟩

theorem GuestStage.canStep (hbios : BiosReturns bios)
    (h : GuestStage call s.phase s.machine obs rank)
    (hqueue : s.queue = k :: more.map Prod.fst) (hcode : CodeLoaded s.machine.mem) :
    ∃ l t, Step sym bios s l t ∧ workerSteps [l] = 1 := by
  generalize hphase : s.phase = phase at h
  generalize hm : s.machine = m at h
  cases h with
  | entered _ hat => subst hm; exact canStep_native hphase (nativeStep_popa hat hcode)
  | loaded _ hat => subst hm; exact canStep_int hphase ((hat.ipByte 0).trans hcode.2.1)
  | raised _ hframe =>
    subst hm
    obtain ⟨m, hm⟩ := hbios.returns call.intNum _ hframe
    exact ⟨_, _, .handler s _ m hphase hm, rfl⟩
  | handled _ hframe hiret =>
    subst hm
    exact ⟨_, _, .trapIret s _ hphase hiret (v86Monitor_iret sym hiret), rfl⟩
  | returned _ hat => subst hm; exact canStep_native hphase (nativeStep_jmp hat hcode)
  | jumped _ hat => subst hm; exact canStep_native hphase (nativeStep_pusha hat hcode)
  | pushed _ hat => subst hm; exact canStep_int hphase ((hat.ipByte 0).trans hcode.2.2.2.2.2.1)
  | exiting _ _ => exact ⟨_, _, .delete s k _ hphase hqueue, rfl⟩

theorem Stage.canStep (hbios : BiosReturns bios) (h : Stage s rest obs rank)
    (hcode : CodeLoaded s.machine.mem) (hne : rest ≠ []) :
    ∃ l t, Step sym bios s l t ∧ workerSteps [l] = 1 := by
  cases h with
  | polling _ hphase hqueue => exact ⟨_, _, .leaveLoop s hphase (by simp [hqueue, hne]), rfl⟩
  | launching _ hphase _ hqueue =>
    obtain ⟨⟨k, call⟩, more, rfl⟩ := List.exists_cons_of_ne_nil hne
    exact ⟨_, _, .enter s k _ hphase hqueue, rfl⟩
  | busy k call more _ _ hguest hqueue => exact hguest.canStep hbios hqueue hcode
  | storing k call more hphase => exact ⟨_, _, .copy s k _ hphase rfl, rfl⟩
  | marking k call more hphase => exact ⟨_, _, .mark s k hphase, rfl⟩

end Calls

end Steps

end JustKernel.V86
