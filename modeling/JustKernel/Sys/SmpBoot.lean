import JustKernel.Base.Runs
import JustKernel.Int.Dt

/-! The start of the other cores, `smp_launch_cpus` and what a core does from its startup
interrupt to its report. The cores share one block of memory at 0x500 with the status of the
core that is being started, one boot stack, and one entry of the descriptor table for their
task state segments; the launching core waits a while after each interprocessor interrupt and
then looks at the status. Every access to what is shared is a step of its own, and the steps
of the cores come in any order. An interprocessor interrupt is on its way until the wait that
follows it is over, at the latest.

A core that starts late can take the block, the stack and the entry away from another one, and
the second INIT can hit a core that is on its way already. What holds without the two is below. -/

namespace JustKernel.SmpBoot

open Dt Runs

/-- `SMPBootInfo_t`. -/
structure Info where
  status : ℕ
  cr3 : BitVec 32
  esp : BitVec 32
  entry : BitVec 32
  gdtPtr : BitVec 32

/-- The fields of `madt_ent0_t` that are looked at. -/
structure MadtCpu (C : Type) where
  apicId : C
  cpuFlags : BitVec 32

inductive Ipi
  | init
  | startup
  deriving DecidableEq

/-- Where a core is: it waits for its startup interrupt, is in the trampoline, in `smp_loaded`, in
`init_core_locals`, in `tss_init`, in `idt_init`, in `sched_init_core`, about to report, up, or it has
read something that takes it elsewhere. -/
inductive Pos
  | waiting
  | statusStarted | loadGdt | loadCr3 | loadEsp | jump
  | statusLoaded | count
  | coreLocals
  | baseLow | baseMiddle | baseHigh | readType | clearType (access : BitVec 8) | readCleared
  | setType (access : BitVec 8) | ltr
  | idt | sched
  | statusUp
  | up
  | lost
  deriving DecidableEq

/-- Where the launching core is in the loop over the cores and the two tries. -/
inductive BspPos (C : Type)
  | next (rest : List (MadtCpu C))
  | clear (c : C) (rest : List (MadtCpu C))
  | fill (c : C) (rest : List (MadtCpu C))
  | sendInit (c : C) (again : Bool) (rest : List (MadtCpu C))
  | waitInit (c : C) (again : Bool) (rest : List (MadtCpu C))
  | sendStartup (c : C) (again : Bool) (rest : List (MadtCpu C))
  | waitStartup (c : C) (again : Bool) (rest : List (MadtCpu C))
  | poll (c : C) (again : Bool) (rest : List (MadtCpu C))
  | stuck (c : C) (rest : List (MadtCpu C))
  | configuring (c : C) (rest : List (MadtCpu C))
  | verdict (c : C) (rest : List (MadtCpu C))

/-- What the launching core knows: its number, the page directory, the address of `smp_loaded`, and
what `kmalloc` returns for the locals of a core. -/
structure Kernel (C : Type) where
  bsp : C
  cr3 : BitVec 32
  smpLoaded : BitVec 32
  locals : C → BitVec 32

structure Boot (C : Type) where
  bsp : BspPos C
  info : Info
  counter : BitVec 8
  gdt : Gdt
  pos : C → Pos
  pending : C → List Ipi
  /-- The model-specific register with the address of the core's locals. -/
  gsBase : C → BitVec 32
  /-- The base in the task register. -/
  tr : C → Option (BitVec 32)
  reported : List C
  /-- The cores for which `smp_launch_cpus` went on without a report. -/
  dropped : List C

variable {C : Type} [DecidableEq C]

/-- The offset of `tss_entry` in `core_locals_t`. -/
def tssOffset : BitVec 32 := 2072

def Info.zero : Info := ⟨0, 0, 0, 0, 0⟩

/-- The block as the launching core fills it in. -/
def Kernel.info (k : Kernel C) : Info := ⟨0, k.cr3, 0xA000, k.smpLoaded, 0x600⟩

def Boot.setPos (s : Boot C) (i : C) (p : Pos) : Boot C := { s with pos := Function.update s.pos i p }

omit [DecidableEq C] in
def Boot.setStatus (s : Boot C) (status : ℕ) : Boot C := { s with info := { s.info with status := status } }

omit [DecidableEq C] in
def Boot.setTss (s : Boot C) (f : GdtEntry → GdtEntry) : Boot C :=
  { s with gdt := Function.update s.gdt descTss (f (s.gdt descTss)) }

/-- Go on if what was read is right. -/
def Boot.goOn (s : Boot C) (i : C) (right : Bool) (p : Pos) : Boot C := s.setPos i (if right then p else .lost)

/-- A present task state segment that is not busy. -/
def available (access : BitVec 8) : Bool := access &&& 0x9F = 0x89

/-- The next access of core `i`. -/
def Boot.advance (k : Kernel C) (i : C) (s : Boot C) : Boot C :=
  let base := s.gsBase i + tssOffset
  match s.pos i with
  | .waiting => s
  | .statusStarted => (s.setStatus 1).setPos i .loadGdt
  | .loadGdt => s.goOn i (s.info.gdtPtr = 0x600) .loadCr3
  | .loadCr3 => s.goOn i (s.info.cr3 = k.cr3) .loadEsp
  | .loadEsp => s.goOn i (s.info.esp = 0xA000) .jump
  | .jump => s.goOn i (s.info.entry = k.smpLoaded) .statusLoaded
  | .statusLoaded => (s.setStatus 2).setPos i .count
  | .count => { s with counter := s.counter + 1 }.setPos i .coreLocals
  | .coreLocals => { s with gsBase := Function.update s.gsBase i (k.locals i) }.setPos i .baseLow
  | .baseLow => (s.setTss fun e => { e with baseLow := (base &&& 0xFFFF).setWidth 16 }).setPos i .baseMiddle
  | .baseMiddle =>
    (s.setTss fun e => { e with baseMiddle := (base >>> 16 &&& 0xFF).setWidth 8 }).setPos i .baseHigh
  | .baseHigh => (s.setTss fun e => { e with baseHigh := (base >>> 24 &&& 0xFF).setWidth 8 }).setPos i .readType
  | .readType => s.setPos i (.clearType (s.gdt descTss).access)
  | .clearType access => (s.setTss fun e => { e with access := access &&& ~~~0x0F }).setPos i .readCleared
  | .readCleared => s.setPos i (.setType (s.gdt descTss).access)
  | .setType access => (s.setTss fun e => { e with access := access ||| 0x9 }).setPos i .ltr
  -- the processor refuses a segment that is busy, and marks the one it loads
  | .ltr =>
    ({ s with tr := Function.update s.tr i (some (s.gdt descTss).segment.base) }.setTss
      fun e => { e with access := e.access ||| 0x2 }).goOn i (available (s.gdt descTss).access) .idt
  | .idt => s.setPos i .sched
  | .sched => s.setPos i .statusUp
  | .statusUp => (s.setStatus 3).setPos i .up
  | .up => s
  | .lost => s

/-- An interprocessor interrupt arrives. INIT stops a core, and the startup interrupt counts only for a
core that waits for it. -/
def Boot.deliver (s : Boot C) (i : C) (ipi : Ipi) (rest : List Ipi) : Boot C :=
  let s := { s with pending := Function.update s.pending i rest }
  match ipi with
  | .init => { s with tr := Function.update s.tr i none }.setPos i .waiting
  | .startup => if s.pos i = .waiting then s.setPos i .statusStarted else s

/-- `smp_send_ipi`. -/
def Boot.send (s : Boot C) (c : C) (ipi : Ipi) : Boot C :=
  { s with pending := Function.update s.pending c (s.pending c ++ [ipi]) }

omit [DecidableEq C] in
/-- No report for core `c`. -/
def Boot.drop (s : Boot C) (c : C) (rest : List (MadtCpu C)) : Boot C :=
  { s with dropped := c :: s.dropped, bsp := .next rest }

/-- The next access of the launching core. -/
def Boot.advanceBsp (k : Kernel C) (s : Boot C) : Boot C :=
  match s.bsp with
  | .next [] => s
  | .next (cpu :: rest) =>
    { s with bsp := if cpu.apicId ≠ k.bsp ∧ cpu.cpuFlags &&& 3 ≠ 0 then .clear cpu.apicId rest else .next rest }
  | .clear c rest => { s with info := .zero, bsp := .fill c rest }
  | .fill c rest => { s with info := k.info, bsp := .sendInit c false rest }
  | .sendInit c again rest => { s.send c .init with bsp := .waitInit c again rest }
  | .waitInit c again rest => { s with bsp := .sendStartup c again rest }
  | .sendStartup c again rest => { s.send c .startup with bsp := .waitStartup c again rest }
  | .waitStartup c again rest => { s with bsp := .poll c again rest }
  | .poll c again rest =>
    if 0 < s.info.status then { s with bsp := .stuck c rest }
    else if again then s.drop c rest
    else { s with bsp := .sendInit c true rest }
  -- only messages and waits depend on what is read at the next two
  | .stuck c rest => { s with bsp := .configuring c rest }
  | .configuring c rest => { s with bsp := .verdict c rest }
  | .verdict c rest =>
    if s.info.status = 3 then { s with reported := c :: s.reported, bsp := .next rest } else s.drop c rest

/-- A wait of the launching core is over when the interrupt before it has arrived. -/
def Boot.Ready (s : Boot C) : Prop :=
  match s.bsp with
  | .waitInit c _ _ => s.pending c = []
  | .waitStartup c _ _ => s.pending c = []
  | _ => True

/-- The steps of all cores; `late` if INIT may hit a core that is on its way. -/
inductive Step (k : Kernel C) (late : Prop) (s : Boot C) : Boot C → Prop
  | core (i : C) : i ≠ k.bsp → Step k late s (s.advance k i)
  | bsp : s.Ready → Step k late s (s.advanceBsp k)
  | deliver (i : C) (ipi : Ipi) (rest : List Ipi) : s.pending i = ipi :: rest →
      (ipi = .init → s.pos i ≠ .waiting → late) → Step k late s (s.deliver i ipi rest)

/-- The descriptors of the launching core, which has loaded its task state segment. -/
def bspGdt (base : BitVec 32) (gdt : Gdt) : Gdt :=
  let gdt := gdtSetGateType descTss 0x9 (gdtSetGateBase descTss base (gdtInit gdt))
  Function.update gdt descTss { gdt descTss with access := (gdt descTss).access ||| 0x2 }

/-- Before `smp_launch_cpus`. -/
def start (k : Kernel C) (cpus : List (MadtCpu C)) (gdt : Gdt) (info : Info) : Boot C where
  bsp := .next cpus
  info := info
  counter := 1
  gdt := bspGdt (k.locals k.bsp + tssOffset) gdt
  pos _ := .waiting
  pending _ := []
  gsBase := Function.update (fun _ => 0) k.bsp (k.locals k.bsp)
  tr := Function.update (fun _ => none) k.bsp (some (k.locals k.bsp + tssOffset))
  reported := []
  dropped := []

/-! ### What holds of the core that is being started -/

/-- The status that a core at this place has left. -/
def Pos.status : Pos → ℕ
  | .waiting | .statusStarted | .lost => 0
  | .loadGdt | .loadCr3 | .loadEsp | .jump | .statusLoaded => 1
  | .up => 3
  | _ => 2

/-- It has been counted. -/
def Pos.counted : Pos → Bool
  | .waiting | .statusStarted | .loadGdt | .loadCr3 | .loadEsp | .jump | .statusLoaded | .count | .lost => false
  | _ => true

/-- It has its locals. -/
def Pos.hasLocals (p : Pos) : Bool := p.counted && p != .coreLocals

/-- It has loaded its task state segment. -/
def Pos.hasTss : Pos → Bool
  | .idt | .sched | .statusUp | .up => true
  | _ => false

/-- It is on its way from the startup interrupt to its report. -/
def Pos.booting (p : Pos) : Bool := p != .waiting && p != .up

/-- How far the entry for the task state segment is. -/
def EntryReady (base : BitVec 32) (e : GdtEntry) : Pos → Prop
  | .baseMiddle => e.baseLow = (base &&& 0xFFFF).setWidth 16
  | .baseHigh => e.baseLow = (base &&& 0xFFFF).setWidth 16 ∧ e.baseMiddle = (base >>> 16 &&& 0xFF).setWidth 8
  | .readType => e.segment.base = base
  | .clearType access => e.segment.base = base ∧ access &&& 0xF0 = 0xE0
  | .readCleared => e.segment.base = base ∧ e.access = 0xE0
  | .setType access => e.segment.base = base ∧ access = 0xE0
  | .ltr => e.segment.base = base ∧ e.access = 0xE9
  | _ => True

/-- The address of the task state segment of a core. -/
abbrev Kernel.tss (k : Kernel C) (i : C) : BitVec 32 := k.locals i + tssOffset

/-- A core that is being started and that nothing disturbs. -/
structure OnWay (k : Kernel C) (s : Boot C) (c : C) : Prop where
  info : s.info = { k.info with status := (s.pos c).status }
  found : s.pos c ≠ .lost
  locals : (s.pos c).hasLocals = true → s.gsBase c = k.locals c
  entry : EntryReady (k.tss c) (s.gdt descTss) (s.pos c)
  tss : (s.pos c).hasTss = true → s.tr c = some (k.tss c)

/-- A core that has not been started, or has been started and reported. -/
structure Settled (k : Kernel C) (s : Boot C) (i : C) : Prop where
  pending : s.pending i = []
  place : s.pos i = .waiting ∧ i ∉ s.reported ∨
    s.pos i = .up ∧ i ∈ s.reported ∧ s.gsBase i = k.locals i ∧ s.tr i = some (k.tss i)

/-- The core that is being started, and the cores still to come. -/
def BspPos.target : BspPos C → Option C
  | .next _ => none
  | .clear c _ | .fill c _ | .sendInit c _ _ | .waitInit c _ _ | .sendStartup c _ _ | .waitStartup c _ _
  | .poll c _ _ | .stuck c _ | .configuring c _ | .verdict c _ => some c

def BspPos.rest : BspPos C → List (MadtCpu C)
  | .next rest | .clear _ rest | .fill _ rest | .sendInit _ _ rest | .waitInit _ _ rest | .sendStartup _ _ rest
  | .waitStartup _ _ rest | .poll _ _ rest | .stuck _ rest | .configuring _ rest | .verdict _ rest => rest

/-- The block is not filled in yet. -/
def BspPos.unfilled : BspPos C → Bool
  | .clear _ _ | .fill _ _ => true
  | _ => false

/-- The launching core waits for an interrupt to arrive. -/
def BspPos.waits : BspPos C → Bool
  | .waitInit _ _ _ | .waitStartup _ _ _ => true
  | _ => false

/-- The target of the launching core. -/
structure Launching (k : Kernel C) (s : Boot C) (c : C) : Prop where
  notBsp : c ≠ k.bsp
  fresh : c ∉ s.reported
  idle : s.bsp.unfilled = true → s.pos c = .waiting
  onWay : s.bsp.unfilled = false → OnWay k s c
  pending : s.bsp.waits = false → s.pending c = []

/-- The cores that `smp_boot_counter` has counted besides the first one. -/
def Boot.counted (s : Boot C) : ℕ :=
  s.reported.length + match s.bsp.target with
    | some c => if (s.pos c).counted then 1 else 0
    | none => 0

structure Sound (k : Kernel C) (s : Boot C) : Prop where
  access : (s.gdt descTss).access &&& 0xF0 = 0xE0
  others : ∀ i, s.bsp.target ≠ some i → Settled k s i
  target : ∀ c, s.bsp.target = some c → Launching k s c
  bsp : s.bsp.target ≠ some k.bsp ∧ k.bsp ∉ s.reported
  distinct : (s.bsp.target.toList ++ s.bsp.rest.map MadtCpu.apicId).Nodup
  ahead : ∀ c ∈ s.bsp.rest, c.apicId ∉ s.reported
  counter : s.counter = 1 + BitVec.ofNat 8 s.counted

/-! ### A step of a core -/

section Core

variable {k : Kernel C} {s s' : Boot C} {c i : C}

/-- Nothing of the launching core or of the other cores has changed. -/
structure Untouched (i : C) (s s' : Boot C) : Prop where
  bsp : s'.bsp = s.bsp
  reported : s'.reported = s.reported
  dropped : s'.dropped = s.dropped
  pending : s'.pending = s.pending
  others : ∀ j, j ≠ i → s'.pos j = s.pos j ∧ s'.gsBase j = s.gsBase j ∧ s'.tr j = s.tr j

theorem advance_untouched (k : Kernel C) (i : C) (s : Boot C) : Untouched i s (s.advance k i) := by
  unfold Boot.advance
  cases s.pos i <;> refine ⟨rfl, rfl, rfl, rfl, fun j hj => ?_⟩ <;>
    simp [Boot.setPos, Boot.goOn, Boot.setStatus, Boot.setTss, hj]

/-- Only the entry for the task state segment is written, by anyone and however the steps come. -/
theorem advance_gdt (k : Kernel C) (i : C) (s : Boot C) {n : Fin 6} (hn : n ≠ descTss) :
    (s.advance k i).gdt n = s.gdt n := by
  unfold Boot.advance
  cases s.pos i <;> simp [Boot.setPos, Boot.goOn, Boot.setStatus, Boot.setTss, hn]

theorem available_tss : available 233#8 = true := by decide

theorem Settled.advance (h : Settled k s i) : s.advance k i = s := by
  rcases h.place with ⟨hpos, -⟩ | ⟨hpos, -⟩ <;> rw [Boot.advance, hpos]

/-- One access of the core that is being started. -/
theorem OnWay.advance (h : OnWay k s c) (haccess : (s.gdt descTss).access &&& 0xF0 = 0xE0) :
    OnWay k (s.advance k c) c ∧ ((s.advance k c).gdt descTss).access &&& 0xF0 = 0xE0 := by
  obtain ⟨hinfo, hfound, hlocals, hentry, htss⟩ := h
  cases hp : s.pos c <;> rw [hp] at hinfo hfound hlocals hentry htss <;>
    simp only [Boot.advance, hp, Boot.setPos, Boot.goOn, Boot.setStatus, Boot.setTss, hinfo]
  case baseHigh =>
    obtain ⟨hlow, hmiddle⟩ := hentry
    have hbase : (k.tss c >>> 24 &&& 0xFF).setWidth 8 ++ (s.gdt descTss).baseMiddle ++ (s.gdt descTss).baseLow =
        k.tss c := by
      rw [hlow, hmiddle]
      exact pieces_base (k.tss c)
    rw [hlocals rfl]
    refine ⟨⟨?_, ?_, ?_, ?_, ?_⟩, ?_⟩
    case refine_4 => simpa [EntryReady, GdtEntry.segment] using hbase
    all_goals simp_all [Kernel.info, Pos.status, Pos.hasLocals, Pos.counted, Pos.hasTss]
  case clearType access =>
    obtain ⟨hbase, htype⟩ := hentry
    refine ⟨⟨?_, ?_, ?_, ?_, ?_⟩, ?_⟩
    case refine_4 => simpa [EntryReady, GdtEntry.segment] using And.intro hbase htype
    all_goals simp_all [Kernel.info, Pos.status, Pos.hasLocals, Pos.counted, Pos.hasTss]
  case setType access =>
    obtain ⟨hbase, rfl⟩ := hentry
    refine ⟨⟨?_, ?_, ?_, ?_, ?_⟩, ?_⟩
    case refine_4 => simpa [EntryReady, GdtEntry.segment] using hbase
    all_goals simp_all [Kernel.info, Pos.status, Pos.hasLocals, Pos.counted, Pos.hasTss]
  case ltr =>
    obtain ⟨hbase, htype⟩ := hentry
    refine ⟨⟨?_, ?_, ?_, ?_, ?_⟩, ?_⟩ <;>
      simp_all [Kernel.info, Pos.status, Pos.hasLocals, Pos.counted, Pos.hasTss, EntryReady, available_tss]
  all_goals
    refine ⟨⟨?_, ?_, ?_, ?_, ?_⟩, ?_⟩ <;>
      simp_all [Kernel.info, Pos.status, Pos.hasLocals, Pos.counted, Pos.hasTss, EntryReady]

/-- A core is counted when it passes the increment, and then only. -/
theorem advance_counter (hfound : s.pos i ≠ .lost) (hfound' : (s.advance k i).pos i ≠ .lost) :
    (s.advance k i).counter = s.counter ∧ ((s.advance k i).pos i).counted = (s.pos i).counted ∨
    (s.advance k i).counter = s.counter + 1 ∧ ((s.advance k i).pos i).counted = true ∧
      (s.pos i).counted = false := by
  revert hfound'
  unfold Boot.advance
  cases hp : s.pos i <;> simp only [Boot.setPos, Boot.goOn, Boot.setStatus, Boot.setTss, Function.update_self] <;>
    intro hfound' <;> simp_all [Pos.counted]

omit [DecidableEq C] in
/-- The rule for what happens to the core that is being started. -/
theorem Sound.of_target (h : Sound k s) (hti : s.bsp.target = some i) (hunf : s.bsp.unfilled = false)
    (hbsp : s'.bsp = s.bsp) (hreported : s'.reported = s.reported)
    (hothers : ∀ j, j ≠ i → s'.pos j = s.pos j ∧ s'.gsBase j = s.gsBase j ∧ s'.tr j = s.tr j)
    (hpending : ∀ j, j ≠ i → s'.pending j = s.pending j) (hself : s.bsp.waits = false → s'.pending i = [])
    (haccess : (s'.gdt descTss).access &&& 0xF0 = 0xE0) (honway : OnWay k s' i)
    (hcounter : s'.counter = s.counter ∧ (s'.pos i).counted = (s.pos i).counted ∨
      s'.counter = s.counter + 1 ∧ (s'.pos i).counted = true ∧ (s.pos i).counted = false) : Sound k s' := by
  have htarget := h.target i hti
  refine ⟨haccess, fun j hj => ?_, fun c hc => ?_, ?_, ?_, ?_, ?_⟩
  · rw [hbsp] at hj
    have hji : j ≠ i := fun hji => hj (hji ▸ hti)
    obtain ⟨hpos, hgs, htr⟩ := hothers j hji
    obtain ⟨hpend, hplace⟩ := h.others j hj
    refine ⟨by rw [hpending j hji, hpend], ?_⟩
    rw [hpos, hgs, htr, hreported]
    exact hplace
  · rw [hbsp, hti] at hc
    obtain rfl : i = c := Option.some.inj hc
    refine ⟨htarget.notBsp, by rw [hreported]; exact htarget.fresh, ?_, fun _ => honway, ?_⟩
    · rw [hbsp, hunf]
      exact fun hcon => absurd hcon Bool.false_ne_true
    · rw [hbsp]
      exact hself
  · rw [hbsp, hreported]
    exact h.bsp
  · rw [hbsp]
    exact h.distinct
  · rw [hbsp, hreported]
    exact h.ahead
  · have hcount := h.counter
    simp only [Boot.counted, hbsp, hreported, hti] at hcount ⊢
    rcases hcounter with ⟨hsame, hcnt⟩ | ⟨hmore, hafter, hbefore⟩
    · rw [hsame, hcnt, hcount]
    · rw [hmore, hafter, hcount, hbefore]
      simp [BitVec.ofNat_add, BitVec.add_assoc]

theorem Sound.core (h : Sound k s) (i : C) : Sound k (s.advance k i) := by
  obtain ⟨hbsp, hreported, -, hpending, hothers⟩ := advance_untouched k i s
  by_cases hti : s.bsp.target = some i
  · have htarget := h.target i hti
    cases hunf : s.bsp.unfilled with
    | true =>
      have hsame : s.advance k i = s := by rw [Boot.advance, htarget.idle hunf]
      rw [hsame]
      exact h
    | false =>
      obtain ⟨honway, haccess⟩ := (htarget.onWay hunf).advance h.access
      have hcounter := advance_counter (htarget.onWay hunf).found honway.found
      exact h.of_target hti hunf hbsp hreported hothers (fun _ _ => by rw [hpending])
        (by rw [hpending]; exact htarget.pending) haccess honway hcounter
  · rw [(h.others i hti).advance]
    exact h

end Core

/-! ### A step of the launching core -/

section Bsp

variable {k : Kernel C} {s : Boot C} {c i : C} {p : BspPos C}

omit [DecidableEq C] in
/-- The launching core goes on with the same core. -/
theorem Sound.move (h : Sound k s) (htarget : p.target = s.bsp.target) (hrest : p.rest = s.bsp.rest)
    (hunf : p.unfilled = s.bsp.unfilled)
    (hpend : ∀ c, p.target = some c → p.waits = false → s.pending c = []) : Sound k { s with bsp := p } := by
  refine ⟨h.access, fun i hi => ?_, fun c hc => ?_, ?_, ?_, ?_, ?_⟩
  · obtain ⟨hpending, hplace⟩ := h.others i (by rw [← htarget]; exact hi)
    exact ⟨hpending, hplace⟩
  · obtain ⟨hnot, hfresh, hidle, honway, -⟩ := h.target c (by rw [← htarget]; exact hc)
    refine ⟨hnot, hfresh, fun hu => hidle (hunf ▸ hu), fun hu => ?_, hpend c hc⟩
    obtain ⟨h1, h2, h3, h4, h5⟩ := honway (hunf ▸ hu)
    exact ⟨h1, h2, h3, h4, h5⟩
  · change p.target ≠ _ ∧ _
    rw [htarget]
    exact h.bsp
  · change (p.target.toList ++ p.rest.map _).Nodup
    rw [htarget, hrest]
    exact h.distinct
  · change ∀ c ∈ p.rest, _
    rw [hrest]
    exact h.ahead
  · have hcount := h.counter
    simp only [Boot.counted, htarget] at hcount ⊢
    exact hcount

/-- The next core of the list. -/
theorem Sound.next {cpu : MadtCpu C} {rest : List (MadtCpu C)} (h : Sound k s) (hp : s.bsp = .next (cpu :: rest)) :
    Sound k (s.advanceBsp k) := by
  have hdistinct := h.distinct
  have hahead := h.ahead
  have hcount := h.counter
  have hothers := h.others
  simp only [hp, BspPos.target, BspPos.rest, Option.toList_none, List.nil_append, List.map_cons,
    List.nodup_cons, List.mem_cons, forall_eq_or_imp, Boot.counted] at hdistinct hahead hcount hothers
  simp only [Boot.advanceBsp, hp]
  split_ifs with hlaunch
  · obtain ⟨hpending, hplace⟩ := hothers cpu.apicId (by simp)
    have hwaiting : s.pos cpu.apicId = .waiting := by
      rcases hplace with ⟨hw, -⟩ | ⟨-, hmem, -⟩
      · exact hw
      · exact absurd hmem hahead.1
    refine ⟨h.access, fun i _ => ?_, fun c hc => ?_, ?_, ?_, hahead.2, ?_⟩
    · obtain ⟨hpend, hpl⟩ := hothers i (by simp)
      exact ⟨hpend, hpl⟩
    · obtain rfl : cpu.apicId = c := Option.some.inj hc
      exact ⟨hlaunch.1, hahead.1, fun _ => hwaiting, fun hu => absurd hu (by simp [BspPos.unfilled]),
        fun _ => hpending⟩
    · exact ⟨fun heq => hlaunch.1 (Option.some.inj heq), h.bsp.2⟩
    · simpa [BspPos.target, BspPos.rest] using hdistinct
    · simpa [Boot.counted, BspPos.target, hwaiting, Pos.counted] using hcount
  · refine ⟨h.access, fun i _ => ?_, fun c hc => ?_, ⟨?_, h.bsp.2⟩, ?_, hahead.2, ?_⟩
    · obtain ⟨hpend, hpl⟩ := hothers i (by simp)
      exact ⟨hpend, hpl⟩
    · cases hc
    · exact fun hc => by cases hc
    · simpa [BspPos.target, BspPos.rest] using hdistinct.2
    · simpa [Boot.counted, BspPos.target] using hcount

omit [DecidableEq C] in
/-- The block is filled in for a core that waits. -/
theorem onWay_waiting (hpos : s.pos c = .waiting) (hinfo : s.info = k.info) : OnWay k s c := by
  refine ⟨?_, ?_, ?_, ?_, ?_⟩ <;> simp [hpos, hinfo, Kernel.info, Pos.status, Pos.hasLocals, Pos.counted, EntryReady,
    Pos.hasTss]

theorem Sound.clear {rest : List (MadtCpu C)} (h : Sound k s) (hp : s.bsp = .clear c rest) :
    Sound k (s.advanceBsp k) := by
  obtain ⟨haccess, hothers, htarget, hbsp, hdistinct, hahead, hcount⟩ := h
  simp only [hp, BspPos.target, BspPos.rest, Boot.counted] at hothers htarget hbsp hdistinct hahead hcount
  obtain ⟨hnot, hfresh, hidle, -, hpending⟩ := htarget c rfl
  simp only [Boot.advanceBsp, hp]
  refine ⟨haccess, fun i hi => ?_, fun d hd => ?_, hbsp, hdistinct, hahead, hcount⟩
  · obtain ⟨hpend, hpl⟩ := hothers i hi
    exact ⟨hpend, hpl⟩
  · obtain rfl : c = d := Option.some.inj hd
    exact ⟨hnot, hfresh, fun _ => hidle (by rw [hp]; rfl), (fun hu => nomatch hu), fun _ => hpending (by rw [hp]; rfl)⟩

theorem Sound.fill {rest : List (MadtCpu C)} (h : Sound k s) (hp : s.bsp = .fill c rest) :
    Sound k (s.advanceBsp k) := by
  obtain ⟨haccess, hothers, htarget, hbsp, hdistinct, hahead, hcount⟩ := h
  simp only [hp, BspPos.target, BspPos.rest, Boot.counted] at hothers htarget hbsp hdistinct hahead hcount
  obtain ⟨hnot, hfresh, hidle, -, hpending⟩ := htarget c rfl
  simp only [Boot.advanceBsp, hp]
  refine ⟨haccess, fun i hi => ?_, fun d hd => ?_, hbsp, hdistinct, hahead, hcount⟩
  · obtain ⟨hpend, hpl⟩ := hothers i hi
    exact ⟨hpend, hpl⟩
  · obtain rfl : c = d := Option.some.inj hd
    have hwaiting : s.pos c = .waiting := hidle (by rw [hp]; rfl)
    exact ⟨hnot, hfresh, fun _ => hwaiting, fun _ => onWay_waiting hwaiting rfl,
      fun _ => hpending (by rw [hp]; rfl)⟩

/-- An interrupt is sent to the core that is being started. -/
theorem Sound.send {ipi : Ipi} (h : Sound k s) (htarget : s.bsp.target = some c) (hunf : s.bsp.unfilled = false)
    (hpt : p.target = some c) (hrest : p.rest = s.bsp.rest) (hpu : p.unfilled = false) (hwaits : p.waits = true) :
    Sound k { s.send c ipi with bsp := p } := by
  obtain ⟨hnot, hfresh, -, honway, -⟩ := h.target c htarget
  refine ⟨h.access, fun i hi => ?_, fun d hd => ?_, ?_, ?_, ?_, ?_⟩
  · have hic : i ≠ c := fun hic => hi (hic ▸ hpt)
    obtain ⟨hpend, hpl⟩ := h.others i (by rw [htarget]; exact fun heq => hic (Option.some.inj heq).symm)
    exact ⟨by simpa [Boot.send, hic] using hpend, hpl⟩
  · obtain rfl : c = d := Option.some.inj (hpt.symm.trans hd)
    refine ⟨hnot, hfresh, fun hu => ?_, fun _ => ?_, fun hw => ?_⟩
    · exact absurd (hpu.symm.trans hu) Bool.false_ne_true
    · obtain ⟨h1, h2, h3, h4, h5⟩ := honway hunf
      exact ⟨h1, h2, h3, h4, h5⟩
    · exact absurd (hw.symm.trans hwaits) Bool.false_ne_true
  · refine ⟨?_, h.bsp.2⟩
    change p.target ≠ _
    rw [hpt, ← htarget]
    exact h.bsp.1
  · change (p.target.toList ++ p.rest.map _).Nodup
    rw [hpt, ← htarget, hrest]
    exact h.distinct
  · change ∀ c ∈ p.rest, _
    rw [hrest]
    exact h.ahead
  · have hcount := h.counter
    simp only [Boot.counted, htarget] at hcount
    simp only [Boot.counted, Boot.send, hpt]
    exact hcount

/-- The report: the status says that the core is up, and it is. -/
theorem Sound.report {rest : List (MadtCpu C)} (h : Sound k s) (hp : s.bsp = .verdict c rest)
    (hstatus : s.info.status = 3) : Sound k { s with reported := c :: s.reported, bsp := .next rest } := by
  obtain ⟨haccess, hothers, htarget, hbsp, hdistinct, hahead, hcount⟩ := h
  simp only [hp, BspPos.target, BspPos.rest, Boot.counted, Option.toList_some, List.singleton_append,
    List.nodup_cons] at hothers htarget hbsp hdistinct hahead hcount
  obtain ⟨hnot, hfresh, -, honway, hpending⟩ := htarget c rfl
  obtain ⟨hinfo, hfound, hlocals, -, htss⟩ := honway (by rw [hp]; rfl)
  have hup : s.pos c = .up := by
    rw [hinfo] at hstatus
    revert hstatus
    cases s.pos c <;> simp [Pos.status]
  refine ⟨haccess, fun i _ => ?_, (fun d hd => nomatch hd), ⟨(fun hd => nomatch hd), ?_⟩, ?_, ?_, ?_⟩
  · by_cases hic : i = c
    · subst hic
      refine ⟨hpending (by rw [hp]; rfl), Or.inr ⟨hup, List.mem_cons_self, hlocals ?_, htss ?_⟩⟩ <;> rw [hup] <;> rfl
    · obtain ⟨hpend, hpl⟩ := hothers i fun heq => hic (Option.some.inj heq).symm
      refine ⟨hpend, ?_⟩
      simpa [hic] using hpl
  · simpa [Ne.symm hnot] using hbsp.2
  · simpa [BspPos.target, BspPos.rest] using hdistinct.2
  · intro d hd
    have hdc : d.apicId ≠ c := fun heq => hdistinct.1 (heq ▸ List.mem_map_of_mem hd)
    simpa [hdc] using hahead d hd
  · simpa [Boot.counted, BspPos.target, hup, Pos.counted] using hcount

theorem Sound.advanceBsp (h : Sound k s) (hready : s.Ready) (hclean : (s.advanceBsp k).dropped = []) :
    Sound k (s.advanceBsp k) := by
  have hpend : ∀ c, s.bsp.target = some c → s.bsp.waits = false → s.pending c = [] :=
    fun c hc => (h.target c hc).pending
  cases hp : s.bsp with
  | next cpus =>
    cases cpus with
    | nil =>
      simp only [Boot.advanceBsp, hp]
      exact h
    | cons cpu rest => exact h.next hp
  | clear c rest => exact h.clear hp
  | fill c rest => exact h.fill hp
  | sendInit c again rest =>
    simp only [Boot.advanceBsp, hp]
    exact h.send (by rw [hp]; rfl) (by rw [hp]; rfl) rfl (by rw [hp]; rfl) rfl rfl
  | waitInit c again rest =>
    simp only [Boot.advanceBsp, hp]
    rw [Boot.Ready, hp] at hready
    refine h.move (by rw [hp]; rfl) (by rw [hp]; rfl) (by rw [hp]; rfl) fun d hd _ => ?_
    obtain rfl : c = d := Option.some.inj hd
    exact hready
  | sendStartup c again rest =>
    simp only [Boot.advanceBsp, hp]
    exact h.send (by rw [hp]; rfl) (by rw [hp]; rfl) rfl (by rw [hp]; rfl) rfl rfl
  | waitStartup c again rest =>
    simp only [Boot.advanceBsp, hp]
    rw [Boot.Ready, hp] at hready
    refine h.move (by rw [hp]; rfl) (by rw [hp]; rfl) (by rw [hp]; rfl) fun d hd _ => ?_
    obtain rfl : c = d := Option.some.inj hd
    exact hready
  | poll c again rest =>
    rw [hp] at hpend
    simp only [Boot.advanceBsp, hp, Boot.drop] at hclean ⊢
    split_ifs with hstatus hagain
    · exact h.move (by rw [hp]; rfl) (by rw [hp]; rfl) (by rw [hp]; rfl) fun d hd _ => hpend d hd rfl
    · rw [if_neg hstatus, if_pos hagain] at hclean
      cases hclean
    · exact h.move (by rw [hp]; rfl) (by rw [hp]; rfl) (by rw [hp]; rfl) fun d hd _ => hpend d hd rfl
  | stuck c rest =>
    rw [hp] at hpend
    simp only [Boot.advanceBsp, hp]
    exact h.move (by rw [hp]; rfl) (by rw [hp]; rfl) (by rw [hp]; rfl) fun d hd _ => hpend d hd rfl
  | configuring c rest =>
    rw [hp] at hpend
    simp only [Boot.advanceBsp, hp]
    exact h.move (by rw [hp]; rfl) (by rw [hp]; rfl) (by rw [hp]; rfl) fun d hd _ => hpend d hd rfl
  | verdict c rest =>
    simp only [Boot.advanceBsp, hp, Boot.drop] at hclean ⊢
    split_ifs with hstatus
    · exact h.report hp hstatus
    · rw [if_neg hstatus] at hclean
      cases hclean

end Bsp

/-! ### Whole runs -/

section Runs

variable {k : Kernel C} {s s' : Boot C} {i : C}

/-- An interrupt arrives at the core that is being started; INIT finds it waiting. -/
theorem Sound.deliver {ipi : Ipi} {rest : List Ipi} (h : Sound k s) (hpending : s.pending i = ipi :: rest)
    (hinit : ipi = .init → s.pos i = .waiting) : Sound k (s.deliver i ipi rest) := by
  have hti : s.bsp.target = some i := by
    by_contra hti
    rw [(h.others i hti).pending] at hpending
    cases hpending
  obtain ⟨hnot, hfresh, hidle, honway, hpend⟩ := h.target i hti
  have hwaits : s.bsp.waits = true := by
    by_contra hw
    rw [hpend (by simpa using hw)] at hpending
    cases hpending
  have hunf : s.bsp.unfilled = false := by
    cases hp : s.bsp <;> rw [hp] at hwaits <;> first | rfl | cases hwaits
  have hway := honway hunf
  by_cases hwaiting : s.pos i = .waiting
  · have hinfo : s.info = k.info := by
      rw [hway.info, hwaiting]
      rfl
    cases ipi with
    | init =>
      refine h.of_target hti hunf rfl rfl (fun j hj => ?_) (fun j hj => ?_) (fun hw => ?_) h.access
        (onWay_waiting ?_ hinfo) (Or.inl ⟨rfl, ?_⟩)
      · simp [Boot.deliver, Boot.setPos, hj]
      · simp [Boot.deliver, Boot.setPos, hj]
      · exact absurd (hw.symm.trans hwaits) Bool.false_ne_true
      · simp [Boot.deliver, Boot.setPos]
      · simp [Boot.deliver, Boot.setPos, hwaiting]
    | startup =>
      have hstarts : s.deliver i .startup rest =
          { s with pending := Function.update s.pending i rest }.setPos i .statusStarted := by
        simp [Boot.deliver, hwaiting]
      rw [hstarts]
      refine h.of_target hti hunf rfl rfl (fun j hj => ?_) (fun j hj => ?_) (fun hw => ?_) h.access ?_
        (Or.inl ⟨rfl, ?_⟩)
      · simp [Boot.setPos, hj]
      · simp [Boot.setPos, hj]
      · exact absurd (hw.symm.trans hwaits) Bool.false_ne_true
      · refine ⟨?_, ?_, ?_, ?_, ?_⟩ <;>
          simp [Boot.setPos, hinfo, Kernel.info, Pos.status, Pos.hasLocals, Pos.counted, EntryReady, Pos.hasTss]
      · simp [Boot.setPos, hwaiting, Pos.counted]
  · cases ipi with
    | init => exact absurd (hinit rfl) hwaiting
    | startup =>
      have hignored : s.deliver i .startup rest = { s with pending := Function.update s.pending i rest } := by
        simp [Boot.deliver, hwaiting]
      rw [hignored]
      obtain ⟨h1, h2, h3, h4, h5⟩ := hway
      refine h.of_target hti hunf rfl rfl (fun _ _ => ⟨rfl, rfl, rfl⟩) (fun j hj => Function.update_of_ne hj _ _)
        (fun hw => absurd (hw.symm.trans hwaits) Bool.false_ne_true) h.access ⟨h1, h2, h3, h4, h5⟩ (Or.inl ⟨rfl, rfl⟩)

theorem step_dropped {late : Prop} (hstep : Step k late s s') (h : s'.dropped = []) : s.dropped = [] := by
  cases hstep with
  | core i _ => rwa [(advance_untouched k i s).dropped] at h
  | bsp _ =>
    revert h
    unfold Boot.advanceBsp
    cases hp : s.bsp with
    | next cpus => cases cpus <;> exact id
    | poll c again rest =>
      dsimp only
      split_ifs <;> simp [Boot.drop]
    | verdict c rest =>
      dsimp only
      split_ifs <;> simp [Boot.drop]
    | _ => exact id
  | deliver i ipi rest _ _ =>
    cases ipi with
    | init => exact h
    | startup =>
      revert h
      simp only [Boot.deliver]
      split_ifs <;> exact id

/-- Reports are only added, for the core that is being started. -/
theorem step_reported {late : Prop} (hstep : Step k late s s') :
    s'.reported = s.reported ∨ ∃ c, s.bsp.target = some c ∧ s'.reported = c :: s.reported := by
  cases hstep with
  | core i _ => exact Or.inl (advance_untouched k i s).reported
  | bsp _ =>
    unfold Boot.advanceBsp
    cases hp : s.bsp with
    | next cpus => cases cpus <;> exact Or.inl rfl
    | poll c again rest =>
      dsimp only
      split_ifs <;> exact Or.inl rfl
    | verdict c rest =>
      dsimp only
      split_ifs
      · exact Or.inr ⟨c, rfl, rfl⟩
      · exact Or.inl rfl
    | _ => exact Or.inl rfl
  | deliver i ipi rest _ _ =>
    cases ipi with
    | init => exact Or.inl rfl
    | startup =>
      simp only [Boot.deliver]
      split_ifs <;> exact Or.inl rfl

theorem start_sound (k : Kernel C) {cpus : List (MadtCpu C)} (hdistinct : (cpus.map MadtCpu.apicId).Nodup)
    (gdt : Gdt) (info : Info) : Sound k (start k cpus gdt info) := by
  refine ⟨?_, fun i _ => ⟨rfl, Or.inl ⟨rfl, List.not_mem_nil⟩⟩, (fun c hc => nomatch hc),
    ⟨(fun hc => nomatch hc), List.not_mem_nil⟩, hdistinct, fun _ _ => List.not_mem_nil, rfl⟩
  have haccess : ((start k cpus gdt info).gdt descTss).access = 0xEB := by
    simp only [start, bspGdt, gdtSetGateType, gdtSetGateBase, gdtInit, gdtSetGate, gdtSetGateAccess,
      Function.update_self]
    decide
  rw [haccess]
  decide

theorem Step.sound (h : Sound k s) (hstep : Step k False s s') (hclean : s'.dropped = []) : Sound k s' := by
  cases hstep with
  | core i _ => exact h.core i
  | bsp hready => exact h.advanceBsp hready hclean
  | deliver i ipi rest hpending hlate => exact h.deliver hpending fun hinit => by_contra (hlate hinit)

/-- For every list of cores and however the steps interleave: as long as no core was given up and INIT
has hit none that was on its way, every core that is reported is up with its own locals and its own
task state segment in the task register; at most one core is between its startup interrupt and its
report, and none reads anything from the block but what is meant for it; and in the end
`smp_boot_counter` is the number of cores that run. -/
theorem boot_reports (k : Kernel C) {cpus : List (MadtCpu C)} (hdistinct : (cpus.map MadtCpu.apicId).Nodup)
    (gdt : Gdt) (info : Info) (hrun : Reaches (Step k False) (start k cpus gdt info) s) (hclean : s.dropped = []) :
    (∀ c ∈ s.reported, s.pos c = .up ∧ s.gsBase c = k.locals c ∧ s.tr c = some (k.tss c)) ∧
    (∀ i j, (s.pos i).booting = true → (s.pos j).booting = true → i = j) ∧ (∀ i, s.pos i ≠ .lost) ∧
    (∀ i, s.pos i = .up → i ∈ s.reported ∨ s.bsp.target = some i) ∧
    (s.bsp = .next [] → s.reported.Nodup ∧ s.counter = 1 + BitVec.ofNat 8 s.reported.length) := by
  have hkept : s.dropped = [] → Sound k s ∧ s.reported.Nodup := by
    refine Reaches.invariant (fun s => s.dropped = [] → Sound k s ∧ s.reported.Nodup) (fun s s' hs hstep hnone => ?_)
      hrun fun _ => ⟨start_sound k hdistinct gdt info, List.nodup_nil⟩
    obtain ⟨hsound, honce⟩ := hs (step_dropped hstep hnone)
    refine ⟨hstep.sound hsound hnone, ?_⟩
    rcases step_reported hstep with hsame | ⟨c, hc, hmore⟩
    · rwa [hsame]
    · rw [hmore]
      exact List.nodup_cons.mpr ⟨(hsound.target c hc).fresh, honce⟩
  obtain ⟨hsound, honce⟩ := hkept hclean
  have hplace : ∀ i, s.bsp.target ≠ some i → (s.pos i).booting = false := by
    intro i hi
    rcases (hsound.others i hi).place with ⟨hpos, -⟩ | ⟨hpos, -⟩ <;> rw [hpos] <;> rfl
  have htarget : ∀ i, (s.pos i).booting = true → s.bsp.target = some i := by
    intro i hi
    by_contra hne
    rw [hplace i hne] at hi
    cases hi
  refine ⟨fun c hc => ?_, fun i j hi hj => ?_, fun i hi => ?_, fun i hi => ?_, fun hend => ⟨honce, ?_⟩⟩
  · have hne : s.bsp.target ≠ some c := fun heq => (hsound.target c heq).fresh hc
    rcases (hsound.others c hne).place with ⟨-, hnot⟩ | ⟨hup, -, hgs, htr⟩
    · exact absurd hc hnot
    · exact ⟨hup, hgs, htr⟩
  · exact Option.some.inj ((htarget i hi).symm.trans (htarget j hj))
  · have hti := htarget i (by rw [hi]; rfl)
    cases hunf : s.bsp.unfilled with
    | true =>
      rw [(hsound.target i hti).idle hunf] at hi
      cases hi
    | false => exact ((hsound.target i hti).onWay hunf).found hi
  · by_cases hti : s.bsp.target = some i
    · exact Or.inr hti
    · rcases (hsound.others i hti).place with ⟨hpos, -⟩ | ⟨-, hmem, -⟩
      · rw [hi] at hpos
        cases hpos
      · exact Or.inl hmem
  · have hcount := hsound.counter
    simpa [Boot.counted, hend, BspPos.target] using hcount

theorem Reaches.cores {late : Prop} (hi : i ≠ k.bsp) (n : ℕ) (s : Boot C) :
    Reaches (Step k late) s ((fun s => s.advance k i)^[n] s) := by
  induction n generalizing s with
  | zero => exact .refl
  | succ n ih => exact (ih (s.advance k i)).head (.core i hi)

end Runs

/-- Two cores; `false` launches. -/
def twoKernel : Kernel Bool := ⟨false, 0x5000, 0x101000, fun i => if i then 0x1200000 else 0x110000⟩

def noEntries : Gdt := fun _ => ⟨0, 0, 0, 0, 0, 0, 0⟩

/-- Before the launch, with both cores in the list. -/
def twoStart : Boot Bool := start twoKernel [⟨false, 1⟩, ⟨true, 1⟩] noEntries Info.zero

/-- The other core is through before the first look at the status. -/
theorem boot_reports_two : ∃ s : Boot Bool, Reaches (Step twoKernel False) twoStart s ∧ s.bsp = .next [] ∧
    s.tr true = some 0x1200818 ∧ s.counter = 2 := by
  have hbsp : ∀ s : Boot Bool, s.Ready → Step twoKernel False s (s.advanceBsp twoKernel) := fun _ h => .bsp h
  have hwaits : Reaches (Step twoKernel False) twoStart _ :=
    .head (hbsp _ trivial) <| .head (hbsp _ trivial) <| .head (hbsp _ trivial) <| .head (hbsp _ trivial) <|
    .head (hbsp _ trivial) <| .head (.deliver true .init [] rfl fun _ h => absurd rfl h) <| .head (hbsp _ rfl) <|
    .head (hbsp _ trivial) <| .single (.deliver true .startup [] rfl fun h => nomatch h)
  have hup := hwaits.trans (Reaches.cores (i := true) Bool.noConfusion 21 _)
  have hend := hup.trans (.head (hbsp _ rfl) <| .head (hbsp _ trivial) <| .head (hbsp _ trivial) <|
    .head (hbsp _ trivial) <| .single (hbsp _ trivial))
  obtain ⟨hreported, -, -, -, hcount⟩ := boot_reports twoKernel (by decide) noEntries Info.zero hend rfl
  refine ⟨_, hend, rfl, ?_, ?_⟩
  · exact (hreported true (List.mem_singleton_self true)).2.2
  · exact (hcount rfl).2

/-- The status is not taken back before the second try. A core that starts just after the first look and
is through when the second INIT stops it is reported by the status it had. -/
theorem late_report : ∃ s : Boot Bool, Reaches (Step twoKernel True) twoStart s ∧ s.dropped = [] ∧
    true ∈ s.reported ∧ s.pos true = .statusStarted := by
  have hbsp : ∀ s : Boot Bool, s.Ready → Step twoKernel True s (s.advanceBsp twoKernel) := fun _ h => .bsp h
  have hagain : Reaches (Step twoKernel True) twoStart _ :=
    .head (hbsp _ trivial) <| .head (hbsp _ trivial) <| .head (hbsp _ trivial) <| .head (hbsp _ trivial) <|
    .head (hbsp _ trivial) <| .head (.deliver true .init [] rfl fun _ _ => trivial) <| .head (hbsp _ rfl) <|
    .head (hbsp _ trivial) <| .head (.deliver true .startup [] rfl fun _ _ => trivial) <| .head (hbsp _ rfl) <|
    .head (hbsp _ trivial) <| .single (hbsp _ trivial)
  have hup := hagain.trans (Reaches.cores (i := true) Bool.noConfusion 21 _)
  have hend := hup.trans (.head (.deliver true .init [] rfl fun _ _ => trivial) <| .head (hbsp _ rfl) <|
    .head (hbsp _ trivial) <| .head (.deliver true .startup [] rfl fun _ _ => trivial) <| .head (hbsp _ rfl) <|
    .head (hbsp _ trivial) <| .head (hbsp _ trivial) <| .head (hbsp _ trivial) <| .single (hbsp _ trivial))
  exact ⟨_, hend, rfl, List.mem_singleton_self true, rfl⟩

end JustKernel.SmpBoot
