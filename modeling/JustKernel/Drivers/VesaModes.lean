import JustKernel.Base.FirstLeast
import JustKernel.Drivers.ConsoleBounds
import JustKernel.Proc.V86Calls
import Mathlib.Data.Prod.Lex

/-! The choice of a video mode in `drivers/vesa.c`. The firmware is asked through virtual-8086
calls which modes there are; it answers in blocks of low memory, one mode at a time, and its list
of modes lies in memory of its own up to an end mark. The kernel puts each mode that it can draw in
before the ones it has, so that its list is the firmware's in the other direction, and scans that
list for the largest one. The firmware is a parameter: any function of the registers, of memory and
of a state of its own. -/

namespace JustKernel.Vesa

open Memory V86 Screen FirstLeast

/-! ### Records -/

/-- `vesa_video_mode_t` without its link. -/
structure VideoMode extends Mode where
  mode : BitVec 16
  fb : ℕ

/-- The fields of `vbe_mode_info_t` that the kernel reads. -/
structure ModeInfo where
  attributes : ℕ
  pitch : ℕ
  width : ℕ
  height : ℕ
  bpp : ℕ
  memoryModel : ℕ
  redMask : ℕ
  redPosition : ℕ
  greenMask : ℕ
  greenPosition : ℕ
  blueMask : ℕ
  bluePosition : ℕ
  reservedMask : ℕ
  reservedPosition : ℕ
  framebuffer : ℕ

/-- Where `vbe_info_t` and `vbe_mode_info_t` lie. -/
def infoBlock : ℕ := 0xD000

def modeInfoBlock : ℕ := 0xE000

/-- `mode_info`, as it lies in memory. -/
def readModeInfo (m : Mem) : ModeInfo where
  attributes := read16 m modeInfoBlock
  pitch := read16 m (modeInfoBlock + 16)
  width := read16 m (modeInfoBlock + 18)
  height := read16 m (modeInfoBlock + 20)
  bpp := (m (modeInfoBlock + 25)).toNat
  memoryModel := (m (modeInfoBlock + 27)).toNat
  redMask := (m (modeInfoBlock + 31)).toNat
  redPosition := (m (modeInfoBlock + 32)).toNat
  greenMask := (m (modeInfoBlock + 33)).toNat
  greenPosition := (m (modeInfoBlock + 34)).toNat
  blueMask := (m (modeInfoBlock + 35)).toNat
  bluePosition := (m (modeInfoBlock + 36)).toNat
  reservedMask := (m (modeInfoBlock + 37)).toNat
  reservedPosition := (m (modeInfoBlock + 38)).toNat
  framebuffer := read32 m (modeInfoBlock + 40)

/-- A linear framebuffer and graphics, packed pixels or direct colour. -/
def ModeInfo.Supported (info : ModeInfo) : Prop :=
  info.attributes &&& 0x90 = 0x90 ∧ (info.memoryModel = 4 ∨ info.memoryModel = 6)

instance (info : ModeInfo) : Decidable info.Supported :=
  inferInstanceAs (Decidable (_ ∧ (_ ∨ _)))

/-- `(1 << size) - 1` in a byte. -/
def colorMask (size : ℕ) : ℕ := (2 ^ (size % 32) - 1) % 256

/-- The record of a supported mode. The memory model is not zero there, so that the mode is a
graphics mode. -/
def videoMode (mode : BitVec 16) (info : ModeInfo) : VideoMode where
  mode := mode
  fb := info.framebuffer
  fbType := .graphic
  fbSize := info.pitch * info.height
  width := info.width
  height := info.height
  pitch := info.pitch
  bpp := info.bpp
  rMask := colorMask info.redMask
  rPos := info.redPosition
  gMask := colorMask info.greenMask
  gPos := info.greenPosition
  bMask := colorMask info.blueMask
  bPos := info.bluePosition
  aMask := colorMask info.reservedMask
  aPos := info.reservedPosition

/-! ### Calls -/

/-- An interrupt of the firmware: its number and registers, the memory and the firmware's own
state, and what they are when it returns. -/
abbrev Bios (F : Type*) := Byte → Ctx → Mem × F → Ctx × (Mem × F)

/-- Memory and firmware, the list of modes from its head on, the current mode, and the framebuffers
that `vmm_map` was asked to map onto themselves with their numbers of pages, the last one first. -/
structure State (F : Type*) where
  world : Mem × F
  modes : List VideoMode
  current : VideoMode
  mapped : List (ℕ × ℕ)

section Model

variable {F : Type*} (bios : Bios F)

/-- A record of calls has zeros where it is not initialised. -/
def emptyCtx : Ctx := ⟨0, 0, 0, 0, 0, 0, 0, 0⟩

/-- The interrupt of the video firmware. -/
def videoInt : Byte := 0x10

/-- The call was understood and done. -/
def Succeeded (ctx : Ctx) : Prop := ctx.ax = 0x004F

instance (ctx : Ctx) : Decidable (Succeeded ctx) := inferInstanceAs (Decidable (_ = _))

def infoCtx : Ctx := { emptyCtx with ax := 0x4F00, si := 0, di := 0xD000 }

def modeInfoCtx (mode : BitVec 16) : Ctx := { emptyCtx with ax := 0x4F01, cx := mode, si := 0, di := 0xE000 }

def setModeCtx (mode : BitVec 16) : Ctx := { emptyCtx with ax := 0x4F02, bx := mode }

/-- `_vesa_get_info`. -/
def getInfo (s : State F) : Bool × State F :=
  let (ctx, world) := bios videoInt infoCtx s.world
  (Succeeded ctx, { s with world := world })

/-- `_vesa_get_mode_info`. -/
def getModeInfo (mode : BitVec 16) (s : State F) : Bool × State F :=
  let (ctx, world) := bios videoInt (modeInfoCtx mode) s.world
  (Succeeded ctx, { s with world := world })

/-- `_vesa_set_mode`. -/
def setMode (mode : BitVec 16) (s : State F) : Bool × State F :=
  let (ctx, world) := bios videoInt (setModeCtx (mode &&& ~~~0x800)) s.world
  (Succeeded ctx, { s with world := world })

/-! ### The list of modes -/

def v86Farptr2linear (fp : BitVec 32) : ℕ := fpToLinear (fp >>> 16) (fp &&& 0xFFFF)

/-- `modes[i]`. -/
def modeAt (modes i : ℕ) (s : State F) : BitVec 16 := readWord16 s.world.1 ((modes + 2 * i) % 2 ^ 32)

/-- The loop of `vesa_init` from `i` on. -/
def initLoop (modes : ℕ) : ℕ → ℕ → State F → Option (State F)
  | 0, _, _ => none
  | n + 1, i, s =>
    if modeAt modes i s = 0xFFFF then some s
    else
      let (answered, s) := getModeInfo bios (modeAt modes i s) s
      let info := readModeInfo s.world.1
      if answered ∧ info.Supported then
        initLoop modes n ((i + 1) % 2 ^ 32) { s with modes := videoMode (modeAt modes i s) info :: s.modes }
      else initLoop modes n ((i + 1) % 2 ^ 32) s

/-- `memset` of the block for the answer, and the signature that asks for the second version. -/
def prepareInfo (m : Mem) : Mem :=
  write32 (fun a => if infoBlock ≤ a ∧ a < infoBlock + 512 then 0 else m a) infoBlock 0x32454256

def vesaInit (fuel : ℕ) (s : State F) : Option (State F) :=
  let (supported, s) := getInfo bios { s with world := (prepareInfo s.world.1, s.world.2) }
  if supported then
    initLoop bios (v86Farptr2linear (BitVec.ofNat 32 (read32 s.world.1 (infoBlock + 14)))) fuel 0 s
  else some s

/-- `vesa_find_mode`. -/
def vesaFindMode (width height bpp : ℕ) : List VideoMode → Option VideoMode
  | [] => none
  | mode :: rest =>
    if mode.width = width ∧ mode.height = height ∧ mode.bpp = bpp then some mode
    else vesaFindMode width height bpp rest

/-- `ALIGN(fb_size) / PAGE_SIZE`. -/
def fbPages (mode : VideoMode) : ℕ := (mode.fbSize + 4095) % 2 ^ 32 / 4096

def vesaSetMode (mode : Option VideoMode) (s : State F) : State F :=
  match mode with
  | none => s
  | some mode =>
    let (done, s) := setMode bios (mode.mode ||| 0x4000) s
    if done then { s with current := mode, mapped := (mode.fb, fbPages mode) :: s.mapped } else s

/-- The condition of `vesa_switch_to_best_mode`. -/
def Better (mode best : VideoMode) : Prop :=
  best.width < mode.width ∨ mode.width = best.width ∧ best.height < mode.height ∨
    mode.width = best.width ∧ mode.height = best.height ∧ best.bpp < mode.bpp

instance (mode best : VideoMode) : Decidable (Better mode best) :=
  inferInstanceAs (Decidable (_ ∨ _ ∧ _ ∨ _ ∧ _ ∧ _))

/-- The loop of `vesa_switch_to_best_mode`. -/
def bestMode (modes : List VideoMode) : Option VideoMode :=
  modes.head?.map fun first => modes.foldl (fun best mode => if Better mode best then mode else best) first

def vesaSwitchToBestMode (s : State F) : State F := vesaSetMode bios (bestMode s.modes) s

end Model

/-! ### The scans -/

/-- Width before height before depth. -/
def size (mode : VideoMode) : ℕ ×ₗ ℕ ×ₗ ℕ := toLex (mode.width, toLex (mode.height, mode.bpp))

section Scan

variable {l r : List VideoMode} {a b : VideoMode}

theorem better_iff : Better a b ↔ size b < size a := by
  simp only [Better, size, Prod.Lex.toLex_lt_toLex]
  omega

/-- A part of the list behind the one that has been scanned. -/
theorem best_foldl (h : Best (fun _ => True) (fun m => OrderDual.toDual (size m)) l (some b)) :
    Best (fun _ => True) (fun m => OrderDual.toDual (size m)) (l ++ r)
      (some (r.foldl (fun best mode => if Better mode best then mode else best) b)) := by
  induction r generalizing l b with
  | nil => simpa using h
  | cons c r ih =>
    rw [List.foldl_cons, List.append_cons]
    apply ih
    split_ifs with hc
    · apply h.replace trivial
      rintro _ ⟨rfl⟩
      exact OrderDual.toDual_lt_toDual.mpr (better_iff.mp hc)
    · apply h.keep
      exact OrderDual.toDual_le_toDual.mpr (not_lt.mp fun hlt => hc (better_iff.mpr hlt))

/-- The scan holds the first of the largest modes. -/
theorem bestMode_best (l : List VideoMode) :
    Best (fun _ => True) (fun m => OrderDual.toDual (size m)) l (bestMode l) := by
  cases l with
  | nil => exact best_nil
  | cons first l =>
    have hself : ¬Better first first := fun h => lt_irrefl _ (better_iff.mp h)
    have hone : Best (fun _ => True) (fun m => OrderDual.toDual (size m)) ([] ++ [first]) (some first) :=
      best_nil.replace trivial (by simp)
    simpa [bestMode, hself] using best_foldl (r := l) hone

/-- In the firmware's order the best mode is the last of the largest. -/
theorem bestMode_reverse (hl : bestMode l.reverse = some a) : ∃ earlier later, l = earlier ++ a :: later ∧
    (∀ m ∈ earlier, size m ≤ size a) ∧ ∀ m ∈ later, size m < size a := by
  obtain ⟨before, after, hsplit, hbefore, hafter⟩ := ((bestMode_best l.reverse).least a hl).first
  refine ⟨after.reverse, before.reverse, ?_, ?_, ?_⟩
  · rw [← List.reverse_reverse l, hsplit]
    simp
  · exact fun m hm => OrderDual.toDual_le_toDual.mp (hafter m (List.mem_reverse.mp hm) trivial)
  · exact fun m hm => OrderDual.toDual_lt_toDual.mp (hbefore m (List.mem_reverse.mp hm) trivial)

/-- `vesa_find_mode` finds the first mode of this size in the list. -/
theorem vesaFindMode_first {width height bpp : ℕ} (hl : vesaFindMode width height bpp l = some a) :
    First (fun m => m.width = width ∧ m.height = height ∧ m.bpp = bpp) l a := by
  induction l with
  | nil => cases hl
  | cons b l ih =>
    rw [vesaFindMode] at hl
    split_ifs at hl with hb
    · obtain rfl : b = a := by simpa using hl
      exact first_cons_self hb
    · exact (ih hl).cons hb

end Scan

/-! ### The firmware -/

/-- The list of modes in memory with its end mark. -/
structure Listed (m : Mem) (modes : ℕ) (nums : List (BitVec 16)) : Prop where
  bound : modes + 2 * nums.length + 2 ≤ 2 ^ 32
  num : ∀ i (hi : i < nums.length), readWord16 m (modes + 2 * i) = nums[i]
  mark : readWord16 m (modes + 2 * nums.length) = 0xFFFF
  ne_mark : ∀ n ∈ nums, n ≠ 0xFFFF

/-- What the calls of the firmware promise: the list of modes lies where the first block says and
stays as it is, and `answer` is what is said of a mode, each time it is asked for. -/
structure Firmware {F : Type*} (bios : Bios F) (answer : BitVec 16 → Option ModeInfo) (modes : ℕ)
    (nums : List (BitVec 16)) : Prop where
  info : ∀ world, Succeeded (bios videoInt infoCtx world).1 →
    v86Farptr2linear (BitVec.ofNat 32 (read32 (bios videoInt infoCtx world).2.1 (infoBlock + 14))) = modes ∧
      Listed (bios videoInt infoCtx world).2.1 modes nums
  listed : ∀ mode world, Listed world.1 modes nums → Listed (bios videoInt (modeInfoCtx mode) world).2.1 modes nums
  answered : ∀ mode world, Listed world.1 modes nums →
    (Succeeded (bios videoInt (modeInfoCtx mode) world).1 ↔ (answer mode).isSome)
  modeInfo : ∀ mode world info, Listed world.1 modes nums → answer mode = some info →
    readModeInfo (bios videoInt (modeInfoCtx mode) world).2.1 = info

/-- The modes that the kernel can draw in, in the firmware's order. -/
def drawable (answer : BitVec 16 → Option ModeInfo) (nums : List (BitVec 16)) : List VideoMode :=
  nums.filterMap fun mode => (answer mode).bind fun info =>
    if info.Supported then some (videoMode mode info) else none

section Init

variable {F : Type*} {bios : Bios F} {answer : BitVec 16 → Option ModeInfo} {modes : ℕ}
  {nums done rest : List (BitVec 16)} {s : State F}

theorem Listed.modeAt_eq {mode : BitVec 16} (hs : Listed s.world.1 modes (done ++ mode :: rest)) :
    modeAt modes done.length s = mode := by
  have hlen : done.length < (done ++ mode :: rest).length := by simp
  have hbound := hs.bound
  rw [modeAt, Nat.mod_eq_of_lt (by omega), hs.num done.length hlen]
  simp

theorem Listed.modeAt_mark (hs : Listed s.world.1 modes nums) : modeAt modes nums.length s = 0xFFFF := by
  have hbound := hs.bound
  rw [modeAt, Nat.mod_eq_of_lt (by omega), hs.mark]

/-- From the place in the list on: each mode that can be drawn in comes before those there are. -/
theorem initLoop_spec (hf : Firmware bios answer modes (done ++ rest))
    (hs : Listed s.world.1 modes (done ++ rest)) :
    ∃ t, initLoop bios modes (rest.length + 1) done.length s = some t ∧
      t.modes = (drawable answer rest).reverse ++ s.modes ∧ t.current = s.current ∧ t.mapped = s.mapped := by
  induction rest generalizing done s with
  | nil =>
    rw [List.append_nil] at hs
    use s
    simp [initLoop, hs.modeAt_mark, drawable]
  | cons mode rest ih =>
    have hne : mode ≠ 0xFFFF := hs.ne_mark mode (by simp)
    have hbound := hs.bound
    have hi : (done.length + 1) % 2 ^ 32 = done.length + 1 := by
      simp only [List.length_append, List.length_cons] at hbound
      omega
    have hlen : (done ++ [mode]).length = done.length + 1 := by simp
    have hsplit : done ++ mode :: rest = (done ++ [mode]) ++ rest := by simp
    have hnext := hf.listed mode s.world hs
    have hanswered := hf.answered mode s.world hs
    have hinfo := fun info => hf.modeInfo mode s.world info hs
    rw [List.length_cons, initLoop, hs.modeAt_eq, if_neg hne]
    simp only [getModeInfo, hi]
    generalize bios videoInt (modeInfoCtx mode) s.world = reply at hnext hanswered hinfo
    obtain ⟨ctx, world⟩ := reply
    have hmode : modeAt modes done.length { s with world := world } = mode := hnext.modeAt_eq
    rw [hsplit] at hf hnext
    cases hask : answer mode with
    | none =>
      have hrefused : ¬Succeeded ctx := by simpa [hask] using hanswered
      obtain ⟨t, ht, hmodes, hcurrent, hmapped⟩ := @ih (done ++ [mode]) { s with world := world } hf hnext
      rw [hlen] at ht
      use t
      simpa [hrefused, drawable, hask, hcurrent, hmapped] using ⟨ht, hmodes⟩
    | some info =>
      have hax : Succeeded ctx := by simpa [hask] using hanswered
      have hread : readModeInfo world.1 = info := hinfo info hask
      by_cases hsup : info.Supported
      · obtain ⟨t, ht, hmodes, hcurrent, hmapped⟩ := @ih (done ++ [mode])
          { s with world := world, modes := videoMode mode info :: s.modes } hf hnext
        rw [hlen] at ht
        use t
        simpa [hax, hread, hsup, drawable, hask, hcurrent, hmapped, hmode] using ⟨ht, hmodes⟩
      · obtain ⟨t, ht, hmodes, hcurrent, hmapped⟩ := @ih (done ++ [mode]) { s with world := world } hf hnext
        rw [hlen] at ht
        use t
        simpa [hax, hread, hsup, drawable, hask, hcurrent, hmapped] using ⟨ht, hmodes⟩

/-- The calls of the set-up and their outcome. -/
theorem vesaInit_spec (hf : Firmware bios answer modes nums) (hs : s.modes = []) :
    ∃ fuel t, vesaInit bios fuel s = some t ∧ t.current = s.current ∧ t.mapped = s.mapped ∧
      t.modes = if Succeeded (bios videoInt infoCtx (prepareInfo s.world.1, s.world.2)).1
        then (drawable answer nums).reverse else [] := by
  have hinfo := hf.info (prepareInfo s.world.1, s.world.2)
  use nums.length + 1
  by_cases hax : Succeeded (bios videoInt infoCtx (prepareInfo s.world.1, s.world.2)).1
  · obtain ⟨hptr, hlisted⟩ := hinfo hax
    obtain ⟨t, ht, hmodes, hcurrent, hmapped⟩ := @initLoop_spec F bios answer modes [] nums
      { s with world := (bios videoInt infoCtx (prepareInfo s.world.1, s.world.2)).2 } hf hlisted
    use t
    rw [hs] at ht
    rw [hs, List.append_nil] at hmodes
    simpa [vesaInit, getInfo, hax, hptr, hcurrent, hmapped, hs] using ⟨ht, hmodes⟩
  · use { s with world := (bios videoInt infoCtx (prepareInfo s.world.1, s.world.2)).2 }
    simp [vesaInit, getInfo, hax, hs]

/-- The pages that are mapped hold the framebuffer. -/
theorem fbPages_ge {world : Mem × F} {mode : VideoMode} (hf : Firmware bios answer modes nums)
    (hw : Listed world.1 modes nums) (hmem : mode ∈ drawable answer nums) :
    mode.fbSize ≤ 4096 * fbPages mode := by
  obtain ⟨n, -, hn⟩ := List.mem_filterMap.mp hmem
  obtain ⟨info, hask, hmode⟩ := Option.bind_eq_some_iff.mp hn
  split_ifs at hmode
  obtain rfl : videoMode n info = mode := by simpa using hmode
  obtain rfl := hf.modeInfo n world info hw hask
  generalize (bios videoInt (modeInfoCtx n) world).2.1 = m
  have hp := read16_lt m (modeInfoBlock + 16)
  have hh := read16_lt m (modeInfoBlock + 20)
  have hsize : (readModeInfo m).pitch * (readModeInfo m).height ≤ 65535 * 65535 :=
    Nat.mul_le_mul (Nat.le_of_lt_succ hp) (Nat.le_of_lt_succ hh)
  simp only [fbPages, videoMode]
  omega

/-- For every firmware: what `vesa_init` and `vesa_switch_to_best_mode` come to. When VBE is not
there, or none of the modes can be drawn in, nothing is asked for and the mode stays. Otherwise one
mode is asked for, with a linear framebuffer; none of the others is larger, and those that the
firmware has listed after it are smaller. It becomes the current mode, and its framebuffer is
mapped, just when the firmware agrees. -/
theorem best_mode_set (hf : Firmware bios answer modes nums) (s : State F) (hs : s.modes = []) :
    ∃ fuel t, vesaInit bios fuel s = some t ∧ t.current = s.current ∧ t.mapped = s.mapped ∧
      let supported := Succeeded (bios videoInt infoCtx (prepareInfo s.world.1, s.world.2)).1
      ((¬supported ∨ drawable answer nums = []) ∧ vesaSwitchToBestMode bios t = t ∨
        supported ∧ ∃ earlier best later, drawable answer nums = earlier ++ best :: later ∧
          (∀ m ∈ earlier, size m ≤ size best) ∧ (∀ m ∈ later, size m < size best) ∧
          best.fbSize ≤ 4096 * fbPages best ∧
          let reply := bios videoInt (setModeCtx ((best.mode ||| 0x4000) &&& ~~~0x800)) t.world
          vesaSwitchToBestMode bios t =
            if Succeeded reply.1 then
              { t with world := reply.2, current := best, mapped := (best.fb, fbPages best) :: t.mapped }
            else { t with world := reply.2 }) := by
  obtain ⟨fuel, t, ht, hcurrent, hmapped, hmodes⟩ := vesaInit_spec hf hs
  refine ⟨fuel, t, ht, hcurrent, hmapped, ?_⟩
  intro supported
  cases hbest : bestMode t.modes with
  | none =>
    left
    have hnil : t.modes = [] := by simpa [bestMode] using hbest
    rw [hnil] at hmodes
    constructor
    · by_cases hsup : supported
      · right
        simpa [supported, hsup] using hmodes.symm
      · exact Or.inl hsup
    · rw [vesaSwitchToBestMode, hbest, vesaSetMode]
  | some best =>
    right
    have hsup : supported := by
      by_contra hsup
      simp [supported, hsup] at hmodes
      simp [hmodes, bestMode] at hbest
    rw [if_pos hsup] at hmodes
    rw [hmodes] at hbest
    obtain ⟨earlier, later, hsplit, hearlier, hlater⟩ := bestMode_reverse hbest
    refine ⟨hsup, earlier, best, later, hsplit, hearlier, hlater, ?_, ?_⟩
    · exact fbPages_ge hf (hf.info _ hsup).2 (hsplit ▸ by simp)
    · intro reply
      simp only [vesaSwitchToBestMode, hmodes, hbest, vesaSetMode, setMode, reply, decide_eq_true_eq]

end Init

/-! ### A firmware with one mode -/

/-- Bytes put over memory from `base` on. -/
def overlay (m : Mem) (base : ℕ) (bytes : List Byte) : Mem :=
  fun a => if base ≤ a ∧ a < base + bytes.length then bytes.getD (a - base) 0 else m a

/-- A list of one mode at `C000:0000`, 1024 by 768 with 32 bits to the pixel. -/
def oneModeBios : Bios Unit := fun _ ctx world =>
  let mem :=
    if ctx.ax = 0x4F00 then
      overlay (overlay world.1 (infoBlock + 14) [0x00, 0x00, 0x00, 0xC0]) 0xC0000 [0x18, 0x01, 0xFF, 0xFF]
    else if ctx.ax = 0x4F01 then
      overlay world.1 modeInfoBlock [0x90, 0, 0, 0, 0, 0, 0, 0, 0, 0, 0, 0, 0, 0, 0, 0, 0x00, 0x10, 0x00, 0x04,
        0x00, 0x03, 0, 0, 1, 32, 0, 6, 0, 0, 0, 8, 16, 8, 8, 8, 0, 8, 24, 0, 0x00, 0x00, 0x00, 0xE0]
    else world.1
  ({ ctx with ax := 0x004F }, (mem, ()))

def oneModeInfo : ModeInfo := ⟨0x90, 4096, 1024, 768, 32, 6, 8, 16, 8, 8, 8, 0, 8, 24, 0xE0000000⟩

theorem overlay_of_not_mem {m : Mem} {base a n : ℕ} {bytes : List Byte}
    (h : a + n ≤ base ∨ base + bytes.length ≤ a) :
    load (overlay m base bytes) a n = load m a n := by
  apply load_congr
  intro x h1 h2
  rw [overlay, if_neg (by omega)]

theorem firmware_oneModeBios : Firmware oneModeBios (fun _ => some oneModeInfo) 0xC0000 [0x0118] := by
  constructor
  · rintro ⟨m, -⟩ -
    have hptr : read32 (oneModeBios videoInt infoCtx (m, ())).2.1 (infoBlock + 14) = 0xC0000000 := by
      simp [oneModeBios, infoCtx, emptyCtx, overlay, load, infoBlock]
    rw [hptr]
    refine ⟨by decide, by simp, ?_, ?_, by simp⟩
    · intro i hi
      obtain rfl : i = 0 := by simpa using hi
      simp [oneModeBios, infoCtx, emptyCtx, overlay, load, infoBlock, readWord16]
    · simp [oneModeBios, infoCtx, emptyCtx, overlay, load, infoBlock, readWord16]
  · rintro mode ⟨m, u⟩ hlisted
    -- the block for the answer lies below the list
    have hsame : ∀ a, 0xC0000 ≤ a →
        readWord16 (oneModeBios videoInt (modeInfoCtx mode) (m, ())).2.1 a = readWord16 m a := by
      intro a ha
      have hask : ¬(modeInfoCtx mode).ax = 0x4F00 := by simp [modeInfoCtx]
      have hansw : (modeInfoCtx mode).ax = 0x4F01 := rfl
      simp only [oneModeBios, readWord16, if_neg hask, if_pos hansw]
      rw [read16, overlay_of_not_mem]
      right
      simp only [List.length_cons, List.length_nil, modeInfoBlock]
      omega
    obtain ⟨hbound, hnum, hmark, hne⟩ := hlisted
    refine ⟨hbound, fun i hi => ?_, ?_, hne⟩
    · rw [hsame _ (by omega), hnum i hi]
    · rw [hsame _ (by omega), hmark]
  · simp [oneModeBios, Succeeded]
  · rintro mode ⟨m, -⟩ info - hinfo
    obtain rfl : oneModeInfo = info := by simpa using hinfo
    simp [oneModeBios, modeInfoCtx, emptyCtx, overlay, load, modeInfoBlock, readModeInfo, oneModeInfo]

/-- The one mode is asked for and becomes the current one. -/
theorem best_mode_set_one :
    ∃ fuel t, vesaInit oneModeBios fuel ⟨(fun _ => 0, ()), [], videoMode 0 oneModeInfo, []⟩ = some t ∧
      (vesaSwitchToBestMode oneModeBios t).current = videoMode 0x0118 oneModeInfo := by
  obtain ⟨fuel, t, ht, -, -, hcases⟩ :=
    best_mode_set firmware_oneModeBios ⟨(fun _ => 0, ()), [], videoMode 0 oneModeInfo, []⟩ rfl
  have hdraw : drawable (fun _ => some oneModeInfo) [0x0118] = [videoMode 0x0118 oneModeInfo] := by
    have hsup : oneModeInfo.Supported := by decide
    simp [drawable, hsup]
  use fuel, t, ht
  rw [hdraw] at hcases
  rcases hcases with ⟨hno | hnil, -⟩ | ⟨-, earlier, best, later, hsplit, -, -, -, hset⟩
  · exact absurd rfl hno
  · cases hnil
  · have hbest : best = videoMode 0x0118 oneModeInfo := by
      have hmem : best ∈ [videoMode 0x0118 oneModeInfo] := hsplit ▸ by simp
      simpa using hmem
    have hdone : ∀ mode world, Succeeded (oneModeBios videoInt (setModeCtx mode) world).1 := fun _ _ => rfl
    rw [hset, if_pos (hdone _ _), hbest]

end JustKernel.Vesa
