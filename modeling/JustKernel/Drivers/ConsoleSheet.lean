import JustKernel.Base.Raster
import JustKernel.Drivers.ConsoleBounds
import JustKernel.Drivers.ScreenScroll

/-! What the console shows. Characters are typed on a sheet that has no end: each strikes a shape
of eight by eight, over what is there already, and no line ever leaves the sheet. The screen is a
window on its last lines. For that a symbol must not stand out on the right, where the bytes of
a row go over into the next one, and the fill of `vesa_scroll`, which starts at the tenth row
from below, must not reach up into the last line. It does in every mode with more than one line
whose height is one to seven rows more than a multiple of ten, 1024 for one. -/

namespace JustKernel.Screen

open Memory (Byte)
open Raster

/-- `y` is the first row of the line that is typed on. Where nothing has been struck there is no
ink, light or dark. -/
structure Sheet where
  x : ℕ
  y : ℕ
  ink : ℕ → ℕ → Option Bool

namespace Sheet

def blank : Sheet := ⟨0, 0, fun _ _ => none⟩

/-- Whether a symbol of `font8x8_basic` has a pixel there. -/
def shape (data : ℕ → Byte) (c : BitVec 8) (ix iy : ℕ) : Bool := (data (c.toNat * 8 + iy)).getLsbD ix

/-- The cell of eight by eight at a place. -/
def Cell (x₀ y₀ x y : ℕ) : Prop := (x₀ ≤ x ∧ x < x₀ + 8) ∧ y₀ ≤ y ∧ y < y₀ + 8

instance (x₀ y₀ x y : ℕ) : Decidable (Cell x₀ y₀ x y) := inferInstanceAs (Decidable (_ ∧ _))

def strike (data : ℕ → Byte) (c : BitVec 8) (p : Sheet) : Sheet :=
  { p with ink := fun x y => if Cell p.x p.y x y then some (shape data c (x - p.x) (y - p.y)) else p.ink x y }

/-- A character, without the end of the line. -/
def typeChar (data : ℕ → Byte) (c : BitVec 8) (p : Sheet) : Sheet :=
  if c = chBackspace then
    if p.x ≠ 0 then strike data chSpace { p with x := p.x - 10 } else p
  else if c = chTab then { p with x := p.x + (4 - p.x % 4) }
  else if c = chNewline then { p with x := 0, y := p.y + 10 }
  else if c = chReturn then { p with x := 0 }
  else if chSpace.sle c then { strike data c p with x := p.x + 10 }
  else p

def wrap (width : ℕ) (p : Sheet) : Sheet := if width ≤ p.x then { p with x := 0, y := p.y + 10 } else p

def type (data : ℕ → Byte) (width : ℕ) (p : Sheet) (c : BitVec 8) : Sheet := wrap width (typeChar data c p)

/-- A symbol stays on the sheet on both sides. -/
def Fits (width : ℕ) (p : Sheet) (c : BitVec 8) : Prop :=
  (c = chBackspace → p.x = 0 ∨ 10 ≤ p.x) ∧ (chSpace.sle c → p.x + 8 ≤ width)

/-- All of a text does. -/
def FitsAll (data : ℕ → Byte) (width : ℕ) : Sheet → List (BitVec 8) → Prop
  | _, [] => True
  | p, c :: text => p.Fits width c ∧ FitsAll data width (p.type data width c) text

end Sheet

/-- The loop of `screen_puts` over the characters in front of the zero. -/
def screenPuts (data stack : ℕ → Byte) (mode : Mode) : List (BitVec 8) → State → Option State
  | [], s => some s
  | c :: text, s => (screenPutc data stack mode c s).bind (screenPuts data stack mode text)

/-- A graphics mode in which the fill comes to its end before the addresses do. -/
structure FillMode (mode : Mode) : Prop extends GraphicsMode mode where
  room : mode.fbSize + mode.bpp ≤ 2 ^ 32
  bpp_lt : mode.bpp < 256

/-- The fill starts below the symbols of the last line, or that is the only one. -/
def LinesKept (mode : Mode) : Prop := lastLine mode = 0 ∨ lastLine mode + 18 ≤ mode.height

def Mode.layout (mode : Mode) (h : GraphicsMode mode) : Layout :=
  ⟨mode.width, mode.bpp / 8, mode.pitch, h.pitch_ge⟩

/-- The bytes of a pixel. -/
def Mode.pixel (mode : Mode) (fb : ℕ → Byte) (x y : ℕ) : List Byte :=
  (List.range (mode.bpp / 8)).map fun k => fb (y * mode.pitch + x * (mode.bpp / 8) + k)

/-- The screen is the sheet from row `top` on. -/
structure Window (stack : ℕ → Byte) (mode : Mode) (top : ℕ) (s : State) (p : Sheet) : Prop where
  x : s.cursor.x = p.x
  y : s.cursor.y + top = p.y
  ink : ∀ x y b, x < mode.width → y < lastLine mode + 10 → p.ink x (y + top) = some b →
    mode.pixel s.fb x y = entryBytes stack mode (getColor mode b)

/-- The screen shows the last lines of the sheet. -/
def Shows (stack : ℕ → Byte) (mode : Mode) (s : State) (p : Sheet) : Prop :=
  Window stack mode (p.y - lastLine mode) s p

/-- A sheet between two characters. -/
structure Sheet.Typed (mode : Mode) (p : Sheet) : Prop where
  x_lt : p.x < mode.width
  y_line : p.y % 10 = 0
  below : ∀ x y b, p.ink x y = some b → y < p.y + 8

section Drawing

variable {data stack : ℕ → Byte} {mode : Mode} {s : State} {c : BitVec 8} {x y ix iy : ℕ}

/-- The colours of a symbol. -/
def symbolPixel (data stack : ℕ → Byte) (mode : Mode) (c : BitVec 8) (pos : Vector2) (x y : ℕ) : List Byte :=
  entryBytes stack mode (getColor mode (Sheet.shape data c (x - pos.x) (y - pos.y)))

/-- A pixel's bytes in arithmetic that does not wrap. -/
theorem pixel_end (h : GraphicsMode mode) (hx : x < mode.width) (hy : y < mode.height) :
    y * mode.pitch + x * (mode.bpp / 8) + mode.bpp / 8 ≤ mode.fbSize := by
  have hrow : (x + 1) * (mode.bpp / 8) ≤ mode.pitch := (Nat.mul_le_mul_right _ hx).trans h.pitch_ge
  have hrows : (y + 1) * mode.pitch ≤ mode.height * mode.pitch := Nat.mul_le_mul_right _ hy
  rw [Nat.add_mul, Nat.one_mul] at hrow hrows
  rw [h.fbSize_eq]
  omega

theorem renderPixel_draws (h : GraphicsMode mode) {pos : Vector2} (hx : pos.x + ix < mode.width)
    (hy : pos.y + iy < mode.height) (s : State) :
    (mode.layout h).Draws (symbolPixel data stack mode c pos) (fun x y => x = pos.x + ix ∧ y = pos.y + iy) s.fb
      (renderPixel stack mode pos c (font8x8Basic data) (getColor mode false) (getColor mode true)
        iy ix s).fb := by
  obtain ⟨-, -, hwp, hpitch, hheight⟩ := h.bounds
  have hend := pixel_end h hx hy
  have hsize := h.fbSize_lt
  have hindex : ((pos.y + iy) % 2 ^ 32 * mode.pitch + (pos.x + ix) % 2 ^ 32 * (mode.bpp / 8)) % 2 ^ 32 =
      (mode.layout h).offset (pos.x + ix) (pos.y + iy) := by
    rw [Nat.mod_eq_of_lt (show pos.y + iy < 2 ^ 32 by omega),
      Nat.mod_eq_of_lt (show pos.x + ix < 2 ^ 32 by omega)]
    exact Nat.mod_eq_of_lt (by omega)
  have hcolor : (if ((font8x8Basic data).data (c.toNat * (font8x8Basic data).height + iy)).getLsbD ix then
      getColor mode true else getColor mode false) = getColor mode (Sheet.shape data c ix iy) := by
    unfold Sheet.shape
    cases hbit : (data (c.toNat * 8 + iy)).getLsbD ix <;> simp [font8x8Basic, hbit]
  have hlength : (entryBytes stack mode (getColor mode (Sheet.shape data c ix iy))).length = mode.bpp / 8 :=
    entryBytes_length h.graphic _
  have hroom : ∀ k < mode.bpp / 8, (mode.layout h).offset (pos.x + ix) (pos.y + iy) + k < 2 ^ 32 := by
    intro k hk
    exact show (pos.y + iy) * mode.pitch + (pos.x + ix) * (mode.bpp / 8) + k < 2 ^ 32 by omega
  rw [renderPixel]
  dsimp only
  rw [hindex, hcolor, vesaColor2entry]
  apply Layout.Draws.plot hx hlength
  · intro k hk
    have hbytes : (entryBytes stack mode (getColor mode (Sheet.shape data c ix iy))).length ≤ 2 ^ 32 := by omega
    rw [putBytes_of_covers hbytes hk (Nat.mod_eq_of_lt (hroom k (hk.trans_eq hlength))),
      List.getD_eq_getElem _ _ hk]
  · intro i hi
    apply putBytes_of_not
    intro k hk
    rw [Nat.mod_eq_of_lt (hroom k (hk.trans_eq hlength))]
    exact hi k (hk.trans_eq hlength)
  · simp [symbolPixel]

/-- A symbol is drawn in its cell, and nothing else is. -/
theorem drawAtCursor_draws (h : GraphicsMode mode) (hx : s.cursor.x + 8 ≤ mode.width)
    (hy : s.cursor.y + 8 ≤ mode.height) :
    (mode.layout h).Draws (symbolPixel data stack mode c s.cursor) (Sheet.Cell s.cursor.x s.cursor.y) s.fb
      (drawAtCursor data stack mode c s).fb := by
  rw [drawAtCursor, vesaPutc, h.graphic]
  have hdraws := Layout.Draws.foldl (L := mode.layout h) (c := symbolPixel data stack mode c s.cursor) State.fb
    (fun s' iy => (List.range 8).foldl (fun s' ix => renderPixel stack mode s.cursor c (font8x8Basic data)
      (getColor mode false) (getColor mode true) iy ix s') s')
    (P := fun iy x y => ∃ ix ∈ List.range 8, x = s.cursor.x + ix ∧ y = s.cursor.y + iy) (l := List.range 8)
    (by
      intro iy hiy s'
      apply Layout.Draws.foldl State.fb
      intro ix hix s''
      have hix' := List.mem_range.mp hix
      have hiy' := List.mem_range.mp hiy
      exact renderPixel_draws h (by omega) (by omega) s'') s
  refine hdraws.congr fun x y => ?_
  constructor
  · rintro ⟨iy, hiy, ix, hix, rfl, rfl⟩
    have hix' := List.mem_range.mp hix
    have hiy' := List.mem_range.mp hiy
    unfold Sheet.Cell
    omega
  · rintro ⟨hcolumn, hrow⟩
    exact ⟨y - s.cursor.y, List.mem_range.mpr (by omega), x - s.cursor.x, List.mem_range.mpr (by omega),
      by omega, by omega⟩

theorem FillMode.videoMode (h : FillMode mode) : VideoMode mode := by
  have hmod := h.bpp_mod
  obtain ⟨-, hb, -, -, -⟩ := h.bounds
  exact ⟨h.fbSize_eq, h.fbSize_lt, by omega, Nat.dvd_of_mod_eq_zero hmod, h.bpp_lt⟩

theorem rows_le_height (h : FillMode mode) : 10 ≤ mode.height := by
  have hgt := h.height_gt
  omega

/-- The fill writes nothing above its first row. -/
theorem not_written_above (h : FillMode mode) {i : ℕ} (hi : i < mode.fbSize - 10 * mode.pitch) :
    ¬Written stack mode (getColor mode false) (mode.fbSize - 10 * mode.pitch) (fillCount mode 10) i := by
  rw [written_iff h.videoMode h.room (rows_le_height h)]
  rintro ⟨k, j, -, -, heq⟩
  omega

/-- The picture is shifted up by ten rows, down to the row where the fill starts. -/
theorem vesaScroll_rows (stack : ℕ → Byte) (h : FillMode mode) (fb : ℕ → Byte) :
    ∃ fb', vesaScroll stack mode 10 (getColor mode false) fb = some fb' ∧ ∀ x y, x < mode.width →
      y + 10 < mode.height - 10 → mode.pixel fb' x y = mode.pixel fb x (y + 10) := by
  have hgt := h.height_gt
  obtain ⟨fb', hrun, hpicture⟩ := vesaScroll_eq stack (getColor mode false) h.videoMode
    (rows_le_height h) (fillStops_rows h.videoMode h.room (rows_le_height h)) fb
  refine ⟨fb', hrun, fun x y hx hy => ?_⟩
  apply (mode.layout h.toGraphicsMode).pixel_congr
  intro k hk
  -- the row that is copied ends above the fill
  have hrow : (y + 10) * mode.pitch + x * (mode.bpp / 8) + k < mode.fbSize - 10 * mode.pitch := by
    have hcolumn : x * (mode.bpp / 8) + k < mode.pitch := (mode.layout h.toGraphicsMode).offset_lt hx hk
    have hlines : (y + 10 + 1) * mode.pitch ≤ (mode.height - 10) * mode.pitch := Nat.mul_le_mul_right _ hy
    rw [Nat.add_mul _ 1, Nat.one_mul, Nat.sub_mul, ← h.fbSize_eq] at hlines
    omega
  have hshift : y * mode.pitch + x * (mode.bpp / 8) + k + 10 * mode.pitch =
      (y + 10) * mode.pitch + x * (mode.bpp / 8) + k := by
    rw [Nat.add_mul]
    omega
  have hbyte := hpicture (y * mode.pitch + x * (mode.bpp / 8) + k)
  rw [if_pos (by omega), hshift, fillTimes_of_not (not_written_above h hrow)] at hbyte
  exact hbyte

end Drawing

/-! ### The sheet -/

section Sheets

variable {data : ℕ → Byte} {mode : Mode} {p : Sheet} {c : BitVec 8} {x y : ℕ} {b : Bool}

theorem Sheet.strike_below (hx : p.ink x y = some b → y < p.y + 8) (h : (p.strike data c).ink x y = some b) :
    y < p.y + 8 := by
  simp only [strike] at h
  split_ifs at h with hcell
  · exact hcell.2.2
  · exact hx h

/-- A character strikes no row below the line. -/
theorem Sheet.type_below (hp : p.Typed mode) (h : (p.type data mode.width c).ink x y = some b) : y < p.y + 8 := by
  have hink : (p.type data mode.width c).ink = (p.typeChar data c).ink := by
    unfold Sheet.type wrap
    split_ifs <;> rfl
  rw [hink] at h
  unfold typeChar at h
  split_ifs at h
  · exact strike_below (p := { p with x := p.x - 10 }) (hp.below x y b) h
  · exact hp.below x y b h
  · exact hp.below x y b h
  · exact hp.below x y b h
  · exact hp.below x y b h
  · exact strike_below (hp.below x y b) h
  · exact hp.below x y b h

/-- The line stays, or the next one begins. -/
theorem Sheet.typeChar_y (data : ℕ → Byte) (c : BitVec 8) (p : Sheet) :
    (p.typeChar data c).y = p.y ∨ (p.typeChar data c).x = 0 ∧ (p.typeChar data c).y = p.y + 10 := by
  unfold typeChar
  split_ifs <;> simp [strike]

theorem Sheet.type_y (hwidth : 0 < mode.width) (data : ℕ → Byte) (c : BitVec 8) (p : Sheet) :
    (p.type data mode.width c).y = p.y ∨ (p.type data mode.width c).y = p.y + 10 := by
  have htyped := typeChar_y data c p
  unfold Sheet.type wrap
  split_ifs with hwide
  · rcases htyped with hsame | ⟨hzero, -⟩
    · exact Or.inr (by rw [hsame])
    · omega
  · exact htyped.imp_right And.right

theorem Sheet.Typed.type (hwidth : 0 < mode.width) (hp : p.Typed mode) (c : BitVec 8) :
    (p.type data mode.width c).Typed mode := by
  have hy := type_y hwidth data c p
  have hline := hp.y_line
  refine ⟨?_, by omega, fun x y b h => ?_⟩
  · unfold Sheet.type wrap
    split_ifs with hwide
    · exact hwidth
    · exact Nat.lt_of_not_le hwide
  · have hbelow := type_below hp h
    omega

end Sheets

/-! ### One character on the screen -/

section Steps

variable {data stack : ℕ → Byte} {mode : Mode} {s : State} {p : Sheet} {c : BitVec 8} {top : ℕ}

/-- The last line is on the screen, and the one behind it is not. -/
theorem lastLine_le (h : GraphicsMode mode) :
    lastLine mode + 11 ≤ mode.height ∧ mode.height ≤ lastLine mode + 20 := by
  have hgt := h.height_gt
  unfold lastLine
  omega

theorem Window.strike (h : GraphicsMode mode) (hw : Window stack mode top s p) (hx : s.cursor.x + 8 ≤ mode.width)
    (hy : s.cursor.y + 8 ≤ mode.height) :
    Window stack mode top (drawAtCursor data stack mode c s) (p.strike data c) := by
  have hcursor : (drawAtCursor data stack mode c s).cursor = s.cursor := drawAtCursor_cursor h c
  have hdraws : (mode.layout h).Draws (symbolPixel data stack mode c s.cursor) (Sheet.Cell s.cursor.x s.cursor.y)
      s.fb (drawAtCursor data stack mode c s).fb := drawAtCursor_draws h hx hy
  have hpx := hw.x
  have hpy := hw.y
  refine ⟨by rw [hcursor]; exact hpx, by rw [hcursor]; exact hpy, fun x y b hxw hyl hink => ?_⟩
  have hcell : Sheet.Cell p.x p.y x (y + top) ↔ Sheet.Cell s.cursor.x s.cursor.y x y := by
    unfold Sheet.Cell
    omega
  by_cases hin : Sheet.Cell s.cursor.x s.cursor.y x y
  · have hshape : Sheet.shape data c (x - s.cursor.x) (y - s.cursor.y) = b := by
      simp only [Sheet.strike, hcell, hin, if_true, Option.some.injEq] at hink
      rw [← hink, ← hpx, ← hpy, Nat.add_sub_add_right]
    exact (hdraws.drawn x y hxw hin).trans (by rw [symbolPixel, hshape])
  · have hold : p.ink x (y + top) = some b := by
      simp only [Sheet.strike, hcell, hin, if_false] at hink
      exact hink
    exact (hdraws.kept x y hxw hin).trans (hw.ink x y b hxw hyl hold)

theorem moveTo_window (hw : Window stack mode top s p) {x y : ℕ} (hx : x < 2 ^ 32) (hy : y < 2 ^ 32) :
    Window stack mode top (moveTo x y s) { p with x := x, y := y + top } :=
  ⟨Nat.mod_eq_of_lt hx, congrArg (· + top) (Nat.mod_eq_of_lt hy), hw.ink⟩

theorem Window.typeChar (h : GraphicsMode mode) (hw : Window stack mode top s p) (hp : p.Typed mode)
    (hy : s.cursor.y + 10 ≤ mode.height) (hfits : p.Fits mode.width c) :
    Window stack mode top (typeChar data stack mode c s) (p.typeChar data c) := by
  obtain ⟨-, -, hwp, hpitch, hheight⟩ := h.bounds
  have hx := hp.x_lt
  have hpx := hw.x
  have hpy := hw.y
  obtain ⟨hback, hprint⟩ := hfits
  rw [← hpx] at hx hback hprint
  -- the cursor of the sheet is that of the screen
  have hmove : ∀ x < 2 ^ 32, Window stack mode top (moveTo x s.cursor.y s) { p with x := x } := by
    intro x hx
    have hmoved := moveTo_window hw hx (show s.cursor.y < 2 ^ 32 by omega)
    rwa [hpy] at hmoved
  rw [Screen.typeChar, getSymbolSize_graphic h, Sheet.typeChar, ← hpx]
  split_ifs with h₁ h₂ h₃ h₄ h₅ h₆
  · have hten := (hback h₁).resolve_left h₂
    have hleft : moveTo (s.cursor.x + 2 ^ 32 - 10) s.cursor.y s = moveTo (s.cursor.x - 10) s.cursor.y s := by
      rw [moveTo, moveTo, show (s.cursor.x + 2 ^ 32 - 10) % 2 ^ 32 = (s.cursor.x - 10) % 2 ^ 32 by omega]
    have hcursor : (moveTo (s.cursor.x - 10) s.cursor.y s).cursor = ⟨s.cursor.x - 10, s.cursor.y⟩ := by
      rw [moveTo, Nat.mod_eq_of_lt (by omega), Nat.mod_eq_of_lt (by omega)]
    rw [hleft]
    apply (hmove _ (by omega)).strike h
    · rw [hcursor]
      exact show s.cursor.x - 10 + 8 ≤ mode.width by omega
    · rw [hcursor]
      exact show s.cursor.y + 8 ≤ mode.height by omega
  · exact hw
  · exact hmove _ (by omega)
  · have hmoved := moveTo_window hw (show 0 < 2 ^ 32 by omega) (show s.cursor.y + 10 < 2 ^ 32 by omega)
    rwa [Nat.add_right_comm, hpy] at hmoved
  · exact hmove _ (by omega)
  · have hdrawn : Window stack mode top (drawAtCursor data stack mode c s) (p.strike data c) :=
      hw.strike h (hprint h₆) (by omega)
    have hmoved := moveTo_window hdrawn (show s.cursor.x + 10 < 2 ^ 32 by omega)
      (show s.cursor.y < 2 ^ 32 by omega)
    rwa [hpy] at hmoved
  · exact hw

theorem Window.wrap (h : GraphicsMode mode) (hw : Window stack mode top s p)
    (hy : mode.width ≤ s.cursor.x → s.cursor.y + 10 ≤ mode.height) :
    Window stack mode top (wrapCursor data mode s) (p.wrap mode.width) := by
  obtain ⟨-, -, -, -, hheight⟩ := h.bounds
  have hpy := hw.y
  rw [wrapCursor, getSymbolSize_graphic h, Sheet.wrap, ← hw.x]
  split_ifs with hwide
  · have hline := hy hwide
    have hmoved := moveTo_window hw (show 0 < 2 ^ 32 by omega) (show s.cursor.y + 10 < 2 ^ 32 by omega)
    rwa [Nat.add_right_comm, hpy] at hmoved
  · exact hw

/-- On a line of the screen the picture stays. -/
theorem screenScroll_stays (h : FillMode mode) (hy : s.cursor.y ≤ lastLine mode) :
    screenScroll data stack mode s = some s := by
  obtain ⟨-, -, -, -, hheight⟩ := h.bounds
  have hlast := lastLine_le h.toGraphicsMode
  rw [screenScroll, getSymbolSize_graphic h.toGraphicsMode]
  dsimp only
  rw [if_neg (by omega)]

/-- On the line behind them the window moves down by one, if that line is empty. -/
theorem Window.scroll (h : FillMode mode) (hkept : LinesKept mode) (hw : Window stack mode top s p)
    (hy : s.cursor.y = lastLine mode + 10)
    (hempty : ∀ x y b, p.ink x y = some b → y + 2 < p.y) :
    ∃ t, screenScroll data stack mode s = some t ∧ Window stack mode (top + 10) t p := by
  obtain ⟨-, -, -, -, hheight⟩ := h.bounds
  have hlast := lastLine_le h.toGraphicsMode
  have hpy := hw.y
  have hscroll : (mode.height + 2 ^ 32 - 10) % 2 ^ 32 ≤ s.cursor.y := by
    unfold lastLine at hy
    omega
  have hup : (s.cursor.y + 2 ^ 32 - 10) % 2 ^ 32 = lastLine mode := by omega
  obtain ⟨fb', hrun, hrows⟩ := vesaScroll_rows stack h s.fb
  refine ⟨{ s with fb := fb', cursor := ⟨s.cursor.x, lastLine mode⟩ }, ?_, hw.x, ?_, ?_⟩
  · rw [screenScroll, getSymbolSize_graphic h.toGraphicsMode]
    dsimp only
    rw [if_pos hscroll, hrun, hup, Option.map_some]
  · exact show lastLine mode + (top + 10) = p.y by omega
  · intro x y b hx hyl hink
    have hrow := hempty x _ b hink
    have hshift : y + (top + 10) = y + 10 + top := by omega
    rw [hshift] at hink
    rw [← hw.ink x (y + 10) b hx (by omega) hink]
    rw [LinesKept] at hkept
    exact hrows x y hx (by omega)

/-- A character on the screen and on the sheet. -/
theorem Shows.screenPutc (h : FillMode mode) (hkept : LinesKept mode) (hs : Shows stack mode s p)
    (hp : p.Typed mode) (hfits : p.Fits mode.width c) :
    ∃ t, screenPutc data stack mode c s = some t ∧ Shows stack mode t (p.type data mode.width c) := by
  obtain ⟨hwidth, -, -, -, -⟩ := h.bounds
  have hlast := lastLine_le h.toGraphicsMode
  have hline := hp.y_line
  have hsy := hs.y
  have hlines : lastLine mode % 10 = 0 := Nat.mul_mod_left ..
  have htyped : Window stack mode (p.y - lastLine mode) (Screen.typeChar data stack mode c s)
      (p.typeChar data c) := Window.typeChar h.toGraphicsMode hs hp (by omega) hfits
  have hy := Sheet.typeChar_y data c p
  have hwrapped : Window stack mode (p.y - lastLine mode)
      (wrapCursor data mode (Screen.typeChar data stack mode c s)) (p.type data mode.width c) := by
    apply htyped.wrap h.toGraphicsMode
    intro hwide
    have htx := htyped.x
    have hty := htyped.y
    omega
  have hqy := Sheet.type_y hwidth data c p
  have hwy := hwrapped.y
  rw [Screen.screenPutc]
  by_cases hstay : (wrapCursor data mode (Screen.typeChar data stack mode c s)).cursor.y ≤ lastLine mode
  · rw [screenScroll_stays h hstay, Option.map_some, screenMoveCursor_graphic h.toGraphicsMode]
    refine ⟨_, rfl, ?_⟩
    have htop : (p.type data mode.width c).y - lastLine mode = p.y - lastLine mode := by omega
    rw [Shows, htop]
    exact hwrapped
  · -- the line is a new one, behind the last of the screen
    obtain ⟨t, hrun, hscrolled⟩ := hwrapped.scroll h hkept (by omega)
      (fun x y b hink => by
        have hbelow := Sheet.type_below hp hink
        omega)
    rw [hrun, Option.map_some, screenMoveCursor_graphic h.toGraphicsMode]
    refine ⟨t, rfl, ?_⟩
    have htop : (p.type data mode.width c).y - lastLine mode = p.y - lastLine mode + 10 := by omega
    rw [Shows, htop]
    exact hscrolled

/-- A text on the screen and on the sheet. -/
theorem Shows.screenPuts (h : FillMode mode) (hkept : LinesKept mode) {text : List (BitVec 8)}
    (hs : Shows stack mode s p) (hp : p.Typed mode) (hfits : Sheet.FitsAll data mode.width p text) :
    ∃ t, screenPuts data stack mode text s = some t ∧
      Shows stack mode t (text.foldl (Sheet.type data mode.width) p) := by
  induction text generalizing s p with
  | nil => exact ⟨s, rfl, hs⟩
  | cons c text ih =>
    obtain ⟨t, hrun, ht⟩ := hs.screenPutc h hkept hp hfits.1
    obtain ⟨u, hrest, hu⟩ := ih ht (hp.type h.bounds.1 c) hfits.2
    refine ⟨u, ?_, hu⟩
    rw [Screen.screenPuts, hrun, Option.bind_some, hrest]

end Steps

/-- After `screen_clear`, every text comes to an end, and the screen then shows the last lines of the
sheet that it makes. -/
theorem console_shows (data stack : ℕ → Byte) {mode : Mode} (h : FillMode mode) (hkept : LinesKept mode)
    (init : State) (text : List (BitVec 8)) (hfits : Sheet.FitsAll data mode.width Sheet.blank text) :
    ∃ t, screenPuts data stack mode text (screenClear mode init) = some t ∧
      Shows stack mode t (text.foldl (Sheet.type data mode.width) Sheet.blank) := by
  have hclear : screenClear mode init = { init with cursor := ⟨0, 0⟩ } :=
    screenMoveCursor_graphic h.toGraphicsMode _
  have hblank : Sheet.blank.Typed mode := ⟨h.bounds.1, rfl, fun x y b hink => by cases hink⟩
  rw [hclear]
  apply Shows.screenPuts h hkept _ hblank hfits
  exact ⟨rfl, by simp [Sheet.blank], fun x y b _ _ hink => by cases hink⟩

/-! ### Texts without tabs -/

/-- Symbols in columns of ten fit if the last column has room for one. -/
theorem Sheet.fitsAll_of_no_tab (data : ℕ → Byte) {width : ℕ} (hwidth : width % 10 = 0 ∨ 8 ≤ width % 10)
    (hpos : 0 < width) {p : Sheet} {text : List (BitVec 8)} (hx : p.x % 10 = 0) (hlt : p.x < width)
    (htext : ∀ c ∈ text, c ≠ chTab) : FitsAll data width p text := by
  induction text generalizing p with
  | nil => trivial
  | cons c text ih =>
    have hc := htext c List.mem_cons_self
    have hcolumn : (p.typeChar data c).x % 10 = 0 := by
      unfold Sheet.typeChar
      rw [if_neg hc]
      split_ifs
      · exact show (p.x - 10) % 10 = 0 by omega
      · exact hx
      · rfl
      · rfl
      · exact show (p.x + 10) % 10 = 0 by omega
      · exact hx
    refine ⟨⟨fun _ => by omega, fun _ => by omega⟩, ih ?_ ?_ fun d hd => htext d (List.mem_cons_of_mem c hd)⟩
    · unfold Sheet.type wrap
      split_ifs
      · rfl
      · exact hcolumn
    · unfold Sheet.type wrap
      split_ifs with hwide
      · exact hpos
      · exact Nat.lt_of_not_le hwide

/-! ### A line that is damaged -/

section Damage

variable {data stack : ℕ → Byte} {mode : Mode} {s : State} {p : Sheet} {text : List (BitVec 8)} {n : ℕ}

/-- The first pixel that the fill writes is copied up with the picture. -/
theorem vesaScroll_damages (stack : ℕ → Byte) (h : FillMode mode) (hheight : 20 ≤ mode.height) (fb : ℕ → Byte) :
    ∃ fb', vesaScroll stack mode 10 (getColor mode false) fb = some fb' ∧
      mode.pixel fb' 0 (mode.height - 20) = entryBytes stack mode (getColor mode false) := by
  have hlength := length_entryBytes stack mode (getColor mode false)
  have hgraphic : (entryBytes stack mode (getColor mode false)).length = mode.bpp / 8 :=
    entryBytes_length h.graphic _
  obtain ⟨-, -, hwp, -, -⟩ := h.bounds
  have hpitch : 0 < mode.pitch := h.bounds.1.trans_le hwp
  obtain ⟨fb', hrun, hpicture⟩ := vesaScroll_eq stack (getColor mode false) h.videoMode
    (rows_le_height h) (fillStops_rows h.videoMode h.room (rows_le_height h)) fb
  refine ⟨fb', hrun, ?_⟩
  have hplace : (mode.height - 20) * mode.pitch + 10 * mode.pitch = mode.fbSize - 10 * mode.pitch := by
    rw [h.fbSize_eq, ← Nat.add_mul, ← Nat.sub_mul]
    congr 1
    omega
  apply List.ext_getElem
  · simp [Mode.pixel, hgraphic]
  · intro k h₁ h₂
    have hk : k < mode.bpp / 8 := hgraphic ▸ h₂
    have hlast : LastWritten stack mode (getColor mode false) _ (fillCount mode 10) _ k :=
      lastWritten_row h.videoMode h.room (rows_le_height h) (show 0 * mode.bpp < 10 * mode.pitch by omega) (hlength ▸ h₂)
    rw [Nat.zero_mul, Nat.add_zero] at hlast
    have hbyte := hpicture ((mode.height - 20) * mode.pitch + k)
    have habove : (mode.height - 20) * mode.pitch + k < mode.fbSize - 10 * mode.pitch := by
      have hrow : mode.bpp / 8 ≤ mode.pitch := (Nat.le_mul_of_pos_left _ h.bounds.1).trans h.pitch_ge
      omega
    rw [if_pos habove, Nat.add_right_comm, hplace, fillTimes_of_last h.videoMode hlast,
      List.getD_eq_getElem _ _ h₂] at hbyte
    simpa [Mode.pixel] using hbyte

theorem typeChar_newline (h : GraphicsMode mode) (hy : s.cursor.y + 10 ≤ mode.height) :
    typeChar data stack mode chNewline s = { s with cursor := ⟨0, s.cursor.y + 10⟩ } := by
  obtain ⟨-, -, -, -, hheight⟩ := h.bounds
  rw [typeChar, getSymbolSize_graphic h, if_neg (by decide), if_neg (by decide), if_pos rfl, moveTo,
    Nat.zero_mod, Nat.mod_eq_of_lt (show s.cursor.y + 10 < 2 ^ 32 by omega)]

theorem wrapCursor_zero (h : GraphicsMode mode) (hx : s.cursor.x = 0) : wrapCursor data mode s = s := by
  have hwidth := h.bounds.1
  rw [wrapCursor, if_neg (by omega)]

theorem screenPutc_newline (h : FillMode mode) (hy : s.cursor.y + 10 ≤ lastLine mode) :
    screenPutc data stack mode chNewline s = some { s with cursor := ⟨0, s.cursor.y + 10⟩ } := by
  have hlast := lastLine_le h.toGraphicsMode
  rw [screenPutc, typeChar_newline h.toGraphicsMode (by omega), wrapCursor_zero h.toGraphicsMode rfl,
    screenScroll_stays h hy, Option.map_some, screenMoveCursor_graphic h.toGraphicsMode]

theorem screenPuts_newlines (h : FillMode mode) (hx : s.cursor.x = 0) (hy : s.cursor.y + 10 * n ≤ lastLine mode) :
    screenPuts data stack mode (List.replicate n chNewline ++ text) s =
      screenPuts data stack mode text { s with cursor := ⟨0, s.cursor.y + 10 * n⟩ } := by
  induction n generalizing s with
  | zero =>
    have hsame : (⟨0, s.cursor.y + 10 * 0⟩ : Vector2) = s.cursor := by
      rw [Nat.mul_zero, Nat.add_zero]
      exact congrArg (Vector2.mk · s.cursor.y) hx.symm
    rw [hsame]
    rfl
  | succ n ih =>
    rw [List.replicate_succ, List.cons_append, screenPuts, screenPutc_newline h (by omega), Option.bind_some,
      ih rfl (by dsimp only; omega)]
    dsimp only
    rw [Nat.mul_succ, Nat.add_assoc, Nat.add_comm 10]

theorem Sheet.type_newline (hwidth : 0 < mode.width) (p : Sheet) :
    p.type data mode.width chNewline = { p with x := 0, y := p.y + 10 } := by
  rw [Sheet.type, Sheet.typeChar, if_neg (by decide), if_neg (by decide), if_pos rfl, wrap,
    if_neg (Nat.not_le.mpr hwidth)]

theorem Sheet.foldl_newlines (hwidth : 0 < mode.width) (hx : p.x = 0) :
    (List.replicate n chNewline).foldl (Sheet.type data mode.width) p = { p with y := p.y + 10 * n } := by
  induction n generalizing p with
  | zero => rfl
  | succ n ih =>
    rw [List.replicate_succ, List.foldl_cons, type_newline hwidth, ih rfl]
    simp only [Sheet.mk.injEq, hx, true_and, and_true]
    omega

theorem Sheet.fitsAll_newlines (hwidth : 0 < mode.width) (hx : p.x = 0)
    (htext : FitsAll data mode.width { p with y := p.y + 10 * n } text) :
    FitsAll data mode.width p (List.replicate n chNewline ++ text) := by
  induction n generalizing p with
  | zero => exact htext
  | succ n ih =>
    have hfits : p.Fits mode.width chNewline := ⟨fun h => absurd h (by decide), fun h => absurd h (by decide)⟩
    refine ⟨hfits, ?_⟩
    rw [type_newline hwidth]
    apply ih rfl
    dsimp only
    rwa [← hx, Nat.add_assoc, Nat.add_comm 10, ← Nat.mul_succ]

/-- The letter of the example. -/
def letter : BitVec 8 := 88

theorem screenPutc_letter (h : FillMode mode) (hwidth : 10 < mode.width) (hx : s.cursor.x = 0)
    (hy : s.cursor.y ≤ lastLine mode) :
    ∃ t, screenPutc data stack mode letter s = some t ∧ t.cursor = ⟨10, s.cursor.y⟩ := by
  obtain ⟨-, -, -, -, hheight⟩ := h.bounds
  obtain ⟨hlow, -⟩ := lastLine_le h.toGraphicsMode
  have htyped : (typeChar data stack mode letter s).cursor = ⟨10, s.cursor.y⟩ := by
    rw [typeChar, getSymbolSize_graphic h.toGraphicsMode, if_neg (by decide), if_neg (by decide),
      if_neg (by decide), if_neg (by decide), if_pos (by decide), moveTo, hx,
      Nat.mod_eq_of_lt (show s.cursor.y < 2 ^ 32 by omega)]
    rfl
  have hwrap : wrapCursor data mode (typeChar data stack mode letter s) = typeChar data stack mode letter s := by
    rw [wrapCursor, if_neg (by rw [htyped]; exact Nat.not_le.mpr hwidth)]
  refine ⟨_, ?_, htyped⟩
  rw [screenPutc, hwrap, screenScroll_stays h (by rw [htyped]; exact hy), Option.map_some,
    screenMoveCursor_graphic h.toGraphicsMode]

theorem screenPutc_damages (h : FillMode mode) (hheight : 20 ≤ mode.height) (hy : s.cursor.y = lastLine mode) :
    ∃ t, screenPutc data stack mode chNewline s = some t ∧
      mode.pixel t.fb 0 (mode.height - 20) = entryBytes stack mode (getColor mode false) := by
  obtain ⟨hlow, hhigh⟩ := lastLine_le h.toGraphicsMode
  obtain ⟨-, -, -, -, hlimit⟩ := h.bounds
  obtain ⟨fb', hrun, hpixel⟩ := vesaScroll_damages stack h hheight s.fb
  have hscroll : (mode.height + 2 ^ 32 - 10) % 2 ^ 32 ≤ s.cursor.y + 10 := by omega
  have hup : (s.cursor.y + 10 + 2 ^ 32 - 10) % 2 ^ 32 = lastLine mode := by omega
  refine ⟨{ s with fb := fb', cursor := ⟨0, lastLine mode⟩ }, ?_, hpixel⟩
  rw [screenPutc, typeChar_newline h.toGraphicsMode (by omega), wrapCursor_zero h.toGraphicsMode rfl, screenScroll,
    getSymbolSize_graphic h.toGraphicsMode]
  dsimp only
  rw [if_pos hscroll, hrun, hup, Option.map_some, Option.map_some, screenMoveCursor_graphic h.toGraphicsMode]

/-- The sheet of some newlines, the letter and a newline. -/
theorem Sheet.foldl_letter (hwidth : 10 < mode.width) :
    (List.replicate n chNewline ++ [letter, chNewline]).foldl (Sheet.type data mode.width) blank =
      { strike data letter ⟨0, 10 * n, fun _ _ => none⟩ with y := 10 * n + 10 } := by
  have hpos : 0 < mode.width := by omega
  have hnewlines : (List.replicate n chNewline).foldl (Sheet.type data mode.width) blank =
      ⟨0, 10 * n, fun _ _ => none⟩ := by
    rw [foldl_newlines hpos rfl]
    simp [blank]
  have hletter : Sheet.type data mode.width ⟨0, 10 * n, fun _ _ => none⟩ letter =
      { strike data letter ⟨0, 10 * n, fun _ _ => none⟩ with x := 10 } := by
    rw [Sheet.type, Sheet.typeChar, if_neg (by decide), if_neg (by decide), if_neg (by decide), if_neg (by decide),
      if_pos (by decide), wrap]
    exact if_neg (Nat.not_le.mpr hwidth)
  rw [List.foldl_append, hnewlines, List.foldl_cons, hletter, List.foldl_cons, List.foldl_nil, type_newline hpos]
  rfl

/-- Where the fill starts in the last line, it damages a symbol there. -/
theorem linesKept_of_shows (h : FillMode mode) (hwidth : 10 < mode.width)
    (hcolors : entryBytes stack mode (getColor mode true) ≠ entryBytes stack mode (getColor mode false))
    (hshows : ∀ text, Sheet.FitsAll (fun _ => 0xFF) mode.width Sheet.blank text →
      ∃ t, screenPuts (fun _ => 0xFF) stack mode text (screenClear mode ⟨⟨0, 0⟩, fun _ => 0, [], []⟩) = some t ∧
        Shows stack mode t (text.foldl (Sheet.type (fun _ => 0xFF) mode.width) Sheet.blank)) : LinesKept mode := by
  by_contra hdamage
  rw [LinesKept, not_or] at hdamage
  obtain ⟨hzero, hfill⟩ := hdamage
  obtain ⟨hlow, hhigh⟩ := lastLine_le h.toGraphicsMode
  obtain ⟨n, hn⟩ : ∃ n, lastLine mode = 10 * n := ⟨(mode.height - 11) / 10, Nat.mul_comm ..⟩
  have hpos : 0 < mode.width := by omega
  have hfits : Sheet.FitsAll (fun _ => 0xFF) mode.width Sheet.blank
      (List.replicate n chNewline ++ [letter, chNewline]) := by
    apply Sheet.fitsAll_newlines hpos rfl
    refine ⟨⟨fun heq => absurd heq (by decide), fun _ => ?_⟩, ⟨fun heq => absurd heq (by decide),
      fun hle => absurd hle (by decide)⟩, trivial⟩
    exact show 0 + 8 ≤ mode.width by omega
  obtain ⟨t, hrun, hwindow⟩ := hshows _ hfits
  -- the newlines lead to the last line, the letter is typed there, and the line is shifted up
  have hclear : screenClear mode ⟨⟨0, 0⟩, fun _ => 0, [], []⟩ = ⟨⟨0, 0⟩, fun _ => 0, [], []⟩ :=
    screenMoveCursor_graphic h.toGraphicsMode _
  rw [hclear, screenPuts_newlines h rfl (by dsimp only; omega)] at hrun
  obtain ⟨u, hu, hcursor⟩ : ∃ u,
      screenPutc (fun _ => 0xFF) stack mode letter ⟨⟨0, 0 + 10 * n⟩, fun _ => 0, [], []⟩ = some u ∧
        u.cursor = ⟨10, 0 + 10 * n⟩ := screenPutc_letter h hwidth rfl (by dsimp only; omega)
  have hline : u.cursor.y = lastLine mode := by
    rw [hcursor, hn]
    exact Nat.zero_add _
  obtain ⟨v, hv, hpixel⟩ : ∃ v, screenPutc (fun _ => 0xFF) stack mode chNewline u = some v ∧
      mode.pixel v.fb 0 (mode.height - 20) = entryBytes stack mode (getColor mode false) :=
    screenPutc_damages h (by omega) hline
  rw [screenPuts, hu, Option.bind_some, screenPuts, hv, Option.bind_some, screenPuts, Option.some.injEq] at hrun
  subst hrun
  rw [Sheet.foldl_letter hwidth] at hwindow
  have hink := hwindow.ink 0 (mode.height - 20) true hpos (by omega) (by
    have hrow : mode.height - 20 + (10 * n + 10 - lastLine mode) = 10 * n + (mode.height - 10 - 10 * n) := by omega
    have hcell : Sheet.Cell 0 (10 * n) 0 (10 * n + (mode.height - 10 - 10 * n)) := by
      unfold Sheet.Cell
      omega
    simp only [hrow, Sheet.strike, hcell, if_true, Option.some.injEq]
    exact show (0xFF : Byte).getLsbD 0 = true by decide)
  exact hcolors (hink.symm.trans hpixel)

end Damage

/-- The console shows every text that fits, with every font, exactly if its lines are kept. -/
theorem console_shows_iff (stack : ℕ → Byte) {mode : Mode} (h : FillMode mode) (hwidth : 10 < mode.width)
    (hcolors : entryBytes stack mode (getColor mode true) ≠ entryBytes stack mode (getColor mode false)) :
    (∀ data init text, Sheet.FitsAll data mode.width Sheet.blank text →
      ∃ t, screenPuts data stack mode text (screenClear mode init) = some t ∧
        Shows stack mode t (text.foldl (Sheet.type data mode.width) Sheet.blank)) ↔ LinesKept mode := by
  constructor
  · intro hshows
    exact linesKept_of_shows h hwidth hcolors fun text hfits => hshows _ _ text hfits
  · intro hkept data init text hfits
    exact console_shows data stack h hkept init text hfits

theorem fillMode_vga : FillMode vga := { graphicsMode_vga with room := by decide, bpp_lt := by decide }

/-- Of 480 rows none of the last line is filled. -/
theorem console_shows_iff_vga : LinesKept vga ∧
    ((∀ data init text, Sheet.FitsAll data vga.width Sheet.blank text →
      ∃ t, screenPuts data (fun _ => 0) vga text (screenClear vga init) = some t ∧
        Shows (fun _ => 0) vga t (text.foldl (Sheet.type data vga.width) Sheet.blank)) ↔ LinesKept vga) :=
  ⟨Or.inr (by decide), console_shows_iff (fun _ => 0) fillMode_vga (by decide) (by decide)⟩

end JustKernel.Screen
