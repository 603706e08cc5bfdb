import JustKernel.Drivers.EarlyScreen
import JustKernel.Base.Runs
import Mathlib.Tactic.Ring
import Mathlib.Tactic.Linarith

/-! Where the console draws. In a graphics mode a symbol is eight by eight pixels in a cell
of ten by ten. The cursor stays on the screen between characters: its line is a multiple of
ten, and its column is even, since tabs stop at multiples of four. A backspace steps back by
ten without a look at the column. Behind a tab there are columns below ten, and from these
the step wraps around and the blank is drawn far outside of the framebuffer; the end of the
line then brings the cursor back. -/

namespace JustKernel.Screen

open Memory (Byte)
open Runs

/-- A graphics mode with room for a line of text. -/
structure GraphicsMode (mode : Mode) : Prop where
  graphic : mode.fbType = .graphic
  height_gt : 10 < mode.height
  row_ge : 16 ≤ mode.width * (mode.bpp / 8)
  pitch_ge : mode.width * (mode.bpp / 8) ≤ mode.pitch
  bpp_mod : mode.bpp % 8 = 0
  fbSize_eq : mode.fbSize = mode.height * mode.pitch
  fbSize_lt : mode.fbSize < 2 ^ 32

/-- The byte lies in the framebuffer, and its index was computed without a wrap. -/
def Store.InBounds (mode : Mode) (w : Store) : Prop := w.index = w.exact ∧ w.exact < mode.fbSize

/-- All bytes of symbols so far lie in the framebuffer. -/
def State.InBounds (mode : Mode) (s : State) : Prop := ∀ w ∈ s.rendered, w.InBounds mode

/-- The cursor between two characters. -/
structure CursorOk (mode : Mode) (s : State) : Prop where
  x_lt : s.cursor.x < mode.width
  y_lt : s.cursor.y < mode.height - 10
  x_even : s.cursor.x % 2 = 0
  y_line : s.cursor.y % 10 = 0

section Modes

variable {mode : Mode}

/-- The sizes of a graphics mode as numbers. -/
theorem GraphicsMode.bounds (h : GraphicsMode mode) :
    0 < mode.width ∧ 0 < mode.bpp / 8 ∧ mode.width ≤ mode.pitch ∧ 11 * mode.pitch < 2 ^ 32 ∧ mode.height < 2 ^ 32 := by
  have hrow := h.row_ge
  have hpos : 0 < mode.width * (mode.bpp / 8) := by omega
  have hw : 0 < mode.width := Nat.pos_of_ne_zero (Nat.mul_ne_zero_iff.mp hpos.ne').1
  have hb : 0 < mode.bpp / 8 := Nat.pos_of_ne_zero (Nat.mul_ne_zero_iff.mp hpos.ne').2
  have hwp : mode.width ≤ mode.pitch := (Nat.le_mul_of_pos_right _ hb).trans h.pitch_ge
  have hsize := h.fbSize_lt
  rw [h.fbSize_eq] at hsize
  refine ⟨hw, hb, hwp, ?_, ?_⟩
  · exact lt_of_le_of_lt (Nat.mul_le_mul_right _ h.height_gt) hsize
  · exact lt_of_le_of_lt (Nat.le_mul_of_pos_right _ (by omega)) hsize

/-- The last line of text. -/
def lastLine (mode : Mode) : ℕ := (mode.height - 11) / 10 * 10

/-- A symbol at the start of the last line is drawn inside the framebuffer. This holds for all
modes of at least three columns. -/
def LastLineFits (mode : Mode) : Prop := (lastLine mode + 7) * mode.pitch + 8 * (mode.bpp / 8) ≤ mode.fbSize

theorem GraphicsMode.lastLineFits (h : GraphicsMode mode) (hwidth : 3 ≤ mode.width) : LastLineFits mode := by
  have hheight := h.height_gt
  have hlast : lastLine mode + 11 ≤ mode.height := by
    unfold lastLine
    omega
  have hpitch : 3 * (mode.bpp / 8) ≤ mode.pitch := (Nat.mul_le_mul_right _ hwidth).trans h.pitch_ge
  rw [LastLineFits, h.fbSize_eq]
  calc (lastLine mode + 7) * mode.pitch + 8 * (mode.bpp / 8)
      ≤ (lastLine mode + 7) * mode.pitch + 4 * mode.pitch := by omega
    _ = (lastLine mode + 11) * mode.pitch := by ring
    _ ≤ mode.height * mode.pitch := Nat.mul_le_mul_right _ hlast

/-- The symbol at the cursor is drawn inside the framebuffer. -/
theorem CursorOk.fits {s : State} (h : GraphicsMode mode) (hlast : LastLineFits mode) (hs : CursorOk mode s) :
    (s.cursor.y + 7) * mode.pitch + (s.cursor.x + 8) * (mode.bpp / 8) ≤ mode.fbSize := by
  have hx := hs.x_lt
  have hy := hs.y_lt
  have hheight := h.height_gt
  have hline := hs.y_line
  have hy' : s.cursor.y ≤ lastLine mode := by
    unfold lastLine
    omega
  by_cases hwidth : 3 ≤ mode.width
  · -- three rows below the symbol have room for what stands out on the right
    have hpitch : 3 * (mode.bpp / 8) ≤ mode.pitch := (Nat.mul_le_mul_right _ hwidth).trans h.pitch_ge
    have hrow : (s.cursor.x + 1) * (mode.bpp / 8) ≤ mode.pitch := (Nat.mul_le_mul_right _ hx).trans h.pitch_ge
    rw [h.fbSize_eq]
    calc (s.cursor.y + 7) * mode.pitch + (s.cursor.x + 8) * (mode.bpp / 8)
        = (s.cursor.y + 7) * mode.pitch + ((s.cursor.x + 1) * (mode.bpp / 8) + 7 * (mode.bpp / 8)) := by ring
      _ ≤ (s.cursor.y + 7) * mode.pitch + (mode.pitch + 3 * mode.pitch) := by omega
      _ = (s.cursor.y + 11) * mode.pitch := by ring
      _ ≤ mode.height * mode.pitch := Nat.mul_le_mul_right _ (by omega)
  · have hx0 : s.cursor.x = 0 := by
      have := hs.x_even
      omega
    rw [hx0, Nat.zero_add]
    exact (Nat.add_le_add_right (Nat.mul_le_mul_right _ (by omega)) _).trans hlast

end Modes

/-! ### Drawing -/

section Drawing

variable {data stack : ℕ → Byte} {mode : Mode} {s : State}

theorem entryBytes_length (h : mode.fbType = .graphic) (color : Color) :
    (entryBytes stack mode color).length = mode.bpp / 8 := by
  rw [entryBytes, h]
  simp

/-- One pixel of a symbol that lies in the framebuffer. -/
theorem renderPixel_inBounds {pos : Vector2} (h : GraphicsMode mode)
    (hfits : (pos.y + 7) * mode.pitch + (pos.x + 8) * (mode.bpp / 8) ≤ mode.fbSize) {iy ix : ℕ} (hiy : iy < 8) (hix : ix < 8)
    (c : BitVec 8) (font : Font) (bg fg : Color) (hs : s.InBounds mode) :
    (renderPixel stack mode pos c font bg fg iy ix s).InBounds mode := by
  obtain ⟨-, hb, -, hpitch, -⟩ := h.bounds
  have hsize := h.fbSize_lt
  -- the byte behind the pixel
  have hend : (pos.y + iy) * mode.pitch + (pos.x + ix) * (mode.bpp / 8) + mode.bpp / 8 ≤ mode.fbSize := by
    refine le_trans ?_ hfits
    have h1 : (pos.y + iy) * mode.pitch ≤ (pos.y + 7) * mode.pitch := Nat.mul_le_mul_right _ (by omega)
    have h2 : (pos.x + ix + 1) * (mode.bpp / 8) ≤ (pos.x + 8) * (mode.bpp / 8) := Nat.mul_le_mul_right _ (by omega)
    rw [Nat.add_mul _ 1, Nat.one_mul] at h2
    omega
  have hpp : 0 < mode.pitch := by
    have := h.row_ge
    have := h.pitch_ge
    omega
  have hy : pos.y + iy < 2 ^ 32 := by
    have := Nat.le_mul_of_pos_right (pos.y + iy) hpp
    omega
  have hx : pos.x + ix < 2 ^ 32 := by
    have := Nat.le_mul_of_pos_right (pos.x + ix) hb
    omega
  intro w hw
  rw [renderPixel] at hw
  rcases List.mem_append.mp hw with hnew | hold
  · obtain ⟨k, hk, rfl⟩ := List.mem_map.mp hnew
    rw [List.mem_range, entryBytes_length h.graphic] at hk
    refine ⟨?_, show _ + k < _ by omega⟩
    show (((pos.y + iy) % 2 ^ 32 * mode.pitch + (pos.x + ix) % 2 ^ 32 * (mode.bpp / 8)) % 2 ^ 32 + k) % 2 ^ 32 = _
    rw [Nat.mod_eq_of_lt hy, Nat.mod_eq_of_lt hx, Nat.mod_eq_of_lt (by omega), Nat.mod_eq_of_lt (by omega)]
  · exact hs w hold

theorem vesaRenderSymbol_inBounds {pos : Vector2} (h : GraphicsMode mode)
    (hfits : (pos.y + 7) * mode.pitch + (pos.x + 8) * (mode.bpp / 8) ≤ mode.fbSize) (c : BitVec 8) (bg fg : Color)
    (hs : s.InBounds mode) : (vesaRenderSymbol stack mode pos c (font8x8Basic data) bg fg s).InBounds mode := by
  refine List.foldlRecOn (motive := fun t : State => t.InBounds mode) _ _ hs fun t ht iy hiy => ?_
  refine List.foldlRecOn (motive := fun t : State => t.InBounds mode) _ _ ht fun u hu ix hix => ?_
  exact renderPixel_inBounds h hfits (List.mem_range.mp hiy) (List.mem_range.mp hix) c _ bg fg hu

theorem vesaRenderSymbol_cursor {pos : Vector2} (c : BitVec 8) (font : Font) (bg fg : Color) :
    (vesaRenderSymbol stack mode pos c font bg fg s).cursor = s.cursor := by
  refine List.foldlRecOn (motive := fun t : State => t.cursor = s.cursor) _ _ rfl fun t ht iy _ => ?_
  exact List.foldlRecOn (motive := fun t : State => t.cursor = s.cursor) _ _ ht fun u hu ix _ => hu

theorem drawAtCursor_cursor (h : GraphicsMode mode) (c : BitVec 8) :
    (drawAtCursor data stack mode c s).cursor = s.cursor := by
  rw [drawAtCursor, vesaPutc, h.graphic]
  exact vesaRenderSymbol_cursor ..

theorem drawAtCursor_inBounds (h : GraphicsMode mode)
    (hfits : (s.cursor.y + 7) * mode.pitch + (s.cursor.x + 8) * (mode.bpp / 8) ≤ mode.fbSize) (c : BitVec 8)
    (hs : s.InBounds mode) : (drawAtCursor data stack mode c s).InBounds mode := by
  rw [drawAtCursor, vesaPutc, h.graphic]
  exact vesaRenderSymbol_inBounds h hfits c _ _ hs

end Drawing

/-! ### One character -/

section Steps

variable {data stack : ℕ → Byte} {mode : Mode} {s t : State} {c : BitVec 8}

theorem getSymbolSize_graphic (h : GraphicsMode mode) : getSymbolSize data mode = ⟨10, 10⟩ := by
  rw [getSymbolSize, h.graphic]
  rfl

theorem screenMoveCursor_graphic (h : GraphicsMode mode) (s : State) : screenMoveCursor mode s = s := by
  rw [screenMoveCursor, h.graphic]

/-- The picture stays, or it is shifted up by a line and the cursor with it. -/
theorem screenScroll_cases (h : GraphicsMode mode) (hrun : screenScroll data stack mode s = some t) :
    (s.cursor.y < mode.height - 10 ∧ t = s) ∨
    (mode.height - 10 ≤ s.cursor.y ∧ t.rendered = s.rendered ∧
      t.cursor = ⟨s.cursor.x, (s.cursor.y + 2 ^ 32 - 10) % 2 ^ 32⟩) := by
  obtain ⟨-, -, -, -, hheight⟩ := h.bounds
  have hgt := h.height_gt
  have hlimit : (mode.height + 2 ^ 32 - 10) % 2 ^ 32 = mode.height - 10 := by omega
  rw [screenScroll, getSymbolSize_graphic h] at hrun
  generalize vesaScroll stack mode _ (getColor mode false) s.fb = r at hrun
  simp only [hlimit] at hrun
  split_ifs at hrun with hscroll
  · obtain ⟨fb, -, rfl⟩ := Option.map_eq_some_iff.mp hrun
    exact Or.inr ⟨hscroll, rfl, rfl⟩
  · cases hrun
    exact Or.inl ⟨by omega, rfl⟩

/-- Where the cursor is after the `switch`: in the same line, at an even column or behind the
end, or at the start of the next line. -/
theorem typeChar_cursor (data stack : ℕ → Byte) (c : BitVec 8) (h : GraphicsMode mode) (hs : CursorOk mode s) :
    ((typeChar data stack mode c s).cursor.y = s.cursor.y ∧
      ((typeChar data stack mode c s).cursor.x % 2 = 0 ∨ mode.width ≤ (typeChar data stack mode c s).cursor.x)) ∨
    (typeChar data stack mode c s).cursor = ⟨0, s.cursor.y + 10⟩ := by
  obtain ⟨-, -, hwp, hpitch, hheight⟩ := h.bounds
  have hx := hs.x_lt
  have hy := hs.y_lt
  have heven := hs.x_even
  rw [typeChar, getSymbolSize_graphic h]
  split_ifs with hback hx0 htab hline hret hprint
  · rw [drawAtCursor_cursor h, moveTo]
    refine Or.inl ⟨?_, ?_⟩ <;> dsimp only <;> omega
  · exact Or.inl ⟨rfl, Or.inl heven⟩
  · rw [moveTo]
    refine Or.inl ⟨?_, ?_⟩ <;> dsimp only <;> omega
  · rw [moveTo, Nat.mod_eq_of_lt (show s.cursor.y + 10 < 2 ^ 32 by omega)]
    exact Or.inr rfl
  · rw [moveTo]
    refine Or.inl ⟨?_, ?_⟩ <;> dsimp only <;> omega
  · rw [moveTo]
    refine Or.inl ⟨?_, ?_⟩ <;> dsimp only <;> omega
  · exact Or.inl ⟨rfl, Or.inl heven⟩

/-- The end of a line brings the cursor back to a column of the screen. -/
theorem wrapCursor_cursor (data stack : ℕ → Byte) (c : BitVec 8) (h : GraphicsMode mode) (hs : CursorOk mode s) :
    (wrapCursor data mode (typeChar data stack mode c s)).cursor.x < mode.width ∧
    (wrapCursor data mode (typeChar data stack mode c s)).cursor.x % 2 = 0 ∧
    ((wrapCursor data mode (typeChar data stack mode c s)).cursor.y = s.cursor.y ∨
      (wrapCursor data mode (typeChar data stack mode c s)).cursor.y = s.cursor.y + 10) := by
  obtain ⟨hw, -, -, -, hheight⟩ := h.bounds
  have hy := hs.y_lt
  have hcur := typeChar_cursor data stack c h hs
  generalize typeChar data stack mode c s = u at hcur
  rw [wrapCursor, getSymbolSize_graphic h]
  rcases hcur with ⟨hy', hx'⟩ | hnext
  · split_ifs with hwide
    · rw [moveTo]
      dsimp only
      omega
    · omega
  · rw [hnext, if_neg (by dsimp only; omega), hnext]
    dsimp only
    omega

/-- Every character leaves the cursor on the screen. -/
theorem CursorOk.screenPutc_spec (h : GraphicsMode mode) (hs : CursorOk mode s)
    (hrun : screenPutc data stack mode c s = some t) : CursorOk mode t := by
  obtain ⟨-, -, -, -, hheight⟩ := h.bounds
  have hgt := h.height_gt
  have hy := hs.y_lt
  have hline := hs.y_line
  obtain ⟨hx', heven', hy'⟩ := wrapCursor_cursor data stack c h hs
  rw [screenPutc] at hrun
  generalize wrapCursor data mode (typeChar data stack mode c s) = u at *
  obtain ⟨v, hv, rfl⟩ := Option.map_eq_some_iff.mp hrun
  rw [screenMoveCursor_graphic h]
  rcases screenScroll_cases h hv with ⟨hlow, rfl⟩ | ⟨hhigh, -, hcursor⟩
  · exact ⟨hx', hlow, heven', by omega⟩
  · -- the line is a new one, and the picture has been shifted by it
    have hback : (u.cursor.y + 2 ^ 32 - 10) % 2 ^ 32 = s.cursor.y := by omega
    rw [hback] at hcursor
    refine ⟨?_, ?_, ?_, ?_⟩
    · rw [hcursor]
      exact hx'
    · rw [hcursor]
      exact hy
    · rw [hcursor]
      exact heven'
    · rw [hcursor]
      exact hline

/-- A backspace is typed at the start of a line, or at least one symbol behind it. -/
def BackspaceOk (s : State) (c : BitVec 8) : Prop := c = chBackspace → s.cursor.x = 0 ∨ 10 ≤ s.cursor.x

/-- The symbol of a character, or the blank of a backspace, is drawn on the screen. -/
theorem typeChar_inBounds (h : GraphicsMode mode) (hlast : LastLineFits mode) (hs : CursorOk mode s)
    (hc : BackspaceOk s c) (hw : s.InBounds mode) : (typeChar data stack mode c s).InBounds mode := by
  obtain ⟨-, -, hwp, hpitch, hheight⟩ := h.bounds
  have hx := hs.x_lt
  have hy := hs.y_lt
  have heven := hs.x_even
  rw [typeChar, getSymbolSize_graphic h]
  split_ifs with hback hx0 htab hline hret hprint
  · -- the column one symbol to the left is one of the screen
    have hten := (hc hback).resolve_left hx0
    have hmove : moveTo (s.cursor.x + 2 ^ 32 - 10) s.cursor.y s =
        { s with cursor := ⟨s.cursor.x - 10, s.cursor.y⟩ } := by
      rw [moveTo, show (s.cursor.x + 2 ^ 32 - 10) % 2 ^ 32 = s.cursor.x - 10 by omega,
        Nat.mod_eq_of_lt (show s.cursor.y < 2 ^ 32 by omega)]
    rw [hmove]
    have hmoved : CursorOk mode { s with cursor := ⟨s.cursor.x - 10, s.cursor.y⟩ } :=
      ⟨show s.cursor.x - 10 < mode.width by omega, hy, show (s.cursor.x - 10) % 2 = 0 by omega, hs.y_line⟩
    exact drawAtCursor_inBounds h (hmoved.fits h hlast) chSpace hw
  · exact hw
  · exact hw
  · exact hw
  · exact hw
  · exact drawAtCursor_inBounds h (hs.fits h hlast) c hw
  · exact hw

/-- The rest of `screen_putc` draws no symbol. -/
theorem screenPutc_rendered (h : GraphicsMode mode) (hrun : screenPutc data stack mode c s = some t) :
    t.rendered = (typeChar data stack mode c s).rendered := by
  rw [screenPutc] at hrun
  obtain ⟨v, hv, rfl⟩ := Option.map_eq_some_iff.mp hrun
  rw [screenMoveCursor_graphic h]
  have hwrap : (wrapCursor data mode (typeChar data stack mode c s)).rendered =
      (typeChar data stack mode c s).rendered := by
    rw [wrapCursor]
    split_ifs
    · rfl
    · rfl
  rcases screenScroll_cases h hv with ⟨-, rfl⟩ | ⟨-, hrendered, -⟩
  · exact hwrap
  · exact hrendered.trans hwrap

end Steps

/-- Along every string, typed after `screen_clear`, in which no backspace stands less than a
symbol behind the start of its line: the cursor is on the screen between the characters, and all
bytes of symbols, those of the next character included, are written inside the framebuffer. -/
theorem console_in_bounds (data stack : ℕ → Byte) {mode : Mode} (h : GraphicsMode mode) (hlast : LastLineFits mode)
    (init : State) (hinit : init.rendered = []) (s : State)
    (hrun : Reaches (fun s t => ∃ c, BackspaceOk s c ∧ screenPutc data stack mode c s = some t) (screenClear mode init) s) :
    (s.cursor.x < mode.width ∧ s.cursor.y < mode.height - 10) ∧ s.InBounds mode ∧
      ∀ c, BackspaceOk s c → (typeChar data stack mode c s).InBounds mode := by
  have hstart : screenClear mode init = { init with cursor := ⟨0, 0⟩ } := screenMoveCursor_graphic h _
  have hgt := h.height_gt
  have hinv : CursorOk mode s ∧ s.InBounds mode := by
    refine Reaches.invariant (fun s => CursorOk mode s ∧ s.InBounds mode) ?_ hrun ?_
    · rintro s t ⟨hs, hw⟩ ⟨c, hc, hstep⟩
      refine ⟨hs.screenPutc_spec h hstep, ?_⟩
      rw [State.InBounds, screenPutc_rendered h hstep]
      exact typeChar_inBounds h hlast hs hc hw
    · rw [hstart]
      refine ⟨⟨h.bounds.1, show 0 < mode.height - 10 by omega, rfl, rfl⟩, fun w hw => ?_⟩
      rw [show ({ init with cursor := ⟨0, 0⟩ } : State).rendered = [] from hinit] at hw
      exact absurd hw List.not_mem_nil
  obtain ⟨hs, hw⟩ := hinv
  exact ⟨⟨hs.x_lt, hs.y_lt⟩, hw, fun c hc => typeChar_inBounds h hlast hs hc hw⟩

/-! ### A screen of two lines, and one of 640 by 480 -/

/-- The characters of a text one after the other, no backspace behind a tab. -/
def typeAll (data stack : ℕ → Byte) (mode : Mode) : List (BitVec 8) → State → Option State
  | [], s => some s
  | c :: text, s =>
    if c = chBackspace → s.cursor.x = 0 ∨ 10 ≤ s.cursor.x then
      (screenPutc data stack mode c s).bind (typeAll data stack mode text)
    else none

theorem reaches_typeAll {data stack : ℕ → Byte} {mode : Mode} {text : List (BitVec 8)} {s t : State}
    (h : typeAll data stack mode text s = some t) :
    Reaches (fun s t => ∃ c, BackspaceOk s c ∧ screenPutc data stack mode c s = some t) s t := by
  induction text generalizing s with
  | nil =>
    cases h
    exact .refl
  | cons c text ih =>
    rw [typeAll] at h
    split_ifs at h with hback
    obtain ⟨u, hu, hrest⟩ := Option.bind_eq_some_iff.mp h
    exact .head ⟨c, hback, hu⟩ (ih hrest)

/-- Two lines of three symbols. -/
def twoLines : Mode := ⟨.graphic, 672, 32, 21, 32, 8, 7, 5, 7, 2, 3, 0, 0, 0⟩

theorem graphicsMode_twoLines : GraphicsMode twoLines :=
  ⟨rfl, by decide, by decide, by decide, by decide, by decide, by decide⟩

def blank : State := ⟨⟨7, 7⟩, fun _ => 0, [], []⟩

/-- A letter, a line, a letter, a line for which the screen scrolls, a letter that is taken back, and
the next letter in its place. -/
theorem console_scrolled : ∃ s, typeAll (fun _ => 0x18) (fun _ => 0) twoLines [65, 10, 66, 10, 67, 8]
    (screenClear twoLines blank) = some s ∧ s.cursor = ⟨0, 10⟩ ∧ s.rendered.length = 256 ∧
      (typeChar (fun _ => 0x18) (fun _ => 0) twoLines 68 s).InBounds twoLines := by
  obtain ⟨s, hs, hcursor, hrendered⟩ : ∃ s, typeAll (fun _ => 0x18) (fun _ => 0) twoLines [65, 10, 66, 10, 67, 8]
      (screenClear twoLines blank) = some s ∧ s.cursor = ⟨0, 10⟩ ∧ s.rendered.length = 256 :=
    ⟨_, (Option.some_get (by decide +kernel)).symm, by decide +kernel, by decide +kernel⟩
  obtain ⟨-, -, hnext⟩ := console_in_bounds (fun _ => 0x18) (fun _ => 0) graphicsMode_twoLines
    (graphicsMode_twoLines.lastLineFits (by decide)) blank rfl s (reaches_typeAll hs)
  exact ⟨s, hs, hcursor, hrendered, hnext 68 fun h => absurd h (by decide)⟩

def vga : Mode := ⟨.graphic, 1228800, 640, 480, 2560, 32, 255, 16, 255, 8, 255, 0, 0, 0⟩

theorem graphicsMode_vga : GraphicsMode vga := ⟨rfl, by decide, by decide, by decide, by decide, by decide, by decide⟩

def afterTab : State :=
  (screenPutc (fun _ => 0) (fun _ => 0) vga chTab (screenClear vga blank)).get (by decide +kernel)

def afterTabBackspace : State :=
  (screenPutc (fun _ => 0) (fun _ => 0) vga chBackspace afterTab).get (by decide +kernel)

/-- A tab and a backspace: the blank is drawn at column `2 ^ 32 - 6`. -/
theorem backspace_behind_tab : ¬∀ (data stack : ℕ → Byte) (mode : Mode) (init s : State), GraphicsMode mode →
    init.rendered = [] →
    Reaches (fun s t => ∃ c, screenPutc data stack mode c s = some t) (screenClear mode init) s →
    s.InBounds mode := by
  intro hall
  have htab : screenPutc (fun _ => 0) (fun _ => 0) vga chTab (screenClear vga blank) = some afterTab :=
    (Option.some_get _).symm
  have hback : screenPutc (fun _ => 0) (fun _ => 0) vga chBackspace afterTab = some afterTabBackspace :=
    (Option.some_get _).symm
  have hbad : (⟨4294967272, 17179869160⟩ : Store) ∈ afterTabBackspace.rendered := by decide +kernel
  have hin := hall _ _ vga blank afterTabBackspace graphicsMode_vga rfl (.head ⟨_, htab⟩ (.single ⟨_, hback⟩)) _ hbad
  exact absurd hin.1 (by decide)

end JustKernel.Screen
