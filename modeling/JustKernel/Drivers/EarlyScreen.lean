import JustKernel.Base.Memory
import Mathlib.Data.Nat.Notation

/-! The console: `drivers/early_screen.c` over the drawing functions of
`drivers/vesa.c`. A character is drawn at the cursor, which is kept in pixels in a
graphics mode and in cells in text mode; control characters move the cursor, and at the
bottom the picture is shifted up by one line. Coordinates and indices are `uint32_t` and
wrap. The framebuffer is a function of the index, and `vesa_render_symbol` notes each byte
that it writes. Two things are parameters: the shapes of the font, and the bytes of the
stack behind the local variable with the colour, which a pixel of more than four bytes
copies as well. -/

namespace JustKernel.Screen

open Memory (Byte)

/-! ### Modes, colours and fonts -/

/-- `vesa_mode_t`. -/
inductive FbType
  | text | graphic
  deriving DecidableEq

/-- The fields of `vesa_video_mode_t` that drawing uses, other than the address. -/
structure Mode where
  fbType : FbType
  fbSize : ℕ
  width : ℕ
  height : ℕ
  pitch : ℕ
  bpp : ℕ
  rMask : ℕ
  rPos : ℕ
  gMask : ℕ
  gPos : ℕ
  bMask : ℕ
  bPos : ℕ
  aMask : ℕ
  aPos : ℕ

/-- `vesa_vector2_t`. -/
structure Vector2 where
  x : ℕ
  y : ℕ
  deriving DecidableEq

/-- `vesa_color_t`. -/
structure Color where
  raw : ℕ
  r : ℕ
  g : ℕ
  b : ℕ
  a : ℕ

/-- `font_t`. -/
structure Font where
  width : ℕ
  height : ℕ
  data : ℕ → Byte

def font8x8Basic (data : ℕ → Byte) : Font := ⟨8, 8, data⟩

/-- One byte written by `vesa_render_symbol`: its index in the framebuffer, and what the
index would be in arithmetic that does not wrap. -/
structure Store where
  index : ℕ
  exact : ℕ
  deriving DecidableEq

/-- The cursor, the framebuffer, the bytes that symbols were drawn with so far and the bytes
written to ports, the last one first. -/
structure State where
  cursor : Vector2
  fb : ℕ → Byte
  rendered : List Store
  ports : List (ℕ × ℕ)

section Model

variable (data stack : ℕ → Byte) (mode : Mode)

/-! ### Drawing -/

/-- The colour as a pixel of the mode. -/
def fullColor (color : Color) : ℕ :=
  (((color.r &&& mode.rMask) <<< mode.rPos) ||| ((color.g &&& mode.gMask) <<< mode.gPos) |||
    ((color.b &&& mode.bMask) <<< mode.bPos) ||| ((color.a &&& mode.aMask) <<< mode.aPos)) % 2 ^ 32

/-- The bytes that `vesa_color2entry` writes. -/
def entryBytes (color : Color) : List Byte :=
  match mode.fbType with
  | .text => [0x20, BitVec.ofNat 8 (color.raw <<< 4 ||| color.raw)]
  | .graphic => (List.range (mode.bpp / 8)).map fun k =>
      if k < 4 then BitVec.ofNat 8 (fullColor mode color / 256 ^ k) else stack k

/-- Bytes one after the other from an index on. -/
def putBytes (fb : ℕ → Byte) (index : ℕ) : List Byte → ℕ → Byte
  | [] => fb
  | b :: bytes => putBytes (Function.update fb (index % 2 ^ 32) b) (index + 1) bytes

def vesaColor2entry (fb : ℕ → Byte) (index : ℕ) (color : Color) : ℕ → Byte :=
  putBytes fb index (entryBytes stack mode color)

def vesaPutSymbol (pos : Vector2) (c : BitVec 8) (bg fg : Color) (s : State) : State :=
  let idx := (pos.y * mode.pitch + pos.x * (mode.bpp / 8)) % 2 ^ 32
  { s with fb := putBytes s.fb idx [c, BitVec.ofNat 8 (bg.raw <<< 4 ||| fg.raw)] }

/-- The body of the two loops of `vesa_render_symbol`. -/
def renderPixel (pos : Vector2) (c : BitVec 8) (font : Font) (bg fg : Color) (iy ix : ℕ) (s : State) : State :=
  let pixel := (font.data (c.toNat * font.height + iy)).getLsbD ix
  let y := (pos.y + iy) % 2 ^ 32
  let x := (pos.x + ix) % 2 ^ 32
  let idx := (y * mode.pitch + x * (mode.bpp / 8)) % 2 ^ 32
  let color := if pixel then fg else bg
  { s with
    fb := vesaColor2entry stack mode s.fb idx color
    rendered := (List.range (entryBytes stack mode color).length).map (fun k =>
      ⟨(idx + k) % 2 ^ 32, (pos.y + iy) * mode.pitch + (pos.x + ix) * (mode.bpp / 8) + k⟩) ++ s.rendered }

def vesaRenderSymbol (pos : Vector2) (c : BitVec 8) (font : Font) (bg fg : Color) (s : State) : State :=
  (List.range font.height).foldl (fun s iy =>
    (List.range font.width).foldl (fun s ix => renderPixel stack mode pos c font bg fg iy ix s) s) s

def vesaPutc (pos : Vector2) (c : BitVec 8) (font : Font) (bg fg : Color) (s : State) : State :=
  match mode.fbType with
  | .text => vesaPutSymbol mode pos c bg fg s
  | .graphic => vesaRenderSymbol stack mode pos c font bg fg s

/-- More iterations than the loop can have before it comes to an index again. -/
abbrev fillFuel : ℕ := 2 ^ 32

/-- The loop of `vesa_scroll`; it advances by bits where it means bytes. -/
def fillLoop (bg : Color) : ℕ → ℕ → (ℕ → Byte) → Option (ℕ → Byte)
  | 0, _, _ => none
  | n + 1, i, fb =>
    if i < mode.fbSize then fillLoop bg n ((i + mode.bpp) % 2 ^ 32) (vesaColor2entry stack mode fb i bg)
    else some fb

/-- `memcpy` from index `src` to the start, byte by byte. -/
def copyDown (src : ℕ) (fb : ℕ → Byte) : ℕ → ℕ → Byte
  | 0 => fb
  | n + 1 => Function.update (copyDown src fb n) n (copyDown src fb n ((src + n) % 2 ^ 32))

def vesaScroll (rows : ℕ) (bg : Color) (fb : ℕ → Byte) : Option (ℕ → Byte) :=
  let rowsShift := rows * mode.pitch % 2 ^ 32
  let delta := (mode.fbSize + 2 ^ 32 - rowsShift) % 2 ^ 32
  (fillLoop stack mode bg fillFuel delta fb).map fun fb => copyDown rowsShift fb delta

/-! ### The console -/

def getSymbolSize : Vector2 :=
  match mode.fbType with
  | .text => ⟨1, 1⟩
  | .graphic => ⟨(font8x8Basic data).width + 2, (font8x8Basic data).height + 2⟩

/-- White on black. -/
def getColor (fg : Bool) : Color :=
  match mode.fbType with
  | .text => if fg then ⟨15, 0, 0, 0, 0⟩ else ⟨0, 0, 0, 0, 0⟩
  | .graphic => if fg then ⟨0, 255, 255, 255, 0⟩ else ⟨0, 0, 0, 0, 0⟩

/-- `port_outb`. -/
def portOutb (port value : ℕ) (s : State) : State := { s with ports := (port, value % 256) :: s.ports }

def screenMoveCursor (s : State) : State :=
  match mode.fbType with
  | .graphic => s
  | .text =>
    let cursorLocation := (s.cursor.y * mode.width + s.cursor.x) % 2 ^ 16
    portOutb 0x3D5 cursorLocation (portOutb 0x3D4 15 (portOutb 0x3D5 (cursorLocation / 256) (portOutb 0x3D4 14 s)))

def screenScroll (s : State) : Option State :=
  let size := getSymbolSize data mode
  if (mode.height + 2 ^ 32 - size.y) % 2 ^ 32 ≤ s.cursor.y then
    (vesaScroll stack mode size.y (getColor mode false) s.fb).map fun fb =>
      { s with fb := fb, cursor := ⟨s.cursor.x, (s.cursor.y + 2 ^ 32 - size.y) % 2 ^ 32⟩ }
  else some s

/-- The symbol of a character at the cursor. -/
def drawAtCursor (c : BitVec 8) (s : State) : State :=
  vesaPutc stack mode s.cursor c (font8x8Basic data) (getColor mode false) (getColor mode true) s

def moveTo (x y : ℕ) (s : State) : State := { s with cursor := ⟨x % 2 ^ 32, y % 2 ^ 32⟩ }

def chBackspace : BitVec 8 := 8
def chTab : BitVec 8 := 9
def chNewline : BitVec 8 := 10
def chReturn : BitVec 8 := 13
def chSpace : BitVec 8 := 32

/-- The `switch` of `screen_putc`; `char` is signed. -/
def typeChar (c : BitVec 8) (s : State) : State :=
  let size := getSymbolSize data mode
  if c = chBackspace then
    if s.cursor.x ≠ 0 then
      drawAtCursor data stack mode chSpace (moveTo (s.cursor.x + 2 ^ 32 - size.x) s.cursor.y s)
    else s
  else if c = chTab then moveTo (s.cursor.x + (4 - s.cursor.x % 4)) s.cursor.y s
  else if c = chNewline then moveTo 0 (s.cursor.y + size.y) s
  else if c = chReturn then moveTo 0 s.cursor.y s
  else if chSpace.sle c then
    moveTo (s.cursor.x + size.x) s.cursor.y (drawAtCursor data stack mode c s)
  else s

/-- The end of a line. -/
def wrapCursor (s : State) : State :=
  if mode.width ≤ s.cursor.x then moveTo 0 (s.cursor.y + (getSymbolSize data mode).y) s else s

/-- `screen_putc`; `none` if the loop of `vesa_scroll` does not end. -/
def screenPutc (c : BitVec 8) (s : State) : Option State :=
  (screenScroll data stack mode (wrapCursor data mode (typeChar data stack mode c s))).map (screenMoveCursor mode)

def screenClear (s : State) : State := screenMoveCursor mode { s with cursor := ⟨0, 0⟩ }

end Model

end JustKernel.Screen
