import Cthulhu.Lib.Run
import Cthulhu.Word
import Mathlib.Logic.Function.Basic

/-!
# The screen and its frame buffer

`grx.c` draws into `local_fb` and notes each pixel that it changes in a bit array; `flush_buffer` brings the noted pixels to
the frame buffer. Its counter of bytes knows no pitch, and for 32 bits to a pixel it copies from the frame buffer into the
bit array.
-/

namespace Cthulhu

open Lib

/-- The values that `set_graphics_mode` finds in the boot loader's structure. -/
structure GraphicsMode where
  w : ℕ
  h : ℕ
  fbpitch : ℕ
  bpp : ℕ
  w_lt : w < 2 ^ 32
  h_lt : h < 2 ^ 32

/-- The memory of the screen: bytes of the frame buffer, words of `local_fb`, bytes of `local_fb_changes`. -/
structure Screen where
  framebuffer : ℕ → ℕ
  localFb : ℕ → ℕ
  localFbChanges : ℕ → ℕ

/-- `color_t`. -/
structure Color where
  r : ℕ
  g : ℕ
  b : ℕ

/-- `image_type`. -/
inductive ImageType
  | monochromatic
  | rgb
  | other

/-- `image_t`. -/
structure Image where
  imageData : ℕ → ℕ
  imageType : ImageType
  w : ℕ
  h : ℕ

/-- `BITTEST(a, b)`. -/
def bitTest (a : ℕ → ℕ) (b : ℕ) : Bool := bit (a (b / 8)) (b % 8)

/-- `BITSET(a, b)` and `BITCLEAR(a, b)`. -/
def bitAssign (a : ℕ → ℕ) (b : ℕ) (value : Bool) : ℕ → ℕ := Function.update a (b / 8) (setBit (a (b / 8)) (b % 8) value)

/-- The word of a color. -/
def Color.word (c : Color) : ℕ := c.b <<< 16 ||| c.g <<< 8 ||| c.r

/-- The values of a 32-bit counter that starts at `first` and runs below the sum of it and a size, which can wrap. -/
def counter (first size : ℕ) : List ℕ := List.range' first ((first + size) % 2 ^ 32 - first)

section Drawing

variable (m : GraphicsMode)

/-- The color that a pixel of an image is drawn with, if it is. -/
def Image.colorAt (image : Image) (recolor : Color) (dx dy : ℕ) : Option Color :=
  match image.imageType with
  | .rgb =>
    let bps := (dy * image.w + dx) * 3 % 2 ^ 32
    some ⟨image.imageData bps, image.imageData (bps + 1), image.imageData (bps + 2)⟩
  | .monochromatic =>
    let bsp := (dy * image.w + dx) % 2 ^ 32
    if bitTest image.imageData bsp then some recolor else none
  | .other => some recolor

/-- The place of a pixel. -/
def GraphicsMode.pixelpos (px py : ℕ) : ℕ := (py * m.w + px) % 2 ^ 32

/-- One pixel drawn. -/
def Screen.draw (s : Screen) (pixelpos color : ℕ) : Screen :=
  { s with
    localFb := Function.update s.localFb pixelpos color
    localFbChanges := bitAssign s.localFbChanges pixelpos true }

/-- `blit_colored`. -/
def blitColored (image : Image) (x y : ℕ) (recolor : Color) (s : Screen) : Screen :=
  run (fun s py =>
    if py ≥ m.h then s
    else run (fun s px =>
      if px ≥ m.w then s
      else
        match image.colorAt recolor (px - x) (py - y) with
        | some color => s.draw (m.pixelpos px py) color.word
        | none => s) s (counter x image.w)) s (counter y image.h)

/-- `clear_screen`. -/
def clearScreen (color : Color) (s : Screen) : Screen :=
  run (fun s py => run (fun s px => s.draw (m.pixelpos px py) color.word) s (List.range m.w)) s (List.range m.h)

/-- One round of `flush_buffer`. Beside the screen goes `ppx`. -/
def flushPixel (st : Screen × ℕ) (i : ℕ) : Screen × ℕ :=
  let s :=
    if bitTest st.1.localFbChanges i then
      let s := { st.1 with localFbChanges := bitAssign st.1.localFbChanges i false }
      let color := s.localFb i
      if m.bpp = 32 then
        { s with localFbChanges := fun k => if i ≤ k ∧ k < i + 4 then s.framebuffer (st.2 + (k - i)) else s.localFbChanges k }
      else if m.bpp = 24 then
        { s with
          framebuffer := Function.update (Function.update (Function.update s.framebuffer st.2 (color >>> 16 &&& 0xFF))
            (st.2 + 1) (color >>> 8 &&& 0xFF)) (st.2 + 2) (color &&& 0xFF) }
      else s
    else st.1
  let ppx := if m.bpp = 32 then st.2 + 4 else st.2
  (s, if m.bpp = 24 then ppx + 3 else ppx)

/-- `flush_buffer`. -/
def flushBuffer (s : Screen) : Screen := (run (flushPixel m) (s, 0) (List.range (m.w * m.h % 2 ^ 32))).1

/-- The bytes of `local_fb`. -/
def GraphicsMode.bufferSize : ℕ := m.w * m.h * 32 % 2 ^ 32

/-- The bytes of `local_fb_changes`. -/
def GraphicsMode.changeSlots : ℕ := (m.w * m.h + 8 - 1) % 2 ^ 32 / 8

/-- `scroll_up`, as long as it stays in `local_fb`. -/
def scrollUp (bypx : ℕ) (s : Screen) : Option Screen :=
  let rows := (m.h + 2 ^ 32 - bypx) % 2 ^ 32
  let source := bypx * m.w % 2 ^ 32
  let moved := rows * m.w * 4 % 2 ^ 32
  let target := rows * m.w % 2 ^ 32
  let cleared := bypx * m.w * 4 % 2 ^ 32
  if 4 * source + moved ≤ m.bufferSize ∧ 4 * target + cleared ≤ m.bufferSize then
    let movedFb := fun j => if 4 * j < moved then s.localFb (source + j) else s.localFb j
    some (flushBuffer m { s with
      localFb := fun j => if target ≤ j ∧ 4 * j < 4 * target + cleared then 0 else movedFb j
      localFbChanges := fun k => if k < m.changeSlots then 0xFF else s.localFbChanges k })
  else none

/-- A call that draws. -/
inductive DrawCall
  | blitColored (image : Image) (x y : ℕ) (recolor : Color)
  | clearScreen (color : Color)
  | scrollUp (bypx : ℕ)

/-- What it does. -/
def DrawCall.apply : DrawCall → Screen → Option Screen
  | .blitColored image x y recolor, s => some (Cthulhu.blitColored m image x y recolor s)
  | .clearScreen color, s => some (Cthulhu.clearScreen m color s)
  | .scrollUp bypx, s => Cthulhu.scrollUp m bypx s

/-- `local_fb` has a word for each pixel. -/
def GraphicsMode.Fits : Prop := 4 * (m.w * m.h) ≤ m.bufferSize

instance : Decidable m.Fits := inferInstanceAs (Decidable (_ ≤ _))

/-- The screen at start-up, where `local_fb` is large enough for it. -/
def startScreen (framebuffer : ℕ → ℕ) : Option Screen :=
  if m.Fits then some ⟨framebuffer, fun _ => 0, fun _ => 0⟩ else none

/-- The screen after some calls. -/
def drawAll (framebuffer : ℕ → ℕ) (calls : List DrawCall) : Option Screen :=
  calls.foldl (fun s call => s.bind (call.apply m)) (startScreen m framebuffer)

end Drawing

/-- The pixel is drawn by the call. -/
def DrawCall.Draws (m : GraphicsMode) (i : ℕ) : DrawCall → Prop
  | .blitColored image x y recolor => ∃ py ∈ counter y image.h, py < m.h ∧ ∃ px ∈ counter x image.w, px < m.w ∧
      i = m.pixelpos px py ∧ (image.colorAt recolor (px - x) (py - y)).isSome
  | .clearScreen _ => i < m.w * m.h
  | .scrollUp _ => i < m.w * m.h

/-- The bytes of a pixel: those of the word for 32 bits, and blue, green and red for 24. -/
def GraphicsMode.pixelBytes (m : GraphicsMode) (color : ℕ) : List ℕ :=
  if m.bpp = 32 then [color &&& 0xFF, color >>> 8 &&& 0xFF, color >>> 16 &&& 0xFF, color >>> 24 &&& 0xFF]
  else [color >>> 16 &&& 0xFF, color >>> 8 &&& 0xFF, color &&& 0xFF]

/-- The frame buffer has the pixel as `local_fb` has it. -/
def Screen.Encodes (m : GraphicsMode) (s : Screen) (x y : ℕ) : Prop :=
  (List.range (m.bpp / 8)).map (fun k => s.framebuffer (m.fbpitch * y + m.bpp / 8 * x + k)) =
    m.pixelBytes (s.localFb (m.w * y + x))

/-- What a flush is for: the pixels that were drawn are shown, no change is left to be shown, and nothing else is done to
`local_fb` and its changes. -/
structure Flushed (m : GraphicsMode) (s : Screen) (drawn : ℕ → Prop) : Prop where
  shown : ∀ x < m.w, ∀ y < m.h, drawn (m.w * y + x) → (flushBuffer m s).Encodes m x y
  clear : ∀ i < m.w * m.h, bitTest (flushBuffer m s).localFbChanges i = false
  values : (flushBuffer m s).localFb = s.localFb
  changes : ∀ i, bitTest (flushBuffer m s).localFbChanges i = true → bitTest s.localFbChanges i = true

/-- It does so after every sequence of calls that scroll by no more than the screen. -/
def FlushesAll (m : GraphicsMode) : Prop :=
  ∀ framebuffer calls, (∀ bypx, DrawCall.scrollUp bypx ∈ calls → bypx ≤ m.h) →
    ∃ s, drawAll m framebuffer calls = some s ∧ Flushed m s fun i => ∃ call ∈ calls, call.Draws m i

end Cthulhu
