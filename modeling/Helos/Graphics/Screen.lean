import Helos.Graphics.Blit
import Helos.Graphics.Invalidation
import Helos.Theory.Run
import Mathlib.Algebra.Order.Ring.Int
import Mathlib.Logic.Function.Basic

/-!
# Drawing and presenting

The back buffer, the device and what is to be copied from one to the other, of `graphics/graphics.c`,
while no mouse cursor is loaded. The buffers are addressed by pixels. The back buffer is
`graphics_Doublebuffer`; what is stored beyond it, or where the offset overflows `int`, is undefined.
-/

namespace Helos.Graphics

/-! ### `color.h` -/

structure Color where
  b : UInt8
  g : UInt8
  r : UInt8
  a : UInt8
  deriving DecidableEq, Repr

/-- Four bytes in memory as a `uint32_t`. -/
def littleEndian32 (b₀ b₁ b₂ b₃ : UInt8) : UInt32 :=
  b₀.toUInt32 ||| b₁.toUInt32 <<< 8 ||| b₂.toUInt32 <<< 16 ||| b₃.toUInt32 <<< 24

def Color.word (color : Color) : UInt32 := littleEndian32 color.b color.g color.r color.a

def Color.white : Color := ⟨0xff, 0xff, 0xff, 0xff⟩

def Color.black : Color := ⟨0x00, 0x00, 0x00, 0xff⟩

/-! ### Video modes -/

/-- `EFI_GRAPHICS_PIXEL_FORMAT`, the first two of which are `graphics_PixelFormat`. -/
inductive PixelFormat
  | rgba8bit
  | bgra8bit
  | bitMask
  | bltOnly
  deriving DecidableEq, Repr

structure Mode where
  width : Int
  height : Int
  pixelsPerLine : Int
  pixelFormat : PixelFormat
  deriving DecidableEq, Repr

namespace Mode

def area (mode : Mode) : Area := ⟨0, 0, mode.width, mode.height⟩

/-- Where pixel `x` of row `y` of a buffer is. -/
def index (mode : Mode) (x y : Int) : Int := mode.pixelsPerLine * y + x

end Mode

/-! ### The back buffer -/

def doublebufferSize : Int := 2048 * 1024

/-- A value of an `int`. -/
def IsInt (x : Int) : Prop := -2 ^ 31 ≤ x ∧ x < 2 ^ 31

instance (x : Int) : Decidable (IsInt x) := inferInstanceAs (Decidable (_ ∧ _))

/-- The offset `PixelsPerLine * 4 * posY + 4 * posX` is computed, and is one of the back buffer's. -/
structure Mode.HasPixel (mode : Mode) (posX posY : Int) : Prop where
  line : IsInt (mode.pixelsPerLine * 4)
  row : IsInt (mode.pixelsPerLine * 4 * posY)
  column : IsInt (4 * posX)
  offset : IsInt (mode.pixelsPerLine * 4 * posY + 4 * posX)
  index_nonneg : 0 ≤ mode.index posX posY
  index_lt : mode.index posX posY < doublebufferSize

theorem Mode.hasPixel_iff (mode : Mode) (posX posY : Int) :
    IsInt (mode.pixelsPerLine * 4) ∧ IsInt (mode.pixelsPerLine * 4 * posY) ∧ IsInt (4 * posX) ∧
        IsInt (mode.pixelsPerLine * 4 * posY + 4 * posX) ∧ 0 ≤ mode.index posX posY ∧
        mode.index posX posY < doublebufferSize ↔ mode.HasPixel posX posY :=
  ⟨fun h => ⟨h.1, h.2.1, h.2.2.1, h.2.2.2.1, h.2.2.2.2.1, h.2.2.2.2.2⟩,
    fun h => ⟨h.line, h.row, h.column, h.offset, h.index_nonneg, h.index_lt⟩⟩

instance (mode : Mode) (posX posY : Int) : Decidable (mode.HasPixel posX posY) :=
  decidable_of_iff _ (mode.hasPixel_iff posX posY)

def storePixel (mode : Mode) (value : UInt32) (posX posY : Int) (framebuffer : Pixels) :
    Option Pixels :=
  if mode.HasPixel posX posY then some (Function.update framebuffer (mode.index posX posY) value)
  else none

/-- The loops of `graphics_FillPixel`. -/
def storePixels (mode : Mode) (value : UInt32) (startX startY endX endY : Int) :
    Pixels → Option Pixels :=
  Loops.forUpTo (fun i => Loops.forUpTo (fun j => storePixel mode value i j) startY endY) startX endX

/-- The copy of one rectangle, whose stride is the width of the mode. -/
def copyRect (mode : Mode) (framebuffer deviceFramebuffer : Pixels) (r : Rect) : Option Pixels :=
  copyBuffer32 ⟨framebuffer, toInt r.left, toInt r.top, mode.width, mode.height⟩
    ⟨deviceFramebuffer, toInt r.left, toInt r.top, mode.width, mode.height⟩
    (toInt r.width) (toInt r.height)

/-! ### `graphics.c` -/

structure Screen extends Invalidations where
  mode : Mode
  framebuffer : Pixels
  deviceFramebuffer : Pixels
  /-- In bytes. -/
  framebufferSize : Nat

namespace Screen

def invalidate (screen : Screen) (left top width height : Int) : Screen :=
  { screen with
    toInvalidations := Graphics.invalidate screen.toInvalidations left top width height }

def setPixelRGB (screen : Screen) (posX posY : Int) (color : Color) : Option Screen := do
  let framebuffer ← storePixel screen.mode (littleEndian32 color.r color.g color.b 0) posX posY
    screen.framebuffer
  some { screen with framebuffer := framebuffer }

def setPixelBGR (screen : Screen) (posX posY : Int) (color : Color) : Option Screen := do
  let framebuffer ← storePixel screen.mode (color.word &&& 0x00ffffff) posX posY screen.framebuffer
  some { screen with framebuffer := framebuffer }

def setPixel (screen : Screen) (posX posY : Int) (color : Color) : Option Screen :=
  match screen.mode.pixelFormat with
  | .bgra8bit => screen.setPixelBGR posX posY color
  | .rgba8bit => screen.setPixelRGB posX posY color
  | _ => some screen

def fillPixel (screen : Screen) (startX startY endX endY : Int) (color : Color) :
    Option Screen := do
  let framebuffer ← match screen.mode.pixelFormat with
    | .bgra8bit =>
      storePixels screen.mode (color.word &&& 0x00ffffff) startX startY endX endY screen.framebuffer
    -- The struct of this branch has its bytes in the order of a colour.
    | .rgba8bit =>
      storePixels screen.mode (littleEndian32 color.b color.g color.r 0) startX startY endX endY
        screen.framebuffer
    | _ => some screen.framebuffer
  some (({ screen with framebuffer := framebuffer } : Screen).invalidate startX startY
    (endX - startX) (endY - startY))

/-- `graphics_SwapBuffer` of a screen without a mouse cursor. That the `memcpy` of a framebuffer of more
than 8 MiB reads behind `graphics_Doublebuffer` is left out. -/
def swapBuffer (screen : Screen) : Option Screen := do
  let deviceFramebuffer ←
    if screen.invalidatedScreen then
      -- A last pixel of which only some bytes are copied is left out.
      some (copyPixels screen.deviceFramebuffer screen.framebuffer 0 0 (screen.framebufferSize / 4))
    else
      screen.invalidated.foldlM (copyRect screen.mode screen.framebuffer) screen.deviceFramebuffer
  some { screen with
    deviceFramebuffer := deviceFramebuffer, invalidatedScreen := false, invalidated := [] }

end Screen

/-- What the program draws with. -/
inductive DrawCall
  | fillPixel (startX startY endX endY : Int) (color : Color)
  | setPixel (posX posY : Int) (color : Color)
  | invalidate (left top width height : Int)
  deriving DecidableEq, Repr

def Screen.draw (screen : Screen) : DrawCall → Option Screen
  | .fillPixel startX startY endX endY color => screen.fillPixel startX startY endX endY color
  | .setPixel posX posY color => screen.setPixel posX posY color
  | .invalidate left top width height => some (screen.invalidate left top width height)

/-! ### Storing -/

variable {mode : Mode} (value : UInt32) (framebuffer : Pixels)

theorem storePixel_spec {posX posY : Int} (h : mode.HasPixel posX posY) :
    ∃ result, storePixel mode value posX posY framebuffer = some result ∧
      Patched {mode.index posX posY} (fun _ => value) framebuffer result := by
  refine ⟨_, if_pos h, ?_, ?_⟩
  · rintro _ rfl
    exact Function.update_self _ _ _
  · intro k hk
    exact Function.update_of_ne hk _ _

/-- The places of some pixels. -/
def placed (place : Int → Int → Int) (pixels : Set (Int × Int)) : Set Int :=
  {k | ∃ x y, (x, y) ∈ pixels ∧ k = place x y}

theorem placed_union (place : Int → Int → Int) (pixels pixels' : Set (Int × Int)) :
    placed place (pixels ∪ pixels') = placed place pixels ∪ placed place pixels' := by
  ext k
  constructor
  · rintro ⟨x, y, hp | hp, hk⟩
    · exact Or.inl ⟨x, y, hp, hk⟩
    · exact Or.inr ⟨x, y, hp, hk⟩
  · rintro (⟨x, y, hp, hk⟩ | ⟨x, y, hp, hk⟩)
    · exact ⟨x, y, Or.inl hp, hk⟩
    · exact ⟨x, y, Or.inr hp, hk⟩

theorem storePixels_spec {startX startY endX endY : Int}
    (h : ∀ x y, startX ≤ x → x < endX → startY ≤ y → y < endY → mode.HasPixel x y) :
    ∃ result, storePixels mode value startX startY endX endY framebuffer = some result ∧
      Patched (placed mode.index {p | startX ≤ p.1 ∧ p.1 < endX ∧ startY ≤ p.2 ∧ p.2 < endY})
        (fun _ => value) framebuffer result := by
  have hindices : placed mode.index {p | startX ≤ p.1 ∧ p.1 < endX ∧ startY ≤ p.2 ∧ p.2 < endY} =
      {k | ∃ i, startX ≤ i ∧ i < endX ∧
        k ∈ {k | ∃ j, startY ≤ j ∧ j < endY ∧ k ∈ ({mode.index i j} : Set Int)}} := by
    ext k
    constructor
    · rintro ⟨x, y, ⟨hx, hxe, hy, hye⟩, hk⟩
      exact ⟨x, hx, hxe, y, hy, hye, hk⟩
    · rintro ⟨x, hx, hxe, y, hy, hye, hk⟩
      exact ⟨x, y, ⟨hx, hxe, hy, hye⟩, hk⟩
  rw [hindices]
  apply Patched.forUpTo
  intro i _ hi hie
  exact Patched.forUpTo fun j pixels hj hje => storePixel_spec value pixels (h i j hi hie hj hje)

end Helos.Graphics
