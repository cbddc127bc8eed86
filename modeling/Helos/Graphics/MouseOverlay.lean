import Helos.Driver.Input
import Helos.Graphics.Clipping
import Helos.Graphics.Painting

/-!
# The mouse cursor

`__graphics__UpdateMouse` of `graphics/graphics.c`: the pixels under the cursor are saved in an overlay
before it is drawn, and put back before it is drawn elsewhere. What is drawn in between goes under the
cursor, and is lost when the pixels are put back. A cursor that is moved beyond a side of the screen
by more than touching it makes the copies undefined, and so does one on a line of a large screen that
the back buffer has no place for.
-/

namespace Helos.Graphics

/-- `MOUSE_OVERLAY_SIZE` -/
def mouseOverlaySize : Int := 32

/-- `xcursor_ChunkHeader_Image`, of an image that the overlay has room for. -/
structure CursorImage where
  width : UInt32
  height : UInt32
  xhot : UInt32
  yhot : UInt32
  pixels : Pixels
  width_le : width.toNat ≤ 32
  height_le : height.toNat ≤ 32

/-- The screen, the position of the mouse and the statics of the cursor. -/
structure MouseScreen extends Screen where
  cursor : Option CursorImage
  cursorX : Int
  cursorY : Int
  desktopWidth : Int
  desktopHeight : Int
  lastMouseX : Int
  lastMouseY : Int
  lastMouseSizeX : Int
  lastMouseSizeY : Int
  mouseOverlay : Pixels

instance (image : Image) (x y : Int) : Decidable (image.Has x y) :=
  inferInstanceAs (Decidable (_ ∧ _))

/-- The pixels of a region that an image and the screen have are those of `graphics_Doublebuffer`. -/
def Image.InBackBuffer (image screen : Image) (countX countY : Int) : Prop :=
  ∀ x < countX.toNat, ∀ y < countY.toNat, image.Has x y → screen.Has x y →
    0 ≤ screen.address x y ∧ screen.address x y < doublebufferSize

instance (image screen : Image) (countX countY : Int) :
    Decidable (image.InBackBuffer screen countX countY) :=
  inferInstanceAs (Decidable (∀ x < countX.toNat, ∀ y < countY.toNat, _ → _ → _))

namespace MouseScreen

def overlayImage (s : MouseScreen) : Image :=
  ⟨s.mouseOverlay, 0, 0, mouseOverlaySize, mouseOverlaySize⟩

def screenImage (s : MouseScreen) (x y : Int) : Image :=
  ⟨s.framebuffer, x, y, s.mode.width, s.mode.height⟩

/-- The first copy of the function: the back buffer with the overlay at the last position. A pixel
behind the array is not stored to. -/
def erased (s : MouseScreen) : Option Pixels :=
  if s.overlayImage.InBackBuffer (s.screenImage s.lastMouseX s.lastMouseY) s.lastMouseSizeX
      s.lastMouseSizeY then
    copyBuffer32 s.overlayImage (s.screenImage s.lastMouseX s.lastMouseY) s.lastMouseSizeX
      s.lastMouseSizeY
  else none

/-- The second copy, of what comes to be under the cursor. -/
def saveUnder (s : MouseScreen) (imgX imgY width height : Int) : Option Pixels :=
  if s.overlayImage.InBackBuffer (s.screenImage imgX imgY) width height then
    copyBuffer32 (s.screenImage imgX imgY) s.overlayImage width height
  else none

/-- The position of the image, for a coordinate of the mouse. The sum is unsigned. -/
def imagePosition (coordinate : Int) (hot : UInt32) : Int := toInt (u32 (coordinate - hot.toNat + 1))

def Moved (s : MouseScreen) (cursor : CursorImage) : Prop :=
  imagePosition s.cursorX cursor.xhot ≠ s.lastMouseX ∨
    imagePosition s.cursorY cursor.yhot ≠ s.lastMouseY ∨
    cursor.width.toNat ≠ u32 s.lastMouseSizeX ∨ cursor.height.toNat ≠ u32 s.lastMouseSizeY

instance (s : MouseScreen) (cursor : CursorImage) : Decidable (s.Moved cursor) :=
  inferInstanceAs (Decidable (_ ∨ _))

/-- The rest of the function, once the last cursor is erased. -/
def showCursor (s : MouseScreen) (cursor : CursorImage) : Option MouseScreen := do
  let imgX := imagePosition s.cursorX cursor.xhot
  let imgY := imagePosition s.cursorY cursor.yhot
  let width := toInt cursor.width.toNat
  let height := toInt cursor.height.toNat
  let mouseOverlay ← s.saveUnder imgX imgY width height
  -- The pixels that are drawn over are those that were saved.
  let framebuffer ← renderBuffer32 ⟨cursor.pixels, 0, 0, width, height⟩ (s.screenImage imgX imgY)
    width height
  let screen := ({ s.toScreen with framebuffer := framebuffer } : Screen)
  let screen := screen.invalidate s.lastMouseX s.lastMouseY s.lastMouseSizeX s.lastMouseSizeY
  let screen := screen.invalidate imgX imgY width height
  some { s with
    toScreen := screen
    mouseOverlay := mouseOverlay
    lastMouseX := imgX
    lastMouseY := imgY
    lastMouseSizeX := width
    lastMouseSizeY := height }

/-- `__graphics__UpdateMouse`. -/
def updateMouse (s : MouseScreen) : Option MouseScreen :=
  match s.cursor with
  | none => some s
  | some cursor =>
    if s.Moved cursor then do
      let framebuffer ← s.erased
      showCursor { s with framebuffer := framebuffer } cursor
    else some s

/-- `input_source_MoveMouse`, of which the queue is left out. -/
def moveMouse (s : MouseScreen) (x y : Int) : MouseScreen :=
  { s with
    cursorX := intminmax (s.cursorX + x) 0 s.desktopWidth
    cursorY := intminmax (s.cursorY + y) 0 s.desktopHeight }

/-- The cursor goes where the input source puts it. -/
theorem moveMouse_source {s : MouseScreen} {input next : Input} {event : Option InputEvent}
    {x y : Int} (hx : s.cursorX = input.cursorX) (hy : s.cursorY = input.cursorY)
    (hwidth : s.desktopWidth = input.desktopWidth) (hheight : s.desktopHeight = input.desktopHeight)
    (h : input.moveMouse x y = some (next, event)) :
    (s.moveMouse x y).cursorX = next.cursorX ∧ (s.moveMouse x y).cursorY = next.cursorY := by
  obtain ⟨hnextX, hnextY⟩ := Input.queueEvent_cursor h
  rw [hnextX, hnextY, moveMouse, hx, hy, hwidth, hheight]
  exact ⟨rfl, rfl⟩

end MouseScreen

inductive MouseAction
  | draw (call : DrawCall)
  | moveMouse (x y : Int)
  | updateMouse
  deriving DecidableEq, Repr

def MouseScreen.step (s : MouseScreen) : MouseAction → Option MouseScreen
  | .draw call => (s.toScreen.draw call).map fun screen => { s with toScreen := screen }
  | .moveMouse x y => some (s.moveMouse x y)
  | .updateMouse => s.updateMouse

/-- The statics of the cursor before anything is shown. -/
def MouseScreen.fresh (s : MouseScreen) : MouseScreen :=
  { s with
    lastMouseX := 0
    lastMouseY := 0
    lastMouseSizeX := 0
    lastMouseSizeY := 0
    mouseOverlay := fun _ => 0 }

/-- A screen with a cursor, beside one that gets the draws alone. -/
def stepBoth (pair : MouseScreen × Screen) (action : MouseAction) :
    Option (MouseScreen × Screen) := do
  let s ← pair.1.step action
  let plain ← match action with
    | .draw call => pair.2.draw call
    | _ => some pair.2
  some (s, plain)

/-- Without the cursor there is what the draws alone produce. -/
def Transparent (pair : MouseScreen × Screen) : Prop :=
  pair.1.erased = some pair.2.framebuffer

/-! ### What an action needs -/

namespace MouseScreen

/-- The part of the back buffer that is saved in the overlay. -/
def saved (s : MouseScreen) : Set Int :=
  s.overlayImage.clipped (s.screenImage s.lastMouseX s.lastMouseY) s.lastMouseSizeX s.lastMouseSizeY

/-- The overlay, at the places that its pixels were saved from. -/
def savedPixels (s : MouseScreen) : Pixels :=
  s.overlayImage.moved (s.screenImage s.lastMouseX s.lastMouseY)

/-- The image of a cursor does not lie beyond the left or right side of the screen, if it has a row on
the screen, and the back buffer has those of its pixels that are on the screen. -/
structure CursorFits (s : MouseScreen) (cursor : CursorImage) : Prop where
  sides : (∃ y : Int, 0 ≤ y ∧ y < cursor.height.toNat ∧
      0 ≤ imagePosition s.cursorY cursor.yhot + y ∧
      imagePosition s.cursorY cursor.yhot + y < s.mode.height) →
    imagePosition s.cursorX cursor.xhot ≤ s.mode.width ∧
      0 ≤ imagePosition s.cursorX cursor.xhot + cursor.width.toNat
  places : ∀ x < cursor.width.toNat, ∀ y < cursor.height.toNat,
    0 ≤ imagePosition s.cursorX cursor.xhot + x →
    imagePosition s.cursorX cursor.xhot + x < s.mode.width →
    0 ≤ imagePosition s.cursorY cursor.yhot + y →
    imagePosition s.cursorY cursor.yhot + y < s.mode.height →
    imagePosition s.cursorX cursor.xhot + x +
      s.mode.width * (imagePosition s.cursorY cursor.yhot + y) < doublebufferSize

end MouseScreen

def DrawCall.value (format : PixelFormat) : DrawCall → UInt32
  | .fillPixel _ _ _ _ color => littleEndian32 color.b color.g color.r 0
  | .setPixel _ _ color => color.stored format
  | .invalidate _ _ _ _ => 0

/-- A draw has its pixels in the back buffer, and stores under the cursor what was saved from there. A
cursor that is drawn anew fits. -/
def MouseAction.Fits (s : MouseScreen) : MouseAction → Prop
  | .draw call => s.mode.IsDrawn → (∀ p ∈ call.drawn, s.mode.HasPixel p.1 p.2) ∧
      ∀ k ∈ placed s.mode.index call.drawn, k ∈ s.saved →
        s.savedPixels k = call.value s.mode.pixelFormat
  | .moveMouse _ _ => True
  | .updateMouse => ∀ cursor, s.cursor = some cursor → s.Moved cursor → s.CursorFits cursor

/-! ### Drawing -/

section Drawing

variable {screen next : Screen} {call : DrawCall}

def Screen.stored (screen : Screen) (call : DrawCall) : Set Int :=
  {k | screen.mode.IsDrawn ∧ k ∈ placed screen.mode.index call.drawn}

theorem rectangle_eq (startX startY endX endY : Int) :
    (Area.mk startX startY (endX - startX) (endY - startY)).pixels =
      rectangle startX startY endX endY := by
  ext p
  simp only [Area.pixels, rectangle, Set.mem_ofPred_eq]
  omega

theorem stored_of_drawn (h : screen.mode.IsDrawn) (call : DrawCall) :
    screen.stored call = placed screen.mode.index call.drawn :=
  Set.ext fun _ => and_iff_right h

theorem stored_of_not_drawn (h : ¬ screen.mode.IsDrawn) (call : DrawCall) :
    screen.stored call = ∅ :=
  Set.eq_empty_of_forall_notMem fun _ hk => h hk.1

theorem fillPixel_mode {startX startY endX endY : Int} {color : Color}
    (h : screen.fillPixel startX startY endX endY color = some next) : next.mode = screen.mode := by
  rcases fillPixel_cases screen startX startY endX endY color with ⟨-, value, -, hfill⟩ | ⟨-, hfill⟩
  · obtain ⟨framebuffer, -, hnext⟩ := Option.bind_eq_some_iff.mp (hfill.symm.trans h)
    obtain rfl := Option.some.inj hnext
    rfl
  · obtain rfl := Option.some.inj (hfill.symm.trans h)
    rfl

theorem draw_spec (screen : Screen) (call : DrawCall)
    (h : screen.mode.IsDrawn → ∀ p ∈ call.drawn, screen.mode.HasPixel p.1 p.2) :
    ∃ next, screen.draw call = some next ∧ next.mode = screen.mode ∧
      Patched (screen.stored call) (fun _ => call.value screen.mode.pixelFormat) screen.framebuffer
        next.framebuffer := by
  by_cases hdrawn : screen.mode.IsDrawn
  · rw [stored_of_drawn hdrawn]
    cases call with
    | fillPixel startX startY endX endY color =>
      rw [DrawCall.drawn, rectangle_eq] at h ⊢
      obtain ⟨next, hnext, hpatched⟩ := fillPixel_spec color hdrawn (h hdrawn)
      exact ⟨next, hnext, fillPixel_mode hnext, hpatched⟩
    | setPixel posX posY color =>
      have hone : placed screen.mode.index {(posX, posY)} = {screen.mode.index posX posY} := by
        ext k
        simp [placed]
      rw [DrawCall.drawn] at h ⊢
      obtain ⟨framebuffer, hstore, hpatched⟩ := storePixel_spec
        (color.stored screen.mode.pixelFormat) screen.framebuffer (h hdrawn (posX, posY) rfl)
      refine ⟨{ screen with framebuffer := framebuffer }, ?_, rfl, ?_⟩
      · rw [Screen.draw, setPixel_stored color hdrawn, hstore]
        rfl
      · rw [hone]
        exact hpatched
    | invalidate left top width height =>
      rw [DrawCall.drawn, (placed_eq_empty_iff _ _).mpr rfl]
      exact ⟨_, rfl, rfl, Patched.refl _ _⟩
  · rw [stored_of_not_drawn hdrawn]
    cases call with
    | fillPixel startX startY endX endY color =>
      rcases fillPixel_cases screen startX startY endX endY color with ⟨h, -⟩ | ⟨-, hfill⟩
      · exact absurd h hdrawn
      · exact ⟨_, hfill, rfl, Patched.refl _ _⟩
    | setPixel posX posY color =>
      rcases setPixel_cases screen posX posY color with ⟨h, -⟩ | ⟨-, hset⟩
      · exact absurd h hdrawn
      · exact ⟨_, hset, rfl, Patched.refl _ _⟩
    | invalidate left top width height => exact ⟨_, rfl, rfl, Patched.refl _ _⟩

theorem draw_eq_none {p : Int × Int} (hdrawn : screen.mode.IsDrawn) (hp : p ∈ call.drawn)
    (h : ¬ screen.mode.HasPixel p.1 p.2) : screen.draw call = none := by
  cases call with
  | fillPixel startX startY endX endY color =>
    rw [DrawCall.drawn, rectangle_eq] at hp
    have hstores := fillPixel_stores color hdrawn startX startY endX endY
    rw [storePixels_eq_none _ hp h] at hstores
    exact Option.map_eq_none_iff.mp hstores
  | setPixel posX posY color =>
    obtain rfl := Set.mem_singleton_iff.mp hp
    rw [Screen.draw, setPixel_stored color hdrawn, storePixel, if_neg h]
    rfl
  | invalidate left top width height => cases hp

end Drawing

/-! ### Saving, and putting back -/

section Saving

variable {source dest : Image} {countX countY : Int}

theorem ShareRow.symm (h : ShareRow source dest countY) : ShareRow dest source countY := by
  obtain ⟨y, hy, hyc, hst, hsb, hdt, hdb⟩ := h
  exact ⟨y, hy, hyc, hdt, hdb, hst, hsb⟩

/-- The way back is as good, whatever the pixels are now. -/
theorem ColumnsMeet.back (h : ColumnsMeet source dest countX) (pixels pixels' : Pixels) :
    ColumnsMeet { dest with pixels := pixels } { source with pixels := pixels' } countX where
  count_nonneg := h.count_nonneg
  source_left := h.dest_left
  source_right := h.dest_right
  dest_left := h.source_left
  dest_right := h.source_right
  source_dest := h.dest_source
  dest_source := h.source_dest

/-- What is saved of a screen gives it back, after a change of what is saved. -/
theorem restored {screen overlay : Image} {saved result : Pixels}
    (hsaved : Patched (screen.clipped overlay countX countY) (screen.moved overlay) overlay.pixels
      saved)
    (hkept : Set.EqOn result screen.pixels (overlay.clipped screen countX countY)ᶜ) :
    Patched (overlay.clipped screen countX countY)
      (Image.moved { overlay with pixels := saved } screen) result screen.pixels where
  inside := by
    rintro _ ⟨x, y, hx, hxc, hy, hyc, hhas, hhas', rfl⟩
    calc screen.pixels (screen.address x y)
        = screen.moved overlay (overlay.address x y) :=
          (screen.moved_address hhas.1 hhas.2.1 y).symm
      _ = saved (overlay.address x y) :=
          (hsaved.inside ⟨x, y, hx, hxc, hy, hyc, hhas', hhas, rfl⟩).symm
      _ = Image.moved { overlay with pixels := saved } screen (screen.address x y) :=
          (Image.moved_address { overlay with pixels := saved } hhas'.1 hhas'.2.1 y).symm
  outside _ hk := (hkept hk).symm

end Saving

/-! ### Erasing the cursor -/

section Erasing

variable {s : MouseScreen} {pixels : Pixels}

theorem overlay_nonneg : 0 ≤ s.overlayImage.sizeX := show 0 ≤ mouseOverlaySize by decide

theorem erased_eq_some (hwidth : 0 ≤ s.mode.width) :
    s.erased = some pixels ↔
      s.overlayImage.InBackBuffer (s.screenImage s.lastMouseX s.lastMouseY) s.lastMouseSizeX
        s.lastMouseSizeY ∧
      (ShareRow s.overlayImage (s.screenImage s.lastMouseX s.lastMouseY) s.lastMouseSizeY →
        ColumnsMeet s.overlayImage (s.screenImage s.lastMouseX s.lastMouseY) s.lastMouseSizeX) ∧
      Patched s.saved s.savedPixels s.framebuffer pixels := by
  unfold MouseScreen.erased
  split
  case isTrue hplaces =>
    rw [and_iff_right hplaces]
    exact copyBuffer32_eq_some overlay_nonneg hwidth
  case isFalse hplaces => exact iff_of_false nofun fun h => hplaces h.1

variable {cursor : CursorImage}

theorem toInt_cursor {n : UInt32} (h : n.toNat ≤ 32) : toInt n.toNat = n.toNat :=
  toInt_of_lt (by omega)

/-- The screen, from where the image of a cursor begins. -/
def MouseScreen.underCursor (s : MouseScreen) (cursor : CursorImage) : Image :=
  s.screenImage (imagePosition s.cursorX cursor.xhot) (imagePosition s.cursorY cursor.yhot)

theorem underCursor_def (s : MouseScreen) (cursor : CursorImage) :
    s.underCursor cursor = ⟨s.framebuffer, MouseScreen.imagePosition s.cursorX cursor.xhot,
      MouseScreen.imagePosition s.cursorY cursor.yhot, s.mode.width, s.mode.height⟩ := rfl

theorem overlayImage_def (s : MouseScreen) : s.overlayImage = ⟨s.mouseOverlay, 0, 0, 32, 32⟩ := rfl

theorem overlayImage_has {x y : Int} :
    s.overlayImage.Has x y ↔ 0 ≤ x ∧ x < 32 ∧ 0 ≤ y ∧ y < 32 := by
  rw [overlayImage_def, Image.Has, Int.zero_add, Int.zero_add]

theorem sides_iff :
    ((∃ y : Int, 0 ≤ y ∧ y < cursor.height.toNat ∧
        0 ≤ MouseScreen.imagePosition s.cursorY cursor.yhot + y ∧
        MouseScreen.imagePosition s.cursorY cursor.yhot + y < s.mode.height) →
      MouseScreen.imagePosition s.cursorX cursor.xhot ≤ s.mode.width ∧
        0 ≤ MouseScreen.imagePosition s.cursorX cursor.xhot + cursor.width.toNat) ↔
      (ShareRow (s.underCursor cursor) s.overlayImage cursor.height.toNat →
        ColumnsMeet (s.underCursor cursor) s.overlayImage cursor.width.toNat) := by
  have hcolumns := cursor.width_le
  have hrows := cursor.height_le
  refine imp_congr ?_ ?_
  · apply exists_congr
    intro y
    simp only [underCursor_def, overlayImage_def]
    omega
  · constructor
    · rintro ⟨hleft, hright⟩
      rw [underCursor_def, overlayImage_def]
      exact ⟨by omega, hleft, hright, Int.le.intro 32 rfl, by simp, by simpa using hleft,
        by simp only; omega⟩
    · intro h
      exact ⟨h.source_left, h.source_right⟩

/-- All that the cursor has on the screen is in the overlay's range. -/
theorem places_iff (hwidth : 0 ≤ s.mode.width) :
    (∀ x < cursor.width.toNat, ∀ y < cursor.height.toNat,
      0 ≤ MouseScreen.imagePosition s.cursorX cursor.xhot + x →
      MouseScreen.imagePosition s.cursorX cursor.xhot + x < s.mode.width →
      0 ≤ MouseScreen.imagePosition s.cursorY cursor.yhot + y →
      MouseScreen.imagePosition s.cursorY cursor.yhot + y < s.mode.height →
      MouseScreen.imagePosition s.cursorX cursor.xhot + x +
        s.mode.width * (MouseScreen.imagePosition s.cursorY cursor.yhot + y) < doublebufferSize) ↔
      s.overlayImage.InBackBuffer (s.underCursor cursor) cursor.width.toNat cursor.height.toNat := by
  have hcolumns := cursor.width_le
  have hrows := cursor.height_le
  constructor
  · rintro h x hx y hy - ⟨hl, hr, ht, hb⟩
    have hrow : 0 ≤ s.mode.width * (MouseScreen.imagePosition s.cursorY cursor.yhot + y) :=
      Int.mul_nonneg hwidth ht
    exact ⟨Int.add_nonneg hl hrow, h x (by omega) y (by omega) hl hr ht hb⟩
  · intro h x hx y hy hl hr ht hb
    exact (h x (by omega) y (by omega) (overlayImage_has.mpr (by omega)) ⟨hl, hr, ht, hb⟩).2

theorem cursorFits_iff (hwidth : 0 ≤ s.mode.width) :
    s.CursorFits cursor ↔
      s.overlayImage.InBackBuffer (s.underCursor cursor) cursor.width.toNat cursor.height.toNat ∧
      (ShareRow (s.underCursor cursor) s.overlayImage cursor.height.toNat →
        ColumnsMeet (s.underCursor cursor) s.overlayImage cursor.width.toNat) := by
  constructor
  · intro h
    exact ⟨(places_iff hwidth).mp h.places, sides_iff.mp h.sides⟩
  · intro h
    exact ⟨sides_iff.mpr h.2, (places_iff hwidth).mpr h.1⟩

theorem cursorFits_framebuffer (framebuffer : Pixels) :
    MouseScreen.CursorFits { s with framebuffer := framebuffer } cursor ↔ s.CursorFits cursor :=
  ⟨fun h => ⟨h.sides, h.places⟩, fun h => ⟨h.sides, h.places⟩⟩

/-- When what comes to be under the cursor can be saved, and what the overlay is then. -/
theorem saveUnder_eq_some (hwidth : 0 ≤ s.mode.width) :
    s.saveUnder (MouseScreen.imagePosition s.cursorX cursor.xhot)
        (MouseScreen.imagePosition s.cursorY cursor.yhot) cursor.width.toNat cursor.height.toNat =
        some pixels ↔
      s.CursorFits cursor ∧ Patched
        ((s.underCursor cursor).clipped s.overlayImage cursor.width.toNat cursor.height.toNat)
        ((s.underCursor cursor).moved s.overlayImage) s.mouseOverlay pixels := by
  rw [cursorFits_iff hwidth, and_assoc]
  unfold MouseScreen.saveUnder
  split
  case isTrue hplaces =>
    exact (copyBuffer32_eq_some hwidth overlay_nonneg).trans (and_iff_right hplaces).symm
  case isFalse hplaces => exact iff_of_false nofun fun h => hplaces h.1

/-- When the cursor is shown over pixels that are saved, erasing it gives them back. -/
theorem showCursor_spec (hwidth : 0 ≤ s.mode.width) (hfits : s.CursorFits cursor) :
    ∃ next, s.showCursor cursor = some next ∧ next.mode = s.mode ∧
      next.erased = some s.framebuffer := by
  obtain ⟨hplaces, hmeet⟩ := (cursorFits_iff hwidth).mp hfits
  obtain ⟨saved, hsave, -⟩ := (copyBuffer32_copied_iff (show 0 ≤ (s.underCursor cursor).sizeX
    from hwidth) overlay_nonneg).mpr hmeet
  have hsaved := ((copyBuffer32_eq_some hwidth overlay_nonneg).mp hsave).2
  obtain ⟨result, hrender, hkept⟩ := renderBuffer32_kept
    ⟨cursor.pixels, 0, 0, cursor.width.toNat, cursor.height.toNat⟩
    (s.underCursor cursor) cursor.width.toNat cursor.height.toNat
  unfold MouseScreen.showCursor
  rw [toInt_cursor cursor.width_le, toInt_cursor cursor.height_le]
  refine ⟨_, Option.bind_eq_some_iff.mpr ⟨saved, (saveUnder_eq_some hwidth).mpr ⟨hfits, hsaved⟩,
    Option.bind_eq_some_iff.mpr ⟨result, hrender, rfl⟩⟩, rfl, ?_⟩
  refine (erased_eq_some (by exact hwidth)).mpr
    ⟨hplaces, fun hrow => (hmeet (ShareRow.symm hrow)).back saved result, ?_⟩
  refine restored hsaved fun k hk => hkept fun hclipped => hk ?_
  obtain ⟨x, y, hx, hxc, hy, hyc, hhas, hhas', hk⟩ := hclipped
  have hin := cursor.width_le
  have hin' := cursor.height_le
  exact ⟨x, y, hx, hxc, hy, hyc, overlayImage_has.mpr (by omega), hhas', hk⟩

theorem showCursor_eq_none (hwidth : 0 ≤ s.mode.width) (hfits : ¬ s.CursorFits cursor) :
    s.showCursor cursor = none := by
  have hnone : s.saveUnder (MouseScreen.imagePosition s.cursorX cursor.xhot)
      (MouseScreen.imagePosition s.cursorY cursor.yhot) cursor.width.toNat cursor.height.toNat =
        none :=
    Option.eq_none_iff_forall_ne_some.mpr fun saved hsave =>
      hfits ((saveUnder_eq_some hwidth).mp hsave).1
  unfold MouseScreen.showCursor
  rw [toInt_cursor cursor.width_le, toInt_cursor cursor.height_le]
  exact Option.bind_eq_none_iff.mpr fun saved hsave => absurd (hnone.symm.trans hsave) nofun

theorem erased_drawn_iff (hwidth : 0 ≤ s.mode.width) {base : Pixels} (herased : s.erased = some base)
    {screen : Screen} (hmode : screen.mode = s.mode) :
    MouseScreen.erased { s with toScreen := screen } = some pixels ↔
      Patched s.saved s.savedPixels screen.framebuffer pixels := by
  obtain ⟨invalidations, mode, framebuffer, deviceFramebuffer, framebufferSize⟩ := screen
  obtain rfl : mode = s.mode := hmode
  obtain ⟨hplaces, hmeet, -⟩ := (erased_eq_some hwidth).mp herased
  rw [erased_eq_some (by exact hwidth)]
  refine (and_iff_right hplaces).trans (and_iff_right ?_)
  intro hrow
  exact ((hmeet hrow).back s.framebuffer s.mouseOverlay).back s.mouseOverlay framebuffer

theorem updateMouse_moved (hcursor : s.cursor = some cursor) (hmoved : s.Moved cursor) :
    s.updateMouse = s.erased.bind fun framebuffer =>
      MouseScreen.showCursor { s with framebuffer := framebuffer } cursor := by
  unfold MouseScreen.updateMouse
  split
  case h_1 hnone =>
    rw [hcursor] at hnone
    cases hnone
  case h_2 cursor' hsome =>
    obtain rfl := Option.some.inj (hcursor.symm.trans hsome)
    exact if_pos hmoved

theorem updateMouse_stays (h : ∀ cursor, s.cursor = some cursor → ¬ s.Moved cursor) :
    s.updateMouse = some s := by
  unfold MouseScreen.updateMouse
  split
  case h_1 => rfl
  case h_2 cursor hcursor => exact if_neg (h cursor hcursor)

theorem fresh_erased (s : MouseScreen) : s.fresh.erased = some s.framebuffer := by
  refine (if_pos fun x hx => absurd hx (Nat.not_lt_zero x)).trans (copyBuffer32_no_row ?_)
  rintro ⟨y, hy, hlt, -⟩
  exact absurd (hy.trans_lt hlt) (Int.lt_irrefl 0)

end Erasing

/-! ### Runs -/

section Runs

variable {pair next : MouseScreen × Screen} {action : MouseAction}

/-- What a run keeps while its actions fit. -/
structure Saved (pair : MouseScreen × Screen) : Prop where
  transparent : Transparent pair
  mode_eq : pair.2.mode = pair.1.mode
  width_nonneg : 0 ≤ pair.1.mode.width

theorem stepBoth_draw (pair : MouseScreen × Screen) (call : DrawCall) :
    stepBoth pair (.draw call) = (pair.1.toScreen.draw call).bind fun screen =>
      (pair.2.draw call).map fun plain => ({ pair.1 with toScreen := screen }, plain) := by
  unfold stepBoth MouseScreen.step
  dsimp only
  cases pair.1.toScreen.draw call with
  | none => rfl
  | some screen => exact Option.map_eq_bind.symm

theorem stepBoth_updateMouse (pair : MouseScreen × Screen) :
    stepBoth pair .updateMouse = pair.1.updateMouse.map fun s => (s, pair.2) :=
  Option.map_eq_bind.symm

theorem Saved.draw (h : Saved pair) {call : DrawCall}
    (hpixels : pair.1.mode.IsDrawn → ∀ p ∈ call.drawn, pair.1.mode.HasPixel p.1 p.2) :
    ∃ next, stepBoth pair (.draw call) = some next ∧ next.2.mode = next.1.mode ∧
      next.1.mode = pair.1.mode ∧
      (Transparent next ↔ ∀ k ∈ pair.1.stored call, k ∈ pair.1.saved →
        pair.1.savedPixels k = call.value pair.1.mode.pixelFormat) := by
  have hplain := h.mode_eq
  obtain ⟨screen, hscreen, hmode, hpatched⟩ := draw_spec pair.1.toScreen call hpixels
  obtain ⟨plain, hdraw, hmode', hpatched'⟩ := draw_spec pair.2 call (hplain ▸ hpixels)
  refine ⟨({ pair.1 with toScreen := screen }, plain), ?_, ?_, hmode, ?_⟩
  · rw [stepBoth_draw, hscreen, hdraw]
    rfl
  · exact hmode'.trans (hplain.trans hmode.symm)
  · have hsaved := ((erased_eq_some h.width_nonneg).mp h.transparent).2.2
    rw [Screen.stored, hplain] at hpatched'
    exact (erased_drawn_iff h.width_nonneg h.transparent hmode).trans
      (hsaved.drawn_iff hpatched hpatched')

theorem fits_draw_iff {s : MouseScreen} {call : DrawCall} :
    (MouseAction.draw call).Fits s ↔
      (s.mode.IsDrawn → ∀ p ∈ call.drawn, s.mode.HasPixel p.1 p.2) ∧
      ∀ k ∈ s.stored call, k ∈ s.saved → s.savedPixels k = call.value s.mode.pixelFormat := by
  constructor
  · intro h
    exact ⟨fun hdrawn => (h hdrawn).1, fun k hk => (h hk.1).2 k hk.2⟩
  · intro h hdrawn
    exact ⟨h.1 hdrawn, fun k hk => h.2 k ⟨hdrawn, hk⟩⟩

theorem Saved.step (h : Saved pair) (hfits : action.Fits pair.1) :
    ∃ next, stepBoth pair action = some next ∧ Saved next := by
  cases action with
  | draw call =>
    obtain ⟨hpixels, hsame⟩ := fits_draw_iff.mp hfits
    obtain ⟨next, hnext, hmodes, hmode, htransparent⟩ := h.draw hpixels
    exact ⟨next, hnext, htransparent.mpr hsame, hmodes, hmode ▸ h.width_nonneg⟩
  | moveMouse x y => exact ⟨_, rfl, h.transparent, h.mode_eq, h.width_nonneg⟩
  | updateMouse =>
    rw [stepBoth_updateMouse]
    by_cases hmoves : ∃ cursor, pair.1.cursor = some cursor ∧ pair.1.Moved cursor
    · obtain ⟨cursor, hcursor, hmoved⟩ := hmoves
      obtain ⟨next, hshow, hmode, herased⟩ := showCursor_spec
        (s := { pair.1 with framebuffer := pair.2.framebuffer }) h.width_nonneg
        ((cursorFits_framebuffer _).mpr (hfits cursor hcursor hmoved))
      refine ⟨(next, pair.2), ?_, herased, h.mode_eq.trans hmode.symm, ?_⟩
      · rw [updateMouse_moved hcursor hmoved, show pair.1.erased = some pair.2.framebuffer from
          h.transparent, Option.bind_some, hshow]
        rfl
      · exact hmode.symm ▸ h.width_nonneg
    · rw [updateMouse_stays fun cursor hcursor hmoved => hmoves ⟨cursor, hcursor, hmoved⟩]
      exact ⟨pair, rfl, h⟩

theorem Saved.broken (h : Saved pair) (hfits : ¬ action.Fits pair.1)
    (hnext : stepBoth pair action = some next) : ¬ Transparent next := by
  intro htransparent
  apply hfits
  cases action with
  | draw call =>
    have hpixels : pair.1.mode.IsDrawn → ∀ p ∈ call.drawn, pair.1.mode.HasPixel p.1 p.2 := by
      intro hdrawn p hp
      by_contra hpixel
      rw [stepBoth_draw, draw_eq_none hdrawn hp hpixel] at hnext
      cases hnext
    obtain ⟨next', hnext', -, -, hiff⟩ := h.draw hpixels
    obtain rfl := Option.some.inj (hnext.symm.trans hnext')
    exact fits_draw_iff.mpr ⟨hpixels, hiff.mp htransparent⟩
  | moveMouse x y => trivial
  | updateMouse =>
    intro cursor hcursor hmoved
    by_contra hbeyond
    have hnone : pair.1.updateMouse = none := by
      rw [updateMouse_moved hcursor hmoved]
      exact Option.bind_eq_none_iff.mpr fun framebuffer _ =>
        showCursor_eq_none (s := { pair.1 with framebuffer := framebuffer }) h.width_nonneg
          ((cursorFits_framebuffer _).not.mpr hbeyond)
    rw [stepBoth_updateMouse, hnone] at hnext
    cases hnext

/-- When a run of draws, moves and updates is defined, and the cursor transparent throughout. -/
theorem transparent_run_iff (s : MouseScreen) (hwidth : 0 ≤ s.mode.width)
    (actions : List MouseAction) :
    (∃ last, Run.exec stepBoth (s.fresh, s.toScreen) actions = some last) ∧
        Run.Always stepBoth Transparent (s.fresh, s.toScreen) actions ↔
      Run.Admits stepBoth (fun pair action => action.Fits pair.1) (s.fresh, s.toScreen) actions :=
  Run.defined_always_iff (I := Saved) (fun _ _ h _ hfits => h.step hfits) (fun _ h => h.transparent)
    (fun _ _ _ h _ hfits hnext => h.broken hfits hnext) ⟨fresh_erased s, rfl, hwidth⟩
    (Run.Admits.of_forall fun _ _ => trivial)

/-- The small screen, with a white cursor of two by two pixels at (4, 4). -/
def arrowScreen : MouseScreen :=
  { toScreen := smallScreen .bgra8bit
    cursor := some
      { width := 2
        height := 2
        xhot := 1
        yhot := 1
        pixels := fun _ => 0xffffffff
        width_le := by decide
        height_le := by decide }
    cursorX := 4
    cursorY := 4
    desktopWidth := 16
    desktopHeight := 16
    lastMouseX := 0
    lastMouseY := 0
    lastMouseSizeX := 0
    lastMouseSizeY := 0
    mouseOverlay := fun _ => 0 }

/-- A white pixel, drawn under the cursor. -/
theorem pixel_under_cursor_lost :
    ¬ ((∃ last, Run.exec stepBoth (arrowScreen.fresh, arrowScreen.toScreen)
          [.updateMouse, .draw (.setPixel 4 4 .white)] = some last) ∧
      Run.Always stepBoth Transparent (arrowScreen.fresh, arrowScreen.toScreen)
        [.updateMouse, .draw (.setPixel 4 4 .white)]) := by
  rintro ⟨⟨last, hrun⟩, halways⟩
  have htransparent : last.1.erased = some last.2.framebuffer := halways.exec hrun
  have hpixel : ((Run.exec stepBoth (arrowScreen.fresh, arrowScreen.toScreen)
      [.updateMouse, .draw (.setPixel 4 4 .white)]).bind fun pair =>
        pair.1.erased.map fun pixels => (pixels 68, pair.2.framebuffer 68)) = some (0, 0xffffff) := by
    decide
  rw [hrun, Option.bind_some, htransparent] at hpixel
  obtain ⟨hrestored, hdrawn⟩ := Prod.mk.inj (Option.some.inj hpixel)
  exact absurd (hrestored.symm.trans hdrawn) (by decide)

/-- The same pixel, drawn before the cursor is moved and shown. -/
theorem pixel_before_cursor_kept :
    (∃ last, Run.exec stepBoth (arrowScreen.fresh, arrowScreen.toScreen)
        [.draw (.setPixel 4 4 .white), .moveMouse 1 0, .updateMouse] = some last) ∧
      Run.Always stepBoth Transparent (arrowScreen.fresh, arrowScreen.toScreen)
        [.draw (.setPixel 4 4 .white), .moveMouse 1 0, .updateMouse] := by
  refine (transparent_run_iff arrowScreen (by decide) _).mpr ⟨?_, fun s hs => ⟨trivial, ?_⟩⟩
  · intro _
    constructor
    · intro p hp
      obtain rfl := Set.mem_singleton_iff.mp hp
      decide
    · intro k _ hk
      obtain ⟨x, y, hx, hlt, -⟩ := hk
      exact absurd (hx.trans_lt hlt) (Int.lt_irrefl 0)
  · obtain rfl := Option.some.inj hs
    intro s hs
    refine ⟨?_, fun _ _ => trivial⟩
    intro cursor hcursor _
    obtain rfl := Option.some.inj hs
    obtain rfl := Option.some.inj hcursor
    refine ⟨fun _ => ⟨by decide, by decide⟩, fun x hx y hy _ _ _ _ => ?_⟩
    have hcolumn : x < 2 := hx
    have hrow : y < 2 := hy
    change (5 : Int) + x + 16 * (4 + y) < 2048 * 1024
    omega

end Runs

end Helos.Graphics
