import Helos.Graphics.Scroll

/-!
# Scrolling under the mouse cursor

`graphics_Scroll` moves the cursor's image up with everything else, and its last position with it. What
is put back there later was saved from the screen as it was, so that the rows of the overlay that were
below the screen come into view: the cursor stays transparent exactly when these are black.
-/

namespace Helos.Graphics

namespace MouseScreen

/-- The statics of the cursor, once `__lastMouseY` is decreased. -/
def scrolledTo (s : MouseScreen) (screen : Screen) (scrollY : Int) : MouseScreen :=
  { s with toScreen := screen, lastMouseY := s.lastMouseY + -scrollY }

def scroll (s : MouseScreen) (scrollY : Int) : Option MouseScreen := do
  let screen ← s.toScreen.scroll scrollY
  let _ ← addInt s.lastMouseY (-scrollY)
  some (s.scrolledTo screen scrollY)

end MouseScreen

inductive ScrollAction
  | mouse (action : MouseAction)
  | scroll (scrollY : Int)
  deriving DecidableEq, Repr

/-- A screen with a cursor, beside one without, both of which are scrolled. -/
def stepScrolled (pair : MouseScreen × Screen) : ScrollAction → Option (MouseScreen × Screen)
  | .mouse action => stepBoth pair action
  | .scroll scrollY => do
    let s ← pair.1.scroll scrollY
    let plain ← pair.2.scroll scrollY
    some (s, plain)

/-- A scroll is by less than the height. The columns of the cursor meet the screen when its rows do,
and the pixels of the overlay that come up from below the screen are black. -/
structure ScrollFits (s : MouseScreen) (scrollY : Int) : Prop where
  nonneg : 0 ≤ scrollY
  lt : scrollY < s.mode.height
  isInt : IsInt (s.lastMouseY + -scrollY)
  columns : ShareRow s.overlayImage (s.screenImage s.lastMouseX (s.lastMouseY + -scrollY))
    s.lastMouseSizeY → ColumnsMeet s.overlayImage (s.screenImage s.lastMouseX s.lastMouseY)
      s.lastMouseSizeX
  black : ∀ x y, 0 ≤ x → x < min s.lastMouseSizeX 32 → 0 ≤ y → y < min s.lastMouseSizeY 32 →
    0 ≤ s.lastMouseX + x → s.lastMouseX + x < s.mode.width → s.mode.height ≤ s.lastMouseY + y →
    s.lastMouseY + y < s.mode.height + scrollY → s.mouseOverlay (x + 32 * y) = 0

def ScrollAction.Fits (s : MouseScreen) : ScrollAction → Prop
  | .mouse action => action.Fits s
  | .scroll scrollY => ScrollFits s scrollY

/-! ### The whole back buffer -/

/-- Every pixel after a scroll, when lines have no padding. -/
def scrolledPixels (mode : Mode) (scrollY : Int) (framebuffer : Pixels) : Pixels := fun k =>
  if 0 ≤ k ∧ k < mode.pixelsPerLine * mode.height then
    if k < mode.pixelsPerLine * (mode.height + -scrollY) then
      framebuffer (mode.pixelsPerLine * scrollY + k)
    else 0
  else framebuffer k

section Scrolling

variable {mode : Mode} {screen : Screen} {scrollY : Int}

/-- Without padding, the places of the lines from one on are all those from its beginning on. -/
theorem mem_placed_lines (hmode : mode.Prints) {top k : Int} :
    k ∈ placed mode.index (rectangle 0 top mode.width mode.height) ↔
      mode.pixelsPerLine * top ≤ k ∧ k < mode.pixelsPerLine * mode.height := by
  have hwidth := hmode.width_ge
  have hstride := hmode.stride
  constructor
  · rintro ⟨x, y, ⟨hx, hxw, hy, hyh⟩, rfl⟩
    dsimp only at hx hxw hy hyh
    have hlow : mode.pixelsPerLine * top ≤ mode.pixelsPerLine * y :=
      Int.mul_le_mul_of_nonneg_left hy (by omega)
    have hhigh : mode.pixelsPerLine * (y + 1) ≤ mode.pixelsPerLine * mode.height :=
      Int.mul_le_mul_of_nonneg_left (by omega) (by omega)
    rw [Int.mul_add, Int.mul_one] at hhigh
    unfold Mode.index
    omega
  · rintro ⟨hlow, hhigh⟩
    refine ⟨k % mode.pixelsPerLine, k / mode.pixelsPerLine, ⟨?_, ?_, ?_, ?_⟩, ?_⟩
    · exact Int.emod_nonneg _ (by omega)
    · exact (Int.emod_lt_of_pos _ (by omega)).trans_eq hstride
    · rw [Int.mul_comm] at hlow
      exact (Int.le_ediv_iff_mul_le (by omega)).mpr hlow
    · rw [Int.mul_comm] at hhigh
      exact Int.ediv_lt_of_lt_mul (by omega) hhigh
    · exact (Int.mul_ediv_add_emod k mode.pixelsPerLine).symm

theorem scroll_framebuffer (hmode : screen.mode.Prints) (hnonneg : 0 ≤ scrollY)
    (hlt : scrollY < screen.mode.height) :
    ∃ next, screen.scroll scrollY = some next ∧ next.mode = screen.mode ∧
      next.framebuffer = scrolledPixels screen.mode scrollY screen.framebuffer := by
  have hrest : 0 ≤ screen.mode.height + -scrollY := by omega
  obtain ⟨hcount, -⟩ := hmode.lines_isInt hrest (by omega)
  have hregion : rectangle 0 (screen.mode.height + -scrollY) screen.mode.width
      screen.mode.height ⊆ screen.mode.area.pixels := by
    rintro ⟨x, y⟩ ⟨hx, hxe, hy, hye⟩
    exact mem_pixels.mpr ⟨hx, hxe, by dsimp only at hy; omega, hye⟩
  have hmovedMode : (screen.moved scrollY).mode = screen.mode := rfl
  have hdrawn : (screen.moved scrollY).mode.IsDrawn := hmode.drawn
  obtain ⟨filled, hfilled, -⟩ :=
    fillPixel_spec .black hdrawn fun p hp => hmode.hasPixel (hregion hp)
  have hblack := black_fill hmode hmovedMode hregion hfilled
  have hfilledMode := fillPixel_mode hfilled
  refine ⟨{ filled with invalidatedScreen := true }, ?_, hfilledMode, funext fun k => ?_⟩
  · rw [scroll_eq hmode hnonneg hlt, hfilled, Option.map_some]
  unfold scrolledPixels
  change filled.framebuffer k = _
  by_cases hin : screen.mode.pixelsPerLine * (screen.mode.height + -scrollY) ≤ k ∧
      k < screen.mode.pixelsPerLine * screen.mode.height
  · rw [if_pos ⟨hcount.trans hin.1, hin.2⟩, if_neg (Int.not_lt.mpr hin.1)]
    exact hblack.inside ((mem_placed_lines hmode).mpr hin)
  · have hkept := hblack.outside fun hmem => hin ((mem_placed_lines hmode).mp hmem)
    rw [hkept]
    dsimp only [Screen.moved]
    unfold copyPixels
    have hle : screen.mode.pixelsPerLine * (screen.mode.height + -scrollY) ≤
        screen.mode.pixelsPerLine * screen.mode.height :=
      Int.mul_le_mul_of_nonneg_left (by omega)
        (hmode.valid.width_nonneg.trans hmode.valid.width_le)
    by_cases hmoved : 0 ≤ k ∧ k < screen.mode.pixelsPerLine * (screen.mode.height + -scrollY)
    · rw [if_pos (by omega), if_pos (by omega), if_pos hmoved.2, sub_zero]
    · rw [if_neg (by omega), if_neg (by omega)]

end Scrolling

theorem line_lt_iff {width x y m : Int} (hx : 0 ≤ x) (hxw : x < width) :
    x + width * y < width * m ↔ y < m := by
  constructor
  · intro h
    by_contra hge
    have hle : width * m ≤ width * y := Int.mul_le_mul_of_nonneg_left (by omega) (by omega)
    omega
  · intro h
    have hle : width * (y + 1) ≤ width * m := Int.mul_le_mul_of_nonneg_left (by omega) (by omega)
    rw [Int.mul_add, Int.mul_one] at hle
    omega

theorem line_nonneg_iff {width x y : Int} (hx : 0 ≤ x) (hxw : x < width) :
    0 ≤ x + width * y ↔ 0 ≤ y := by
  have hzero := line_lt_iff (y := y) (m := 0) hx hxw
  rw [Int.mul_zero] at hzero
  omega

theorem scrolledPixels_line {mode : Mode} (hmode : mode.Prints) {scrollY x y : Int} (hx : 0 ≤ x)
    (hxw : x < mode.width) (hy : 0 ≤ y) (hyh : y < mode.height) (framebuffer : Pixels) :
    scrolledPixels mode scrollY framebuffer (x + mode.width * y) =
      if y + scrollY < mode.height then framebuffer (x + mode.width * (y + scrollY)) else 0 := by
  unfold scrolledPixels
  have hplace : mode.width * scrollY + (x + mode.width * y) = x + mode.width * (y + scrollY) := by
    rw [Int.mul_add]
    omega
  rw [hmode.stride, if_pos ⟨(line_nonneg_iff hx hxw).mpr hy, (line_lt_iff hx hxw).mpr hyh⟩, hplace]
  refine if_congr ?_ rfl rfl
  rw [line_lt_iff hx hxw]
  omega

/-! ### The overlay after a scroll -/

section Overlay

variable {s : MouseScreen} {screen : Screen} {scrollY : Int}

theorem screenImage_address (s : MouseScreen) (lastY x y : Int) :
    (s.screenImage s.lastMouseX lastY).address x y =
      s.lastMouseX + x + s.mode.width * (lastY + y) := rfl

theorem mem_saved {k : Int} : k ∈ s.saved ↔ ∃ x y, 0 ≤ x ∧ x < min s.lastMouseSizeX 32 ∧
    0 ≤ y ∧ y < min s.lastMouseSizeY 32 ∧ 0 ≤ s.lastMouseX + x ∧ s.lastMouseX + x < s.mode.width ∧
    0 ≤ s.lastMouseY + y ∧ s.lastMouseY + y < s.mode.height ∧
    k = s.lastMouseX + x + s.mode.width * (s.lastMouseY + y) := by
  unfold MouseScreen.saved Image.clipped
  apply exists_congr
  intro x
  apply exists_congr
  intro y
  rw [overlayImage_has]
  unfold Image.Has
  rw [screenImage_address]
  dsimp only [MouseScreen.screenImage]
  constructor
  · rintro ⟨hx, hxs, hy, hys, ⟨-, hx32, -, hy32⟩, ⟨hl, hr, ht, hb⟩, hk⟩
    exact ⟨hx, by omega, hy, by omega, hl, hr, ht, hb, hk⟩
  · rintro ⟨hx, hxs, hy, hys, hl, hr, ht, hb, hk⟩
    exact ⟨hx, by omega, hy, by omega, ⟨hx, by omega, hy, by omega⟩, ⟨hl, hr, ht, hb⟩, hk⟩

theorem savedPixels_address {x : Int} (hl : 0 ≤ s.lastMouseX + x) (hr : s.lastMouseX + x < s.mode.width)
    (y : Int) : s.savedPixels (s.lastMouseX + x + s.mode.width * (s.lastMouseY + y)) =
      s.mouseOverlay (x + 32 * y) := by
  have hmoved := @Image.moved_address s.overlayImage (s.screenImage s.lastMouseX s.lastMouseY) x
    hl hr y
  rw [screenImage_address] at hmoved
  refine hmoved.trans ?_
  rw [overlayImage_def]
  unfold Image.address
  rw [Int.zero_add, Int.zero_add]

/-- The places of the overlay that are still in the part that is moved are those it had, and the
others are of rows that were below the screen. -/
theorem patched_scrolled (hmode : s.mode.Prints) (hnonneg : 0 ≤ scrollY) (hlt : scrollY < s.mode.height)
    (hscreen : screen.mode = s.mode) {plain : Pixels}
    (h : Patched s.saved s.savedPixels s.framebuffer plain) :
    Patched (s.scrolledTo screen scrollY).saved (s.scrolledTo screen scrollY).savedPixels
        (scrolledPixels s.mode scrollY s.framebuffer) (scrolledPixels s.mode scrollY plain) ↔
      ∀ x y, 0 ≤ x → x < min s.lastMouseSizeX 32 → 0 ≤ y → y < min s.lastMouseSizeY 32 →
        0 ≤ s.lastMouseX + x → s.lastMouseX + x < s.mode.width → s.mode.height ≤ s.lastMouseY + y →
        s.lastMouseY + y < s.mode.height + scrollY → s.mouseOverlay (x + 32 * y) = 0 := by
  have hsaved : ∀ k, k ∈ (s.scrolledTo screen scrollY).saved ↔ ∃ x y,
      0 ≤ x ∧ x < min s.lastMouseSizeX 32 ∧ 0 ≤ y ∧ y < min s.lastMouseSizeY 32 ∧
      0 ≤ s.lastMouseX + x ∧ s.lastMouseX + x < s.mode.width ∧
      0 ≤ s.lastMouseY + -scrollY + y ∧ s.lastMouseY + -scrollY + y < s.mode.height ∧
      k = s.lastMouseX + x + s.mode.width * (s.lastMouseY + -scrollY + y) := by
    intro k
    rw [← hscreen]
    exact mem_saved
  have hpixels : ∀ x y, 0 ≤ s.lastMouseX + x → s.lastMouseX + x < s.mode.width →
      (s.scrolledTo screen scrollY).savedPixels
        (s.lastMouseX + x + s.mode.width * (s.lastMouseY + -scrollY + y)) =
          s.mouseOverlay (x + 32 * y) := by
    intro x y hl hr
    rw [← hscreen] at hr ⊢
    exact savedPixels_address (s := s.scrolledTo screen scrollY) hl hr y
  constructor
  · intro h' x y hx hxs hy hys hl hr hbelow hview
    have hzero : scrolledPixels s.mode scrollY plain (s.lastMouseX + x +
        s.mode.width * (s.lastMouseY + -scrollY + y)) = 0 := by
      rw [scrolledPixels_line hmode hl hr (by omega) (by omega), if_neg (by omega)]
    rw [← hpixels x y hl hr, ← hzero]
    exact (h'.inside ((hsaved _).mpr ⟨x, y, hx, hxs, hy, hys, hl, hr, by omega, by omega, rfl⟩)).symm
  · intro hblack
    constructor
    · intro k hk
      obtain ⟨x, y, hx, hxs, hy, hys, hl, hr, ht, hb, rfl⟩ := (hsaved k).mp hk
      rw [hpixels x y hl hr, scrolledPixels_line hmode hl hr ht hb,
        show s.lastMouseY + -scrollY + y + scrollY = s.lastMouseY + y by omega]
      split
      case isTrue hshown =>
        -- A pixel of a row that was on the screen moves with what was saved of it.
        rw [← savedPixels_address hl hr]
        exact h.inside (mem_saved.mpr ⟨x, y, hx, hxs, hy, hys, hl, hr, by omega, hshown, rfl⟩)
      case isFalse hbelow => exact (hblack x y hx hxs hy hys hl hr (by omega) (by omega)).symm
    · intro k hk
      unfold scrolledPixels
      have hstride := hmode.stride
      split
      case isTrue hin =>
        split
        case isTrue hmoved =>
          refine h.outside fun hmem => hk ((hsaved k).mpr ?_)
          obtain ⟨x, y, hx, hxs, hy, hys, hl, hr, ht, hb, hplace⟩ := mem_saved.mp hmem
          have hk' : k = s.lastMouseX + x + s.mode.width * (s.lastMouseY + -scrollY + y) := by
            rw [hstride] at hplace
            rw [show s.lastMouseY + -scrollY + y = s.lastMouseY + y - scrollY by omega, Int.mul_sub]
            omega
          have hrow := hin.1
          rw [hk', line_nonneg_iff hl hr] at hrow
          exact ⟨x, y, hx, hxs, hy, hys, hl, hr, hrow, by omega, hk'⟩
        case isFalse => rfl
      case isFalse hout =>
        refine h.outside fun hmem => hout ?_
        obtain ⟨x, y, -, -, -, -, hl, hr, ht, hb, rfl⟩ := mem_saved.mp hmem
        rw [hstride, line_nonneg_iff hl hr, line_lt_iff hl hr]
        exact ⟨ht, hb⟩

end Overlay

/-! ### Runs -/

section Runs

variable {pair next : MouseScreen × Screen} {action : ScrollAction}

theorem showCursor_mode {s next : MouseScreen} {cursor : CursorImage}
    (h : s.showCursor cursor = some next) : next.mode = s.mode := by
  obtain ⟨saved, -, hrest⟩ := Option.bind_eq_some_iff.mp h
  obtain ⟨framebuffer, -, hnext⟩ := Option.bind_eq_some_iff.mp hrest
  obtain rfl := Option.some.inj hnext
  rfl

theorem updateMouse_mode {s next : MouseScreen} (h : s.updateMouse = some next) :
    next.mode = s.mode := by
  by_cases hmoves : ∃ cursor, s.cursor = some cursor ∧ s.Moved cursor
  · obtain ⟨cursor, hcursor, hmoved⟩ := hmoves
    rw [updateMouse_moved hcursor hmoved] at h
    obtain ⟨framebuffer, -, hshow⟩ := Option.bind_eq_some_iff.mp h
    exact showCursor_mode (s := { s with framebuffer := framebuffer }) hshow
  · rw [updateMouse_stays fun cursor hcursor hmoved => hmoves ⟨cursor, hcursor, hmoved⟩] at h
    obtain rfl := Option.some.inj h
    rfl

theorem stepBoth_mode {action : MouseAction} (h : stepBoth pair action = some next) :
    next.1.mode = pair.1.mode := by
  cases action with
  | draw call =>
    rw [stepBoth_draw] at h
    obtain ⟨screen, hdraw, hrest⟩ := Option.bind_eq_some_iff.mp h
    obtain ⟨plain, -, rfl⟩ := Option.map_eq_some_iff.mp hrest
    exact draw_mode hdraw
  | moveMouse x y =>
    obtain rfl := Option.some.inj h
    rfl
  | updateMouse =>
    rw [stepBoth_updateMouse] at h
    obtain ⟨s, hupdate, rfl⟩ := Option.map_eq_some_iff.mp h
    exact updateMouse_mode hupdate

/-- A screen that can be printed on is in the back buffer as a whole. -/
theorem inBackBuffer_of_prints {mode : Mode} (hmode : mode.Prints) (image : Image)
    (framebuffer : Pixels) (offsetX offsetY countX countY : Int) :
    image.InBackBuffer ⟨framebuffer, offsetX, offsetY, mode.width, mode.height⟩ countX countY := by
  rintro x - y - - ⟨hl, hr, ht, hb⟩
  have hlines := hmode.lines
  rw [hmode.stride] at hlines
  dsimp only at hl hr ht hb
  have hplace := (line_lt_iff (y := offsetY + y) (m := mode.height) hl hr).mpr hb
  exact ⟨(line_nonneg_iff hl hr).mpr ht, hplace.trans_le hlines⟩

/-- The next line of the back buffer that is moved has to be one of the screen. -/
theorem scroll_undefined {screen : Screen} {scrollY : Int} (hmode : screen.mode.Prints)
    (h : ¬ (0 ≤ scrollY ∧ scrollY < screen.mode.height)) : screen.scroll scrollY = none := by
  by_cases hlt : scrollY < screen.mode.height
  · have hnegative : screen.mode.pixelsPerLine * scrollY < 0 :=
      Int.mul_neg_of_pos_of_neg (by have := hmode.width_ge; have := hmode.stride; omega) (by omega)
    unfold Screen.scroll
    refine Option.bind_eq_none_iff.mpr fun rest _ => ?_
    refine Option.bind_eq_none_iff.mpr fun source hsource => ?_
    refine Option.bind_eq_none_iff.mpr fun count _ => ?_
    rw [mulInt_eq_some hsource, movePixels, if_neg (by omega)]
    rfl
  · exact scroll_eq_none hmode rfl (Int.not_lt.mp hlt)

theorem erased_scrolled_iff {s : MouseScreen} {screen : Screen} {scrollY : Int} {pixels : Pixels}
    (hmode : s.mode.Prints) (hscreen : screen.mode = s.mode) :
    (s.scrolledTo screen scrollY).erased = some pixels ↔
      (ShareRow s.overlayImage (s.screenImage s.lastMouseX (s.lastMouseY + -scrollY))
          s.lastMouseSizeY →
        ColumnsMeet s.overlayImage (s.screenImage s.lastMouseX s.lastMouseY) s.lastMouseSizeX) ∧
      Patched (s.scrolledTo screen scrollY).saved (s.scrolledTo screen scrollY).savedPixels
        screen.framebuffer pixels := by
  obtain ⟨invalidations, mode, framebuffer, deviceFramebuffer, framebufferSize⟩ := screen
  obtain rfl : mode = s.mode := hscreen
  have hwidth := hmode.valid.width_nonneg
  rw [erased_eq_some (by exact hwidth)]
  refine (and_iff_right (inBackBuffer_of_prints hmode _ _ _ _ _ _)).trans (and_congr_left' ?_)
  -- The columns do not depend on the row of the cursor.
  refine imp_congr Iff.rfl ?_
  constructor <;> rintro ⟨hcount, hsl, hsr, hdl, hdr, hsd, hds⟩ <;>
    exact ⟨hcount, hsl, hsr, hdl, hdr, hsd, hds⟩

/-- What a run keeps on a screen that can be printed on. -/
structure ScrollSaved (pair : MouseScreen × Screen) : Prop extends Saved pair where
  prints : pair.1.mode.Prints

theorem ScrollSaved.scroll (h : ScrollSaved pair) {scrollY : Int} (hnonneg : 0 ≤ scrollY)
    (hlt : scrollY < pair.1.mode.height) (hint : IsInt (pair.1.lastMouseY + -scrollY)) :
    ∃ next, stepScrolled pair (.scroll scrollY) = some next ∧ next.1.mode = pair.1.mode ∧
      next.2.mode = pair.1.mode ∧ (Transparent next ↔ ScrollFits pair.1 scrollY) := by
  have hplain := h.mode_eq
  obtain ⟨screen, hscroll, hmode, hpixels⟩ := scroll_framebuffer h.prints hnonneg hlt
  obtain ⟨plain, hscroll', hmode', hpixels'⟩ :=
    @scroll_framebuffer pair.2 scrollY (hplain ▸ h.prints) hnonneg (hplain ▸ hlt)
  have hsaved := ((erased_eq_some h.width_nonneg).mp h.transparent).2.2
  have hblack := patched_scrolled h.prints hnonneg hlt hmode hsaved
  rw [hplain] at hpixels'
  rw [← hpixels, ← hpixels'] at hblack
  refine ⟨(pair.1.scrolledTo screen scrollY, plain), ?_, hmode, hmode'.trans hplain, ?_⟩
  · unfold stepScrolled MouseScreen.scroll
    simp only [hscroll, hscroll', addInt_of_isInt hint, Option.bind_eq_bind, Option.bind_some]
  · refine (erased_scrolled_iff h.prints hmode).trans ((and_congr_right' hblack).trans ?_)
    exact ⟨fun h => ⟨hnonneg, hlt, hint, h.1, h.2⟩, fun h => ⟨h.columns, h.black⟩⟩

theorem ScrollSaved.step (h : ScrollSaved pair) (hfits : action.Fits pair.1) :
    ∃ next, stepScrolled pair action = some next ∧ ScrollSaved next := by
  cases action with
  | mouse action =>
    obtain ⟨next, hnext, hsaved⟩ := h.toSaved.step hfits
    exact ⟨next, hnext, hsaved, (stepBoth_mode hnext).symm ▸ h.prints⟩
  | scroll scrollY =>
    obtain ⟨next, hnext, hmode, hmode', hiff⟩ := h.scroll hfits.nonneg hfits.lt hfits.isInt
    exact ⟨next, hnext, ⟨hiff.mpr hfits, hmode'.trans hmode.symm, hmode.symm ▸ h.width_nonneg⟩,
      hmode.symm ▸ h.prints⟩

theorem ScrollSaved.broken (h : ScrollSaved pair) (hfits : ¬ action.Fits pair.1)
    (hnext : stepScrolled pair action = some next) : ¬ Transparent next := by
  cases action with
  | mouse action => exact h.toSaved.broken hfits hnext
  | scroll scrollY =>
    -- A scroll that is defined is by less than the height, and the last position stays an `int`.
    have hdefined : (0 ≤ scrollY ∧ scrollY < pair.1.mode.height) ∧
        IsInt (pair.1.lastMouseY + -scrollY) := by
      obtain ⟨s, hscroll, -⟩ := Option.bind_eq_some_iff.mp hnext
      obtain ⟨screen, hscreen, hrest⟩ := Option.bind_eq_some_iff.mp hscroll
      constructor
      · by_contra hbeyond
        rw [scroll_undefined h.prints hbeyond] at hscreen
        cases hscreen
      · by_contra hint
        rw [addInt_of_not_isInt hint] at hrest
        cases hrest
    obtain ⟨⟨hnonneg, hlt⟩, hint⟩ := hdefined
    obtain ⟨next', hnext', -, -, hiff⟩ := h.scroll hnonneg hlt hint
    obtain rfl := Option.some.inj (hnext.symm.trans hnext')
    exact hiff.not.mpr hfits

/-- The cursor stays transparent through scrolls as well, exactly while every action fits. -/
theorem transparent_scrolled_iff (s : MouseScreen) (hmode : s.mode.Prints)
    (actions : List ScrollAction) :
    (∃ last, Run.exec stepScrolled (s.fresh, s.toScreen) actions = some last) ∧
        Run.Always stepScrolled Transparent (s.fresh, s.toScreen) actions ↔
      Run.Admits stepScrolled (fun pair action => action.Fits pair.1) (s.fresh, s.toScreen)
        actions :=
  Run.defined_always_iff (I := ScrollSaved) (fun _ _ h _ hfits => h.step hfits)
    (fun _ h => h.transparent) (fun _ _ _ h _ hfits hnext => h.broken hfits hnext)
    ⟨⟨fresh_erased s, rfl, hmode.valid.width_nonneg⟩, hmode⟩ (Run.Admits.of_forall fun _ _ => trivial)

end Runs

end Helos.Graphics
