import Helos.Graphics.Screen
import Mathlib.Tactic.Ring

/-!
# Presenting a frame

After draws each of which is invalidated, `graphics_SwapBuffer` is to leave on the device what the
back buffer shows. Rectangles are copied with the width of the mode as the stride of both buffers,
and pixels are drawn with `PixelsPerLine`: the frame is presented in every case exactly when the two
put the visible pixels in the same places, or nothing can be drawn at all.
-/

namespace Helos.Graphics

namespace Mode

structure Valid (mode : Mode) : Prop where
  width_nonneg : 0 ≤ mode.width
  width_le : mode.width ≤ mode.pixelsPerLine
  height_nonneg : 0 ≤ mode.height
  line_isInt : IsInt mode.pixelsPerLine
  height_isInt : IsInt mode.height

/-- Every visible pixel has its place in the back buffer. -/
structure Fits (mode : Mode) : Prop where
  line : IsInt (mode.pixelsPerLine * 4)
  last : mode.pixelsPerLine * (mode.height - 1) + mode.width ≤ doublebufferSize

/-- `graphics_FillPixel` and `graphics_SetPixel` draw nothing in other formats. -/
def IsDrawn (mode : Mode) : Prop :=
  mode.pixelFormat = .rgba8bit ∨ mode.pixelFormat = .bgra8bit

end Mode

namespace DrawCall

def drawn : DrawCall → Set (Int × Int)
  | .fillPixel startX startY endX endY _ =>
    (Area.mk startX startY (endX - startX) (endY - startY)).pixels
  | .setPixel posX posY _ => {(posX, posY)}
  | .invalidate _ _ _ _ => ∅

def invalidated : DrawCall → Set (Int × Int)
  | .fillPixel startX startY endX endY _ =>
    (Area.mk startX startY (endX - startX) (endY - startY)).pixels
  | .setPixel _ _ _ => ∅
  | .invalidate left top width height => (Area.mk left top width height).pixels

end DrawCall

/-- A rectangle that does not lie wholly to one side of the screen. -/
structure Area.Reaches (area : Area) (mode : Mode) (window : Area) : Prop where
  inside : area.Inside window
  right_nonneg : 0 ≤ area.left + area.width
  left_le : area.left ≤ mode.width

/-- Draws are visible, and what is invalidated besides reaches the screen. -/
def DrawCall.Proper (mode : Mode) (window : Area) : DrawCall → Prop
  | .fillPixel startX startY endX endY _ =>
    (Area.mk startX startY (endX - startX) (endY - startY)).Inside mode.area
  | .setPixel posX posY _ => (posX, posY) ∈ mode.area.pixels
  | .invalidate left top width height => (Area.mk left top width height).Reaches mode window

/-- Buffers of `PixelsPerLine` pixels a row that are equal, and nothing invalidated. -/
structure Ready (mode : Mode) (screen : Screen) : Prop where
  mode_eq : screen.mode = mode
  framebufferSize : 4 * (mode.pixelsPerLine * mode.height) ≤ screen.framebufferSize
  equal : ∀ k, 0 ≤ k → k < mode.pixelsPerLine * mode.height →
    screen.deviceFramebuffer k = screen.framebuffer k
  invalidatedScreen : screen.invalidatedScreen = false
  invalidated : screen.invalidated = []

variable {mode : Mode} {window : Area} {x y : Int}

theorem mem_pixels : (x, y) ∈ mode.area.pixels ↔ 0 ≤ x ∧ x < mode.width ∧ 0 ≤ y ∧ y < mode.height := by
  unfold Mode.area Area.pixels
  simp

theorem Mode.Fits.hasPixel (hfits : mode.Fits) (hvalid : mode.Valid)
    (hp : (x, y) ∈ mode.area.pixels) : mode.HasPixel x y := by
  obtain ⟨hx, hxw, hy, hyh⟩ := mem_pixels.mp hp
  have hlast := hfits.last
  have hwidth := hvalid.width_le
  have hrow : mode.pixelsPerLine * y ≤ mode.pixelsPerLine * (mode.height - 1) :=
    Int.mul_le_mul_of_nonneg_left (by omega) (by omega)
  have hrow' : 0 ≤ mode.pixelsPerLine * y := Int.mul_nonneg (by omega) hy
  have hbytes : mode.pixelsPerLine * 4 * y = 4 * (mode.pixelsPerLine * y) := by ring
  unfold doublebufferSize at hlast
  refine ⟨hfits.line, ?_, ?_, ?_, ?_, ?_⟩ <;>
    simp only [IsInt, Mode.index, doublebufferSize, hbytes] <;> omega

/-- Pixels of a row are apart from those of other rows. -/
theorem index_inj (hvalid : mode.Valid) {x' y' : Int} (hp : (x, y) ∈ mode.area.pixels)
    (hp' : (x', y') ∈ mode.area.pixels) (h : mode.index x y = mode.index x' y') :
    (x, y) = (x', y') := by
  obtain ⟨hx, hxw, hy, hyh⟩ := mem_pixels.mp hp
  obtain ⟨hx', hxw', hy', hyh'⟩ := mem_pixels.mp hp'
  have hwidth := hvalid.width_le
  have hdiv : ∀ a b : Int, 0 ≤ a → a < mode.pixelsPerLine →
      (mode.pixelsPerLine * b + a) / mode.pixelsPerLine = b := by
    intro a b ha halt
    rw [Int.mul_add_ediv_left _ _ (by omega), Int.ediv_eq_zero_of_lt ha halt, Int.add_zero]
  have hrow : y = y' := by
    calc y = mode.index x y / mode.pixelsPerLine := (hdiv x y hx (by omega)).symm
      _ = mode.index x' y' / mode.pixelsPerLine := by rw [h]
      _ = y' := hdiv x' y' hx' (by omega)
  subst hrow
  unfold Mode.index at h
  rw [Int.add_left_cancel h]

theorem index_lt (hvalid : mode.Valid) (hp : (x, y) ∈ mode.area.pixels) :
    0 ≤ mode.index x y ∧ mode.index x y < mode.pixelsPerLine * mode.height := by
  obtain ⟨hx, hxw, hy, hyh⟩ := mem_pixels.mp hp
  have hwidth := hvalid.width_le
  have hrow : mode.pixelsPerLine * (y + 1) ≤ mode.pixelsPerLine * mode.height :=
    Int.mul_le_mul_of_nonneg_left (by omega) (by omega)
  have hrow' : 0 ≤ mode.pixelsPerLine * y := Int.mul_nonneg (by omega) hy
  rw [Int.mul_add, Int.mul_one] at hrow
  unfold Mode.index
  omega

theorem DrawCall.Proper.drawn_subset {call : DrawCall} (h : call.Proper mode window) :
    call.drawn ⊆ mode.area.pixels := by
  cases call with
  | fillPixel startX startY endX endY color => exact Area.Inside.pixels_subset h
  | setPixel posX posY color => exact Set.singleton_subset_iff.mpr h
  | invalidate left top width height => exact Set.empty_subset _

/-! ### What a draw does -/

structure Tracked (mode : Mode) (window : Area) (screen : Screen) (areas : List Area) : Prop where
  mode_eq : screen.mode = mode
  invalidated : screen.invalidated = areas.map Area.encode
  reaches : ∀ area ∈ areas, area.Reaches mode window

/-- From `screen` to `next` some pixels are drawn and some invalidated. -/
structure Advances (mode : Mode) (drawn invalidated : Set (Int × Int)) (screen : Screen)
    (areas : List Area) (next : Screen) (areas' : List Area) : Prop where
  deviceFramebuffer : next.deviceFramebuffer = screen.deviceFramebuffer
  framebufferSize : next.framebufferSize = screen.framebufferSize
  invalidatedScreen : screen.invalidatedScreen = true → next.invalidatedScreen = true
  covers : next.invalidatedScreen = false → invalidated ∪ covered areas ⊆ covered areas'
  kept : ∀ k, (mode.IsDrawn → k ∉ placed mode.index drawn) → next.framebuffer k = screen.framebuffer k

namespace Advances

variable {drawn drawn' invalidated invalidated' : Set (Int × Int)} {screen middle next : Screen}
  {areas areas' areas'' : List Area}

theorem refl (mode : Mode) (screen : Screen) (areas : List Area) :
    Advances mode ∅ ∅ screen areas screen areas where
  deviceFramebuffer := rfl
  framebufferSize := rfl
  invalidatedScreen := id
  covers _ := by rw [Set.empty_union]
  kept _ _ := rfl

theorem trans (h : Advances mode drawn invalidated screen areas middle areas')
    (h' : Advances mode drawn' invalidated' middle areas' next areas'') :
    Advances mode (drawn ∪ drawn') (invalidated ∪ invalidated') screen areas next areas'' where
  deviceFramebuffer := h'.deviceFramebuffer.trans h.deviceFramebuffer
  framebufferSize := h'.framebufferSize.trans h.framebufferSize
  invalidatedScreen hscreen := h'.invalidatedScreen (h.invalidatedScreen hscreen)
  covers hscreen := by
    have hmiddle : middle.invalidatedScreen = false := by
      cases hm : middle.invalidatedScreen with
      | false => rfl
      | true => rw [h'.invalidatedScreen hm] at hscreen; cases hscreen
    have hsecond := Set.union_subset_iff.mp (h'.covers hscreen)
    have hfirst := Set.union_subset_iff.mp (h.covers hmiddle)
    refine Set.union_subset (Set.union_subset ?_ hsecond.1) ?_
    · exact hfirst.1.trans hsecond.2
    · exact hfirst.2.trans hsecond.2
  kept k hk := by
    rw [placed_union] at hk
    rw [h'.kept k fun hdrawn hmem => hk hdrawn (Or.inr hmem),
      h.kept k fun hdrawn hmem => hk hdrawn (Or.inl hmem)]

end Advances

variable {screen : Screen} {areas : List Area} {area : Area}

theorem Area.join_reaches {prev joined : Area} (hprev : prev.Reaches mode window)
    (harea : area.Reaches mode window) (h : prev.join area = some joined) :
    joined.Reaches mode window := by
  obtain ⟨hprevInside, hpr, hpl⟩ := hprev
  obtain ⟨hareaInside, har, hal⟩ := harea
  have hpw := hprevInside.width_nonneg
  have haw := hareaInside.width_nonneg
  refine ⟨join_inside h hprevInside hareaInside, ?_, ?_⟩ <;>
    rcases join_cases h with ⟨_, _, _, rfl⟩ | ⟨_, _, _, rfl⟩ | ⟨_, _, _, rfl⟩ | ⟨_, _, _, rfl⟩ <;>
    dsimp only <;> omega

theorem invalidate_advances (hwindow : window.IsWindow) (htracked : Tracked mode window screen areas)
    (harea : area.Reaches mode window) :
    ∃ areas', Tracked mode window
        (screen.invalidate area.left area.top area.width area.height) areas' ∧
      Advances mode ∅ area.pixels screen areas
        (screen.invalidate area.left area.top area.width area.height) areas' := by
  by_cases hfull : invalidatedBufferSize ≤ screen.invalidated.length
  · -- No more space: the entire screen is invalidated.
    have hscreen : screen.invalidate area.left area.top area.width area.height =
        { screen with invalidatedScreen := true } := by
      simp only [Screen.invalidate, Graphics.invalidate, if_pos hfull]
    rw [hscreen]
    refine ⟨areas, ⟨htracked.mode_eq, htracked.invalidated, htracked.reaches⟩, rfl, rfl,
      fun _ => rfl, ?_, fun _ _ => rfl⟩
    intro h
    cases h
  · have hinside : ∀ a ∈ areas, a.Inside window := fun a ha => (htracked.reaches a ha).inside
    have hscreen : screen.invalidate area.left area.top area.width area.height =
        { screen with invalidated := (pushArea area areas).map Area.encode } := by
      simp only [Screen.invalidate, Graphics.invalidate, if_neg hfull]
      rw [htracked.invalidated, ← pushMerged_encode (fun a ha => hwindow.inside_plane (hinside a ha))
        (hwindow.inside_plane harea.inside)]
      rfl
    rw [hscreen]
    refine ⟨pushArea area areas, ⟨htracked.mode_eq, rfl, ?_⟩, rfl, rfl, id, ?_, fun _ _ => rfl⟩
    · exact pushArea_forall (fun prev joined hprev ha => Area.join_reaches hprev ha)
        htracked.reaches harea
    · intro _
      rw [covered_pushArea hinside harea.inside]

theorem store_advances {framebuffer : Pixels} {drawn : Set (Int × Int)}
    (htracked : Tracked mode window screen areas)
    (hkept : ∀ k, (mode.IsDrawn → k ∉ placed mode.index drawn) → framebuffer k = screen.framebuffer k) :
    Tracked mode window { screen with framebuffer := framebuffer } areas ∧
      Advances mode drawn ∅ screen areas { screen with framebuffer := framebuffer } areas := by
  refine ⟨⟨htracked.mode_eq, htracked.invalidated, htracked.reaches⟩, rfl, rfl, id, ?_, hkept⟩
  intro _
  rw [Set.empty_union]

/-- `graphics_SetPixel` stores some value in the two formats that are drawn. -/
theorem setPixel_cases (screen : Screen) (posX posY : Int) (color : Color) :
    (screen.mode.IsDrawn ∧ ∃ value, screen.setPixel posX posY color = do
        let framebuffer ← storePixel screen.mode value posX posY screen.framebuffer
        some { screen with framebuffer := framebuffer }) ∨
      ¬ screen.mode.IsDrawn ∧ screen.setPixel posX posY color = some screen := by
  unfold Screen.setPixel Mode.IsDrawn
  cases screen.mode.pixelFormat with
  | rgba8bit => exact Or.inl ⟨Or.inl rfl, littleEndian32 color.r color.g color.b 0, rfl⟩
  | bgra8bit => exact Or.inl ⟨Or.inr rfl, color.word &&& 0x00ffffff, rfl⟩
  | bitMask => exact Or.inr ⟨by decide, rfl⟩
  | bltOnly => exact Or.inr ⟨by decide, rfl⟩

theorem fillPixel_cases (screen : Screen) (startX startY endX endY : Int) (color : Color) :
    (screen.mode.IsDrawn ∧ ∃ value, (value = color.word &&& 0x00ffffff ∨
          value = littleEndian32 color.b color.g color.r 0) ∧
        screen.fillPixel startX startY endX endY color = do
          let framebuffer ← storePixels screen.mode value startX startY endX endY screen.framebuffer
          some (({ screen with framebuffer := framebuffer } : Screen).invalidate startX startY
            (endX - startX) (endY - startY))) ∨
      ¬ screen.mode.IsDrawn ∧ screen.fillPixel startX startY endX endY color =
        some (screen.invalidate startX startY (endX - startX) (endY - startY)) := by
  unfold Screen.fillPixel Mode.IsDrawn
  cases screen.mode.pixelFormat with
  | rgba8bit => exact Or.inl ⟨Or.inl rfl, _, Or.inr rfl, rfl⟩
  | bgra8bit => exact Or.inl ⟨Or.inr rfl, _, Or.inl rfl, rfl⟩
  | bitMask => exact Or.inr ⟨by decide, rfl⟩
  | bltOnly => exact Or.inr ⟨by decide, rfl⟩

theorem setPixel_advances (hpixel : mode.IsDrawn → mode.HasPixel x y)
    (htracked : Tracked mode window screen areas) (color : Color) :
    ∃ next, screen.setPixel x y color = some next ∧ Tracked mode window next areas ∧
      Advances mode {(x, y)} ∅ screen areas next areas := by
  have hmode := htracked.mode_eq
  rcases setPixel_cases screen x y color with ⟨hdrawn, value, hset⟩ | ⟨hformat, hset⟩
  · rw [hmode] at hdrawn
    have hmem : screen.mode.HasPixel x y := by rw [hmode]; exact hpixel hdrawn
    obtain ⟨framebuffer, hframebuffer, hpatched⟩ :=
      storePixel_spec value screen.framebuffer hmem
    rw [hset, hframebuffer]
    refine ⟨_, rfl, store_advances htracked fun k hk => hpatched.outside fun hstored => ?_⟩
    rw [hmode] at hstored
    exact hk hdrawn ⟨x, y, rfl, hstored⟩
  · exact ⟨screen, hset, store_advances htracked fun k hk => rfl⟩

theorem fillPixel_stored (hpixel : mode.IsDrawn → ∀ p ∈ mode.area.pixels, mode.HasPixel p.1 p.2)
    (hmode : screen.mode = mode) {startX startY endX endY : Int}
    (hfill : (Area.mk startX startY (endX - startX) (endY - startY)).Inside mode.area)
    (color : Color) :
    ∃ framebuffer, screen.fillPixel startX startY endX endY color =
        some (({ screen with framebuffer := framebuffer } : Screen).invalidate startX startY
          (endX - startX) (endY - startY)) ∧
      ∀ k, (mode.IsDrawn → k ∉ placed mode.index
        (Area.mk startX startY (endX - startX) (endY - startY)).pixels) →
        framebuffer k = screen.framebuffer k := by
  rcases fillPixel_cases screen startX startY endX endY color with
    ⟨hdrawn, value, -, hfilled⟩ | ⟨hformat, hfilled⟩
  · rw [hmode] at hdrawn
    have hmem : ∀ x y, startX ≤ x → x < endX → startY ≤ y → y < endY → screen.mode.HasPixel x y := by
      intro x y hx hxe hy hye
      obtain ⟨hl, hw, hr, ht, hh, hb⟩ := hfill
      dsimp only [Mode.area] at hl hw hr ht hh hb
      rw [hmode]
      exact hpixel hdrawn (x, y) (mem_pixels.mpr ⟨by omega, by omega, by omega, by omega⟩)
    obtain ⟨framebuffer, hframebuffer, hpatched⟩ :=
      storePixels_spec value screen.framebuffer hmem
    rw [hfilled, hframebuffer]
    refine ⟨framebuffer, rfl, fun k hk => hpatched.outside fun hstored => ?_⟩
    rw [hmode] at hstored
    obtain ⟨x, y, ⟨hx, hxe, hy, hye⟩, hindex⟩ := hstored
    refine hk hdrawn ⟨x, y, ?_, hindex⟩
    dsimp only at hx hxe hy hye
    exact ⟨hx, by dsimp only; omega, hy, by dsimp only; omega⟩
  · exact ⟨screen.framebuffer, hfilled, fun _ _ => rfl⟩

theorem fillPixel_advances (hpixel : mode.IsDrawn → ∀ p ∈ mode.area.pixels, mode.HasPixel p.1 p.2)
    (hwindow : window.IsWindow) (hscreen : mode.area.Inside window)
    (htracked : Tracked mode window screen areas) {startX startY endX endY : Int}
    (hfill : (Area.mk startX startY (endX - startX) (endY - startY)).Inside mode.area)
    (color : Color) :
    ∃ next areas', screen.fillPixel startX startY endX endY color = some next ∧
      Tracked mode window next areas' ∧
      Advances mode (Area.mk startX startY (endX - startX) (endY - startY)).pixels
        (Area.mk startX startY (endX - startX) (endY - startY)).pixels screen areas next areas' := by
  have hreaches : (Area.mk startX startY (endX - startX) (endY - startY)).Reaches mode window := by
    have hleft := hfill.left_le
    have hright := hfill.right_le
    have hwidth := hfill.width_nonneg
    dsimp only [Mode.area] at hleft hright hwidth
    exact ⟨hfill.trans hscreen, by dsimp only; omega, by dsimp only; omega⟩
  obtain ⟨framebuffer, hframebuffer, hkept⟩ :=
    fillPixel_stored hpixel htracked.mode_eq hfill color
  obtain ⟨hstored, hstoredAdvances⟩ := store_advances htracked hkept
  obtain ⟨areas', hnext, hadvances⟩ := invalidate_advances hwindow hstored hreaches
  refine ⟨_, areas', hframebuffer, hnext, ?_⟩
  have hboth := hstoredAdvances.trans hadvances
  rwa [Set.union_empty, Set.empty_union] at hboth

theorem draw_advances (hpixel : mode.IsDrawn → ∀ p ∈ mode.area.pixels, mode.HasPixel p.1 p.2)
    (hwindow : window.IsWindow) (hscreen : mode.area.Inside window)
    (htracked : Tracked mode window screen areas) {call : DrawCall}
    (hcall : call.Proper mode window) :
    ∃ next areas', screen.draw call = some next ∧ Tracked mode window next areas' ∧
      Advances mode call.drawn call.invalidated screen areas next areas' := by
  cases call with
  | fillPixel startX startY endX endY color =>
    exact fillPixel_advances hpixel hwindow hscreen htracked hcall color
  | setPixel posX posY color =>
    obtain ⟨next, hnext, htracked', hadvances⟩ :=
      setPixel_advances (fun hdrawn => hpixel hdrawn (posX, posY) hcall) htracked color
    exact ⟨next, areas, hnext, htracked', hadvances⟩
  | invalidate left top width height =>
    obtain ⟨areas', hnext, hadvances⟩ := invalidate_advances hwindow htracked hcall
    exact ⟨_, areas', rfl, hnext, hadvances⟩

theorem exec_advances (hpixel : mode.IsDrawn → ∀ p ∈ mode.area.pixels, mode.HasPixel p.1 p.2)
    (hwindow : window.IsWindow) (hscreen : mode.area.Inside window)
    (htracked : Tracked mode window screen areas) {calls : List DrawCall}
    (hcalls : ∀ call ∈ calls, call.Proper mode window) :
    ∃ last areas', Run.exec Screen.draw screen calls = some last ∧ Tracked mode window last areas' ∧
      Advances mode {p | ∃ call ∈ calls, p ∈ call.drawn} {p | ∃ call ∈ calls, p ∈ call.invalidated}
        screen areas last areas' := by
  induction calls generalizing screen areas with
  | nil =>
    refine ⟨screen, areas, rfl, htracked, ?_⟩
    simpa using Advances.refl mode screen areas
  | cons call calls ih =>
    rw [List.forall_mem_cons] at hcalls
    obtain ⟨next, areas', hnext, htracked', hadvances⟩ :=
      draw_advances hpixel hwindow hscreen htracked hcalls.1
    obtain ⟨last, areas'', hlast, htracked'', hrest⟩ := ih htracked' hcalls.2
    refine ⟨last, areas'', ?_, htracked'', ?_⟩
    · rw [Run.exec_cons, hnext, Option.bind_some, hlast]
    · convert hadvances.trans hrest using 1 <;> ext p <;>
        simp only [List.mem_cons, exists_eq_or_imp, Set.mem_union, Set.mem_ofPred_eq]

/-! ### What is copied -/

/-- The places from which and to which the visible ones of some pixels are copied. -/
def Mode.blitted (mode : Mode) (pixels : Set (Int × Int)) : Set Int :=
  placed (fun x y => mode.width * y + x) (pixels ∩ mode.area.pixels)

theorem blitted_covered (mode : Mode) (areas : List Area) :
    mode.blitted (covered areas) = {k | ∃ area ∈ areas, k ∈ mode.blitted area.pixels} := by
  ext k
  constructor
  · rintro ⟨x, y, ⟨⟨area, harea, hp⟩, hvisible⟩, hk⟩
    exact ⟨area, harea, x, y, ⟨hp, hvisible⟩, hk⟩
  · rintro ⟨area, harea, x, y, ⟨hp, hvisible⟩, hk⟩
    exact ⟨x, y, ⟨⟨area, harea, hp⟩, hvisible⟩, hk⟩

theorem copyRect_encode (hwindow : window.IsWindow) (hwidth : 0 ≤ mode.width)
    (harea : area.Reaches mode window) (framebuffer device : Pixels) :
    ∃ result, copyRect mode framebuffer device area.encode = some result ∧
      Patched (mode.blitted area.pixels) framebuffer device result := by
  obtain ⟨hwl, hww, hwr, hwt, hwh, hwb⟩ := hwindow
  obtain ⟨⟨hal, haw, har, hat, hah, hab⟩, hright, hleft⟩ := harea
  have hshown : mode.blitted area.pixels = (Image.mk framebuffer area.left area.top mode.width
      mode.height).shown area.width area.height := by
    ext k
    rw [Image.mem_shown]
    constructor
    · rintro ⟨x, y, ⟨hp, hvisible⟩, hk⟩
      exact ⟨x, y, hp, mem_pixels.mp hvisible, hk⟩
    · rintro ⟨x, y, hp, hvisible, hk⟩
      exact ⟨x, y, ⟨hp, mem_pixels.mpr hvisible⟩, hk⟩
  unfold copyRect Area.encode
  dsimp only
  rw [hshown, toInt_u32 (by omega) (by omega), toInt_u32 (by omega) (by omega),
    toInt_u32 (by omega) (by omega), toInt_u32 (by omega) (by omega)]
  exact copyBuffer32_same device haw hwidth hright hleft

theorem copyRects_encode (hwindow : window.IsWindow) (hwidth : 0 ≤ mode.width)
    (hareas : ∀ area ∈ areas, area.Reaches mode window) (framebuffer device : Pixels) :
    ∃ result, (areas.map Area.encode).foldlM (copyRect mode framebuffer) device = some result ∧
      Patched (mode.blitted (covered areas)) framebuffer device result := by
  rw [List.foldlM_map, blitted_covered]
  exact Patched.foldlM fun area harea pixels =>
    copyRect_encode hwindow hwidth (hareas area harea) framebuffer pixels

theorem swapBuffer_spec (hwindow : window.IsWindow) (hwidth : 0 ≤ mode.width)
    (htracked : Tracked mode window screen areas) :
    ∃ device, screen.swapBuffer = some { screen with
        deviceFramebuffer := device, invalidatedScreen := false, invalidated := [] } ∧
      (screen.invalidatedScreen = true →
        Patched {k | 0 ≤ k ∧ k < 0 + ((screen.framebufferSize / 4 : Nat) : Int)}
          screen.framebuffer screen.deviceFramebuffer device) ∧
      (screen.invalidatedScreen = false → Patched (mode.blitted (covered areas))
        screen.framebuffer screen.deviceFramebuffer device) := by
  unfold Screen.swapBuffer
  cases hscreen : screen.invalidatedScreen with
  | true =>
    refine ⟨_, rfl, fun _ => copyPixels_same _ _ 0 _, ?_⟩
    intro h
    cases h
  | false =>
    obtain ⟨device, hdevice, hpatched⟩ := copyRects_encode hwindow hwidth htracked.reaches
      screen.framebuffer screen.deviceFramebuffer
    rw [htracked.mode_eq, htracked.invalidated]
    refine ⟨device, ?_, ?_, fun _ => hpatched⟩
    · simp only [Bool.false_eq_true, if_false, hdevice]
      rfl
    · intro h
      cases h

/-! ### When a frame is presented -/

theorem Mode.Valid.isWindow (hvalid : mode.Valid) : mode.area.IsWindow := by
  obtain ⟨hwidth, hle, hheight, hline, hint⟩ := hvalid
  unfold IsInt at hline hint
  constructor <;> dsimp only [Mode.area] <;> omega

theorem Mode.Valid.area_inside (hvalid : mode.Valid) : mode.area.Inside mode.area where
  left_le := le_rfl
  width_nonneg := hvalid.width_nonneg
  right_le := le_rfl
  top_le := le_rfl
  height_nonneg := hvalid.height_nonneg
  bottom_le := le_rfl

def blankScreen (mode : Mode) : Screen where
  invalidatedScreen := false
  invalidated := []
  mode := mode
  framebuffer := fun _ => 0
  deviceFramebuffer := fun _ => 0
  framebufferSize := (4 * (mode.pixelsPerLine * mode.height)).toNat

end Helos.Graphics
