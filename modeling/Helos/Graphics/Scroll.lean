import Helos.Graphics.Glyphs
import Helos.Graphics.MouseOverlay
import Helos.Graphics.Painting

/-!
# Scrolling

`graphics_Scroll`, and what else the console does to the screen: what is behind on the device after
each, and which pixels the back buffer then has.
-/

namespace Helos.Graphics

/-! ### `graphics_Scroll` -/

def mulInt (x y : Int) : Option Int := if IsInt (x * y) then some (x * y) else none

/-- `memmove` to the beginning of the back buffer. It goes through all of memory for a count of 0, and
a negative one is converted to `size_t`. -/
def movePixels (framebuffer : Pixels) (source count : Int) : Option Pixels :=
  if 0 < count ∧ 0 ≤ source ∧ source + count ≤ doublebufferSize then
    some (copyPixels framebuffer framebuffer 0 source count.toNat)
  else none

def Screen.scroll (screen : Screen) (scrollY : Int) : Option Screen := do
  let rest ← addInt screen.mode.height (-scrollY)
  let source ← mulInt screen.mode.pixelsPerLine scrollY
  let count ← mulInt screen.mode.pixelsPerLine rest
  let framebuffer ← movePixels screen.framebuffer source count
  let filled ← ({ screen with framebuffer := framebuffer } : Screen).fillPixel 0 rest
    screen.mode.width screen.mode.height .black
  some { filled with invalidatedScreen := true }

/-! ### The console and its screen -/

def Screen.perform (unifontData : List UInt8) (screen : Screen) : Issued → Option Screen
  | .scroll scrollY => screen.scroll scrollY
  | .fillPixel startX startY endX endY color => screen.fillPixel startX startY endX endY color
  | .drawChar posX posY color codepoint =>
    (unifontDrawChar unifontData posX posY codepoint).bind fun pixels => screen.setPixels pixels color
  | .invalidate left top width height => some (screen.invalidate left top width height)
  | .swapBuffer => screen.swapBuffer

structure Console where
  screen : Screen
  cursor : Cursor

/-- A call of one of the functions that write strings. -/
structure Writing where
  color : Color
  text : Text
  len : Int
  deriving DecidableEq, Repr

namespace Console

def writeChar (unifontData : List UInt8) (color : Color) (console : Console) (c : UInt32) :
    Option Console := do
  let (cursor, issued) ← Graphics.writeChar console.screen.mode color console.cursor c
  let screen ← Run.exec (Screen.perform unifontData) console.screen issued
  some ⟨screen, cursor⟩

def write (unifontData : List UInt8) (console : Console) (call : Writing) : Option Console := do
  let (cursor, issued) ←
    call.text.write console.screen.mode call.color console.cursor call.len
  let screen ← Run.exec (Screen.perform unifontData) console.screen issued
  some ⟨screen, cursor⟩

end Console

/-! ### A screen and its device -/

/-- A mode that can be printed on, all of whose lines are in the back buffer. -/
structure Mode.Prints (mode : Mode) : Prop where
  valid : mode.Valid
  drawn : mode.IsDrawn
  width_ge : 16 ≤ mode.width
  height_ge : 16 ≤ mode.height
  line : IsInt (mode.pixelsPerLine * 4)
  lines : mode.pixelsPerLine * mode.height ≤ doublebufferSize
  stride : mode.pixelsPerLine = mode.width

/-- The device shows what the back buffer has, except for what is invalidated. -/
structure Pending (mode : Mode) (screen : Screen) (areas : List Area) : Prop where
  tracked : Tracked mode mode.area screen areas
  framebufferSize : 4 * (mode.pixelsPerLine * mode.height) ≤ screen.framebufferSize
  behind : screen.invalidatedScreen = false → ∀ p ∈ mode.area.pixels, p ∉ covered areas →
    screen.deviceFramebuffer (mode.index p.1 p.2) = screen.framebuffer (mode.index p.1 p.2)

section Screens

variable {mode : Mode} {screen last : Screen} {areas : List Area} {unifontData : List UInt8}

namespace Mode.Prints

theorem fits (hmode : mode.Prints) : mode.Fits where
  line := hmode.line
  last := by
    have hwidth := hmode.valid.width_le
    have hlines := hmode.lines
    rw [Int.mul_sub, Int.mul_one]
    omega

theorem hasPixel (hmode : mode.Prints) {p : Int × Int} (hp : p ∈ mode.area.pixels) :
    mode.HasPixel p.1 p.2 :=
  hmode.fits.hasPixel hmode.valid hp

theorem lines_isInt (hmode : mode.Prints) {n : Int} (h : 0 ≤ n) (hn : n ≤ mode.height) :
    0 ≤ mode.pixelsPerLine * n ∧ mode.pixelsPerLine * n ≤ doublebufferSize ∧
      IsInt (mode.pixelsPerLine * n) := by
  have hwidth := hmode.width_ge
  have hstride := hmode.stride
  have hlow : 0 ≤ mode.pixelsPerLine * n := Int.mul_nonneg (by omega) h
  have hhigh : mode.pixelsPerLine * n ≤ mode.pixelsPerLine * mode.height :=
    Int.mul_le_mul_of_nonneg_left hn (by omega)
  have hsize := hhigh.trans hmode.lines
  refine ⟨hlow, hsize, ?_⟩
  unfold doublebufferSize at hsize
  unfold IsInt
  omega

theorem height_le (hmode : mode.Prints) : mode.height ≤ 2 ^ 17 := by
  have hwidth := hmode.width_ge
  have hstride := hmode.stride
  have hheight := hmode.height_ge
  have hlines : 16 * mode.height ≤ doublebufferSize :=
    (Int.mul_le_mul_of_nonneg_right (by omega) (by omega)).trans hmode.lines
  unfold doublebufferSize at hlines
  omega

theorem width_le (hmode : mode.Prints) : mode.width ≤ 2 ^ 17 := by
  have hwidth := hmode.width_ge
  have hstride := hmode.stride
  have hheight := hmode.height_ge
  have hlines : mode.pixelsPerLine * 16 ≤ doublebufferSize :=
    (Int.mul_le_mul_of_nonneg_left hheight (by omega)).trans hmode.lines
  unfold doublebufferSize at hlines
  omega

end Mode.Prints

/-- Visible pixels of a buffer that is patched. -/
theorem patched_visible (hvalid : mode.Valid) {pixels : Set (Int × Int)}
    (hpixels : pixels ⊆ mode.area.pixels) {value : UInt32} {base result : Pixels}
    (h : Patched (placed mode.index pixels) (fun _ => value) base result) {p : Int × Int}
    (hp : p ∈ mode.area.pixels) :
    (p ∈ pixels → result (mode.index p.1 p.2) = value) ∧
      (p ∉ pixels → result (mode.index p.1 p.2) = base (mode.index p.1 p.2)) := by
  refine ⟨fun hmem => h.inside ⟨p.1, p.2, hmem, rfl⟩, fun hmem => h.outside ?_⟩
  rintro ⟨x, y, hq, hindex⟩
  obtain rfl : p = (x, y) := index_inj hvalid hp (hpixels hq) hindex
  exact hmem hq

theorem Pending.exec (hmode : mode.Prints) (h : Pending mode screen areas) {calls : List DrawCall}
    (hproper : ∀ call ∈ calls, call.Proper mode mode.area)
    (hcovered : ∀ call ∈ calls, ∀ p ∈ call.drawn, ∃ other ∈ calls, p ∈ other.invalidated) :
    ∃ last areas', Run.exec Screen.draw screen calls = some last ∧ Pending mode last areas' ∧
      last.deviceFramebuffer = screen.deviceFramebuffer := by
  obtain ⟨last, areas', hlast, htracked, hadvances⟩ := exec_advances
    (fun _ p hp => hmode.hasPixel hp) hmode.valid.isWindow hmode.valid.area_inside h.tracked hproper
  refine ⟨last, areas', hlast, ⟨htracked, ?_, ?_⟩, hadvances.deviceFramebuffer⟩
  · rw [hadvances.framebufferSize]
    exact h.framebufferSize
  · intro hflag p hp hp'
    have hbefore : screen.invalidatedScreen = false := by
      cases hscreen : screen.invalidatedScreen with
      | false => rfl
      | true => rw [hadvances.invalidatedScreen hscreen] at hflag; cases hflag
    have hareas := hadvances.covers hflag
    rw [hadvances.deviceFramebuffer, hadvances.kept]
    · exact h.behind hbefore p hp fun hmem => hp' (hareas (Or.inr hmem))
    · -- A visible pixel that was drawn is invalidated.
      rintro - ⟨x, y, ⟨call, hcall, hdrawn⟩, hindex⟩
      obtain rfl : p = (x, y) :=
        index_inj hmode.valid hp ((hproper call hcall).drawn_subset hdrawn) hindex
      exact hp' (hareas (Or.inl (hcovered call hcall _ hdrawn)))

theorem Pending.swapBuffer (hmode : mode.Prints) (h : Pending mode screen areas) :
    ∃ next, screen.swapBuffer = some next ∧ Pending mode next [] ∧
      next.framebuffer = screen.framebuffer ∧ ∀ p ∈ mode.area.pixels,
        next.deviceFramebuffer (mode.index p.1 p.2) = screen.framebuffer (mode.index p.1 p.2) := by
  obtain ⟨device, hswap, hfull, hrects⟩ :=
    swapBuffer_spec hmode.valid.isWindow hmode.valid.width_nonneg h.tracked
  have hshown : ∀ p ∈ mode.area.pixels,
      device (mode.index p.1 p.2) = screen.framebuffer (mode.index p.1 p.2) := by
    intro p hp
    obtain ⟨hnonneg, hlt⟩ := index_lt hmode.valid hp
    have hsize := h.framebufferSize
    cases hflag : screen.invalidatedScreen with
    | true => exact (hfull hflag).inside ⟨hnonneg, by omega⟩
    | false =>
      have hplace : mode.width * p.2 + p.1 = mode.index p.1 p.2 := by
        rw [Mode.index, hmode.stride]
      by_cases hmem : p ∈ covered areas
      · exact (hrects hflag).inside ⟨p.1, p.2, ⟨hmem, hp⟩, hplace.symm⟩
      · rcases (hrects hflag).source_or_base (mode.index p.1 p.2) with hsource | hbase
        · exact hsource
        · exact hbase.trans (h.behind hflag p hp hmem)
  refine ⟨_, hswap, ⟨⟨h.tracked.mode_eq, rfl, by simp⟩, h.framebufferSize, ?_⟩, rfl, hshown⟩
  exact fun _ p hp _ => hshown p hp

/-! ### Scrolling -/

theorem mulInt_of_isInt {x y : Int} (h : IsInt (x * y)) : mulInt x y = some (x * y) := if_pos h

theorem mulInt_eq_some {x y z : Int} (h : mulInt x y = some z) : z = x * y := by
  unfold mulInt at h
  split at h
  · exact (Option.some.inj h).symm
  · cases h

theorem addInt_eq_some {x y z : Int} (h : addInt x y = some z) : z = x + y := by
  unfold addInt at h
  split at h
  · exact (Option.some.inj h).symm
  · cases h

theorem scroll_eq_none (hmode : mode.Prints) (hscreen : screen.mode = mode) {scrollY : Int}
    (h : mode.height ≤ scrollY) : screen.scroll scrollY = none := by
  unfold Screen.scroll
  rw [hscreen]
  refine Option.bind_eq_none_iff.mpr fun rest hrest => ?_
  refine Option.bind_eq_none_iff.mpr fun source hsource => ?_
  refine Option.bind_eq_none_iff.mpr fun count hcount => ?_
  have hnegative : count ≤ 0 := by
    rw [mulInt_eq_some hcount, addInt_eq_some hrest]
    exact Int.mul_nonpos_of_nonneg_of_nonpos
      (hmode.valid.width_nonneg.trans hmode.valid.width_le) (by omega)
  rw [movePixels, if_neg (by omega)]
  rfl

theorem black_fill (hmode : mode.Prints) (hscreen : screen.mode = mode) {startX startY endX endY : Int}
    (hinside : rectangle startX startY endX endY ⊆ mode.area.pixels)
    (h : screen.fillPixel startX startY endX endY .black = some last) :
    Patched (placed mode.index (rectangle startX startY endX endY)) (fun _ => 0) screen.framebuffer
      last.framebuffer := by
  obtain rfl := hscreen
  obtain ⟨next, hnext, hpatched⟩ :=
    fillPixel_spec .black hmode.drawn fun p hp => hmode.hasPixel (hinside hp)
  obtain rfl := Option.some.inj (h.symm.trans hnext)
  exact hpatched

def Screen.moved (screen : Screen) (scrollY : Int) : Screen :=
  { screen with
    framebuffer := copyPixels screen.framebuffer screen.framebuffer 0
      (screen.mode.pixelsPerLine * scrollY)
      (screen.mode.pixelsPerLine * (screen.mode.height + -scrollY)).toNat }

theorem scroll_eq (hmode : screen.mode.Prints) {scrollY : Int} (hnonneg : 0 ≤ scrollY)
    (hlt : scrollY < screen.mode.height) :
    screen.scroll scrollY = ((screen.moved scrollY).fillPixel 0 (screen.mode.height + -scrollY)
      screen.mode.width screen.mode.height .black).map fun filled =>
        { filled with invalidatedScreen := true } := by
  have hwidth := hmode.width_ge
  have hstride := hmode.stride
  obtain ⟨hsourceNonneg, -, hsource⟩ := hmode.lines_isInt hnonneg hlt.le
  obtain ⟨-, -, hcount⟩ :=
    hmode.lines_isInt (n := screen.mode.height + -scrollY) (by omega) (by omega)
  have hrest : IsInt (screen.mode.height + -scrollY) := by
    have hheight := hmode.height_le
    unfold IsInt
    omega
  have hpositive : 0 < screen.mode.pixelsPerLine * (screen.mode.height + -scrollY) :=
    Int.mul_pos (by omega) (by omega)
  have hsum : screen.mode.pixelsPerLine * scrollY +
      screen.mode.pixelsPerLine * (screen.mode.height + -scrollY) ≤ doublebufferSize := by
    rw [← Int.mul_add, show scrollY + (screen.mode.height + -scrollY) = screen.mode.height by omega]
    exact hmode.lines
  have hmove : movePixels screen.framebuffer (screen.mode.pixelsPerLine * scrollY)
      (screen.mode.pixelsPerLine * (screen.mode.height + -scrollY)) =
        some (screen.moved scrollY).framebuffer :=
    if_pos ⟨hpositive, hsourceNonneg, hsum⟩
  unfold Screen.scroll
  simp only [addInt_of_isInt hrest, mulInt_of_isInt hsource, mulInt_of_isInt hcount, hmove,
    Option.bind_eq_bind, Option.bind_some]
  exact Option.map_eq_bind.symm

theorem moved_visible (hmode : screen.mode.Prints) {scrollY x y : Int}
    (hp : (x, y) ∈ screen.mode.area.pixels) (hy : y < screen.mode.height + -scrollY) :
    (screen.moved scrollY).framebuffer (screen.mode.index x y) =
      screen.framebuffer (screen.mode.index x (y + scrollY)) := by
  have hvisible := mem_pixels.mp hp
  have hstride := hmode.stride
  obtain ⟨hindex, -⟩ := index_lt hmode.valid hp
  have hrow : screen.mode.pixelsPerLine * (y + 1) ≤
      screen.mode.pixelsPerLine * (screen.mode.height + -scrollY) :=
    Int.mul_le_mul_of_nonneg_left (by omega) (by omega)
  rw [Int.mul_add, Int.mul_one] at hrow
  unfold Mode.index at hindex ⊢
  dsimp only [Screen.moved]
  rw [copyPixels, if_pos ⟨hindex, by omega⟩, Int.mul_add]
  congr 1
  omega

/-- The lines go up, and black ones follow. -/
theorem scroll_spec (hmode : mode.Prints) (h : Pending mode screen areas) {scrollY : Int}
    (hnonneg : 0 ≤ scrollY) (hlt : scrollY < mode.height) :
    ∃ next areas', screen.scroll scrollY = some next ∧ Pending mode next areas' ∧
      next.deviceFramebuffer = screen.deviceFramebuffer ∧
      ∀ x y, (x, y) ∈ mode.area.pixels →
        (y < mode.height - scrollY →
          next.framebuffer (mode.index x y) = screen.framebuffer (mode.index x (y + scrollY))) ∧
        (mode.height - scrollY ≤ y → next.framebuffer (mode.index x y) = 0) := by
  obtain rfl : screen.mode = mode := h.tracked.mode_eq
  have hmoved : Tracked screen.mode screen.mode.area (screen.moved scrollY) areas :=
    ⟨rfl, h.tracked.invalidated, h.tracked.reaches⟩
  have hinside : (Area.mk 0 (screen.mode.height + -scrollY) (screen.mode.width - 0)
      (screen.mode.height - (screen.mode.height + -scrollY))).Inside screen.mode.area := by
    have hwidth := hmode.width_ge
    constructor <;> dsimp only [Mode.area] <;> omega
  obtain ⟨filled, areas', hfilled, htracked, hadvances⟩ := fillPixel_advances
    (fun _ p hp => hmode.hasPixel hp) hmode.valid.isWindow hmode.valid.area_inside hmoved hinside
    .black
  have hpending : Pending screen.mode { filled with invalidatedScreen := true } areas' := by
    refine ⟨⟨htracked.mode_eq, htracked.invalidated, htracked.reaches⟩, ?_, fun hflag => ?_⟩
    · exact h.framebufferSize.trans_eq (congrArg Nat.cast hadvances.framebufferSize.symm)
    · cases hflag
  refine ⟨_, areas', ?_, hpending, hadvances.deviceFramebuffer, ?_⟩
  · rw [scroll_eq hmode hnonneg hlt, hfilled, Option.map_some]
  intro x y hp
  have hvisible := mem_pixels.mp hp
  have hregion : rectangle 0 (screen.mode.height + -scrollY) screen.mode.width
      screen.mode.height ⊆ screen.mode.area.pixels := by
    rintro ⟨x', y'⟩ ⟨hx, hxe, hy, hye⟩
    exact mem_pixels.mpr ⟨hx, hxe, by dsimp only at hy; omega, hye⟩
  obtain ⟨hblack, hkept⟩ := patched_visible hmode.valid hregion
    (black_fill hmode hmoved.mode_eq hregion hfilled) hp
  constructor
  · intro hy
    calc filled.framebuffer (screen.mode.index x y)
        = (screen.moved scrollY).framebuffer (screen.mode.index x y) := by
          apply hkept
          intro hmem
          have hlow := hmem.2.2.1
          dsimp only at hlow
          omega
      _ = screen.framebuffer (screen.mode.index x (y + scrollY)) :=
          moved_visible hmode hp (by omega)
  · intro hy
    exact hblack ⟨hvisible.1, hvisible.2.1, by dsimp only; omega, hvisible.2.2.2⟩

/-! ### The mode is kept -/

theorem setPixel_mode {next : Screen} {posX posY : Int} {color : Color}
    (h : screen.setPixel posX posY color = some next) : next.mode = screen.mode := by
  rcases setPixel_cases screen posX posY color with ⟨-, value, hset⟩ | ⟨-, hset⟩
  · obtain ⟨framebuffer, -, hnext⟩ := Option.bind_eq_some_iff.mp (hset.symm.trans h)
    obtain rfl := Option.some.inj hnext
    rfl
  · obtain rfl := Option.some.inj (hset.symm.trans h)
    rfl

theorem draw_mode {next : Screen} {call : DrawCall} (h : screen.draw call = some next) :
    next.mode = screen.mode := by
  cases call with
  | fillPixel startX startY endX endY color => exact fillPixel_mode h
  | setPixel posX posY color => exact setPixel_mode h
  | invalidate left top width height =>
    obtain rfl := Option.some.inj h
    rfl

/-! ### The cell of a character -/

/-- The draws of a cell. -/
def cellDraws (column row width : Int) (pixels : List (Int × Int)) (color : Color) : List DrawCall :=
  .fillPixel column row (column + width) (row + unifontCharHeight) .black ::
    (pixels.map fun p => .setPixel p.1 p.2 color) ++
      [.invalidate column row width unifontCharHeight]

theorem forall_cellDraws {column row width : Int} {pixels : List (Int × Int)} {color : Color}
    {P : DrawCall → Prop} :
    (∀ call ∈ cellDraws column row width pixels color, P call) ↔
      P (.fillPixel column row (column + width) (row + unifontCharHeight) .black) ∧
        (∀ p ∈ pixels, P (.setPixel p.1 p.2 color)) ∧
        P (.invalidate column row width unifontCharHeight) := by
  unfold cellDraws
  rw [List.cons_append, List.forall_mem_cons, List.forall_mem_append, List.forall_mem_map,
    List.forall_mem_singleton]

theorem setPixels_draw (pixels : List (Int × Int)) (color : Color) :
    screen.setPixels pixels color =
      Run.exec Screen.draw screen (pixels.map fun p => .setPixel p.1 p.2 color) := by
  unfold Screen.setPixels
  induction pixels generalizing screen with
  | nil => rfl
  | cons p pixels ih =>
    rw [List.foldlM_cons, List.map_cons, Run.exec_cons]
    exact Option.bind_congr fun next _ => ih

theorem perform_mode {next : Screen} {call : Issued} (h : screen.perform unifontData call = some next) :
    next.mode = screen.mode := by
  cases call with
  | scroll scrollY =>
    obtain ⟨rest, -, h⟩ := Option.bind_eq_some_iff.mp h
    obtain ⟨source, -, h⟩ := Option.bind_eq_some_iff.mp h
    obtain ⟨count, -, h⟩ := Option.bind_eq_some_iff.mp h
    obtain ⟨framebuffer, -, h⟩ := Option.bind_eq_some_iff.mp h
    obtain ⟨filled, hfilled, h⟩ := Option.bind_eq_some_iff.mp h
    obtain rfl := Option.some.inj h
    have hmode := fillPixel_mode hfilled
    exact hmode
  | fillPixel startX startY endX endY color => exact fillPixel_mode h
  | drawChar posX posY color codepoint =>
    obtain ⟨pixels, -, h⟩ := Option.bind_eq_some_iff.mp h
    rw [setPixels_draw] at h
    refine Run.exec_invariant (I := fun s => s.mode = screen.mode) ?_ rfl h
    exact fun s call s' hs hdraw => (draw_mode hdraw).trans hs
  | invalidate left top width height =>
    obtain rfl := Option.some.inj h
    rfl
  | swapBuffer =>
    rw [Screen.perform, Screen.swapBuffer] at h
    split at h <;>
    · obtain ⟨device, -, hnext⟩ := Option.bind_eq_some_iff.mp h
      obtain rfl := Option.some.inj hnext
      rfl

theorem exec_cellDraws (column row width : Int) (pixels : List (Int × Int)) (color : Color) :
    Run.exec Screen.draw screen (cellDraws column row width pixels color) =
      (screen.fillPixel column row (column + width) (row + unifontCharHeight) .black).bind fun filled =>
        (filled.setPixels pixels color).bind fun drawn =>
          some (drawn.invalidate column row width unifontCharHeight) := by
  rw [cellDraws, List.cons_append, Run.exec_cons]
  refine Option.bind_congr fun filled _ => ?_
  rw [Run.exec_append, setPixels_draw]
  rfl

/-- A cell is black where the character does not have a pixel, and the rest of the screen is kept. -/
theorem cell_spec (hmode : mode.Prints) (h : Pending mode screen areas) {column row width : Int}
    (hinside : (Area.mk column row width unifontCharHeight).Inside mode.area)
    {pixels : List (Int × Int)}
    (hpixels : ∀ p ∈ pixels, p ∈ rectangle column row (column + width) (row + unifontCharHeight))
    (color : Color) :
    ∃ next areas', Run.exec Screen.draw screen (cellDraws column row width pixels color) = some next ∧
      Pending mode next areas' ∧ next.deviceFramebuffer = screen.deviceFramebuffer ∧
      ∀ p ∈ mode.area.pixels,
        (p ∈ pixels → next.framebuffer (mode.index p.1 p.2) = color.stored mode.pixelFormat) ∧
        (p ∉ pixels → p ∈ rectangle column row (column + width) (row + unifontCharHeight) →
          next.framebuffer (mode.index p.1 p.2) = 0) ∧
        (p ∉ rectangle column row (column + width) (row + unifontCharHeight) →
          next.framebuffer (mode.index p.1 p.2) = screen.framebuffer (mode.index p.1 p.2)) := by
  have hregion : rectangle column row (column + width) (row + unifontCharHeight) ⊆
      mode.area.pixels := hinside.pixels_subset
  have hfill : (Area.mk column row (column + width - column)
      (row + unifontCharHeight - row)).Inside mode.area := by
    rwa [add_sub_cancel_left, add_sub_cancel_left]
  have hproper : ∀ call ∈ cellDraws column row width pixels color,
      call.Proper mode mode.area := by
    have hright := hinside.right_le
    have hleft := hinside.left_le
    have hwidth := hinside.width_nonneg
    dsimp only [Mode.area] at hright hleft hwidth
    refine forall_cellDraws.mpr ⟨hfill, fun p hp => hregion (hpixels p hp), hinside, ?_, ?_⟩
    · dsimp only
      omega
    · dsimp only
      omega
  have hcovered : ∀ call ∈ cellDraws column row width pixels color, ∀ p ∈ call.drawn,
      ∃ other ∈ cellDraws column row width pixels color, p ∈ other.invalidated := by
    have hall : ∀ p ∈ rectangle column row (column + width) (row + unifontCharHeight),
        ∃ other ∈ cellDraws column row width pixels color, p ∈ other.invalidated :=
      fun p hp => ⟨.invalidate column row width unifontCharHeight, by simp [cellDraws], hp⟩
    refine forall_cellDraws.mpr ⟨fun p hp => hall p ?_, fun q hq p hp => hall p ?_,
      fun p hp => hp.elim⟩
    · rwa [DrawCall.drawn, add_sub_cancel_left, add_sub_cancel_left] at hp
    · obtain rfl : p = (q.1, q.2) := hp
      exact hpixels q hq
  obtain ⟨next, areas', hnext, hpending, hdevice⟩ := h.exec hmode hproper hcovered
  refine ⟨next, areas', hnext, hpending, hdevice, ?_⟩
  rw [exec_cellDraws] at hnext
  obtain ⟨filled, hfilled, hrest⟩ := Option.bind_eq_some_iff.mp hnext
  obtain ⟨drawn, hdrawn, hlast⟩ := Option.bind_eq_some_iff.mp hrest
  obtain rfl := Option.some.inj hlast
  have hblack := black_fill hmode h.tracked.mode_eq hregion hfilled
  have hfilledMode : filled.mode = mode := (fillPixel_mode hfilled).trans h.tracked.mode_eq
  have hhas : ∀ p ∈ pixels, mode.HasPixel p.1 p.2 :=
    fun p hp => hmode.hasPixel (hregion (hpixels p hp))
  obtain ⟨last, hset, hpatched⟩ :=
    setPixels_spec color (hfilledMode ▸ hmode.drawn) (hfilledMode ▸ hhas)
  obtain rfl := Option.some.inj (hdrawn.symm.trans hset)
  rw [hfilledMode] at hpatched
  intro p hp
  have hsecond := patched_visible hmode.valid (fun q hq => hregion (hpixels q hq)) hpatched hp
  have hfirst := patched_visible hmode.valid hregion hblack hp
  refine ⟨hsecond.1, fun hnot hcell => ?_, fun hcell => ?_⟩
  · exact (hsecond.2 hnot).trans (hfirst.1 hcell)
  · exact (hsecond.2 fun hmem => hcell (hpixels p hmem)).trans (hfirst.2 hcell)

end Screens

end Helos.Graphics
