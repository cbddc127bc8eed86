import Helos.Graphics.Scroll

/-!
# The console on paper

What `console_Write` leaves in the back buffer and on the device, over any number of calls. It is told
of paper that has no end and never moves: characters are stamped where the carriage is, and the screen
is the window that follows the lowest line. Scrolling, wrapping and the merged rectangles of the
presentation are not to be seen on the paper.
-/

namespace Helos.Graphics

/-! ### Paper -/

/-- What is printed, by the values of the pixels, and where the carriage is. Nothing is printed from
the bottom on. `seen` is the part that was last presented. -/
structure Paper where
  ink : Int × Int → UInt32
  bottom : Int
  blank : ∀ p : Int × Int, bottom ≤ p.2 → ink p = 0
  x : Int
  y : Int
  seen : Int × Int → UInt32

namespace Paper

/-- The window follows the bottom. -/
def top (mode : Mode) (paper : Paper) : Int := max 0 (paper.bottom - mode.height)

def window (mode : Mode) (paper : Paper) : Int × Int → UInt32 :=
  fun p => paper.ink (p.1, p.2 + paper.top mode)

def column (mode : Mode) (paper : Paper) (c : UInt32) : Int :=
  if mode.width ≤ paper.x + charWidth c then 0 else paper.x

def line (mode : Mode) (paper : Paper) (c : UInt32) : Int :=
  if mode.width ≤ paper.x + charWidth c then paper.y + unifontCharHeight else paper.y

def stamp (unifontData : List UInt8) (mode : Mode) (value : UInt32) (paper : Paper) (c : UInt32) :
    Int × Int → UInt32 := fun p =>
  if paper.column mode c ≤ p.1 ∧ p.1 < paper.column mode c + charWidth c ∧
      paper.line mode c ≤ p.2 ∧ p.2 < paper.line mode c + unifontCharHeight then
    if glyph unifontData c (p.1 - paper.column mode c).toNat (p.2 - paper.line mode c).toNat then value
    else 0
  else paper.ink p

def put (unifontData : List UInt8) (mode : Mode) (value : UInt32) (paper : Paper) (c : UInt32) :
    Paper where
  ink := paper.stamp unifontData mode value c
  bottom := max paper.bottom (paper.line mode c + unifontCharHeight)
  blank p hp := by
    rw [stamp, if_neg (by omega)]
    exact paper.blank p (by omega)
  x := paper.column mode c + charWidth c
  y := paper.line mode c
  seen := paper.seen

/-- A character is printed unless the font does not have it or its line is a whole screen below what
is shown. -/
def type (unifontData : List UInt8) (mode : Mode) (color : Color) (paper : Paper) (c : UInt32) :
    Option Paper :=
  if c = 10 then
    if IsInt (paper.y - paper.top mode + unifontCharHeight) then
      some { paper with x := 0, y := paper.y + unifontCharHeight }
    else none
  else if c = 13 then some { paper with x := 0 }
  else if GlyphInside c ∧
      paper.line mode c - paper.top mode + unifontCharHeight < 2 * mode.height then
    some (paper.put unifontData mode (color.stored mode.pixelFormat) c)
  else none

def present (mode : Mode) (paper : Paper) : Paper := { paper with seen := paper.window mode }

def write (unifontData : List UInt8) (mode : Mode) (paper : Paper) (call : Writing) :
    Option Paper := do
  let chars ← written call.text.elements call.len
  let printed ← Run.exec (type unifontData mode call.color) paper chars
  some (if chars.any (· = 10) then printed.present mode else printed)

def empty : Paper where
  ink _ := 0
  bottom := 0
  blank _ _ := rfl
  x := 0
  y := 0
  seen _ := 0

end Paper

/-! ### The screen is a window -/

/-- The console has the part of the paper that is in the window, and the device what was presented. -/
structure Shows (mode : Mode) (console : Console) (paper : Paper) : Prop where
  cursor : console.cursor = ⟨paper.x, paper.y - paper.top mode⟩
  reachable : console.cursor.Reachable mode
  ink : ∀ p ∈ mode.area.pixels,
    console.screen.framebuffer (mode.index p.1 p.2) = paper.window mode p
  seen : ∀ p ∈ mode.area.pixels,
    console.screen.deviceFramebuffer (mode.index p.1 p.2) = paper.seen p
  pending : ∃ areas, Pending mode console.screen areas

section Steps

variable {mode : Mode} {console : Console} {paper : Paper} {unifontData : List UInt8} {c : UInt32}

namespace Shows

theorem column_eq (h : Shows mode console paper) (c : UInt32) :
    console.cursor.column mode (charWidth c) = paper.column mode c := by
  rw [Cursor.column, Paper.column, h.cursor]

theorem line_eq (h : Shows mode console paper) (c : UInt32) :
    console.cursor.line mode (charWidth c) unifontCharHeight =
      paper.line mode c - paper.top mode := by
  rw [Cursor.line, Paper.line, h.cursor]
  dsimp only
  split <;> omega

theorem mode_eq (h : Shows mode console paper) : console.screen.mode = mode :=
  h.pending.choose_spec.tracked.mode_eq

/-- The window has moved down to the line. -/
theorem row_eq (hmode : mode.Prints) (h : Shows mode console paper) (value : UInt32) (c : UInt32) :
    console.cursor.row mode c =
      paper.line mode c - (paper.put unifontData mode value c).top mode := by
  have hheight := hmode.height_ge
  have hline := line_nonneg h.reachable c
  rw [h.line_eq] at hline
  rw [Cursor.row, h.line_eq]
  unfold Paper.top unifontCharHeight at *
  dsimp only [Paper.put]
  unfold unifontCharHeight
  omega

end Shows

theorem perform_cell {screen : Screen} {cursor : Cursor} {color : Color} {pixels : List (Int × Int)}
    (hpixels : unifontDrawChar unifontData (cursor.column mode (charWidth c)) (cursor.row mode c) c =
      some pixels) :
    Run.exec (Screen.perform unifontData) screen (cursor.cell mode color c) =
      Run.exec Screen.draw screen (cellDraws (cursor.column mode (charWidth c)) (cursor.row mode c)
        (charWidth c) pixels color) := by
  rw [exec_cellDraws, Cursor.cell, Run.exec_cons]
  refine Option.bind_congr fun filled _ => ?_
  rw [Run.exec_cons, Screen.perform, hpixels, Option.bind_some]
  rfl

theorem perform_cell_eq_none {screen : Screen} {cursor : Cursor} {color : Color}
    (hfont : unifontData.length = unifontCharCount * 32) (houtside : ¬ GlyphInside c) :
    Run.exec (Screen.perform unifontData) screen (cursor.cell mode color c) = none := by
  have hnone : ∀ posX posY, unifontDrawChar unifontData posX posY c = none := by
    intro posX posY
    rw [← unifontDrawChar_isSome unifontData hfont posX posY] at houtside
    exact Option.not_isSome_iff_eq_none.mp houtside
  rw [Cursor.cell, Run.exec_cons]
  refine Option.bind_eq_none_iff.mpr fun filled _ => ?_
  rw [Run.exec_cons, Screen.perform, hnone]
  rfl

/-- After the scrolling, the screen has what the window will have but for the new character. -/
theorem scrolled_spec (hmode : mode.Prints) (h : Shows mode console paper) (value : UInt32)
    (hfits : paper.line mode c - paper.top mode + unifontCharHeight < 2 * mode.height) :
    ∃ next areas, Run.exec (Screen.perform unifontData) console.screen
        (console.cursor.scrolled mode c) = some next ∧ Pending mode next areas ∧
      next.deviceFramebuffer = console.screen.deviceFramebuffer ∧
      ∀ x y, (x, y) ∈ mode.area.pixels → next.framebuffer (mode.index x y) =
        paper.ink (x, y + (paper.put unifontData mode value c).top mode) := by
  obtain ⟨areas, hpending⟩ := h.pending
  unfold Cursor.scrolled
  rw [h.line_eq]
  have htop : paper.top mode = max 0 (paper.bottom - mode.height) := rfl
  have htop' : (paper.put unifontData mode value c).top mode =
      max 0 (max paper.bottom (paper.line mode c + unifontCharHeight) - mode.height) := rfl
  by_cases hscroll : mode.height ≤ paper.line mode c - paper.top mode + unifontCharHeight
  · rw [if_pos hscroll]
    obtain ⟨next, areas', hnext, hpending', hdevice, hlines⟩ := scroll_spec hmode hpending
      (Int.sub_nonneg.mpr hscroll) (by omega)
    refine ⟨next, areas', ?_, hpending', hdevice, fun x y hp => ?_⟩
    · rw [Run.exec_cons, Screen.perform, hnext]
      rfl
    obtain ⟨hx, hxw, hy, hyh⟩ := mem_pixels.mp hp
    obtain ⟨hmoved, hblack⟩ := hlines x y hp
    rcases Int.lt_or_le y (mode.height -
      (paper.line mode c - paper.top mode + unifontCharHeight - mode.height)) with hlt | hge
    · have hvisible := mem_pixels.mpr ⟨hx, hxw, Int.add_nonneg hy (Int.sub_nonneg.mpr hscroll),
        Int.add_lt_of_lt_sub_right hlt⟩
      rw [hmoved hlt, h.ink _ hvisible, Paper.window]
      congr 2
      omega
    · -- The lines that follow are below everything that was printed.
      rw [hblack hge, paper.blank _ (by dsimp only; omega)]
  · rw [if_neg hscroll]
    refine ⟨console.screen, areas, rfl, hpending, rfl, fun x y hp => ?_⟩
    rw [h.ink _ hp, Paper.window]
    congr 2
    omega

/-- The stamp, in the coordinates of a window. -/
theorem stamp_window {value : UInt32} {column row top : Int} (hcolumn : paper.column mode c = column)
    (hrow : paper.line mode c = row + top) (x y : Int) :
    paper.stamp unifontData mode value c (x, y + top) =
      if column ≤ x ∧ x < column + charWidth c ∧ row ≤ y ∧ y < row + unifontCharHeight then
        if glyph unifontData c (x - column).toNat (y - row).toNat then value else 0
      else paper.ink (x, y + top) := by
  rw [Paper.stamp, hcolumn, hrow]
  dsimp only
  rw [add_sub_add_right_eq_sub]
  exact if_congr (by omega) rfl rfl

theorem put_shows (hmode : mode.Prints) (hfont : unifontData.length = unifontCharCount * 32)
    (h : Shows mode console paper) (color : Color) (hnewline : c ≠ 10) (hreturn : c ≠ 13)
    (hinside : GlyphInside c)
    (hfits : paper.line mode c - paper.top mode + unifontCharHeight < 2 * mode.height) :
    ∃ next, console.writeChar unifontData color c = some next ∧
      Shows mode next (paper.put unifontData mode (color.stored mode.pixelFormat) c) := by
  have hwidth := hmode.width_ge
  have hheight := hmode.height_ge
  have hwidthLe := hmode.width_le
  have hheightLe := hmode.height_le
  have hchar := charWidth_bounds c
  have hline := line_nonneg h.reachable c
  have hright : IsInt (console.cursor.x + charWidth c) := by
    have hx := h.reachable.x_nonneg
    have hxw := h.reachable.x_le
    unfold IsInt
    omega
  have hbottom : IsInt
      (console.cursor.line mode (charWidth c) unifontCharHeight + unifontCharHeight) := by
    rw [h.line_eq] at hline ⊢
    unfold IsInt unifontCharHeight at *
    omega
  have hwrite := @writeChar_drawn mode color _ _ hheight h.reachable hnewline hreturn hright hbottom
  have hreachable := writeChar_reachable hwidth hheight h.reachable hwrite
  have hrow : console.cursor.row mode c =
      paper.line mode c - (paper.put unifontData mode (color.stored mode.pixelFormat) c).top mode :=
    h.row_eq hmode _ c
  have hcolumn := h.column_eq c
  obtain ⟨scrolled, areas, hscrolled, hpending, hdevice, hink⟩ :=
    @scrolled_spec _ _ _ unifontData _ hmode h (color.stored mode.pixelFormat) hfits
  obtain ⟨pixels, hpixels, hmem⟩ := unifontDrawChar_pixels hfont hinside
    (console.cursor.column mode (charWidth c)) (console.cursor.row mode c)
  have hcellInside : (Area.mk (console.cursor.column mode (charWidth c)) (console.cursor.row mode c)
      (charWidth c) unifontCharHeight).Inside mode.area := by
    obtain ⟨hleft, hend⟩ := column_bounds hwidth h.reachable c
    constructor <;> dsimp only [Mode.area] <;> unfold Cursor.row unifontCharHeight at * <;> omega
  obtain ⟨next, areas', hnext, hpending', hdevice', hcell⟩ := cell_spec hmode hpending hcellInside
    (fun p hp => ((hmem p.1 p.2).mp hp).1) color
  refine ⟨⟨next, _⟩, ?_, ⟨?_, hreachable, ?_, ?_, areas', hpending'⟩⟩
  · unfold Console.writeChar
    simp only [h.mode_eq, hwrite, Option.bind_eq_bind, Option.bind_some, Run.exec_append, hscrolled,
      perform_cell hpixels, hnext]
  · rw [hcolumn, hrow]
    rfl
  · rintro ⟨x, y⟩ hp
    obtain ⟨hcolored, hblack, hkept⟩ := hcell (x, y) hp
    change next.framebuffer (mode.index x y) = Paper.stamp unifontData mode _ paper c (x, y + _)
    rw [stamp_window hcolumn.symm (eq_add_of_sub_eq hrow.symm)]
    by_cases hin : console.cursor.column mode (charWidth c) ≤ x ∧
      x < console.cursor.column mode (charWidth c) + charWidth c ∧
      console.cursor.row mode c ≤ y ∧ y < console.cursor.row mode c + unifontCharHeight
    · rw [if_pos hin]
      by_cases hglyph : (x, y) ∈ pixels
      · rw [if_pos ((hmem x y).mp hglyph).2]
        exact hcolored hglyph
      · rw [if_neg fun hbit => hglyph ((hmem x y).mpr ⟨hin, hbit⟩)]
        exact hblack hglyph hin
    · rw [if_neg hin]
      exact (hkept hin).trans (hink x y hp)
  · intro p hp
    dsimp only
    rw [hdevice', hdevice, h.seen p hp]
    rfl

theorem writeChar_eq_none (hmode : mode.Prints) (hfont : unifontData.length = unifontCharCount * 32)
    (h : Shows mode console paper) (color : Color) (hnewline : c ≠ 10) (hreturn : c ≠ 13)
    (hbad : ¬ (GlyphInside c ∧
      paper.line mode c - paper.top mode + unifontCharHeight < 2 * mode.height)) :
    console.writeChar unifontData color c = none := by
  obtain ⟨areas, hpending⟩ := h.pending
  unfold Console.writeChar
  rw [h.mode_eq]
  refine Option.bind_eq_none_iff.mpr fun printed hwrite => ?_
  obtain ⟨cursor, issued⟩ := printed
  obtain ⟨hright, hbottom⟩ := writeChar_isInt hnewline hreturn hwrite
  rw [writeChar_drawn hmode.height_ge h.reachable hnewline hreturn hright hbottom] at hwrite
  obtain ⟨-, rfl⟩ := Prod.mk.inj (Option.some.inj hwrite)
  refine Option.bind_eq_none_iff.mpr fun last hlast => ?_
  rw [Run.exec_append] at hlast
  obtain ⟨scrolled, hscrolled, hcell⟩ := Option.bind_eq_some_iff.mp hlast
  rcases not_and_or.mp hbad with houtside | hlow
  · rw [perform_cell_eq_none hfont houtside] at hcell
    cases hcell
  · have hheight := hmode.height_ge
    rw [Cursor.scrolled, h.line_eq, if_pos (by omega), Run.exec_cons, Screen.perform,
      scroll_eq_none hmode h.mode_eq (by omega)] at hscrolled
    cases hscrolled

/-- One character on the console and on the paper. -/
theorem type_rel (hmode : mode.Prints) (hfont : unifontData.length = unifontCharCount * 32)
    (h : Shows mode console paper) (color : Color) (c : UInt32) :
    Option.Rel (Shows mode) (console.writeChar unifontData color c)
      (paper.type unifontData mode color c) := by
  by_cases hnewline : c = 10
  · have hy : console.cursor.y = paper.y - paper.top mode := by rw [h.cursor]
    rw [Paper.type, if_pos hnewline]
    unfold Console.writeChar Graphics.writeChar newline
    simp only [if_pos hnewline, hy]
    by_cases hint : IsInt (paper.y - paper.top mode + unifontCharHeight)
    · rw [if_pos hint, addInt_of_isInt hint]
      refine Option.Rel.some ⟨?_, ⟨le_rfl, hmode.valid.width_nonneg, ?_⟩, h.ink, h.seen, h.pending⟩
      · exact congrArg (Cursor.mk 0) (sub_add_eq_add_sub _ _ _)
      · have hnonneg := h.reachable.y_nonneg
        unfold unifontCharHeight
        dsimp only
        omega
    · rw [if_neg hint, addInt_of_not_isInt hint]
      exact Option.Rel.none
  by_cases hreturn : c = 13
  · rw [Paper.type, if_neg hnewline, if_pos hreturn]
    unfold Console.writeChar Graphics.writeChar
    simp only [if_neg hnewline, if_pos hreturn]
    refine Option.Rel.some ⟨?_, ⟨le_rfl, hmode.valid.width_nonneg, h.reachable.y_nonneg⟩, h.ink,
      h.seen, h.pending⟩
    dsimp only
    rw [h.cursor]
    rfl
  · rw [Paper.type, if_neg hnewline, if_neg hreturn]
    split
    case isTrue hgood =>
      obtain ⟨next, hnext, hshows⟩ :=
        put_shows hmode hfont h color hnewline hreturn hgood.1 hgood.2
      rw [hnext]
      exact Option.Rel.some hshows
    case isFalse hbad =>
      rw [writeChar_eq_none hmode hfont h color hnewline hreturn hbad]
      exact Option.Rel.none

/-! ### Calls -/

/-- A string is written one character after the other. -/
theorem run_writeChar (color : Color) (console : Console) (chars : List UInt32) :
    ((Refinement.run (Graphics.writeChar console.screen.mode color) console.cursor chars).bind
        fun result => (Run.exec (Screen.perform unifontData) console.screen result.2.flatten).map
          fun screen => Console.mk screen result.1) =
      Run.exec (fun console c => console.writeChar unifontData color c) console chars := by
  induction chars generalizing console with
  | nil => rfl
  | cons c chars ih =>
    rw [Run.exec_cons, Refinement.run, Console.writeChar]
    simp only [Option.bind_eq_bind, Option.bind_assoc]
    refine Option.bind_congr fun printed _ => ?_
    obtain ⟨cursor, issued⟩ := printed
    simp only [Option.bind_some, List.flatten_cons, Run.exec_append]
    cases hissued : Run.exec (Screen.perform unifontData) console.screen issued with
    | none =>
      simp only [Option.bind_none, Option.map_none]
      exact Option.bind_eq_none_iff.mpr fun _ _ => rfl
    | some screen =>
      have hmode : screen.mode = console.screen.mode :=
        Run.exec_invariant (I := fun s => s.mode = console.screen.mode)
          (fun s call s' hs hperform => (perform_mode hperform).trans hs) rfl hissued
      have hrest := ih ⟨screen, cursor⟩
      dsimp only at hrest
      rw [hmode] at hrest
      exact hrest

theorem Console.write_eq (console : Console) (call : Writing) :
    console.write unifontData call = (written call.text.elements call.len).bind fun chars =>
      (Run.exec (fun console c => console.writeChar unifontData call.color c) console chars).bind
        fun printed => if chars.any (· = 10) then
            printed.screen.swapBuffer.map fun screen => { printed with screen := screen }
          else some printed := by
  unfold Console.write
  rw [Text.write_eq]
  cases hchars : written call.text.elements call.len with
  | none =>
    rw [writeString, hchars]
    rfl
  | some chars =>
    rw [writeString_eq _ _ _ hchars, Option.bind_some, ← run_writeChar]
    simp only [Option.bind_eq_bind, Option.bind_map, Option.bind_assoc]
    refine Option.bind_congr fun printed _ => ?_
    obtain ⟨cursor, issued⟩ := printed
    dsimp only [Function.comp_apply]
    rw [Run.exec_append, Option.bind_assoc]
    refine Option.bind_congr fun screen _ => ?_
    unfold swapped
    split
    · dsimp only [Function.comp_apply]
      rw [Run.exec_cons, Screen.perform, Option.map_eq_bind]
      exact Option.bind_assoc _ _ _
    · rfl

theorem blank_shows (hmode : mode.Prints) : Shows mode ⟨blankScreen mode, ⟨0, 0⟩⟩ .empty where
  cursor := by
    have hheight := hmode.height_ge
    rw [Paper.top, max_eq_left]
    · rfl
    · dsimp only [Paper.empty]
      omega
  reachable := ⟨le_rfl, hmode.valid.width_nonneg, le_rfl⟩
  ink _ _ := rfl
  seen _ _ := rfl
  pending := ⟨[], ⟨rfl, rfl, by simp⟩, Int.self_le_toNat _, fun _ _ _ _ => rfl⟩

/-- The console is a window on paper: calls are defined on both sides or on neither, and leave the
back buffer with what is printed behind the window, and the device with what was printed when a
newline was last written. -/
theorem console_prints (hmode : mode.Prints) (hfont : unifontData.length = unifontCharCount * 32)
    (h : Shows mode console paper) (calls : List Writing) :
    Option.Rel (Shows mode) (Run.exec (Console.write unifontData) console calls)
      (Run.exec (Paper.write unifontData mode) paper calls) := by
  refine Run.exec_rel (fun console paper call h => ?_) h calls
  rw [Console.write_eq]
  unfold Paper.write
  cases written call.text.elements call.len with
  | none => exact Option.Rel.none
  | some chars =>
    simp only [Option.bind_eq_bind, Option.bind_some]
    refine Run.rel_bind (Run.exec_rel (fun console paper c h => type_rel hmode hfont h call.color c) h
      chars) fun printed typed hprinted => ?_
    by_cases hswap : chars.any (· = 10)
    · rw [if_pos hswap, if_pos hswap]
      obtain ⟨areas, hpending⟩ := hprinted.pending
      obtain ⟨next, hnext, hnone, hback, hshown⟩ := hpending.swapBuffer hmode
      rw [hnext]
      refine Option.Rel.some ⟨hprinted.cursor, hprinted.reachable, fun p hp => ?_, fun p hp => ?_,
        [], hnone⟩
      · dsimp only
        rw [hback]
        exact hprinted.ink p hp
      · exact (hshown p hp).trans (hprinted.ink p hp)
    · rw [if_neg hswap, if_neg hswap]
      exact Option.Rel.some hprinted

/-- A greeting, on a screen that was cleared. -/
theorem console_prints_greeting :
    Option.Rel (Shows ⟨1024, 768, 1024, .bgra8bit⟩)
      (Run.exec (Console.write (List.replicate (unifontCharCount * 32) 0))
        ⟨blankScreen ⟨1024, 768, 1024, .bgra8bit⟩, ⟨0, 0⟩⟩ [⟨.white, .ascii [72, 105, 10, 0], 0⟩])
      (Run.exec (Paper.write (List.replicate (unifontCharCount * 32) 0)
        ⟨1024, 768, 1024, .bgra8bit⟩) .empty [⟨.white, .ascii [72, 105, 10, 0], 0⟩]) :=
  have hmode : Mode.Prints ⟨1024, 768, 1024, .bgra8bit⟩ :=
    ⟨⟨by decide, by decide, by decide, by decide, by decide⟩, Or.inr rfl, by decide, by decide,
      by decide, by decide, rfl⟩
  console_prints hmode List.length_replicate (blank_shows hmode) _

end Steps

end Helos.Graphics
