import Helos.Graphics.Screen
import Helos.Theory.Refinement

/-!
# The console

`console_Write` and its siblings of `graphics/graphics.c`: a cursor, and what is issued to the screen
while characters are written. `graphics_Newline` moves the cursor down without looking at the height,
and only the next element scrolls, by as much as the cursor is too low.
-/

namespace Helos.Graphics

/-! ### `unifont.h` -/

def unifontCharWidth : Int := 8

def unifontCharHeight : Int := 16

def isCharDoublewidth (ucs : UInt32) : Bool :=
  ucs ≥ 0x1100 &&
    (ucs ≤ 0x115f ||
      ucs == 0x2329 || ucs == 0x232a ||
      (ucs ≥ 0x2e80 && ucs ≤ 0xa4cf && ucs != 0x303f) ||
      (ucs ≥ 0xac00 && ucs ≤ 0xd7a3) ||
      (ucs ≥ 0xf900 && ucs ≤ 0xfaff) ||
      (ucs ≥ 0xfe10 && ucs ≤ 0xfe19) ||
      (ucs ≥ 0xfe30 && ucs ≤ 0xfe6f) ||
      (ucs ≥ 0xff00 && ucs ≤ 0xff60) ||
      (ucs ≥ 0xffe0 && ucs ≤ 0xffe6) ||
      (ucs ≥ 0x20000 && ucs ≤ 0x2fffd) ||
      (ucs ≥ 0x30000 && ucs ≤ 0x3fffd))

/-! ### The cursor -/

/-- `graphics_CursorX` and `graphics_CursorY`. -/
structure Cursor where
  x : Int
  y : Int
  deriving DecidableEq, Repr

/-- A call to the screen. The fills are those of character cells. -/
inductive Issued
  | scroll (scrollY : Int)
  | fillPixel (startX startY endX endY : Int) (color : Color)
  | drawChar (posX posY : Int) (color : Color) (codepoint : UInt32)
  | invalidate (left top width height : Int)
  | swapBuffer
  deriving DecidableEq, Repr

/-- `int` addition. -/
def addInt (x y : Int) : Option Int := if IsInt (x + y) then some (x + y) else none

/-- `graphics_ElementSize`. -/
def elementSize (mode : Mode) (sizeX sizeY : Int) (cursor : Cursor) :
    Option (Cursor × List Issued) := do
  let right ← addInt cursor.x sizeX
  let cursor ←
    if mode.width ≤ right then (addInt cursor.y sizeY).map fun y => Cursor.mk 0 y
    else some cursor
  let bottom ← addInt cursor.y sizeY
  if mode.height ≤ bottom then
    some (⟨cursor.x, mode.height - sizeY⟩, [.scroll (bottom - mode.height)])
  else some (cursor, [])

/-- `graphics_Newline`. -/
def newline (advanceY : Int) (cursor : Cursor) : Option Cursor :=
  (addInt cursor.y advanceY).map fun y => ⟨0, y⟩

def charWidth (c : UInt32) : Int :=
  if isCharDoublewidth c then unifontCharWidth * 2 else unifontCharWidth

/-- `console_WriteChar`. -/
def writeChar (mode : Mode) (color : Color) (cursor : Cursor) (c : UInt32) :
    Option (Cursor × List Issued) :=
  if c = 10 then (newline unifontCharHeight cursor).map (·, [])
  else if c = 13 then some (⟨0, cursor.y⟩, [])
  else do
    let width := charWidth c
    let (cursor, issued) ← elementSize mode width unifontCharHeight cursor
    let right ← addInt cursor.x width
    let bottom ← addInt cursor.y unifontCharHeight
    some (⟨right, cursor.y⟩, issued ++
      [.fillPixel cursor.x cursor.y right bottom .black, .drawChar cursor.x cursor.y color c,
        .invalidate cursor.x cursor.y width unifontCharHeight])

/-! ### The strings -/

/-- What `*str != 0` goes through. The string is undefined beyond its elements. -/
def untilNul : List UInt32 → Option (List UInt32)
  | [] => none
  | c :: rest => if c = 0 then some [] else (untilNul rest).map (c :: ·)

/-- What is written of a string, for `len`. -/
def written (str : List UInt32) (len : Int) : Option (List UInt32) :=
  if len = 0 then untilNul str
  else if len.toNat ≤ str.length then some (str.take len.toNat)
  else none

/-- The body of the three functions, over the elements converted to `uint32_t`. -/
def writeString (mode : Mode) (color : Color) (cursor : Cursor) (str : List UInt32)
    (len : Int) : Option (Cursor × List Issued) := do
  let chars ← written str len
  let (cursor, issued) ← Refinement.run (writeChar mode color) cursor chars
  let wantSwap := chars.any (· = 10)
  some (cursor, issued.flatten ++ if wantSwap then [.swapBuffer] else [])

/-- A `char` converted to `uint32_t`. -/
def ofChar (c : UInt8) : UInt32 := c.toInt8.toInt32.toUInt32

def consoleWrite (mode : Mode) (color : Color) (cursor : Cursor) (str : List UInt32)
    (len : Int) : Option (Cursor × List Issued) :=
  writeString mode color cursor str len

def consoleWriteUTF16 (mode : Mode) (color : Color) (cursor : Cursor) (str : List UInt16)
    (len : Int) : Option (Cursor × List Issued) :=
  writeString mode color cursor (str.map UInt16.toUInt32) len

def consoleWriteASCII (mode : Mode) (color : Color) (cursor : Cursor) (str : List UInt8)
    (len : Int) : Option (Cursor × List Issued) :=
  writeString mode color cursor (str.map ofChar) len

/-- What can be passed to the three functions. -/
inductive Text
  | utf32 (str : List UInt32)
  | utf16 (str : List UInt16)
  | ascii (str : List UInt8)
  deriving DecidableEq, Repr

namespace Text

def write (mode : Mode) (color : Color) (cursor : Cursor) (len : Int) :
    Text → Option (Cursor × List Issued)
  | utf32 str => consoleWrite mode color cursor str len
  | utf16 str => consoleWriteUTF16 mode color cursor str len
  | ascii str => consoleWriteASCII mode color cursor str len

def elements : Text → List UInt32
  | utf32 str => str
  | utf16 str => str.map UInt16.toUInt32
  | ascii str => str.map ofChar

theorem write_eq (mode : Mode) (color : Color) (cursor : Cursor) (len : Int) (text : Text) :
    text.write mode color cursor len = writeString mode color cursor text.elements len := by
  cases text <;> rfl

end Text

/-! ### Staying on the screen -/

def Issued.OnScreen (mode : Mode) : Issued → Prop
  | .scroll scrollY => 0 ≤ scrollY ∧ scrollY ≤ mode.height
  | .fillPixel startX startY endX endY _ =>
    0 ≤ startX ∧ endX ≤ mode.width ∧ 0 ≤ startY ∧ endY ≤ mode.height
  | .drawChar posX posY _ codepoint => 0 ≤ posX ∧ posX + charWidth codepoint ≤ mode.width ∧
      0 ≤ posY ∧ posY + unifontCharHeight ≤ mode.height
  | .invalidate _ _ _ _ => True
  | .swapBuffer => True

/-- The writing is defined, and everything that it issues is on the screen. -/
def StaysOnScreen (mode : Mode) : Option (Cursor × List Issued) → Prop
  | none => False
  | some (_, issued) => ∀ call ∈ issued, call.OnScreen mode

instance (mode : Mode) (call : Issued) : Decidable (call.OnScreen mode) := by
  unfold Issued.OnScreen
  cases call <;> infer_instance

instance (mode : Mode) (result : Option (Cursor × List Issued)) :
    Decidable (StaysOnScreen mode result) := by
  unfold StaysOnScreen
  cases result <;> infer_instance

/-- The line that the next element goes to. -/
def Cursor.line (cursor : Cursor) (mode : Mode) (sizeX sizeY : Int) : Int :=
  if mode.width ≤ cursor.x + sizeX then cursor.y + sizeY else cursor.y

def Cursor.column (cursor : Cursor) (mode : Mode) (sizeX : Int) : Int :=
  if mode.width ≤ cursor.x + sizeX then 0 else cursor.x

/-- A character moves the cursor within `int`, and one that is drawn is not more than the height of
the screen too low. -/
def CharFits (mode : Mode) (cursor : Cursor) (c : UInt32) : Prop :=
  if c = 10 then IsInt (cursor.y + unifontCharHeight)
  else if c = 13 then True
  else
    IsInt (cursor.x + charWidth c) ∧
      IsInt (cursor.line mode (charWidth c) unifontCharHeight + unifontCharHeight) ∧
      cursor.line mode (charWidth c) unifontCharHeight + unifontCharHeight ≤ 2 * mode.height

variable {mode : Mode} {color : Color} {cursor : Cursor} {sizeX sizeY x y : Int} {c : UInt32}

theorem addInt_of_isInt (h : IsInt (x + y)) : addInt x y = some (x + y) := if_pos h

theorem addInt_of_not_isInt (h : ¬ IsInt (x + y)) : addInt x y = none := if_neg h

/-- What the element is written below, when nothing overflows. -/
theorem elementSize_eq (hright : IsInt (cursor.x + sizeX))
    (hbottom : IsInt (cursor.line mode sizeX sizeY + sizeY)) (hy : 0 ≤ cursor.y)
    (hsize : 0 ≤ sizeY) :
    elementSize mode sizeX sizeY cursor =
      if mode.height ≤ cursor.line mode sizeX sizeY + sizeY then
        some (⟨cursor.column mode sizeX, mode.height - sizeY⟩,
          [.scroll (cursor.line mode sizeX sizeY + sizeY - mode.height)])
      else some (⟨cursor.column mode sizeX, cursor.line mode sizeX sizeY⟩, []) := by
  unfold elementSize Cursor.column
  unfold Cursor.line at hbottom ⊢
  rw [addInt_of_isInt hright]
  by_cases hwrap : mode.width ≤ cursor.x + sizeX
  · rw [if_pos hwrap] at hbottom
    have hline : IsInt (cursor.y + sizeY) := by
      unfold IsInt at hbottom ⊢
      omega
    simp only [if_pos hwrap, addInt_of_isInt hline, addInt_of_isInt hbottom, Option.map_some,
      Option.bind_eq_bind, Option.bind_some]
  · rw [if_neg hwrap] at hbottom
    simp only [if_neg hwrap, addInt_of_isInt hbottom, Option.bind_eq_bind, Option.bind_some]

theorem elementSize_isInt {result : Cursor × List Issued}
    (h : elementSize mode sizeX sizeY cursor = some result) :
    IsInt (cursor.x + sizeX) ∧ IsInt (cursor.line mode sizeX sizeY + sizeY) := by
  by_cases hright : IsInt (cursor.x + sizeX)
  case neg =>
    rw [elementSize, addInt_of_not_isInt hright] at h
    cases h
  by_cases hbottom : IsInt (cursor.line mode sizeX sizeY + sizeY)
  case pos => exact ⟨hright, hbottom⟩
  rw [elementSize, addInt_of_isInt hright] at h
  unfold Cursor.line at hbottom
  by_cases hwrap : mode.width ≤ cursor.x + sizeX
  · rw [if_pos hwrap] at hbottom
    by_cases hline : IsInt (cursor.y + sizeY)
    · simp [if_pos hwrap, addInt_of_isInt hline, addInt_of_not_isInt hbottom] at h
    · simp [addInt_of_not_isInt hline] at h
  · rw [if_neg hwrap] at hbottom
    simp [addInt_of_not_isInt hbottom] at h

/-- Where writing can leave the cursor. -/
structure Cursor.Reachable (cursor : Cursor) (mode : Mode) : Prop where
  x_nonneg : 0 ≤ cursor.x
  x_le : cursor.x ≤ mode.width
  y_nonneg : 0 ≤ cursor.y

theorem charWidth_bounds (c : UInt32) : 0 < charWidth c ∧ charWidth c ≤ 16 := by
  unfold charWidth unifontCharWidth
  split <;> omega

/-- The cells of the characters. -/
theorem column_bounds (hwidth : 16 ≤ mode.width) (hcursor : cursor.Reachable mode) (c : UInt32) :
    0 ≤ cursor.column mode (charWidth c) ∧
      cursor.column mode (charWidth c) + charWidth c ≤ mode.width := by
  have hx := hcursor.x_nonneg
  have hchar := charWidth_bounds c
  unfold Cursor.column
  split <;> omega

theorem line_nonneg (hcursor : cursor.Reachable mode) (c : UInt32) :
    0 ≤ cursor.line mode (charWidth c) unifontCharHeight := by
  have hy := hcursor.y_nonneg
  unfold Cursor.line unifontCharHeight
  split <;> omega

/-- Scrolled into the screen. -/
def Cursor.row (cursor : Cursor) (mode : Mode) (c : UInt32) : Int :=
  min (cursor.line mode (charWidth c) unifontCharHeight) (mode.height - unifontCharHeight)

def Cursor.scrolled (cursor : Cursor) (mode : Mode) (c : UInt32) : List Issued :=
  if mode.height ≤ cursor.line mode (charWidth c) unifontCharHeight + unifontCharHeight then
    [.scroll (cursor.line mode (charWidth c) unifontCharHeight + unifontCharHeight - mode.height)]
  else []

/-- The cell that the character is drawn in. -/
def Cursor.cell (cursor : Cursor) (mode : Mode) (color : Color) (c : UInt32) : List Issued :=
  [.fillPixel (cursor.column mode (charWidth c)) (cursor.row mode c)
      (cursor.column mode (charWidth c) + charWidth c) (cursor.row mode c + unifontCharHeight) .black,
    .drawChar (cursor.column mode (charWidth c)) (cursor.row mode c) color c,
    .invalidate (cursor.column mode (charWidth c)) (cursor.row mode c) (charWidth c)
      unifontCharHeight]

theorem elementSize_char (hcursor : cursor.Reachable mode)
    (hright : IsInt (cursor.x + charWidth c))
    (hbottom : IsInt (cursor.line mode (charWidth c) unifontCharHeight + unifontCharHeight)) :
    elementSize mode (charWidth c) unifontCharHeight cursor =
      some (⟨cursor.column mode (charWidth c), cursor.row mode c⟩, cursor.scrolled mode c) := by
  rw [elementSize_eq hright hbottom hcursor.y_nonneg (by decide)]
  unfold Cursor.row Cursor.scrolled
  by_cases hscroll :
      mode.height ≤ cursor.line mode (charWidth c) unifontCharHeight + unifontCharHeight
  · rw [if_pos hscroll, if_pos hscroll, min_eq_right (by omega)]
  · rw [if_neg hscroll, if_neg hscroll, min_eq_left (by omega)]

/-- A character that is drawn. -/
theorem writeChar_drawn (hheight : 16 ≤ mode.height) (hcursor : cursor.Reachable mode)
    (hnewline : c ≠ 10) (hreturn : c ≠ 13)
    (hright : IsInt (cursor.x + charWidth c))
    (hbottom : IsInt (cursor.line mode (charWidth c) unifontCharHeight + unifontCharHeight)) :
    writeChar mode color cursor c =
      some (⟨cursor.column mode (charWidth c) + charWidth c, cursor.row mode c⟩,
        cursor.scrolled mode c ++ cursor.cell mode color c) := by
  have hcolumn : IsInt (cursor.column mode (charWidth c) + charWidth c) := by
    have hchar := charWidth_bounds c
    unfold Cursor.column
    split
    · unfold IsInt
      omega
    · exact hright
  have hrow : IsInt (cursor.row mode c + unifontCharHeight) := by
    have hline := line_nonneg hcursor c
    unfold IsInt Cursor.row unifontCharHeight at *
    omega
  unfold writeChar
  rw [if_neg hnewline, if_neg hreturn]
  simp only [elementSize_char hcursor hright hbottom, addInt_of_isInt hcolumn, addInt_of_isInt hrow,
    Option.bind_eq_bind, Option.bind_some]
  rfl

theorem writeChar_isInt {result : Cursor × List Issued} (hnewline : c ≠ 10) (hreturn : c ≠ 13)
    (h : writeChar mode color cursor c = some result) : IsInt (cursor.x + charWidth c) ∧
      IsInt (cursor.line mode (charWidth c) unifontCharHeight + unifontCharHeight) := by
  rw [writeChar, if_neg hnewline, if_neg hreturn] at h
  obtain ⟨element, helement, -⟩ := Option.bind_eq_some_iff.mp h
  exact elementSize_isInt helement

theorem cell_onScreen (hwidth : 16 ≤ mode.width) (hheight : 16 ≤ mode.height)
    (hcursor : cursor.Reachable mode) (color : Color) (c : UInt32) :
    ∀ call ∈ cursor.cell mode color c, call.OnScreen mode := by
  obtain ⟨hleft, hright⟩ := column_bounds hwidth hcursor c
  have htop : 0 ≤ cursor.row mode c := by
    have hline := line_nonneg hcursor c
    unfold Cursor.row unifontCharHeight at *
    omega
  have hbottom : cursor.row mode c + unifontCharHeight ≤ mode.height := by
    unfold Cursor.row
    omega
  simp only [Cursor.cell, List.forall_mem_cons]
  exact ⟨⟨hleft, hright, htop, hbottom⟩, ⟨hleft, hright, htop, hbottom⟩, trivial, by simp⟩

theorem scrolled_onScreen (hheight : 16 ≤ mode.height) :
    (∀ call ∈ cursor.scrolled mode c, call.OnScreen mode) ↔
      cursor.line mode (charWidth c) unifontCharHeight + unifontCharHeight ≤ 2 * mode.height := by
  unfold Cursor.scrolled
  split
  · rw [List.forall_mem_singleton]
    unfold Issued.OnScreen
    omega
  · constructor
    · intro _
      omega
    · simp

/-- What a character needs to stay on the screen. -/
theorem charFits_iff (hwidth : 16 ≤ mode.width) (hheight : 16 ≤ mode.height)
    (hcursor : cursor.Reachable mode) :
    CharFits mode cursor c ↔ ∃ next issued, writeChar mode color cursor c = some (next, issued) ∧
      ∀ call ∈ issued, call.OnScreen mode := by
  by_cases hnewline : c = 10
  · rw [CharFits, writeChar, if_pos hnewline, if_pos hnewline]
    unfold newline
    by_cases hint : IsInt (cursor.y + unifontCharHeight)
    · rw [addInt_of_isInt hint]
      exact ⟨fun _ => ⟨_, _, rfl, by simp⟩, fun _ => hint⟩
    · rw [addInt_of_not_isInt hint]
      simp [hint]
  by_cases hreturn : c = 13
  · rw [CharFits, writeChar, if_neg hnewline, if_neg hnewline, if_pos hreturn, if_pos hreturn]
    exact ⟨fun _ => ⟨_, _, rfl, by simp⟩, fun _ => trivial⟩
  rw [CharFits, if_neg hnewline, if_neg hreturn]
  constructor
  · rintro ⟨hright, hbottom, hfits⟩
    refine ⟨_, _, writeChar_drawn hheight hcursor hnewline hreturn hright hbottom, ?_⟩
    rw [List.forall_mem_append]
    exact ⟨(scrolled_onScreen hheight).mpr hfits, cell_onScreen hwidth hheight hcursor color c⟩
  · rintro ⟨next, issued, hwrite, hissued⟩
    obtain ⟨hright, hbottom⟩ := writeChar_isInt hnewline hreturn hwrite
    rw [writeChar_drawn hheight hcursor hnewline hreturn hright hbottom] at hwrite
    obtain ⟨-, rfl⟩ := Prod.mk.inj (Option.some.inj hwrite)
    rw [List.forall_mem_append] at hissued
    exact ⟨hright, hbottom, (scrolled_onScreen hheight).mp hissued.1⟩

theorem writeChar_reachable (hwidth : 16 ≤ mode.width) (hheight : 16 ≤ mode.height)
    (hcursor : cursor.Reachable mode) {next : Cursor} {issued : List Issued}
    (h : writeChar mode color cursor c = some (next, issued)) : next.Reachable mode := by
  have hy := hcursor.y_nonneg
  by_cases hnewline : c = 10
  · rw [writeChar, if_pos hnewline, newline] at h
    obtain ⟨next', hnext, heq⟩ := Option.map_eq_some_iff.mp h
    obtain ⟨y, hsum, rfl⟩ := Option.map_eq_some_iff.mp hnext
    obtain ⟨rfl, -⟩ := Prod.mk.inj heq
    obtain rfl : cursor.y + unifontCharHeight = y := by
      unfold addInt at hsum
      split at hsum
      · exact Option.some.inj hsum
      · cases hsum
    exact ⟨le_rfl, by dsimp only; omega, by unfold unifontCharHeight; dsimp only; omega⟩
  by_cases hreturn : c = 13
  · rw [writeChar, if_neg hnewline, if_pos hreturn] at h
    obtain ⟨rfl, -⟩ := Prod.mk.inj (Option.some.inj h)
    exact ⟨le_rfl, by dsimp only; omega, hy⟩
  obtain ⟨hright, hbottom⟩ := writeChar_isInt hnewline hreturn h
  rw [writeChar_drawn hheight hcursor hnewline hreturn hright hbottom] at h
  obtain ⟨rfl, -⟩ := Prod.mk.inj (Option.some.inj h)
  obtain ⟨hcolumn, hcell⟩ := column_bounds hwidth hcursor c
  have hchar := charWidth_bounds c
  refine ⟨by dsimp only; omega, hcell, ?_⟩
  have hline := line_nonneg hcursor c
  dsimp only [Cursor.row]
  unfold unifontCharHeight at *
  omega

/-! ### Strings -/

/-- The swap at the end. -/
def swapped (chars : List UInt32) : List Issued :=
  if chars.any (· = 10) then [.swapBuffer] else []

theorem writeString_eq (mode : Mode) (color : Color) (cursor : Cursor) {str chars : List UInt32}
    {len : Int} (hchars : written str len = some chars) :
    writeString mode color cursor str len =
      (Refinement.run (writeChar mode color) cursor chars).map
        fun result => (result.1, result.2.flatten ++ swapped chars) := by
  simp only [writeString, hchars, Option.bind_eq_bind, Option.bind_some]
  cases Refinement.run (writeChar mode color) cursor chars <;> rfl

/-- What was written can be written on from. -/
theorem write_reachable (hwidth : 16 ≤ mode.width) (hheight : 16 ≤ mode.height)
    (hcursor : cursor.Reachable mode) {text : Text} {len : Int} {last : Cursor}
    {issued : List Issued} (h : text.write mode color cursor len = some (last, issued)) :
    last.Reachable mode := by
  rw [Text.write_eq] at h
  cases hchars : written text.elements len with
  | none =>
    rw [writeString, hchars] at h
    cases h
  | some chars =>
    rw [writeString_eq mode color cursor hchars] at h
    obtain ⟨⟨last', calls⟩, hrun, heq⟩ := Option.map_eq_some_iff.mp h
    obtain ⟨rfl, -⟩ := Prod.mk.inj heq
    refine Refinement.run_invariant (I := (·.Reachable mode)) ?_ hcursor hrun
    exact fun s c s' o hs hwrite => writeChar_reachable hwidth hheight hs hwrite

theorem swapped_onScreen (mode : Mode) (chars : List UInt32) :
    ∀ call ∈ swapped chars, call.OnScreen mode := by
  unfold swapped
  intro call hcall
  split at hcall
  · rw [List.mem_singleton.mp hcall]
    trivial
  · cases hcall

theorem writeString_stays (mode : Mode) (color : Color) (cursor : Cursor) {str chars : List UInt32}
    {len : Int} (hchars : written str len = some chars) :
    StaysOnScreen mode (writeString mode color cursor str len) ↔
      ∃ last issued, Refinement.run (writeChar mode color) cursor chars = some (last, issued) ∧
        ∀ calls ∈ issued, ∀ call ∈ calls, call.OnScreen mode := by
  rw [writeString_eq mode color cursor hchars]
  cases Refinement.run (writeChar mode color) cursor chars with
  | none => simp [StaysOnScreen]
  | some result =>
    obtain ⟨last, issued⟩ := result
    rw [Option.map_some, StaysOnScreen]
    constructor
    · intro hstays
      have hflat := (List.forall_mem_append.mp hstays).1
      refine ⟨last, issued, rfl, fun calls hcalls call hcall => ?_⟩
      exact hflat call (List.mem_flatten.mpr ⟨calls, hcalls, hcall⟩)
    · rintro ⟨last', issued', heq, hissued⟩
      obtain ⟨rfl, rfl⟩ := Prod.mk.inj (Option.some.inj heq)
      refine List.forall_mem_append.mpr ⟨fun call hcall => ?_, swapped_onScreen mode chars⟩
      obtain ⟨calls, hcalls, hmem⟩ := List.mem_flatten.mp hcall
      exact hissued calls hcalls call hmem

/-- Ninety-six lines down from the top of a screen of forty-eight, the next character scrolls by more
than the height. -/
theorem newlines_scroll_too_far : ¬ StaysOnScreen ⟨1024, 768, 1024, .bgra8bit⟩
    ((Text.ascii (List.replicate 96 10 ++ [65, 0])).write ⟨1024, 768, 1024, .bgra8bit⟩ .white ⟨0, 0⟩
      0) := by
  decide +kernel

theorem staysOnScreen_iff (hwidth : 16 ≤ mode.width) (hheight : 16 ≤ mode.height)
    (hcursor : cursor.Reachable mode) (color : Color) (text : Text) (len : Int)
    {chars : List UInt32} (hchars : written text.elements len = some chars) :
    StaysOnScreen mode (text.write mode color cursor len) ↔
      Refinement.Throughout (writeChar mode color) (CharFits mode) cursor chars := by
  rw [Text.write_eq, writeString_stays mode color cursor hchars]
  refine Refinement.run_good_iff (fun s c hs => charFits_iff hwidth hheight hs) ?_ hcursor
  exact fun s c s' issued hs h => writeChar_reachable hwidth hheight hs h

/-- `"A\nB"`. -/
theorem short_lines_fit : Refinement.Throughout (writeChar ⟨1024, 768, 1024, .bgra8bit⟩ .white)
    (CharFits ⟨1024, 768, 1024, .bgra8bit⟩) ⟨0, 0⟩ [65, 10, 66] :=
  (staysOnScreen_iff (by decide) (by decide) ⟨by decide, by decide, by decide⟩ .white
    (.ascii [65, 10, 66, 0]) 0 (by decide)).mp (by decide)

end Helos.Graphics
