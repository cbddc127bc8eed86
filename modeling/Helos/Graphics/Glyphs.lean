import Helos.Graphics.Console
import Helos.Memory.KernelMapping

/-!
# Glyphs

`graphics/unifont.c`: where the rows of a character are read, and what characters the strings lead
to. The code point is scaled in 32 bits before it indexes the font, and is not compared with the size
of the font anywhere: a character is inside when its last 24 bits are below 65536.
-/

namespace Helos.Graphics

/-- `UNIFONT_CHAR_COUNT` -/
def unifontCharCount : Nat := 0xffff + 1

/-! ### `unifont_DrawChar` -/

def glyphOffset (codepoint : UInt32) : Nat := (codepoint * 8 * 16 * 2 / 8).toNat

/-- Eight pixels of a character: the first of them, and the offset of the byte that `line` points to. -/
structure GlyphLine where
  x : Int
  y : Int
  offset : Nat
  deriving DecidableEq, Repr

def glyphLines (codepoint : UInt32) : List GlyphLine :=
  if isCharDoublewidth codepoint then
    (List.range 16).flatMap fun (y : Nat) => [⟨0, y, glyphOffset codepoint + 2 * y⟩,
      ⟨8, y, glyphOffset codepoint + (2 * y + 1)⟩]
  else (List.range 16).map fun (y : Nat) => ⟨0, y, glyphOffset codepoint + y⟩

def linePixels (posX posY : Int) (line : GlyphLine) (bits : UInt8) : List (Int × Int) :=
  ((List.range 8).filter fun x => bits.toUInt32 &&& (1 <<< (7 - UInt32.ofNat x % 8)) ≠ 0).map fun x =>
    (posX + x + line.x, posY + line.y)

/-- `unifont_DrawChar`: the pixels it sets. It is undefined where the font is read beyond its end. -/
def unifontDrawChar (unifontData : List UInt8) (posX posY : Int) (codepoint : UInt32) :
    Option (List (Int × Int)) :=
  (glyphLines codepoint).foldlM (fun pixels line =>
    unifontData[line.offset]?.map fun bits => pixels ++ linePixels posX posY line bits) []

/-! ### `unifont_DrawString` and its siblings -/

/-- The body of the loop, where a character moves on by some width. -/
def drawElement (advance : UInt32 → Int) (posX : Int) (color : Color) (cursor : Cursor) (c : UInt32) :
    Option (Cursor × List Issued) :=
  if c = 10 then (addInt cursor.y unifontCharHeight).map fun y => (⟨posX, y⟩, [])
  else if c = 13 then some (⟨posX, cursor.y⟩, [])
  else (addInt cursor.x (advance c)).map fun x =>
    (⟨x, cursor.y⟩, [.drawChar cursor.x cursor.y color c])

/-- The loop. It runs away when the count is negative. -/
def drawElements (advance : UInt32 → Int) (posX posY : Int) (color : Color)
    (codepoints : List UInt32) (count : Int) : Option (List Issued) :=
  if 0 ≤ count ∧ count.toNat ≤ codepoints.length then
    (Refinement.run (drawElement advance posX color) ⟨posX, posY⟩
      (codepoints.take count.toNat)).map fun result => result.2.flatten
  else none

def unifontDrawString (posX posY : Int) (color : Color) (codepoints : List UInt32) (count : Int) :
    Option (List Issued) :=
  drawElements charWidth posX posY color codepoints count

def unifontDrawStringUTF16 (posX posY : Int) (color : Color) (codepoints : List UInt16)
    (count : Int) : Option (List Issued) :=
  drawElements charWidth posX posY color (codepoints.map UInt16.toUInt32) count

/-- What `strlen` counts is converted to `int`. -/
def countASCII (codepoints : List UInt32) (count : Int) : Option Int :=
  if count = 0 then (untilNul codepoints).map fun chars => toInt chars.length else some count

def unifontDrawStringASCII (posX posY : Int) (color : Color) (codepoints : List UInt8) (count : Int) :
    Option (List Issued) := do
  let count ← countASCII (codepoints.map ofChar) count
  drawElements (fun _ => unifontCharWidth) posX posY color (codepoints.map ofChar) count

namespace Text

/-- How many elements the loop of `unifont_DrawString` goes through. -/
def drawnCount (text : Text) (count : Int) : Option Int :=
  match text with
  | ascii _ => countASCII text.elements count
  | _ => some count

def drawn (text : Text) (count : Int) : Option (List UInt32) := do
  let count ← text.drawnCount count
  if 0 ≤ count ∧ count.toNat ≤ text.elements.length then some (text.elements.take count.toNat)
  else none

def draw (posX posY : Int) (color : Color) (count : Int) : Text → Option (List Issued)
  | utf32 str => unifontDrawString posX posY color str count
  | utf16 str => unifontDrawStringUTF16 posX posY color str count
  | ascii str => unifontDrawStringASCII posX posY color str count

def advance : Text → UInt32 → Int
  | ascii _ => fun _ => unifontCharWidth
  | _ => charWidth

theorem draw_eq (posX posY : Int) (color : Color) (count : Int) (text : Text) :
    text.draw posX posY color count = (text.drawn count).bind fun chars =>
      (Refinement.run (drawElement text.advance posX color) ⟨posX, posY⟩ chars).map
        fun result => result.2.flatten := by
  have hloop : ∀ (advance : UInt32 → Int) (codepoints : List UInt32) (count : Int),
      drawElements advance posX posY color codepoints count =
        (if 0 ≤ count ∧ count.toNat ≤ codepoints.length then some (codepoints.take count.toNat)
          else none).bind fun chars =>
        (Refinement.run (drawElement advance posX color) ⟨posX, posY⟩ chars).map
          fun result => result.2.flatten := by
    intro advance codepoints count
    unfold drawElements
    split <;> rfl
  cases text with
  | utf32 str => exact hloop charWidth _ count
  | utf16 str => exact hloop charWidth _ count
  | ascii str =>
    unfold draw drawn unifontDrawStringASCII
    simp only [hloop, Option.bind_eq_bind, Option.bind_assoc]
    rfl

end Text

/-! ### Inside the font -/

def GlyphInside (codepoint : UInt32) : Prop :=
  ∀ line ∈ glyphLines codepoint, line.offset < unifontCharCount * 32

instance (codepoint : UInt32) : Decidable (GlyphInside codepoint) :=
  inferInstanceAs (Decidable (∀ line ∈ glyphLines codepoint, _))

def Issued.GlyphsInside : Issued → Prop
  | .drawChar _ _ _ codepoint => GlyphInside codepoint
  | _ => True

/-- A character is not drawn, or its last 24 bits are those of one that the font has. -/
def HasGlyph (c : UInt32) : Prop := c = 10 ∨ c = 13 ∨ c.toNat % 2 ^ 24 < unifontCharCount

theorem glyphOffset_eq (codepoint : UInt32) :
    glyphOffset codepoint = codepoint.toNat % 2 ^ 24 * 32 := by
  unfold glyphOffset
  rw [UInt32.toNat_div, UInt32.toNat_mul, UInt32.toNat_mul, UInt32.toNat_mul]
  change codepoint.toNat * 8 % 2 ^ 32 * 16 % 2 ^ 32 * 2 % 2 ^ 32 / 8 = _
  omega

theorem offset_of_mem {codepoint : UInt32} {line : GlyphLine} (h : line ∈ glyphLines codepoint) :
    line.offset < glyphOffset codepoint + 32 := by
  unfold glyphLines at h
  split at h
  · obtain ⟨y, hy, hline⟩ := List.mem_flatMap.mp h
    have hlt := List.mem_range.mp hy
    rcases List.mem_pair.mp hline with rfl | rfl
    · dsimp only
      omega
    · dsimp only
      omega
  · obtain ⟨y, hy, rfl⟩ := List.mem_map.mp h
    have hlt := List.mem_range.mp hy
    dsimp only
    omega

theorem first_mem (codepoint : UInt32) : ⟨0, 0, glyphOffset codepoint⟩ ∈ glyphLines codepoint := by
  unfold glyphLines
  split
  · exact List.mem_flatMap.mpr ⟨0, List.mem_range.mpr (by decide), List.mem_cons_self⟩
  · exact List.mem_map.mpr ⟨0, List.mem_range.mpr (by decide), rfl⟩

theorem glyphInside_iff (codepoint : UInt32) :
    GlyphInside codepoint ↔ codepoint.toNat % 2 ^ 24 < unifontCharCount := by
  have hoffset := glyphOffset_eq codepoint
  constructor
  · intro h
    have hfirst := h _ (first_mem codepoint)
    dsimp only at hfirst
    omega
  · intro h line hline
    have hlt := offset_of_mem hline
    omega

/-- A character is drawn when its rows are in the font, and otherwise the font is read beyond its
end. -/
theorem unifontDrawChar_isSome (unifontData : List UInt8)
    (hfont : unifontData.length = unifontCharCount * 32) (posX posY : Int) (codepoint : UInt32) :
    (unifontDrawChar unifontData posX posY codepoint).isSome = true ↔ GlyphInside codepoint := by
  have hlines : ∀ (lines : List GlyphLine) (pixels : List (Int × Int)),
      (lines.foldlM (fun pixels line => unifontData[line.offset]?.map fun bits =>
        pixels ++ linePixels posX posY line bits) pixels).isSome = true ↔
        ∀ line ∈ lines, line.offset < unifontCharCount * 32 := by
    intro lines
    induction lines with
    | nil => simp
    | cons line lines ih =>
      intro pixels
      rw [List.foldlM_cons, List.forall_mem_cons, ← hfont]
      by_cases hin : line.offset < unifontData.length
      · rw [List.getElem?_eq_getElem hin, and_iff_right hin, hfont]
        exact ih _
      · rw [List.getElem?_eq_none (Nat.not_lt.mp hin)]
        exact iff_of_false Bool.false_ne_true fun h => hin h.1
  exact hlines (glyphLines codepoint) []

theorem hasGlyph_drawn {c : UInt32} (hnewline : c ≠ 10) (hreturn : c ≠ 13) :
    HasGlyph c ↔ GlyphInside c := by
  rw [HasGlyph, or_iff_right hnewline, or_iff_right hreturn, glyphInside_iff]

theorem hasGlyph_utf16 (c : UInt16) : HasGlyph c.toUInt32 := by
  have hlt := c.toNat_lt
  refine Or.inr (Or.inr ?_)
  rw [UInt16.toNat_toUInt32]
  unfold unifontCharCount
  omega

/-- A `char` is signed. -/
theorem hasGlyph_ascii (c : UInt8) : HasGlyph (ofChar c) ↔ c < 0x80 := by
  have hall : ∀ n < 256, (ofChar (UInt8.ofNat n) = 10 ∨ ofChar (UInt8.ofNat n) = 13 ∨
      (ofChar (UInt8.ofNat n)).toNat % 2 ^ 24 < 0xffff + 1) ↔ UInt8.ofNat n < 0x80 := by
    decide +kernel
  have hc := hall c.toNat c.toNat_lt
  rwa [UInt8.ofNat_toNat] at hc

/-! ### The pixels of a character -/

/-- Pixel `x` of row `y` of a character, in the font. -/
def glyph (unifontData : List UInt8) (codepoint : UInt32) (x y : Nat) : Bool :=
  let rowBytes := if isCharDoublewidth codepoint then 2 else 1
  let bits := unifontData.getD (glyphOffset codepoint + (rowBytes * y + x / 8)) 0
  bits.toNat.testBit (7 - x % 8)

theorem bit_iff {bits : UInt8} {x : Nat} (hx : x < 8) :
    bits.toUInt32 &&& (1 <<< (7 - UInt32.ofNat x % 8)) ≠ 0 ↔ bits.toNat.testBit (7 - x) = true := by
  have hall : ∀ n < 256, ∀ x < 8, (UInt8.ofNat n).toUInt32 &&& (1 <<< (7 - UInt32.ofNat x % 8)) ≠ 0 ↔
      (UInt8.ofNat n).toNat.testBit (7 - x) = true := by
    decide +kernel
  have hbits := hall bits.toNat bits.toNat_lt x hx
  rwa [UInt8.ofNat_toNat] at hbits

theorem mem_linePixels {posX posY x y : Int} {line : GlyphLine} {bits : UInt8} :
    (x, y) ∈ linePixels posX posY line bits ↔ ∃ i : Nat, i < 8 ∧
      bits.toNat.testBit (7 - i) = true ∧ x = posX + i + line.x ∧ y = posY + line.y := by
  unfold linePixels
  simp only [List.bind_eq_flatMap, List.pure_def, List.mem_map, List.mem_flatMap, List.mem_filter,
    List.mem_range, List.mem_singleton, decide_eq_true_eq]
  constructor
  · rintro ⟨_, ⟨i, ⟨hlt, hbit⟩, rfl⟩, heq⟩
    obtain ⟨hx, hy⟩ := Prod.mk.inj heq
    exact ⟨i, hlt, (bit_iff hlt).mp hbit, hx.symm, hy.symm⟩
  · rintro ⟨i, hlt, hbit, rfl, rfl⟩
    exact ⟨i, ⟨i, ⟨hlt, (bit_iff hlt).mpr hbit⟩, rfl⟩, rfl⟩

/-- A pixel of a character is in one of its lines, at the place that its row and its byte have. -/
theorem line_iff {codepoint : UInt32} {P : GlyphLine → Nat → Prop} :
    (∃ line ∈ glyphLines codepoint, ∃ i < 8, P line i) ↔
      ∃ x y : Nat, (x : Int) < charWidth codepoint ∧ y < 16 ∧
        P ⟨((x / 8 * 8 : Nat) : Int), y, glyphOffset codepoint +
          ((if isCharDoublewidth codepoint then 2 else 1) * y + x / 8)⟩ (x % 8) := by
  unfold glyphLines charWidth unifontCharWidth
  by_cases hwide : isCharDoublewidth codepoint
  · simp only [if_pos hwide]
    constructor
    · rintro ⟨line, hline, i, hi, hP⟩
      obtain ⟨y, hy, hmem⟩ := List.mem_flatMap.mp hline
      rw [List.mem_range] at hy
      rcases List.mem_pair.mp hmem with rfl | rfl
      · refine ⟨i, y, by omega, hy, ?_⟩
        rwa [show i / 8 = 0 by omega, show i % 8 = i by omega]
      · refine ⟨8 + i, y, by omega, hy, ?_⟩
        rwa [show (8 + i) / 8 = 1 by omega, show (8 + i) % 8 = i by omega]
    · rintro ⟨x, y, hx, hy, hP⟩
      refine ⟨_, List.mem_flatMap.mpr ⟨y, List.mem_range.mpr hy, ?_⟩, x % 8, by omega, hP⟩
      rw [List.mem_pair]
      rcases Nat.lt_or_ge x 8 with hlt | hge
      · left
        rw [show x / 8 = 0 by omega]
        rfl
      · right
        rw [show x / 8 = 1 by omega]
        rfl
  · simp only [if_neg hwide]
    constructor
    · rintro ⟨line, hline, i, hi, hP⟩
      obtain ⟨y, hy, rfl⟩ := List.mem_map.mp hline
      rw [List.mem_range] at hy
      refine ⟨i, y, by omega, hy, ?_⟩
      rwa [show i / 8 = 0 by omega, show i % 8 = i by omega, Nat.one_mul]
    · rintro ⟨x, y, hx, hy, hP⟩
      refine ⟨_, List.mem_map.mpr ⟨y, List.mem_range.mpr hy, ?_⟩, x % 8, by omega, hP⟩
      rw [show x / 8 = 0 by omega, Nat.one_mul]
      rfl

theorem drawLines_eq {unifontData : List UInt8} {posX posY : Int} {lines : List GlyphLine}
    (hlines : ∀ line ∈ lines, line.offset < unifontData.length) (pixels : List (Int × Int)) :
    lines.foldlM (fun pixels line => unifontData[line.offset]?.map fun bits =>
        pixels ++ linePixels posX posY line bits) pixels =
      some (pixels ++ lines.flatMap fun line =>
        linePixels posX posY line (unifontData.getD line.offset 0)) := by
  induction lines generalizing pixels with
  | nil => rw [List.flatMap_nil, List.append_nil]; rfl
  | cons line lines ih =>
    rw [List.forall_mem_cons] at hlines
    rw [List.foldlM_cons, List.getElem?_eq_getElem hlines.1, List.flatMap_cons, ← List.append_assoc,
      List.getD_eq_getElem _ _ hlines.1]
    exact ih hlines.2 _

/-- What `unifont_DrawChar` sets is the character that the font has, from the position on. -/
theorem unifontDrawChar_pixels {unifontData : List UInt8}
    (hfont : unifontData.length = unifontCharCount * 32) {codepoint : UInt32}
    (hinside : GlyphInside codepoint) (posX posY : Int) :
    ∃ pixels, unifontDrawChar unifontData posX posY codepoint = some pixels ∧
      ∀ x y, (x, y) ∈ pixels ↔ (posX ≤ x ∧ x < posX + charWidth codepoint ∧ posY ≤ y ∧
        y < posY + unifontCharHeight) ∧
        glyph unifontData codepoint (x - posX).toNat (y - posY).toNat = true := by
  refine ⟨_, drawLines_eq (hfont ▸ hinside) [], fun x y => ?_⟩
  simp only [List.nil_append, List.mem_flatMap, mem_linePixels]
  rw [line_iff]
  unfold glyph unifontCharHeight
  constructor
  · rintro ⟨i, j, hi, hj, hbit, rfl, rfl⟩
    dsimp only at hbit ⊢
    refine ⟨by omega, ?_⟩
    rwa [show (posX + ((i % 8 : Nat) : Int) + ((i / 8 * 8 : Nat) : Int) - posX).toNat = i by omega,
      show (posY + (j : Int) - posY).toNat = j by omega]
  · rintro ⟨⟨hx, hxw, hy, hyh⟩, hbit⟩
    exact ⟨(x - posX).toNat, (y - posY).toNat, by omega, by omega, hbit, by dsimp only; omega,
      by dsimp only; omega⟩

/-! ### Inside the font, for strings -/

theorem elementSize_glyphs {mode : Mode} {sizeX sizeY : Int} {cursor next : Cursor}
    {issued : List Issued} (h : elementSize mode sizeX sizeY cursor = some (next, issued)) :
    ∀ call ∈ issued, call.GlyphsInside := by
  have hscroll : ∀ line : Cursor, ((addInt line.y sizeY).bind fun bottom =>
      if mode.height ≤ bottom then
        some (Cursor.mk line.x (mode.height - sizeY), [Issued.scroll (bottom - mode.height)])
      else some (line, [])) = some (next, issued) → ∀ call ∈ issued, call.GlyphsInside := by
    intro line hline
    obtain ⟨bottom, -, hrest⟩ := Option.bind_eq_some_iff.mp hline
    split at hrest
    · obtain ⟨-, rfl⟩ := Prod.mk.inj (Option.some.inj hrest)
      exact List.forall_mem_singleton.mpr trivial
    · obtain ⟨-, rfl⟩ := Prod.mk.inj (Option.some.inj hrest)
      exact List.forall_mem_nil _
  obtain ⟨right, -, hrest⟩ := Option.bind_eq_some_iff.mp h
  by_cases hwrap : mode.width ≤ right
  · simp only [if_pos hwrap] at hrest
    obtain ⟨line, -, hrest⟩ := Option.bind_eq_some_iff.mp hrest
    exact hscroll line hrest
  · simp only [if_neg hwrap] at hrest
    exact hscroll cursor hrest

theorem writeChar_glyphs {mode : Mode} {color : Color} {cursor next : Cursor} {c : UInt32}
    {issued : List Issued} (h : writeChar mode color cursor c = some (next, issued)) :
    (∀ call ∈ issued, call.GlyphsInside) ↔ HasGlyph c := by
  unfold writeChar at h
  split at h
  case isTrue hnewline =>
    obtain ⟨y, -, heq⟩ := Option.map_eq_some_iff.mp h
    obtain ⟨-, rfl⟩ := Prod.mk.inj heq
    exact iff_of_true (List.forall_mem_nil _) (Or.inl hnewline)
  case isFalse hnewline =>
    split at h
    case isTrue hreturn =>
      obtain ⟨-, rfl⟩ := Prod.mk.inj (Option.some.inj h)
      exact iff_of_true (List.forall_mem_nil _) (Or.inr (Or.inl hreturn))
    case isFalse hreturn =>
      obtain ⟨⟨cell, scrolled⟩, helement, hrest⟩ := Option.bind_eq_some_iff.mp h
      obtain ⟨right, -, hrest⟩ := Option.bind_eq_some_iff.mp hrest
      obtain ⟨bottom, -, heq⟩ := Option.bind_eq_some_iff.mp hrest
      obtain ⟨-, rfl⟩ := Prod.mk.inj (Option.some.inj heq)
      rw [List.forall_mem_append, and_iff_right (elementSize_glyphs helement),
        hasGlyph_drawn hnewline hreturn]
      simp only [List.forall_mem_cons, Issued.GlyphsInside, true_and]
      exact and_iff_left (List.forall_mem_nil _)

theorem drawElement_glyphs {advance : UInt32 → Int} {posX : Int} {color : Color}
    {cursor next : Cursor} {c : UInt32} {issued : List Issued}
    (h : drawElement advance posX color cursor c = some (next, issued)) :
    (∀ call ∈ issued, call.GlyphsInside) ↔ HasGlyph c := by
  unfold drawElement at h
  split at h
  case isTrue hnewline =>
    obtain ⟨y, -, heq⟩ := Option.map_eq_some_iff.mp h
    obtain ⟨-, rfl⟩ := Prod.mk.inj heq
    exact iff_of_true (List.forall_mem_nil _) (Or.inl hnewline)
  case isFalse hnewline =>
    split at h
    case isTrue hreturn =>
      obtain ⟨-, rfl⟩ := Prod.mk.inj (Option.some.inj h)
      exact iff_of_true (List.forall_mem_nil _) (Or.inr (Or.inl hreturn))
    case isFalse hreturn =>
      obtain ⟨x, -, heq⟩ := Option.map_eq_some_iff.mp h
      obtain ⟨-, rfl⟩ := Prod.mk.inj heq
      rw [List.forall_mem_singleton, hasGlyph_drawn hnewline hreturn]
      exact Iff.rfl

theorem forall_flatten {P : Issued → Prop} {issued : List (List Issued)} :
    (∀ call ∈ issued.flatten, P call) ↔ ∀ calls ∈ issued, ∀ call ∈ calls, P call := by
  simp only [List.mem_flatten]
  exact ⟨fun h calls hcalls call hcall => h call ⟨calls, hcalls, hcall⟩,
    fun h call ⟨calls, hcalls, hcall⟩ => h calls hcalls call hcall⟩

theorem write_glyphs {mode : Mode} {color : Color} {cursor last : Cursor} {text : Text} {len : Int}
    {chars : List UInt32} {issued : List Issued} (hchars : written text.elements len = some chars)
    (h : text.write mode color cursor len = some (last, issued)) :
    (∀ call ∈ issued, call.GlyphsInside) ↔ ∀ c ∈ chars, HasGlyph c := by
  rw [Text.write_eq, writeString_eq mode color cursor hchars] at h
  obtain ⟨⟨last', calls⟩, hrun, heq⟩ := Option.map_eq_some_iff.mp h
  obtain ⟨-, rfl⟩ := Prod.mk.inj heq
  have hswapped : ∀ call ∈ swapped chars, call.GlyphsInside := by
    unfold swapped
    split
    · exact List.forall_mem_singleton.mpr trivial
    · exact List.forall_mem_nil _
  rw [List.forall_mem_append, and_iff_left hswapped, forall_flatten]
  exact Refinement.run_replies_iff (fun s c s' o hwrite => writeChar_glyphs hwrite) hrun

theorem draw_glyphs {posX posY : Int} {color : Color} {text : Text} {count : Int}
    {chars : List UInt32} {issued : List Issued} (hchars : text.drawn count = some chars)
    (h : text.draw posX posY color count = some issued) :
    (∀ call ∈ issued, call.GlyphsInside) ↔ ∀ c ∈ chars, HasGlyph c := by
  rw [Text.draw_eq, hchars, Option.bind_some] at h
  obtain ⟨⟨last, calls⟩, hrun, rfl⟩ := Option.map_eq_some_iff.mp h
  rw [forall_flatten]
  exact Refinement.run_replies_iff (fun s c s' o hdraw => drawElement_glyphs hdraw) hrun

/-- An accented letter of a byte string, and a code point beyond the font. -/
theorem glyphs_outside :
    (∃ last issued, (Text.ascii [0xe9, 0]).write ⟨1024, 768, 1024, .bgra8bit⟩ .white ⟨0, 0⟩ 0 =
        some (last, issued) ∧ ¬ ∀ call ∈ issued, call.GlyphsInside) ∧
      ∃ issued, (Text.utf32 [0x1f600]).draw 0 0 .white 1 = some issued ∧
        ¬ ∀ call ∈ issued, call.GlyphsInside := by
  constructor
  · refine ⟨⟨8, 0⟩, [.fillPixel 0 0 8 16 .black, .drawChar 0 0 .white 0xffffffe9,
      .invalidate 0 0 8 16], by decide, fun h => ?_⟩
    have hglyph : GlyphInside 0xffffffe9 := h (.drawChar 0 0 .white 0xffffffe9) (by decide)
    exact absurd ((glyphInside_iff _).mp hglyph) (by decide)
  · refine ⟨[.drawChar 0 0 .white 0x1f600], by decide, fun h => ?_⟩
    have hglyph : GlyphInside 0x1f600 := h (.drawChar 0 0 .white 0x1f600) (by decide)
    exact absurd ((glyphInside_iff _).mp hglyph) (by decide)

/-- Every glyph that is looked up for a string is in the font exactly when each character that is gone
through is a newline, a return or one whose last 24 bits are below the number of glyphs. -/
theorem glyphsInside_iff (color : Color) (text : Text) (count : Int) :
    (∀ (mode : Mode) (cursor last : Cursor) (chars : List UInt32) (issued : List Issued),
      written text.elements count = some chars →
      text.write mode color cursor count = some (last, issued) →
      ((∀ call ∈ issued, call.GlyphsInside) ↔ ∀ c ∈ chars, HasGlyph c)) ∧
    ∀ (posX posY : Int) (chars : List UInt32) (issued : List Issued),
      text.drawn count = some chars → text.draw posX posY color count = some issued →
      ((∀ call ∈ issued, call.GlyphsInside) ↔ ∀ c ∈ chars, HasGlyph c) :=
  ⟨fun _ _ _ _ _ hchars h => write_glyphs hchars h, fun _ _ _ _ hchars h => draw_glyphs hchars h⟩

/-- The letter A, written to the console and drawn. -/
theorem letter_inside :
    ((∀ call ∈ ([.fillPixel 0 0 8 16 .black, .drawChar 0 0 .white 65, .invalidate 0 0 8 16] :
        List Issued), call.GlyphsInside) ↔ ∀ c ∈ ([65] : List UInt32), HasGlyph c) ∧
      ((∀ call ∈ ([.drawChar 0 0 .white 65] : List Issued), call.GlyphsInside) ↔
        ∀ c ∈ ([65] : List UInt32), HasGlyph c) :=
  ⟨(glyphsInside_iff .white (.ascii [65, 0]) 0).1 ⟨1024, 768, 1024, .bgra8bit⟩ ⟨0, 0⟩ ⟨8, 0⟩ _ _
      (by decide) (by decide),
    (glyphsInside_iff .white (.ascii [65, 0]) 0).2 0 0 _ _ (by decide) (by decide)⟩

end Helos.Graphics
