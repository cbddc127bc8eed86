import Helos.Graphics.Screen

/-!
# Clipped blits

`__graphics_CopyBuffer32` and `__graphics_RenderBuffer32` of `graphics/internal_helpers.h`, clipped
against both images. A region that lies beyond a side of an image, with rows in both, has columns that
end before they begin: the blending loop skips them, and the copy passes their negative number to
`memcpy`.
-/

namespace Helos.Graphics

/-! ### `__graphics_RenderBuffer32` -/

def Color.ofWord (word : UInt32) : Color :=
  ⟨word.toUInt8, (word >>> 8).toUInt8, (word >>> 16).toUInt8, (word >>> 24).toUInt8⟩

/-- One channel of a blend, cut off to a byte. -/
def blendChannel (src dest alpha : UInt8) : UInt8 :=
  UInt8.ofNat (src.toNat + dest.toNat * (0xff - alpha.toNat) / 0xff)

def renderPixel (src dest : UInt32) : UInt32 :=
  let source := Color.ofWord src
  let base := Color.ofWord dest
  if source.a = 0 then dest
  else if source.a = 0xff then src &&& 0x00ffffff
  else
    Color.word
      { b := blendChannel source.b base.b source.a
        g := blendChannel source.g base.g source.a
        r := blendChannel source.r base.r source.a
        a := 0 }

def renderBuffer32 (source dest : Image) (countX countY : Int) : Option Pixels :=
  let beginX := intmax3 0 (-source.offsetX) (-dest.offsetX)
  let beginY := intmax3 0 (-source.offsetY) (-dest.offsetY)
  let endX := intmin3 countX (source.sizeX - source.offsetX) (dest.sizeX - dest.offsetX)
  let endY := intmin3 countY (source.sizeY - source.offsetY) (dest.sizeY - dest.offsetY)
  Loops.forUpTo (fun x => Loops.forUpTo (fun y pixels =>
    some (Function.update pixels (dest.address x y)
      (renderPixel (source.pixels (source.address x y)) (pixels (dest.address x y)))))
    beginY endY) beginX endX dest.pixels

/-! ### What is to be blitted -/

/-- The pixels of the region that both images have are those of the source, and no other changes. -/
structure Copied (source dest : Image) (countX countY : Int) (result : Pixels) : Prop where
  inside : ∀ x y, 0 ≤ x → x < countX → 0 ≤ y → y < countY → source.Has x y → dest.Has x y →
    result (dest.address x y) = source.pixels (source.address x y)
  outside : ∀ k, k ∉ source.clipped dest countX countY → result k = dest.pixels k

def ShareRow (source dest : Image) (countY : Int) : Prop :=
  ∃ y, 0 ≤ y ∧ y < countY ∧ 0 ≤ source.offsetY + y ∧ source.offsetY + y < source.sizeY ∧
    0 ≤ dest.offsetY + y ∧ dest.offsetY + y < dest.sizeY

/-- The columns of the region, and those that the images have of it, come up to each other at least. -/
structure ColumnsMeet (source dest : Image) (countX : Int) : Prop where
  count_nonneg : 0 ≤ countX
  source_left : source.offsetX ≤ source.sizeX
  source_right : 0 ≤ source.offsetX + countX
  dest_left : dest.offsetX ≤ dest.sizeX
  dest_right : 0 ≤ dest.offsetX + countX
  source_dest : source.offsetX - dest.offsetX ≤ source.sizeX
  dest_source : dest.offsetX - source.offsetX ≤ dest.sizeX

variable {source dest : Image} {countX countY : Int}

theorem columnsMeet_iff (hsource : 0 ≤ source.sizeX) (hdest : 0 ≤ dest.sizeX) :
    ColumnsMeet source dest countX ↔ max 0 (max (-source.offsetX) (-dest.offsetX)) ≤
      min countX (min (source.sizeX - source.offsetX) (dest.sizeX - dest.offsetX)) := by
  constructor
  · rintro ⟨hcount, hsl, hsr, hdl, hdr, hsd, hds⟩
    omega
  · intro h
    constructor <;> omega

theorem copied_of_patched {result : Pixels}
    (h : Patched (source.clipped dest countX countY) (source.moved dest) dest.pixels result) :
    Copied source dest countX countY result where
  inside x y hx hxc hy hyc hhas hhas' := by
    rw [h.inside ⟨x, y, hx, hxc, hy, hyc, hhas, hhas', rfl⟩]
    exact source.moved_address hhas'.1 hhas'.2.1 y
  outside k hk := h.outside hk

theorem copyBuffer32_no_row (h : ¬ ShareRow source dest countY) :
    copyBuffer32 source dest countX countY = some dest.pixels := by
  unfold copyBuffer32
  simp only [intmin3_eq, intmax3_eq]
  refine Loops.forUpTo_empty ?_
  by_contra hlt
  exact h ⟨max 0 (max (-source.offsetY) (-dest.offsetY)), by omega, by omega, by omega, by omega,
    by omega, by omega⟩

/-- A row with a negative number of pixels. -/
theorem copyBuffer32_eq_none (hrow : ShareRow source dest countY)
    (hcolumns : min countX (min (source.sizeX - source.offsetX) (dest.sizeX - dest.offsetX)) <
      max 0 (max (-source.offsetX) (-dest.offsetX))) :
    copyBuffer32 source dest countX countY = none := by
  obtain ⟨y, hy, hyc, hst, hsb, hdt, hdb⟩ := hrow
  unfold copyBuffer32
  simp only [intmin3_eq, intmax3_eq]
  refine Loops.forUpTo_eq_none (i := y) (by omega) (by omega) fun pixels => if_pos ?_
  omega

theorem clipped_eq_empty (h : ¬ ShareRow source dest countY) :
    source.clipped dest countX countY = ∅ := by
  apply Set.eq_empty_of_forall_notMem
  intro k hk
  obtain ⟨x, y, -, -, hy, hyc, hhas, hhas', -⟩ := hk
  exact h ⟨y, hy, hyc, hhas.2.2.1, hhas.2.2.2, hhas'.2.2.1, hhas'.2.2.2⟩

/-- When the copy is defined, and what it is then. -/
theorem copyBuffer32_eq_some (hsource : 0 ≤ source.sizeX) (hdest : 0 ≤ dest.sizeX)
    {result : Pixels} :
    copyBuffer32 source dest countX countY = some result ↔
      (ShareRow source dest countY → ColumnsMeet source dest countX) ∧
        Patched (source.clipped dest countX countY) (source.moved dest) dest.pixels result := by
  by_cases hrow : ShareRow source dest countY
  · by_cases hcolumns : ColumnsMeet source dest countX
    · obtain ⟨copied, hcopied, hpatched⟩ := copyBuffer32_moved source dest countX countY
        ((columnsMeet_iff hsource hdest).mp hcolumns)
      rw [hcopied, Option.some_inj]
      constructor
      · rintro rfl
        exact ⟨fun _ => hcolumns, hpatched⟩
      · exact fun h => hpatched.unique h.2
    · rw [copyBuffer32_eq_none hrow (Int.not_le.mp ((columnsMeet_iff hsource hdest).not.mp hcolumns))]
      exact iff_of_false (Option.some_ne_none result).symm fun h => hcolumns (h.1 hrow)
  · rw [copyBuffer32_no_row hrow, clipped_eq_empty hrow, Option.some_inj]
    constructor
    · rintro rfl
      exact ⟨fun h => absurd h hrow, Patched.refl _ _⟩
    · exact fun h => (Patched.refl _ _).unique h.2

theorem copyBuffer32_copied_iff (hsource : 0 ≤ source.sizeX) (hdest : 0 ≤ dest.sizeX) :
    (∃ result, copyBuffer32 source dest countX countY = some result ∧
      Copied source dest countX countY result) ↔
        (ShareRow source dest countY → ColumnsMeet source dest countX) := by
  constructor
  · rintro ⟨result, hresult, -⟩
    exact ((copyBuffer32_eq_some hsource hdest).mp hresult).1
  · intro h
    by_cases hrow : ShareRow source dest countY
    · obtain ⟨result, hresult, hpatched⟩ := copyBuffer32_moved source dest countX countY
        ((columnsMeet_iff hsource hdest).mp (h hrow))
      exact ⟨result, hresult, copied_of_patched hpatched⟩
    · refine ⟨dest.pixels, copyBuffer32_no_row hrow, copied_of_patched ?_⟩
      rw [clipped_eq_empty hrow]
      exact Patched.refl _ _

/-- Blending leaves the rest of the destination alone. -/
theorem renderBuffer32_kept (source dest : Image) (countX countY : Int) :
    ∃ result, renderBuffer32 source dest countX countY = some result ∧
      Set.EqOn result dest.pixels (source.clipped dest countX countY)ᶜ := by
  unfold renderBuffer32
  simp only [intmin3_eq, intmax3_eq]
  refine Loops.forUpTo_spec
    (fun _ pixels => Set.EqOn pixels dest.pixels (source.clipped dest countX countY)ᶜ) ?_
    (Set.eqOn_refl _ _)
  intro x pixels hx hxe hpixels
  refine Loops.forUpTo_spec
    (fun _ pixels => Set.EqOn pixels dest.pixels (source.clipped dest countX countY)ᶜ) ?_ hpixels
  intro y pixels hy hye hpixels
  refine ⟨_, rfl, fun k hk => ?_⟩
  have hother : k ≠ dest.address x y := by
    rintro rfl
    exact hk ⟨x, y, by omega, by omega, by omega, by omega,
      ⟨by omega, by omega, by omega, by omega⟩, ⟨by omega, by omega, by omega, by omega⟩, rfl⟩
  exact (Function.update_of_ne hother _ _).trans (hpixels hk)

/-- When the copy is right; the blending always stays in the region that both images have. -/
theorem clippedBlits_iff (source dest : Image) (countX countY : Int) (hsource : 0 ≤ source.sizeX)
    (hdest : 0 ≤ dest.sizeX) :
    ((∃ result, copyBuffer32 source dest countX countY = some result ∧
      Copied source dest countX countY result) ↔
        (ShareRow source dest countY → ColumnsMeet source dest countX)) ∧
    ∃ result, renderBuffer32 source dest countX countY = some result ∧
      ∀ k, k ∉ source.clipped dest countX countY → result k = dest.pixels k :=
  ⟨copyBuffer32_copied_iff hsource hdest, renderBuffer32_kept source dest countX countY⟩

def blackImage (offsetX offsetY : Int) : Image := ⟨fun _ => 0, offsetX, offsetY, 64, 48⟩

/-- A rectangle beyond the left side of the screen. -/
theorem left_of_screen_not_copied :
    ¬ ∃ result, copyBuffer32 (blackImage (-20) 0) (blackImage (-20) 0) 10 10 = some result ∧
      Copied (blackImage (-20) 0) (blackImage (-20) 0) 10 10 result := by
  rintro ⟨result, hresult, -⟩
  have hnone : copyBuffer32 (blackImage (-20) 0) (blackImage (-20) 0) 10 10 = none :=
    copyBuffer32_eq_none ⟨0, by decide, by decide, by decide, by decide, by decide, by decide⟩
      (by decide)
  rw [hnone] at hresult
  cases hresult

/-- A rectangle across the left side. -/
theorem across_left_side_copied :
    ((∃ result, copyBuffer32 (blackImage (-5) 0) (blackImage (-5) 0) 10 10 = some result ∧
      Copied (blackImage (-5) 0) (blackImage (-5) 0) 10 10 result) ↔
        (ShareRow (blackImage (-5) 0) (blackImage (-5) 0) 10 →
          ColumnsMeet (blackImage (-5) 0) (blackImage (-5) 0) 10)) ∧
    ∃ result, renderBuffer32 (blackImage (-5) 0) (blackImage (-5) 0) 10 10 = some result ∧
      ∀ k, k ∉ (blackImage (-5) 0).clipped (blackImage (-5) 0) 10 10 → result k = 0 :=
  clippedBlits_iff _ _ 10 10 (by decide) (by decide)

end Helos.Graphics
