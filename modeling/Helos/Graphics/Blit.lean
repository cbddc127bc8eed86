import Helos.Theory.Loops
import Mathlib.Algebra.Ring.Int.Defs
import Mathlib.Data.Set.Function

/-!
# Copying between images

`__graphics_CopyBuffer32` of `graphics/internal_helpers.h`. An image is addressed by pixels, from
wherever its pointer points to. A row of a negative length makes `memcpy` run away, and the copy has
no result.
-/

namespace Helos.Graphics

abbrev Pixels := Int → UInt32

/-! ### `minmax.h` -/

def intmin3 (x y z : Int) : Int :=
  if x < y then
    if x < z then x else z
  else if y < z then y
  else z

def intmax3 (x y z : Int) : Int :=
  if x > y then
    if x > z then x else z
  else if y > z then y
  else z

theorem intmin3_eq (x y z : Int) : intmin3 x y z = min x (min y z) := by
  unfold intmin3
  split <;> split <;> omega

theorem intmax3_eq (x y z : Int) : intmax3 x y z = max x (max y z) := by
  unfold intmax3
  split <;> split <;> omega

/-! ### `__graphics_CopyBuffer32` -/

/-- The arguments for one of the two images. -/
structure Image where
  pixels : Pixels
  offsetX : Int
  offsetY : Int
  sizeX : Int
  sizeY : Int

namespace Image

/-- Where pixel `x` of row `y` of the region is. -/
def address (image : Image) (x y : Int) : Int :=
  image.offsetX + x + image.sizeX * (image.offsetY + y)

/-- That pixel is in the image. -/
def Has (image : Image) (x y : Int) : Prop :=
  0 ≤ image.offsetX + x ∧ image.offsetX + x < image.sizeX ∧
    0 ≤ image.offsetY + y ∧ image.offsetY + y < image.sizeY

end Image

/-- `memcpy`, of `n` pixels. -/
def copyPixels (dest source : Pixels) (destStart sourceStart : Int) (n : Nat) : Pixels := fun k =>
  if destStart ≤ k ∧ k < destStart + n then source (sourceStart + (k - destStart)) else dest k

/-- One round of the loop over the rows. -/
def copyRow (source dest : Image) (beginX endX i : Int) (pixels : Pixels) : Option Pixels :=
  if endX - beginX < 0 then none
  else
    some (copyPixels pixels source.pixels (dest.address beginX i) (source.address beginX i)
      (endX - beginX).toNat)

/-- The pixels of the destination. -/
def copyBuffer32 (source dest : Image) (countX countY : Int) : Option Pixels :=
  let beginX := intmax3 0 (-source.offsetX) (-dest.offsetX)
  let beginY := intmax3 0 (-source.offsetY) (-dest.offsetY)
  let endX := intmin3 countX (source.sizeX - source.offsetX) (dest.sizeX - dest.offsetX)
  let endY := intmin3 countY (source.sizeY - source.offsetY) (dest.sizeY - dest.offsetY)
  Loops.forUpTo (copyRow source dest beginX endX) beginY endY dest.pixels

/-! ### Pixels with a patch

`result` is `base`, with `source` in the region. -/

structure Patched (region : Set Int) (source base result : Pixels) : Prop where
  inside : Set.EqOn result source region
  outside : Set.EqOn result base regionᶜ

namespace Patched

variable {region other : Set Int} {source base middle result : Pixels}

theorem refl (source base : Pixels) : Patched ∅ source base base :=
  ⟨Set.eqOn_empty _ _, Set.eqOn_refl _ _⟩

theorem trans (h : Patched region source base middle) (h' : Patched other source middle result) :
    Patched (region ∪ other) source base result where
  inside := by
    intro k hk
    by_cases hother : k ∈ other
    · exact h'.inside hother
    · rw [h'.outside hother, h.inside (hk.resolve_right hother)]
  outside := by
    intro k hk
    rw [Set.mem_compl_iff, Set.mem_union, not_or] at hk
    rw [h'.outside hk.2, h.outside hk.1]

/-- Patching is choosing for each pixel. -/
theorem source_or_base (h : Patched region source base result) (k : Int) :
    result k = source k ∨ result k = base k := by
  by_cases hk : k ∈ region
  · exact Or.inl (h.inside hk)
  · exact Or.inr (h.outside hk)

/-- A loop each round of which patches a region. -/
theorem forUpTo {body : Int → Pixels → Option Pixels} {regions : Int → Set Int} {start stop : Int}
    (h : ∀ i pixels, start ≤ i → i < stop → ∃ next, body i pixels = some next ∧
      Patched (regions i) source pixels next) :
    ∃ result, Loops.forUpTo body start stop base = some result ∧
      Patched {k | ∃ i, start ≤ i ∧ i < stop ∧ k ∈ regions i} source base result := by
  -- Before round `i` the regions below it are patched.
  let below := fun i : Int => {k | ∃ j, start ≤ j ∧ j < i ∧ k ∈ regions j}
  have hstart : below start = ∅ := by
    apply Set.eq_empty_of_forall_notMem
    intro k hk
    obtain ⟨j, hle, hlt, -⟩ := hk
    omega
  have hnext : ∀ i, start ≤ i → below (i + 1) = below i ∪ regions i := by
    intro i hi
    ext k
    constructor
    · rintro ⟨j, hle, hlt, hk⟩
      rcases Int.lt_or_eq_of_le (Int.lt_add_one_iff.mp hlt) with hlt | rfl
      · exact Or.inl ⟨j, hle, hlt, hk⟩
      · exact Or.inr hk
    · rintro (⟨j, hle, hlt, hk⟩ | hk)
      · exact ⟨j, hle, by omega, hk⟩
      · exact ⟨i, hi, Int.lt_add_one_iff.mpr (Int.le_refl i), hk⟩
  have hstop : below (max start stop) = below stop := by
    ext k
    constructor <;> rintro ⟨j, hle, hlt, hk⟩ <;> exact ⟨j, hle, by omega, hk⟩
  have hloop : ∃ result, Loops.forUpTo body start stop base = some result ∧
      Patched (below (max start stop)) source base result := by
    refine Loops.forUpTo_spec (fun i pixels => Patched (below i) source base pixels) ?_ ?_
    · intro i pixels hle hlt hpatched
      obtain ⟨next, hbody, hregion⟩ := h i pixels hle hlt
      rw [hnext i hle]
      exact ⟨next, hbody, hpatched.trans hregion⟩
    · rw [hstart]
      exact refl source base
  rwa [hstop] at hloop

/-- So do steps along a list. -/
theorem foldlM {α : Type*} {step : Pixels → α → Option Pixels} {regions : α → Set Int} {xs : List α}
    (h : ∀ a ∈ xs, ∀ pixels, ∃ next, step pixels a = some next ∧
      Patched (regions a) source pixels next) :
    ∃ result, xs.foldlM step base = some result ∧
      Patched {k | ∃ a ∈ xs, k ∈ regions a} source base result := by
  induction xs generalizing base with
  | nil =>
    have hnone : {k | ∃ a ∈ ([] : List α), k ∈ regions a} = ∅ := by simp
    rw [hnone]
    exact ⟨base, rfl, refl source base⟩
  | cons a xs ih =>
    rw [List.forall_mem_cons] at h
    obtain ⟨middle, hmiddle, hfirst⟩ := h.1 base
    obtain ⟨result, hresult, hrest⟩ := ih h.2
    refine ⟨result, ?_, ?_⟩
    · rw [List.foldlM_cons, hmiddle]
      exact hresult
    · have hunion : {k | ∃ a' ∈ a :: xs, k ∈ regions a'} =
          regions a ∪ {k | ∃ a' ∈ xs, k ∈ regions a'} := by
        ext k
        simp only [List.mem_cons, exists_eq_or_imp, Set.mem_union, Set.mem_ofPred_eq]
      rw [hunion]
      exact hfirst.trans hrest

theorem unique {result' : Pixels} (h : Patched region source base result)
    (h' : Patched region source base result') : result = result' := by
  funext k
  by_cases hk : k ∈ region
  · exact (h.inside hk).trans (h'.inside hk).symm
  · exact (h.outside hk).trans (h'.outside hk).symm

/-- Two buffers that differ by a patch still do after both are drawn on, exactly when what is drawn in
the region is what the patch has there. -/
theorem drawn_iff {drawn : Set Int} {value : UInt32} {base' result' : Pixels}
    (h : Patched region source base result) (hbase : Patched drawn (fun _ => value) base base')
    (hresult : Patched drawn (fun _ => value) result result') :
    Patched region source base' result' ↔ ∀ k ∈ drawn, k ∈ region → source k = value := by
  constructor
  · intro h' k hdrawn hk
    exact (h'.inside hk).symm.trans (hresult.inside hdrawn)
  · intro hsame
    constructor
    · intro k hk
      by_cases hdrawn : k ∈ drawn
      · exact (hresult.inside hdrawn).trans (hsame k hdrawn hk).symm
      · exact (hresult.outside hdrawn).trans (h.inside hk)
    · intro k hk
      by_cases hdrawn : k ∈ drawn
      · exact (hresult.inside hdrawn).trans (hbase.inside hdrawn).symm
      · exact (hresult.outside hdrawn).trans ((h.outside hk).trans (hbase.outside hdrawn).symm)

/-- The same base, patched with two colours, is the same exactly when the colours are or nothing is
patched. -/
theorem eq_iff {value value' : UInt32} {result' : Pixels}
    (h : Patched region (fun _ => value) base result)
    (h' : Patched region (fun _ => value') base result') :
    result = result' ↔ value = value' ∨ region = ∅ := by
  constructor
  · rintro rfl
    rcases region.eq_empty_or_nonempty with hempty | ⟨k, hk⟩
    · exact Or.inr hempty
    · exact Or.inl ((h.inside hk).symm.trans (h'.inside hk))
  · rintro (rfl | rfl)
    · funext k
      by_cases hk : k ∈ region
      · exact (h.inside hk).trans (h'.inside hk).symm
      · exact (h.outside hk).trans (h'.outside hk).symm
    · funext k
      exact (h.outside (Set.notMem_empty k)).trans (h'.outside (Set.notMem_empty k)).symm

end Patched

/-! ### What is copied -/

namespace Image

/-- The part of row `y` of the region that lies between two columns. -/
def row (image : Image) (beginX endX y : Int) : Set Int :=
  {k | ∃ x, beginX ≤ x ∧ x < endX ∧ k = image.address x y}

/-- The part of the region that both images have, in the second. -/
def clipped (source dest : Image) (countX countY : Int) : Set Int :=
  {k | ∃ x y, 0 ≤ x ∧ x < countX ∧ 0 ≤ y ∧ y < countY ∧ source.Has x y ∧ dest.Has x y ∧
    k = dest.address x y}

/-- The part of the region that the image has. -/
def shown (image : Image) (countX countY : Int) : Set Int :=
  {k | ∃ x y, 0 ≤ x ∧ x < countX ∧ 0 ≤ y ∧ y < countY ∧ image.Has x y ∧ k = image.address x y}

/-- In the coordinates of the image. -/
theorem mem_shown (image : Image) (countX countY k : Int) :
    k ∈ image.shown countX countY ↔ ∃ x y, (image.offsetX ≤ x ∧ x < image.offsetX + countX ∧
      image.offsetY ≤ y ∧ y < image.offsetY + countY) ∧
      (0 ≤ x ∧ x < image.sizeX ∧ 0 ≤ y ∧ y < image.sizeY) ∧ k = image.sizeX * y + x := by
  constructor
  · rintro ⟨x, y, hx, hxc, hy, hyc, hhas, hk⟩
    refine ⟨image.offsetX + x, image.offsetY + y, ⟨by omega, by omega, by omega, by omega⟩, hhas, ?_⟩
    rw [hk, Image.address, Int.add_comm]
  · rintro ⟨x, y, ⟨hx, hxc, hy, hyc⟩, hhas, hk⟩
    refine ⟨x - image.offsetX, y - image.offsetY, by omega, by omega, by omega, by omega, ?_, ?_⟩
    · unfold Image.Has
      omega
    · rw [hk, Image.address, show image.offsetX + (x - image.offsetX) = x by omega,
        show image.offsetY + (y - image.offsetY) = y by omega, Int.add_comm]

/-- The source, with each pixel where the region has it in the destination. -/
def moved (source dest : Image) : Pixels := fun k =>
  source.pixels (source.address (k % dest.sizeX - dest.offsetX) (k / dest.sizeX - dest.offsetY))

theorem moved_address (source : Image) {dest : Image} {x : Int} (hx : 0 ≤ dest.offsetX + x)
    (hlt : dest.offsetX + x < dest.sizeX) (y : Int) :
    source.moved dest (dest.address x y) = source.pixels (source.address x y) := by
  have hcolumn : dest.address x y % dest.sizeX = dest.offsetX + x := by
    rw [address, Int.add_mul_emod_self_left, Int.emod_eq_of_lt hx hlt]
  have hrow : dest.address x y / dest.sizeX = dest.offsetY + y := by
    rw [address, Int.add_mul_ediv_left _ _ (by omega), Int.ediv_eq_zero_of_lt hx hlt, Int.zero_add]
  rw [moved, hcolumn, hrow, add_sub_cancel_left, add_sub_cancel_left]

/-- A region that is copied to its own place stays there. -/
theorem moved_same (source : Image) (base : Pixels) :
    source.moved { source with pixels := base } = source.pixels := by
  funext k
  have hk : source.address (k % source.sizeX - source.offsetX) (k / source.sizeX - source.offsetY) =
      k := by
    rw [address, add_sub_cancel, add_sub_cancel, Int.emod_add_mul_ediv]
  exact congrArg source.pixels hk

end Image

/-- `memcpy` of a row to its own place. -/
theorem copyPixels_same (dest source : Pixels) (start : Int) (n : Nat) :
    Patched {k | start ≤ k ∧ k < start + n} source dest
      (copyPixels dest source start start n) where
  inside := by
    intro k hk
    rw [Set.mem_ofPred_eq] at hk
    unfold copyPixels
    rw [if_pos hk, Int.add_comm, Int.sub_add_cancel]
  outside := by
    intro k hk
    exact if_neg hk

variable {source dest : Image} {countX countY beginX endX : Int}

theorem copyRow_moved (hlength : beginX ≤ endX) (hbegin : 0 ≤ dest.offsetX + beginX)
    (hend : dest.offsetX + endX ≤ dest.sizeX) (i : Int) (pixels : Pixels) :
    ∃ result, copyRow source dest beginX endX i pixels = some result ∧
      Patched (dest.row beginX endX i) (source.moved dest) pixels result := by
  refine ⟨_, if_neg (Int.not_lt.mpr (Int.sub_nonneg.mpr hlength)), ?_, ?_⟩
  · rintro k ⟨x, hx, hlt, rfl⟩
    rw [Image.moved_address source (by omega) (by omega)]
    unfold copyPixels
    rw [if_pos]
    · congr 1
      unfold Image.address
      omega
    · unfold Image.address
      omega
  · intro k hk
    refine if_neg fun hbetween => hk ⟨beginX + (k - dest.address beginX i), ?_, ?_, ?_⟩
    · omega
    · omega
    · unfold Image.address
      omega

/-- When the columns are in order, what both images have is copied. -/
theorem copyBuffer32_moved (source dest : Image) (countX countY : Int)
    (hcolumns : max 0 (max (-source.offsetX) (-dest.offsetX)) ≤
      min countX (min (source.sizeX - source.offsetX) (dest.sizeX - dest.offsetX))) :
    ∃ result, copyBuffer32 source dest countX countY = some result ∧
      Patched (source.clipped dest countX countY) (source.moved dest) dest.pixels result := by
  unfold copyBuffer32
  simp only [intmin3_eq, intmax3_eq]
  have hclipped : source.clipped dest countX countY =
      {k | ∃ y, max 0 (max (-source.offsetY) (-dest.offsetY)) ≤ y ∧
        y < min countY (min (source.sizeY - source.offsetY) (dest.sizeY - dest.offsetY)) ∧
        k ∈ dest.row (max 0 (max (-source.offsetX) (-dest.offsetX)))
          (min countX (min (source.sizeX - source.offsetX) (dest.sizeX - dest.offsetX))) y} := by
    ext k
    constructor
    · rintro ⟨x, y, hx, hxc, hy, hyc, ⟨hsl, hsr, hst, hsb⟩, ⟨hdl, hdr, hdt, hdb⟩, hk⟩
      exact ⟨y, by omega, by omega, x, by omega, by omega, hk⟩
    · rintro ⟨y, hy, hyc, x, hx, hxc, hk⟩
      exact ⟨x, y, by omega, by omega, by omega, by omega,
        ⟨by omega, by omega, by omega, by omega⟩, ⟨by omega, by omega, by omega, by omega⟩, hk⟩
  rw [hclipped]
  exact Patched.forUpTo fun i pixels _ _ => copyRow_moved hcolumns (by omega) (by omega) i pixels

/-- A region no side of which is beyond the other side of the image is copied where the image has
it. -/
theorem copyBuffer32_same (base : Pixels) (hcount : 0 ≤ countX) (hsize : 0 ≤ source.sizeX)
    (hleft : 0 ≤ source.offsetX + countX) (hright : source.offsetX ≤ source.sizeX) :
    ∃ result, copyBuffer32 source { source with pixels := base } countX countY = some result ∧
      Patched (source.shown countX countY) source.pixels base result := by
  have hmoved := copyBuffer32_moved source { source with pixels := base } countX countY
    (by dsimp only; omega)
  have hshown : source.clipped { source with pixels := base } countX countY =
      source.shown countX countY := by
    ext k
    constructor
    · rintro ⟨x, y, hx, hxc, hy, hyc, hhas, -, hk⟩
      exact ⟨x, y, hx, hxc, hy, hyc, hhas, hk⟩
    · rintro ⟨x, y, hx, hxc, hy, hyc, hhas, hk⟩
      exact ⟨x, y, hx, hxc, hy, hyc, hhas, hhas, hk⟩
  rwa [source.moved_same base, hshown] at hmoved

end Helos.Graphics
