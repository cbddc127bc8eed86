import Helos.Memory.KernelMapping
import Mathlib.Data.Set.Lattice

/-!
# Invalidated rectangles

`graphics_Invalidate` of `graphics/graphics.c`, over the stack `__invalidated`, top first. The
rectangles are stored unsigned. In terms of areas of the plane, an invalidation adds its area to what
the stack covers, whether or not it is merged with the top, unless the stack is full.
-/

namespace Helos.Graphics

/-- `__graphics_Rect`. -/
structure Rect where
  left : Nat
  top : Nat
  width : Nat
  height : Nat
  deriving DecidableEq, Repr

/-- An `int` stored as a `uint32_t`. -/
def u32 (x : Int) : Nat := (x % 2 ^ 32).toNat

def wrap32 (n : Nat) : Nat := n % 2 ^ 32

def invalidatedBufferSize : Nat := 32

structure Invalidations where
  invalidatedScreen : Bool
  invalidated : List Rect
  deriving DecidableEq, Repr

/-- The new rectangle in place of `prev` and `r`, when they are merged. -/
def merge (prev r : Rect) : Option Rect :=
  if prev.top = r.top ∧ prev.height = r.height then
    if wrap32 (prev.left + prev.width) = r.left then
      some ⟨prev.left, r.top, wrap32 (prev.width + r.width), r.height⟩
    else if wrap32 (r.left + r.width) = prev.left then
      some ⟨r.left, r.top, wrap32 (r.width + prev.width), r.height⟩
    else none
  else if prev.left = r.left ∧ prev.width = r.width then
    if wrap32 (prev.top + prev.height) = r.top then
      some ⟨r.left, prev.top, r.width, wrap32 (prev.height + r.height)⟩
    else if wrap32 (r.top + r.height) = prev.top then
      some ⟨r.left, r.top, r.width, wrap32 (r.height + prev.height)⟩
    else none
  else none

def pushMerged (r : Rect) : List Rect → List Rect
  | [] => [r]
  | prev :: rest => ((merge prev r).map (· :: rest)).getD (r :: prev :: rest)

def invalidate (s : Invalidations) (left top width height : Int) : Invalidations :=
  if invalidatedBufferSize ≤ s.invalidated.length then { s with invalidatedScreen := true }
  else
    { s with
      invalidated := pushMerged ⟨u32 left, u32 top, u32 width, u32 height⟩ s.invalidated }

theorem u32_inj {x y : Int} (hx : -2 ^ 31 ≤ x) (hx' : x < 2 ^ 31) (hy : -2 ^ 31 ≤ y)
    (hy' : y < 2 ^ 31) : u32 x = u32 y ↔ x = y := by
  unfold u32
  omega

theorem u32_inj_nonneg {x y : Int} (hx : 0 ≤ x) (hx' : x < 2 ^ 32) (hy : 0 ≤ y) (hy' : y < 2 ^ 32) :
    u32 x = u32 y ↔ x = y := by
  unfold u32
  omega

theorem wrap32_add (x y : Int) : wrap32 (u32 x + u32 y) = u32 (x + y) := by
  unfold wrap32 u32
  omega

theorem toInt_u32 {x : Int} (hx : -2 ^ 31 ≤ x) (hx' : x < 2 ^ 31) : toInt (u32 x) = x := by
  unfold toInt u32
  split <;> omega

/-! ### Areas -/

structure Area where
  left : Int
  top : Int
  width : Int
  height : Int
  deriving DecidableEq, Repr

namespace Area

variable {window area prev : Area}

def pixels (area : Area) : Set (Int × Int) :=
  {p | area.left ≤ p.1 ∧ p.1 < area.left + area.width ∧
    area.top ≤ p.2 ∧ p.2 < area.top + area.height}

def encode (area : Area) : Rect := ⟨u32 area.left, u32 area.top, u32 area.width, u32 area.height⟩

structure Inside (area window : Area) : Prop where
  left_le : window.left ≤ area.left
  width_nonneg : 0 ≤ area.width
  right_le : area.left + area.width ≤ window.left + window.width
  top_le : window.top ≤ area.top
  height_nonneg : 0 ≤ area.height
  bottom_le : area.top + area.height ≤ window.top + window.height

theorem Inside.trans {outer : Area} (h : area.Inside window) (h' : window.Inside outer) :
    area.Inside outer where
  left_le := h'.left_le.trans h.left_le
  width_nonneg := h.width_nonneg
  right_le := h.right_le.trans h'.right_le
  top_le := h'.top_le.trans h.top_le
  height_nonneg := h.height_nonneg
  bottom_le := h.bottom_le.trans h'.bottom_le

theorem Inside.pixels_subset (h : area.Inside window) : area.pixels ⊆ window.pixels := by
  rintro p ⟨hl, hr, ht, hb⟩
  exact ⟨h.left_le.trans hl, hr.trans_le h.right_le, h.top_le.trans ht, hb.trans_le h.bottom_le⟩

/-- Neither corner of a window overflows, and no distance in it does. -/
structure IsWindow (window : Area) : Prop where
  left_ge : -2 ^ 31 ≤ window.left
  width_lt : window.width < 2 ^ 31
  right_lt : window.left + window.width < 2 ^ 31
  top_ge : -2 ^ 31 ≤ window.top
  height_lt : window.height < 2 ^ 31
  bottom_lt : window.top + window.height < 2 ^ 31

/-- The two areas as one, when one is beside the other. -/
def join (prev area : Area) : Option Area :=
  if prev.top = area.top ∧ prev.height = area.height then
    if prev.left + prev.width = area.left then
      some ⟨prev.left, area.top, prev.width + area.width, area.height⟩
    else if area.left + area.width = prev.left then
      some ⟨area.left, area.top, area.width + prev.width, area.height⟩
    else none
  else if prev.left = area.left ∧ prev.width = area.width then
    if prev.top + prev.height = area.top then
      some ⟨area.left, prev.top, area.width, prev.height + area.height⟩
    else if area.top + area.height = prev.top then
      some ⟨area.left, area.top, area.width, area.height + prev.height⟩
    else none
  else none

theorem join_cases {joined : Area} (h : prev.join area = some joined) :
    prev.top = area.top ∧ prev.height = area.height ∧ prev.left + prev.width = area.left ∧
        joined = ⟨prev.left, area.top, prev.width + area.width, area.height⟩ ∨
      prev.top = area.top ∧ prev.height = area.height ∧ area.left + area.width = prev.left ∧
        joined = ⟨area.left, area.top, area.width + prev.width, area.height⟩ ∨
      prev.left = area.left ∧ prev.width = area.width ∧ prev.top + prev.height = area.top ∧
        joined = ⟨area.left, prev.top, area.width, prev.height + area.height⟩ ∨
      prev.left = area.left ∧ prev.width = area.width ∧ area.top + area.height = prev.top ∧
        joined = ⟨area.left, area.top, area.width, area.height + prev.height⟩ := by
  unfold join at h
  split at h
  case isTrue hrow =>
    split at h
    case isTrue hbeside => exact Or.inl ⟨hrow.1, hrow.2, hbeside, (Option.some.inj h).symm⟩
    case isFalse =>
      split at h
      case isTrue hbeside =>
        exact Or.inr (Or.inl ⟨hrow.1, hrow.2, hbeside, (Option.some.inj h).symm⟩)
      case isFalse => cases h
  case isFalse =>
    split at h
    case isTrue hcolumn =>
      split at h
      case isTrue hbeside =>
        exact Or.inr (Or.inr (Or.inl ⟨hcolumn.1, hcolumn.2, hbeside, (Option.some.inj h).symm⟩))
      case isFalse =>
        split at h
        case isTrue hbeside =>
          exact Or.inr (Or.inr (Or.inr ⟨hcolumn.1, hcolumn.2, hbeside, (Option.some.inj h).symm⟩))
        case isFalse => cases h
    case isFalse => cases h

theorem join_inside {joined : Area} (h : prev.join area = some joined) (hprev : prev.Inside window)
    (harea : area.Inside window) : joined.Inside window := by
  obtain ⟨hpl, hpw, hpr, hpt, hph, hpb⟩ := hprev
  obtain ⟨hal, haw, har, hat, hah, hab⟩ := harea
  rcases join_cases h with ⟨_, _, _, rfl⟩ | ⟨_, _, _, rfl⟩ | ⟨_, _, _, rfl⟩ | ⟨_, _, _, rfl⟩ <;>
    constructor <;> dsimp only <;> omega

/-- Merging neither drops nor adds pixels. -/
theorem join_pixels {joined : Area} (h : prev.join area = some joined) (hprev : prev.Inside window)
    (harea : area.Inside window) : joined.pixels = area.pixels ∪ prev.pixels := by
  obtain ⟨-, hpw, -, -, hph, -⟩ := hprev
  obtain ⟨-, haw, -, -, hah, -⟩ := harea
  ext p
  rw [Set.mem_union]
  rcases join_cases h with ⟨_, _, _, rfl⟩ | ⟨_, _, _, rfl⟩ | ⟨_, _, _, rfl⟩ | ⟨_, _, _, rfl⟩ <;>
    simp only [pixels, Set.mem_ofPred_eq] <;> omega

/-! ### The rectangle of an area -/

/-- What a corner that is an `int`, and a size that does not take the other corner beyond one, can
describe. -/
def plane : Area := ⟨-2 ^ 31, -2 ^ 31, 2 ^ 32 - 1, 2 ^ 32 - 1⟩

theorem IsWindow.inside_plane (hwindow : window.IsWindow) (harea : area.Inside window) :
    area.Inside plane := by
  obtain ⟨hwl, -, hwr, hwt, -, hwb⟩ := hwindow
  obtain ⟨hl, hw, hr, ht, hh, hb⟩ := harea
  refine ⟨hwl.trans hl, hw, ?_, hwt.trans ht, hh, ?_⟩ <;> dsimp only [plane] <;> omega

theorem merge_encode (hprev : prev.Inside plane) (harea : area.Inside plane) :
    merge prev.encode area.encode = (prev.join area).map encode := by
  obtain ⟨hpl, hpw, hpr, hpt, hph, hpb⟩ := hprev
  obtain ⟨hal, haw, har, hat, hah, hab⟩ := harea
  dsimp only [plane] at hpl hpr hpt hpb hal har hat hab
  have htop : u32 prev.top = u32 area.top ↔ prev.top = area.top := by apply u32_inj <;> omega
  have hheight : u32 prev.height = u32 area.height ↔ prev.height = area.height := by
    apply u32_inj_nonneg <;> omega
  have hleft : u32 prev.left = u32 area.left ↔ prev.left = area.left := by apply u32_inj <;> omega
  have hwidth : u32 prev.width = u32 area.width ↔ prev.width = area.width := by
    apply u32_inj_nonneg <;> omega
  have hprevRight : u32 (prev.left + prev.width) = u32 area.left ↔
      prev.left + prev.width = area.left := by apply u32_inj <;> omega
  have hareaRight : u32 (area.left + area.width) = u32 prev.left ↔
      area.left + area.width = prev.left := by apply u32_inj <;> omega
  have hprevBottom : u32 (prev.top + prev.height) = u32 area.top ↔
      prev.top + prev.height = area.top := by apply u32_inj <;> omega
  have hareaBottom : u32 (area.top + area.height) = u32 prev.top ↔
      area.top + area.height = prev.top := by apply u32_inj <;> omega
  simp only [merge, encode, join, wrap32_add, htop, hheight, hleft, hwidth, hprevRight, hareaRight,
    hprevBottom, hareaBottom]
  split_ifs <;> rfl

end Area

/-! ### The areas on the stack -/

def pushArea (area : Area) : List Area → List Area
  | [] => [area]
  | prev :: rest => ((prev.join area).map (· :: rest)).getD (area :: prev :: rest)

def covered (areas : List Area) : Set (Int × Int) := {p | ∃ area ∈ areas, p ∈ area.pixels}

variable {window area : Area} {areas : List Area}

theorem covered_cons (area : Area) (areas : List Area) :
    covered (area :: areas) = area.pixels ∪ covered areas := by
  ext p
  simp only [covered, List.mem_cons, exists_eq_or_imp, Set.mem_union, Set.mem_ofPred_eq]

variable {prev joined : Area} {rest : List Area}

theorem pushArea_of_none (h : prev.join area = none) :
    pushArea area (prev :: rest) = area :: prev :: rest := by
  simp [pushArea, h]

theorem pushArea_of_some (h : prev.join area = some joined) :
    pushArea area (prev :: rest) = joined :: rest := by
  simp [pushArea, h]

/-- A property that the areas have and merging keeps. -/
theorem pushArea_forall {P : Area → Prop}
    (hjoin : ∀ prev joined, P prev → P area → prev.join area = some joined → P joined)
    (hareas : ∀ a ∈ areas, P a) (harea : P area) : ∀ a ∈ pushArea area areas, P a := by
  cases areas with
  | nil => simpa [pushArea] using harea
  | cons prev rest =>
    rw [List.forall_mem_cons] at hareas
    cases hjoined : prev.join area with
    | none =>
      rw [pushArea_of_none hjoined, List.forall_mem_cons, List.forall_mem_cons]
      exact ⟨harea, hareas⟩
    | some joined =>
      rw [pushArea_of_some hjoined, List.forall_mem_cons]
      exact ⟨hjoin prev joined hareas.1 harea hjoined, hareas.2⟩

theorem covered_pushArea (hareas : ∀ a ∈ areas, a.Inside window) (harea : area.Inside window) :
    covered (pushArea area areas) = area.pixels ∪ covered areas := by
  cases areas with
  | nil => exact covered_cons area []
  | cons prev rest =>
    cases hjoined : prev.join area with
    | none => rw [pushArea_of_none hjoined, covered_cons]
    | some joined =>
      have hprev : prev.Inside window := hareas prev List.mem_cons_self
      calc covered (pushArea area (prev :: rest))
          = joined.pixels ∪ covered rest := by rw [pushArea_of_some hjoined, covered_cons]
        _ = area.pixels ∪ prev.pixels ∪ covered rest := by
            rw [Area.join_pixels hjoined hprev harea]
        _ = area.pixels ∪ covered (prev :: rest) := by rw [covered_cons, Set.union_assoc]

theorem pushMerged_encode (hareas : ∀ a ∈ areas, a.Inside Area.plane)
    (harea : area.Inside Area.plane) :
    pushMerged area.encode (areas.map Area.encode) = (pushArea area areas).map Area.encode := by
  cases areas with
  | nil => rfl
  | cons prev rest =>
    have hmerge := Area.merge_encode (hareas prev List.mem_cons_self) harea
    simp only [List.map_cons, pushMerged, pushArea, hmerge]
    cases prev.join area <;> rfl

/-! ### What the rectangles on the stack cover -/

/-- The corner is a signed position, the size is not. -/
def Rect.pixels (r : Rect) : Set (Int × Int) :=
  (Area.mk (toInt r.left) (toInt r.top) r.width r.height).pixels

def Invalidations.covered (s : Invalidations) : Set (Int × Int) :=
  {p | ∃ r ∈ s.invalidated, p ∈ r.pixels}

def Invalidations.invalidateArea (s : Invalidations) (area : Area) : Invalidations :=
  invalidate s area.left area.top area.width area.height

/-- After a sequence of calls that follows `graphics_SwapBuffer`. -/
def invalidatedBy (calls : List Area) : Invalidations :=
  calls.foldl Invalidations.invalidateArea ⟨false, []⟩

/-- The arguments are values of an `int`, and so are the sums of a corner and a size. -/
structure Area.IsProper (area : Area) : Prop where
  width_nonneg : 0 ≤ area.width
  height_nonneg : 0 ≤ area.height
  left_ge : -2 ^ 31 ≤ area.left
  right_lt : area.left + area.width < 2 ^ 31
  top_ge : -2 ^ 31 ≤ area.top
  bottom_lt : area.top + area.height < 2 ^ 31

theorem Area.IsProper.inside_plane (h : area.IsProper) : area.Inside plane := by
  obtain ⟨hw, hh, hl, hr, ht, hb⟩ := h
  refine ⟨hl, hw, ?_, ht, hh, ?_⟩ <;> dsimp only [plane] <;> omega

theorem Area.encode_pixels (h : area.Inside plane) : area.encode.pixels = area.pixels := by
  obtain ⟨hl, hw, hr, ht, hh, hb⟩ := h
  dsimp only [plane] at hl hr ht hb
  have hwidth : (u32 area.width : Int) = area.width := by
    unfold u32
    omega
  have hheight : (u32 area.height : Int) = area.height := by
    unfold u32
    omega
  unfold Rect.pixels Area.encode
  rw [toInt_u32 hl (by omega), toInt_u32 ht (by omega), hwidth, hheight]

structure Invalidations.Holds (s : Invalidations) (areas : List Area) : Prop where
  invalidated : s.invalidated = areas.map Area.encode
  inside : ∀ a ∈ areas, a.Inside Area.plane

namespace Invalidations.Holds

variable {s : Invalidations}

theorem covered_eq (h : s.Holds areas) : s.covered = Graphics.covered areas := by
  have hpixels : ∀ a ∈ areas, a.encode.pixels = a.pixels := fun a ha => Area.encode_pixels (h.inside a ha)
  unfold Invalidations.covered Graphics.covered
  rw [h.invalidated]
  ext p
  constructor
  · rintro ⟨r, hr, hp⟩
    obtain ⟨a, ha, rfl⟩ := List.mem_map.mp hr
    rw [hpixels a ha] at hp
    exact ⟨a, ha, hp⟩
  · rintro ⟨a, ha, hp⟩
    rw [← hpixels a ha] at hp
    exact ⟨a.encode, List.mem_map_of_mem ha, hp⟩

theorem invalidateArea_room (h : s.Holds areas) (harea : area.Inside Area.plane)
    (hroom : s.invalidated.length < invalidatedBufferSize) :
    (s.invalidateArea area).Holds (pushArea area areas) ∧
      (s.invalidateArea area).covered = area.pixels ∪ s.covered := by
  have hholds : (s.invalidateArea area).Holds (pushArea area areas) := by
    refine ⟨?_, pushArea_forall ?_ h.inside harea⟩
    · rw [← pushMerged_encode h.inside harea, ← h.invalidated]
      simp only [invalidateArea, invalidate, if_neg (Nat.not_le.mpr hroom)]
      rfl
    · exact fun prev joined hprev ha hjoin => Area.join_inside hjoin hprev ha
  refine ⟨hholds, ?_⟩
  rw [hholds.covered_eq, covered_pushArea h.inside harea, h.covered_eq]

end Invalidations.Holds

theorem Invalidations.invalidateArea_full {s : Invalidations} (area : Area)
    (hfull : invalidatedBufferSize ≤ s.invalidated.length) :
    s.invalidateArea area = { s with invalidatedScreen := true } := if_pos hfull

/-- After a sequence of calls the stack holds areas, and unless the screen is invalidated they cover
what was passed in. -/
theorem invalidatedBy_holds (calls : List Area) (hcalls : ∀ area ∈ calls, area.IsProper) :
    ∃ areas, (invalidatedBy calls).Holds areas ∧
      ((invalidatedBy calls).invalidatedScreen = false →
        (invalidatedBy calls).covered = covered calls) := by
  induction calls using List.reverseRecOn with
  | nil =>
    refine ⟨[], ⟨rfl, List.forall_mem_nil _⟩, fun _ => ?_⟩
    ext p
    simp [invalidatedBy, Invalidations.covered, covered]
  | append_singleton calls area ih =>
    obtain ⟨hbefore, harea⟩ := List.forall_mem_append.mp hcalls
    have harea : area.Inside Area.plane := (harea area List.mem_cons_self).inside_plane
    obtain ⟨areas, hholds, hcovered⟩ := ih hbefore
    have hnext : invalidatedBy (calls ++ [area]) = (invalidatedBy calls).invalidateArea area := by
      unfold invalidatedBy
      rw [List.foldl_append, List.foldl_cons, List.foldl_nil]
    rw [hnext]
    generalize invalidatedBy calls = s at hholds hcovered ⊢
    by_cases hfull : invalidatedBufferSize ≤ s.invalidated.length
    · rw [Invalidations.invalidateArea_full area hfull]
      refine ⟨areas, ⟨hholds.invalidated, hholds.inside⟩, fun h => ?_⟩
      cases h
    · obtain ⟨hpushed, hunion⟩ := hholds.invalidateArea_room harea (Nat.not_le.mp hfull)
      refine ⟨_, hpushed, fun hscreen => ?_⟩
      have hsame : (s.invalidateArea area).invalidatedScreen = s.invalidatedScreen := by
        simp only [Invalidations.invalidateArea, invalidate, if_neg hfull]
      rw [hunion, hcovered (hsame.symm.trans hscreen)]
      ext p
      simp only [covered, Set.mem_union, Set.mem_ofPred_eq, List.mem_append, List.mem_singleton,
        or_and_right, exists_or, exists_eq_left, or_comm]

/-- No invalidated region is forgotten. -/
theorem invalidatedBy_covered (calls : List Area) (hcalls : ∀ area ∈ calls, area.IsProper) :
    ((invalidatedBy calls).invalidatedScreen = true ∨
      (invalidatedBy calls).covered = {p | ∃ area ∈ calls, p ∈ area.pixels}) ∧
    ∀ area : Area, area.IsProper → (invalidatedBy calls).invalidated.length < invalidatedBufferSize →
      ((invalidatedBy calls).invalidateArea area).covered =
        area.pixels ∪ (invalidatedBy calls).covered := by
  obtain ⟨areas, hholds, hcovered⟩ := invalidatedBy_holds calls hcalls
  refine ⟨?_, fun area harea hroom => ?_⟩
  · cases hscreen : (invalidatedBy calls).invalidatedScreen with
    | true => exact Or.inl rfl
    | false => exact Or.inr (hcovered hscreen)
  · exact (hholds.invalidateArea_room harea.inside_plane hroom).2

/-- Two parts of a band across the plane, which are merged, and a rectangle below. -/
theorem band_covered :
    ((invalidatedBy [⟨-2 ^ 31, 0, 2 ^ 31, 16⟩, ⟨0, 0, 2 ^ 31 - 1, 16⟩]).invalidatedScreen = true ∨
      (invalidatedBy [⟨-2 ^ 31, 0, 2 ^ 31, 16⟩, ⟨0, 0, 2 ^ 31 - 1, 16⟩]).covered =
        {p | ∃ area ∈ ([⟨-2 ^ 31, 0, 2 ^ 31, 16⟩, ⟨0, 0, 2 ^ 31 - 1, 16⟩] : List Area),
          p ∈ area.pixels}) ∧
    ((invalidatedBy [⟨-2 ^ 31, 0, 2 ^ 31, 16⟩, ⟨0, 0, 2 ^ 31 - 1, 16⟩]).invalidateArea
        ⟨0, 16, 16, 16⟩).covered =
      (Area.mk 0 16 16 16).pixels ∪
        (invalidatedBy [⟨-2 ^ 31, 0, 2 ^ 31, 16⟩, ⟨0, 0, 2 ^ 31 - 1, 16⟩]).covered := by
  have hproper : ∀ area ∈ ([⟨-2 ^ 31, 0, 2 ^ 31, 16⟩, ⟨0, 0, 2 ^ 31 - 1, 16⟩] : List Area),
      area.IsProper := by
    rw [List.forall_mem_cons, List.forall_mem_singleton]
    constructor <;> constructor <;> decide
  have hbelow : (Area.mk 0 16 16 16).IsProper := by constructor <;> decide
  have h := invalidatedBy_covered _ hproper
  exact ⟨h.1, h.2 _ hbelow (by decide)⟩

end Helos.Graphics
