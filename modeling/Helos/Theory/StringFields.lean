import Mathlib.Data.List.Infix
import Mathlib.Tactic.Common

/-!
# Strings in fields of one width

A record is a list of cells, and a field a run of them. A string is read from an offset on while the
cells satisfy a predicate: within a field, or without knowing where the field ends. Both read the same
when a cell of the field ends the string.
-/

namespace StringFields

variable {α : Type*} (p : α → Bool)

/-- The cells of a field. -/
def cells (xs : List α) (offset width : Nat) : List α := (xs.drop offset).take width

def stringFrom (xs : List α) (offset : Nat) : List α := (xs.drop offset).takeWhile p

def stringIn (xs : List α) (offset width : Nat) : List α := (cells xs offset width).takeWhile p

/-- Some cells put in the place of others. -/
def patch (xs : List α) (offset : Nat) (ys : List α) : List α :=
  xs.take offset ++ (ys ++ xs.drop (offset + ys.length))

/-- A cell of the field ends the string. -/
def Ends (xs : List α) (offset width : Nat) : Prop := ∃ x ∈ cells xs offset width, p x = false

variable {p} {xs ys : List α} {offset width k : Nat}

theorem stringFrom_of_ends (h : Ends p xs offset width) :
    stringFrom p xs offset = stringIn p xs offset width := by
  obtain ⟨x, hx, hstop⟩ := h
  unfold stringFrom stringIn cells
  conv_lhs => rw [← List.take_append_drop width (xs.drop offset)]
  rw [List.takeWhile_append, if_neg]
  intro hlength
  have hall : stringIn p xs offset width = cells xs offset width :=
    (List.takeWhile_prefix p).eq_of_length hlength
  rw [← hall] at hx
  have hp : p x = true := List.all_eq_true.mp List.all_takeWhile x hx
  rw [hstop] at hp
  cases hp

/-- A string that fills its field goes on behind it. -/
theorem stringFrom_of_not_ends (h : ¬ Ends p xs offset width) :
    stringFrom p xs offset = cells xs offset width ++ stringFrom p xs (offset + width) := by
  have hall : ∀ x ∈ cells xs offset width, p x = true := fun x hx =>
    Bool.not_eq_false _ |>.mp fun hstop => h ⟨x, hx, hstop⟩
  calc stringFrom p xs offset
      = (cells xs offset width ++ (xs.drop offset).drop width).takeWhile p := by
        unfold cells
        rw [List.take_append_drop]
        rfl
    _ = cells xs offset width ++ stringFrom p xs (offset + width) := by
        rw [List.takeWhile_append_of_pos hall, List.drop_drop]
        rfl

theorem cells_append (h : offset + width ≤ xs.length) :
    cells (xs ++ ys) offset width = cells xs offset width := by
  unfold cells
  rw [List.drop_append_of_le_length (by omega), List.take_append_of_le_length]
  rw [List.length_drop]
  omega

/-- What follows a record does not matter to a string that ends in its field. -/
theorem stringFrom_append (h : offset + width ≤ xs.length) (hends : Ends p xs offset width) :
    stringFrom p (xs ++ ys) offset = stringIn p xs offset width := by
  have hcells : cells (xs ++ ys) offset width = cells xs offset width := cells_append h
  have hends' : Ends p (xs ++ ys) offset width := by
    unfold Ends
    rwa [hcells]
  rw [stringFrom_of_ends hends']
  unfold stringIn
  rw [hcells]

/-- A string is found where its cells are, and one behind them that ends it. -/
theorem stringFrom_eq_iff {s : List α} {z : α} (hs : ∀ x ∈ s, p x = true)
    (hz : ∀ x, p x = false ↔ x = z) (h : offset + (s.length + 1) ≤ xs.length) :
    stringFrom p xs offset = s ↔ cells xs offset (s.length + 1) = s ++ [z] := by
  unfold stringFrom cells
  have hlength : s.length + 1 ≤ (xs.drop offset).length := by
    rw [List.length_drop]
    omega
  generalize xs.drop offset = rest at hlength
  constructor
  · intro hstring
    have hsplit := List.takeWhile_append_dropWhile (p := p) (l := rest)
    rw [hstring] at hsplit
    cases hdrop : rest.dropWhile p with
    | nil =>
      rw [← hsplit, hdrop, List.length_append] at hlength
      exact absurd hlength (by simp)
    | cons x tail =>
      have hstop : p x = false := by
        have hhead := List.head_dropWhile_not p (l := rest) (by rw [hdrop]; exact List.cons_ne_nil _ _)
        simpa [hdrop] using hhead
      rw [← hsplit, hdrop, (hz x).mp hstop, List.take_append, List.take_of_length_le (Nat.le_succ _),
        Nat.add_sub_cancel_left]
      rfl
  · intro hcells
    have hsplit := List.take_append_drop (s.length + 1) rest
    rw [hcells, List.append_assoc] at hsplit
    rw [← hsplit, List.takeWhile_append_of_pos hs, List.singleton_append,
      List.takeWhile_cons_of_neg (by simp [(hz z).mpr rfl]), List.append_nil]

/-- A record that is made of its fields, one behind the other. -/
theorem cells_flatten (fields : List (List α)) (h : k < fields.length) :
    cells fields.flatten (fields.take k).flatten.length fields[k].length = fields[k] := by
  have hsplit : fields = fields.take k ++ fields[k] :: fields.drop (k + 1) := by
    rw [List.getElem_cons_drop, List.take_append_drop]
  have hflatten : fields.flatten = (fields.take k).flatten ++ (fields[k] ++ (fields.drop (k + 1)).flatten) := by
    conv_lhs => rw [hsplit]
    rw [List.flatten_append, List.flatten_cons]
  unfold cells
  rw [hflatten, List.drop_left, List.take_left]

section Padded

variable {s : List α} {z : α} {n : Nat}

/-- A field that holds a string and is filled up behind it. -/
theorem ends_of_padded (hz : p z = false) (hn : 0 < n) (h : cells xs offset width = s ++ List.replicate n z) :
    Ends p xs offset width := by
  refine ⟨z, ?_, hz⟩
  rw [h]
  exact List.mem_append_right _ (List.mem_replicate.mpr ⟨hn.ne', rfl⟩)

theorem stringIn_of_padded (hs : ∀ x ∈ s, p x = true) (hz : p z = false)
    (h : cells xs offset width = s ++ List.replicate n z) : stringIn p xs offset width = s := by
  unfold stringIn
  rw [h, List.takeWhile_append_of_pos hs]
  cases n with
  | zero => exact List.append_nil s
  | succ n => rw [List.replicate_succ, List.takeWhile_cons_of_neg (by simp [hz]), List.append_nil]

end Padded

section Patch

variable (h : k + ys.length ≤ xs.length)
include h

theorem length_patch : (patch xs k ys).length = xs.length := by
  unfold patch
  rw [List.length_append, List.length_append, List.length_take, List.length_drop]
  omega

theorem drop_patch_after (hoffset : k + ys.length ≤ offset) :
    (patch xs k ys).drop offset = xs.drop offset := by
  unfold patch
  rw [← List.append_assoc, List.drop_append, List.drop_eq_nil_of_le, List.nil_append, List.drop_drop]
  · congr 1
    rw [List.length_append, List.length_take]
    omega
  · rw [List.length_append, List.length_take]
    omega

theorem cells_patch_after (hoffset : k + ys.length ≤ offset) :
    cells (patch xs k ys) offset width = cells xs offset width := by
  unfold cells
  rw [drop_patch_after h hoffset]

theorem cells_patch_before (hoffset : offset + width ≤ k) :
    cells (patch xs k ys) offset width = cells xs offset width := by
  have hcut : xs = xs.take k ++ xs.drop k := (List.take_append_drop k xs).symm
  have hroom : offset + width ≤ (xs.take k).length := by
    rw [List.length_take]
    omega
  calc cells (patch xs k ys) offset width = cells (xs.take k) offset width := cells_append hroom
    _ = cells (xs.take k ++ xs.drop k) offset width := (cells_append hroom).symm
    _ = cells xs offset width := by rw [← hcut]

theorem drop_patch_self : (patch xs k ys).drop k = ys ++ xs.drop (k + ys.length) := by
  unfold patch
  rw [List.drop_left' (by rw [List.length_take]; omega)]

end Patch

end StringFields
