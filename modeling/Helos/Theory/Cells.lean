import Mathlib.Data.List.GetD
import Mathlib.Logic.Function.Basic
import Mathlib.Order.Interval.Set.Basic

/-!
# Cells by address

A memory is a function from addresses. `read` takes a run of cells out of it and `write` puts one in;
they see each other when the runs are the same and do not when they are apart. `stores` stores cells one
by one, at any addresses.
-/

namespace Cells

variable {β : Type*} {m : Nat → β} {a b n k i : Nat} {xs ys : List β}

def read (m : Nat → β) (a n : Nat) : List β := List.ofFn fun i : Fin n => m (a + i)

def write (m : Nat → β) (a : Nat) (xs : List β) : Nat → β := fun i =>
  if a ≤ i then xs.getD (i - a) (m i) else m i

@[simp] theorem length_read (m : Nat → β) (a n : Nat) : (read m a n).length = n := List.length_ofFn

theorem getElem_read (hi : i < (read m a n).length) : (read m a n)[i] = m (a + i) := by
  simp [read]

@[simp] theorem read_zero (m : Nat → β) (a : Nat) : read m a 0 = [] := rfl

theorem read_succ (m : Nat → β) (a n : Nat) : read m a (n + 1) = m a :: read m (a + 1) n := by
  unfold read
  rw [List.ofFn_succ]
  refine congrArg₂ _ rfl (congrArg _ (funext fun i => ?_))
  rw [Fin.val_succ, Nat.add_assoc, Nat.add_comm 1]

theorem read_congr {m' : Nat → β} (h : ∀ i, i < n → m (a + i) = m' (b + i)) :
    read m a n = read m' b n := by
  apply List.ext_getElem (by simp)
  intro i hi hi'
  rw [getElem_read, getElem_read]
  exact h i (by simpa using hi)

theorem read_getD (xs : List β) (x : β) : read (fun i => xs.getD i x) 0 xs.length = xs := by
  apply List.ext_getElem (by simp)
  intro i hi hi'
  rw [getElem_read, Nat.zero_add, List.getD_eq_getElem _ _ hi']

theorem read_add (m : Nat → β) (a n k : Nat) : read m a (n + k) = read m a n ++ read m (a + n) k := by
  apply List.ext_getElem (by simp)
  intro i hi hi'
  rw [getElem_read]
  by_cases hn : i < n
  · rw [List.getElem_append_left (by simpa using hn), getElem_read]
  · rw [List.getElem_append_right (by simpa using Nat.le_of_not_lt hn), getElem_read, length_read,
      Nat.add_assoc, Nat.add_sub_cancel' (Nat.le_of_not_lt hn)]

/-- A run of `k` blocks of `w` cells, block by block. -/
theorem read_mul (m : Nat → β) (a w k : Nat) :
    read m a (w * k) = ((List.range k).map fun j => read m (a + w * j) w).flatten := by
  induction k with
  | zero => simp
  | succ k ih =>
    rw [Nat.mul_succ, read_add, ih, List.range_succ, List.map_append, List.flatten_append]
    simp

theorem take_drop_read (m : Nat → β) (a : Nat) (h : k + i ≤ n) :
    ((read m a n).drop k).take i = read m (a + k) i := by
  apply List.ext_getElem (by simp; omega)
  intro j hj hj'
  rw [List.getElem_take, List.getElem_drop, getElem_read, getElem_read, Nat.add_assoc]

theorem write_apply_of_lt (h : i < a) : write m a xs i = m i := if_neg (Nat.not_le_of_lt h)

theorem write_apply_of_le (h : a + xs.length ≤ i) : write m a xs i = m i := by
  rw [write, if_pos (Nat.le_of_add_right_le h), List.getD_eq_getElem?_getD,
    List.getElem?_eq_none (Nat.le_sub_of_add_le' h), Option.getD_none]

theorem write_apply (hi : i < xs.length) : write m a xs (a + i) = xs[i] := by
  rw [write, if_pos (Nat.le_add_right a i), Nat.add_sub_cancel_left, List.getD_eq_getElem _ _ hi]

theorem write_apply_outside (h : i ∉ Set.Ico a (a + xs.length)) : write m a xs i = m i := by
  rcases Nat.lt_or_ge i a with hlt | hge
  · exact write_apply_of_lt hlt
  · exact write_apply_of_le (Nat.le_of_not_lt fun hlt => h ⟨hge, hlt⟩)

@[simp] theorem write_nil (m : Nat → β) (a : Nat) : write m a [] = m := by
  funext i
  exact write_apply_outside (by simp)

theorem read_write_apart (h : b + n ≤ a ∨ a + xs.length ≤ b) :
    read (write m a xs) b n = read m b n := by
  apply read_congr
  intro i hi
  rcases h with h | h
  · exact write_apply_of_lt (by omega)
  · exact write_apply_of_le (by omega)

/-- Reading inside what was written. -/
theorem read_write_within (m : Nat → β) (a : Nat) (xs : List β) (h : k + n ≤ xs.length) :
    read (write m a xs) (a + k) n = (xs.drop k).take n := by
  apply List.ext_getElem (by simp; omega)
  intro i hi hi'
  have hlt : k + i < xs.length := by
    rw [length_read] at hi
    omega
  rw [getElem_read, Nat.add_assoc, write_apply hlt, List.getElem_take, List.getElem_drop]

theorem read_write_same (m : Nat → β) (a : Nat) (xs : List β) :
    read (write m a xs) a xs.length = xs := by
  simpa using read_write_within m a xs (Nat.le_of_eq (Nat.zero_add xs.length))

/-! ### One cell after the other

Cells that are stored in turn, where a value may depend on what is in memory by then.
-/

def stores (m : Nat → β) (target : Nat → Nat) (value : Nat → (Nat → β) → β) : Nat → Nat → β
  | 0 => m
  | k + 1 =>
    Function.update (stores m target value k) (target k) (value k (stores m target value k))

section Stores

variable {target source : Nat → Nat} {value : Nat → (Nat → β) → β} {x : Nat}

theorem stores_outside (h : ∀ k < n, target k ≠ x) : stores m target value n x = m x := by
  induction n with
  | zero => rfl
  | succ n ih =>
    rw [stores, Function.update_of_ne (h n (Nat.lt_succ_self n)).symm]
    exact ih fun k hk => h k (Nat.lt_succ_of_lt hk)

/-- A cell keeps the value that is stored last. -/
theorem stores_at (hk : k < n) (hlast : ∀ j, k < j → j < n → target j ≠ target k) :
    stores m target value n (target k) = value k (stores m target value k) := by
  induction n with
  | zero => exact absurd hk (Nat.not_lt_zero k)
  | succ n ih =>
    rw [stores]
    rcases Nat.lt_succ_iff_lt_or_eq.mp hk with hlt | rfl
    · rw [Function.update_of_ne (hlast n hlt (Nat.lt_succ_self n)).symm]
      exact ih hlt fun j hj hjn => hlast j hj (Nat.lt_succ_of_lt hjn)
    · exact Function.update_self _ _ _

/-- A copy in which no cell is read after it was stored to. -/
theorem stores_copy (hk : k < n) (hlast : ∀ j, k < j → j < n → target j ≠ target k)
    (hread : ∀ j < k, target j ≠ source k) :
    stores m target (fun k m => m (source k)) n (target k) = m (source k) := by
  rw [stores_at hk hlast]
  exact stores_outside hread

/-- A copy that comes back to the first cell it stored takes the value from there. -/
theorem stores_copy_overtaken (hk : k < n) (hpos : 0 < k) (hback : source k = target 0)
    (hdistinct : ∀ i j, i < j → j < n → target j ≠ target i) :
    stores m target (fun k m => m (source k)) n (target k) = m (source 0) := by
  have hfirst : ∀ j, 0 < j → j < k → target j ≠ target 0 := fun j hj hjk =>
    hdistinct 0 j hj (hjk.trans hk)
  rw [stores_at hk fun j => hdistinct k j, hback, stores_at hpos hfirst]
  rfl

end Stores

end Cells
