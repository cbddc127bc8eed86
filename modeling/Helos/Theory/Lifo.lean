import Mathlib.Data.List.Basic

/-!
# Bounded stacks

A stack of `n` places, as the list of its elements from the top on. A block of elements is pushed as a
whole, with its first element on top, and popped as a whole.
-/

namespace Lifo

variable {α : Type*}

inductive Call (α : Type*) where
  | pushOne (x : α)
  | popOne
  | topOne
  | push (xs : List α)
  | pop (k : Nat)
  | top (k : Nat)
  | clear

inductive Reply (α : Type*) where
  | done
  | one (x : α)
  | many (k : Nat) (xs : List α)

/-- Where there is nothing to give out, the answer is `empty`. -/
def step (n : Nat) (empty : α) (xs : List α) : Call α → List α × Reply α
  | .pushOne x => (if n ≤ xs.length then xs else x :: xs, .done)
  | .popOne => (xs.tail, .one (xs.headD empty))
  | .topOne => (xs, .one (xs.headD empty))
  | .push ys => (if n - xs.length < ys.length then xs else ys ++ xs, .done)
  | .pop k => if xs.length < k then (xs, .many 0 []) else (xs.drop k, .many k (xs.take k))
  | .top k => if xs.length < k then (xs, .many 0 []) else (xs, .many k (xs.take k))
  | .clear => ([], .done)

variable {n k : Nat} {empty : α} {xs ys : List α}

theorem step_pushOne_full (h : n ≤ xs.length) (x : α) : step n empty xs (.pushOne x) = (xs, .done) := by
  rw [step, if_pos h]

theorem step_pushOne_room (h : xs.length < n) (x : α) : step n empty xs (.pushOne x) = (x :: xs, .done) := by
  rw [step, if_neg (Nat.not_le.mpr h)]

theorem step_push_full (h : n - xs.length < ys.length) : step n empty xs (.push ys) = (xs, .done) := by
  rw [step, if_pos h]

theorem step_push_room (h : ys.length ≤ n - xs.length) : step n empty xs (.push ys) = (ys ++ xs, .done) := by
  rw [step, if_neg (Nat.not_lt.mpr h)]

theorem step_pop_short (h : xs.length < k) : step n empty xs (.pop k) = (xs, .many 0 []) := by
  rw [step, if_pos h]

theorem step_pop_enough (h : k ≤ xs.length) :
    step n empty xs (.pop k) = (xs.drop k, .many k (xs.take k)) := by
  rw [step, if_neg (Nat.not_lt.mpr h)]

theorem step_top_short (h : xs.length < k) : step n empty xs (.top k) = (xs, .many 0 []) := by
  rw [step, if_pos h]

theorem step_top_enough (h : k ≤ xs.length) : step n empty xs (.top k) = (xs, .many k (xs.take k)) := by
  rw [step, if_neg (Nat.not_lt.mpr h)]

end Lifo
