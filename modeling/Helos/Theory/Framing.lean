import Helos.Theory.Ring
import Mathlib.Algebra.BigOperators.Group.List.Basic

/-!
# Blocks of one width in a queue of their elements

When all that is pushed and popped are blocks of one width, a queue with room for `n` blocks is a
queue of `n` places for what the blocks encode: a block goes in whole or not at all, and comes out as
it went in.
-/

/-- Every value is encoded in a block of the same width. -/
structure Framing (α β : Type*) where
  encode : α → List β
  width : Nat
  pos : 0 < width
  length_encode : ∀ a, (encode a).length = width

namespace Framing

variable {α β : Type*} (F : Framing α β)

def frames (xs : List α) : List β := xs.flatMap F.encode

@[simp] theorem frames_nil : F.frames [] = [] := rfl

@[simp] theorem frames_cons (a : α) (xs : List α) :
    F.frames (a :: xs) = F.encode a ++ F.frames xs :=
  List.flatMap_cons

@[simp] theorem frames_append (xs ys : List α) : F.frames (xs ++ ys) = F.frames xs ++ F.frames ys :=
  List.flatMap_append

theorem length_frames (xs : List α) : (F.frames xs).length = F.width * xs.length := by
  induction xs with
  | nil => rfl
  | cons a xs ih => rw [frames_cons, List.length_append, F.length_encode, ih, List.length_cons,
      Nat.mul_succ, Nat.add_comm]

variable {n : Nat}

theorem no_room_iff (xs : List α) :
    F.width * n - (F.frames xs).length < F.width ↔ n ≤ xs.length := by
  rw [F.length_frames, ← Nat.mul_sub]
  constructor
  · intro h
    have hlt : n - xs.length < 1 := Nat.lt_of_mul_lt_mul_left (h.trans_eq (Nat.mul_one _).symm)
    omega
  · intro h
    rw [Nat.sub_eq_zero_of_le h, Nat.mul_zero]
    exact F.pos

theorem step_push (empty : β) (a : α) (xs : List α) :
    Fifo.step (F.width * n) empty (F.frames xs) (.push (F.encode a)) =
      (F.frames (if xs.length < n then xs ++ [a] else xs), .done) := by
  have hroom := F.no_room_iff (n := n) xs
  simp only [Fifo.step, F.length_encode]
  by_cases h : xs.length < n
  · rw [if_neg (hroom.not.mpr (Nat.not_le.mpr h)), if_pos h]
    simp
  · rw [if_pos (hroom.mpr (Nat.not_lt.mp h)), if_neg h]

theorem step_pop_cons (empty : β) (a : α) (xs : List α) :
    Fifo.step (F.width * n) empty (F.frames (a :: xs)) (.pop F.width) =
      (F.frames xs, .many F.width (F.encode a)) := by
  have henough : ¬ (F.frames (a :: xs)).length < F.width := by
    rw [F.length_frames, List.length_cons, Nat.mul_succ]
    omega
  simp only [Fifo.step]
  rw [if_neg henough, frames_cons, List.drop_left' (F.length_encode a),
    List.take_left' (F.length_encode a)]

end Framing
