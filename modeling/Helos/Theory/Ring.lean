import Helos.Theory.Refinement
import Mathlib.Data.List.Basic
import Mathlib.Data.Nat.ModEq

/-!
# Rings of cells and bounded queues

`Holds cells head xs` says that a list is laid out in a ring of cells from `head` on, around the end.
`Fifo` is what a ring is used for: a queue that takes an element, or a block of elements, only when
it has room, and gives out the oldest first.
-/

namespace Ring

variable {α : Type*}

structure Holds (cells : List α) (head : Nat) (xs : List α) : Prop where
  fits : xs.length ≤ cells.length
  cell : ∀ i (hi : i < xs.length), cells[(head + i) % cells.length]? = some xs[i]

/-- The index after `i`, written with a test as programs do. -/
def next (n i : Nat) : Nat := if i + 1 = n then 0 else i + 1

theorem next_eq_mod {n i : Nat} (hi : i < n) : next n i = (i + 1) % n := by
  unfold next
  split
  · next h => rw [h, Nat.mod_self]
  · next h => exact (Nat.mod_eq_of_lt (by omega)).symm

theorem next_lt {n i : Nat} (hi : i < n) : next n i < n :=
  next_eq_mod hi ▸ Nat.mod_lt _ (Nat.zero_lt_of_lt hi)

variable {cells : List α} {head : Nat} {x : α} {xs : List α}

theorem holds_nil (cells : List α) (head : Nat) : Holds cells head [] :=
  ⟨Nat.zero_le _, fun _ hi => absurd hi (Nat.not_lt_zero _)⟩

theorem index_injOn {n i j : Nat} (hi : i < n) (hj : j < n) (h : (head + i) % n = (head + j) % n) :
    i = j := by
  have hmod : i ≡ j [MOD n] := Nat.ModEq.add_left_cancel' head h
  exact Nat.ModEq.eq_of_lt_of_lt hmod hi hj

theorem Holds.push (h : Holds cells head xs) (hroom : xs.length < cells.length) (x : α) :
    Holds (cells.set ((head + xs.length) % cells.length) x) head (xs ++ [x]) := by
  have hlt : ∀ i, (head + i) % cells.length < cells.length := fun i =>
    Nat.mod_lt _ (Nat.zero_lt_of_lt hroom)
  refine ⟨by simpa using Nat.succ_le_of_lt hroom, fun i hi => ?_⟩
  rw [List.length_append, List.length_singleton] at hi
  rw [List.length_set]
  by_cases heq : i = xs.length
  · subst heq
    rw [List.getElem?_set_self (hlt _)]
    simp
  · have hi' : i < xs.length := by omega
    have hne : (head + xs.length) % cells.length ≠ (head + i) % cells.length := fun hindex =>
      heq (index_injOn (by omega) hroom hindex.symm)
    rw [List.getElem?_set_ne hne, h.cell i hi', List.getElem_append_left hi']

theorem Holds.front (h : Holds cells head (x :: xs)) : cells[head % cells.length]? = some x :=
  h.cell 0 (Nat.zero_lt_succ _)

theorem Holds.pop (h : Holds cells head (x :: xs)) : Holds cells ((head + 1) % cells.length) xs := by
  refine ⟨Nat.le_of_succ_le h.fits, fun i hi => ?_⟩
  have hcell := h.cell (i + 1) (Nat.succ_lt_succ hi)
  rw [Nat.mod_add_mod, Nat.add_assoc, Nat.add_comm 1 i]
  simpa using hcell

end Ring

namespace Fifo

variable {α : Type*}

inductive Call (α : Type*) where
  | pushOne (x : α)
  | popOne
  | push (xs : List α)
  | pop (n : Nat)
  | front

inductive Reply (α : Type*) where
  | done
  | one (x : α)
  | many (n : Nat) (xs : List α)

/-- A queue of `n` places. Where there is nothing to give out, the answer is `empty`. -/
def step (n : Nat) (empty : α) (xs : List α) : Call α → List α × Reply α
  | .pushOne x => (if xs.length = n then xs else xs ++ [x], .done)
  | .popOne => (xs.tail, .one (xs.headD empty))
  | .push ys => (if n - xs.length < ys.length then xs else xs ++ ys, .done)
  | .pop k => if xs.length < k then (xs, .many 0 []) else (xs.drop k, .many k (xs.take k))
  | .front => (xs, .one (xs.headD empty))

/-- What a call adds to the queue. -/
def accepted (n : Nat) (xs : List α) : Call α → List α
  | .pushOne x => if xs.length = n then [] else [x]
  | .push ys => if n - xs.length < ys.length then [] else ys
  | _ => []

/-- What a call takes out of the queue. -/
def taken (xs : List α) : Call α → List α
  | .popOne => xs.head?.toList
  | .pop k => if xs.length < k then [] else xs.take k
  | _ => []

def allAccepted (n : Nat) (empty : α) : List α → List (Call α) → List α
  | _, [] => []
  | xs, c :: calls => accepted n xs c ++ allAccepted n empty (step n empty xs c).1 calls

def allTaken (n : Nat) (empty : α) : List α → List (Call α) → List α
  | _, [] => []
  | xs, c :: calls => taken xs c ++ allTaken n empty (step n empty xs c).1 calls

theorem step_conserves (n : Nat) (empty : α) (xs : List α) (c : Call α) :
    xs ++ accepted n xs c = taken xs c ++ (step n empty xs c).1 := by
  cases c with
  | pushOne x =>
    simp only [accepted, taken, step]
    split <;> simp
  | popOne => cases xs <;> simp [accepted, taken, step]
  | push ys =>
    simp only [accepted, taken, step]
    split <;> simp
  | pop k =>
    simp only [accepted, taken, step]
    split <;> simp
  | front => simp [accepted, taken, step]

theorem run_conserves (n : Nat) (empty : α) (xs : List α) (calls : List (Call α)) :
    xs ++ allAccepted n empty xs calls =
      allTaken n empty xs calls ++ (Refinement.replies (step n empty) xs calls).1 := by
  induction calls generalizing xs with
  | nil => exact List.append_nil xs
  | cons c calls ih =>
    calc
      xs ++ allAccepted n empty xs (c :: calls) =
          (xs ++ accepted n xs c) ++ allAccepted n empty (step n empty xs c).1 calls :=
        (List.append_assoc ..).symm
      _ = taken xs c ++ ((step n empty xs c).1 ++ allAccepted n empty (step n empty xs c).1 calls) := by
        rw [step_conserves n empty, List.append_assoc]
      _ = allTaken n empty xs (c :: calls) ++
          (Refinement.replies (step n empty) xs (c :: calls)).1 := by
        rw [ih, allTaken, List.append_assoc, Refinement.replies_cons]

end Fifo
