import Mathlib.Data.List.Basic
import Mathlib.Tactic.Common

/-!
# Scanning records

A reader takes the record at a position and says where the next one begins, or it stops. A scan gathers
records from a position on, with fuel. It returns what is laid out there; and it returns if a measure
of the positions it reaches goes up below a bound.
-/

namespace Scan

variable {ι α : Type*} (read : ι → Option (α × ι))

def scan : Nat → ι → List α → Option (List α)
  | 0, _, _ => none
  | fuel + 1, i, xs =>
    match read i with
    | none => some xs
    | some (x, j) => scan fuel j (xs ++ [x])

/-- The records from a position on, up to where the reader stops. -/
inductive Records : ι → List α → Prop where
  | stop {i : ι} (hread : read i = none) : Records i []
  | record {i j : ι} {x : α} {xs : List α} (hread : read i = some (x, j)) (hrest : Records j xs) :
    Records i (x :: xs)

inductive Reaches (start : ι) : ι → Prop where
  | start : Reaches start start
  | next {i j : ι} {x : α} (hreach : Reaches start i) (hread : read i = some (x, j)) : Reaches start j

variable {read} {i j start : ι} {x : α} {xs acc : List α}

theorem scan_stop (hread : read i = none) (fuel : Nat) : scan read (fuel + 1) i acc = some acc := by
  rw [scan, hread]

theorem scan_record (hread : read i = some (x, j)) (fuel : Nat) :
    scan read (fuel + 1) i acc = scan read fuel j (acc ++ [x]) := by
  rw [scan, hread]

theorem Records.scan (h : Records read i xs) :
    Scan.scan read (xs.length + 1) i acc = some (acc ++ xs) := by
  induction h generalizing acc with
  | stop hread => rw [scan_stop hread, List.append_nil]
  | record hread hrest ih => rw [List.length_cons, scan_record hread, ih, List.append_assoc,
      List.singleton_append]

/-- A reader that stays where it is keeps the scan from ending. -/
theorem scan_stalls (hread : read i = some (x, i)) (fuel : Nat) (acc : List α) :
    scan read fuel i acc = none := by
  induction fuel generalizing acc with
  | zero => rfl
  | succ fuel ih => rw [scan_record hread, ih]

theorem Reaches.invariant {I : ι → Prop} (hstart : I start)
    (hnext : ∀ i x j, I i → Reaches read start i → read i = some (x, j) → I j)
    (h : Reaches read start i) : I i := by
  induction h with
  | start => exact hstart
  | next hreach hread ih => exact hnext _ _ _ ih hreach hread

/-- Positions that go up below a bound come to an end. -/
theorem exists_records (μ : ι → Nat) (bound : Nat)
    (hup : ∀ i x j, Reaches read start i → read i = some (x, j) → μ i < μ j ∧ μ i < bound) :
    ∃ xs, Records read start xs := by
  have hfrom (n : Nat) : ∀ i, Reaches read start i → bound - μ i ≤ n → ∃ xs, Records read i xs := by
    induction n with
    | zero =>
      intro i hi hn
      cases hread : read i with
      | none => exact ⟨[], .stop hread⟩
      | some entry =>
        have hlt := (hup i entry.1 entry.2 hi hread).2
        omega
    | succ n ih =>
      intro i hi hn
      cases hread : read i with
      | none => exact ⟨[], .stop hread⟩
      | some entry =>
        obtain ⟨hlt, hbound⟩ := hup i entry.1 entry.2 hi hread
        obtain ⟨xs, hxs⟩ := ih entry.2 (.next hi hread) (by omega)
        exact ⟨entry.1 :: xs, .record hread hxs⟩
  exact hfrom (bound - μ start) start .start (Nat.le_refl _)

end Scan
