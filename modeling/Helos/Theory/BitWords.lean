import Mathlib.Data.List.Basic

/-!
# Sets packed into words

A set of numbers as the bits of a list of words of one width. Programs write a word at a time through
a mask; with the mask of one bit this adds, removes or tests one number, and with a mask of no bits
it does nothing.
-/

namespace BitWords

variable {w : Nat}

def test (words : List (BitVec w)) (i : Nat) (mask : BitVec w) : Bool :=
  words.getD i 0 &&& mask != 0

def set (words : List (BitVec w)) (i : Nat) (mask : BitVec w) : List (BitVec w) :=
  words.modify i (· ||| mask)

def clear (words : List (BitVec w)) (i : Nat) (mask : BitVec w) : List (BitVec w) :=
  words.modify i (· &&& ~~~mask)

def member (words : List (BitVec w)) (n : Nat) : Bool := (words.getD (n / w) 0).getLsbD (n % w)

@[simp] theorem length_set (words : List (BitVec w)) (i : Nat) (mask : BitVec w) :
    (set words i mask).length = words.length :=
  List.length_modify _ _ _

@[simp] theorem length_clear (words : List (BitVec w)) (i : Nat) (mask : BitVec w) :
    (clear words i mask).length = words.length :=
  List.length_modify _ _ _

@[simp] theorem test_zero (words : List (BitVec w)) (i : Nat) : test words i 0 = false := by
  simp [test]

@[simp] theorem set_zero (words : List (BitVec w)) (i : Nat) : set words i 0 = words := by
  unfold set
  rw [show (fun x : BitVec w => x ||| 0) = id from funext fun x => BitVec.or_zero, List.modify_id]

@[simp] theorem clear_zero (words : List (BitVec w)) (i : Nat) : clear words i 0 = words := by
  unfold clear
  rw [show (fun x : BitVec w => x &&& ~~~0) = id from funext fun x => by simp, List.modify_id]

theorem member_replicate_zero (k n : Nat) : member (List.replicate k (0 : BitVec w)) n = false := by
  unfold member
  rw [List.getD_eq_getElem?_getD, List.getElem?_replicate]
  split <;> simp

theorem getLsbD_bit {i j : Nat} (hi : i < w) : (1#w <<< j).getLsbD i = decide (i = j) := by
  rw [← BitVec.twoPow_eq, BitVec.getLsbD_twoPow]
  by_cases h : i = j
  · subst h
    simp [hi]
  · simp [h, Ne.symm h]

theorem and_bit_ne_zero (x : BitVec w) {j : Nat} (hj : j < w) :
    (x &&& 1#w <<< j != 0) = x.getLsbD j := by
  rw [Bool.eq_iff_iff, bne_iff_ne, ne_eq]
  constructor
  · intro h
    by_contra hbit
    apply h
    apply BitVec.eq_of_getLsbD_eq
    intro i hi
    have hzero : (0 : BitVec w).getLsbD i = false := BitVec.getLsbD_zero
    rw [BitVec.getLsbD_and, getLsbD_bit hi, hzero]
    by_cases hij : i = j
    · subst hij
      simpa using hbit
    · rw [decide_eq_false hij, Bool.and_false]
  · intro h hzero
    have hbit : (x &&& 1#w <<< j).getLsbD j = true := by
      rw [BitVec.getLsbD_and, getLsbD_bit hj, h]
      simp
    rw [hzero] at hbit
    exact absurd hbit (by simp)

section Bit

theorem eq_of_div_of_mod {m n : Nat} (hdiv : m / w = n / w) (hmod : m % w = n % w) : m = n :=
  calc
    m = w * (m / w) + m % w := (Nat.div_add_mod m w).symm
    _ = n := by rw [hdiv, hmod, Nat.div_add_mod]

variable {words : List (BitVec w)} {n : Nat}

/-- A change to the word of `n` seen at the bit of `m`. -/
theorem member_modify (hn : n / w < words.length) (f : BitVec w → BitVec w) (m : Nat) :
    member (words.modify (n / w) f) m =
      if m / w = n / w then (f (words.getD (n / w) 0)).getLsbD (m % w) else member words m := by
  unfold member
  rw [List.getD_eq_getElem?_getD, List.getElem?_modify]
  split
  · next h =>
    rw [if_pos h.symm, ← h, List.getD_eq_getElem?_getD, List.getElem?_eq_getElem (h ▸ hn)]
    rfl
  · next h => rw [if_neg (Ne.symm h), List.getD_eq_getElem?_getD, id_map']

variable (hw : 0 < w)
include hw

theorem test_bit (words : List (BitVec w)) (n : Nat) :
    test words (n / w) (1#w <<< (n % w)) = member words n :=
  and_bit_ne_zero _ (Nat.mod_lt n hw)

theorem member_set (hn : n / w < words.length) (m : Nat) :
    member (set words (n / w) (1#w <<< (n % w))) m = (decide (m = n) || member words m) := by
  rw [set, member_modify hn, BitVec.getLsbD_or, getLsbD_bit (Nat.mod_lt m hw)]
  split
  · next h =>
    have hiff : m % w = n % w ↔ m = n := ⟨eq_of_div_of_mod h, fun heq => heq ▸ rfl⟩
    rw [← h, Bool.or_comm, decide_eq_decide.mpr hiff, member]
  · next h => rw [decide_eq_false (fun heq : m = n => h (heq ▸ rfl)), Bool.false_or]

theorem member_clear (hn : n / w < words.length) (m : Nat) :
    member (clear words (n / w) (1#w <<< (n % w))) m = (!decide (m = n) && member words m) := by
  rw [clear, member_modify hn, BitVec.getLsbD_and, BitVec.getLsbD_not,
    getLsbD_bit (Nat.mod_lt m hw)]
  split
  · next h =>
    have hiff : m % w = n % w ↔ m = n := ⟨eq_of_div_of_mod h, fun heq => heq ▸ rfl⟩
    rw [← h, Bool.and_comm, decide_eq_decide.mpr hiff, decide_eq_true (Nat.mod_lt m hw),
      Bool.true_and, member]
  · next h =>
    rw [decide_eq_false (fun heq : m = n => h (heq ▸ rfl)), Bool.not_false, Bool.true_and]

end Bit

end BitWords
