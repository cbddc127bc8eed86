import Mathlib.Algebra.Group.Nat.Defs
import Mathlib.Data.List.Basic

/-!
# Little-endian numbers

A number as bytes, the low byte first. Numbers that agree modulo `256 ^ width` have the same bytes.
-/

namespace LittleEndian

def encode : Nat → Nat → List UInt8
  | 0, _ => []
  | width + 1, n => UInt8.ofNat n :: encode width (n / 256)

def decode : List UInt8 → Nat
  | [] => 0
  | b :: bytes => b.toNat + 256 * decode bytes

@[simp] theorem length_encode (width n : Nat) : (encode width n).length = width := by
  induction width generalizing n with
  | zero => rfl
  | succ width ih => rw [encode, List.length_cons, ih]

theorem decode_encode (width n : Nat) : decode (encode width n) = n % 256 ^ width := by
  induction width generalizing n with
  | zero => rw [Nat.pow_zero, Nat.mod_one, encode, decode]
  | succ width ih =>
    calc
      decode (encode (width + 1) n) = n % 256 + 256 * (n / 256 % 256 ^ width) := by
        rw [encode, decode, ih, UInt8.toNat_ofNat']
      _ = n % 256 ^ (width + 1) := by
        rw [Nat.pow_succ', Nat.mod_mul]

theorem encode_decode (bytes : List UInt8) : encode bytes.length (decode bytes) = bytes := by
  induction bytes with
  | nil => rfl
  | cons b bytes ih =>
    have hlow : (b.toNat + 256 * decode bytes) % 256 = b.toNat := by
      rw [Nat.add_mul_mod_self_left, Nat.mod_eq_of_lt b.toNat_lt]
    have hhigh : (b.toNat + 256 * decode bytes) / 256 = decode bytes := by
      rw [Nat.add_mul_div_left _ _ (by decide), Nat.div_eq_of_lt b.toNat_lt, Nat.zero_add]
    have hbyte : UInt8.ofNat (b.toNat + 256 * decode bytes) = b := by
      apply UInt8.toNat_inj.mp
      rw [UInt8.toNat_ofNat']
      exact hlow
    rw [List.length_cons, decode, encode, hhigh, ih, hbyte]

theorem decode_append (bytes bytes' : List UInt8) :
    decode (bytes ++ bytes') = decode bytes + 256 ^ bytes.length * decode bytes' := by
  induction bytes with
  | nil => simp [decode]
  | cons b bytes ih =>
    rw [List.cons_append, decode, decode, ih, List.length_cons, Nat.pow_succ', Nat.mul_add, Nat.mul_assoc,
      Nat.add_assoc]

theorem decode_lt (bytes : List UInt8) : decode bytes < 256 ^ bytes.length := by
  rw [← encode_decode bytes, decode_encode, length_encode]
  exact Nat.mod_lt _ (Nat.pow_pos (by decide))

theorem encode_congr {width n k : Nat} (h : n % 256 ^ width = k % 256 ^ width) :
    encode width n = encode width k := by
  have hdecode : decode (encode width n) = decode (encode width k) := by
    rw [decode_encode, decode_encode, h]
  calc
    encode width n = encode (encode width n).length (decode (encode width n)) :=
      (encode_decode _).symm
    _ = encode width k := by
      rw [hdecode, length_encode]
      simpa using encode_decode (encode width k)

end LittleEndian
