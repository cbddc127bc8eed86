import Helos.Util.Tree
import Mathlib.Data.Nat.Bitwise
import Mathlib.Tactic.Common

/-!
# Kernel mapping addresses

`memory_AllocateKernelMapping` of `memory/memory.h` moves the bottom of the kernel mapping range
down by the size asked for, and then down to the alignment.
-/

namespace Helos

/-- `KERNEL_MISC_MAPPING`, where the static mappings begin and the range ends. -/
def kernelMiscMapping : Nat := 0xFFFFFFFEC0000000

/-- `memory_AllocateKernelMapping`: the new `memory_KernelMappingBottom`, which it returns. -/
def allocateKernelMapping (bottom size align : Nat) : Nat :=
  wrap64 (bottom + (2 ^ 64 - size)) &&& (2 ^ 64 - 1 - (align - 1))

/-- An unsigned number converted to `int`. -/
def toInt (n : Nat) : Int :=
  if n % 2 ^ 32 < 2 ^ 31 then (n % 2 ^ 32 : Nat) else (n % 2 ^ 32 : Nat) - 2 ^ 32

theorem toInt_bounds (n : Nat) : -2 ^ 31 ≤ toInt n ∧ toInt n < 2 ^ 31 := by
  unfold toInt
  split <;> omega

theorem toInt_le (n : Nat) : toInt n ≤ n := by
  unfold toInt
  split <;> omega

theorem toInt_of_lt {n : Nat} (h : n < 2 ^ 31) : toInt n = n := by
  unfold toInt
  split <;> omega

theorem toInt_congr {n m : Nat} (h : m % 2 ^ 32 = n % 2 ^ 32) : toInt m = toInt n := by
  unfold toInt
  rw [h]

theorem wrap64_of_lt {n : Nat} (h : n < 2 ^ 64) : wrap64 n = n := Nat.mod_eq_of_lt h

theorem wrap64_lt (n : Nat) : wrap64 n < 2 ^ 64 := Nat.mod_lt n (by decide)

theorem and_not_mask {n k : Nat} (hn : n < 2 ^ 64) (hk : k ≤ 64) :
    n &&& (2 ^ 64 - 1 - (2 ^ k - 1)) = n - n % 2 ^ k := by
  have hpow : 2 ^ k ≤ 2 ^ 64 := Nat.pow_le_pow_right (by decide) hk
  have hmask : 2 ^ 64 - 1 - (2 ^ k - 1) = 2 ^ 64 - ((2 ^ k - 1) + 1) := by
    have hpos := Nat.two_pow_pos k
    omega
  have hround : n - n % 2 ^ k = 2 ^ k * (n / 2 ^ k) := by
    have hdiv := Nat.div_add_mod n (2 ^ k)
    omega
  rw [hmask, hround]
  apply Nat.eq_of_testBit_eq
  intro i
  have hlt : 2 ^ k - 1 < 2 ^ 64 := by
    have hpos := Nat.two_pow_pos k
    omega
  rw [Nat.testBit_and, Nat.testBit_two_pow_sub_succ hlt, Nat.testBit_two_pow_sub_one,
    Nat.testBit_two_pow_mul, Nat.testBit_div_two_pow]
  by_cases hi : i < 64
  · by_cases hik : i < k
    · have hnot : ¬ k ≤ i := by omega
      simp [hik, hnot]
    · have hki : k ≤ i := by omega
      simp [hi, hik, hki]
  · have hzero : n.testBit i = false :=
      Nat.testBit_lt_two_pow (Nat.lt_of_lt_of_le hn (Nat.pow_le_pow_right (by decide) (by omega)))
    by_cases hki : k ≤ i
    · simp [hi, hki, hzero]
    · simp [hi, hki]

/-- A region that fits starts at the last aligned address that leaves it room. -/
theorem allocateKernelMapping_eq {bottom size k : Nat} (hbottom : bottom < 2 ^ 64)
    (hsize : size ≤ bottom) (hk : k ≤ 64) :
    allocateKernelMapping bottom size (2 ^ k) = bottom - size - (bottom - size) % 2 ^ k := by
  have hwrap : wrap64 (bottom + (2 ^ 64 - size)) = bottom - size := by
    unfold wrap64
    omega
  unfold allocateKernelMapping
  rw [hwrap, and_not_mask (by omega) hk]

theorem allocateKernelMapping_of_lt {bottom size k : Nat} (hsize : bottom < size)
    (hsize' : size ≤ 2 ^ 64) (hk : k ≤ 64) :
    allocateKernelMapping bottom size (2 ^ k) =
      bottom + (2 ^ 64 - size) - (bottom + (2 ^ 64 - size)) % 2 ^ k := by
  have hwrap : wrap64 (bottom + (2 ^ 64 - size)) = bottom + (2 ^ 64 - size) :=
    wrap64_of_lt (by omega)
  unfold allocateKernelMapping
  rw [hwrap, and_not_mask (by omega) hk]

end Helos
