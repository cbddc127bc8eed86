import Helos.Memory.Physical
import Mathlib.Tactic.Common

/-!
# What the bitmap operations do to single bits
-/

namespace Helos.Physical

def bit (bitmap : Nat → Word) (page : Nat) : Bool := (bitmap (page / bitmapBits)).getLsbD (page % bitmapBits)

theorem getLsbD_mask {n : Nat} (hn : n < 64) (i : Nat) :
    ((1#64 <<< n) - 1#64).getLsbD i = decide (i < n) := by
  have hpow : 2 ^ n < 2 ^ 64 := Nat.pow_lt_pow_right (by decide) hn
  have hpos : 0 < 2 ^ n := Nat.two_pow_pos n
  have hnat : ((1#64 <<< n) - 1#64).toNat = 2 ^ n - 1 := by
    rw [BitVec.toNat_sub, BitVec.toNat_shiftLeft]
    simp only [BitVec.toNat_ofNat, Nat.shiftLeft_eq, Nat.one_mod, Nat.one_mul]
    omega
  rw [← BitVec.testBit_toNat, hnat, Nat.testBit_two_pow_sub_one]

theorem getLsbD_fillBits {first last i : Nat} (hf : first < 64) (hl : last < 64) (hi : i < 64) :
    (fillBits first last).getLsbD i = decide (first ≤ i ∧ i ≤ last) := by
  unfold fillBits bitmapBits
  split
  · rw [BitVec.getLsbD_not, getLsbD_mask hf]
    simp only [hi, decide_true, Bool.true_and, ← decide_not, decide_eq_decide]
    omega
  · next hlast =>
    have hl' : last + 1 < 64 := by omega
    split
    · rw [getLsbD_mask hl', decide_eq_decide]
      omega
    · rw [BitVec.getLsbD_and, BitVec.getLsbD_not, getLsbD_mask hf, getLsbD_mask hl']
      simp only [hi, decide_true, Bool.true_and, ← decide_not, ← Bool.decide_and, decide_eq_decide]
      omega

theorem foldl_update_apply (l : List Nat) (bitmap : Nat → Word) (w : Word) (i : Nat) :
    l.foldl (fun b i => Function.update b i w) bitmap i = if i ∈ l then w else bitmap i := by
  induction l generalizing bitmap with
  | nil => simp
  | cons k l ih =>
    rw [List.foldl_cons, ih, Function.update_apply]
    by_cases hl : i ∈ l
    · simp [hl]
    · simp [hl]

theorem fillWords_apply (bitmap : Nat → Word) (first last : Nat) (w : Word) (i : Nat) :
    fillWords bitmap first last w i = if first ≤ i ∧ i < last then w else bitmap i := by
  unfold fillWords
  rw [foldl_update_apply]
  refine if_congr ?_ rfl rfl
  rw [List.mem_range'_1]
  omega

theorem getLsbD_not_fillBits {first last i : Nat} (hf : first < 64) (hl : last < 64)
    (hi : i < 64) : (~~~fillBits first last).getLsbD i = !decide (first ≤ i ∧ i ≤ last) := by
  rw [BitVec.getLsbD_not, getLsbD_fillBits hf hl hi]
  simp [hi]

theorem getLsbD_bitmapWriteZero (bitmap : Nat → Word) {first past : Nat} (h : first < past)
    (k : Nat) {i : Nat} (hi : i < 64) :
    (bitmapWriteZero bitmap first past k).getLsbD i =
      ((bitmap k).getLsbD i && !decide (first ≤ 64 * k + i ∧ 64 * k + i < past)) := by
  have hmod : ∀ n, n % 64 < 64 := fun n => Nat.mod_lt n (by decide)
  -- a masked word clears what its mask covers, and every other word is far from the range
  have hmask : ∀ a b, a < 64 → b < 64 →
      ((a ≤ i ∧ i ≤ b) ↔ (first ≤ 64 * k + i ∧ 64 * k + i < past)) →
      (bitmap k &&& ~~~fillBits a b).getLsbD i =
        ((bitmap k).getLsbD i && !decide (first ≤ 64 * k + i ∧ 64 * k + i < past)) := by
    intro a b ha hb hiff
    rw [BitVec.getLsbD_and, getLsbD_not_fillBits ha hb hi, decide_eq_decide.mpr hiff]
  have hkeep : ¬ (first ≤ 64 * k + i ∧ 64 * k + i < past) →
      (bitmap k).getLsbD i =
        ((bitmap k).getLsbD i && !decide (first ≤ 64 * k + i ∧ 64 * k + i < past)) := by
    intro hout
    simp [hout]
  unfold bitmapWriteZero bitmapBits
  simp only
  split
  · next hsame =>
    rw [Function.update_apply]
    split
    · next hk =>
      subst hk
      exact hmask _ _ (hmod _) (hmod _) (by omega)
    · next hk => exact hkeep (by omega)
  · next hdiff =>
    rw [fillWords_apply, Function.update_apply, Function.update_apply]
    split
    · next hmid =>
      have hin : first ≤ 64 * k + i ∧ 64 * k + i < past := by omega
      simp [hin]
    · next hmid =>
      split
      · next hk =>
        rw [if_neg (by omega), ← hk]
        exact hmask _ _ (by omega) (hmod _) (by omega)
      · next hk =>
        rw [Function.update_apply]
        split
        · next hk' =>
          subst hk'
          exact hmask _ _ (hmod _) (by omega) (by omega)
        · next hk' => exact hkeep (by omega)

/-- **Range clears are exact.** They clear the bits of the range and no other. -/
theorem bit_bitmapWriteZero (bitmap : Nat → Word) {first past : Nat} (h : first < past)
    (page : Nat) :
    bit (bitmapWriteZero bitmap first past) page =
      (bit bitmap page && !decide (first ≤ page ∧ page < past)) := by
  unfold bit bitmapBits
  rw [getLsbD_bitmapWriteZero bitmap h _ (Nat.mod_lt _ (by decide)), Nat.div_add_mod]

/-! ### Setting bits -/

theorem bit_setBit (bitmap : Nat → Word) {i j : Nat} (hj : j < 64) (page : Nat) :
    bit (Function.update bitmap i (bitmap i ||| (1#64 <<< j))) page =
      (bit bitmap page || decide (page = i * 64 + j)) := by
  unfold bit bitmapBits
  have hlt : page % 64 < 64 := Nat.mod_lt _ (by decide)
  rw [Function.update_apply]
  split
  · next hi =>
    rw [← hi, BitVec.getLsbD_or, BitVec.getLsbD_shiftLeft, BitVec.getLsbD_one]
    congr 1
    simp only [hlt, decide_true, Bool.true_and]
    by_cases h : page = page / 64 * 64 + j
    · have hji : page % 64 = j := by omega
      simp [hji, ← h]
    · have hji : page % 64 ≠ j := by omega
      rw [decide_eq_false h]
      by_cases hlt' : page % 64 < j
      · simp [hlt']
      · have hsub : page % 64 - j ≠ 0 := by omega
        simp [hsub]
  · next hi =>
    have hne : page ≠ i * 64 + j := by omega
    simp [hne]

theorem bit_fillWords_ones (bitmap : Nat → Word) (i page : Nat) :
    bit (fillWords bitmap i (i + 8) (~~~0#64)) page =
      (bit bitmap page || decide (i * 64 ≤ page ∧ page < i * 64 + 512)) := by
  unfold bit bitmapBits
  have hlt : page % 64 < 64 := Nat.mod_lt _ (by decide)
  rw [fillWords_apply]
  split
  · next h =>
    have hin : i * 64 ≤ page ∧ page < i * 64 + 512 := by omega
    rw [BitVec.getLsbD_not, decide_eq_true hlt]
    simp [hin]
  · next h =>
    have hout : ¬ (i * 64 ≤ page ∧ page < i * 64 + 512) := by omega
    simp [hout]

/-! ### The scans -/

theorem and_shiftLeft_one_eq_zero (w : Word) {j : Nat} (hj : j < 64) :
    w &&& (1#64 <<< j) = 0#64 ↔ w.getLsbD j = false := by
  constructor
  · intro h
    have hbit := congrArg (fun v : Word => v.getLsbD j) h
    simpa [hj] using hbit
  · intro h
    apply BitVec.eq_of_getLsbD_eq
    intro i hi
    rw [BitVec.getLsbD_and, BitVec.getLsbD_shiftLeft, BitVec.getLsbD_one]
    by_cases heq : i = j
    · simp [heq, h]
    · by_cases hlt : i < j
      · simp [hlt]
      · have hsub : i - j ≠ 0 := by omega
        simp [hsub]

theorem clearBit_eq_some {w : Word} {j : Nat} (h : clearBit w = some j) :
    j < 64 ∧ w.getLsbD j = false := by
  unfold clearBit bitmapBits at h
  have hj : j < 64 := List.mem_range.mp (List.mem_of_find?_eq_some h)
  have hclear := List.find?_some h
  rw [beq_iff_eq, and_shiftLeft_one_eq_zero w hj] at hclear
  exact ⟨hj, hclear⟩

/-- A scan only moves forward, and stops at a clear bit of a word it may look at. -/
theorem scan_spec {bitmap : Nat → Word} {left i k : Nat} {found : Option Nat}
    (h : scan bitmap left i = (k, found)) :
    i ≤ k ∧ ∀ j, found = some j → k < i + left ∧ j < 64 ∧ bit bitmap (k * 64 + j) = false := by
  induction left generalizing i with
  | zero =>
    cases h
    exact ⟨Nat.le_refl _, by simp⟩
  | succ left ih =>
    have hnext : scan bitmap left (i + 1) = (k, found) →
        i ≤ k ∧ ∀ j, found = some j →
          k < i + (left + 1) ∧ j < 64 ∧ bit bitmap (k * 64 + j) = false := by
      intro hrest
      obtain ⟨hle, hfound⟩ := ih hrest
      refine ⟨by omega, fun j hj => ?_⟩
      obtain ⟨hk, hj', hbit⟩ := hfound j hj
      exact ⟨by omega, hj', hbit⟩
    rw [scan] at h
    split at h
    · split at h
      · next j hclear =>
        cases h
        refine ⟨Nat.le_refl _, fun j' hj' => ?_⟩
        obtain rfl : j = j' := by simpa using hj'
        obtain ⟨hlt, hbit⟩ := clearBit_eq_some hclear
        refine ⟨by omega, hlt, ?_⟩
        unfold bit bitmapBits
        rw [show (k * 64 + j) / 64 = k by omega, show (k * 64 + j) % 64 = j by omega]
        exact hbit
      · exact hnext h
    · exact hnext h

theorem scan2M_spec {bitmap : Nat → Word} {past left i k : Nat} {found : Bool}
    (h : scan2M bitmap past left i = (k, found)) :
    i ≤ k ∧ (found = true → k < past ∧
      ∀ page, k * 64 ≤ page → page < k * 64 + 512 → bit bitmap page = false) := by
  induction left generalizing i with
  | zero =>
    cases h
    exact ⟨Nat.le_refl _, by simp⟩
  | succ left ih =>
    rw [scan2M] at h
    split at h
    · next hlt =>
      split at h
      · next hall =>
        cases h
        refine ⟨Nat.le_refl _, fun _ => ⟨hlt, fun page hlo hhi => ?_⟩⟩
        rw [List.all_eq_true] at hall
        have hword := hall (page / 64 - k) (List.mem_range.mpr (by omega))
        rw [beq_iff_eq, show k + (page / 64 - k) = page / 64 by omega] at hword
        simp [bit, bitmapBits, hword]
      · obtain ⟨hle, hfound⟩ := ih h
        exact ⟨by omega, hfound⟩
    · cases h
      exact ⟨Nat.le_refl _, by simp⟩

end Helos.Physical
