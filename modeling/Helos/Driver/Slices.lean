import Helos.Driver.BlockDevice
import Helos.Theory.Refinement
import Mathlib.Algebra.Group.Nat.Defs
import Mathlib.Order.Interval.Set.LinearOrder

/-!
# What slices reach

A slice moves a call by its offset and leaves the bounds to the device under it, which knows only its
own size. Calls that go past the end of the slice reach the blocks behind it. As long as no call does,
slices over disjoint ranges do not see each other.
-/

namespace Helos.Block

variable {σ β : Type} {root dev : BlockDevice σ β} {view : σ → Nat → β}

/-- A slice of a device, at any depth. -/
structure SliceOf (root : BlockDevice σ β) where
  dev : BlockDevice σ β
  base : Nat
  cnt : UInt64
  isSlice : IsSlice root dev base cnt

def SliceOf.range (slice : SliceOf root) : Set Nat :=
  Set.Ico slice.base (slice.base + slice.cnt.toNat)

section Confinement

variable {κ : Type} [DecidableEq κ]

/-- A call on one of the slices. -/
def stepOf (slices : κ → SliceOf root) (s : σ) (call : κ × Call β) : σ × Reply β :=
  (slices call.1).dev.step s call.2

/-- Every call accesses blocks of its slice only, and a slice that is disjoint from the others gives
the same replies as if the others were not there. -/
structure Confined (slices : κ → SliceOf root) (s : σ) (calls : List (κ × Call β)) : Prop where
  within : ∀ pre k c post, calls = pre ++ (k, c) :: post →
    (stepOf slices (Refinement.replies (stepOf slices) s pre).1 (k, c)).2.accessed ⊆
      (slices k).range
  apart : ∀ k, (∀ j, j ≠ k → Disjoint (slices j).range (slices k).range) →
    Refinement.observed k calls (Refinement.replies (stepOf slices) s calls).2 =
      (Refinement.replies (stepOf slices) s (calls.filter fun c => c.1 = k)).2

end Confinement

/-- The call is for no blocks; or it does not wrap around and is for blocks behind the device, or does
not pass the end of the slice, or the slice ends where the device does. -/
def Inside (slice : SliceOf root) (c : Call β) : Prop :=
  c.count = 0 ∨
    slice.base + c.offset.toNat < 2 ^ 64 ∧
      (root.size.toNat ≤ slice.base + c.offset.toNat ∨
        c.offset.toNat + c.count.toNat ≤ slice.cnt.toNat ∨
        slice.base + slice.cnt.toNat = root.size.toNat)

/-! ### One call -/

/-- The call that reaches the device. -/
def Call.shift (base : Nat) : Call β → Call β
  | read offset count => read (offset + UInt64.ofNat base) count
  | write offset count data => write (offset + UInt64.ofNat base) count data

theorem Call.offset_shift (base : Nat) (c : Call β) :
    (c.shift base).offset = c.offset + UInt64.ofNat base := by
  cases c <;> rfl

theorem Call.count_shift (base : Nat) (c : Call β) : (c.shift base).count = c.count := by
  cases c <;> rfl

theorem step_slice (off cnt : UInt64) (s : σ) (c : Call β) :
    (dev.slice off cnt).step s c = dev.step s (c.shift off.toNat) := by
  cases c <;> simp [BlockDevice.step, BlockDevice.slice, Call.shift]

theorem Call.shift_shift (a b : Nat) (c : Call β) : (c.shift a).shift b = c.shift (b + a) := by
  cases c <;> simp only [shift, UInt64.ofNat_add, UInt64.add_assoc,
    UInt64.add_comm (UInt64.ofNat a)]

theorem IsSlice.size_eq {base : Nat} {size : UInt64} (h : IsSlice root dev base size) :
    dev.size = size := by
  cases h <;> rfl

theorem IsSlice.fits {base : Nat} {size : UInt64} (h : IsSlice root dev base size) :
    base + size.toNat ≤ root.size.toNat := by
  induction h with
  | slice off cnt h => exact h
  | nest off cnt hdev hle ih =>
    rw [hdev.size_eq] at hle
    omega

theorem IsSlice.step {base : Nat} {size : UInt64} (h : IsSlice root dev base size) (s : σ)
    (c : Call β) : dev.step s c = root.step s (c.shift base) := by
  induction h generalizing c with
  | slice off cnt h => exact step_slice off cnt s c
  | nest off cnt hdev hle ih => rw [step_slice, ih, Call.shift_shift]

theorem IsArray.accessed (h : IsArray root view) (s : σ) (c : Call β) :
    (root.step s c).2.accessed = c.blocks root.size := by
  cases c with
  | read offset count => exact congrArg Reply.accessed (h.readBlock s offset count)
  | write offset count data => exact congrArg Reply.accessed (h.writeBlock s offset data count)

theorem ico_subset_iff {p k b l : Nat} :
    Set.Ico p (p + k) ⊆ Set.Ico b (b + l) ↔ k = 0 ∨ b ≤ p ∧ p + k ≤ b + l := by
  by_cases hk : k = 0
  · simp [hk]
  · rw [Set.Ico_subset_Ico_iff (Nat.lt_add_of_pos_right (Nat.pos_of_ne_zero hk)), or_iff_right hk]

/-- Which calls stay inside, in numbers. The sum of the offsets is taken modulo `2 ^ 64`. -/
theorem inside_iff {n o b l c : Nat} (hn : n < 2 ^ 64) (ho : o < 2 ^ 64) (hfits : b + l ≤ n) :
    transferred n ((o + b) % 2 ^ 64) c = 0 ∨ b ≤ (o + b) % 2 ^ 64 ∧
        (o + b) % 2 ^ 64 + transferred n ((o + b) % 2 ^ 64) c ≤ b + l ↔
      c = 0 ∨ b + o < 2 ^ 64 ∧ (n ≤ b + o ∨ o + c ≤ l ∨ b + l = n) := by
  unfold transferred
  rcases Nat.lt_or_ge (o + b) (2 ^ 64) with hlt | hge
  · rw [Nat.mod_eq_of_lt hlt]
    split <;> omega
  · have hmod : (o + b) % 2 ^ 64 = o + b - 2 ^ 64 := by omega
    rw [hmod]
    split <;> omega

/-- A call through a slice stays inside the slice. -/
theorem blocks_shift_subset_iff (slice : SliceOf root) (c : Call β) :
    (c.shift slice.base).blocks root.size ⊆ slice.range ↔ Inside slice c := by
  have hfits := slice.isSlice.fits
  have hsize := root.size.toNat_lt
  have hcount : c.count = 0 ↔ c.count.toNat = 0 := UInt64.toNat_inj.symm
  have hbase : (UInt64.ofNat slice.base).toNat = slice.base :=
    UInt64.toNat_ofNat_of_lt' (Nat.lt_of_le_of_lt (Nat.le_of_add_right_le hfits) hsize)
  have hshift : (c.offset + UInt64.ofNat slice.base).toNat =
      (c.offset.toNat + slice.base) % 2 ^ 64 := by
    rw [UInt64.toNat_add, hbase]
  unfold Call.blocks Call.transferred SliceOf.range Inside
  rw [Call.offset_shift, Call.count_shift, hshift, hcount, ico_subset_iff]
  exact inside_iff hsize c.offset.toNat_lt hfits

/-! ### Sequences of calls -/

section Sequence

variable {κ : Type} [DecidableEq κ] (h : IsArray root view) (slices : κ → SliceOf root)
include h

omit [DecidableEq κ] in
theorem stepOf_accessed (s : σ) (k : κ) (c : Call β) :
    (stepOf slices s (k, c)).2.accessed = (c.shift (slices k).base).blocks root.size := by
  rw [stepOf, (slices k).isSlice.step, h.accessed]

/-- The same call in two states that agree on the slice. -/
theorem IsArray.step_congr {s t : σ} {c : Call β} {range : Set Nat}
    (hst : ∀ i ∈ range, view s i = view t i) (hc : c.blocks root.size ⊆ range) :
    (root.step s c).2 = (root.step t c).2 ∧
      ∀ i ∈ range, view (root.step s c).1 i = view (root.step t c).1 i := by
  cases c with
  | read offset count =>
    refine ⟨?_, hst⟩
    have hdata : Cells.read (view s) offset.toNat ((Call.read offset count : Call β).transferred
        root.size) = Cells.read (view t) offset.toNat ((Call.read offset count : Call β).transferred
        root.size) :=
      Cells.read_congr fun i hi => hst _ (hc ⟨Nat.le_add_right _ _, Nat.add_lt_add_left hi _⟩)
    simp only [BlockDevice.step, h.readBlock, hdata]
  | write offset count data =>
    refine ⟨?_, fun i hi => ?_⟩
    · simp only [BlockDevice.step, h.writeBlock]
    · simp only [BlockDevice.step, h.view, Cells.write, hst i hi]

/-- A call outside the slice. -/
theorem IsArray.step_apart {s : σ} {c : Call β} {range : Set Nat}
    (hc : Disjoint (c.blocks root.size) range) {i : Nat} (hi : i ∈ range) :
    view (root.step s c).1 i = view s i := by
  cases c with
  | read offset count => rfl
  | write offset count data =>
    simp only [BlockDevice.step, h.view]
    apply Cells.write_apply_outside
    intro hmem
    rw [Cells.length_read] at hmem
    exact Set.disjoint_left.mp hc hmem hi

theorem confined_of_inside (s : σ) {calls : List (κ × Call β)}
    (hcalls : ∀ c ∈ calls, Inside (slices c.1) c.2) : Confined slices s calls := by
  have hwithin : ∀ kc : κ × Call β, Inside (slices kc.1) kc.2 →
      (kc.2.shift (slices kc.1).base).blocks root.size ⊆ (slices kc.1).range :=
    fun kc hkc => (blocks_shift_subset_iff _ _).mpr hkc
  refine ⟨?_, fun k hapart => ?_⟩
  · rintro pre k c post rfl
    rw [stepOf_accessed h]
    exact hwithin (k, c) (hcalls _ (by simp))
  · refine Refinement.observed_replies (R := fun s t => ∀ i ∈ (slices k).range, view s i = view t i)
      (P := fun kc => Inside (slices kc.1) kc.2) k (fun s t c hst hc => ?_)
      (fun s t j c hst hj hc i hi => ?_) (fun i _ => rfl) hcalls
    · simp only [stepOf, (slices k).isSlice.step]
      exact h.step_congr hst (hwithin (k, c) hc)
    · simp only [stepOf, (slices j).isSlice.step]
      exact (h.step_apart ((hapart j hj).mono_left (hwithin (j, c) hc)) hi).trans (hst i hi)

end Sequence

/-- The calls that slices confine are the ones that stay inside. -/
theorem confined_iff (h : IsArray root view) {κ : Type} [DecidableEq κ] (slices : κ → SliceOf root)
    (s : σ) (calls : List (κ × Call β)) :
    Confined slices s calls ↔ ∀ c ∈ calls, Inside (slices c.1) c.2 := by
  refine ⟨fun hconfined kc hkc => ?_, confined_of_inside h slices s⟩
  obtain ⟨pre, post, rfl⟩ := List.append_of_mem hkc
  have hwithin := hconfined.within pre kc.1 kc.2 post rfl
  rw [stepOf_accessed h] at hwithin
  exact (blocks_shift_subset_iff _ _).mp hwithin

/-- The two halves of a device of eight blocks, and the second half of the second one. -/
def halves : Fin 3 → SliceOf (arrayDevice (β := Nat) 512 8)
  | 0 => ⟨_, _, _, .slice 0 4 (by decide)⟩
  | 1 => ⟨_, _, _, .slice 4 4 (by decide)⟩
  | 2 => ⟨_, _, _, .nest 2 2 (.slice 4 4 (by decide)) (by decide)⟩

theorem halves_confined :
    Confined halves (fun _ => 0)
      [(0, .write 1 3 id), (1, .read 0 9), (2, .write 1 7 id), (0, .read 9 1)] :=
  (confined_iff (arrayDevice_isArray 512 8) halves _ _).mpr (by
    simp only [List.forall_mem_cons, Inside, Call.offset, Call.count]
    decide)

/-- The first half reads a block of the second. -/
theorem first_half_not_confined : ¬ Confined halves (fun _ => 0) [(0, .read 4 1)] := by
  intro h
  have hwithin := h.within [] 0 (.read 4 1) [] rfl
  have hmem : (4 : Nat) ∈ (halves 0).range := hwithin ⟨Nat.le_refl 4, Nat.lt_succ_self 4⟩
  exact absurd hmem.2 (by decide)

end Helos.Block
