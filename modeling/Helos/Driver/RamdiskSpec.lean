import Helos.Driver.Ramdisk

/-!
# The ramdisk as an array of blocks

A call whose offset is inside the device does what it should. `blockcount - offset` wraps around when
the offset is past the end, and such a call copies from or to memory that is not the device's.
-/

namespace Helos.Ramdisk

variable {d : Ramdisk} {m : Nat → UInt8} {offset count : UInt64} {c : Call} {calls : List Call}

/-! ### Arithmetic -/

theorem clamp_toNat (h : offset ≤ d.blockcount) :
    (d.clamp offset count).toNat = min count.toNat (d.blockcount.toNat - offset.toNat) := by
  have hsub : (d.blockcount - offset).toNat = d.blockcount.toNat - offset.toNat :=
    UInt64.toNat_sub_of_le _ _ h
  unfold clamp
  split
  · next hgt =>
    rw [gt_iff_lt, UInt64.lt_iff_toNat_lt, hsub] at hgt
    rw [hsub, Nat.min_eq_right (Nat.le_of_lt hgt)]
  · next hle =>
    rw [gt_iff_lt, UInt64.lt_iff_toNat_lt, hsub] at hle
    rw [Nat.min_eq_left (Nat.le_of_not_lt hle)]

theorem clamp_eq_transferred (h : c.offset ≤ d.blockcount) :
    (d.clamp c.offset c.count).toNat = c.transferred d := by
  rw [clamp_toNat h, Call.transferred, Block.transferred, if_pos (UInt64.le_iff_toNat_le.mp h)]

/-- Past the end, the difference wraps around and is at least one. -/
theorem clamp_pos (h : ¬ offset ≤ d.blockcount) (hcount : count ≠ 0) :
    0 < (d.clamp offset count).toNat := by
  unfold clamp
  split
  · have hlt : d.blockcount.toNat < offset.toNat :=
      Nat.lt_of_not_le fun hle => h (UInt64.le_iff_toNat_le.mpr hle)
    have hoffset := offset.toNat_lt
    rw [UInt64.toNat_sub]
    omega
  · rw [Nat.pos_iff_ne_zero]
    exact fun hzero => hcount (UInt64.toNat_inj.mp hzero)

theorem transferred_le (h : c.offset ≤ d.blockcount) :
    c.offset.toNat + c.transferred d ≤ d.blockcount.toNat := by
  have hle := UInt64.le_iff_toNat_le.mp h
  rw [Call.transferred, Block.transferred, if_pos hle]
  omega

theorem length_eq (h : c.offset ≤ d.blockcount) :
    (d.blocksize * d.clamp c.offset c.count).toNat = d.blocksize.toNat * c.transferred d := by
  have hle : d.blocksize.toNat * c.transferred d ≤ d.blocksize.toNat * d.blockcount.toNat :=
    Nat.mul_le_mul_left _ (Nat.le_of_add_left_le (transferred_le h))
  have hfits := d.fits
  rw [UInt64.toNat_mul, clamp_eq_transferred h]
  exact Nat.mod_eq_of_lt (by omega)

theorem address_eq (h : offset ≤ d.blockcount) :
    d.address offset = d.buffer + d.blocksize.toNat * offset.toNat := by
  have hle : d.blocksize.toNat * offset.toNat ≤ d.blocksize.toNat * d.blockcount.toNat :=
    Nat.mul_le_mul_left _ (UInt64.le_iff_toNat_le.mp h)
  have hfits := d.fits
  have hmul : (d.blocksize * offset).toNat = d.blocksize.toNat * offset.toNat :=
    (UInt64.toNat_mul _ _).trans (Nat.mod_eq_of_lt (by omega))
  rw [address, hmul]
  exact Nat.mod_eq_of_lt (by omega)

/-! ### A call inside the device -/

theorem step_count (hread : d.perm.read = true) (hwrite : d.perm.write = true) :
    (d.step m c).2.count = d.clamp c.offset c.count := by
  cases c <;> simp [step, readBlock, writeBlock, hread, hwrite, Call.offset, Call.count]

theorem step_address (hread : d.perm.read = true) (hwrite : d.perm.write = true) :
    (d.step m c).2.address = d.address c.offset := by
  cases c <;> simp [step, readBlock, writeBlock, hread, hwrite, Call.offset]

theorem step_length (hread : d.perm.read = true) (hwrite : d.perm.write = true) :
    (d.step m c).2.length = (d.blocksize * d.clamp c.offset c.count).toNat := by
  cases c <;> simp [step, readBlock, writeBlock, hread, hwrite, Call.offset, Call.count]

theorem step_inside (hread : d.perm.read = true) (hwrite : d.perm.write = true)
    (h : c.offset ≤ d.blockcount) :
    Set.Ico (d.step m c).2.address ((d.step m c).2.address + (d.step m c).2.length) ⊆ d.region := by
  have hle : d.blocksize.toNat * (c.offset.toNat + c.transferred d) ≤
      d.blocksize.toNat * d.blockcount.toNat := Nat.mul_le_mul_left _ (transferred_le h)
  rw [step_address hread hwrite, step_length hread hwrite, address_eq h, length_eq h]
  rw [Nat.mul_add] at hle
  exact Set.Ico_subset_Ico (Nat.le_add_right _ _) (by omega)

/-- A read copies the blocks that are in memory. -/
theorem step_data (hread : d.perm.read = true) (h : offset ≤ d.blockcount) :
    (d.step m (.read offset count)).2.data =
      ((List.range ((Call.read offset count).transferred d)).map fun j =>
        d.block m (offset.toNat + j)).flatten := by
  have hlength := length_eq (c := .read offset count) h
  simp only [Call.offset, Call.count] at hlength
  simp only [step, readBlock, hread, not_true_eq_false, if_false, hlength, address_eq h]
  rw [Cells.read_mul]
  simp only [block, Nat.mul_add, Nat.add_assoc]

theorem step_write (hwrite : d.perm.write = true) (h : offset ≤ d.blockcount)
    (data : Nat → UInt8) :
    (d.step m (.write offset count data)).1 =
      Cells.write m (d.buffer + d.blocksize.toNat * offset.toNat)
        (Cells.read data 0 (d.blocksize.toNat *
          (Call.write offset count data).transferred d)) := by
  have hlength := length_eq (c := .write offset count data) h
  simp only [Call.offset, Call.count] at hlength
  simp only [step, writeBlock, hwrite, not_true_eq_false, if_false, hlength, address_eq h]

/-- A write changes the blocks it is for. -/
theorem block_write (m data : Nat → UInt8) (o k i : Nat) :
    d.block (Cells.write m (d.buffer + d.blocksize.toNat * o)
        (Cells.read data 0 (d.blocksize.toNat * k))) i =
      if o ≤ i ∧ i < o + k then
        Cells.read data (d.blocksize.toNat * (i - o)) d.blocksize.toNat
      else d.block m i := by
  unfold block
  split
  · next h =>
    obtain ⟨j, rfl⟩ := Nat.exists_eq_add_of_le h.1
    have hj : j < k := by omega
    have hle : d.blocksize.toNat * (j + 1) ≤ d.blocksize.toNat * k := Nat.mul_le_mul_left _ hj
    have hwithin : d.blocksize.toNat * j + d.blocksize.toNat ≤ d.blocksize.toNat * k := by
      rwa [Nat.mul_succ] at hle
    calc
      Cells.read _ (d.buffer + d.blocksize.toNat * (o + j)) d.blocksize.toNat =
          ((Cells.read data 0 (d.blocksize.toNat * k)).drop (d.blocksize.toNat * j)).take
            d.blocksize.toNat := by
        rw [Nat.mul_add, ← Nat.add_assoc]
        exact Cells.read_write_within m _ _ (by rwa [Cells.length_read])
      _ = Cells.read data (d.blocksize.toNat * (o + j - o)) d.blocksize.toNat := by
        rw [Cells.take_drop_read data 0 hwithin, Nat.zero_add, Nat.add_sub_cancel_left]
  · next h =>
    refine Cells.read_write_apart ?_
    rw [Cells.length_read]
    rcases Nat.lt_or_ge i o with hlt | hge
    · have hle : d.blocksize.toNat * (i + 1) ≤ d.blocksize.toNat * o := Nat.mul_le_mul_left _ hlt
      rw [Nat.mul_succ] at hle
      exact .inl (by omega)
    · have hle : d.blocksize.toNat * (o + k) ≤ d.blocksize.toNat * i :=
        Nat.mul_le_mul_left _ (Nat.le_of_not_lt fun hlt => h ⟨hge, hlt⟩)
      rw [Nat.mul_add] at hle
      exact .inr (by omega)

/-! ### A call for no blocks -/

theorem clamp_zero (offset : UInt64) : d.clamp offset 0 = 0 := by
  unfold clamp
  split
  · next hgt => exact absurd hgt (Nat.not_lt_zero _)
  · rfl

theorem transferred_zero (h : c.count = 0) : c.transferred d = 0 := by
  rw [Call.transferred, Block.transferred, h]
  split <;> simp

theorem length_zero (h : c.count = 0) : (d.blocksize * d.clamp c.offset c.count).toNat = 0 := by
  rw [h, clamp_zero, UInt64.mul_zero]
  rfl

/-! ### Sequences of calls -/

/-- The calls that the clamping is right for. -/
def Call.Clamped (d : Ramdisk) (c : Call) : Prop := c.offset ≤ d.blockcount ∨ c.count = 0

theorem clamp_of_clamped (h : c.Clamped d) :
    (d.clamp c.offset c.count).toNat = c.transferred d := by
  rcases h with h | h
  · exact clamp_eq_transferred h
  · rw [transferred_zero h, h, clamp_zero]
    rfl

/-- A call of another kind returns a number other than it should. -/
theorem clamp_of_not_clamped (h : ¬ c.Clamped d) :
    (d.clamp c.offset c.count).toNat ≠ c.transferred d := by
  rw [Call.Clamped, not_or] at h
  have hpos := clamp_pos h.1 h.2
  have hzero : c.transferred d = 0 :=
    if_neg fun hle => h.1 (UInt64.le_iff_toNat_le.mpr hle)
  omega

section Sequence

variable (hread : d.perm.read = true) (hwrite : d.perm.write = true)

include hwrite in
theorem step_block (h : c.Clamped d) (i : Nat) :
    d.block (d.step m c).1 i = (c.written d i).getD (d.block m i) := by
  cases c with
  | read offset count => rfl
  | write offset count data =>
    rcases h with h | h
    · have hle : offset ≤ d.blockcount := h
      rw [step_write hwrite hle, block_write, Call.written]
      split
      · rfl
      · rfl
    · have hlength := length_zero h (d := d)
      simp only [Call.offset, Call.count] at hlength
      rw [Call.written, transferred_zero h, if_neg (by omega), Option.getD_none]
      simp only [step, writeBlock, hwrite, not_true_eq_false, if_false, hlength, Cells.read_zero,
        Cells.write_nil]

include hwrite in
theorem after_block (h : ∀ c ∈ calls, c.Clamped d) (m : Nat → UInt8) (i : Nat) :
    d.block (d.after m calls) i = d.latest m calls i := by
  induction calls using List.reverseRecOn with
  | nil => rfl
  | append_singleton calls c ih =>
    rw [List.forall_mem_append] at h
    rw [after, Refinement.replies_concat, step_block hwrite (h.2 c List.mem_cons_self), latest,
      Refinement.latest_concat]
    exact congrArg _ (ih h.1)

include hread hwrite in
theorem step_inside_of_clamped (h : c.Clamped d) :
    Set.Ico (d.step m c).2.address ((d.step m c).2.address + (d.step m c).2.length) ⊆ d.region := by
  rcases h with h | h
  · exact step_inside hread hwrite h
  · rw [step_length hread hwrite, length_zero h, Nat.add_zero, Set.Ico_self]
    exact Set.empty_subset _

include hread hwrite in
/-- Only the bytes that `memcpy` is given change. -/
theorem step_outside (h : c.Clamped d) {a : Nat} (ha : a ∉ d.region) :
    (d.step m c).1 a = m a := by
  have hinside := step_inside_of_clamped (m := m) hread hwrite h
  cases c with
  | read offset count => rfl
  | write offset count data =>
    simp only [step, writeBlock, hwrite, not_true_eq_false, if_false] at hinside ⊢
    refine Cells.write_apply_outside fun hmem => ha (hinside ?_)
    rwa [Cells.length_read] at hmem

include hread hwrite in
theorem after_outside (h : ∀ c ∈ calls, c.Clamped d) (m : Nat → UInt8) {a : Nat}
    (ha : a ∉ d.region) : d.after m calls a = m a := by
  induction calls using List.reverseRecOn with
  | nil => rfl
  | append_singleton calls c ih =>
    rw [List.forall_mem_append] at h
    rw [after, Refinement.replies_concat,
      step_outside hread hwrite (h.2 c List.mem_cons_self) ha]
    exact ih h.1

include hread in
theorem step_expected (hc : c.Clamped d)
    (hblock : ∀ i, d.block (d.after m calls) i = d.latest m calls i) :
    (d.step (d.after m calls) c).2.data = d.expected m calls c := by
  cases c with
  | read offset count =>
    rcases hc with hc | hc
    · have hle : offset ≤ d.blockcount := hc
      rw [step_data hread hle, expected]
      simp only [hblock]
    · have hlength := length_zero hc (d := d)
      simp only [Call.offset, Call.count] at hlength
      rw [expected, transferred_zero hc]
      simp [step, readBlock, hread, hlength]
  | write offset count data =>
    rw [expected]
    simp only [step, writeBlock]
    split <;> rfl

end Sequence

/-- The device serves exactly the sequences of calls that are for no blocks or start inside it. -/
theorem serves_iff (hread : d.perm.read = true) (hwrite : d.perm.write = true) (m : Nat → UInt8)
    (calls : List Call) :
    Serves d m calls ↔ ∀ c ∈ calls, c.offset ≤ d.blockcount ∨ c.count = 0 := by
  constructor
  · intro h c hc
    obtain ⟨pre, post, rfl⟩ := List.append_of_mem hc
    have hcount := h.count pre c post rfl
    rw [step_count hread hwrite] at hcount
    by_contra hclamped
    exact clamp_of_not_clamped hclamped hcount
  · intro h
    have hpre : ∀ pre c post, calls = pre ++ c :: post →
        (∀ c ∈ pre, c.Clamped d) ∧ c.Clamped d := by
      rintro pre c post rfl
      rw [List.forall_mem_append, List.forall_mem_cons] at h
      exact ⟨h.1, h.2.1⟩
    refine ⟨fun pre c post heq => ?_, fun pre c post heq => ?_, fun pre c post heq => ?_,
      fun a ha => after_outside hread hwrite h m ha⟩
    · rw [step_count hread hwrite, clamp_of_clamped (hpre pre c post heq).2]
    · exact step_expected hread (hpre pre c post heq).2
        (after_block hwrite (hpre pre c post heq).1 m)
    · exact step_inside_of_clamped hread hwrite (hpre pre c post heq).2

/-- Two blocks of four bytes. -/
def twoBlocks : Ramdisk :=
  { blocksize := 4, blockcount := 2, buffer := 0x1000, perm := ⟨true, true, false⟩, fits := by decide }

theorem serves_two_blocks :
    Serves twoBlocks (fun _ => 0) [.write 1 9 fun i => UInt8.ofNat i, .read 0 2, .read 7 0] :=
  (serves_iff rfl rfl _ _).mpr (by
    simp only [List.forall_mem_cons, Call.offset, Call.count]
    decide)

/-- One block behind the end. -/
theorem past_end_not_served : ¬ Serves twoBlocks (fun _ => 0) [.read 3 1] := by
  intro h
  have hcount := h.count [] (.read 3 1) [] rfl
  exact absurd hcount (by decide)

end Helos.Ramdisk
