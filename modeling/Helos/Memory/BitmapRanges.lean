import Helos.Memory.PagingInit

/-!
# Range writes on the bitmap

`paging_physical_BitmapWriteOne` does to the complement of the bitmap what `paging_physical_BitmapWriteZero`
does to the bitmap, so what is known of clearing a range is known of setting it.
`paging_physical_FreeFrame` passes page numbers that may not fit: it frees the pages that they are narrowed
to, when these are in the bitmap.
-/

namespace Helos.Physical

/-- `paging_physical_Bitmap[i] |= w`. A write outside of the bitmap is undefined. -/
def setWord (bitmap : Nat → Word) (i : Int) (w : Word) : Option (Nat → Word) :=
  if 0 ≤ i ∧ i < bitmapWords then
    some (Function.update bitmap i.toNat (bitmap i.toNat ||| w))
  else none

/-- `paging_physical_BitmapWriteOne` of any `int`s. The words of the loop lie between the two. -/
def bitmapWriteOneInt (bitmap : Nat → Word) (first past : Int) : Option (Nat → Word) := do
  let whereBegin := first.tdiv bitmapBits
  let whereLast := (past - 1).tdiv bitmapBits
  if whereBegin = whereLast then
    let w ← fillBitsInt (first.tmod bitmapBits) ((past - 1).tmod bitmapBits)
    setWord bitmap whereBegin w
  else
    let w ← fillBitsInt (first.tmod bitmapBits) (bitmapBits - 1)
    let bitmap ← setWord bitmap whereBegin w
    let w ← fillBitsInt 0 ((past - 1).tmod bitmapBits)
    let bitmap ← setWord bitmap whereLast w
    return fillWords bitmap (whereBegin + 1).toNat whereLast.toNat (~~~0#64)

def complement (bitmap : Nat → Word) : Nat → Word := fun i => ~~~bitmap i

theorem complement_update (bitmap : Nat → Word) (i : Nat) (w : Word) :
    complement (Function.update bitmap i w) = Function.update (complement bitmap) i (~~~w) := by
  funext k
  unfold complement
  rw [Function.update_apply, Function.update_apply]
  split <;> rfl

theorem complement_fillWords (bitmap : Nat → Word) (first last : Nat) (w : Word) :
    complement (fillWords bitmap first last w) = fillWords (complement bitmap) first last (~~~w) := by
  funext k
  rw [fillWords_apply]
  unfold complement
  rw [fillWords_apply]
  split <;> rfl

theorem complement_complement (bitmap : Nat → Word) : complement (complement bitmap) = bitmap :=
  funext fun _ => BitVec.not_not

theorem setWord_complement (bitmap : Nat → Word) (i : Int) (w : Word) :
    setWord (complement bitmap) i w = (clearWord bitmap i w).map complement := by
  unfold setWord clearWord
  split
  · rw [Option.map_some, complement_update]
    unfold complement
    rw [BitVec.not_and, BitVec.not_not]
  · rfl

/-- Bits that are cleared in the bitmap are set in its complement. -/
theorem bitmapWriteOneInt_complement (bitmap : Nat → Word) (first past : Int) :
    bitmapWriteOneInt (complement bitmap) first past =
      (bitmapWriteZeroInt bitmap first past).map complement := by
  unfold bitmapWriteOneInt bitmapWriteZeroInt
  simp only [Option.bind_eq_bind]
  split
  · cases fillBitsInt (first.tmod bitmapBits) ((past - 1).tmod bitmapBits) with
    | none => rfl
    | some w => exact setWord_complement bitmap _ w
  · cases fillBitsInt (first.tmod bitmapBits) (bitmapBits - 1) with
    | none => rfl
    | some low =>
      rw [Option.bind_some, Option.bind_some, setWord_complement]
      cases clearWord bitmap (first.tdiv bitmapBits) low with
      | none => rfl
      | some b =>
        rw [Option.map_some, Option.bind_some, Option.bind_some]
        cases fillBitsInt 0 ((past - 1).tmod bitmapBits) with
        | none => rfl
        | some high =>
          rw [Option.bind_some, Option.bind_some, setWord_complement]
          cases clearWord b ((past - 1).tdiv bitmapBits) high with
          | none => rfl
          | some b' => exact congrArg some (complement_fillWords b' _ _ 0#64).symm

theorem bitmapWriteOne_complement (bitmap : Nat → Word) (first past : Nat) :
    bitmapWriteOne (complement bitmap) first past = complement (bitmapWriteZero bitmap first past) := by
  have hmask (b : Nat → Word) (i : Nat) (w : Word) :
      complement (Function.update b i (b i &&& ~~~w)) =
        Function.update (complement b) i (complement b i ||| w) := by
    rw [complement_update, BitVec.not_and, BitVec.not_not]
    rfl
  unfold bitmapWriteOne bitmapWriteZero
  simp only
  split
  · exact (hmask bitmap _ _).symm
  · rw [complement_fillWords, hmask, hmask]

/-! ### Exactness -/

theorem bitmapWriteOneInt_eq (bitmap : Nat → Word) {first past : Nat} (h : first < past)
    (hpast : past ≤ maxSystemMemoryPages) :
    bitmapWriteOneInt bitmap first past = some (bitmapWriteOne bitmap first past) := by
  have hcleared := bitmapWriteZeroInt_eq (complement bitmap) h hpast
  have hfilled := bitmapWriteOneInt_complement (complement bitmap) first past
  rw [hcleared, Option.map_some, ← bitmapWriteOne_complement, complement_complement] at hfilled
  exact hfilled

theorem bit_complement (bitmap : Nat → Word) (page : Nat) :
    bit (complement bitmap) page = !bit bitmap page := by
  have hlt : page % bitmapBits < 64 := Nat.mod_lt page (by decide)
  unfold bit complement
  rw [BitVec.getLsbD_not, decide_eq_true hlt, Bool.true_and]

theorem bit_bitmapWriteOne (bitmap : Nat → Word) {first past : Nat} (h : first < past) (page : Nat) :
    bit (bitmapWriteOne bitmap first past) page =
      (bit bitmap page || decide (first ≤ page ∧ page < past)) := by
  have hcleared := bit_bitmapWriteZero (complement bitmap) h page
  rw [← complement_complement bitmap, bitmapWriteOne_complement, bit_complement, hcleared,
    bit_complement (complement bitmap), Bool.not_and, Bool.not_not]

/-- **Range writes are exact.** Inside of the bitmap both functions are defined and write the bits of the
range and no other. -/
theorem rangeWrites_exact (bitmap : Nat → Word) {first past : Int} (hfirst : 0 ≤ first) (h : first < past)
    (hpast : past ≤ maxSystemMemoryPages) :
    (∃ cleared, bitmapWriteZeroInt bitmap first past = some cleared ∧
      ∀ page : Nat, bit cleared page = (bit bitmap page && !decide (first ≤ page ∧ page < past))) ∧
    ∃ filled, bitmapWriteOneInt bitmap first past = some filled ∧
      ∀ page : Nat, bit filled page = (bit bitmap page || decide (first ≤ page ∧ page < past)) := by
  obtain ⟨first, rfl⟩ := Int.eq_ofNat_of_zero_le hfirst
  obtain ⟨past, rfl⟩ := Int.eq_ofNat_of_zero_le (hfirst.trans h.le)
  have hlt : first < past := Int.ofNat_lt.mp h
  have hend : past ≤ maxSystemMemoryPages := Int.ofNat_le.mp hpast
  have hrange (page : Nat) : decide ((first : Int) ≤ page ∧ (page : Int) < past) =
      decide (first ≤ page ∧ page < past) := decide_eq_decide.mpr (by omega)
  constructor
  · refine ⟨_, bitmapWriteZeroInt_eq bitmap hlt hend, fun page => ?_⟩
    rw [hrange, bit_bitmapWriteZero bitmap hlt]
  · refine ⟨_, bitmapWriteOneInt_eq bitmap hlt hend, fun page => ?_⟩
    rw [hrange, bit_bitmapWriteOne bitmap hlt]

/-- A range from the last bit of a word to the first bit of another. -/
theorem rangeWrites_exact_four_words :
    (∃ cleared, bitmapWriteZeroInt (fun _ => 0xaaaa#64) 63 193 = some cleared ∧
      ∀ page : Nat, bit cleared page =
        (bit (fun _ => 0xaaaa#64) page && !decide (63 ≤ (page : Int) ∧ (page : Int) < 193))) ∧
    ∃ filled, bitmapWriteOneInt (fun _ => 0xaaaa#64) 63 193 = some filled ∧
      ∀ page : Nat, bit filled page =
        (bit (fun _ => 0xaaaa#64) page || decide (63 ≤ (page : Int) ∧ (page : Int) < 193)) :=
  rangeWrites_exact _ (by decide) (by decide) (by decide)

/-! ### `paging_physical_FreeFrame` -/

/-- `paging_physical_FreeFrame` of any frame. The page numbers are narrowed to `int`. -/
def freeFrameInt (p : Physical) (frame pageCount : Nat) : Option Physical :=
  if frame % systemPageSize ≠ 0 then some p
  else
    (bitmapWriteZeroInt p.bitmap (toInt (frame / systemPageSize))
      (toInt (wrap64 (frame / systemPageSize + pageCount)))).map fun bitmap => { p with bitmap }

/-- The pages of some frames, as the call numbers them, are pages of the bitmap. -/
structure InBitmap (frame pageCount : Nat) : Prop where
  first : 0 ≤ toInt (frame / systemPageSize)
  past : toInt (frame / systemPageSize) + pageCount ≤ maxSystemMemoryPages

section FreeFrame

variable {p : Physical} {frame pageCount : Nat}

theorem toInt_past (hframe : frame < 2 ^ 64) (hcount : pageCount ≤ 2 ^ 18)
    (h : toInt (frame / systemPageSize) < maxSystemMemoryPages)
    (h' : 0 ≤ toInt (frame / systemPageSize)) :
    toInt (wrap64 (frame / systemPageSize + pageCount)) =
      toInt (frame / systemPageSize) + pageCount := by
  have hpages : maxSystemMemoryPages = 16777216 := rfl
  unfold systemPageSize at h h' ⊢
  rw [wrap64_of_lt (by omega)]
  unfold toInt at h h' ⊢
  split at h' <;> split <;> omega

/-- A call that stays in the bitmap frees the pages that it has numbered. -/
theorem freeFrameInt_eq (halign : frame % systemPageSize = 0) (hframe : frame < 2 ^ 64)
    (hpos : 0 < pageCount) (hcount : pageCount ≤ 2 ^ 18) (h : InBitmap frame pageCount) :
    p.freeFrameInt frame pageCount =
      some (p.freeFrame ((toInt (frame / systemPageSize)).toNat * systemPageSize) pageCount) := by
  obtain ⟨page, hpage⟩ := Int.eq_ofNat_of_zero_le h.first
  have hpast := h.past
  rw [hpage] at hpast
  have hlt : toInt (frame / systemPageSize) < maxSystemMemoryPages := by omega
  unfold freeFrameInt freeFrame
  rw [if_neg (not_not.mpr halign), toInt_past hframe hcount hlt h.first, hpage, Int.toNat_natCast,
    Nat.mul_mod_left, if_neg (not_not.mpr rfl), Nat.mul_div_cancel _ (by decide)]
  have hwritten := bitmapWriteZeroInt_eq p.bitmap (Nat.lt_add_of_pos_right (n := page) hpos)
    (Int.ofNat_le.mp hpast)
  rw [Nat.cast_add] at hwritten
  rw [hwritten]
  rfl

theorem inBitmap_of_freeFrameInt {p' : Physical} (halign : frame % systemPageSize = 0)
    (hframe : frame < 2 ^ 64) (hcount : pageCount ≤ 2 ^ 18)
    (h : p.freeFrameInt frame pageCount = some p') : InBitmap frame pageCount := by
  unfold freeFrameInt at h
  rw [if_neg (not_not.mpr halign)] at h
  obtain ⟨bitmap, hwritten, -⟩ := Option.map_eq_some_iff.mp h
  obtain ⟨hfirst, hlt⟩ := first_lt_of_bitmapWriteZeroInt hwritten
  have hpast := last_lt_of_bitmapWriteZeroInt hwritten
  rw [toInt_past hframe hcount hlt hfirst] at hpast
  exact ⟨hfirst, hpast⟩

/-- For frames below 64 GiB nothing is narrowed, and `freeFrame` is the same. -/
theorem freeFrameInt_of_le (hpos : 0 < pageCount) (hcount : pageCount ≤ 2 ^ 18)
    (hend : frame / systemPageSize + pageCount ≤ maxSystemMemoryPages) :
    p.freeFrameInt frame pageCount = some (p.freeFrame frame pageCount) := by
  have hpages : maxSystemMemoryPages = 16777216 := rfl
  by_cases halign : frame % systemPageSize = 0
  · have hpage : toInt (frame / systemPageSize) = (frame / systemPageSize : Nat) :=
      toInt_of_lt (by omega)
    have hsmall : frame < 2 ^ 64 := by
      unfold systemPageSize at hend
      omega
    have hinside : InBitmap frame pageCount :=
      ⟨hpage ▸ Int.natCast_nonneg _, hpage ▸ Int.ofNat_le.mpr hend⟩
    rw [freeFrameInt_eq halign hsmall hpos hcount hinside, hpage, Int.toNat_natCast,
      Nat.div_mul_cancel (Nat.dvd_of_mod_eq_zero halign)]
  · exact (if_pos halign).trans (congrArg some (if_pos halign).symm)

end FreeFrame

end Helos.Physical
