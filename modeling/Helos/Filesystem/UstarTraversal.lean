import Helos.Filesystem.UstarPaths
import Helos.Theory.Scan
import Mathlib.Data.List.Induction
import Mathlib.Tactic.IntervalCases
import Mathlib.Tactic.NormNum

/-!
# Traversal of an archive

The loop of `USTAR::Allocator::AllocateBlock`, as a scan for the headers of members. Its index is an
`int` that a count of 64 bits is added to: where the sizes are right it goes from header to header,
and a size that is not may leave it where it is.
-/

namespace Helos.Ustar

open Filesystem StringFields

/-- The test on magic and version. -/
def IsHeader (buf : List UInt8) : Prop :=
  UstarMetadata.magic buf = ustarMagic ∧ UstarMetadata.version buf = ustarVersion

instance (buf : List UInt8) : Decidable (IsHeader buf) := inferInstanceAs (Decidable (_ ∧ _))

/-- A turn of the loop that does not leave it: the file, and the next index. -/
def readMember (block : BlockDevice) (behind : Nat → CString) (i : Int) : Option (UstarFile × Int) :=
  let buf := readBuffer block behind (asUnsigned i)
  if asUnsigned i < block.size ∧ IsHeader buf then
    let file := readHeader buf (asUnsigned i)
    some (file, nextHeader i file.size)
  else none

section Scan

variable {block : BlockDevice} {behind : Nat → CString} {fuel : Nat} {i : Int}
  {files : List UstarFile} {file : UstarFile} {j : Int}

theorem readMember_eq_some (h : readMember block behind i = some (file, j)) :
    asUnsigned i < block.size ∧ IsHeader (readBuffer block behind (asUnsigned i)) ∧
      file = readHeader (readBuffer block behind (asUnsigned i)) (asUnsigned i) ∧
      j = nextHeader i file.size := by
  obtain ⟨⟨hlt, hheader⟩, hentry⟩ := Option.ite_none_right_eq_some.mp h
  obtain ⟨hfile, hj⟩ := Prod.mk.inj (Option.some.inj hentry)
  exact ⟨hlt, hheader, hfile.symm, hj ▸ hfile ▸ rfl⟩

theorem not_isHeader_iff {buf : List UInt8} : ¬ IsHeader buf ↔
    UstarMetadata.magic buf ≠ ustarMagic ∨ UstarMetadata.version buf ≠ ustarVersion := not_and_or

theorem allocateFrom_record (h : readMember block behind i = some (file, j)) :
    allocateFrom block behind (fuel + 1) i files =
      allocateFrom block behind fuel j (files ++ [file]) := by
  obtain ⟨hlt, hheader, rfl, rfl⟩ := readMember_eq_some h
  have htest := not_isHeader_iff.not.mp (not_not.mpr hheader)
  simp only [allocateFrom, if_pos hlt, if_neg htest]

theorem allocateFrom_stop (h : readMember block behind i = none)
    (hzero : i = 0 → block.size = 0 ∨ IsHeader (readBuffer block behind 0)) :
    allocateFrom block behind (fuel + 1) i files = some (some files) := by
  rw [allocateFrom]
  split
  · next hlt =>
    have hheader : ¬ IsHeader (readBuffer block behind (asUnsigned i)) := fun hheader => by
      rw [readMember, if_pos ⟨hlt, hheader⟩] at h
      cases h
    have hne : i ≠ 0 := by
      rintro rfl
      rcases hzero rfl with hempty | hfirst
      · exact absurd (hempty ▸ hlt) (Nat.not_lt_zero _)
      · exact hheader hfirst
    dsimp only
    rw [if_pos (not_isHeader_iff.mp hheader), if_neg hne]
  · rfl

/-- The loop is the scan, when it does not find at block 0 that this is no archive. -/
theorem allocateFrom_eq_scan
    (hzero : block.size = 0 ∨ IsHeader (readBuffer block behind 0)) :
    allocateFrom block behind fuel i files =
      (Scan.scan (readMember block behind) fuel i files).map some := by
  induction fuel generalizing i files with
  | zero => rfl
  | succ fuel ih =>
    cases hread : readMember block behind i with
    | none =>
      rw [allocateFrom_stop hread fun _ => hzero, Scan.scan_stop hread]
      rfl
    | some entry => rw [allocateFrom_record hread, Scan.scan_record hread, ih]

theorem allocateBlock_eq_scan (hzero : block.size = 0 ∨ IsHeader (readBuffer block behind 0)) :
    allocateBlock block behind fuel =
      (Scan.scan (readMember block behind) fuel 0 []).map fun files => some { files, block } := by
  unfold allocateBlock
  rw [allocateFrom_eq_scan hzero, Option.map_map]
  rfl

theorem allocateBlock_of_not_header (hpos : 0 < block.size)
    (hheader : ¬ IsHeader (readBuffer block behind 0)) (fuel : Nat) :
    allocateBlock block behind (fuel + 1) = some none := by
  have htest := not_isHeader_iff.mp hheader
  have hlt : asUnsigned 0 < block.size := hpos
  unfold allocateBlock
  rw [allocateFrom, if_pos hlt]
  dsimp only
  rw [show asUnsigned 0 = 0 from rfl, if_pos htest]
  rfl

end Scan

/-! ### The index -/

/-- The loop ends, and its index goes up in each turn. -/
structure Advances (block : BlockDevice) (behind : Nat → CString) : Prop where
  ends : ∃ fuel, (allocateBlock block behind fuel).isSome
  increasing : ∀ i file j, Scan.Reaches (readMember block behind) 0 i →
    readMember block behind i = some (file, j) → i < j

/-- What a file of this size adds to the index is not a multiple of 2^32, and an `int` holds the sum. -/
def StepFits (i : Int) (size : UInt64) : Prop :=
  let step : Nat := ((roundupBlocks size).toNat + 1) % 2 ^ 32
  0 < step ∧ i + step < 2 ^ 31

theorem nextHeader_bounds (i : Int) (size : UInt64) :
    -2 ^ 31 ≤ nextHeader i size ∧ nextHeader i size < 2 ^ 31 := by
  unfold nextHeader
  rw [Int.bmod_def]
  split <;> omega

theorem lt_nextHeader_iff {i : Int} (hlow : 0 ≤ i) (hhigh : i < 2 ^ 31) (size : UInt64) :
    i < nextHeader i size ↔ StepFits i size := by
  unfold nextHeader StepFits
  rw [Int.bmod_def]
  dsimp only
  split <;> omega

section Advance

variable {block : BlockDevice} {behind : Nat → CString} {i : Int}

/-- From block 0 an index that goes up stays an `int` that is not negative. -/
theorem reaches_bounds
    (hup : ∀ i file j, 0 ≤ i → i < 2 ^ 31 → Scan.Reaches (readMember block behind) 0 i →
      readMember block behind i = some (file, j) → i < j)
    (h : Scan.Reaches (readMember block behind) 0 i) : 0 ≤ i ∧ i < 2 ^ 31 := by
  refine h.invariant (I := fun i => 0 ≤ i ∧ i < 2 ^ 31) ⟨Int.le_refl 0, by decide⟩
    fun i file j hi hreach hread => ?_
  have hlt := hup i file j hi.1 hi.2 hreach hread
  obtain ⟨-, -, -, rfl⟩ := readMember_eq_some hread
  exact ⟨by omega, (nextHeader_bounds i file.size).2⟩

theorem allocateBlock_of_records {files : List UstarFile}
    (h : Scan.Records (readMember block behind) 0 files)
    (hzero : block.size = 0 ∨ IsHeader (readBuffer block behind 0)) :
    allocateBlock block behind (files.length + 1) = some (some { files, block }) := by
  rw [allocateBlock_eq_scan hzero, h.scan]
  rfl

/-- A scan whose index goes up ends. -/
theorem ends_of_increasing
    (hup : ∀ i file j, Scan.Reaches (readMember block behind) 0 i →
      readMember block behind i = some (file, j) → i < j) :
    ∃ fuel, (allocateBlock block behind fuel).isSome := by
  obtain ⟨files, hrecords⟩ := Scan.exists_records Int.toNat (2 ^ 31) fun i file j hreach hread => by
    have hbounds := reaches_bounds (fun i file j _ _ => hup i file j) hreach
    have hlt := hup i file j hreach hread
    omega
  by_cases hzero : block.size = 0 ∨ IsHeader (readBuffer block behind 0)
  · exact ⟨_, Option.isSome_iff_exists.mpr ⟨_, allocateBlock_of_records hrecords hzero⟩⟩
  · obtain ⟨hsize, hheader⟩ := not_or.mp hzero
    exact ⟨1, Option.isSome_iff_exists.mpr
      ⟨_, allocateBlock_of_not_header (Nat.pos_of_ne_zero hsize) hheader 0⟩⟩

end Advance

/-- **The index advances** on a device exactly when the size in each header that the loop reaches moves
it forward. -/
theorem advances_iff (block : BlockDevice) (behind : Nat → CString) :
    Advances block behind ↔
      ∀ i file j, Scan.Reaches (readMember block behind) 0 i →
        readMember block behind i = some (file, j) → StepFits i file.size := by
  constructor
  · intro hadvances i file j hreach hread
    obtain ⟨hlow, hhigh⟩ :=
      reaches_bounds (fun i file j _ _ => hadvances.increasing i file j) hreach
    have hlt := hadvances.increasing i file j hreach hread
    obtain ⟨-, -, -, rfl⟩ := readMember_eq_some hread
    exact (lt_nextHeader_iff hlow hhigh file.size).mp hlt
  · intro hfits
    have hup (i : Int) (file : UstarFile) (j : Int) (hlow : 0 ≤ i) (hhigh : i < 2 ^ 31)
        (hreach : Scan.Reaches (readMember block behind) 0 i)
        (hread : readMember block behind i = some (file, j)) : i < j := by
      have hstep := (lt_nextHeader_iff hlow hhigh file.size).mpr (hfits i file j hreach hread)
      obtain ⟨-, -, -, rfl⟩ := readMember_eq_some hread
      exact hstep
    have hincreasing (i : Int) (file : UstarFile) (j : Int)
        (hreach : Scan.Reaches (readMember block behind) 0 i)
        (hread : readMember block behind i = some (file, j)) : i < j :=
      have hbounds := reaches_bounds hup hreach
      hup i file j hbounds.1 hbounds.2 hreach hread
    exact ⟨ends_of_increasing hincreasing, hincreasing⟩

/-- A header whose size is the characters `(00`, which make -512. -/
def stallingArchive : BlockDevice :=
  archiveOf [memberHeader "a" "(00" UstarType.normalFile ""] (by simp)

/-- The loop stays at block 0 for ever. -/
theorem not_advances_stalling :
    ¬ Advances stallingArchive (fun _ => []) ∧
      ∀ fuel, allocateBlock stallingArchive (fun _ => []) fuel = none := by
  have hstay : (readMember stallingArchive (fun _ => []) 0).map Prod.snd = some 0 := by decide
  obtain ⟨⟨file, j⟩, hread, rfl⟩ := Option.map_eq_some_iff.mp hstay
  refine ⟨fun hadvances => ?_, fun fuel => ?_⟩
  · exact absurd (hadvances.increasing 0 file 0 .start hread) (Int.lt_irrefl 0)
  · rw [allocateBlock_eq_scan (.inr (by decide)), Scan.scan_stalls hread]
    rfl

/-! ### An archive -/

/-- The number that octal digits stand for. -/
def octal (digits : CString) : Nat := digits.foldl (fun v d => 8 * v + (d.toNat - 48)) 0

def HasMagic (header : List UInt8) : Prop :=
  cells header 257 6 = ustarMagic ++ [0] ∧ cells header 263 2 = ustarVersion

def IsRegular (header : List UInt8) : Prop :=
  header.getD 156 0 = 0 ∨ header.getD 156 0 = UstarType.normalFile

instance (header : List UInt8) : Decidable (IsRegular header) := inferInstanceAs (Decidable (_ ∨ _))

/-- Octal digits that a NUL ends. -/
def OctalField (header : List UInt8) (offset width : Nat) : Prop :=
  Ends notNul header offset width ∧ ∀ d ∈ stringIn notNul header offset width, 48 ≤ d ∧ d < 56

structure MemberHeader (header : List UInt8) : Prop where
  magic : HasMagic header
  size : IsRegular header → OctalField header 124 12

def memberSize (header : List UInt8) : Nat :=
  if IsRegular header then octal (stringIn notNul header 124 12) else 0

def dataBlocks (header : List UInt8) : Nat := (memberSize header + 511) / 512

/-- From a block on the device holds members, whose headers are in these blocks, and then one without
the magic or its end. -/
inductive Members (block : BlockDevice) : Nat → List Nat → Prop where
  | stop {i : Nat} (h : i = block.size ∨ i < block.size ∧ ¬ HasMagic (block.block i)) :
    Members block i []
  | member {i : Nat} {is : List Nat} (hheader : MemberHeader (block.block i))
    (hdata : i + 1 + dataBlocks (block.block i) ≤ block.size)
    (hrest : Members block (i + 1 + dataBlocks (block.block i)) is) : Members block i (i :: is)

section Octal

variable {digits : CString} {d : UInt8}

theorem octal_concat : octal (digits ++ [d]) = 8 * octal digits + (d.toNat - 48) := by
  unfold octal
  rw [List.foldl_append]
  rfl

theorem decodeOctets_concat :
    decodeOctets (digits ++ [d]) = decodeOctets digits * 8 + d.toInt8.toInt64.toUInt64 - 0x30 := by
  unfold decodeOctets
  rw [List.foldl_append]
  rfl

theorem digit_bounds (h : 48 ≤ d ∧ d < 56) : 48 ≤ d.toNat ∧ d.toNat < 56 :=
  ⟨UInt8.le_iff_toNat_le.mp h.1, UInt8.lt_iff_toNat_lt.mp h.2⟩

theorem octal_lt (h : ∀ d ∈ digits, 48 ≤ d ∧ d < 56) : octal digits < 8 ^ digits.length := by
  induction digits using List.reverseRecOn with
  | nil => exact Nat.one_pos
  | append_singleton digits d ih =>
    have hdigit := digit_bounds (h d (by simp))
    have hrest := ih fun c hc => h c (List.mem_append_left _ hc)
    rw [octal_concat, List.length_append, List.length_singleton, Nat.pow_succ]
    omega

/-- A digit is not a negative `char`. -/
theorem digit_toUInt64 (h : 48 ≤ d ∧ d < 56) : d.toInt8.toInt64.toUInt64.toNat = d.toNat := by
  obtain ⟨hlow, hhigh⟩ := digit_bounds h
  have hd : d = UInt8.ofNat d.toNat := UInt8.ofNat_toNat.symm
  generalize d.toNat = n at hd hlow hhigh
  subst hd
  interval_cases n <;> rfl

theorem decodeOctets_toNat (h : ∀ d ∈ digits, 48 ≤ d ∧ d < 56) :
    (decodeOctets digits).toNat = octal digits % 2 ^ 64 := by
  induction digits using List.reverseRecOn with
  | nil => rfl
  | append_singleton digits d ih =>
    have hdigit := digit_bounds (h d (by simp))
    have hrest := ih fun c hc => h c (List.mem_append_left _ hc)
    have hbase : (8 : UInt64).toNat = 8 ∧ (0x30 : UInt64).toNat = 48 := ⟨rfl, rfl⟩
    rw [decodeOctets_concat, octal_concat, UInt64.toNat_sub, UInt64.toNat_add, UInt64.toNat_mul,
      digit_toUInt64 (h d (by simp)), hrest, hbase.1, hbase.2]
    omega

end Octal

section Member

variable {block : BlockDevice} {behind : Nat → CString} {header rest : List UInt8}

theorem isHeader_append_iff (hlength : header.length = 512) :
    IsHeader (header ++ rest) ↔ HasMagic header := by
  have hroom : 257 + (ustarMagic.length + 1) ≤ (header ++ rest).length := by
    rw [List.length_append, hlength]
    exact Nat.le_add_right_of_le (by decide)
  have hmagic : UstarMetadata.magic (header ++ rest) = ustarMagic ↔
      cells (header ++ rest) 257 6 = ustarMagic ++ [0] :=
    stringFrom_eq_iff (p := notNul) (s := ustarMagic) (by decide +kernel)
      (fun x => by simp [notNul]) hroom
  have hversion : UstarMetadata.version (header ++ rest) = cells (header ++ rest) 263 2 := rfl
  unfold IsHeader HasMagic
  rw [hmagic, hversion, cells_append (by omega), cells_append (by omega)]

theorem memberSize_lt (h : MemberHeader header) : memberSize header < 2 ^ 36 := by
  unfold memberSize
  split
  · next hregular =>
    have hlength : (stringIn notNul header 124 12).length ≤ 12 :=
      (List.takeWhile_prefix _).length_le.trans (List.length_take_le _ _)
    calc octal (stringIn notNul header 124 12)
        < 8 ^ (stringIn notNul header 124 12).length := octal_lt (h.size hregular).2
      _ ≤ 8 ^ 12 := Nat.pow_le_pow_right (by decide) hlength
      _ = 2 ^ 36 := by norm_num
  · decide

/-- The size that the loader decodes. -/
theorem size_readHeader (rest : List UInt8) (hlength : header.length = 512)
    (h : MemberHeader header) (i : Nat) :
    (readHeader (header ++ rest) i).size.toNat = memberSize header := by
  have htype : UstarMetadata.type (header ++ rest) = header.getD 156 0 :=
    List.getD_append _ _ _ _ (by omega)
  have hlt := memberSize_lt h
  by_cases hregular : IsRegular header
  · obtain ⟨hends, hdigits⟩ := h.size hregular
    have hsize : UstarMetadata.size (header ++ rest) = stringIn notNul header 124 12 :=
      stringFrom_append (p := notNul) (by omega) hends
    rw [memberSize, if_pos hregular] at hlt ⊢
    unfold readHeader
    dsimp only
    rw [htype, if_pos (show _ ∨ _ from hregular), hsize, decodeOctets_toNat hdigits]
    exact Nat.mod_eq_of_lt (hlt.trans (by decide))
  · rw [memberSize, if_neg hregular]
    unfold readHeader
    dsimp only
    rw [htype, if_neg (show ¬ (_ ∨ _) from hregular)]
    rfl

theorem readMember_member (behind : Nat → CString) {i : Nat} (hsize : block.size < 2 ^ 31)
    (hheader : MemberHeader (block.block i)) (hdata : i + 1 + dataBlocks (block.block i) ≤ block.size) :
    ∃ file, readMember block behind i =
        some (file, ((i + 1 + dataBlocks (block.block i) : Nat) : Int)) ∧
      file.offset = i + 1 ∧ file.size.toNat = memberSize (block.block i) := by
  have hindex : asUnsigned (i : Int) = i := by
    unfold asUnsigned
    omega
  have hlength := block.block_length i
  have hsize' := size_readHeader (behind i) hlength hheader i
  have hlt := memberSize_lt hheader
  have hblocks : (roundupBlocks (readHeader (block.block i ++ behind i) i).size).toNat =
      dataBlocks (block.block i) := by
    have hwidth : (511 : UInt64).toNat = 511 ∧ (512 : UInt64).toNat = 512 := ⟨rfl, rfl⟩
    unfold roundupBlocks dataBlocks
    rw [UInt64.toNat_div, UInt64.toNat_add, hsize', hwidth.1, hwidth.2]
    omega
  have hnext : nextHeader i (readHeader (block.block i ++ behind i) i).size =
      ((i + 1 + dataBlocks (block.block i) : Nat) : Int) := by
    unfold nextHeader
    rw [hblocks, Int.bmod_def]
    split <;> omega
  refine ⟨readHeader (block.block i ++ behind i) i, ?_, rfl, hsize'⟩
  unfold readMember readBuffer
  rw [hindex, if_pos ⟨by omega, (isHeader_append_iff hlength).mpr hheader.magic⟩]
  dsimp only
  rw [hnext]

theorem readMember_stop {i : Nat} (hsize : block.size < 2 ^ 31)
    (h : i = block.size ∨ i < block.size ∧ ¬ HasMagic (block.block i)) :
    readMember block behind i = none := by
  have hindex : asUnsigned (i : Int) = i := by
    unfold asUnsigned
    omega
  unfold readMember readBuffer
  rw [hindex, if_neg]
  rintro ⟨hlt, hheader⟩
  rcases h with hend | ⟨-, hmagic⟩
  · omega
  · exact hmagic ((isHeader_append_iff (block.block_length i)).mp hheader)

/-- The entries that are due for the headers. -/
def due (block : BlockDevice) (is : List Nat) : List (Nat × Nat) :=
  is.map fun i => (i + 1, memberSize (block.block i))

theorem Members.records {i : Nat} {is : List Nat} (h : Members block i is)
    (behind : Nat → CString) (hsize : block.size < 2 ^ 31) :
    ∃ files, Scan.Records (readMember block behind) i files ∧
      files.map (fun f => (f.offset, f.size.toNat)) = due block is := by
  induction h with
  | stop h => exact ⟨[], .stop (readMember_stop hsize h), rfl⟩
  | member hheader hdata hrest ih =>
    obtain ⟨files, hrecords, hfiles⟩ := ih
    obtain ⟨file, hread, hoffset, hfile⟩ := readMember_member behind hsize hheader hdata
    refine ⟨file :: files, .record hread hrecords, ?_⟩
    rw [List.map_cons, hfiles, hoffset, hfile]
    rfl

end Member

/-- **Traversal.** Of a device that holds an archive the loader makes one entry for each member, in
order, with the block behind its header and the size of a regular file; the null pointer it returns
when block 0 is no header. -/
theorem allocateBlock_members (block : BlockDevice) (behind : Nat → CString) (is : List Nat)
    (hpos : 0 < block.size) (hsize : block.size < 2 ^ 31) (h : Members block 0 is) :
    ∃ fuel loaded, allocateBlock block behind fuel = some loaded ∧
      (loaded = none ↔ is = []) ∧ (loaded = none ↔ ¬ HasMagic (block.block 0)) ∧
      ∀ u, loaded = some u → u.files.map (fun f => (f.offset, f.size.toNat)) = due block is := by
  have hheader : IsHeader (readBuffer block behind 0) ↔ HasMagic (block.block 0) :=
    isHeader_append_iff (block.block_length 0)
  have hfirst : is = [] ↔ ¬ HasMagic (block.block 0) := by
    cases h with
    | stop h => simpa using (h.resolve_left (Nat.ne_of_lt hpos)).2
    | member h => simpa using h.magic
  by_cases hmagic : HasMagic (block.block 0)
  · obtain ⟨files, hrecords, hfiles⟩ := h.records behind hsize
    refine ⟨files.length + 1, some { files, block },
      allocateBlock_of_records hrecords (.inr (hheader.mpr hmagic)), ?_, ?_, fun u hu => ?_⟩
    · simpa using hfirst.not.mpr (not_not.mpr hmagic)
    · simpa using hmagic
    · obtain rfl := Option.some.inj hu
      exact hfiles
  · refine ⟨1, none, allocateBlock_of_not_header hpos (hheader.not.mpr hmagic) 0, ?_, ?_,
      fun u hu => by cases hu⟩
    · simpa using hfirst.mpr hmagic
    · simpa using hmagic

/-- A directory, a file of five bytes whose block looks like a header, and a block without the magic. -/
def twoMembers : BlockDevice :=
  archiveOf [memberHeader "d/" "" UstarType.directory "", memberHeader "f" "5" UstarType.normalFile "",
    memberHeader "g" "" UstarType.fifo "", field 512 ""] (by simp [length_field])

theorem members_two : Members twoMembers 0 [0, 1] := by
  have hdirectory : MemberHeader (twoMembers.block 0) := by
    refine ⟨by unfold HasMagic; decide, fun hregular => absurd hregular (by decide)⟩
  have hfile : MemberHeader (twoMembers.block 1) := by
    refine ⟨by unfold HasMagic; decide, fun _ => ?_⟩
    unfold OctalField Ends
    decide +kernel
  have hnext : 0 + 1 + dataBlocks (twoMembers.block 0) = 1 := by decide
  have hend : 1 + 1 + dataBlocks (twoMembers.block 1) = 3 := by decide
  refine .member hdirectory (by rw [hnext]; decide) ?_
  rw [hnext]
  refine .member hfile (by rw [hend]; decide) ?_
  rw [hend]
  refine .stop (.inr ⟨by decide, ?_⟩)
  unfold HasMagic
  decide

theorem allocateBlock_members_two : ∃ fuel loaded,
    allocateBlock twoMembers (fun _ => []) fuel = some loaded ∧
      (loaded = none ↔ [0, 1] = []) ∧ (loaded = none ↔ ¬ HasMagic (twoMembers.block 0)) ∧
      ∀ u, loaded = some u →
        u.files.map (fun f => (f.offset, f.size.toNat)) = due twoMembers [0, 1] :=
  allocateBlock_members twoMembers (fun _ => []) [0, 1] (by decide) (by decide) members_two

example : due twoMembers [0, 1] = [(1, 0), (2, 5)] := by decide

end Helos.Ustar
