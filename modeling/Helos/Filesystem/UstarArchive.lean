import Helos.Filesystem.UstarRead
import Helos.Filesystem.UstarTraversal

/-!
# Archives

A ustar archive as the format has it, written from its members, and what the loader makes of it: every
member again, with all that is in its header but its type, and its bytes where the entry says.
-/

namespace Helos.Ustar

open Filesystem StringFields

/-! ### The format -/

def octalDigits : Nat → Nat → CString
  | 0, _ => []
  | width + 1, n => octalDigits width (n / 8) ++ [UInt8.ofNat (48 + n % 8)]

/-- A string in a field, and NULs behind it. -/
def padded (width : Nat) (s : CString) : List UInt8 := s ++ List.replicate (width - s.length) 0

/-- A number in a field, with a NUL behind it. -/
def number (width n : Nat) : List UInt8 := padded width (octalDigits (width - 1) n)

def NoNul (s : CString) : Prop := ∀ c ∈ s, notNul c = true

/-- A member of an archive. Only a regular file has bytes. -/
structure Member where
  path : CString
  type : UInt8
  mode : Nat
  owner : Nat
  group : Nat
  lastmodify : Nat
  linkname : CString
  content : List UInt8
  path_noNul : NoNul path
  path_lt : path.length < 100
  linkname_noNul : NoNul linkname
  linkname_lt : linkname.length < 100
  mode_lt : mode < 8 ^ 7
  owner_lt : owner < 8 ^ 7
  group_lt : group < 8 ^ 7
  lastmodify_lt : lastmodify < 8 ^ 11
  content_lt : content.length < 8 ^ 11
  content_nil : ¬ (type = 0 ∨ type = UstarType.normalFile) → content = []

namespace Member

/-- The fields of a header; what is behind the version is left empty. -/
def fields (m : Member) (checksum : List UInt8) : List (List UInt8) :=
  [ padded 100 m.path,
    number 8 m.mode,
    number 8 m.owner,
    number 8 m.group,
    number 12 m.content.length,
    number 12 m.lastmodify,
    checksum,
    [m.type],
    padded 100 m.linkname,
    ustarMagic ++ [0],
    ustarVersion,
    List.replicate 80 0,
    List.replicate 155 0,
    List.replicate 12 0 ]

/-- The sum of all bytes, where the field itself counts as blanks. -/
def checksum (m : Member) : List UInt8 :=
  octalDigits 6 ((m.fields (List.replicate 8 0x20)).flatten.map UInt8.toNat).sum ++ [0, 0x20]

def header (m : Member) : List UInt8 := (m.fields m.checksum).flatten

def blockCount (m : Member) : Nat := (m.content.length + 511) / 512

/-- The bytes of a file, by blocks, and NULs behind them. -/
def dataBlock (m : Member) (j : Nat) : List UInt8 :=
  (m.content.drop (512 * j) ++ List.replicate 512 0).take 512

def blocks (m : Member) : List (List UInt8) := m.header :: (List.range m.blockCount).map m.dataBlock

/-- The entry that is due for a member whose header is in a block. A file whose type the loader knows has
neither type nor permissions. -/
def entry (m : Member) (i : Nat) : UstarFile where
  offset := i + 1
  filename := cutSeparator (separator :: m.path)
  linkname := if m.type = UstarType.symbolicLink then some m.linkname else none
  size := UInt64.ofNat m.content.length
  lastmodify := UInt64.ofNat m.lastmodify
  mode := if (typeMask m.type).isSome then 0 else UInt16.ofNat m.mode &&& 0x1FF
  owner := UInt16.ofNat m.owner
  group := UInt16.ofNat m.group

end Member

def archive (ms : List Member) : List (List UInt8) := ms.flatMap Member.blocks

def entriesFrom : Nat → List Member → List UstarFile
  | _, [] => []
  | i, m :: ms => m.entry i :: entriesFrom (i + m.blocks.length) ms

/-- An archive is on a device from a block on. Behind it is no header. -/
structure OnDevice (block : BlockDevice) (i : Nat) (ms : List Member) : Prop where
  blocks : ∀ k b, (archive ms)[k]? = some b → block.block (i + k) = b
  room : i + (archive ms).length ≤ block.size
  behind : i + (archive ms).length = block.size ∨ ¬ HasMagic (block.block (i + (archive ms).length))

/-! ### Numbers -/

section Numbers

variable {width n : Nat}

@[simp] theorem length_octalDigits (width n : Nat) : (octalDigits width n).length = width := by
  induction width generalizing n with
  | zero => rfl
  | succ width ih => rw [octalDigits, List.length_append, ih, List.length_singleton]

theorem octalDigits_digits (width n : Nat) : ∀ d ∈ octalDigits width n, 48 ≤ d ∧ d < 56 := by
  induction width generalizing n with
  | zero =>
    intro d hd
    exact absurd hd List.not_mem_nil
  | succ width ih =>
    intro d hd
    rcases List.mem_append.mp hd with hd | hd
    · exact ih (n / 8) d hd
    · obtain rfl := List.mem_singleton.mp hd
      have hdigit : (UInt8.ofNat (48 + n % 8)).toNat = 48 + n % 8 := by
        rw [UInt8.toNat_ofNat']
        omega
      rw [UInt8.le_iff_toNat_le, UInt8.lt_iff_toNat_lt, hdigit]
      exact ⟨Nat.le_add_right _ _, by change 48 + n % 8 < 56; omega⟩

theorem octal_octalDigits (width n : Nat) : octal (octalDigits width n) = n % 8 ^ width := by
  induction width generalizing n with
  | zero => exact (Nat.mod_one n).symm
  | succ width ih =>
    have hdigit : (UInt8.ofNat (48 + n % 8)).toNat - 48 = n % 8 := by
      rw [UInt8.toNat_ofNat']
      omega
    calc octal (octalDigits (width + 1) n)
        = 8 * (n / 8 % 8 ^ width) + n % 8 := by rw [octalDigits, octal_concat, ih, hdigit]
      _ = n % 8 ^ (width + 1) := by
        rw [Nat.pow_succ, Nat.mul_comm (8 ^ width), Nat.mod_mul, Nat.add_comm]

theorem noNul_octalDigits (width n : Nat) : NoNul (octalDigits width n) := by
  intro d hd
  have hle := (octalDigits_digits width n d hd).1
  unfold notNul
  rw [bne_iff_ne]
  rintro rfl
  exact absurd hle (by decide)

theorem decodeOctets_octalDigits (hwidth : width ≤ 11) (hn : n < 8 ^ width) :
    decodeOctets (octalDigits width n) = UInt64.ofNat n := by
  have hpow : (8 : Nat) ^ width ≤ 8 ^ 11 := Nat.pow_le_pow_right (by decide) hwidth
  have hlt : n < 2 ^ 64 := by
    have h11 : (8 : Nat) ^ 11 < 2 ^ 64 := by decide
    omega
  apply UInt64.toNat_inj.mp
  rw [decodeOctets_toNat (octalDigits_digits width n), octal_octalDigits, Nat.mod_eq_of_lt hn,
    UInt64.toNat_ofNat']

theorem length_padded {s : CString} (h : s.length ≤ width) : (padded width s).length = width := by
  rw [padded, List.length_append, List.length_replicate]
  exact Nat.add_sub_cancel' h

theorem length_number (width n : Nat) : (number width n).length = width :=
  length_padded (by rw [length_octalDigits]; exact Nat.sub_le _ _)

end Numbers

/-! ### A header -/

section Header

variable {m : Member} {header rest : List UInt8}

def widths : List Nat := [100, 8, 8, 8, 12, 12, 8, 1, 100, 6, 2, 80, 155, 12]

theorem length_checksum (m : Member) : m.checksum.length = 8 := by
  rw [Member.checksum, List.length_append, length_octalDigits]
  rfl

theorem map_length_fields (m : Member) : (m.fields m.checksum).map List.length = widths := by
  have hmagic : ustarMagic.length = 5 := by decide
  have hversion : ustarVersion.length = 2 := by decide
  simp only [Member.fields, List.map_cons, List.map_nil, length_padded m.path_lt.le, length_padded m.linkname_lt.le,
    length_number, length_checksum, List.length_append, List.length_replicate, List.length_singleton, hmagic, hversion]
  rfl

theorem length_header (m : Member) : m.header.length = 512 := by
  rw [Member.header, List.length_flatten, map_length_fields]
  rfl

/-- Where a field is. -/
theorem cells_header (m : Member) {k : Nat} (hk : k < 14) :
    cells m.header (widths.take k).sum ((m.fields m.checksum).get ⟨k, hk⟩).length =
      (m.fields m.checksum).get ⟨k, hk⟩ := by
  have hoffset : ((m.fields m.checksum).take k).flatten.length = (widths.take k).sum := by
    rw [List.length_flatten, List.map_take, map_length_fields]
  rw [← hoffset]
  exact cells_flatten _ hk

theorem cells_padded {s : CString} {offset width : Nat} (hs : s.length ≤ width)
    (h : cells header offset (padded width s).length = padded width s) :
    cells header offset width = s ++ List.replicate (width - s.length) 0 := by
  rwa [length_padded hs] at h

/-- A number in a field is decoded. -/
theorem decode_field {offset width n : Nat} (hn : n < 8 ^ width) (hwidth : width ≤ 11)
    (hroom : offset + (width + 1) ≤ header.length)
    (h : cells header offset (number (width + 1) n).length = number (width + 1) n) :
    decodeOctets (stringFrom notNul (header ++ rest) offset) = UInt64.ofNat n := by
  have hcells : cells header offset (width + 1) =
      octalDigits width n ++ List.replicate (width + 1 - (octalDigits width n).length) 0 :=
    cells_padded (by rw [length_octalDigits]; exact Nat.le_succ _) h
  rw [length_octalDigits, Nat.add_sub_cancel_left] at hcells
  rw [stringFrom_append hroom (ends_of_padded rfl Nat.one_pos hcells),
    stringIn_of_padded (noNul_octalDigits width n) rfl hcells, decodeOctets_octalDigits hwidth hn]

/-- A string in a field is read. -/
theorem string_field {s : CString} {offset width : Nat} (hnul : NoNul s) (hlt : s.length < width)
    (h : cells header offset (padded width s).length = padded width s) :
    Ends notNul header offset width ∧ stringIn notNul header offset width = s := by
  have hcells := cells_padded hlt.le h
  exact ⟨ends_of_padded rfl (Nat.sub_pos_of_lt hlt) hcells, stringIn_of_padded hnul rfl hcells⟩

theorem type_header (m : Member) (rest : List UInt8) : (m.header ++ rest).getD 156 0 = m.type := by
  have hcell : cells m.header 156 1 = [m.type] := cells_header m (show 7 < 14 by decide)
  have hlength := length_header m
  rw [List.getD_append _ _ _ _ (by omega), List.getD_eq_getElem _ _ (by omega)]
  unfold cells at hcell
  rw [List.drop_eq_getElem_cons (by omega), List.take_succ_cons] at hcell
  exact (List.cons.inj hcell).1

theorem hasMagic_header (m : Member) : HasMagic m.header :=
  ⟨cells_header m (show 9 < 14 by decide), cells_header m (show 10 < 14 by decide)⟩

theorem memberHeader_header (m : Member) : MemberHeader m.header := by
  refine ⟨hasMagic_header m, fun _ => ?_⟩
  have hsize : cells m.header 124 12 = octalDigits 11 m.content.length ++ List.replicate 1 0 :=
    cells_header m (show 4 < 14 by decide)
  refine ⟨ends_of_padded rfl Nat.one_pos hsize, ?_⟩
  rw [stringIn_of_padded (noNul_octalDigits _ _) rfl hsize]
  exact octalDigits_digits _ _

/-- The bits of a type are no permissions. -/
theorem typeMask_permissions {type : UInt8} {mask : UInt16} (h : typeMask type = some mask) (mode : UInt16) :
    mode &&& 0x1FF &&& mask = 0 := by
  have hmask : 0x1FF &&& mask = 0 := by
    unfold typeMask at h
    split_ifs at h <;> cases h <;> decide
  rw [UInt16.and_assoc, hmask, UInt16.and_zero]

/-- What the loader makes of a header. -/
theorem readHeader_header (m : Member) (rest : List UInt8) (i : Nat) :
    readHeader (m.header ++ rest) i = m.entry i := by
  have hlength := length_header m
  have hname : recordedName (m.header ++ rest) = cutSeparator (separator :: m.path) := by
    have hpath : cells m.header 0 (padded 100 m.path).length = padded 100 m.path :=
      cells_header m (show 0 < 14 by decide)
    obtain ⟨hends, hstring⟩ := string_field m.path_noNul m.path_lt hpath
    have hprefix : cells m.header 345 155 = [] ++ List.replicate 155 0 := cells_header m (show 12 < 14 by decide)
    rw [recordedName_of_ends rest hlength hends (ends_of_padded rfl (by decide) hprefix), hstring,
      stringIn_of_padded (fun x hx => absurd hx List.not_mem_nil) rfl hprefix, List.nil_append]
  have hlink : UstarMetadata.linkname (m.header ++ rest) = m.linkname := by
    have hlinkname : cells m.header 157 (padded 100 m.linkname).length = padded 100 m.linkname :=
      cells_header m (show 8 < 14 by decide)
    obtain ⟨hends, hstring⟩ := string_field m.linkname_noNul m.linkname_lt hlinkname
    exact (stringFrom_append (by omega) hends).trans hstring
  have hmode : decodeOctets (UstarMetadata.filemode (m.header ++ rest)) = UInt64.ofNat m.mode :=
    decode_field m.mode_lt (by decide) (by omega) (cells_header m (show 1 < 14 by decide))
  have howner : decodeOctets (UstarMetadata.owner (m.header ++ rest)) = UInt64.ofNat m.owner :=
    decode_field m.owner_lt (by decide) (by omega) (cells_header m (show 2 < 14 by decide))
  have hgroup : decodeOctets (UstarMetadata.group (m.header ++ rest)) = UInt64.ofNat m.group :=
    decode_field m.group_lt (by decide) (by omega) (cells_header m (show 3 < 14 by decide))
  have hsize : decodeOctets (UstarMetadata.size (m.header ++ rest)) = UInt64.ofNat m.content.length :=
    decode_field m.content_lt (by decide) (by omega) (cells_header m (show 4 < 14 by decide))
  have htime : decodeOctets (UstarMetadata.lastmodify (m.header ++ rest)) = UInt64.ofNat m.lastmodify :=
    decode_field m.lastmodify_lt (by decide) (by omega) (cells_header m (show 5 < 14 by decide))
  have htype : UstarMetadata.type (m.header ++ rest) = m.type := type_header m rest
  unfold readHeader permissions Member.entry
  simp only [hname, hlink, hmode, howner, hgroup, hsize, htime, htype, UInt64.toUInt16_ofNat']
  congr 1
  · by_cases hregular : m.type = 0 ∨ m.type = UstarType.normalFile
    · rw [if_pos hregular]
    · rw [if_neg hregular, m.content_nil hregular]
      rfl
  · cases hmask : typeMask m.type with
    | some mask =>
      rw [Option.isSome_some, if_pos rfl]
      exact typeMask_permissions hmask _
    | none => rfl

end Header

/-! ### An archive on a device -/

section OnDevice

variable {block : BlockDevice} {behind : Nat → CString} {i : Nat} {m : Member} {ms : List Member}

theorem memberSize_header (m : Member) : memberSize m.header = m.content.length := by
  have hregular : IsRegular m.header ↔ m.type = 0 ∨ m.type = UstarType.normalFile := by
    have htype := type_header m []
    rw [List.append_nil] at htype
    rw [IsRegular, htype]
  by_cases h : m.type = 0 ∨ m.type = UstarType.normalFile
  · have hsize : cells m.header 124 12 = octalDigits 11 m.content.length ++ List.replicate 1 0 :=
      cells_header m (show 4 < 14 by decide)
    rw [memberSize, if_pos (hregular.mpr h), stringIn_of_padded (noNul_octalDigits _ _) rfl hsize,
      octal_octalDigits, Nat.mod_eq_of_lt m.content_lt]
  · rw [memberSize, if_neg (hregular.not.mpr h), m.content_nil h]
    rfl

theorem dataBlocks_header (m : Member) : dataBlocks m.header = m.blockCount := by
  rw [dataBlocks, memberSize_header, Member.blockCount]

theorem length_blocks (m : Member) : m.blocks.length = m.blockCount + 1 := by
  rw [Member.blocks, List.length_cons, List.length_map, List.length_range]

theorem archive_cons (m : Member) (ms : List Member) : archive (m :: ms) = m.blocks ++ archive ms :=
  List.flatMap_cons

theorem length_le_archive (ms : List Member) : ms.length ≤ (archive ms).length := by
  induction ms with
  | nil => exact Nat.zero_le _
  | cons m ms ih =>
    rw [archive_cons, List.length_append, length_blocks, List.length_cons]
    omega

theorem OnDevice.header (h : OnDevice block i (m :: ms)) : block.block i = m.header :=
  h.blocks 0 m.header (by rw [archive_cons]; rfl)

theorem OnDevice.dataBlock (h : OnDevice block i (m :: ms)) {j : Nat} (hj : j < m.blockCount) :
    block.block (i + 1 + j) = m.dataBlock j := by
  rw [Nat.add_assoc, Nat.add_comm 1]
  refine h.blocks (j + 1) _ ?_
  rw [archive_cons, List.getElem?_append_left (by rw [length_blocks]; omega), Member.blocks,
    List.getElem?_cons_succ, List.getElem?_map, List.getElem?_range hj]
  rfl

theorem OnDevice.tail (h : OnDevice block i (m :: ms)) : OnDevice block (i + m.blocks.length) ms := by
  have hlength : i + m.blocks.length + (archive ms).length = i + (archive (m :: ms)).length := by
    rw [archive_cons, List.length_append, Nat.add_assoc]
  refine ⟨fun k b hk => ?_, hlength ▸ h.room, hlength ▸ h.behind⟩
  rw [Nat.add_assoc]
  refine h.blocks (m.blocks.length + k) b ?_
  rwa [archive_cons, List.getElem?_append_right (Nat.le_add_right _ _), Nat.add_sub_cancel_left]

theorem OnDevice.readMember (h : OnDevice block i (m :: ms)) (hsize : block.size < 2 ^ 31) :
    Ustar.readMember block behind i = some (m.entry i, ((i + m.blocks.length : Nat) : Int)) := by
  have hheader := h.header
  have hroom := h.tail.room
  rw [length_blocks] at hroom
  have hmember : MemberHeader (block.block i) := hheader ▸ memberHeader_header m
  have hblocks : dataBlocks (block.block i) = m.blockCount := by rw [hheader, dataBlocks_header]
  obtain ⟨file, hread, -, -⟩ := readMember_member behind hsize hmember (by rw [hblocks]; omega)
  obtain ⟨-, -, hfile, -⟩ := readMember_eq_some hread
  have hindex : asUnsigned (i : Int) = i := by
    unfold asUnsigned
    omega
  rw [hindex, readBuffer, hheader, readHeader_header] at hfile
  rw [hread, hfile, hblocks, length_blocks, Nat.add_assoc, Nat.add_comm 1]

theorem OnDevice.records (h : OnDevice block i ms) (hsize : block.size < 2 ^ 31) :
    Scan.Records (Ustar.readMember block behind) i (entriesFrom i ms) := by
  induction ms generalizing i with
  | nil =>
    refine .stop (readMember_stop hsize ?_)
    rcases h.behind with hend | hmagic
    · exact .inl hend
    · have hle := h.room
      rcases Nat.lt_or_eq_of_le hle with hlt | heq
      · exact .inr ⟨hlt, hmagic⟩
      · exact .inl heq
  | cons m ms ih => exact .record (h.readMember hsize) (ih h.tail)

/-- A byte of a file is where its entry says. -/
theorem OnDevice.content_entry (h : OnDevice block i (m :: ms)) {k : Nat} (hk : k < m.content.length) :
    content block (m.entry i) k = m.content[k] := by
  have hblock : k / 512 < m.blockCount := by
    unfold Member.blockCount
    omega
  have hsum : 512 * (k / 512) + k % 512 = k := Nat.div_add_mod k 512
  have hlt : k % 512 < (m.content.drop (512 * (k / 512))).length := by
    rw [List.length_drop]
    omega
  rw [content, Member.entry]
  dsimp only
  rw [h.dataBlock hblock, Member.dataBlock, List.getD_eq_getElem?_getD, List.getElem?_take,
    if_pos (Nat.mod_lt k (by decide)), List.getElem?_append_left hlt, List.getElem?_drop, hsum,
    List.getElem?_eq_getElem hk]
  rfl

/-- The bytes of the members are where the entries say. -/
theorem OnDevice.contents (h : OnDevice block i ms) :
    List.Forall₂ (fun m f => ∀ k (hk : k < m.content.length), content block f k = m.content[k]) ms
      (entriesFrom i ms) := by
  induction ms generalizing i with
  | nil => exact .nil
  | cons m ms ih => exact .cons (fun k hk => h.content_entry hk) (ih h.tail)

theorem OnDevice.congr {block' : BlockDevice} (h : OnDevice block i ms) (hsize : block'.size = block.size)
    (hblocks : ∀ k < block.size, block'.block k = block.block k) : OnDevice block' i ms := by
  have hroom := h.room
  refine ⟨fun k b hk => ?_, hsize ▸ hroom, ?_⟩
  · have hlt := (List.getElem?_eq_some_iff.mp hk).1
    rw [hblocks (i + k) (by omega)]
    exact h.blocks k b hk
  · rcases Nat.lt_or_eq_of_le hroom with hlt | heq
    · rw [hblocks _ hlt, hsize]
      exact h.behind
    · exact .inl (heq.trans hsize.symm)

theorem OnDevice.hasMagic_iff (h : OnDevice block 0 ms) (hpos : 0 < block.size) :
    HasMagic (block.block 0) ↔ ms ≠ [] := by
  cases ms with
  | nil => simpa [archive] using h.behind.resolve_left (Nat.ne_of_lt hpos)
  | cons m ms => simpa [h.header] using hasMagic_header m

theorem OnDevice.allocateBlock_eq (behind : Nat → CString) (hpos : 0 < block.size)
    (hsize : block.size < 2 ^ 31) (h : OnDevice block 0 ms) :
    allocateBlock block behind (ms.length + 1) =
      some (if ms = [] then none else some { files := entriesFrom 0 ms, block }) := by
  have hheader : IsHeader (readBuffer block behind 0) ↔ ms ≠ [] :=
    (isHeader_append_iff (block.block_length 0)).trans (h.hasMagic_iff hpos)
  by_cases hms : ms = []
  · rw [if_pos hms]
    exact allocateBlock_of_not_header hpos (fun hp => hheader.mp hp hms) _
  · have hlength : (entriesFrom 0 ms).length = ms.length := h.contents.length_eq.symm
    rw [if_neg hms, ← hlength]
    exact allocateBlock_of_records (h.records hsize) (.inr (hheader.mpr hms))

/-- **Round trip.** Of a device that holds an archive the loader gives the entry of every member, in order,
and the bytes of each are on the device where its entry says. An archive of no members is none. -/
theorem archive_round_trip (behind : Nat → CString) (hpos : 0 < block.size) (hsize : block.size < 2 ^ 31)
    (h : OnDevice block 0 ms) :
    allocateBlock block behind (ms.length + 1) =
        some (if ms = [] then none else some { files := entriesFrom 0 ms, block }) ∧
      List.Forall₂ (fun m f => ∀ k (hk : k < m.content.length), content block f k = m.content[k]) ms
        (entriesFrom 0 ms) :=
  ⟨h.allocateBlock_eq behind hpos hsize, h.contents⟩

end OnDevice

/-! ### What `tar` writes -/

section Image

variable {ms : List Member}

/-- An archive ends with two empty blocks. -/
def imageBlocks (ms : List Member) : List (List UInt8) :=
  archive ms ++ [List.replicate 512 0, List.replicate 512 0]

theorem length_of_mem_archive {b : List UInt8} (h : b ∈ archive ms) : b.length = 512 := by
  obtain ⟨m, -, hb⟩ := List.mem_flatMap.mp h
  rcases List.mem_cons.mp hb with rfl | hb
  · exact length_header m
  · obtain ⟨j, -, rfl⟩ := List.mem_map.mp hb
    rw [Member.dataBlock, List.length_take, List.length_append, List.length_replicate]
    omega

theorem length_of_mem_imageBlocks {b : List UInt8} (h : b ∈ imageBlocks ms) : b.length = 512 := by
  rcases List.mem_append.mp h with h | h
  · exact length_of_mem_archive h
  · simp only [List.mem_cons, List.not_mem_nil, or_false, or_self] at h
    rw [h, List.length_replicate]

def imageOf (ms : List Member) : BlockDevice := archiveOf (imageBlocks ms) fun _ => length_of_mem_imageBlocks

theorem onDevice_imageOf (ms : List Member) : OnDevice (imageOf ms) 0 ms := by
  have hsize : (imageOf ms).size = (archive ms).length + 2 := List.length_append
  have hget : ∀ k, (imageOf ms).block k = (imageBlocks ms).getD k (List.replicate 512 0) := fun _ => rfl
  refine ⟨fun k b hk => ?_, by omega, .inr ?_⟩
  · have hlt := (List.getElem?_eq_some_iff.mp hk).1
    rw [Nat.zero_add, hget, List.getD_eq_getElem?_getD, imageBlocks, List.getElem?_append_left hlt, hk,
      Option.getD_some]
  · have hempty : (imageOf ms).block (0 + (archive ms).length) = List.replicate 512 0 := by
      rw [Nat.zero_add, hget, imageBlocks, List.getD_append_right _ _ _ _ (Nat.le_refl _), Nat.sub_self]
      rfl
    rw [hempty]
    unfold HasMagic
    decide

end Image

/-- A directory, as `tar` names it. -/
def binDirectory : Member where
  path := [0x62, 0x69, 0x6e, 0x2f]
  type := UstarType.directory
  mode := 0o755
  owner := 0
  group := 0
  lastmodify := 0o14000000000
  linkname := []
  content := []
  path_noNul := by simp [NoNul, notNul]
  path_lt := by decide
  linkname_noNul := by simp [NoNul, notNul]
  linkname_lt := by decide
  mode_lt := by decide
  owner_lt := by decide
  group_lt := by decide
  lastmodify_lt := by decide
  content_lt := by decide
  content_nil _ := rfl

/-- A file of three bytes in it. -/
def binFile : Member where
  path := [0x62, 0x69, 0x6e, 0x2f, 0x61]
  type := UstarType.normalFile
  mode := 0o644
  owner := 1000
  group := 1000
  lastmodify := 0o14000000000
  linkname := []
  content := [1, 2, 3]
  path_noNul := by simp [NoNul, notNul]
  path_lt := by decide
  linkname_noNul := by simp [NoNul, notNul]
  linkname_lt := by decide
  mode_lt := by decide
  owner_lt := by decide
  group_lt := by decide
  lastmodify_lt := by decide
  content_lt := by decide
  content_nil h := absurd (.inr rfl) h

theorem archive_round_trip_bin :
    allocateBlock (imageOf [binDirectory, binFile]) (fun _ => []) 3 =
      some (some
        { files := entriesFrom 0 [binDirectory, binFile], block := imageOf [binDirectory, binFile] }) :=
  (archive_round_trip (fun _ => []) (by decide) (by decide) (onDevice_imageOf [binDirectory, binFile])).1

example : (entriesFrom 0 [binDirectory, binFile]).map UstarFile.filename = [cString "/bin", cString "/bin/a"] := by
  decide

end Helos.Ustar
