import Helos.Theory.LittleEndian
import Mathlib.Data.List.Infix
import Mathlib.Tactic.Common

/-!
# Loading a cursor

`graphics/xcursor/xcursor.c`, and the loop of `kMain` over the table of contents. A file is its bytes and
a pointer into it an offset; reading at or beyond its end is undefined (`none`).
-/

namespace Helos

structure Xcursor where
  header : Option Nat
  size : Nat
  n : Nat
  toc : Nat
deriving DecidableEq

namespace Xcursor

/-- `XCURSOR_MAGIC` -/
def magic : List UInt8 := [0x58, 0x63, 0x75, 0x72]

def sizeofHeader : Nat := 16

def sizeofTOCEntry : Nat := 12

def chunktypeImage : Nat := 0xfffd0002

/-- `memcmp` of the C library, which stops at the first difference. -/
def memcmp : List UInt8 → List UInt8 → Option Int
  | _, [] => some 0
  | [], _ :: _ => none
  | a :: file, b :: bytes => if a ≠ b then some (a.toNat - b.toNat : Int) else memcmp file bytes

/-- A `uint32_t` at an offset. -/
def field (file : List UInt8) (offset : Nat) : Nat := LittleEndian.decode ((file.drop offset).take 4)

def readField (file : List UInt8) (offset : Nat) : Option Nat :=
  if offset + 4 ≤ file.length then some (field file offset) else none

/-- The members of `xcursor_Header` -/
def headerSize (file : List UInt8) : Nat := field file 4

def numTOC (file : List UInt8) : Nat := field file 12

def loadMemory (cursor : Xcursor) (file : List UInt8) : Option Xcursor := do
  let cursor := { cursor with header := none }
  let difference ← memcmp file magic
  if difference ≠ 0 then some cursor -- magic mismatch
  else do
    let n ← readField file 12
    let headerSize ← readField file 4
    some { header := some 0, size := file.length, n, toc := headerSize }

inductive ScanFault where
  | outside
  | overflow
deriving DecidableEq

/-- The loop of `kMain`, with `left` entries left from entry `i`, an `int`, on: the offset of the first
image. -/
def scanFrom (file : List UInt8) (toc : Nat) : Nat → Nat → Except ScanFault (Option Nat)
  | 0, _ => .ok none
  | left + 1, i =>
    match readField file (toc + sizeofTOCEntry * i) with
    | none => .error .outside
    | some type =>
      if type = chunktypeImage then
        match readField file (toc + sizeofTOCEntry * i + 8) with
        | none => .error .outside
        | some offset => .ok (some offset)
      else if i + 1 < 2 ^ 31 then scanFrom file toc left (i + 1)
      else .error .overflow

def scan (file : List UInt8) (cursor : Xcursor) : Except ScanFault (Option Nat) :=
  scanFrom file cursor.toc cursor.n 0

/-- The header and the entries are in the file, and the loop does not leave it. -/
structure Inside (file : List UInt8) (cursor : Xcursor) : Prop where
  header : ∀ header, cursor.header = some header → header + sizeofHeader ≤ file.length
  entries : ∀ i < cursor.n, cursor.toc + sizeofTOCEntry * i + sizeofTOCEntry ≤ file.length
  scan : cursor.scan file ≠ .error .outside

variable {file bytes : List UInt8} {toc left i : Nat}

theorem memcmp_eq_zero_iff : memcmp file bytes = some 0 ↔ bytes <+: file := by
  induction bytes generalizing file with
  | nil => exact iff_of_true (by cases file <;> rfl) List.nil_prefix
  | cons b bytes ih =>
    cases file with
    | nil => exact iff_of_false nofun fun h => absurd (List.prefix_nil.mp h) (List.cons_ne_nil _ _)
    | cons a file =>
      rw [memcmp, List.cons_prefix_cons]
      by_cases heq : a = b
      · rw [if_neg (not_not.mpr heq), ih]
        exact (and_iff_right heq.symm).symm
      · rw [if_pos heq, Option.some_inj, Int.sub_eq_zero, Int.natCast_inj, UInt8.toNat_inj]
        exact iff_of_false heq fun h => heq h.1.symm

/-- The bytes differ where there are some of both. -/
theorem memcmp_differs_iff :
    (∃ difference, memcmp file bytes = some difference ∧ difference ≠ 0) ↔
      ¬ file.take bytes.length <+: bytes := by
  induction bytes generalizing file with
  | nil =>
    refine iff_of_false ?_ (not_not.mpr ?_)
    · rintro ⟨difference, h, hne⟩
      have hzero : memcmp file [] = some 0 := memcmp_eq_zero_iff.mpr List.nil_prefix
      exact hne (Option.some.inj (h.symm.trans hzero))
    · rw [List.length_nil, List.take_zero]
  | cons b bytes ih =>
    cases file with
    | nil =>
      refine iff_of_false ?_ (not_not.mpr List.nil_prefix)
      rintro ⟨difference, h, -⟩
      cases h
    | cons a file =>
      rw [memcmp, List.length_cons, List.take_succ_cons, List.cons_prefix_cons]
      by_cases heq : a = b
      · rw [if_neg (not_not.mpr heq), ih, and_iff_right heq]
      · rw [if_pos heq]
        refine iff_of_true ⟨_, rfl, fun hzero => heq ?_⟩ fun h => heq h.1
        exact UInt8.toNat_inj.mp (Int.natCast_inj.mp (Int.sub_eq_zero.mp hzero))

theorem memcmp_cases (file bytes : List UInt8) :
    (∃ difference, memcmp file bytes = some difference ∧ difference ≠ 0) ∨
      memcmp file bytes = some 0 ∨ memcmp file bytes = none := by
  cases h : memcmp file bytes with
  | none => exact .inr (.inr rfl)
  | some difference =>
    by_cases hzero : difference = 0
    · exact .inr (.inl (congrArg some hzero))
    · exact .inl ⟨difference, rfl, hzero⟩

/-- Entries that are in the file are read there. -/
theorem scanFrom_inside (h : ∀ k < i + left, toc + sizeofTOCEntry * k + sizeofTOCEntry ≤ file.length) :
    scanFrom file toc left i ≠ .error .outside := by
  induction left generalizing i with
  | zero => exact nofun
  | succ left ih =>
    have hentry := h i (by omega)
    unfold sizeofTOCEntry at hentry
    have htype : readField file (toc + sizeofTOCEntry * i) = some (field file (toc + 12 * i)) :=
      if_pos (by unfold sizeofTOCEntry; omega)
    have hoffset : readField file (toc + sizeofTOCEntry * i + 8) = some (field file (toc + 12 * i + 8)) :=
      if_pos (by unfold sizeofTOCEntry; omega)
    rw [scanFrom, htype, hoffset]
    dsimp only
    split_ifs with himage hint
    · exact nofun
    · exact ih fun k hk => h k (by omega)
    · exact nofun

theorem entries_iff (toc n length : Nat) :
    (∀ i < n, toc + sizeofTOCEntry * i + sizeofTOCEntry ≤ length) ↔
      n = 0 ∨ toc + sizeofTOCEntry * n ≤ length := by
  unfold sizeofTOCEntry
  constructor
  · intro h
    cases n with
    | zero => exact .inl rfl
    | succ n =>
      have hlast := h n (Nat.lt_succ_self n)
      exact .inr (by omega)
  · rintro (rfl | hend) i hi <;> omega

theorem loadMemory_differs (cursor : Xcursor)
    (h : ∃ difference, memcmp file magic = some difference ∧ difference ≠ 0) :
    loadMemory cursor file = some { cursor with header := none } := by
  obtain ⟨difference, heq, hne⟩ := h
  rw [loadMemory, heq]
  exact if_pos hne

theorem loadMemory_magic (cursor : Xcursor) (h : memcmp file magic = some 0)
    (hsize : sizeofHeader ≤ file.length) :
    loadMemory cursor file =
      some { header := some 0, size := file.length, n := numTOC file, toc := headerSize file } := by
  unfold sizeofHeader at hsize
  have hn : readField file 12 = some (numTOC file) := if_pos hsize
  have htoc : readField file 4 = some (headerSize file) := if_pos (by omega)
  rw [loadMemory, h]
  simp only [Option.bind_eq_bind, Option.bind_some, hn, htoc]
  exact if_neg (not_not.mpr rfl)

/-- `numTOC` is the last member of the header. -/
theorem loadMemory_cut (cursor : Xcursor) (h : memcmp file magic = some 0)
    (hcut : ¬ sizeofHeader ≤ file.length) : loadMemory cursor file = none := by
  have hn : readField file 12 = none := if_neg hcut
  rw [loadMemory, h]
  simp only [Option.bind_eq_bind, Option.bind_some, hn, Option.bind_none]
  exact if_neg (not_not.mpr rfl)

theorem prefix_of_magic (h : memcmp file magic = some 0) : file.take magic.length <+: magic := by
  have hmagic := memcmp_eq_zero_iff.mp h
  rw [← List.prefix_iff_eq_take.mp hmagic]

/-- Comparing comes to the end of a file only when the file is a part of the magic. -/
theorem part_of_magic (h : memcmp file magic = none) :
    file.take magic.length <+: magic ∧ ¬ sizeofHeader ≤ file.length := by
  have hpart : file.take magic.length <+: magic := by
    by_contra hdiffers
    obtain ⟨difference, hdifference, -⟩ := memcmp_differs_iff.mpr hdiffers
    rw [h] at hdifference
    cases hdifference
  refine ⟨hpart, fun hsize => ?_⟩
  have heq : file.take magic.length = magic := by
    apply hpart.eq_of_length
    rw [List.length_take]
    exact Nat.min_eq_left ((show 4 ≤ sizeofHeader by decide).trans hsize)
  have hzero := memcmp_eq_zero_iff.mpr (List.prefix_iff_eq_take.mpr heq.symm)
  rw [h] at hzero
  cases hzero

/-- What is left of a file with the magic and a header is inside when its entries are. -/
theorem loaded_inside (hsize : sizeofHeader ≤ file.length)
    (hentries : ∀ i < numTOC file, headerSize file + sizeofTOCEntry * i + sizeofTOCEntry ≤ file.length) :
    Inside file { header := some 0, size := file.length, n := numTOC file, toc := headerSize file } where
  header := by
    rintro header hheader
    obtain rfl := Option.some.inj hheader
    exact (Nat.zero_add _).le.trans hsize
  entries := hentries
  scan := scanFrom_inside fun k hk => hentries k (by rwa [Nat.zero_add] at hk)

/-- **Loading a cursor** reads inside of the file, and the tables that it accepts are inside, exactly when
the file either differs from the magic early enough or has a header whose entries fit. -/
theorem loads_inside_iff (cursor : Xcursor) (file : List UInt8) :
    (∃ c, loadMemory cursor file = some c ∧ (c.header ≠ none → Inside file c)) ↔
      (file.take magic.length <+: magic → sizeofHeader ≤ file.length ∧
        (numTOC file = 0 ∨ headerSize file + sizeofTOCEntry * numTOC file ≤ file.length)) := by
  rw [← entries_iff]
  rcases memcmp_cases file magic with hdiffers | hzero | hnone
  · refine iff_of_true ⟨_, loadMemory_differs cursor hdiffers, fun h => absurd rfl h⟩ fun hpart => ?_
    exact absurd hpart (memcmp_differs_iff.mp hdiffers)
  · constructor
    · rintro ⟨c, hload, hinside⟩ -
      have hsize : sizeofHeader ≤ file.length := by
        by_contra hcut
        rw [loadMemory_cut cursor hzero hcut] at hload
        cases hload
      obtain rfl := Option.some.inj ((loadMemory_magic cursor hzero hsize).symm.trans hload)
      exact ⟨hsize, (hinside (Option.some_ne_none 0)).entries⟩
    · intro h
      obtain ⟨hsize, hentries⟩ := h (prefix_of_magic hzero)
      exact ⟨_, loadMemory_magic cursor hzero hsize, fun _ => loaded_inside hsize hentries⟩
  · obtain ⟨hpart, hcut⟩ := part_of_magic hnone
    refine iff_of_false ?_ fun h => hcut (h hpart).1
    rintro ⟨c, hload, -⟩
    rw [loadMemory, hnone] at hload
    cases hload

/-- A header alone that announces an entry -/
def headerAlone : List UInt8 := [0x58, 0x63, 0x75, 0x72, 16, 0, 0, 0, 0, 0, 1, 0, 1, 0, 0, 0]

/-- It is accepted although the entry is missing, and of a file that ends within the magic too much is
read. -/
theorem missing_entry_accepted :
    (¬ ∃ c, loadMemory ⟨none, 0, 0, 0⟩ headerAlone = some c ∧ (c.header ≠ none → Inside headerAlone c)) ∧
    (∃ c, loadMemory ⟨none, 0, 0, 0⟩ headerAlone = some c ∧ c.header ≠ none) ∧
    loadMemory ⟨none, 0, 0, 0⟩ [0x58, 0x63] = none := by
  have hload : loadMemory ⟨none, 0, 0, 0⟩ headerAlone = some ⟨some 0, 16, 1, 16⟩ := by decide
  refine ⟨?_, ⟨_, hload, nofun⟩, by decide⟩
  rintro ⟨c, hc, hinside⟩
  obtain rfl := Option.some.inj (hload.symm.trans hc)
  have hentry := (hinside nofun).entries 0 Nat.one_pos
  exact absurd hentry (by decide)

end Xcursor

end Helos
