import Helos.Filesystem.UstarTypes
import Helos.Theory.StringFields
import Mathlib.Data.List.GetD

/-!
# Paths of members

The loader joins the prefix of a member and its name without a separator between them, and reads both
as strings that a NUL ends, which one that fills its field does not have.
-/

namespace Helos.Ustar

open Filesystem StringFields

def notNul (c : UInt8) : Bool := c != 0

/-! ### What a header says -/

def nameField (header : List UInt8) : List UInt8 := cells header 0 100
def prefixField (header : List UInt8) : List UInt8 := cells header 345 155

/-- The full path of a member, from its two fields. -/
def memberPath (header : List UInt8) : CString :=
  let name := stringIn notNul header 0 100
  let pathPrefix := stringIn notNul header 345 155
  if pathPrefix = [] then name else pathPrefix ++ separator :: name

def cutSeparator (path : CString) : CString :=
  if path.getLast? = some separator then path.dropLast else path

/-- The name recorded for a header is its path, and a matter of the two fields alone. -/
structure PathExact (header : List UInt8) (recorded : CString) : Prop where
  path : recorded = cutSeparator (separator :: memberPath header)
  fields : ∀ header' behind, header'.length = 512 → nameField header' = nameField header →
    prefixField header' = prefixField header → recordedName (header' ++ behind) = recorded

/-- Both fields hold a NUL, and there is nothing to join: no prefix, or a prefix that does not end in a
separator and no name. -/
def PathFits (header : List UInt8) : Prop :=
  Ends notNul header 0 100 ∧ Ends notNul header 345 155 ∧
    (stringIn notNul header 345 155 = [] ∨
      stringIn notNul header 0 100 = [] ∧
        (stringIn notNul header 345 155).getLast? ≠ some separator)

/-! ### One header -/

section Header

variable {header : List UInt8} {path : CString} {offset width : Nat}

theorem recordedName_eq (buf : List UInt8) :
    recordedName buf = cutSeparator (separator :: (stringFrom notNul buf 345 ++ stringFrom notNul buf 0)) :=
  rfl

theorem length_cutSeparator (path : CString) :
    (cutSeparator path).length ≤ path.length ∧ path.length ≤ (cutSeparator path).length + 1 := by
  unfold cutSeparator
  split
  · rw [List.length_dropLast]
    omega
  · exact ⟨Nat.le_refl _, Nat.le_succ _⟩

/-- Two paths with the same last byte are cut alike. -/
theorem length_cutSeparator_eq {path' : CString} (hlast : path.getLast? = path'.getLast?)
    (hne : path ≠ []) (hne' : path' ≠ []) (h : cutSeparator path = cutSeparator path') :
    path.length = path'.length := by
  have hpos := List.length_pos_iff.mpr hne
  have hpos' := List.length_pos_iff.mpr hne'
  have hlength := congrArg List.length h
  unfold cutSeparator at hlength
  rw [hlast] at hlength
  split at hlength
  · rw [List.length_dropLast, List.length_dropLast] at hlength
    omega
  · exact hlength

/-- With a NUL in each field, the strings are those of the fields. -/
theorem recordedName_of_ends (behind : CString) (hlength : header.length = 512)
    (hname : Ends notNul header 0 100)
    (hfront : Ends notNul header 345 155) :
    recordedName (header ++ behind) = cutSeparator
      (separator :: (stringIn notNul header 345 155 ++ stringIn notNul header 0 100)) := by
  rw [recordedName_eq, stringFrom_append (by omega) hname, stringFrom_append (by omega) hfront]

/-- Behind a field without a NUL the string goes on, for as long as what is there says. -/
theorem stringFrom_patched (more tail : List UInt8) (hend : offset + width + 3 ≤ header.length)
    (h : ¬ Ends notNul header offset width) (hmore : ∀ c ∈ more, notNul c = true)
    (htail : (more ++ 0 :: tail).length = 3) :
    stringFrom notNul (patch header (offset + width) (more ++ 0 :: tail)) offset =
      cells header offset width ++ more := by
  have hroom : offset + width + (more ++ 0 :: tail).length ≤ header.length := by omega
  have hfield : cells (patch header (offset + width) (more ++ 0 :: tail)) offset width =
      cells header offset width := cells_patch_before hroom (Nat.le_refl _)
  have hfull : ¬ Ends notNul (patch header (offset + width) (more ++ 0 :: tail)) offset width := by
    unfold Ends at h ⊢
    rwa [hfield]
  rw [stringFrom_of_not_ends hfull, hfield]
  unfold stringFrom
  rw [drop_patch_self hroom, List.append_assoc, List.takeWhile_append_of_pos hmore, List.cons_append,
    List.takeWhile_cons_of_neg (by decide), List.append_nil]

end Header

section Exact

variable {header : List UInt8}

/-- Strings that are longer by two make another name. -/
theorem recordedName_ne {buf buf' : List UInt8}
    (h : (stringFrom notNul buf' 345).length + (stringFrom notNul buf' 0).length =
      (stringFrom notNul buf 345).length + (stringFrom notNul buf 0).length + 2) :
    recordedName buf ≠ recordedName buf' := by
  intro hsame
  have hlength := congrArg List.length hsame
  have hcut := length_cutSeparator
    (separator :: (stringFrom notNul buf 345 ++ stringFrom notNul buf 0))
  have hcut' := length_cutSeparator
    (separator :: (stringFrom notNul buf' 345 ++ stringFrom notNul buf' 0))
  rw [recordedName_eq, recordedName_eq] at hlength
  rw [List.length_cons, List.length_append] at hcut hcut'
  omega

/-- Headers that differ behind a field only have the same name. -/
theorem recordedName_patches (hlength : header.length = 512) {k : Nat} (hk : k = 100 ∨ k = 500)
    {recorded : CString} (hexact : PathExact header recorded) :
    recordedName (patch header k [0, 0, 0]) = recordedName (patch header k [1, 1, 0]) := by
  have hfields (ys : List UInt8) (hys : ys.length = 3) : recordedName (patch header k ys) = recorded := by
    have hroom : k + ys.length ≤ header.length := by omega
    have hname : nameField (patch header k ys) = nameField header :=
      cells_patch_before hroom (by omega)
    have hfront : prefixField (patch header k ys) = prefixField header := by
      rcases hk with rfl | rfl
      · exact cells_patch_after hroom (by omega)
      · exact cells_patch_before hroom (by omega)
    rw [← List.append_nil (patch header k ys)]
    exact hexact.fields _ [] ((length_patch hroom).trans hlength) hname hfront
  exact (hfields _ rfl).trans (hfields _ rfl).symm

theorem name_ends_of_exact (hlength : header.length = 512) {recorded : CString}
    (hexact : PathExact header recorded) : Ends notNul header 0 100 := by
  by_contra hfull
  have hfront (ys : List UInt8) (hys : ys.length = 3) :
      stringFrom notNul (patch header 100 ys) 345 = stringFrom notNul header 345 := by
    unfold stringFrom
    rw [drop_patch_after] <;> omega
  have hshort : stringFrom notNul (patch header 100 [0, 0, 0]) 0 = nameField header ++ [] :=
    stringFrom_patched [] [0, 0] (by omega) hfull (by simp) rfl
  have hlong : stringFrom notNul (patch header 100 [1, 1, 0]) 0 = nameField header ++ [1, 1] :=
    stringFrom_patched [1, 1] [] (by omega) hfull (List.all_eq_true.mp rfl) rfl
  refine recordedName_ne ?_ (recordedName_patches hlength (.inl rfl) hexact)
  rw [hshort, hlong, hfront _ rfl, hfront _ rfl, List.length_append, List.length_append]
  rfl

theorem prefix_ends_of_exact (hlength : header.length = 512) (hname : Ends notNul header 0 100)
    {recorded : CString} (hexact : PathExact header recorded) : Ends notNul header 345 155 := by
  by_contra hfull
  have hsame (ys : List UInt8) (hys : ys.length = 3) :
      stringFrom notNul (patch header 500 ys) 0 = stringIn notNul header 0 100 := by
    have hcells : cells (patch header 500 ys) 0 100 = cells header 0 100 :=
      cells_patch_before (by omega) (by omega)
    have hends : Ends notNul (patch header 500 ys) 0 100 := by
      unfold Ends
      rwa [hcells]
    rw [stringFrom_of_ends hends]
    unfold stringIn
    rw [hcells]
  have hshort : stringFrom notNul (patch header 500 [0, 0, 0]) 345 = prefixField header ++ [] :=
    stringFrom_patched [] [0, 0] (by omega) hfull (by simp) rfl
  have hlong : stringFrom notNul (patch header 500 [1, 1, 0]) 345 = prefixField header ++ [1, 1] :=
    stringFrom_patched [1, 1] [] (by omega) hfull (List.all_eq_true.mp rfl) rfl
  refine recordedName_ne ?_ (recordedName_patches hlength (.inr rfl) hexact)
  rw [hshort, hlong, hsame _ rfl, hsame _ rfl, List.length_append, List.length_append,
    Nat.add_right_comm]
  rfl

/-- Joined without a separator, a prefix and a name make the path in these cases only. -/
theorem cutSeparator_join_iff {pathPrefix name : CString} :
    cutSeparator (separator :: (pathPrefix ++ name)) = cutSeparator (separator ::
        if pathPrefix = [] then name else pathPrefix ++ separator :: name) ↔
      pathPrefix = [] ∨ name = [] ∧ pathPrefix.getLast? ≠ some separator := by
  by_cases hfront : pathPrefix = []
  · rw [if_pos hfront, hfront, List.nil_append]
    simp
  rw [if_neg hfront, or_iff_right hfront]
  by_cases hname : name = []
  · have hjoined : cutSeparator (separator :: (pathPrefix ++ [separator])) = separator :: pathPrefix := by
      unfold cutSeparator
      rw [← List.cons_append, List.getLast?_concat, if_pos rfl, List.dropLast_concat]
    have hlast : (separator :: pathPrefix).getLast? = pathPrefix.getLast? := by
      rw [List.getLast?_cons_of_ne_nil hfront]
    rw [hname, List.append_nil, hjoined, and_iff_right rfl]
    unfold cutSeparator
    rw [hlast]
    constructor
    · intro hcut hends
      rw [if_pos hends] at hcut
      have hlength := congrArg List.length hcut
      rw [List.length_dropLast, List.length_cons] at hlength
      omega
    · exact fun hends => if_neg hends
  · refine ⟨fun hcut => ?_, fun h => absurd h.1 hname⟩
    have hlast : (separator :: (pathPrefix ++ name)).getLast? =
        (separator :: (pathPrefix ++ separator :: name)).getLast? := by
      obtain ⟨last, hlast⟩ := Option.isSome_iff_exists.mp (List.getLast?_isSome.mpr hname)
      simp [List.getLast?_cons, List.getLast?_append, hlast]
    have hlength := length_cutSeparator_eq hlast (List.cons_ne_nil _ _) (List.cons_ne_nil _ _) hcut
    simp at hlength

/-- For one header. -/
theorem pathExact_recordedName_iff (behind : CString) (hlength : header.length = 512) :
    PathExact header (recordedName (header ++ behind)) ↔ PathFits header := by
  constructor
  · intro hexact
    have hname := name_ends_of_exact hlength hexact
    have hfront := prefix_ends_of_exact hlength hname hexact
    refine ⟨hname, hfront, cutSeparator_join_iff.mp ?_⟩
    rw [← recordedName_of_ends behind hlength hname hfront]
    exact hexact.path
  · rintro ⟨hname, hfront, hjoin⟩
    have hrecorded := recordedName_of_ends behind hlength hname hfront
    refine ⟨hrecorded.trans (cutSeparator_join_iff.mpr hjoin),
      fun header' behind' hlength' hsameName hsamePrefix => ?_⟩
    have hcells : cells header' 0 100 = cells header 0 100 := hsameName
    have hcells' : cells header' 345 155 = cells header 345 155 := hsamePrefix
    have hname' : Ends notNul header' 0 100 := by
      unfold Ends
      rwa [hcells]
    have hfront' : Ends notNul header' 345 155 := by
      unfold Ends
      rwa [hcells']
    rw [hrecorded, recordedName_of_ends behind' hlength' hname' hfront']
    unfold stringIn
    rw [hcells, hcells']

end Exact

/-- **Paths of members** are exact where the fields hold a NUL each and nothing has to be joined. -/
theorem pathExact_iff (block : BlockDevice) (behind : Nat → CString) (fuel : Nat) (u : Ustar)
    (hload : allocateBlock block behind fuel = some (some u)) (f : UstarFile) (hf : f ∈ u.files) :
    PathExact (block.block (f.offset - 1)) f.filename ↔ PathFits (block.block (f.offset - 1)) := by
  obtain ⟨j, rfl⟩ := mem_of_allocateBlock hload hf
  exact pathExact_recordedName_iff (behind j) (block.block_length j)

/-- A directory has no prefix, and a NUL behind its name. -/
theorem pathExact_iff_directory : ∃ u f,
    allocateBlock directoryArchive (fun _ => []) 2 = some (some u) ∧ f ∈ u.files ∧
      (PathExact (directoryArchive.block (f.offset - 1)) f.filename ↔
        PathFits (directoryArchive.block (f.offset - 1))) := by
  obtain ⟨u, f, hload, hf, -⟩ := directoryArchive_loaded
  exact ⟨u, f, hload, hf, pathExact_iff directoryArchive (fun _ => []) 2 u hload f hf⟩

/-! ### An archive of one member with a prefix -/

def memberHeader (name size : String) (type : UInt8) (pathPrefix : String) : List UInt8 :=
  field 100 name ++ field 8 "0000755" ++ field 8 "0000000" ++ field 8 "0000000" ++ field 12 size ++
    field 12 "00000000000" ++ field 8 "" ++ [type] ++ field 100 "" ++ field 6 "ustar" ++ field 2 "00" ++
    field 80 "" ++ field 155 pathPrefix ++ field 12 ""

theorem length_field (width : Nat) (s : String) : (field width s).length = width := by
  unfold field
  rw [List.length_take, List.length_append, List.length_replicate]
  omega

@[simp] theorem length_memberHeader (name size : String) (type : UInt8) (pathPrefix : String) :
    (memberHeader name size type pathPrefix).length = 512 := by
  simp only [memberHeader, List.length_append, length_field, List.length_singleton]

/-- A device that holds these blocks. -/
def archiveOf (blocks : List (List UInt8)) (h : ∀ b ∈ blocks, b.length = 512) : BlockDevice where
  size := blocks.length
  block i := blocks.getD i (List.replicate 512 0)
  block_length i := by
    by_cases hi : i < blocks.length
    · rw [List.getD_eq_getElem _ _ hi]
      exact h _ (List.getElem_mem hi)
    · rw [List.getD_eq_default _ _ (Nat.le_of_not_lt hi), List.length_replicate]

def prefixArchive : BlockDevice :=
  archiveOf [memberHeader "bin" "00000000000" UstarType.directory "usr"] (by simp)

/-- The directory `usr/bin` is recorded as `/usrbin`. -/
theorem not_pathExact_prefix : ∃ u f,
    allocateBlock prefixArchive (fun _ => []) 2 = some (some u) ∧ f ∈ u.files ∧
      ¬ PathExact (prefixArchive.block (f.offset - 1)) f.filename := by
  have hrun : ((allocateBlock prefixArchive (fun _ => []) 2).bind id).any fun u =>
      u.files.any fun f => f.offset == 1 && f.filename == cString "/usrbin" := by
    decide
  obtain ⟨u, f, hload, hf, hfile⟩ := exists_loaded_member hrun
  simp only [Bool.and_eq_true, beq_iff_eq] at hfile
  refine ⟨u, f, hload, hf, fun hexact => ?_⟩
  have hpath := hexact.path
  rw [hfile.1, hfile.2] at hpath
  revert hpath
  decide

end Helos.Ustar
