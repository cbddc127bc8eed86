import Helos.Filesystem.Ustar

/-!
# File types in an archive

The loader masks the permission bits of a file with the bits of its type, where it means to add
them: no file of a loaded archive has a type. Its operations then take every member for a file that
is neither a directory nor a link.
-/

namespace Helos.Ustar

open Filesystem

/-! ### What is loaded -/

/-- Every file comes from the header in the block before its data. -/
theorem mem_of_allocateFrom {block : BlockDevice} {behind : Nat → CString} {fuel : Nat} {i : Int}
    {files loaded : List UstarFile} (h : allocateFrom block behind fuel i files = some (some loaded))
    {f : UstarFile} (hf : f ∈ loaded) :
    f ∈ files ∨ ∃ j, f = readHeader (readBuffer block behind j) j := by
  induction fuel generalizing i files with
  | zero => cases h
  | succ fuel ih =>
    rw [allocateFrom] at h
    split at h
    · dsimp only at h
      split at h
      · split at h
        · cases h
        · cases h
          exact .inl hf
      · rcases ih h with hf | hf
        · rcases List.mem_append.mp hf with hf | hf
          · exact .inl hf
          · exact .inr ⟨_, List.mem_singleton.mp hf⟩
        · exact .inr hf
    · cases h
      exact .inl hf

theorem mem_of_allocateBlock {block : BlockDevice} {behind : Nat → CString} {fuel : Nat} {u : Ustar}
    (h : allocateBlock block behind fuel = some (some u)) {f : UstarFile} (hf : f ∈ u.files) :
    ∃ j, f = readHeader (readBuffer block behind j) j := by
  obtain ⟨loaded, hloaded, hmap⟩ := Option.map_eq_some_iff.mp h
  obtain ⟨files, rfl, rfl⟩ := Option.map_eq_some_iff.mp hmap
  exact (mem_of_allocateFrom hloaded hf).resolve_left List.not_mem_nil

/-- The permission bits hold no type, masked or not. -/
theorem readHeader_mode (buf : List UInt8) (i : Nat) : (readHeader buf i).mode &&& sIFMT = 0 := by
  have hdisjoint : (0x1FF : UInt16) &&& sIFMT = 0 := by decide
  have hmasked : ∀ mode mask : UInt16, mode &&& 0x1FF &&& mask &&& sIFMT = 0 := fun mode mask => by
    rw [UInt16.and_assoc, UInt16.and_comm mask, ← UInt16.and_assoc, UInt16.and_assoc mode, hdisjoint]
    simp
  unfold readHeader permissions
  dsimp only
  split
  · exact hmasked _ _
  · rw [UInt16.and_assoc, hdisjoint]
    simp

theorem typeMask_ne_zero {type : UInt8} {bits : UInt16} (h : typeMask type = some bits) : bits ≠ 0 := by
  unfold typeMask at h
  split_ifs at h <;> cases h <;> decide

/-! ### What the operations see -/

theorem findFile_mem {u : Ustar} {path : CString} {i : Nat} {f : UstarFile}
    (h : u.findFile path = some (i, f)) : f ∈ u.files := by
  obtain ⟨found, hfound, heq⟩ := Option.map_eq_some_iff.mp h
  have hmem := List.mem_of_find?_eq_some hfound
  rw [← (Prod.mk.inj heq).2]
  exact (List.mem_zipIdx' hmem).2 ▸ List.getElem_mem _

theorem exists_findFile {u : Ustar} {f : UstarFile} (h : f ∈ u.files) :
    ∃ i g, u.findFile f.filename = some (i, g) ∧ g ∈ u.files := by
  obtain ⟨k, hk, rfl⟩ := List.getElem_of_mem h
  have hsome : (u.files.zipIdx.find? fun g => g.1.filename == u.files[k].filename).isSome := by
    rw [List.find?_isSome]
    exact ⟨(u.files[k], k), List.mem_zipIdx_iff_getElem?.mpr (List.getElem?_eq_getElem hk), beq_self_eq_true _⟩
  obtain ⟨g, hg⟩ := Option.isSome_iff_exists.mp hsome
  have hfind : u.findFile u.files[k].filename = some (g.2, g.1) := by
    unfold findFile
    rw [hg]
    rfl
  exact ⟨g.2, g.1, hfind, findFile_mem hfind⟩

/-- What is meant: the operations on a member's path agree with the type and the permissions in its
header. -/
structure TypeSurvives (u : Ustar) (buf : List UInt8) (path : CString) (type : UInt16) : Prop where
  getattr : ∀ stat, (u.getattr path stat).1 = 0 ∧ (u.getattr path stat).2.mode &&& sIFMT = type ∧
    (u.getattr path stat).2.mode &&& 0x1FF = permissions buf
  opendir : (u.opendir path).1 = 0 ↔ type = sIFDIR
  readlink : (∀ bufferSize, (UstarMetadata.linkname buf).length < bufferSize →
    u.readlink path bufferSize = (0, UstarMetadata.linkname buf ++ [0])) ↔ type = sIFLNK
  openFile : (u.openFile path).1 = 0 ↔ type ≠ sIFDIR ∧ type ≠ sIFLNK

/-- **File types are lost**, those of every member of every archive that is loaded. -/
theorem types_lost (block : BlockDevice) (behind : Nat → CString) (fuel : Nat) (u : Ustar)
    (hload : allocateBlock block behind fuel = some (some u)) (f : UstarFile) (hf : f ∈ u.files)
    (type : UInt16)
    (htype : typeMask (UstarMetadata.type (readBuffer block behind (f.offset - 1))) = some type) :
    ¬ TypeSurvives u (readBuffer block behind (f.offset - 1)) f.filename type := by
  intro hsurvives
  have hmode : ∀ g ∈ u.files, g.mode &&& sIFMT = 0 := by
    intro g hg
    obtain ⟨j, rfl⟩ := mem_of_allocateBlock hload hg
    exact readHeader_mode _ j
  obtain ⟨i, g, hfind, hg⟩ := exists_findFile hf
  have hgetattr := (hsurvives.getattr (statOf f)).2.1
  unfold Ustar.getattr at hgetattr
  split at hgetattr
  · -- the root reports a directory, and opens as a file
    have hdir : type = sIFDIR := by
      rw [← hgetattr]
      exact show (sIFDIR ||| 0x1ED) &&& sIFMT = sIFDIR by decide
    have hopen : (u.openFile f.filename).1 = 0 := by
      unfold Ustar.openFile
      rw [hfind]
      dsimp only
      rw [hmode g hg, if_neg (by decide)]
    exact (hsurvives.openFile.mp hopen).1 hdir
  · rw [hfind] at hgetattr
    exact typeMask_ne_zero htype (hgetattr.symm.trans (hmode g hg))

/-! ### An archive of one directory -/

/-- A string in a field of its own, filled up with NULs. -/
def field (width : Nat) (s : String) : List UInt8 :=
  ((cString s) ++ List.replicate width 0).take width

def directoryHeader : List UInt8 :=
  field 100 "d/" ++ field 8 "0000755" ++ field 8 "0000000" ++ field 8 "0000000" ++
    field 12 "00000000000" ++ field 12 "00000000000" ++ field 8 "" ++ [UstarType.directory] ++
    field 100 "" ++ field 6 "ustar" ++ field 2 "00" ++ field 247 ""

def directoryArchive : BlockDevice where
  size := 1
  block i := if i = 0 then directoryHeader else List.replicate 512 0
  block_length i := by
    split
    · decide +kernel
    · exact List.length_replicate

/-- A load that was run, and a member for which a test came out true. -/
theorem exists_loaded_member {block : BlockDevice} {behind : Nat → CString} {fuel : Nat}
    {test : Ustar → UstarFile → Bool}
    (hrun : (((allocateBlock block behind fuel).bind id).any fun u => u.files.any (test u)) = true) :
    ∃ u f, allocateBlock block behind fuel = some (some u) ∧ f ∈ u.files ∧ test u f = true := by
  obtain ⟨u, hu, hany⟩ := (Option.any_eq_true _ _).mp hrun
  obtain ⟨loaded, hloaded, hid⟩ := Option.bind_eq_some_iff.mp hu
  obtain ⟨f, hf, htest⟩ := List.any_eq_true.mp hany
  rw [id] at hid
  exact ⟨u, f, hid ▸ hloaded, hf, htest⟩

theorem directoryArchive_loaded : ∃ u f,
    allocateBlock directoryArchive (fun _ => []) 2 = some (some u) ∧ f ∈ u.files ∧
      f.offset = 1 ∧ f.filename = cString "/d" ∧ (u.opendir f.filename).1 = -eINVAL := by
  have hrun : ((allocateBlock directoryArchive (fun _ => []) 2).bind id).any fun u =>
      u.files.any fun f => f.offset == 1 && f.filename == cString "/d" &&
        (u.opendir f.filename).1 == -eINVAL := by
    decide
  obtain ⟨u, f, hload, hf, hfile⟩ := exists_loaded_member hrun
  simp only [Bool.and_eq_true, beq_iff_eq] at hfile
  exact ⟨u, f, hload, hf, hfile.1.1, hfile.1.2, hfile.2⟩

theorem directoryArchive_type :
    typeMask (UstarMetadata.type (readBuffer directoryArchive (fun _ => []) 0)) = some sIFDIR := by
  decide

/-- A directory that cannot be opened as one. -/
theorem directory_not_opened : ∃ u f,
    allocateBlock directoryArchive (fun _ => []) 2 = some (some u) ∧ f ∈ u.files ∧
      ¬ TypeSurvives u (readBuffer directoryArchive (fun _ => []) (f.offset - 1)) f.filename sIFDIR := by
  obtain ⟨u, f, hload, hf, -, -, hopendir⟩ := directoryArchive_loaded
  refine ⟨u, f, hload, hf, fun hsurvives => ?_⟩
  have hret := hsurvives.opendir.mpr rfl
  rw [hopendir] at hret
  exact absurd hret (by decide)

theorem types_lost_directory : ∃ u f,
    allocateBlock directoryArchive (fun _ => []) 2 = some (some u) ∧ f ∈ u.files ∧
      ¬ TypeSurvives u (readBuffer directoryArchive (fun _ => []) (f.offset - 1)) f.filename sIFDIR := by
  obtain ⟨u, f, hload, hf, hoffset, -⟩ := directoryArchive_loaded
  refine ⟨u, f, hload, hf, types_lost directoryArchive (fun _ => []) 2 u hload f hf sIFDIR ?_⟩
  rw [hoffset]
  exact directoryArchive_type

end Helos.Ustar
