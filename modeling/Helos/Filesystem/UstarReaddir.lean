import Helos.Filesystem.UstarTypes
import Mathlib.Data.List.GetD

/-!
# Reading a directory of an archive

`USTAR::Readdir` goes through all files and passes on those one level below the directory. The entry of
the directory itself, at its handle, is left out by index, although its name would leave it out too.
-/

namespace Helos

open Filesystem

/-- What the callback is called with. -/
structure DirEntry where
  name : CString
  stat : Ustar.Stat
  flags : UInt32

/-- `Readdir_CallbackFlags_StatValid` -/
def readdirStatValid : UInt32 := 1

namespace Ustar

/-- `for (int j = pathlen + 1; j < curlen; j++)`, until there is a separator. -/
def separatorBehind (filename : CString) (pathlen : Nat) : Bool :=
  (List.range' (pathlen + 1) (filename.length - (pathlen + 1))).any fun j =>
    filename.getD j 0 == separator

/-- One turn of the loop: what it calls the callback with. -/
def visit (path : CString) (handle : Nat) (file : UstarFile) (i : Nat) : Option DirEntry :=
  let pathlen := path.length
  if i = handle ∨ file.filename.take pathlen ≠ path ∨ file.filename.getD pathlen 0 ≠ separator then none
  else if separatorBehind file.filename pathlen then none
  else
    some
      { name := file.filename.drop (pathlen + 1), stat := statOf file, flags := readdirStatValid }

/-- `USTAR::Readdir`, with the calls it makes in order. -/
def readdir (u : Ustar) (path : CString) (handle : Nat) : Int × List DirEntry :=
  let path := if path = [separator] then path.tail else path
  (0, u.files.zipIdx.filterMap fun file => visit path handle file.1 file.2)

/-! ### Children -/

/-- The file is in the directory, and by this name. -/
def IsChild (dir filename name : CString) : Prop :=
  filename = dir ++ separator :: name ∧ separator ∉ name

instance (dir filename name : CString) : Decidable (IsChild dir filename name) :=
  inferInstanceAs (Decidable (_ ∧ _))

/-- The root is the empty path. -/
def dirOf (path : CString) : CString := if path = [separator] then [] else path

def childEntry (dir : CString) (file : UstarFile) : Option DirEntry :=
  let name := file.filename.drop (dir.length + 1)
  if IsChild dir file.filename name then
    some { name, stat := statOf file, flags := readdirStatValid }
  else none

def children (u : Ustar) (dir : CString) : List DirEntry := u.files.filterMap (childEntry dir)

section Child

variable {dir filename name path : CString} {file : UstarFile} {u : Ustar} {handle i : Nat}

theorem IsChild.name_eq (h : IsChild dir filename name) : name = filename.drop (dir.length + 1) := by
  rw [h.1, ← List.drop_drop, List.drop_left]
  rfl

theorem getD_behind (dir name : CString) (k : Nat) :
    (dir ++ separator :: name).getD (dir.length + 1 + k) 0 = name.getD k 0 := by
  have hindex : dir.length + 1 + k - dir.length = k + 1 := by omega
  rw [List.getD_append_right _ _ _ _ (by omega), hindex, List.getD_cons_succ]

theorem separatorBehind_append (dir name : CString) :
    separatorBehind (dir ++ separator :: name) dir.length = decide (separator ∈ name) := by
  have hlength : (dir ++ separator :: name).length - (dir.length + 1) = name.length := by
    rw [List.length_append, List.length_cons]
    omega
  unfold separatorBehind
  rw [hlength, Bool.eq_iff_iff, List.any_eq_true, decide_eq_true_iff]
  constructor
  · rintro ⟨j, hj, hsep⟩
    obtain ⟨k, hk, rfl⟩ := List.mem_range'.mp hj
    rw [Nat.one_mul, getD_behind, List.getD_eq_getElem _ _ hk, beq_iff_eq] at hsep
    exact hsep ▸ List.getElem_mem hk
  · intro hmem
    obtain ⟨k, hk, hsep⟩ := List.getElem_of_mem hmem
    refine ⟨dir.length + 1 + k, List.mem_range'.mpr ⟨k, hk, by rw [Nat.one_mul]⟩, ?_⟩
    rw [getD_behind, List.getD_eq_getElem _ _ hk, hsep, beq_self_eq_true]

/-- A path that goes on with a separator. -/
theorem take_getD_iff : filename.take dir.length = dir ∧ filename.getD dir.length 0 = separator ↔
    ∃ name, filename = dir ++ separator :: name := by
  constructor
  · rintro ⟨htake, hsep⟩
    have hlt : dir.length < filename.length := by
      by_contra hge
      rw [List.getD_eq_default _ _ (Nat.not_lt.mp hge)] at hsep
      exact absurd hsep (by decide)
    rw [List.getD_eq_getElem _ _ hlt] at hsep
    refine ⟨filename.drop (dir.length + 1), ?_⟩
    conv_lhs => rw [← List.take_append_drop dir.length filename, htake]
    rw [List.drop_eq_getElem_cons hlt, hsep]
  · rintro ⟨name, rfl⟩
    exact ⟨List.take_left, by rw [List.getD_append_right _ _ _ _ (Nat.le_refl _), Nat.sub_self]; rfl⟩

theorem visit_eq_childEntry (hi : i = handle → file.filename.length ≤ dir.length) :
    visit dir handle file i = childEntry dir file := by
  unfold visit childEntry
  dsimp only
  by_cases hbelow : ∃ name, file.filename = dir ++ separator :: name
  · obtain ⟨htake, hsep⟩ := take_getD_iff.mpr hbelow
    obtain ⟨name, hname⟩ := hbelow
    have hne : i ≠ handle := by
      intro heq
      have hle := hi heq
      rw [hname, List.length_append, List.length_cons] at hle
      omega
    have hdrop : file.filename.drop (dir.length + 1) = name := by
      rw [hname, ← List.drop_drop, List.drop_left]
      rfl
    have htest : ¬ (i = handle ∨ file.filename.take dir.length ≠ dir ∨
        file.filename.getD dir.length 0 ≠ separator) := by
      rintro (heq | htake' | hsep')
      · exact hne heq
      · exact htake' htake
      · exact hsep' hsep
    rw [if_neg htest, hdrop]
    by_cases hmem : separator ∈ name
    · have hfound : separatorBehind file.filename dir.length = true := by
        rw [hname, separatorBehind_append]
        exact decide_eq_true hmem
      rw [if_pos hfound, if_neg fun hchild => hchild.2 hmem]
    · have hfound : ¬ separatorBehind file.filename dir.length = true := by
        rw [hname, separatorBehind_append]
        simpa using hmem
      rw [if_neg hfound, if_pos ⟨hname, hmem⟩]
  · have htest : file.filename.take dir.length ≠ dir ∨ file.filename.getD dir.length 0 ≠ separator := by
      rw [← not_and_or, take_getD_iff]
      exact hbelow
    rw [if_pos (.inr htest), if_neg fun hchild => hbelow ⟨_, hchild.1⟩]

/-- At its handle there is no file, or the directory itself. -/
theorem handle_of_opendir (hopen : u.opendir path = (0, some handle))
    (hfile : (file, handle) ∈ u.files.zipIdx) : file.filename = dirOf path := by
  have hget : u.files[handle]? = some file := List.mem_zipIdx_iff_getElem?.mp hfile
  unfold opendir at hopen
  unfold dirOf
  split at hopen
  · obtain rfl := Option.some.inj (Prod.mk.inj hopen).2
    rw [List.getElem?_eq_none (Nat.le_refl _)] at hget
    cases hget
  · next hroot =>
    rw [if_neg hroot]
    split at hopen
    · next i found hfind =>
      split at hopen
      · cases (Prod.mk.inj hopen).2
      · obtain rfl := Option.some.inj (Prod.mk.inj hopen).2
        obtain ⟨entry, hentry, hpair⟩ := Option.map_eq_some_iff.mp hfind
        have hsame := List.mem_zipIdx_iff_getElem?.mp (List.mem_of_find?_eq_some hentry)
        rw [(Prod.mk.inj hpair).1, hget] at hsame
        have hname := List.find?_some hentry
        rw [← Option.some.inj hsame] at hname
        exact eq_of_beq hname
    · cases (Prod.mk.inj hopen).2

/-- The file at the handle is left out, for it is the directory. -/
theorem readdir_eq_children
    (hhandle : ∀ file ∈ u.files.zipIdx, file.2 = handle → file.1.filename = dirOf path) :
    u.readdir path handle = (0, u.children (dirOf path)) := by
  have hdir : (if path = [separator] then path.tail else path) = dirOf path := by
    unfold dirOf
    split
    · next hroot => rw [hroot, List.tail_cons]
    · rfl
  have hvisit : ∀ file ∈ u.files.zipIdx,
      visit (dirOf path) handle file.1 file.2 = childEntry (dirOf path) file.1 := by
    intro file hfile
    apply visit_eq_childEntry
    intro heq
    rw [hhandle file hfile heq]
  unfold readdir children
  dsimp only
  rw [hdir, List.filterMap_congr hvisit]
  congr 1
  calc u.files.zipIdx.filterMap (fun file => childEntry (dirOf path) file.1)
      = (u.files.zipIdx.map Prod.fst).filterMap (childEntry (dirOf path)) := by
        rw [List.filterMap_map]
        rfl
    _ = u.files.filterMap (childEntry (dirOf path)) := by rw [List.zipIdx_map_fst]

end Child

/-- **Reading a directory** calls the callback for its children, each once and in archive order. -/
theorem readdir_children (u : Ustar) (path : CString) (handle : Nat)
    (hopen : u.opendir path = (0, some handle)) :
    u.readdir path handle = (0, u.children (dirOf path)) := by
  refine readdir_eq_children fun file hfile heq => ?_
  subst heq
  exact handle_of_opendir hopen hfile

/-- A directory, a file in it, one that is a level deeper and one whose name only begins alike. -/
def fourFiles : Ustar :=
  let file (filename : String) (mode : UInt16) : UstarFile :=
    { offset := 1, filename := cString filename, linkname := none, size := 0, lastmodify := 0, mode,
      owner := 0, group := 0 }
  { files := [file "/a" sIFDIR, file "/a/b" sIFREG, file "/a/b/c" sIFREG, file "/ab" sIFREG]
    block := directoryArchive }

theorem readdir_children_four :
    fourFiles.opendir (cString "/a") = (0, some 0) ∧
      fourFiles.readdir (cString "/a") 0 = (0, fourFiles.children (dirOf (cString "/a"))) := by
  have hopen : fourFiles.opendir (cString "/a") = (0, some 0) := by decide
  exact ⟨hopen, readdir_children fourFiles (cString "/a") 0 hopen⟩

example : (fourFiles.children (dirOf (cString "/a"))).map DirEntry.name = [cString "b"] := by
  decide

end Ustar

end Helos
