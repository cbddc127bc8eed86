import Helos.Filesystem.Vfs
import Mathlib.Data.List.DropRight
import Mathlib.Data.List.GetD
import Mathlib.Data.List.Induction
import Mathlib.Data.List.Nodup

/-!
# Path resolution

The filesystem of a path is meant to be the one mounted at its longest prefix of whole components.
The code takes the first mount in order of registration whose point is a prefix of the string, and
hands the path over whole when the filesystem found is also the one mounted at the root.
-/

namespace Helos

open Filesystem

def Absolute (path : CString) : Prop := path.head? = some separator

instance (path : CString) : Decidable (Absolute path) := inferInstanceAs (Decidable (_ = _))

abbrev AbsolutePath := {path : CString // Absolute path}

theorem Absolute.eq_cons {path : CString} (h : Absolute path) : ∃ rest, path = separator :: rest :=
  List.head?_eq_some_iff.mp h

/-! ### Trailing separators -/

theorem strippedLength_append (path more : CString) (len : Nat) (h : len ≤ path.length) :
    strippedLength (path ++ more) len = strippedLength path len := by
  fun_induction strippedLength path len with
  | case1 len hsep ih =>
    rw [strippedLength, List.getD_append _ _ _ _ h, if_pos hsep, ih (by omega)]
  | case2 len hsep => rw [strippedLength, List.getD_append _ _ _ _ h, if_neg hsep]
  | case3 len hlen =>
    match len with
    | 0 => rfl
    | 1 => rfl
    | len + 2 => exact absurd rfl (hlen len)

theorem strippedLength_le (path : CString) (len : Nat) : strippedLength path len ≤ len := by
  fun_induction strippedLength path len with
  | case1 len hsep ih => omega
  | case2 len hsep => exact Nat.le_refl _
  | case3 len hlen => exact Nat.le_refl _

/-- The first byte stays, and trailing separators after it go. -/
theorem stripSeparators_cons (first : UInt8) (rest : CString) :
    stripSeparators (first :: rest) = first :: rest.rdropWhile (· == separator) := by
  induction rest using List.reverseRecOn with
  | nil => rfl
  | append_singleton rest last ih =>
    have hlast : (first :: (rest ++ [last])).getD (rest.length + 1) 0 = last := by simp
    have hcons : first :: (rest ++ [last]) = (first :: rest) ++ [last] := rfl
    unfold stripSeparators at ih ⊢
    rw [List.length_cons, List.length_append, List.length_singleton, strippedLength, hlast,
      List.rdropWhile_concat]
    simp only [beq_iff_eq]
    split
    · have hle := strippedLength_le (first :: rest) (rest.length + 1)
      rw [hcons, strippedLength_append (first :: rest) [last] (rest.length + 1) (Nat.le_refl _),
        List.take_append_of_le_length hle]
      exact ih
    · exact List.take_of_length_le (by simp)

theorem Absolute.strip {path : CString} (h : Absolute path) : Absolute (stripSeparators path) := by
  obtain ⟨rest, rfl⟩ := h.eq_cons
  rw [stripSeparators_cons]
  rfl

theorem strip_idempotent {path : CString} (h : Absolute path) :
    stripSeparators (stripSeparators path) = stripSeparators path := by
  obtain ⟨rest, rfl⟩ := h.eq_cons
  rw [stripSeparators_cons, stripSeparators_cons, List.rdropWhile_idempotent]

theorem stripSeparators_le {path : CString} (h : Absolute path) : stripSeparators path <+: path := by
  obtain ⟨rest, rfl⟩ := h.eq_cons
  rw [stripSeparators_cons]
  exact (List.prefix_cons_inj _).mpr (List.rdropWhile_prefix _ _)

/-- A vector keeps its keys apart when one is pushed that no entry has. -/
theorem nodup_map_push {α β : Type*} {f : α → β} {l : List α} {a : α} (h : (l.map f).Nodup)
    (hne : ∀ b ∈ l, f b ≠ f a) : ((l ++ [a]).map f).Nodup := by
  rw [List.map_append, List.nodup_append]
  refine ⟨h, List.nodup_singleton _, fun p hp q hq => ?_⟩
  obtain ⟨b, hb, rfl⟩ := List.mem_map.mp hp
  rw [List.map_singleton, List.mem_singleton] at hq
  rw [hq]
  exact hne b hb

namespace VirtualFilesystem

variable {φ : Type*}

/-! ### What mounting leaves -/

structure MountCall (φ : Type*) where
  mountPoint : AbsolutePath
  source : CString
  fs : Option φ

def mountAll (calls : List (MountCall φ)) : VirtualFilesystem φ :=
  calls.foldl (fun v c => (v.mount c.mountPoint c.source c.fs).2) { root := none, mounts := [] }

/-- Points are absolute and have no trailing separators, and no point is registered twice. -/
structure Registered (v : VirtualFilesystem φ) : Prop where
  absolute : ∀ m ∈ v.mounts, Absolute m.mountPoint
  stripped : ∀ m ∈ v.mounts, stripSeparators m.mountPoint = m.mountPoint
  nodup : (v.mounts.map VfsMount.mountPoint).Nodup

theorem registered_empty : Registered (φ := φ) { root := none, mounts := [] } :=
  ⟨by simp, by simp, by simp⟩

theorem Registered.mount {v : VirtualFilesystem φ} (h : v.Registered) {mountPoint : CString}
    (habs : Absolute mountPoint) (source : CString) (fs : Option φ) :
    (v.mount mountPoint source fs).2.Registered := by
  unfold VirtualFilesystem.mount
  split
  · exact h
  · next fs =>
    dsimp only
    split_ifs with hroot hexist
    · exact ⟨h.absolute, h.stripped, h.nodup⟩
    · exact h
    · simp only [List.any_eq_true, beq_iff_eq, not_exists, not_and] at hexist
      refine ⟨fun m hm => ?_, fun m hm => ?_, nodup_map_push h.nodup hexist⟩
      · rcases List.mem_append.mp hm with hm | hm
        · exact h.absolute m hm
        · rw [List.mem_singleton.mp hm]
          exact habs.strip
      · rcases List.mem_append.mp hm with hm | hm
        · exact h.stripped m hm
        · rw [List.mem_singleton.mp hm]
          exact strip_idempotent habs

theorem registered_mountAll (calls : List (MountCall φ)) : (mountAll calls).Registered := by
  have hfold : ∀ v : VirtualFilesystem φ, v.Registered →
      (calls.foldl (fun v c => (v.mount c.mountPoint c.source c.fs).2) v).Registered := by
    induction calls with
    | nil => exact fun v hv => hv
    | cons c calls ih => exact fun v hv => ih _ (hv.mount c.mountPoint.2 c.source c.fs)
  exact hfold _ registered_empty

/-! ### The resolution that is meant -/

/-- The point is the path, or a separator follows it there. -/
def Covers (m : VfsMount φ) (path : CString) : Prop :=
  m.mountPoint = path ∨ m.mountPoint ++ [separator] <+: path

theorem Covers.isPrefix {m : VfsMount φ} {path : CString} (h : Covers m path) : m.mountPoint <+: path := by
  rcases h with rfl | h
  · exact List.prefix_rfl
  · exact (List.prefix_append _ _).trans h

/-- What is left of a path is empty or begins with the separator that follows the point. -/
theorem Covers.remainder {m : VfsMount φ} {path : CString} (h : Covers m path) :
    path.drop m.mountPoint.length = [] ∨ Absolute (path.drop m.mountPoint.length) := by
  rcases h with heq | ⟨rest, hrest⟩
  · rw [heq, List.drop_length]
    exact .inl rfl
  · rw [← hrest, List.append_assoc, List.drop_left]
    exact .inr rfl

/-- The mount whose point is the longest prefix of the path in components. -/
def Nearest (v : VirtualFilesystem φ) (path : CString) (m : VfsMount φ) : Prop :=
  m ∈ v.mounts ∧ Covers m path ∧
    ∀ other ∈ v.mounts, Covers other path → other.mountPoint.length ≤ m.mountPoint.length

/-- What `FilesystemOfPath` is meant to return, whatever the order of the mounts. -/
def Resolves (v : VirtualFilesystem φ) (path : CString) (result : Option φ × CString) : Prop :=
  ((∃ m, v.Nearest path m ∧ result = (some m.fs, path.drop m.mountPoint.length)) ∨
      ((∀ m ∈ v.mounts, ¬ Covers m path) ∧ result = (v.rootFs, path))) ∧
    (result.2 = [] ∨ Absolute result.2)

theorem Nearest.unique {v : VirtualFilesystem φ} (h : v.Registered) {path : CString} {m m' : VfsMount φ}
    (hm : v.Nearest path m) (hm' : v.Nearest path m') : m = m' := by
  have hlen : m.mountPoint.length = m'.mountPoint.length :=
    Nat.le_antisymm (hm'.2.2 m hm.1 hm.2.1) (hm.2.2 m' hm'.1 hm'.2.1)
  have hpoint : m.mountPoint = m'.mountPoint :=
    (List.prefix_of_prefix_length_le hm.2.1.isPrefix hm'.2.1.isPrefix hlen.le).eq_of_length hlen
  exact List.inj_on_of_nodup_map h.nodup hm.1 hm'.1 hpoint

/-- The meant resolution does not depend on the order of registration. -/
theorem Resolves.unique {v v' : VirtualFilesystem φ} (h : v.Registered) {path : CString}
    (hperm : v.mounts.Perm v'.mounts) (hroot : v.rootFs = v'.rootFs) {r r' : Option φ × CString}
    (hr : v.Resolves path r) (hr' : v'.Resolves path r') : r = r' := by
  have hnearest : ∀ m, v'.Nearest path m → v.Nearest path m := fun m hm =>
    ⟨hperm.mem_iff.mpr hm.1, hm.2.1, fun other hother => hm.2.2 other (hperm.mem_iff.mp hother)⟩
  rcases hr.1 with ⟨m, hm, rfl⟩ | ⟨hnone, rfl⟩
  · rcases hr'.1 with ⟨m', hm', rfl⟩ | ⟨hnone', -⟩
    · rw [hm.unique h (hnearest m' hm')]
    · exact absurd hm.2.1 (hnone' m (hperm.mem_iff.mp hm.1))
  · rcases hr'.1 with ⟨m', hm', -⟩ | ⟨-, rfl⟩
    · exact absurd hm'.2.1 (hnone m' (hperm.mem_iff.mpr hm'.1))
    · rw [hroot]

/-! ### The resolution of the code -/

/-- The mount registered first among those whose point, longer than `/`, begins the string. -/
def FirstPrefix (v : VirtualFilesystem φ) (path : CString) (m : VfsMount φ) : Prop :=
  ∃ before after, v.mounts = before ++ m :: after ∧
    (m.mountPoint <+: path ∧ 1 < m.mountPoint.length) ∧
    ∀ other ∈ before, ¬ (other.mountPoint <+: path ∧ 1 < other.mountPoint.length)

theorem stringPrefix_iff (path : CString) (m : VfsMount φ) :
    stringPrefix path m = true ↔ m.mountPoint <+: path ∧ 1 < m.mountPoint.length := by
  simp [stringPrefix]

theorem firstPrefix_iff (v : VirtualFilesystem φ) (path : CString) (m : VfsMount φ) :
    v.FirstPrefix path m ↔ v.mounts.find? (stringPrefix path) = some m := by
  rw [List.find?_eq_some_iff_append, stringPrefix_iff]
  simp only [Bool.not_eq_true', ← Bool.not_eq_true, stringPrefix_iff]
  unfold FirstPrefix
  constructor
  · rintro ⟨before, after, hsplit, hm, hbefore⟩
    exact ⟨hm, before, after, hsplit, hbefore⟩
  · rintro ⟨hm, before, after, hsplit, hbefore⟩
    exact ⟨before, after, hsplit, hm, hbefore⟩

theorem FirstPrefix.unique {v : VirtualFilesystem φ} {path : CString} {m m' : VfsMount φ}
    (h : v.FirstPrefix path m) (h' : v.FirstPrefix path m') : m = m' := by
  rw [firstPrefix_iff] at h h'
  exact Option.some.inj (h.symm.trans h')

theorem FirstPrefix.mem {v : VirtualFilesystem φ} {path : CString} {m : VfsMount φ}
    (h : v.FirstPrefix path m) : m ∈ v.mounts := by
  obtain ⟨before, after, hsplit, -⟩ := h
  rw [hsplit]
  exact List.mem_append_right _ List.mem_cons_self

theorem FirstPrefix.isPrefix {v : VirtualFilesystem φ} {path : CString} {m : VfsMount φ}
    (h : v.FirstPrefix path m) : m.mountPoint <+: path := by
  obtain ⟨before, after, -, hm, -⟩ := h
  exact hm.1

/-- No point is empty, so a remainder is never the whole path. -/
theorem Registered.ne_remainder {v : VirtualFilesystem φ} (h : v.Registered) {path : CString}
    (hpath : Absolute path) {m : VfsMount φ} (hm : m ∈ v.mounts) :
    path ≠ path.drop m.mountPoint.length := by
  intro heq
  obtain ⟨rest, hrest⟩ := (h.absolute m hm).eq_cons
  obtain ⟨tail, htail⟩ := hpath.eq_cons
  have hlen := congrArg List.length heq
  rw [List.length_drop, hrest, htail, List.length_cons, List.length_cons] at hlen
  omega

/-- Points with the same remainder are the same. -/
theorem FirstPrefix.eq_of_remainder {v : VirtualFilesystem φ} (hreg : v.Registered)
    {path : CString} {m near : VfsMount φ} (hm : v.FirstPrefix path m) (hnear : v.Nearest path near)
    (hrest : path.drop m.mountPoint.length = path.drop near.mountPoint.length) : m = near := by
  have hstart := hm.isPrefix
  have hstart' := hnear.2.1.isPrefix
  have hlen := congrArg List.length hrest
  rw [List.length_drop, List.length_drop] at hlen
  have hle := hstart.length_le
  have hle' := hstart'.length_le
  have hpoint : m.mountPoint = near.mountPoint :=
    (List.prefix_of_prefix_length_le hstart hstart' (by omega)).eq_of_length (by omega)
  exact List.inj_on_of_nodup_map hreg.nodup hm.mem hnear.1 hpoint

variable [DecidableEq φ]

theorem filesystemOfPath_first {v : VirtualFilesystem φ} {path : CString} {m : VfsMount φ}
    (h : v.FirstPrefix path m) :
    v.filesystemOfPath path =
      (some m.fs, if some m.fs = v.rootFs then path else path.drop m.mountPoint.length) := by
  have hne : path ≠ [separator] := by
    obtain ⟨before, after, -, hm, -⟩ := h
    intro heq
    have hlen := hm.1.length_le
    rw [heq, List.length_singleton] at hlen
    omega
  rw [firstPrefix_iff] at h
  simp only [filesystemOfPath, if_neg hne, h]

theorem filesystemOfPath_none {v : VirtualFilesystem φ} {path : CString}
    (h : ∀ m, ¬ v.FirstPrefix path m) : v.filesystemOfPath path = (v.rootFs, path) := by
  have hnone : v.mounts.find? (stringPrefix path) = none := by
    rw [Option.eq_none_iff_forall_ne_some]
    exact fun m hm => h m ((firstPrefix_iff v path m).mpr hm)
  unfold filesystemOfPath
  split_ifs
  · rfl
  · simp only [hnone, if_true]

/-- **Path resolution.** The code resolves a path as it is meant to exactly when the first mount that
begins the string is the nearest one and holds another filesystem than the root, or no mount covers
the path and the first that begins the string, if any, holds the root's. Mount points and paths are
absolute. -/
theorem resolves_iff (calls : List (MountCall φ)) (path : AbsolutePath) :
    (mountAll calls).Resolves path ((mountAll calls).filesystemOfPath path) ↔
      (∃ m, (mountAll calls).FirstPrefix path m ∧ (mountAll calls).Nearest path m ∧
          (mountAll calls).rootFs ≠ some m.fs) ∨
        ((∀ m ∈ (mountAll calls).mounts, ¬ Covers m path) ∧
          ∀ m, (mountAll calls).FirstPrefix path m → (mountAll calls).rootFs = some m.fs) := by
  have hreg := registered_mountAll calls
  generalize mountAll calls = v at hreg ⊢
  obtain ⟨path, hpath⟩ := path
  dsimp only
  by_cases hfirst : ∃ m, v.FirstPrefix path m
  · obtain ⟨m, hm⟩ := hfirst
    rw [filesystemOfPath_first hm]
    constructor
    · rintro ⟨⟨near, hnear, hresult⟩ | ⟨hnone, hresult⟩, -⟩
      · obtain ⟨hfs, hrest⟩ := Prod.mk.inj hresult
        split_ifs at hrest with hroot
        · exact absurd hrest (hreg.ne_remainder hpath hnear.1)
        · have heq : m = near := hm.eq_of_remainder hreg hnear hrest
          rw [heq] at hm hroot
          exact .inl ⟨near, hm, hnear, fun h => hroot h.symm⟩
      · obtain ⟨hfs, -⟩ := Prod.mk.inj hresult
        refine .inr ⟨hnone, fun m' hm' => ?_⟩
        rw [← hm.unique hm', hfs]
    · rintro (⟨m', hm', hnear, hroot⟩ | ⟨hnone, hroot⟩)
      · obtain rfl := hm.unique hm'
        rw [if_neg fun h => hroot h.symm]
        exact ⟨.inl ⟨m, hnear, rfl⟩, hnear.2.1.remainder⟩
      · rw [← hroot m hm, if_pos rfl]
        exact ⟨.inr ⟨hnone, rfl⟩, .inr hpath⟩
  · have hfirst := not_exists.mp hfirst
    rw [filesystemOfPath_none hfirst]
    constructor
    · rintro ⟨⟨near, hnear, hresult⟩ | ⟨hnone, -⟩, -⟩
      · exact absurd (Prod.mk.inj hresult).2 (hreg.ne_remainder hpath hnear.1)
      · exact .inr ⟨hnone, fun m hm => absurd hm (hfirst m)⟩
    · rintro (⟨m, hm, -⟩ | ⟨hnone, -⟩)
      · exact absurd hm (hfirst m)
      · exact ⟨.inr ⟨hnone, rfl⟩, .inr hpath⟩

def aThenAb : List (MountCall Nat) :=
  [⟨⟨cString "/a", by decide⟩, [], some 1⟩, ⟨⟨cString "/ab", by decide⟩, [], some 2⟩]

/-- With a filesystem at `/a` and then another at `/ab`, the path `/ab` goes to the first, as `b`. -/
theorem string_prefix_taken :
    ¬ (mountAll aThenAb).Resolves (cString "/ab") ((mountAll aThenAb).filesystemOfPath (cString "/ab")) := by
  have hresult : (mountAll aThenAb).filesystemOfPath (cString "/ab") = (some 1, cString "b") := by
    decide
  rw [hresult]
  rintro ⟨-, hrest⟩
  revert hrest
  decide

end VirtualFilesystem

end Helos
