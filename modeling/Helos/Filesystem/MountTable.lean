import Helos.Filesystem.PathResolution
import Helos.Theory.Run

/-!
# The mount tables

Calls of `Mount` and of the two that mount devices, in any order. A call is right when it keeps every
path mounted at most once, refuses exactly the paths that are taken, and makes a path it mounts
resolve to its filesystem. What goes wrong is the root, which is replaced without a look, points that
an earlier mount is a string prefix of, and devices, whose trailing separators are kept.
-/

namespace Helos

open Filesystem

variable {φ κ : Type*}

structure MountTables (φ κ : Type*) where
  vfs : VirtualFilesystem φ
  devfs : DeviceFilesystem κ

inductive MountOp (φ κ : Type*) where
  | mount (c : VirtualFilesystem.MountCall φ)
  | mountCharacter (path : AbsolutePath) (user : Nat) (read write ioctl : Option κ)
  | mountCharacterIoctl (path : AbsolutePath) (user : Nat) (ioctl : Option κ)

namespace MountTables

def empty : MountTables φ κ := { vfs := { root := none, mounts := [] }, devfs := { mounts := [] } }

def call (t : MountTables φ κ) : MountOp φ κ → Int × MountTables φ κ
  | .mount c =>
    let (ret, vfs) := t.vfs.mount c.mountPoint c.source c.fs
    (ret, { t with vfs })
  | .mountCharacter path user read write ioctl =>
    let (ret, devfs) := t.devfs.mountCharacter path user read write ioctl
    (ret, { t with devfs })
  | .mountCharacterIoctl path user ioctl =>
    let (ret, devfs) := t.devfs.mountCharacterIoctl path user ioctl
    (ret, { t with devfs })

def step (t : MountTables φ κ) (op : MountOp φ κ) : Option (MountTables φ κ) := some (t.call op).2

def live (v : VirtualFilesystem φ) : List (VfsMount φ) := v.root.toList ++ v.mounts

/-- No two live mounts denote one path. -/
def Unambiguous (t : MountTables φ κ) : Prop :=
  ((live t.vfs).map fun m => stripSeparators m.mountPoint).Nodup ∧
    (t.devfs.mounts.map fun m => stripSeparators m.path).Nodup

/-- The path of a call has a mount. -/
def Taken (t : MountTables φ κ) : MountOp φ κ → Prop
  | .mount c => ∃ m ∈ live t.vfs, stripSeparators m.mountPoint = stripSeparators c.mountPoint
  | .mountCharacter path _ _ _ _ | .mountCharacterIoctl path _ _ =>
    ∃ m ∈ t.devfs.mounts, stripSeparators m.path = stripSeparators path

/-- After a successful `Mount` its path resolves to the filesystem. -/
def Resolved [DecidableEq φ] (t : MountTables φ κ) : MountOp φ κ → Prop
  | .mount c => (t.vfs.filesystemOfPath c.mountPoint).1 = c.fs
  | _ => True

def CallRight [DecidableEq φ] (t : MountTables φ κ) (op : MountOp φ κ) : Prop :=
  (t.call op).2.Unambiguous ∧ ((t.call op).1 = -eEXIST ↔ t.Taken op) ∧
    ((t.call op).1 ≠ 0 → (t.call op).2 = t) ∧ ((t.call op).1 = 0 → (t.call op).2.Resolved op)

/-- The condition on a device: what is mounted at its path, but for trailing separators, is mounted
at its path. -/
def DeviceSafe (d : DeviceFilesystem κ) (path : CString) : Prop :=
  ∀ m ∈ d.mounts, stripSeparators m.path = stripSeparators path → m.path = path

/-- The condition on a call of `Mount`: a null filesystem or one for `/` meets no mount there; any
other path is not `/` with more separators, and is taken or has no string prefix mounted before,
unless the first of these holds the same filesystem. -/
def MountSafe (v : VirtualFilesystem φ) (c : VirtualFilesystem.MountCall φ) : Prop :=
  let taken := ∃ m ∈ live v, stripSeparators m.mountPoint = stripSeparators c.mountPoint
  if c.fs = none ∨ c.mountPoint.1 = [separator] then ¬ taken
  else stripSeparators c.mountPoint ≠ [separator] ∧
    (taken ∨ ∀ m, v.FirstPrefix c.mountPoint m → some m.fs = c.fs)

def CallSafe (t : MountTables φ κ) : MountOp φ κ → Prop
  | .mount c => MountSafe t.vfs c
  | .mountCharacter path _ _ _ _ | .mountCharacterIoctl path _ _ => DeviceSafe t.devfs path

/-- What right calls keep. -/
structure Invariant (t : MountTables φ κ) : Prop where
  registered : t.vfs.Registered
  root : ∀ m ∈ t.vfs.root, m.mountPoint = [separator]
  rootOnly : ∀ m ∈ t.vfs.mounts, m.mountPoint ≠ [separator]
  devices : (t.devfs.mounts.map fun m => stripSeparators m.path).Nodup

theorem invariant_empty : Invariant (empty : MountTables φ κ) :=
  ⟨VirtualFilesystem.registered_empty, by simp [empty], by simp [empty], by simp [empty]⟩

variable {t : MountTables φ κ}

theorem Invariant.unambiguous (h : t.Invariant) : t.Unambiguous := by
  refine ⟨?_, h.devices⟩
  have hmounts : t.vfs.mounts.map (fun m => stripSeparators m.mountPoint) =
      t.vfs.mounts.map VfsMount.mountPoint := List.map_congr_left h.registered.stripped
  unfold live
  rw [List.map_append, hmounts, List.nodup_append]
  refine ⟨?_, h.registered.nodup, fun p hp q hq => ?_⟩
  · cases t.vfs.root <;> simp
  · obtain ⟨m, hm, rfl⟩ := List.mem_map.mp hp
    obtain ⟨m', hm', rfl⟩ := List.mem_map.mp hq
    rw [h.root m (Option.mem_toList.mp hm)]
    exact (h.rootOnly m' hm').symm

/-! ### Devices -/

theorem zero_ne_EEXIST : (0 : Int) ≠ -eEXIST := by decide

theorem insertMount_spec (d : DeviceFilesystem κ) (m : DeviceMount κ) :
    (d.insertMount m = (-eEXIST, d) ∧ ∃ other ∈ d.mounts, other.path = m.path) ∨
      (d.insertMount m = (0, { mounts := d.mounts ++ [m] }) ∧ ∀ other ∈ d.mounts, other.path ≠ m.path) := by
  unfold DeviceFilesystem.insertMount
  split
  · next hany =>
    simp only [List.any_eq_true, beq_iff_eq] at hany
    exact .inl ⟨rfl, hany⟩
  · next hany =>
    simp only [List.any_eq_true, beq_iff_eq, not_exists, not_and] at hany
    exact .inr ⟨rfl, hany⟩

theorem device_right_iff (d : DeviceFilesystem κ) (m : DeviceMount κ)
    (hnodup : (d.mounts.map fun m => stripSeparators m.path).Nodup) :
    (((d.insertMount m).2.mounts.map fun m => stripSeparators m.path).Nodup ∧
        ((d.insertMount m).1 = -eEXIST ↔
          ∃ other ∈ d.mounts, stripSeparators other.path = stripSeparators m.path) ∧
        ((d.insertMount m).1 ≠ 0 → (d.insertMount m).2 = d)) ↔ DeviceSafe d m.path := by
  rcases insertMount_spec d m with ⟨hcall, other, hother, hpath⟩ | ⟨hcall, hnone⟩
  · rw [hcall]
    refine ⟨fun _ m' hm' hstrip => ?_, fun _ => ⟨hnodup, ?_, fun _ => rfl⟩⟩
    · rw [← hpath] at hstrip
      rw [List.inj_on_of_nodup_map hnodup hm' hother hstrip, hpath]
    · exact ⟨fun _ => ⟨other, hother, by rw [hpath]⟩, fun _ => rfl⟩
  · rw [hcall]
    constructor
    · rintro ⟨-, htaken, -⟩ m' hm' hstrip
      exact absurd (htaken.mpr ⟨m', hm', hstrip⟩) zero_ne_EEXIST
    · intro hsafe
      have hfree : ∀ other ∈ d.mounts, stripSeparators other.path ≠ stripSeparators m.path :=
        fun other hother hstrip => hnone other hother (hsafe other hother hstrip)
      refine ⟨nodup_map_push hnodup hfree, ⟨fun h => absurd h zero_ne_EEXIST, ?_⟩, fun h => absurd rfl h⟩
      rintro ⟨other, hother, hstrip⟩
      exact absurd hstrip (hfree other hother)

/-! ### Filesystems -/

theorem mount_root (v : VirtualFilesystem φ) (source : CString) (fs : φ) :
    v.mount [separator] source (some fs) = (0, { v with root := some ⟨[separator], source, fs⟩ }) := by
  simp only [VirtualFilesystem.mount, if_true]

theorem mount_other (v : VirtualFilesystem φ) {mountPoint : CString} (hne : mountPoint ≠ [separator])
    (source : CString) (fs : φ) :
    (v.mount mountPoint source (some fs) = (-eEXIST, v) ∧
        ∃ m ∈ v.mounts, m.mountPoint = stripSeparators mountPoint) ∨
      (v.mount mountPoint source (some fs) =
          (0, { v with mounts := v.mounts ++ [⟨stripSeparators mountPoint, source, fs⟩] }) ∧
        ∀ m ∈ v.mounts, m.mountPoint ≠ stripSeparators mountPoint) := by
  unfold VirtualFilesystem.mount
  simp only [if_neg hne]
  split
  · next hany =>
    simp only [List.any_eq_true, beq_iff_eq] at hany
    exact .inl ⟨rfl, hany⟩
  · next hany =>
    simp only [List.any_eq_true, beq_iff_eq, not_exists, not_and] at hany
    exact .inr ⟨rfl, hany⟩

/-- No point longer than `/` begins a string of separators. -/
theorem length_le_one_of_strip_eq {path point : CString} (hpath : Absolute path)
    (hstrip : stripSeparators path = [separator]) (hpoint : Absolute point)
    (hstripped : stripSeparators point = point) (hstart : point <+: path) : point.length ≤ 1 := by
  obtain ⟨rest, rfl⟩ := hpath.eq_cons
  obtain ⟨tail, rfl⟩ := hpoint.eq_cons
  rw [stripSeparators_cons] at hstrip hstripped
  have hrest := List.rdropWhile_eq_nil_iff.mp (List.cons.inj hstrip).2
  have htail : tail.rdropWhile (· == separator) = [] :=
    List.rdropWhile_eq_nil_iff.mpr fun b hb =>
      hrest b (((List.prefix_cons_inj _).mp hstart).subset hb)
  rw [← (List.cons.inj hstripped).2, htail]
  exact Nat.le_refl _

/-- The first prefix after a push is the first one before it, or the one pushed. -/
theorem firstPrefix_push {v : VirtualFilesystem φ} {path : CString} {new m : VfsMount φ}
    (hnew : new.mountPoint <+: path ∧ 1 < new.mountPoint.length) :
    ({ v with mounts := v.mounts ++ [new] } : VirtualFilesystem φ).FirstPrefix path m ↔
      v.FirstPrefix path m ∨ (m = new ∧ ∀ other, ¬ v.FirstPrefix path other) := by
  have hfound := (VirtualFilesystem.stringPrefix_iff path new).mpr hnew
  simp only [VirtualFilesystem.firstPrefix_iff, List.find?_append, List.find?_cons, hfound,
    Option.or_eq_some_iff, Option.some.injEq, Option.eq_none_iff_forall_ne_some, ne_eq]
  constructor
  · rintro (h | ⟨hnone, rfl⟩)
    · exact .inl h
    · exact .inr ⟨rfl, hnone⟩
  · rintro (h | ⟨rfl, hnone⟩)
    · exact .inl h
    · exact .inr ⟨hnone, rfl⟩

theorem resolved_push_iff [DecidableEq φ] {v : VirtualFilesystem φ} {path : CString}
    {new : VfsMount φ} (hnew : new.mountPoint <+: path ∧ 1 < new.mountPoint.length) :
    (({ v with mounts := v.mounts ++ [new] } : VirtualFilesystem φ).filesystemOfPath path).1 =
        some new.fs ↔ ∀ m, v.FirstPrefix path m → some m.fs = some new.fs := by
  by_cases hfirst : ∃ m, v.FirstPrefix path m
  · obtain ⟨m, hm⟩ := hfirst
    rw [VirtualFilesystem.filesystemOfPath_first ((firstPrefix_push hnew).mpr (.inl hm))]
    refine ⟨fun h m' hm' => ?_, fun h => h m hm⟩
    rw [← hm.unique hm']
    exact h
  · have hnone := not_exists.mp hfirst
    rw [VirtualFilesystem.filesystemOfPath_first ((firstPrefix_push hnew).mpr (.inr ⟨rfl, hnone⟩))]
    exact ⟨fun _ m hm => absurd hm (hnone m), fun _ => rfl⟩

/-- The live mounts at a path, other than `/`, are those registered for it. -/
theorem Invariant.taken_iff (h : t.Invariant) {path : CString} (hne : stripSeparators path ≠ [separator]) :
    (∃ m ∈ live t.vfs, stripSeparators m.mountPoint = stripSeparators path) ↔
      ∃ m ∈ t.vfs.mounts, m.mountPoint = stripSeparators path := by
  constructor
  · rintro ⟨m, hm, hstrip⟩
    rcases List.mem_append.mp hm with hm | hm
    · rw [h.root m (Option.mem_toList.mp hm)] at hstrip
      exact absurd hstrip.symm hne
    · rw [h.registered.stripped m hm] at hstrip
      exact ⟨m, hm, hstrip⟩
  · rintro ⟨m, hm, hpoint⟩
    refine ⟨m, List.mem_append_right _ hm, ?_⟩
    rw [h.registered.stripped m hm, hpoint]

theorem mountSafe_none {v : VirtualFilesystem φ} {c : VirtualFilesystem.MountCall φ} (hfs : c.fs = none) :
    MountSafe v c ↔ ¬ ∃ m ∈ live v, stripSeparators m.mountPoint = stripSeparators c.mountPoint := by
  unfold MountSafe
  dsimp only
  rw [if_pos (.inl hfs)]

theorem mountSafe_root {v : VirtualFilesystem φ} {c : VirtualFilesystem.MountCall φ}
    (hroot : c.mountPoint.1 = [separator]) :
    MountSafe v c ↔ ¬ ∃ m ∈ live v, stripSeparators m.mountPoint = stripSeparators c.mountPoint := by
  unfold MountSafe
  dsimp only
  rw [if_pos (.inr hroot)]

theorem mountSafe_other {v : VirtualFilesystem φ} {c : VirtualFilesystem.MountCall φ} {fs : φ}
    (hfs : c.fs = some fs) (hne : c.mountPoint.1 ≠ [separator]) :
    MountSafe v c ↔ stripSeparators c.mountPoint ≠ [separator] ∧
      ((∃ m ∈ live v, stripSeparators m.mountPoint = stripSeparators c.mountPoint) ∨
        ∀ m, v.FirstPrefix c.mountPoint m → some m.fs = c.fs) := by
  unfold MountSafe
  dsimp only
  rw [if_neg (by simp [hfs, hne])]

/-- What safe calls leave. -/
theorem Invariant.step (h : t.Invariant) {op : MountOp φ κ} (hsafe : t.CallSafe op) :
    (t.call op).2.Invariant := by
  cases op with
  | mount c =>
    have hreg := h.registered.mount c.mountPoint.2 c.source c.fs
    obtain ⟨mountPoint, source, fs⟩ := c
    cases fs with
    | none => exact h
    | some fs =>
      by_cases hroot : mountPoint.1 = [separator]
      · have hcall : t.call (.mount ⟨mountPoint, source, some fs⟩) =
            (0, { t with vfs := { t.vfs with root := some ⟨[separator], source, fs⟩ } }) := by
          simp only [call, hroot, mount_root]
        rw [hcall]
        refine ⟨?_, fun m hm => ?_, h.rootOnly, h.devices⟩
        · simpa only [hroot, mount_root] using hreg
        · rw [← Option.some.inj (Option.mem_def.mp hm)]
      · obtain ⟨hpoint, -⟩ := (mountSafe_other rfl hroot).mp hsafe
        refine ⟨hreg, ?_, ?_, h.devices⟩
        all_goals rcases mount_other t.vfs hroot source fs with ⟨hmount, -⟩ | ⟨hmount, -⟩
        all_goals simp only [call, hmount]
        · exact h.root
        · exact h.root
        · exact h.rootOnly
        · intro m hm
          rcases List.mem_append.mp hm with hm | hm
          · exact h.rootOnly m hm
          · rw [List.mem_singleton.mp hm]
            exact hpoint
  | mountCharacter path user read write ioctl =>
    have hdevice := (device_right_iff t.devfs
      { path := path.1, read, write, ioctl, user, type := sIFCHR } h.devices).mpr hsafe
    exact ⟨h.registered, h.root, h.rootOnly, hdevice.1⟩
  | mountCharacterIoctl path user ioctl =>
    have hdevice := (device_right_iff t.devfs
      { path := path.1, read := none, write := none, ioctl, user, type := sIFCHR } h.devices).mpr hsafe
    exact ⟨h.registered, h.root, h.rootOnly, hdevice.1⟩

/-- A device mount is right exactly when it is safe. -/
theorem Invariant.device_right_iff [DecidableEq φ] (h : t.Invariant) {op : MountOp φ κ}
    {m : DeviceMount κ} (hsafe : t.CallSafe op ↔ DeviceSafe t.devfs m.path)
    (hcall : t.call op = ((t.devfs.insertMount m).1, { t with devfs := (t.devfs.insertMount m).2 }))
    (htaken : t.Taken op ↔ ∃ other ∈ t.devfs.mounts, stripSeparators other.path = stripSeparators m.path)
    (hresolved : ∀ t', Resolved t' op) : t.CallRight op ↔ t.CallSafe op := by
  rw [hsafe, ← MountTables.device_right_iff t.devfs m h.devices]
  unfold CallRight
  rw [htaken, hcall]
  constructor
  · rintro ⟨hunambiguous, hret, hsame, -⟩
    exact ⟨hunambiguous.2, hret, fun hne => congrArg MountTables.devfs (hsame hne)⟩
  · rintro ⟨hnodup, hret, hsame⟩
    refine ⟨⟨h.unambiguous.1, hnodup⟩, hret, fun hne => ?_, fun _ => hresolved _⟩
    dsimp only at hsame hne ⊢
    rw [hsame hne]

/-- After a push the path resolves to the root's filesystem when it is all separators. -/
theorem Invariant.resolves_root [DecidableEq φ] (h : t.Invariant) {path : AbsolutePath}
    (hstrip : stripSeparators path = [separator]) {source : CString} {fs : φ} :
    (({ t.vfs with mounts := t.vfs.mounts ++ [⟨stripSeparators path, source, fs⟩] } :
        VirtualFilesystem φ).filesystemOfPath path).1 = t.vfs.rootFs := by
  rw [VirtualFilesystem.filesystemOfPath_none]
  · rfl
  · rintro m ⟨before, after, hsplit, ⟨hstart, hlong⟩, -⟩
    have hmounts : t.vfs.mounts ++ [⟨stripSeparators path, source, fs⟩] = before ++ m :: after := hsplit
    have hmem : m ∈ t.vfs.mounts ++ [⟨stripSeparators path, source, fs⟩] := by
      rw [hmounts]
      exact List.mem_append_right _ List.mem_cons_self
    rcases List.mem_append.mp hmem with hmem | hmem
    · have hshort := length_le_one_of_strip_eq path.2 hstrip (h.registered.absolute m hmem)
        (h.registered.stripped m hmem) hstart
      omega
    · rw [List.mem_singleton.mp hmem, hstrip] at hlong
      exact absurd hlong (by simp)

theorem one_lt_length_strip {path : CString} (habs : Absolute path)
    (hne : stripSeparators path ≠ [separator]) : 1 < (stripSeparators path).length := by
  obtain ⟨rest, hrest⟩ := habs.strip.eq_cons
  rw [hrest] at hne ⊢
  cases rest with
  | nil => exact absurd rfl hne
  | cons b rest => simp

theorem Invariant.safe_of_right [DecidableEq φ] (h : t.Invariant) (c : VirtualFilesystem.MountCall φ)
    (hright : t.CallRight (.mount c)) : MountSafe t.vfs c := by
  obtain ⟨-, htaken, -, hresolved⟩ := hright
  obtain ⟨mountPoint, source, fs⟩ := c
  cases fs with
  | none =>
    rw [mountSafe_none rfl]
    exact fun htake => absurd (htaken.mpr htake) (show -eINVAL ≠ -eEXIST by decide)
  | some fs =>
    by_cases hroot : mountPoint.1 = [separator]
    · rw [mountSafe_root hroot]
      refine fun htake => absurd (htaken.mpr htake) ?_
      simp only [call, hroot, mount_root]
      exact zero_ne_EEXIST
    · rw [mountSafe_other rfl hroot]
      rcases mount_other t.vfs hroot source fs with ⟨hmount, m, hm, hpoint⟩ | ⟨hmount, hfree⟩
      · have hne : stripSeparators mountPoint ≠ [separator] := hpoint ▸ h.rootOnly m hm
        exact ⟨hne, .inl ((h.taken_iff hne).mpr ⟨m, hm, hpoint⟩)⟩
      · simp only [call, hmount, Resolved, Taken] at htaken hresolved
        have hfs := hresolved trivial
        have hne : stripSeparators mountPoint ≠ [separator] := by
          intro hstrip
          rw [h.resolves_root hstrip] at hfs
          obtain ⟨m, hm, -⟩ := Option.map_eq_some_iff.mp hfs
          refine absurd (htaken.mpr ⟨m, List.mem_append_left _ (Option.mem_toList.mpr hm), ?_⟩) zero_ne_EEXIST
          rw [h.root m hm, hstrip]
          rfl
        exact ⟨hne, .inr ((resolved_push_iff ⟨stripSeparators_le mountPoint.2,
          one_lt_length_strip mountPoint.2 hne⟩).mp hfs)⟩

theorem Invariant.right_of_safe [DecidableEq φ] (h : t.Invariant) (c : VirtualFilesystem.MountCall φ)
    (hsafe : MountSafe t.vfs c) : t.CallRight (.mount c) := by
  have hsafe' : t.CallSafe (.mount c) := hsafe
  refine ⟨(h.step hsafe').unambiguous, ?_⟩
  obtain ⟨mountPoint, source, fs⟩ := c
  cases fs with
  | none =>
    have hfree := (mountSafe_none rfl).mp hsafe
    exact ⟨⟨fun hret => absurd hret (show -eINVAL ≠ -eEXIST by decide), fun htake => absurd htake hfree⟩,
      fun _ => rfl, fun hret => absurd hret (show -eINVAL ≠ 0 by decide)⟩
  | some fs =>
    by_cases hroot : mountPoint.1 = [separator]
    · have hfree := (mountSafe_root hroot).mp hsafe
      simp only [call, hroot, mount_root, Resolved]
      refine ⟨⟨fun hret => absurd hret zero_ne_EEXIST, fun htake => absurd htake hfree⟩,
        fun hret => absurd rfl hret, fun _ => ?_⟩
      rfl
    · obtain ⟨hne, hfirst⟩ := (mountSafe_other rfl hroot).mp hsafe
      rcases mount_other t.vfs hroot source fs with ⟨hmount, hexist⟩ | ⟨hmount, hfree⟩
      · simp only [call, hmount]
        exact ⟨⟨fun _ => (h.taken_iff hne).mpr hexist, fun _ => trivial⟩, fun _ => trivial,
          fun hret => absurd hret.symm zero_ne_EEXIST⟩
      · have huntaken : ¬ ∃ m ∈ live t.vfs,
            stripSeparators m.mountPoint = stripSeparators mountPoint := by
          rw [h.taken_iff hne]
          rintro ⟨m, hm, hpoint⟩
          exact hfree m hm hpoint
        simp only [call, hmount]
        refine ⟨⟨fun hret => absurd hret zero_ne_EEXIST, fun htake => absurd htake huntaken⟩,
          fun hret => absurd rfl hret, fun _ => ?_⟩
        exact (resolved_push_iff ⟨stripSeparators_le mountPoint.2, one_lt_length_strip mountPoint.2 hne⟩).mpr
          (hfirst.resolve_left huntaken)

/-- A call is right exactly when it is safe. -/
theorem Invariant.right_iff_safe [DecidableEq φ] (h : t.Invariant) (op : MountOp φ κ) :
    t.CallRight op ↔ t.CallSafe op := by
  cases op with
  | mount c => exact ⟨h.safe_of_right c, h.right_of_safe c⟩
  | mountCharacter path user read write ioctl =>
    exact h.device_right_iff (m := { path := path.1, read, write, ioctl, user, type := sIFCHR })
      Iff.rfl rfl Iff.rfl fun _ => trivial
  | mountCharacterIoctl path user ioctl =>
    exact h.device_right_iff
      (m := { path := path.1, read := none, write := none, ioctl, user, type := sIFCHR })
      Iff.rfl rfl Iff.rfl fun _ => trivial

/-- **The mount tables.** In every run all calls are right exactly when all are safe. -/
theorem mounts_right_iff [DecidableEq φ] (ops : List (MountOp φ κ)) :
    Run.EachStep step CallRight empty ops ↔ Run.EachStep step CallSafe empty ops := by
  refine Run.eachStep_congr (I := Invariant) (fun t op _ h _ => h.right_iff_safe op)
    (fun t op t' h hstep hright => ?_) invariant_empty
  obtain rfl := Option.some.inj hstep
  exact h.step ((h.right_iff_safe op).mp hright)

/-- A second filesystem for `/` replaces the first. -/
theorem root_replaced :
    ¬ Run.EachStep (step (φ := Nat) (κ := Unit)) CallRight empty
      [.mount ⟨⟨cString "/", by decide⟩, [], some 1⟩, .mount ⟨⟨cString "/", by decide⟩, [], some 2⟩] := by
  intro hall
  obtain ⟨-, htaken, -⟩ := ((hall _ rfl).2 _ rfl).1
  have hret := htaken.mpr ⟨_, List.mem_append_left _ (Option.mem_toList.mpr rfl), rfl⟩
  exact absurd hret (by decide)

end MountTables

end Helos
