import Helos.Filesystem.Vfs
import Helos.Theory.Run

/-!
# Opening and closing through the virtual filesystem

`Open`, `Close`, `Opendir` and `Closedir` of `driver/filesystem/vfs/vfs.cpp` over filesystems of any
kind: a `Driver` gives their capabilities and what their four functions do, on a state of their own
that may also change between the calls. The mounts stay as they are.
-/

namespace Helos

open Filesystem

structure OpenFile where
  flags : UInt32
  nonseekable : Bool
  errno : Int
  handle : UInt64

/-- The four functions of a filesystem that a VFS call may be forwarded to. -/
inductive FileFunction where
  | openFile
  | closeFile
  | opendir
  | closedir
deriving DecidableEq

/-- The filesystems under the VFS. A function gets the path and the `OpenFile`, and leaves a result,
the `OpenFile` and a state. -/
structure Driver (φ σ : Type*) where
  capabilities : φ → UInt32
  call : FileFunction → φ → σ → CString → OpenFile → Int × OpenFile × σ

/-- `__VirtualFilesystem_OpenFile`, once it has a filesystem. -/
structure VfsOpenFile (φ : Type*) where
  fs : φ
  fspath : CString
  userfile : OpenFile

/-- `__CreateOpenFile`; `userfile` is what the allocated memory holds. -/
def VirtualFilesystem.createOpenFile {φ : Type*} [DecidableEq φ] (v : VirtualFilesystem φ)
    (path : CString) (userfile : OpenFile) : Option (VfsOpenFile φ) :=
  let (fs, fspath) := v.filesystemOfPath path
  fs.map fun fs => { fs, fspath := if fspath.length = 0 then [separator] else fspath, userfile }

/-- A call of a filesystem's function for the VFS file at an address. -/
structure UserCall (φ : Type*) where
  function : FileFunction
  fs : φ
  path : CString
  file : Nat
  handle : UInt64
  result : Int

/-- A VFS file, and the call it came from. -/
structure VfsHandle (φ : Type*) where
  file : VfsOpenFile φ
  function : FileFunction

/-- The filesystems' state, the VFS files by their addresses, and the calls made, newest first. -/
structure VfsFiles (φ σ : Type*) where
  user : σ
  files : Nat → Option (VfsHandle φ)
  calls : List (UserCall φ)

/-- The path a file is closed with is not looked at. -/
inductive VfsEvent (σ : Type*) where
  | openFile (path : CString) (address : Nat) (userfile : OpenFile)
  | closeFile (address : Nat)
  | opendir (path : CString) (address : Nat) (userfile : OpenFile)
  | closedir (address : Nat)
  | user (state : σ)

namespace VfsFiles

variable {φ σ : Type*} [DecidableEq φ] (v : VirtualFilesystem φ) (d : Driver φ σ)

/-- `Open` and `Opendir`: the call is forwarded where the test on the capabilities says so. The VFS
file stays when nothing was forwarded or the call succeeded. -/
def openWith (forward : UInt32 → Bool) (function : FileFunction) (s : VfsFiles φ σ) (path : CString)
    (address : Nat) (userfile : OpenFile) : Option (Int × VfsFiles φ σ) :=
  (v.createOpenFile path userfile).map fun file =>
    if forward (d.capabilities file.fs) then
      let (userret, userfile, user) := d.call function file.fs s.user file.fspath file.userfile
      let calls := ⟨function, file.fs, file.fspath, address, userfile.handle, userret⟩ :: s.calls
      if userret < 0 then (userret, { s with user, calls })
      else
        (0, { user, calls, files :=
          Function.update s.files address (some ⟨{ file with userfile }, function⟩) })
    else (0, { s with files := Function.update s.files address (some ⟨file, function⟩) })

/-- `Close` and `Closedir`. The VFS file is deleted whatever the call returns. -/
def closeWith (forward : UInt32 → Bool) (function : FileFunction) (s : VfsFiles φ σ) (address : Nat) :
    Option (Int × VfsFiles φ σ) :=
  (s.files address).map fun ⟨file, _⟩ =>
    let files := Function.update s.files address none
    if forward (d.capabilities file.fs) then
      let (userret, _, user) := d.call function file.fs s.user file.fspath file.userfile
      (userret,
        { user, files, calls :=
          ⟨function, file.fs, file.fspath, address, file.userfile.handle, userret⟩ :: s.calls })
    else (0, { s with files })

/-- `!(capabilities | Capability_NoOpen)` -/
def orTest (capabilities : UInt32) : Bool := capabilities ||| capabilityNoOpen == 0

/-- `!(capabilities & Capability_NoOpen)` -/
def andTest (capabilities : UInt32) : Bool := capabilities &&& capabilityNoOpen == 0

def openFile := openWith v d orTest .openFile
def closeFile := closeWith (φ := φ) d orTest .closeFile
def opendir := openWith v d andTest .opendir
def closedir := closeWith (φ := φ) d orTest .closedir

def boot (user : σ) : VfsFiles φ σ := { user, files := fun _ => none, calls := [] }

/-- Files are allocated where none is, and closed by the handle of one. -/
def step (s : VfsFiles φ σ) : VfsEvent σ → Option (VfsFiles φ σ)
  | .openFile path address userfile =>
    if (s.files address).isNone then (openFile v d s path address userfile).map Prod.snd else none
  | .closeFile address => (closeFile d s address).map Prod.snd
  | .opendir path address userfile =>
    if (s.files address).isNone then (opendir v d s path address userfile).map Prod.snd else none
  | .closedir address => (closedir d s address).map Prod.snd
  | .user user => some { s with user }

/-! ### What is meant -/

/-- A filesystem that its files are to be opened on. -/
def Opens (fs : φ) : Prop := d.capabilities fs &&& capabilityNoOpen = 0

/-- What a function opened and no call has closed. -/
structure Owed (φ : Type*) where
  function : FileFunction
  fs : φ
  file : Nat
  handle : UInt64
deriving DecidableEq

/-- The successful calls that open, less those that a closing call has matched. -/
def owed : List (UserCall φ) → List (Owed φ)
  | [] => []
  | c :: calls =>
    match c.function with
    | .openFile | .opendir =>
      if c.result < 0 then owed calls else ⟨c.function, c.fs, c.file, c.handle⟩ :: owed calls
    | .closeFile => (owed calls).erase ⟨.openFile, c.fs, c.file, c.handle⟩
    | .closedir => (owed calls).erase ⟨.opendir, c.fs, c.file, c.handle⟩

/-- Every closing call closes what is owed. -/
def Matched : List (UserCall φ) → Prop
  | [] => True
  | c :: calls =>
    Matched calls ∧
      match c.function with
      | .openFile | .opendir => True
      | .closeFile => ⟨.openFile, c.fs, c.file, c.handle⟩ ∈ owed calls
      | .closedir => ⟨.opendir, c.fs, c.file, c.handle⟩ ∈ owed calls

/-- Opening and closing calls are paired, what is owed belongs to a file that is still open, and only
filesystems that open files have been called. -/
structure Paired (s : VfsFiles φ σ) : Prop where
  matched : Matched s.calls
  owed_open : ∀ o ∈ owed s.calls, (s.files o.file).isSome
  opens : ∀ c ∈ s.calls, Opens d c.fs

/-- A VFS call that opens on such a filesystem calls the filesystem's function, once and with the path
that is left, and succeeds exactly when that call does. -/
def OpenRight (function : FileFunction) (s : VfsFiles φ σ) (path : CString) (address : Nat)
    (userfile : OpenFile) (called : Option (Int × VfsFiles φ σ)) : Prop :=
  ∀ file ∈ v.createOpenFile path userfile, Opens d file.fs → ∀ r ∈ called,
    ∃ handle result, r.2.calls = ⟨function, file.fs, file.fspath, address, handle, result⟩ :: s.calls ∧
      (0 ≤ r.1 ↔ 0 ≤ result)

def CallRight (s : VfsFiles φ σ) (e : VfsEvent σ) : Prop :=
  (∀ s' ∈ step v d s e, Paired d s') ∧
    match e with
    | .openFile path address userfile =>
      OpenRight v d .openFile s path address userfile (openFile v d s path address userfile)
    | .opendir path address userfile =>
      OpenRight v d .opendir s path address userfile (opendir v d s path address userfile)
    | _ => True

/-- On a filesystem that opens files no file is opened, and no directory closed. -/
def CallSafe (s : VfsFiles φ σ) : VfsEvent σ → Prop
  | .openFile path _ userfile => ∀ file ∈ v.createOpenFile path userfile, ¬ Opens d file.fs
  | .closeFile address | .closedir address =>
    ∀ h ∈ s.files address, ¬ (h.function = .opendir ∧ Opens d h.file.fs)
  | _ => True

/-! ### What safe calls leave -/

/-- Only `Opendir` is ever forwarded, and what it opened belongs to the directories open. -/
structure Invariant (s : VfsFiles φ σ) : Prop where
  calls : ∀ c ∈ s.calls, c.function = .opendir ∧ Opens d c.fs
  owed_open : ∀ o ∈ owed s.calls,
    ∃ h, s.files o.file = some h ∧ h.function = .opendir ∧ Opens d h.file.fs
  open_owed : ∀ address h, s.files address = some h → h.function = .opendir → Opens d h.file.fs →
    ∃ o ∈ owed s.calls, o.file = address

theorem orTest_eq_false (capabilities : UInt32) : orTest capabilities = false := by
  unfold orTest
  rw [beq_eq_false_iff_ne]
  intro hzero
  have hnat := congrArg UInt32.toNat hzero
  rw [UInt32.toNat_or] at hnat
  exact absurd (Nat.or_eq_zero_iff.mp hnat).2 (by decide)

theorem openFile_eq (s : VfsFiles φ σ) (path : CString) (address : Nat) (userfile : OpenFile) :
    openFile v d s path address userfile = (v.createOpenFile path userfile).map fun file =>
      (0, { s with files := Function.update s.files address (some ⟨file, .openFile⟩) }) := by
  simp only [openFile, openWith, orTest_eq_false, Bool.false_eq_true, if_false]

omit [DecidableEq φ] in
theorem closeWith_orTest (function : FileFunction) (s : VfsFiles φ σ) (address : Nat) :
    closeWith (φ := φ) d orTest function s address = (s.files address).map fun _ =>
      (0, { s with files := Function.update s.files address none }) := by
  simp only [closeWith, orTest_eq_false, Bool.false_eq_true, if_false]

theorem matched_of_opendir {calls : List (UserCall φ)} (h : ∀ c ∈ calls, c.function = .opendir) :
    Matched calls := by
  induction calls with
  | nil => trivial
  | cons c calls ih =>
    refine ⟨ih fun c' hc' => h c' (List.mem_cons_of_mem _ hc'), ?_⟩
    rw [h c List.mem_cons_self]
    trivial

theorem Invariant.paired {s : VfsFiles φ σ} (h : Invariant d s) : Paired d s := by
  refine ⟨matched_of_opendir fun c hc => (h.calls c hc).1, fun o ho => ?_, fun c hc => (h.calls c hc).2⟩
  obtain ⟨handle, hhandle, -⟩ := h.owed_open o ho
  rw [hhandle]
  rfl

theorem invariant_boot (user : σ) : Invariant d (boot user : VfsFiles φ σ) :=
  ⟨by simp [boot], by simp [boot, owed], by simp [boot]⟩

variable {d} in
/-- A file that comes or goes where no open directory is owed. -/
theorem Invariant.setFile {s : VfsFiles φ σ} (h : Invariant d s) {address : Nat} {new : Option (VfsHandle φ)}
    (hold : ∀ handle ∈ s.files address, ¬ (handle.function = .opendir ∧ Opens d handle.file.fs))
    (hnew : ∀ handle ∈ new, ¬ (handle.function = .opendir ∧ Opens d handle.file.fs)) :
    Invariant d { s with files := Function.update s.files address new } := by
  refine ⟨h.calls, fun o ho => ?_, fun a handle hhandle hfun hopens => ?_⟩
  · obtain ⟨handle, hhandle, howner⟩ := h.owed_open o ho
    have hne : o.file ≠ address := by
      intro heq
      rw [heq] at hhandle
      exact hold handle hhandle howner
    exact ⟨handle, by simp only [Function.update_of_ne hne, hhandle], howner⟩
  · dsimp only at hhandle
    by_cases hne : a = address
    · rw [hne, Function.update_self] at hhandle
      exact absurd ⟨hfun, hopens⟩ (hnew handle hhandle)
    · rw [Function.update_of_ne hne] at hhandle
      exact h.open_owed a handle hhandle hfun hopens

omit [DecidableEq φ] in
theorem andTest_iff (fs : φ) : andTest (d.capabilities fs) = true ↔ Opens d fs := by
  unfold andTest Opens
  exact beq_iff_eq

variable {d} in
/-- `Opendir` owes what it opened, and nothing when the filesystem refused. -/
theorem Invariant.opendir {s : VfsFiles φ σ} (h : Invariant d s) {path : CString} {address : Nat}
    {userfile : OpenFile} (hfree : s.files address = none) {r : Int × VfsFiles φ σ}
    (hr : VfsFiles.opendir v d s path address userfile = some r) : Invariant d r.2 := by
  have hnone : ∀ handle ∈ s.files address, ¬ (handle.function = .opendir ∧ Opens d handle.file.fs) := by
    simp [hfree]
  obtain ⟨file, -, rfl⟩ := Option.map_eq_some_iff.mp hr
  split
  · next hforward =>
    have hopens : Opens d file.fs := (andTest_iff d file.fs).mp hforward
    dsimp only
    split
    · next hfailed =>
      refine ⟨fun c hc => ?_, ?_, ?_⟩
      · rcases List.mem_cons.mp hc with rfl | hc
        · exact ⟨rfl, hopens⟩
        · exact h.calls c hc
      · simp only [owed, if_pos hfailed]
        exact h.owed_open
      · simp only [owed, if_pos hfailed]
        exact h.open_owed
    · next hdone =>
      refine ⟨fun c hc => ?_, fun o ho => ?_, fun a handle hhandle hfun hopens' => ?_⟩
      · rcases List.mem_cons.mp hc with rfl | hc
        · exact ⟨rfl, hopens⟩
        · exact h.calls c hc
      · simp only [owed, if_neg hdone] at ho
        rcases List.mem_cons.mp ho with rfl | ho
        · exact ⟨_, Function.update_self .., rfl, hopens⟩
        · obtain ⟨handle, hhandle, howner⟩ := h.owed_open o ho
          have hne : o.file ≠ address := by
            intro heq
            rw [heq, hfree] at hhandle
            cases hhandle
          exact ⟨handle, by simp only [Function.update_of_ne hne, hhandle], howner⟩
      · simp only [owed, if_neg hdone]
        by_cases hne : a = address
        · exact ⟨_, List.mem_cons_self, hne.symm⟩
        · dsimp only at hhandle
          rw [Function.update_of_ne hne] at hhandle
          obtain ⟨o, ho, hfile⟩ := h.open_owed a handle hhandle hfun hopens'
          exact ⟨o, List.mem_cons_of_mem _ ho, hfile⟩
  · next hforward =>
    apply h.setFile hnone
    intro handle hhandle howner
    rw [← Option.some.inj (Option.mem_def.mp hhandle)] at howner
    exact hforward ((andTest_iff d file.fs).mpr howner.2)

variable {d} in
theorem Invariant.step {s s' : VfsFiles φ σ} (h : Invariant d s) {e : VfsEvent σ}
    (hsafe : CallSafe v d s e) (hstep : VfsFiles.step v d s e = some s') : Invariant d s' := by
  cases e with
  | openFile path address userfile =>
    obtain ⟨hfree, hstep⟩ := Option.ite_none_right_eq_some.mp hstep
    rw [openFile_eq, Option.map_map] at hstep
    obtain ⟨file, -, rfl⟩ := Option.map_eq_some_iff.mp hstep
    rw [Option.isNone_iff_eq_none] at hfree
    apply h.setFile (by simp [hfree])
    intro handle hhandle howner
    rw [← Option.some.inj (Option.mem_def.mp hhandle)] at howner
    cases howner.1
  | closeFile address =>
    rw [VfsFiles.step, closeFile, closeWith_orTest, Option.map_map] at hstep
    obtain ⟨handle, -, rfl⟩ := Option.map_eq_some_iff.mp hstep
    exact h.setFile hsafe (by simp)
  | opendir path address userfile =>
    obtain ⟨hfree, hstep⟩ := Option.ite_none_right_eq_some.mp hstep
    obtain ⟨r, hr, rfl⟩ := Option.map_eq_some_iff.mp hstep
    exact h.opendir v (Option.isNone_iff_eq_none.mp hfree) hr
  | closedir address =>
    rw [VfsFiles.step, closedir, closeWith_orTest, Option.map_map] at hstep
    obtain ⟨handle, -, rfl⟩ := Option.map_eq_some_iff.mp hstep
    exact h.setFile hsafe (by simp)
  | user user =>
    obtain rfl := Option.some.inj hstep
    exact ⟨h.calls, h.owed_open, h.open_owed⟩

variable {d} in
/-- A directory that is closed leaves what it owes behind. -/
theorem Invariant.close_safe {s : VfsFiles φ σ} (h : Invariant d s) {address : Nat}
    (hpaired : Paired d { s with files := Function.update s.files address none }) :
    ∀ handle ∈ s.files address, ¬ (handle.function = .opendir ∧ Opens d handle.file.fs) := by
  rintro handle hhandle ⟨hfun, hopens⟩
  obtain ⟨o, ho, hfile⟩ := h.open_owed address handle hhandle hfun hopens
  have hopen := hpaired.owed_open o ho
  dsimp only at hopen
  rw [hfile, Function.update_self] at hopen
  cases hopen

/-- `Opendir` calls the filesystem, and succeeds when the call does. -/
theorem opendir_right (s : VfsFiles φ σ) (path : CString) (address : Nat) (userfile : OpenFile) :
    OpenRight v d .opendir s path address userfile (opendir v d s path address userfile) := by
  intro file hfile hopens r hr
  rw [Option.mem_def] at hfile hr
  unfold opendir openWith at hr
  rw [hfile, Option.map_some, if_pos ((andTest_iff d file.fs).mpr hopens)] at hr
  dsimp only at hr
  split_ifs at hr with hfailed
  · rw [← Option.some.inj hr]
    exact ⟨_, _, rfl, Iff.rfl⟩
  · rw [← Option.some.inj hr]
    exact ⟨_, _, rfl, iff_of_true (Int.le_refl 0) (Int.not_lt.mp hfailed)⟩

variable {d} in
theorem Invariant.right_iff_safe {s s' : VfsFiles φ σ} (h : Invariant d s) {e : VfsEvent σ}
    (hstep : VfsFiles.step v d s e = some s') : CallRight v d s e ↔ CallSafe v d s e := by
  have hpaired : CallSafe v d s e → ∀ s' ∈ VfsFiles.step v d s e, Paired d s' := fun hsafe s' hs' =>
    (h.step v hsafe hs').paired d
  cases e with
  | openFile path address userfile =>
    constructor
    · rintro ⟨-, hopen⟩ file hfile hopens
      have hcalled := openFile_eq v d s path address userfile
      rw [Option.mem_def.mp hfile] at hcalled
      -- the calls are those there were before
      obtain ⟨handle, result, hcalls, -⟩ := hopen file hfile hopens _ hcalled
      exact List.cons_ne_self _ _ hcalls.symm
    · intro hsafe
      exact ⟨hpaired hsafe, fun file hfile hopens => absurd hopens (hsafe file hfile)⟩
  | closeFile address =>
    refine ⟨fun hright => ?_, fun hsafe => ⟨hpaired hsafe, trivial⟩⟩
    have hclosed := hstep
    rw [VfsFiles.step, closeFile, closeWith_orTest, Option.map_map] at hclosed
    obtain ⟨handle, -, rfl⟩ := Option.map_eq_some_iff.mp hclosed
    exact h.close_safe (hright.1 _ hstep)
  | opendir path address userfile =>
    exact ⟨fun _ => trivial, fun hsafe => ⟨hpaired hsafe, opendir_right v d s path address userfile⟩⟩
  | closedir address =>
    refine ⟨fun hright => ?_, fun hsafe => ⟨hpaired hsafe, trivial⟩⟩
    have hclosed := hstep
    rw [VfsFiles.step, closedir, closeWith_orTest, Option.map_map] at hclosed
    obtain ⟨handle, -, rfl⟩ := Option.map_eq_some_iff.mp hclosed
    exact h.close_safe (hright.1 _ hstep)
  | user user => exact ⟨fun _ => trivial, fun hsafe => ⟨hpaired hsafe, trivial⟩⟩

/-- **Opening and closing.** In every run all calls are right exactly when all are safe. -/
theorem files_right_iff (user : σ) (events : List (VfsEvent σ)) :
    Run.EachStep (step v d) (CallRight v d) (boot user) events ↔
      Run.EachStep (step v d) (CallSafe v d) (boot user) events := by
  exact Run.eachStep_congr (I := Invariant d) (fun s e s' h hstep => h.right_iff_safe v hstep)
    (fun s e s' h hstep hright => h.step v ((h.right_iff_safe v hstep).mp hright) hstep)
    (invariant_boot d user)

/-- A filesystem at the root that has no file, and that wants to be asked. -/
def emptyDisk : Driver Unit Unit :=
  { capabilities := fun _ => 0, call := fun _ _ _ _ file => (-eNOENT, file, ()) }

def emptyDiskMounted : VirtualFilesystem Unit := { root := some ⟨[separator], [], ()⟩, mounts := [] }

/-- `Open` succeeds on a path that the filesystem does not have, and has not been asked for. -/
theorem missing_file_opened :
    ¬ Run.EachStep (step emptyDiskMounted emptyDisk) (CallRight emptyDiskMounted emptyDisk) (boot ())
      [.openFile (cString "/missing") 1 ⟨0, false, 0, 0⟩] := by
  intro hall
  obtain ⟨-, hopen⟩ := (hall _ rfl).1
  obtain ⟨handle, result, hcalls, -⟩ :=
    hopen _ rfl (show (0 : UInt32) &&& capabilityNoOpen = 0 by decide) _ rfl
  cases hcalls

end VfsFiles

end Helos
