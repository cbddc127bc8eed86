import Helos.Driver.RamdiskSpec
import Helos.Filesystem.OpenClose
import Helos.Filesystem.UstarArchive
import Helos.Filesystem.UstarReaddir

/-!
# The filesystems at boot

`filesystem_Init` and `filesystem_Ls` of `driver/filesystem/filesystem_init.cpp`: the archive embedded in the
kernel as the root, and the devices at `/dev`. Of what is printed, the names that are listed.
-/

namespace Helos

open Filesystem

/-! ### The device -/

/-- A ramdisk of 512-byte blocks as the loader sees it. -/
def BlockDevice.ofRamdisk (d : Ramdisk) (m : Nat → UInt8) (h : d.blocksize = 512) : BlockDevice where
  size := d.blockcount.toNat
  block := d.block m
  block_length i := by
    rw [Ramdisk.block, Cells.length_read, h]
    rfl

/-- `block->ReadBlock(i, buf, 1)` -/
theorem ofRamdisk_readBlock {d : Ramdisk} {m : Nat → UInt8} (h : d.blocksize = 512) (hread : d.perm.read = true)
    {i : UInt64} (hi : i < d.blockcount) :
    (d.readBlock m i 1).data = (BlockDevice.ofRamdisk d m h).block i.toNat := by
  have hlt : i.toNat < d.blockcount.toNat := UInt64.lt_iff_toNat_lt.mp hi
  have hdata : (d.step m (.read i 1)).2.data = _ := Ramdisk.step_data hread (UInt64.le_of_lt hi)
  have hone : (Ramdisk.Call.read i 1).transferred d = 1 := by
    have hcount : (1 : UInt64).toNat = 1 := rfl
    rw [Ramdisk.Call.transferred, Block.transferred]
    simp only [Ramdisk.Call.offset, Ramdisk.Call.count, hcount]
    rw [if_pos hlt.le]
    omega
  rw [hone] at hdata
  refine hdata.trans ?_
  simp [BlockDevice.ofRamdisk]

/-- `initrdSizeRounded` -/
def roundedSize (size : Nat) : Nat := if size % 512 ≠ 0 then (size / 512 + 1) * 512 else size

/-- `new block::BlockDeviceRamdisk(embed_Initrd, 512, initrdSizeRounded / 512, PermRead)` -/
def initrdRamdisk (start size : Nat) (h : start + roundedSize size < 2 ^ 64) : Ramdisk where
  blocksize := 512
  blockcount := UInt64.ofNat (roundedSize size / 512)
  buffer := start
  perm := ⟨true, false, false⟩
  fits := by
    have hwidth : (512 : UInt64).toNat = 512 := rfl
    have hcount : (UInt64.ofNat (roundedSize size / 512)).toNat = roundedSize size / 512 := by
      rw [UInt64.toNat_ofNat']
      omega
    rw [hwidth, hcount]
    omega

/-! ### Mounting -/

/-- The filesystems there are, as objects. -/
inductive Mounted where
  | initrd
  | devfs
deriving DecidableEq

inductive FramebufferCallback where
  | read
  | write
  | ioctl
deriving DecidableEq

/-- `Format::AllocateBlock`: the first allocator that takes the device. -/
def formatAllocateBlock {φ : Type} : List (BlockDevice → Option (Option φ)) → BlockDevice → Option (Option φ)
  | [], _ => some none
  | allocator :: fslist, block => do
    match ← allocator block with
    | some fs => some (some fs)
    | none => formatAllocateBlock fslist block

/-- The first framebuffer. -/
def framebuffer : DeviceMount FramebufferCallback where
  path := cString "/fb0"
  read := some .read
  write := some .write
  ioctl := some .ioctl
  user := 0
  type := sIFCHR

/-- `Framebuffer::Init`. All of its devices are mounted at one path. -/
def framebufferInit (d : DeviceFilesystem FramebufferCallback) (fbN : Nat) : DeviceFilesystem FramebufferCallback :=
  (List.range (fbN + 1)).foldl
    (fun d i => (d.mountCharacter (cString "/fb0") i (some .read) (some .write) (some .ioctl)).2) d

structure Filesystems where
  vfs : VirtualFilesystem Mounted
  initfs : Option Ustar
  devfs : DeviceFilesystem FramebufferCallback

/-- `filesystem_Init`. Without an archive there is no root. -/
def filesystemInit (initrd : BlockDevice) (behind : Nat → CString) (fuel : Nat) : Option Filesystems := do
  let initfs ← formatAllocateBlock [fun block => Ustar.allocateBlock block behind fuel] initrd
  let empty : VirtualFilesystem Mounted := { root := none, mounts := [] }
  let (_, vfs) := empty.mount (cString "/") (cString "initrd") (initfs.map fun _ => .initrd)
  let (ret, vfs) := vfs.mount (cString "/dev") (cString "devdefault") (some .devfs)
  let devfs : DeviceFilesystem FramebufferCallback := { mounts := [] }
  if ret ≠ 0 then some { vfs, initfs, devfs } else some { vfs, initfs, devfs := framebufferInit devfs 3 }

/-! ### Listing -/

def eNOSYS : Int := 38

namespace DeviceFilesystem

/-- `DeviceFilesystem::Readdir` -/
def readdir {κ : Type} (d : DeviceFilesystem κ) (path : CString) : Int × List DirEntry :=
  if path ≠ [separator] then (-eNOENT, [])
  else
    (0, d.mounts.map fun m =>
      { name := m.path.drop 1
        stat :=
          { mode := m.type ||| 0x1B6, numLinks := 0, uid := 0, gid := 0, size := 0, blocks := 0, timeAccess := 0,
            timeModification := 0 }
        flags := readdirStatValid })

end DeviceFilesystem

namespace Filesystems

def opened (file : OpenFile) (result : Int × Option Nat) : Int × OpenFile × Unit :=
  (result.1, match result.2 with
    | some handle => { file with handle := UInt64.ofNat handle }
    | none => file, ())

/-- What the filesystems do for the VFS. -/
def driver (s : Filesystems) : Driver Mounted Unit where
  capabilities
    | .initrd => 0
    | .devfs => capabilityNoOpen
  call function fs _ path file :=
    match fs, function with
    | .initrd, .openFile => opened file ((s.initfs.map fun u => u.openFile path).getD (-eNOENT, none))
    | .initrd, .opendir => opened file ((s.initfs.map fun u => u.opendir path).getD (-eNOENT, none))
    | .initrd, .closeFile | .initrd, .closedir => (0, file, ())
    | .devfs, _ => (-eNOSYS, file, ())

/-- `Readdir` of the filesystem of an open file. -/
def readdir (s : Filesystems) (file : VfsOpenFile Mounted) : Int × List DirEntry :=
  match file.fs with
  | .initrd => (s.initfs.map fun u => u.readdir file.fspath file.userfile.handle.toNat).getD (-eNOSYS, [])
  | .devfs => s.devfs.readdir file.fspath

/-- `filesystem_Ls`, with what the memory for the VFS file holds and where it is: the names that are printed.
Without a root there is no filesystem to ask, and a call that fails is reported by printing its result
as a string. -/
def ls (s : Filesystems) (path : CString) (address : Nat) (userfile : OpenFile) : Option (List CString) := do
  let (ret, files) ← VfsFiles.opendir s.vfs s.driver (VfsFiles.boot ()) path address userfile
  if ret ≠ 0 ∨ address = 0 then none
  else
    let handle ← files.files address
    let (ret, entries) := s.readdir handle.file
    if ret ≠ 0 then none else some (entries.map DirEntry.name)

end Filesystems

/-! ### What is there after boot -/

section Boot

variable {m : Nat → UInt8} {start size address : Nat} {ms : List Ustar.Member} {path : CString} {userfile : OpenFile}

open Ustar

/-- The archive is in the kernel. -/
def Embedded (m : Nat → UInt8) (start size : Nat) (ms : List Member) : Prop :=
  Cells.read m start size = (imageBlocks ms).flatten

theorem Embedded.size_eq (h : Embedded m start size ms) : size = 512 * (imageBlocks ms).length := by
  have hlength := congrArg List.length h
  rw [Cells.length_read, List.length_flatten] at hlength
  have hwidths : (imageBlocks ms).map List.length = List.replicate (imageBlocks ms).length 512 :=
    List.eq_replicate_iff.mpr ⟨List.length_map _, fun n hn => by
      obtain ⟨b, hb, rfl⟩ := List.mem_map.mp hn
      exact length_of_mem_imageBlocks hb⟩
  rw [hlength, hwidths, List.sum_replicate_nat, Nat.mul_comm]

theorem roundedSize_mul (n : Nat) : roundedSize (512 * n) = 512 * n := by
  rw [roundedSize, if_neg (by omega)]

theorem Embedded.blocks (h : Embedded m start size ms) :
    (List.range (imageBlocks ms).length).map (fun j => Cells.read m (start + 512 * j) 512) = imageBlocks ms := by
  have hsize := h.size_eq
  rw [Embedded, hsize, Cells.read_mul] at h
  refine List.eq_iff_flatten_eq.mpr ⟨h, List.ext_getElem (by simp) fun k hk hk' => ?_⟩
  rw [List.getElem_map, List.getElem_map, List.getElem_map, Cells.length_read]
  exact (length_of_mem_imageBlocks (List.getElem_mem _)).symm

theorem Embedded.onDevice (h : Embedded m start size ms) (hfits : start + roundedSize size < 2 ^ 64) :
    OnDevice (.ofRamdisk (initrdRamdisk start size hfits) m rfl) 0 ms ∧
      (BlockDevice.ofRamdisk (initrdRamdisk start size hfits) m rfl).size = (imageBlocks ms).length := by
  have hcount : (UInt64.ofNat (roundedSize size / 512)).toNat = (imageBlocks ms).length := by
    rw [h.size_eq, roundedSize_mul] at hfits ⊢
    rw [Nat.mul_div_cancel_left _ (by decide), UInt64.toNat_ofNat']
    omega
  refine ⟨(onDevice_imageOf ms).congr hcount fun k hk => ?_, hcount⟩
  have hk' : k < (imageBlocks ms).length := hk
  have hget := congrArg (fun blocks => blocks[k]?) h.blocks
  simp only [List.getElem?_map, List.getElem?_range hk', List.getElem?_eq_getElem hk', Option.map_some,
    Option.some.injEq] at hget
  have hblock : (BlockDevice.ofRamdisk (initrdRamdisk start size hfits) m rfl).block k =
      Cells.read m (start + 512 * k) 512 := by
    have hwidth : (512 : UInt64).toNat = 512 := rfl
    simp only [BlockDevice.ofRamdisk, Ramdisk.block, initrdRamdisk, hwidth]
  have himage : (imageOf ms).block k = (imageBlocks ms)[k] := List.getD_eq_getElem _ _ hk'
  rw [hblock, himage, hget]

/-! Mounting -/

theorem framebufferInit_mounts (fbN : Nat) :
    framebufferInit { mounts := [] } fbN = { mounts := [framebuffer] } := by
  induction fbN with
  | zero => rfl
  | succ fbN ih =>
    rw [framebufferInit] at ih ⊢
    rw [List.range_succ, List.foldl_append, ih]
    rfl

def mounted : VirtualFilesystem Mounted where
  root := some { mountPoint := cString "/", source := cString "initrd", fs := .initrd }
  mounts := [{ mountPoint := cString "/dev", source := cString "devdefault", fs := .devfs }]

theorem filesystemInit_eq {initrd : BlockDevice} {behind : Nat → CString} {fuel : Nat} {u : Ustar}
    (h : allocateBlock initrd behind fuel = some (some u)) :
    filesystemInit initrd behind fuel =
      some { vfs := mounted, initfs := some u, devfs := { mounts := [framebuffer] } } := by
  have hroot : cString "/" = [separator] := by decide
  have hne : cString "/dev" ≠ [separator] := by decide
  have hstrip : stripSeparators (cString "/dev") = cString "/dev" := by decide
  have hformat : formatAllocateBlock [fun block => allocateBlock block behind fuel] initrd = some (some u) := by
    simp [formatAllocateBlock, h]
  have hmount : (VirtualFilesystem.mount { root := none, mounts := [] } (cString "/") (cString "initrd")
      (some Mounted.initrd)).2.mount (cString "/dev") (cString "devdefault") (some .devfs) = (0, mounted) := by
    simp [VirtualFilesystem.mount, hroot, hne, hstrip, mounted]
  simp only [filesystemInit, hformat, Option.bind_eq_bind, Option.bind_some, Option.map_some, hmount,
    framebufferInit_mounts, ne_eq, not_true_eq_false, if_false]

theorem createOpenFile_mounted (path : CString) (userfile : OpenFile) :
    mounted.createOpenFile path userfile = some
      (if cString "/dev" <+: path then
        { fs := .devfs, fspath := if path.drop 4 = [] then [separator] else path.drop 4, userfile }
      else { fs := .initrd, fspath := if path = [] then [separator] else path, userfile }) := by
  have hlength : (cString "/dev").length = 4 := by decide
  have hprefix : ¬ cString "/dev" <+: [separator] := by decide
  rw [VirtualFilesystem.createOpenFile, VirtualFilesystem.filesystemOfPath]
  by_cases hroot : path = [separator]
  · simp [hroot, hprefix, mounted, VirtualFilesystem.rootFs]
  · by_cases hdev : cString "/dev" <+: path
    · simp [hroot, hdev, mounted, VirtualFilesystem.rootFs, VirtualFilesystem.stringPrefix, hlength,
        Nat.sub_eq_zero_iff_le]
    · simp [hroot, hdev, mounted, VirtualFilesystem.rootFs, VirtualFilesystem.stringPrefix]

/-! Listing -/

/-- The name under which a member is in the root, where it is. -/
def topLevel (m : Member) : Option CString :=
  match cutSeparator (separator :: m.path) with
  | [] => none
  | _ :: name => if separator ∈ name then none else some name

theorem cutSeparator_cons (path : CString) :
    cutSeparator (separator :: path) = [] ∨ ∃ name, cutSeparator (separator :: path) = separator :: name := by
  unfold cutSeparator
  split
  · cases path with
    | nil => exact .inl rfl
    | cons c path => exact .inr ⟨_, rfl⟩
  · exact .inr ⟨_, rfl⟩

theorem childEntry_root (m : Member) (i : Nat) : (childEntry [] (m.entry i)).map DirEntry.name = topLevel m := by
  unfold childEntry topLevel
  rcases cutSeparator_cons m.path with hcut | ⟨name, hcut⟩
  · simp [Member.entry, hcut, IsChild]
  · by_cases hsep : separator ∈ name
    · simp [Member.entry, hcut, IsChild, hsep]
    · simp [Member.entry, hcut, IsChild, hsep]

theorem children_root (ms : List Member) (i : Nat) :
    ((entriesFrom i ms).filterMap (childEntry [])).map DirEntry.name = ms.filterMap topLevel := by
  induction ms generalizing i with
  | nil => rfl
  | cons m ms ih =>
    have hname := childEntry_root m i
    rw [entriesFrom, List.filterMap_cons, List.filterMap_cons, ← hname]
    cases childEntry [] (m.entry i) with
    | none => exact ih _
    | some entry => exact congrArg _ (ih _)

/-- No file of an archive opens as a directory. -/
theorem opendir_file {block : BlockDevice} {behind : Nat → CString} {fuel : Nat} {u : Ustar}
    (h : allocateBlock block behind fuel = some (some u)) (hpath : path ≠ [separator]) : (u.opendir path).1 < 0 := by
  rw [Ustar.opendir, if_neg hpath]
  cases hfind : u.findFile path with
  | none => decide
  | some found =>
    obtain ⟨j, hfile⟩ := mem_of_allocateBlock h (findFile_mem hfind)
    have hmode : found.2.mode &&& sIFMT ≠ sIFDIR := by
      rw [hfile, readHeader_mode]
      decide
    dsimp only
    rw [if_pos hmode]
    decide

/-- What is mounted after boot. -/
def booted (u : Ustar) : Filesystems where
  vfs := mounted
  initfs := some u
  devfs := { mounts := [framebuffer] }

theorem ls_initrd {u : Ustar} {fspath : CString} {names : List CString} (haddress : address ≠ 0)
    (hfile : mounted.createOpenFile path userfile = some { fs := .initrd, fspath, userfile })
    (hlength : u.files.length < 2 ^ 64)
    (hroot : fspath = [separator] → (u.children []).map DirEntry.name = names)
    (hother : fspath ≠ [separator] → (u.opendir fspath).1 < 0) :
    (booted u).ls path address userfile = if fspath = [separator] then some names else none := by
  have htest : VfsFiles.andTest 0 = true := by decide
  by_cases hfs : fspath = [separator]
  · have hopen : u.opendir fspath = (0, some u.files.length) := by rw [Ustar.opendir, if_pos hfs]
    have hread : u.readdir [separator] u.files.length = (0, u.children []) :=
      readdir_eq_children fun file hfile heq => absurd heq (Nat.ne_of_lt (List.snd_lt_of_mem_zipIdx hfile))
    have hhandle : (UInt64.ofNat u.files.length).toNat = u.files.length := by
      rw [UInt64.toNat_ofNat']
      exact Nat.mod_eq_of_lt hlength
    subst hfs
    simp [Filesystems.ls, VfsFiles.opendir, VfsFiles.openWith, VfsFiles.boot, booted, hfile, htest,
      Filesystems.driver, Filesystems.opened, hopen, haddress, Filesystems.readdir, hhandle, hread, hroot]
  · have hret := hother hfs
    simp [Filesystems.ls, VfsFiles.opendir, VfsFiles.openWith, VfsFiles.boot, booted, hfile, htest,
      Filesystems.driver, Filesystems.opened, hret, hret.ne, hfs]

theorem ls_devfs {u : Ustar} {fspath : CString} (haddress : address ≠ 0)
    (hfile : mounted.createOpenFile path userfile = some { fs := .devfs, fspath, userfile }) :
    (booted u).ls path address userfile = if fspath = [separator] then some [cString "fb0"] else none := by
  have hnames : (DeviceFilesystem.readdir { mounts := [framebuffer] } [separator]).2.map DirEntry.name =
      [cString "fb0"] := by decide
  have htest : VfsFiles.andTest capabilityNoOpen = false := by decide
  by_cases hfs : fspath = [separator]
  · subst hfs
    have hread : (DeviceFilesystem.readdir { mounts := [framebuffer] } [separator]).1 = 0 := rfl
    simp [Filesystems.ls, VfsFiles.opendir, VfsFiles.openWith, VfsFiles.boot, booted, hfile, htest,
      Filesystems.driver, haddress, Filesystems.readdir, hnames, hread]
  · have hread : DeviceFilesystem.readdir { mounts := [framebuffer] } fspath = (-eNOENT, []) := if_pos hfs
    simp [Filesystems.ls, VfsFiles.opendir, VfsFiles.openWith, VfsFiles.boot, booted, hfile, htest,
      Filesystems.driver, Filesystems.readdir, hread, hfs, eNOENT]

theorem ls_booted {block : BlockDevice} {behind : Nat → CString} {fuel : Nat} {u : Ustar} {names : List CString}
    (hload : allocateBlock block behind fuel = some (some u)) (hlength : u.files.length < 2 ^ 64)
    (hnames : (u.children []).map DirEntry.name = names) (haddress : address ≠ 0) :
    (booted u).ls path address userfile =
      if path = [] ∨ path = cString "/" then some names
      else if path = cString "/dev" ∨ path = cString "/dev/" then some [cString "fb0"]
      else none := by
  have hroot : cString "/" = [separator] := by decide
  have hdev : cString "/dev/" = cString "/dev" ++ [separator] := by decide
  have hlen : (cString "/dev").length = 4 := by decide
  have hfile := createOpenFile_mounted path userfile
  by_cases hprefix : cString "/dev" <+: path
  · obtain ⟨rest, rfl⟩ := hprefix
    have hdrop : (cString "/dev" ++ rest).drop 4 = rest := by rw [← hlen, List.drop_left]
    have hne : ¬ (cString "/dev" ++ rest = [] ∨ cString "/dev" ++ rest = cString "/") := by
      rintro (h | h)
      · have hlength := congrArg List.length h
        rw [List.length_append, hlen] at hlength
        exact absurd hlength (by simp)
      · have hlength := congrArg List.length h
        rw [hroot, List.length_append, hlen, List.length_singleton] at hlength
        omega
    rw [if_pos (List.prefix_append _ _), hdrop] at hfile
    rw [if_neg hne, ls_devfs haddress hfile, hdev]
    refine if_congr ?_ rfl rfl
    rw [List.append_cancel_left_eq, List.append_right_eq_self]
    by_cases hrest : rest = []
    · simp [hrest]
    · simp [hrest]
  · have hne : ¬ (path = cString "/dev" ∨ path = cString "/dev/") := by
      rintro (rfl | rfl)
      · exact hprefix (List.prefix_refl _)
      · exact hprefix (hdev ▸ List.prefix_append _ _)
    rw [if_neg hprefix] at hfile
    rw [if_neg hne, ls_initrd haddress hfile hlength (fun _ => hnames) fun hother => opendir_file hload hother, hroot]
    refine if_congr ?_ rfl rfl
    by_cases hpath : path = []
    · simp [hpath]
    · simp [hpath]

/-- **Listing after boot.** Once an archive is mounted, the root lists the members that are no deeper, in
archive order, and `/dev` the framebuffer. Of no other path is there anything to list. -/
theorem ls_lists (behind : Nat → CString) (hfits : start + roundedSize size < 2 ^ 64) (hms : ms ≠ [])
    (hsize : (imageBlocks ms).length < 2 ^ 31) (h : Embedded m start size ms) :
    ∃ s, filesystemInit (.ofRamdisk (initrdRamdisk start size hfits) m rfl) behind (ms.length + 1) = some s ∧
      ∀ path address userfile, address ≠ 0 → s.ls path address userfile =
        if path = [] ∨ path = cString "/" then some (ms.filterMap topLevel)
        else if path = cString "/dev" ∨ path = cString "/dev/" then some [cString "fb0"]
        else none := by
  obtain ⟨hdevice, hblocks⟩ := h.onDevice hfits
  have hpos : 0 < (imageBlocks ms).length := by
    rw [imageBlocks, List.length_append]
    exact Nat.lt_of_lt_of_le Nat.two_pos (Nat.le_add_left _ _)
  have hload := hdevice.allocateBlock_eq behind (hblocks ▸ hpos) (hblocks ▸ hsize)
  rw [if_neg hms] at hload
  refine ⟨_, filesystemInit_eq hload, fun path address userfile haddress => ?_⟩
  refine ls_booted hload ?_ (children_root ms 0) haddress
  have hcount : (entriesFrom 0 ms).length = ms.length := hdevice.contents.length_eq.symm
  have hle : ms.length ≤ (archive ms).length := length_le_archive ms
  rw [imageBlocks, List.length_append] at hsize
  dsimp only
  omega

theorem ls_lists_bin : ∃ m size s, ∃ hfits : 0 + roundedSize size < 2 ^ 64,
    filesystemInit (.ofRamdisk (initrdRamdisk 0 size hfits) m rfl) (fun _ => []) 3 = some s ∧
      s.ls (cString "/") 1 ⟨0, false, 0, 0⟩ = some [cString "bin"] := by
  let bytes := (imageBlocks [binDirectory, binFile]).flatten
  have hembedded : Embedded (fun i => bytes.getD i 0) 0 bytes.length [binDirectory, binFile] :=
    Cells.read_getD bytes 0
  have hsize : bytes.length = 512 * 5 := hembedded.size_eq
  have hfits : 0 + roundedSize bytes.length < 2 ^ 64 := by
    rw [hsize]
    decide
  obtain ⟨s, hinit, hls⟩ := ls_lists (fun _ => []) hfits (List.cons_ne_nil _ _) (by decide) hembedded
  refine ⟨_, _, s, hfits, hinit, (hls _ 1 _ Nat.one_ne_zero).trans ?_⟩
  rw [if_pos (.inr rfl)]
  decide

end Boot

end Helos
