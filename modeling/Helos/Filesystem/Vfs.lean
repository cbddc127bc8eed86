import Mathlib.Data.List.Infix
import Mathlib.Tactic.Common

/-!
# The virtual filesystem

The mount tables of `driver/filesystem/vfs/vfs.cpp` and of `driver/filesystem/devfs/devfs.cpp`. A C
string is the list of its bytes before the NUL. Filesystems are objects of any type: what is compared
is their identity. A `root.fs` that was never set is null, as the destructor takes it.
-/

namespace Helos

abbrev CString := List UInt8

def cString (s : String) : CString := s.toUTF8.data.toList

namespace Filesystem

/-! ### Constants of `filesystem.hpp` -/

def separator : UInt8 := 0x2f

def eNOENT : Int := 2
def eEXIST : Int := 17
def eINVAL : Int := 22

/-- The bits of the file type. -/
def sIFMT : UInt16 := 0xF000
def sIFIFO : UInt16 := 0x1000
def sIFCHR : UInt16 := 0x2000
def sIFDIR : UInt16 := 0x4000
def sIFBLK : UInt16 := 0x6000
def sIFREG : UInt16 := 0x8000
def sIFLNK : UInt16 := 0xA000

def capabilityNoOpen : UInt32 := (1 : UInt32) <<< 2

end Filesystem

open Filesystem

/-- `while (len > 1 && where[len - 1] == Seperator) len--;` -/
def strippedLength (path : CString) : Nat → Nat
  | len + 2 => if path.getD (len + 1) 0 = separator then strippedLength path (len + 1) else len + 2
  | len => len

def stripSeparators (path : CString) : CString := path.take (strippedLength path path.length)

/-! ### Mounts -/

structure VfsMount (φ : Type*) where
  mountPoint : CString
  source : CString
  fs : φ

structure VirtualFilesystem (φ : Type*) where
  root : Option (VfsMount φ)
  mounts : List (VfsMount φ)

namespace VirtualFilesystem

variable {φ : Type*}

def rootFs (v : VirtualFilesystem φ) : Option φ := v.root.map VfsMount.fs

def mount (v : VirtualFilesystem φ) (mountPoint source : CString) : Option φ → Int × VirtualFilesystem φ
  | none => (-eINVAL, v)
  | some fs =>
    if mountPoint = [separator] then (0, { v with root := some { mountPoint, source, fs } })
    else
      let m : VfsMount φ := { mountPoint := stripSeparators mountPoint, source, fs }
      if v.mounts.any fun other => other.mountPoint == m.mountPoint then (-eEXIST, v)
      else (0, { v with mounts := v.mounts ++ [m] })

/-- `strncmp(m->where.C(), path, m->where.Length()) == 0 && m->where.Length() > maxlen`, where
`maxlen` is still 1. -/
def stringPrefix (path : CString) (m : VfsMount φ) : Bool :=
  m.mountPoint.isPrefixOf path && decide (1 < m.mountPoint.length)

/-- The filesystem, and the path inside it. -/
def filesystemOfPath [DecidableEq φ] (v : VirtualFilesystem φ) (path : CString) : Option φ × CString :=
  if path = [separator] then (v.rootFs, path)
  else
    let (fs, maxlen) :=
      match v.mounts.find? (stringPrefix path) with
      | some m => (some m.fs, m.mountPoint.length)
      | none => (v.rootFs, 1)
    (fs, if fs = v.rootFs then path else path.drop maxlen)

end VirtualFilesystem

/-! ### Devices -/

/-- `κ` stands for the callbacks. -/
structure DeviceMount (κ : Type*) where
  path : CString
  read : Option κ
  write : Option κ
  ioctl : Option κ
  user : Nat
  type : UInt16

structure DeviceFilesystem (κ : Type*) where
  mounts : List (DeviceMount κ)

namespace DeviceFilesystem

variable {κ : Type*}

def insertMount (d : DeviceFilesystem κ) (m : DeviceMount κ) : Int × DeviceFilesystem κ :=
  if d.mounts.any fun other => other.path == m.path then (-eEXIST, d)
  else (0, { mounts := d.mounts ++ [m] })

def mountCharacterIoctl (d : DeviceFilesystem κ) (path : CString) (user : Nat) (ioctl : Option κ) :
    Int × DeviceFilesystem κ :=
  d.insertMount { path, read := none, write := none, ioctl, user, type := sIFCHR }

def mountCharacter (d : DeviceFilesystem κ) (path : CString) (user : Nat) (read write ioctl : Option κ) :
    Int × DeviceFilesystem κ :=
  d.insertMount { path, read, write, ioctl, user, type := sIFCHR }

end DeviceFilesystem

end Helos
