import Helos.Filesystem.Vfs
import Mathlib.Algebra.Group.Nat.Defs
import Mathlib.Algebra.Ring.Int.Defs

/-!
# The ustar filesystem

The loader and the operations on paths of `driver/filesystem/ustar/ustar.cpp`. A block is read into
a buffer on the stack; a string of the header runs to the next NUL, past its field and, when there
is none before, into the memory behind the buffer.
-/

namespace Helos

open Filesystem

/-- A device of 512-byte blocks. -/
structure BlockDevice where
  size : Nat
  block : Nat → List UInt8
  block_length : ∀ i, (block i).length = 512

/-! ### The header -/

namespace UstarType

def normalFile : UInt8 := 0x30
def symbolicLink : UInt8 := 0x32
def characterDevice : UInt8 := 0x33
def blockDevice : UInt8 := 0x34
def directory : UInt8 := 0x35
def fifo : UInt8 := 0x36

end UstarType

/-- The C string at an offset. -/
def stringAt (buf : List UInt8) (offset : Nat) : CString := (buf.drop offset).takeWhile (· != 0)

namespace UstarMetadata

/-! The fields of `__USTAR_Metadata` by their offsets. -/

def filename (buf : List UInt8) : CString := stringAt buf 0
def filemode (buf : List UInt8) : CString := stringAt buf 100
def owner (buf : List UInt8) : CString := stringAt buf 108
def group (buf : List UInt8) : CString := stringAt buf 116
def size (buf : List UInt8) : CString := stringAt buf 124
def lastmodify (buf : List UInt8) : CString := stringAt buf 136
def type (buf : List UInt8) : UInt8 := buf.getD 156 0
def linkname (buf : List UInt8) : CString := stringAt buf 157
def magic (buf : List UInt8) : CString := stringAt buf 257
def version (buf : List UInt8) : List UInt8 := (buf.drop 263).take 2
def pathPrefix (buf : List UInt8) : CString := stringAt buf 345

end UstarMetadata

def ustarMagic : CString := cString "ustar"
def ustarVersion : CString := cString "00"

/-- `v = v * 8 + str[i] - '0'`, where `char` is signed. -/
def decodeOctets (str : CString) : UInt64 :=
  str.foldl (fun v c => v * 8 + c.toInt8.toInt64.toUInt64 - 0x30) 0

def roundupBlocks (size : UInt64) : UInt64 := (size + 511) / 512

/-! ### Loading -/

structure UstarFile where
  offset : Nat
  filename : CString
  linkname : Option CString
  size : UInt64
  lastmodify : UInt64
  mode : UInt16
  owner : UInt16
  group : UInt16

structure Ustar where
  files : List UstarFile
  block : BlockDevice

namespace Ustar

/-- The recorded name: one separator at its end is cut. -/
def recordedName (buf : List UInt8) : CString :=
  let filename := separator :: (UstarMetadata.pathPrefix buf ++ UstarMetadata.filename buf)
  if filename.getLast? = some separator then filename.dropLast else filename

/-- The mask that the `switch` on the type applies to the mode; a hard link has none. -/
def typeMask (type : UInt8) : Option UInt16 :=
  if type = 0 ∨ type = UstarType.normalFile then some sIFREG
  else if type = UstarType.symbolicLink then some sIFLNK
  else if type = UstarType.characterDevice then some sIFCHR
  else if type = UstarType.blockDevice then some sIFBLK
  else if type = UstarType.directory then some sIFDIR
  else if type = UstarType.fifo then some sIFIFO
  else none

def permissions (buf : List UInt8) : UInt16 := (decodeOctets (UstarMetadata.filemode buf)).toUInt16 &&& 0x1FF

/-- The file that a header at block `i` describes. -/
def readHeader (buf : List UInt8) (i : Nat) : UstarFile :=
  let type := UstarMetadata.type buf
  let mode := permissions buf
  { offset := i + 1
    filename := recordedName buf
    linkname := if type = UstarType.symbolicLink then some (UstarMetadata.linkname buf) else none
    size :=
      if type = 0 ∨ type = UstarType.normalFile then decodeOctets (UstarMetadata.size buf) else 0
    lastmodify := decodeOctets (UstarMetadata.lastmodify buf)
    mode :=
      match typeMask type with
      | some mask => mode &&& mask
      | none => mode
    owner := (decodeOctets (UstarMetadata.owner buf)).toUInt16
    group := (decodeOctets (UstarMetadata.group buf)).toUInt16 }

/-- An `int` as the `uint64_t` it is compared and passed as. -/
def asUnsigned (i : Int) : Nat := (i % 2 ^ 64).toNat

/-- `i += roundupBlocks<512>(file.size) + 1`, on an `int`. -/
def nextHeader (i : Int) (size : UInt64) : Int :=
  Int.bmod (i + (roundupBlocks size).toNat + 1) (2 ^ 32)

/-- The buffer after a block is read, with the memory behind it up to its first NUL. -/
def readBuffer (block : BlockDevice) (behind : Nat → CString) (i : Nat) : List UInt8 :=
  block.block i ++ behind i

/-- The loop from `i` on: `none` when the fuel runs out, `some none` for the null pointer. -/
def allocateFrom (block : BlockDevice) (behind : Nat → CString) :
    Nat → Int → List UstarFile → Option (Option (List UstarFile))
  | 0, _, _ => none
  | fuel + 1, i, files =>
    if asUnsigned i < block.size then
      let buf := readBuffer block behind (asUnsigned i)
      if UstarMetadata.magic buf ≠ ustarMagic ∨ UstarMetadata.version buf ≠ ustarVersion then
        if i = 0 then some none else some (some files)
      else
        let file := readHeader buf (asUnsigned i)
        allocateFrom block behind fuel (nextHeader i file.size) (files ++ [file])
    else some (some files)

def allocateBlock (block : BlockDevice) (behind : Nat → CString) (fuel : Nat) : Option (Option Ustar) :=
  (allocateFrom block behind fuel 0 []).map fun loaded => loaded.map fun files => { files, block }

/-! ### Operations on paths -/

structure Stat where
  mode : UInt16
  numLinks : UInt32
  uid : UInt16
  gid : UInt16
  size : UInt64
  blocks : UInt64
  timeAccess : UInt64
  timeModification : UInt64

/-- `__Stat` -/
def statOf (file : UstarFile) : Stat :=
  { mode := file.mode, numLinks := 0, uid := file.owner, gid := file.group, size := file.size,
    blocks := roundupBlocks file.size, timeAccess := 0, timeModification := file.lastmodify }

/-- The first file of a name, and its index. -/
def findFile (u : Ustar) (path : CString) : Option (Nat × UstarFile) :=
  (u.files.zipIdx.find? fun f => f.1.filename == path).map fun f => (f.2, f.1)

def getattr (u : Ustar) (path : CString) (stat : Stat) : Int × Stat :=
  if path = [separator] then (0, { stat with mode := sIFDIR ||| 0x1ED })
  else
    match u.findFile path with
    | some (_, file) => (0, statOf file)
    | none => (-eNOENT, stat)

/-- The result, and what is written to the buffer. -/
def readlink (u : Ustar) (link : CString) (bufferSize : Nat) : Int × List UInt8 :=
  match u.findFile link with
  | some (_, file) =>
    match file.linkname with
    | none => (-eINVAL, [])
    | some linkname =>
      if file.mode &&& sIFMT ≠ sIFLNK then (-eINVAL, [])
      else if bufferSize < linkname.length then (linkname.length, linkname.take bufferSize)
      else
        (0, (linkname ++ [0]).take (if bufferSize > linkname.length then linkname.length + 1 else bufferSize))
  | none => (-eNOENT, [])

/-- The result, and the handle when the file is opened. -/
def openFile (u : Ustar) (path : CString) : Int × Option Nat :=
  match u.findFile path with
  | some (i, file) =>
    if file.mode &&& sIFMT = sIFLNK ∨ file.mode &&& sIFMT = sIFDIR then (-eINVAL, none) else (0, some i)
  | none => (-eNOENT, none)

def opendir (u : Ustar) (path : CString) : Int × Option Nat :=
  if path = [separator] then (0, some u.files.length)
  else
    match u.findFile path with
    | some (i, file) => if file.mode &&& sIFMT ≠ sIFDIR then (-eINVAL, none) else (0, some i)
    | none => (-eNOENT, none)

end Ustar

end Helos
