import Helos.Driver.BlockDevice
import Helos.Theory.Refinement
import Mathlib.Algebra.Group.Nat.Defs
import Mathlib.Data.List.Induction

/-!
# The ramdisk

`BlockDeviceRamdisk` of `driver/block/ramdisk.cpp`, on a memory of bytes. A call tells what `memcpy`
was given beside what is returned; the caller's buffer is apart from that of the device.
-/

namespace Helos

/-- The buffer and the address past its end are in the address space. -/
structure Ramdisk where
  blocksize : UInt64
  blockcount : UInt64
  buffer : Nat
  perm : Permission
  fits : buffer + blocksize.toNat * blockcount.toNat < 2 ^ 64

/-- What a call returns, the bytes of the device it copies from or to, and what a read copies. -/
structure Transfer where
  count : UInt64
  address : Nat
  length : Nat
  data : List UInt8

namespace Ramdisk

/-- `if (count > blockcount - offset) count = blockcount - offset;` -/
def clamp (d : Ramdisk) (offset count : UInt64) : UInt64 :=
  if count > d.blockcount - offset then d.blockcount - offset else count

/-- `(uint8_t *)buffer + blocksize * offset` -/
def address (d : Ramdisk) (offset : UInt64) : Nat :=
  (d.buffer + (d.blocksize * offset).toNat) % 2 ^ 64

def refused : Transfer := { count := -1, address := 0, length := 0, data := [] }

def readBlock (d : Ramdisk) (m : Nat → UInt8) (offset count : UInt64) : Transfer :=
  if ¬ d.perm.read then refused
  else
    let count := d.clamp offset count
    let length := (d.blocksize * count).toNat
    { count, address := d.address offset, length, data := Cells.read m (d.address offset) length }

def writeBlock (d : Ramdisk) (m : Nat → UInt8) (offset : UInt64) (data : Nat → UInt8)
    (count : UInt64) : (Nat → UInt8) × Transfer :=
  if ¬ d.perm.write then (m, refused)
  else
    let count := d.clamp offset count
    let length := (d.blocksize * count).toNat
    (Cells.write m (d.address offset) (Cells.read data 0 length),
      { count, address := d.address offset, length, data := [] })

inductive Call where
  | read (offset count : UInt64)
  | write (offset count : UInt64) (data : Nat → UInt8)

def Call.offset : Call → UInt64
  | read offset _ => offset
  | write offset _ _ => offset

def Call.count : Call → UInt64
  | read _ count => count
  | write _ count _ => count

def step (d : Ramdisk) (m : Nat → UInt8) : Call → (Nat → UInt8) × Transfer
  | .read offset count => (m, d.readBlock m offset count)
  | .write offset count data => d.writeBlock m offset data count

/-- The memory after a sequence of calls. -/
def after (d : Ramdisk) (m : Nat → UInt8) (calls : List Call) : Nat → UInt8 :=
  (Refinement.replies d.step m calls).1

/-! ### The contract -/

def Call.transferred (d : Ramdisk) (c : Call) : Nat :=
  Block.transferred d.blockcount.toNat c.offset.toNat c.count.toNat

/-- What a call writes into a block. -/
def Call.written (d : Ramdisk) (i : Nat) : Call → Option (List UInt8)
  | read _ _ => none
  | write offset count data =>
    if offset.toNat ≤ i ∧ i < offset.toNat + (write offset count data).transferred d then
      some (Cells.read data (d.blocksize.toNat * (i - offset.toNat)) d.blocksize.toNat)
    else none

/-- A block as memory holds it. -/
def block (d : Ramdisk) (m : Nat → UInt8) (i : Nat) : List UInt8 :=
  Cells.read m (d.buffer + d.blocksize.toNat * i) d.blocksize.toNat

/-- The latest write to a block, or what it held at first. -/
def latest (d : Ramdisk) (m : Nat → UInt8) (calls : List Call) (i : Nat) : List UInt8 :=
  Refinement.latest (Call.written d i) (d.block m i) calls

/-- What a read has to copy. -/
def expected (d : Ramdisk) (m : Nat → UInt8) (calls : List Call) (c : Call) : List UInt8 :=
  match c with
  | .read offset _ =>
    ((List.range (c.transferred d)).map fun j => d.latest m calls (offset.toNat + j)).flatten
  | .write _ _ _ => []

def region (d : Ramdisk) : Set Nat :=
  Set.Ico d.buffer (d.buffer + d.blocksize.toNat * d.blockcount.toNat)

/-- Every call of a sequence does what a bounded array of blocks would do, inside the buffer. -/
structure Serves (d : Ramdisk) (m : Nat → UInt8) (calls : List Call) : Prop where
  count : ∀ pre c post, calls = pre ++ c :: post →
    (d.step (d.after m pre) c).2.count.toNat = c.transferred d
  data : ∀ pre c post, calls = pre ++ c :: post →
    (d.step (d.after m pre) c).2.data = d.expected m pre c
  inside : ∀ pre c post, calls = pre ++ c :: post →
    Set.Ico (d.step (d.after m pre) c).2.address
      ((d.step (d.after m pre) c).2.address + (d.step (d.after m pre) c).2.length) ⊆ d.region
  outside : ∀ a, a ∉ d.region → d.after m calls a = m a

end Ramdisk

end Helos
