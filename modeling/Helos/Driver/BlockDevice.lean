import Helos.Theory.Cells
import Mathlib.Data.Set.Lattice
import Mathlib.Order.CompletePartialOrder

/-!
# Block devices

The class `BlockDevice` of `driver/block/blockdevice.hpp` as the record of its virtual methods, over
the states `σ` of the device and its blocks `β`, and the slices of `driver/block/blockdevice.cpp`. A
reply carries the blocks of the storage that the call has accessed; a slice passes it on.
-/

namespace Helos

/-- `Permission`, a set of bits. -/
structure Permission where
  read : Bool
  write : Bool
  execute : Bool

namespace Block

structure Reply (β : Type) where
  count : UInt64
  accessed : Set Nat
  data : List β

structure BlockDevice (σ β : Type) where
  blockSize : UInt64
  size : UInt64
  devicePermission : Permission
  readBlock : σ → (blockOffset blockCount : UInt64) → Reply β
  writeBlock : σ → (blockOffset : UInt64) → (data : Nat → β) → (blockCount : UInt64) → σ × Reply β

variable {σ β : Type}

namespace BlockDevice

/-- `SlicedBlockDevice`, as `Slice` makes it. -/
def slice (backing : BlockDevice σ β) (off cnt : UInt64) : BlockDevice σ β :=
  { blockSize := backing.blockSize
    size := cnt
    devicePermission := backing.devicePermission
    readBlock := fun s blockOffset blockCount => backing.readBlock s (blockOffset + off) blockCount
    writeBlock := fun s blockOffset data blockCount =>
      backing.writeBlock s (blockOffset + off) data blockCount }

end BlockDevice

inductive Call (β : Type) where
  | read (offset count : UInt64)
  | write (offset count : UInt64) (data : Nat → β)

def Call.offset : Call β → UInt64
  | read offset _ => offset
  | write offset _ _ => offset

def Call.count : Call β → UInt64
  | read _ count => count
  | write _ count _ => count

def BlockDevice.step (dev : BlockDevice σ β) (s : σ) : Call β → σ × Reply β
  | .read offset count => (s, dev.readBlock s offset count)
  | .write offset count data => dev.writeBlock s offset data count

/-- The number of blocks that a call on a device of `n` blocks is for. -/
def transferred (n offset count : Nat) : Nat := if offset ≤ n then min count (n - offset) else 0

def Call.transferred (n : UInt64) (c : Call β) : Nat :=
  Block.transferred n.toNat c.offset.toNat c.count.toNat

/-- The blocks that a call on a device of `n` blocks is for. -/
def Call.blocks (n : UInt64) (c : Call β) : Set Nat :=
  Set.Ico c.offset.toNat (c.offset.toNat + c.transferred n)

/-- A device that is an array of blocks. -/
structure IsArray (dev : BlockDevice σ β) (view : σ → Nat → β) : Prop where
  readBlock : ∀ s offset count,
    let c : Call β := .read offset count
    dev.readBlock s offset count =
      { count := UInt64.ofNat (c.transferred dev.size)
        accessed := c.blocks dev.size
        data := Cells.read (view s) offset.toNat (c.transferred dev.size) }
  writeBlock : ∀ s offset data count,
    let c : Call β := .write offset count data
    (dev.writeBlock s offset data count).2 =
      { count := UInt64.ofNat (c.transferred dev.size), accessed := c.blocks dev.size, data := [] }
  view : ∀ s offset data count,
    let c : Call β := .write offset count data
    view (dev.writeBlock s offset data count).1 =
      Cells.write (view s) offset.toNat (Cells.read data 0 (c.transferred dev.size))

/-- The array itself as a device. -/
def arrayDevice (blockSize size : UInt64) : BlockDevice (Nat → β) β :=
  { blockSize
    size
    devicePermission := ⟨true, true, true⟩
    readBlock := fun s offset count =>
      let c : Call β := .read offset count
      { count := UInt64.ofNat (c.transferred size)
        accessed := c.blocks size
        data := Cells.read s offset.toNat (c.transferred size) }
    writeBlock := fun s offset data count =>
      let c : Call β := .write offset count data
      (Cells.write s offset.toNat (Cells.read data 0 (c.transferred size)),
        { count := UInt64.ofNat (c.transferred size), accessed := c.blocks size, data := [] }) }

theorem arrayDevice_isArray (blockSize size : UInt64) :
    IsArray (arrayDevice (β := β) blockSize size) id :=
  ⟨fun _ _ _ => rfl, fun _ _ _ _ => rfl, fun _ _ _ _ => rfl⟩

/-- Slices of a device, and slices of slices, with the range of its blocks they stand for. -/
inductive IsSlice (root : BlockDevice σ β) : BlockDevice σ β → Nat → UInt64 → Prop where
  | slice (off cnt : UInt64) (h : off.toNat + cnt.toNat ≤ root.size.toNat) :
    IsSlice root (root.slice off cnt) off.toNat cnt
  | nest {dev : BlockDevice σ β} {base : Nat} {size : UInt64} (off cnt : UInt64)
    (hdev : IsSlice root dev base size) (h : off.toNat + cnt.toNat ≤ dev.size.toNat) :
    IsSlice root (dev.slice off cnt) (base + off.toNat) cnt

end Block

end Helos
