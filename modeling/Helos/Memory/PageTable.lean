import Helos.Memory.PageEntry
import Helos.Theory.RadixTable
import Mathlib.Data.Finset.Basic

/-!
# Page tables

`paging_map_Page` and `paging_map_Page2M` of `memory/paging_map.c`, over any physical frame allocator.
The memory of the tables is given by the base of a table and an index; tables are page aligned, so
that this names every entry once. The calls made to the allocator and the flushes of the TLB are
recorded. A page count is a natural number: the loops run down from it to 0.
-/

namespace Helos

/-- `paging_physical_AllocateOneFrame`, which may have no frame left, and
`paging_physical_FreeFrame` of a frame and a page count. -/
structure FrameAllocator (σ : Type) where
  allocate : σ → Option Nat × σ
  free : σ → Nat → Nat → σ

inductive PagingEvent where
  | allocated (frame : Option Nat)
  | freed (frame pageCount : Nat)
  | flushed (virt : Nat)
deriving DecidableEq

structure Paging (σ : Type) where
  frames : σ
  memory : Nat → Nat → Nat
  events : List PagingEvent

/-- What does not change: the allocator, the address of `paging_PML4Table`, and
`paging_SupportExecuteDisable`. -/
structure PagingSetup (σ : Type) where
  allocator : FrameAllocator σ
  pml4Table : Nat
  supportExecuteDisable : Bool

namespace Paging

open PageEntry

variable {σ : Type}

def setEntry (s : Paging σ) (table i e : Nat) : Paging σ :=
  { s with memory := Radix.write s.memory table i e }

def flushTlbSingle (s : Paging σ) (virt : Nat) : Paging σ :=
  { s with events := .flushed virt :: s.events }

section Setup

variable (g : PagingSetup σ)

/-- The frame is zeroed. When there is none, the result is 0. -/
def allocateOneFrame (s : Paging σ) : Nat × Paging σ :=
  match g.allocator.allocate s.frames with
  | (some frame, frames) =>
    (frame,
      { frames
        memory := Radix.clear s.memory frame 0
        events := .allocated (some frame) :: s.events })
  | (none, frames) => (0, { s with frames, events := .allocated none :: s.events })

def freeFrame (s : Paging σ) (frame pageCount : Nat) : Paging σ :=
  { s with
    frames := g.allocator.free s.frames frame pageCount
    events := .freed frame pageCount :: s.events }

/-- One level of the descent: the table that an entry refers to, which is allocated if the entry is
not present. -/
def nextTable (s : Paging σ) (table i : Nat) : Nat × Paging σ :=
  let s :=
    if s.memory table i &&& pmlPresent = 0 then
      let (frame, s) := allocateOneFrame g s
      s.setEntry table i (PageEntry.table frame)
    else s
  (s.memory table i &&& pmlAddrMask, s)

/-- The body of the loop of `paging_map_Page`. -/
def mapOnePage (flags : BitVec 32) (physical virt : Nat) (s : Paging σ) : Paging σ :=
  let (table, s) := nextTable g s g.pml4Table (takeBitfield virt 47 39)
  let (table, s) := nextTable g s table (takeBitfield virt 38 30)
  let (table, s) := nextTable g s table (takeBitfield virt 29 21)
  let s := s.setEntry table (takeBitfield virt 20 12) (leaf 0 g.supportExecuteDisable physical flags)
  s.flushTlbSingle virt

/-- The body of the loop of `paging_map_Page2M`. A table that the page takes the place of is freed. -/
def mapOnePage2M (flags : BitVec 32) (physical virt : Nat) (s : Paging σ) : Paging σ :=
  let (table, s) := nextTable g s g.pml4Table (takeBitfield virt 47 39)
  let (table, s) := nextTable g s table (takeBitfield virt 38 30)
  let i := takeBitfield virt 29 21
  let s :=
    if s.memory table i &&& pmlPresent ≠ 0 ∧ s.memory table i &&& pmlPageSize = 0 then
      freeFrame g s (s.memory table i &&& pmlAddrMask) 1
    else s
  let s := s.setEntry table i (leaf pmlPageSize g.supportExecuteDisable physical flags)
  s.flushTlbSingle virt

/-- `while (pageCount--)`, with the addresses going up by the page size. -/
def mapPages (size : Nat) (mapOne : Nat → Nat → Paging σ → Paging σ) :
    Nat → Nat → Nat → Paging σ → Paging σ
  | 0, _, _, s => s
  | pageCount + 1, physical, virt, s =>
    mapPages size mapOne pageCount (wrap64 (physical + size)) (wrap64 (virt + size))
      (mapOne physical virt s)

/-- `paging_map_Page`. A failed assertion halts the system. -/
def mapPage (s : Paging σ) (physical virt pageCount : Nat) (flags : BitVec 32) :
    Option (Paging σ) :=
  if physical % 4096 = 0 ∧ virt % 4096 = 0 then
    some (mapPages 4096 (mapOnePage g flags) pageCount physical virt s)
  else none

/-- `paging_map_Page2M` -/
def mapPage2M (s : Paging σ) (physical virt pageCount : Nat) (flags : BitVec 32) :
    Option (Paging σ) :=
  if physical % 2097152 = 0 ∧ virt % 2097152 = 0 then
    some (mapPages 2097152 (mapOnePage2M g flags) pageCount physical virt s)
  else none

/-- The walk of the processor from `paging_PML4Table`. -/
def translate (s : Paging σ) (v : Nat) : Option Translation :=
  Translation.ofTrail v (Radix.trail link s.memory 0 g.pml4Table (indices v))

end Setup

/-! ### Frames used for tables -/

section Frames

variable (pml4Table : Nat)

/-- The PML4 and the frames that were allocated for tables and not freed since. -/
def tableFrames : List PagingEvent → Finset Nat
  | [] => {pml4Table}
  | .allocated (some frame) :: events => insert frame (tableFrames events)
  | .allocated none :: events => tableFrames events
  | .freed frame pageCount :: events =>
    (tableFrames events).filter fun t => t < frame ∨ frame + pageCount * 4096 ≤ t
  | .flushed _ :: events => tableFrames events

/-- The allocator has always returned a frame, and none that was a table. -/
def Supplied : List PagingEvent → Prop
  | [] => True
  | .allocated (some frame) :: events =>
    IsFrame frame ∧ frame ∉ tableFrames pml4Table events ∧ Supplied events
  | .allocated none :: _ => False
  | .freed _ _ :: events => Supplied events
  | .flushed _ :: events => Supplied events

instance decidableSupplied : (events : List PagingEvent) → Decidable (Supplied pml4Table events)
  | [] => .isTrue trivial
  | .allocated (some _) :: events =>
    have := decidableSupplied events
    inferInstanceAs (Decidable (_ ∧ _ ∧ _))
  | .allocated none :: _ => .isFalse id
  | .freed _ _ :: events => decidableSupplied events
  | .flushed _ :: events => decidableSupplied events

end Frames

end Paging

end Helos
