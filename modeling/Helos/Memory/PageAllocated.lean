import Helos.Memory.PageTable
import Helos.Memory.Physical

/-!
# Pages with frames of their own

The rest of `memory/paging_map.c`: `paging_map_Page1G`, the functions that map pages to frames they
allocate, and `paging_map_FreeAllocated`, over the bitmap of `paging_physical.c`.
-/

namespace Helos

/-- `paging_physical_AllocateOneFrame` and `paging_physical_FreeFrame`. -/
def bitmapAllocator : FrameAllocator Physical where
  allocate p :=
    let (p, found) := p.allocateFrame
    (found, p)
  free := Physical.freeFrame

def bitmapSetup (pml4Table : Nat) (supportExecuteDisable : Bool) : PagingSetup Physical :=
  { allocator := bitmapAllocator, pml4Table, supportExecuteDisable }

namespace Paging

open PageEntry

section Setup

variable {σ : Type} (g : PagingSetup σ)

/-- The body of the loop of `paging_map_Page1G`. Of the tables that the page takes the place of only
the first is freed. -/
def mapOnePage1G (flags : BitVec 32) (physical virt : Nat) (s : Paging σ) : Paging σ :=
  let (table, s) := nextTable g s g.pml4Table (takeBitfield virt 47 39)
  let i := takeBitfield virt 38 30
  let s :=
    if s.memory table i &&& pmlPresent ≠ 0 ∧ s.memory table i &&& pmlPageSize = 0 then
      freeFrame g s (s.memory table i &&& pmlAddrMask) 1
    else s
  let s := s.setEntry table i (leaf pmlPageSize g.supportExecuteDisable physical flags)
  s.flushTlbSingle virt

/-- `paging_map_Page1G` -/
def mapPage1G (s : Paging σ) (physical virt pageCount : Nat) (flags : BitVec 32) :
    Option (Paging σ) :=
  if physical % 1073741824 = 0 ∧ virt % 1073741824 = 0 then
    some (mapPages 1073741824 (mapOnePage1G g flags) pageCount physical virt s)
  else none

/-! ### `paging_map_FreeAllocated` -/

/-- The body of the loop, with what it adds to the address. -/
def freeOnePage (virt : Nat) (s : Paging σ) : Nat × Paging σ :=
  let table := g.pml4Table
  let i := takeBitfield virt 47 39
  if s.memory table i &&& pmlPresent = 0 then (4096, s)
  else
    let table := s.memory table i &&& pmlAddrMask
    let i := takeBitfield virt 38 30
    if s.memory table i &&& pmlPresent = 0 then (4096, s)
    else if s.memory table i &&& pmlPageSize ≠ 0 then
      let s := freeFrame g s (s.memory table i &&& pmlAddrMask1G) (512 * 512)
      (1073741824, s.setEntry table i 0)
    else
      let table := s.memory table i &&& pmlAddrMask
      let i := takeBitfield virt 29 21
      if s.memory table i &&& pmlPresent = 0 then (4096, s)
      else if s.memory table i &&& pmlPageSize ≠ 0 then
        let s := freeFrame g s (s.memory table i &&& pmlAddrMask2M) 512
        (2097152, s.setEntry table i 0)
      else
        let table := s.memory table i &&& pmlAddrMask
        let i := takeBitfield virt 20 12
        if s.memory table i &&& pmlPresent ≠ 0 then
          let s := freeFrame g s (s.memory table i &&& pmlAddrMask) 1
          (4096, s.setEntry table i 0)
        else (4096, s)

/-- `while (virtual < end)`. Close to 2^64 the address may wrap and the loop go on. -/
def freePages (past : Nat) : Nat → Nat → Paging σ → Option (Paging σ)
  | 0, virt, s => if virt < past then none else some s
  | fuel + 1, virt, s =>
    if virt < past then
      let (size, s) := freeOnePage g virt s
      freePages past fuel (wrap64 (virt + size)) s
    else some s

/-- `paging_map_FreeAllocated` -/
def freeAllocated (fuel : Nat) (s : Paging σ) (virt past : Nat) : Option (Paging σ) :=
  if virt % 4096 = 0 then freePages g past fuel virt s else none

end Setup

/-! ### `paging_map_PageAllocated` -/

/-- `HELOS_BUFFER_SIZE / sizeof(uint64_t *)` -/
def bufSize : Nat := 16384 / 8

/-- `paging_physical_AllocateFrames`, which zeroes the frames. A buffer that is not filled is recorded as
a failed allocation. -/
def allocateFrames (s : Paging Physical) (pageCount : Nat) : List Nat × Paging Physical :=
  let (frames, buf) := s.frames.allocateFrames pageCount
  (buf,
    { frames
      memory := buf.foldl (fun m frame => Radix.clear m frame 0) s.memory
      events := if buf.length < pageCount then .allocated none :: s.events else s.events })

/-- `paging_physical_AllocateFrames2M` -/
def allocateFrames2M (s : Paging Physical) (pageCount : Nat) : List Nat × Paging Physical :=
  let (frames, buf) := s.frames.allocateFrames2M pageCount
  let pages := buf.flatMap fun frame => (List.range 512).map fun i => frame + i * 4096
  (buf,
    { frames
      memory := pages.foldl (fun m frame => Radix.clear m frame 0) s.memory
      events := if buf.length < pageCount then .allocated none :: s.events else s.events })

section Setup

variable (g : PagingSetup Physical) (flags : BitVec 32)

/-- The loop over the buffer, and the address it stops at. -/
def mapFrames : List Nat → Nat → Paging Physical → Option (Paging Physical × Nat)
  | [], virt, s => some (s, virt)
  | frame :: buf, virt, s => do
    let s ← mapPage g s frame virt 1 flags
    mapFrames buf (wrap64 (virt + 4096)) s

/-- The address goes up after this loop, not in it. -/
def mapFrames2M (virt : Nat) : List Nat → Paging Physical → Option (Paging Physical)
  | [], s => some s
  | frame :: buf, s => do
    let s ← mapPage2M g s frame virt 1 flags
    mapFrames2M virt buf s

/-- `while (pageCount > 0)`. Every turn but the last fills the buffer, unless the frames run out; then
the loop does not end. -/
def allocatePages : Nat → Nat → Nat → Paging Physical → Option (Paging Physical)
  | _, 0, _, s => some s
  | 0, _ + 1, _, _ => none
  | fuel + 1, pageCount + 1, virt, s => do
    let (buf, s) := s.allocateFrames (min (pageCount + 1) bufSize)
    let (s, virt) ← mapFrames g flags buf virt s
    allocatePages fuel (pageCount + 1 - buf.length) virt s

def allocatePages2M : Nat → Nat → Nat → Paging Physical → Option (Paging Physical)
  | _, 0, _, s => some s
  | 0, _ + 1, _, _ => none
  | fuel + 1, pageCount + 1, virt, s => do
    let (buf, s) := s.allocateFrames2M (min (pageCount + 1) bufSize)
    let s ← mapFrames2M g flags virt buf s
    allocatePages2M fuel (pageCount + 1 - buf.length) (wrap64 (virt + 2097152 * buf.length)) s

/-- `paging_map_PageAllocated`. A turn maps a page at least, until the frames run out. -/
def pageAllocated (s : Paging Physical) (virt pageCount : Nat) : Option (Paging Physical) :=
  if virt % 4096 = 0 then allocatePages g flags pageCount pageCount virt s else none

/-- `paging_map_PageAllocated2M` -/
def pageAllocated2M (s : Paging Physical) (virt pageCount : Nat) : Option (Paging Physical) :=
  if virt % 2097152 = 0 then allocatePages2M g flags pageCount pageCount virt s else none

end Setup

/-- The two functions that map pages to frames they allocate. -/
inductive Allocation where
  | page
  | page2M
deriving DecidableEq

namespace Allocation

def pageSize : Allocation → Nat
  | .page => 4096
  | .page2M => 2097152

/-- How many frames of 4 KiB there are to a page. -/
def framesPerPage : Allocation → Nat
  | .page => 1
  | .page2M => 512

def run (g : PagingSetup Physical) (flags : BitVec 32) :
    Allocation → Paging Physical → Nat → Nat → Option (Paging Physical)
  | .page => pageAllocated g flags
  | .page2M => pageAllocated2M g flags

end Allocation

end Paging

end Helos
