import Mathlib.Data.BitVec
import Mathlib.Logic.Function.Basic

/-!
# The physical frame allocator

The bitmap of `memory/paging_physical.c`, one bit a page, set when the page is unusable or handed
out, and the two scan cursors over it. Frame addresses are natural numbers: the allocator computes
them from cursors below `paging_EndPhysicalPage`, an `int`. The `memset` of a frame handed out is an
effect on the memory of the page tables, where it is modelled.
-/

namespace Helos

abbrev Word := BitVec 64

def bitmapBits : Nat := 64

def systemPageSize : Nat := 4096

/-- The globals of `paging_physical.c`, and the end of memory it reads. -/
structure Physical where
  bitmap : Nat → Word
  phyI : Nat
  phyI2M : Nat
  endPhysicalPage : Nat

namespace Physical

/-! ### The bitmap -/

def fillBits (first last : Nat) : Word :=
  if last = bitmapBits - 1 then ~~~((1#64 <<< first) - 1#64)
  else if first = 0 then (1#64 <<< (last + 1)) - 1#64
  else ~~~((1#64 <<< first) - 1#64) &&& ((1#64 <<< (last + 1)) - 1#64)

/-- `for (int i = first; i < last; i++) paging_physical_Bitmap[i] = w;` -/
def fillWords (bitmap : Nat → Word) (first last : Nat) (w : Word) : Nat → Word :=
  (List.range' first (last - first)).foldl (fun b i => Function.update b i w) bitmap

def bitmapWriteOne (bitmap : Nat → Word) (first past : Nat) : Nat → Word :=
  let whereBegin := first / bitmapBits
  let whereLast := (past - 1) / bitmapBits
  if whereBegin = whereLast then
    Function.update bitmap whereBegin
      (bitmap whereBegin ||| fillBits (first % bitmapBits) ((past - 1) % bitmapBits))
  else
    let bitmap := Function.update bitmap whereBegin
      (bitmap whereBegin ||| fillBits (first % bitmapBits) (bitmapBits - 1))
    let bitmap := Function.update bitmap whereLast
      (bitmap whereLast ||| fillBits 0 ((past - 1) % bitmapBits))
    fillWords bitmap (whereBegin + 1) whereLast (~~~0#64)

def bitmapWriteZero (bitmap : Nat → Word) (first past : Nat) : Nat → Word :=
  let whereBegin := first / bitmapBits
  let whereLast := (past - 1) / bitmapBits
  if whereBegin = whereLast then
    Function.update bitmap whereBegin
      (bitmap whereBegin &&& ~~~fillBits (first % bitmapBits) ((past - 1) % bitmapBits))
  else
    let bitmap := Function.update bitmap whereBegin
      (bitmap whereBegin &&& ~~~fillBits (first % bitmapBits) (bitmapBits - 1))
    let bitmap := Function.update bitmap whereLast
      (bitmap whereLast &&& ~~~fillBits 0 ((past - 1) % bitmapBits))
    fillWords bitmap (whereBegin + 1) whereLast 0#64

/-! ### Single frames -/

/-- The inner loop: the first `j` whose bit is clear. -/
def clearBit (w : Word) : Option Nat :=
  (List.range bitmapBits).find? fun j => w &&& (1#64 <<< j) == 0#64

/-- The loop over `phy_i`, for the words that are left: where it stops, and the bit it found. -/
def scan (bitmap : Nat → Word) : Nat → Nat → Nat × Option Nat
  | 0, i => (i, none)
  | left + 1, i =>
    if bitmap i != ~~~0#64 then
      match clearBit (bitmap i) with
      | some j => (i, some j)
      | none => scan bitmap left (i + 1)
    else scan bitmap left (i + 1)

/-- One turn of the loop over `page`. -/
def allocateFrame (p : Physical) : Physical × Option Nat :=
  match scan p.bitmap (p.endPhysicalPage / bitmapBits - p.phyI) p.phyI with
  | (i, none) => ({ p with phyI := i }, none)
  | (i, some j) =>
    ({ p with phyI := i, bitmap := Function.update p.bitmap i (p.bitmap i ||| (1#64 <<< j)) },
      some ((i * bitmapBits + j) * systemPageSize))

/-- `paging_physical_AllocateFrames`, with the frames it has stored; it returns how many. -/
def allocateFrames (p : Physical) : Nat → Physical × List Nat
  | 0 => (p, [])
  | pageCount + 1 =>
    match p.allocateFrame with
    | (p, none) => (p, [])
    | (p, some addr) =>
      let (p, frames) := p.allocateFrames pageCount
      (p, addr :: frames)

/-- A failed allocation has stored 0 in `addr`. -/
def allocateOneFrame (p : Physical) : Physical × Nat :=
  let (p, frames) := p.allocateFrames 1
  (p, frames.headD 0)

/-! ### Blocks of 512 frames -/

/-- The loop over `phy_i_2M`; `left` bounds its turns. -/
def scan2M (bitmap : Nat → Word) (past : Nat) : Nat → Nat → Nat × Bool
  | 0, i => (i, false)
  | left + 1, i =>
    if i < past then
      if (List.range 8).all fun j => bitmap (i + j) == 0#64 then (i, true)
      else scan2M bitmap past left (i + 8)
    else (i, false)

def allocateFrame2M (p : Physical) : Physical × Option Nat :=
  let past := p.endPhysicalPage / bitmapBits
  match scan2M p.bitmap past (past - p.phyI2M) p.phyI2M with
  | (i, false) => ({ p with phyI2M := i }, none)
  | (i, true) =>
    let p := { p with phyI2M := i, bitmap := fillWords p.bitmap i (i + 8) (~~~0#64) }
    let addr := i * bitmapBits * systemPageSize
    (p, if addr = 0 then none else some addr)

def allocateFrames2M (p : Physical) : Nat → Physical × List Nat
  | 0 => (p, [])
  | pageCount + 1 =>
    match p.allocateFrame2M with
    | (p, none) => (p, [])
    | (p, some addr) =>
      let (p, frames) := p.allocateFrames2M pageCount
      (p, addr :: frames)

def allocateOneFrame2M (p : Physical) : Physical × Nat :=
  let (p, frames) := p.allocateFrames2M 1
  (p, frames.headD 0)

/-! ### Freeing -/

/-- Of frames below 64 GiB, whose page numbers are those of the bitmap. An unaligned frame is only
reported. -/
def freeFrame (p : Physical) (frame pageCount : Nat) : Physical :=
  if frame % systemPageSize ≠ 0 then p
  else
    { p with
      bitmap := bitmapWriteZero p.bitmap (frame / systemPageSize)
        (frame / systemPageSize + pageCount) }

/-- The state at boot: the scans skip the first 1 MiB and the first 2 MiB. -/
def boot (bitmap : Nat → Word) (endPhysicalPage : Nat) : Physical :=
  { bitmap, phyI := 1024 / 4 / bitmapBits, phyI2M := 2048 / 4 / bitmapBits, endPhysicalPage }

end Physical

end Helos
