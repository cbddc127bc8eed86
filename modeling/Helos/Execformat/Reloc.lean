import Helos.Theory.Fields
import Helos.Util.Tree

/-!
# Base relocation

`execformat_pe_BaseRelocate` of `execformat/pe/reloc.c`, on a memory of bytes that holds the image,
its headers and its relocation table. Every access reads memory as it is then, also when a target lies
in the table. A failing assertion, or a loop over the blocks that takes more turns than it is given,
has no result.
-/

namespace Helos

/-- The fields of `execformat_pe_PortableExecutable` that are used here. -/
structure PortableExecutable where
  begin : Nat
  optional : Nat
  sections : Nat
  numSections : Nat
  isPE32P : Bool
deriving DecidableEq

namespace Reloc

def load (m : Nat → UInt8) (address width : Nat) : Nat :=
  LittleEndian.decode (Cells.read m address width)

/-- `sizeof(execformat_pe_OptionalHeader_StandardFields_PE32P)`, where `win.imageBase` follows, and
the same for PE32. -/
def imageBaseOffsetPE32P : Nat := 24

def imageBaseOffsetPE32 : Nat := 28

def imageBase (pe : PortableExecutable) (m : Nat → UInt8) : Nat :=
  if pe.isPE32P then load m (pe.optional + imageBaseOffsetPE32P) 8
  else load m (pe.optional + imageBaseOffsetPE32) 4

/-- `sizeof(execformat_pe_SectionHeader)` and its fields `virtualSize` and `virtualAddr`; `name` is
the first. -/
def sizeofSectionHeader : Nat := 40

def virtualSize (m : Nat → UInt8) (header : Nat) : Nat := load m (header + 8) 4

def virtualAddr (m : Nat → UInt8) (header : Nat) : Nat := load m (header + 12) 4

/-- `__local_strncmp`, of a string in memory and one that ends in NUL. -/
def localStrncmp (m : Nat → UInt8) (s1 : Nat) (s2 : List UInt8) : Nat → Int
  | 0 => 0
  | n + 1 =>
    if m s1 ≠ 0 ∧ m s1 = s2.headD 0 then localStrncmp m (s1 + 1) s2.tail n
    else (m s1).toNat - (s2.headD 0).toNat

/-- `".reloc"` -/
def relocName : List UInt8 := [0x2e, 0x72, 0x65, 0x6c, 0x6f, 0x63, 0]

/-- The search through `n` section headers. -/
def findReloc (pe : PortableExecutable) (m : Nat → UInt8) (header : Nat) : Nat → Option (Nat × Nat)
  | 0 => none
  | n + 1 =>
    if localStrncmp m header relocName 6 = 0 then
      let reloc := pe.begin + virtualAddr m header
      some (reloc, reloc + virtualSize m header)
    else findReloc pe m (header + sizeofSectionHeader) n

/-- Where the table begins and ends. -/
def locate (pe : PortableExecutable) (m : Nat → UInt8) (relocBase relocEnd : Nat) :
    Option (Nat × Nat) :=
  if relocBase ≠ 0 ∧ relocEnd ≠ 0 then some (relocBase, relocEnd)
  else findReloc pe m pe.sections pe.numSections

/-! ### The entries of a block -/

/-- `EXECFORMAT_PE_BASERELOC_OFFSET_MASK` and `EXECFORMAT_PE_BASERELOC_FLAG_MASK` -/
def offsetOf (entry : Nat) : Nat := entry &&& 0x0fff

def typeOf (entry : Nat) : Nat := entry &&& 0xf000

def typeHigh : Nat := 0x1000
def typeLow : Nat := 0x2000
def typeHighlow : Nat := 0x3000
def typeHighadj : Nat := 0x4000
def typeDir64 : Nat := 0xa000

def pageOffset (m : Nat → UInt8) (block : Nat) : Nat := load m block 4

def blockSize (m : Nat → UInt8) (block : Nat) : Nat := load m (block + 4) 4

/-- `block->entries[i]` -/
def entry (m : Nat → UInt8) (block i : Nat) : Nat := load m (block + 8 + 2 * i) 2

/-- The `switch`, without its case for `HIGHADJ`. -/
def relocateTarget (m : Nat → UInt8) (target type : Nat) (diff : UInt64) : Nat → UInt8 :=
  if type = typeHigh then Fields.add m ⟨target, 2⟩ (diff >>> 16).toNat
  else if type = typeLow then Fields.add m ⟨target, 2⟩ diff.toNat
  else if type = typeHighlow then Fields.add m ⟨target, 4⟩ diff.toNat
  else if type = typeDir64 then Fields.add m ⟨target, 8⟩ diff.toNat
  else m

/-- The loop over the entries, with `n` of them left. `HIGHADJ` also skips the next one. -/
def relocateEntries (begin block : Nat) (diff : UInt64) : Nat → Nat → (Nat → UInt8) → Nat → UInt8
  | 0, _, m => m
  | n + 1, i, m =>
    if typeOf (entry m block i) = typeHighadj then
      match n with
      | 0 => m
      | n + 1 => relocateEntries begin block diff n (i + 2) m
    else
      let target := begin + pageOffset m block + offsetOf (entry m block i)
      relocateEntries begin block diff n (i + 1)
        (relocateTarget m target (typeOf (entry m block i)) diff)

/-- `block->blockSize - 8`, of type `uint32_t`. -/
def bodySize (m : Nat → UInt8) (block : Nat) : Nat := (blockSize m block + (2 ^ 32 - 8)) % 2 ^ 32

/-- The loop over the blocks. -/
def relocateBlocks (begin relocEnd : Nat) (diff : UInt64) :
    Nat → Nat → (Nat → UInt8) → Option (Nat → UInt8)
  | 0, _, _ => none
  | fuel + 1, reloc, m =>
    if reloc < relocEnd then
      if bodySize m reloc % 2 = 0 then
        let m := relocateEntries begin reloc diff (bodySize m reloc / 2) 0 m
        relocateBlocks begin relocEnd diff fuel (reloc + blockSize m reloc) m
      else none
    else some m

/-- `execformat_pe_BaseRelocate` -/
def baseRelocate (fuel : Nat) (pe : PortableExecutable) (relocBase relocEnd : Nat)
    (currentBase targetBase : UInt64) (m : Nat → UInt8) : Option (Nat → UInt8) :=
  if pe.begin = 0 then some m
  else
    let currentBase := if currentBase = 0 then UInt64.ofNat (imageBase pe m) else currentBase
    match locate pe m relocBase relocEnd with
    | none => some m -- no .reloc section
    | some (reloc, relocEnd) =>
      relocateBlocks pe.begin relocEnd (targetBase - currentBase) fuel reloc m

end Reloc

end Helos
