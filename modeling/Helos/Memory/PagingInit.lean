import Helos.Memory.PhysicalBits
import Helos.Memory.KernelMapping
import Helos.Theory.Run

/-!
# The inventory of memory at boot

The loop of `runtime_InitPaging` over the memory map of the firmware. It clears the bits of the conventional
memory in the bitmap, which has room for 64 GiB; the page numbers are passed as `int`.
-/

namespace Helos

inductive EfiMemoryType where
  | reservedMemoryType | loaderCode | loaderData | bootServicesCode | bootServicesData
  | runtimeServicesCode | runtimeServicesData | conventionalMemory | unusableMemory
  | acpiReclaimMemory | acpiMemoryNvs | memoryMappedIo | memoryMappedIoPortSpace | palCode
  | maxMemoryType
  | unknown (type : UInt32)
deriving DecidableEq

structure EfiMemoryDescriptor where
  type : EfiMemoryType
  physicalStart : Nat
  numberOfPages : Nat
deriving DecidableEq

def maxSystemMemoryPages : Nat := 16777216

def bitmapWords : Nat := maxSystemMemoryPages / bitmapBits

/-! ### The bitmap, with the indices it is written at -/

namespace Physical

/-- `1ull << n`. A shift by a count that is out of range is undefined. -/
def shiftOne (n : Int) : Option Word := if 0 ≤ n ∧ n < 64 then some (1#64 <<< n.toNat) else none

/-- `fillBits` of any `int`s. The sum `last + 1ull` is unsigned. -/
def fillBitsInt (first last : Int) : Option Word := do
  if last = bitmapBits - 1 then
    let low ← shiftOne first
    return ~~~(low - 1#64)
  else if first = 0 then
    let high ← shiftOne ((last + 1) % 2 ^ 64)
    return high - 1#64
  else
    let low ← shiftOne first
    let high ← shiftOne ((last + 1) % 2 ^ 64)
    return ~~~(low - 1#64) &&& (high - 1#64)

/-- `paging_physical_Bitmap[i] &= ~w`. A write outside of the bitmap is undefined. -/
def clearWord (bitmap : Nat → Word) (i : Int) (w : Word) : Option (Nat → Word) :=
  if 0 ≤ i ∧ i < bitmapWords then
    some (Function.update bitmap i.toNat (bitmap i.toNat &&& ~~~w))
  else none

/-- `paging_physical_BitmapWriteZero` of any `int`s. The words of the loop lie between the two. -/
def bitmapWriteZeroInt (bitmap : Nat → Word) (first past : Int) : Option (Nat → Word) := do
  let whereBegin := first.tdiv bitmapBits
  let whereLast := (past - 1).tdiv bitmapBits
  if whereBegin = whereLast then
    let w ← fillBitsInt (first.tmod bitmapBits) ((past - 1).tmod bitmapBits)
    clearWord bitmap whereBegin w
  else
    let w ← fillBitsInt (first.tmod bitmapBits) (bitmapBits - 1)
    let bitmap ← clearWord bitmap whereBegin w
    let w ← fillBitsInt 0 ((past - 1).tmod bitmapBits)
    let bitmap ← clearWord bitmap whereLast w
    return fillWords bitmap (whereBegin + 1).toNat whereLast.toNat 0#64

end Physical

/-! ### The loop -/

structure BootMemory where
  bitmap : Nat → Word
  totalBytes : Nat
  usableBytes : Nat
  endPhysicalAddress : Nat
  loaderCodeAddress : Nat
  loaderCodeSize : Nat
  loaderCodePageCount : Int

namespace EfiMemoryDescriptor

def firstPage (entry : EfiMemoryDescriptor) : Nat := entry.physicalStart / systemPageSize

def pastPage (entry : EfiMemoryDescriptor) : Nat := entry.firstPage + entry.numberOfPages

def bytes (entry : EfiMemoryDescriptor) : Nat := wrap64 (systemPageSize * entry.numberOfPages)

/-- The end of the memory that the descriptor is about. -/
def past (entry : EfiMemoryDescriptor) : Nat := wrap64 (entry.physicalStart + entry.bytes)

/-- The code of the loader that is running, or code that ends where it starts. -/
def IsRunningCode (textStart : Nat) (entry : EfiMemoryDescriptor) : Prop :=
  entry.type = .loaderCode ∧ entry.physicalStart ≤ textStart ∧ textStart ≤ entry.past

instance (textStart : Nat) (entry : EfiMemoryDescriptor) : Decidable (entry.IsRunningCode textStart) :=
  inferInstanceAs (Decidable (_ ∧ _))

end EfiMemoryDescriptor

namespace BootMemory

/-- `paging_physical_BitmapWriteZero`, as it is called for a descriptor. -/
def clearPages (s : BootMemory) (entry : EfiMemoryDescriptor) : Option (Nat → Word) :=
  Physical.bitmapWriteZeroInt s.bitmap (toInt entry.firstPage) (toInt (wrap64 entry.pastPage))

/-- Conventional memory becomes usable. -/
def addUsable (s : BootMemory) (entry : EfiMemoryDescriptor) : Option BootMemory :=
  if entry.type = .conventionalMemory then
    (s.clearPages entry).map fun bitmap => { s with
      bitmap
      usableBytes := wrap64 (s.usableBytes + entry.bytes)
      endPhysicalAddress :=
        if s.endPhysicalAddress < entry.past then entry.past else s.endPhysicalAddress }
  else some s

/-- A failed assertion halts the system. -/
def addLoaderCode (textStart : Nat) (s : BootMemory) (entry : EfiMemoryDescriptor) : Option BootMemory :=
  if entry.IsRunningCode textStart then
    if s.loaderCodeAddress = 0 then
      some { s with
        loaderCodeAddress := entry.physicalStart
        loaderCodeSize := entry.bytes
        loaderCodePageCount := toInt entry.numberOfPages }
    else none
  else some s

def addDescriptor (textStart : Nat) (s : BootMemory) (entry : EfiMemoryDescriptor) : Option BootMemory :=
  let s := { s with totalBytes := wrap64 (s.totalBytes + entry.bytes) }
  (s.addUsable entry).bind fun s => s.addLoaderCode textStart entry

/-- The globals before the loop, with the bitmap filled. -/
def start : BootMemory where
  bitmap := fun _ => ~~~0#64
  totalBytes := 0
  usableBytes := 0
  endPhysicalAddress := 0
  loaderCodeAddress := 0
  loaderCodeSize := 0
  loaderCodePageCount := 0

def endPhysicalPage (s : BootMemory) : Int := toInt (s.endPhysicalAddress / systemPageSize)

def readMap (textStart : Nat) (map : List EfiMemoryDescriptor) : Option BootMemory :=
  Run.exec (addDescriptor textStart) start map

end BootMemory

/-! ### Writes inside of the bitmap -/

namespace Physical

theorem shiftOne_of_lt {n : Nat} (hn : n < 64) : shiftOne n = some (1#64 <<< n) := by
  unfold shiftOne
  rw [if_pos (by omega), Int.toNat_natCast]

theorem fillBitsInt_eq {first last : Nat} (hf : first < 64) (hl : last < 64) :
    fillBitsInt first last = some (fillBits first last) := by
  have hwrap : ((last : Int) + 1) % 2 ^ 64 = ((last + 1 : Nat) : Int) := by omega
  unfold fillBitsInt fillBits bitmapBits
  by_cases hlast : last = 63
  · rw [if_pos (by omega), if_pos hlast, shiftOne_of_lt hf]
    rfl
  · rw [if_neg (by omega), if_neg hlast, hwrap, shiftOne_of_lt (by omega)]
    by_cases hfirst : first = 0
    · rw [if_pos (by omega), if_pos hfirst]
      rfl
    · rw [if_neg (by omega), if_neg hfirst, shiftOne_of_lt hf]
      rfl

theorem clearWord_of_lt (bitmap : Nat → Word) {i : Nat} (hi : i < bitmapWords) (w : Word) :
    clearWord bitmap i w = some (Function.update bitmap i (bitmap i &&& ~~~w)) := by
  unfold clearWord
  rw [if_pos (by omega), Int.toNat_natCast]

theorem bitmapWriteZeroInt_eq (bitmap : Nat → Word) {first past : Nat} (h : first < past)
    (hpast : past ≤ maxSystemMemoryPages) :
    bitmapWriteZeroInt bitmap first past = some (bitmapWriteZero bitmap first past) := by
  have hwords : bitmapWords = 262144 := rfl
  have hpages : maxSystemMemoryPages = 16777216 := rfl
  have hbits : bitmapBits = 64 := rfl
  have hlast : (past : Int) - 1 = ((past - 1 : Nat) : Int) := by omega
  have hdiv (n : Nat) : (n : Int).tdiv bitmapBits = ((n / bitmapBits : Nat) : Int) := rfl
  have hmod (n : Nat) : (n : Int).tmod bitmapBits = ((n % bitmapBits : Nat) : Int) := rfl
  have hlt (n : Nat) : n % bitmapBits < 64 := Nat.mod_lt n (by decide)
  have hfirst : first / bitmapBits < bitmapWords := by
    rw [hbits]
    omega
  have hpast' : (past - 1) / bitmapBits < bitmapWords := by
    rw [hbits]
    omega
  unfold bitmapWriteZeroInt bitmapWriteZero
  simp only [hlast, hdiv, hmod]
  by_cases hsame : first / bitmapBits = (past - 1) / bitmapBits
  · have hpart : fillBitsInt ((first % bitmapBits : Nat) : Int) (((past - 1) % bitmapBits : Nat) : Int) =
        some (fillBits (first % bitmapBits) ((past - 1) % bitmapBits)) := fillBitsInt_eq (hlt _) (hlt _)
    rw [if_pos (congrArg Nat.cast hsame), if_pos hsame, hpart, Option.bind_eq_bind, Option.bind_some,
      clearWord_of_lt bitmap hfirst]
  · have hfull : fillBitsInt ((first % bitmapBits : Nat) : Int) ((bitmapBits : Int) - 1) =
        some (fillBits (first % bitmapBits) (bitmapBits - 1)) := fillBitsInt_eq (hlt _) (by decide)
    have hzero : fillBitsInt 0 (((past - 1) % bitmapBits : Nat) : Int) =
        some (fillBits 0 ((past - 1) % bitmapBits)) := fillBitsInt_eq (by decide) (hlt _)
    have hbegin (n : Nat) : ((n : Int) + 1).toNat = n + 1 := by omega
    rw [if_neg (fun heq => hsame (Int.ofNat_inj.mp heq)), if_neg hsame, hfull, hzero]
    simp only [Option.bind_eq_bind, Option.bind_some, clearWord_of_lt _ hfirst, clearWord_of_lt _ hpast',
      hbegin, Int.toNat_natCast]
    rfl

/-- A call that is defined has written the word of its last page. -/
theorem last_lt_of_bitmapWriteZeroInt {bitmap bitmap' : Nat → Word} {first past : Int}
    (h : bitmapWriteZeroInt bitmap first past = some bitmap') : past ≤ maxSystemMemoryPages := by
  have hinside {b b' : Nat → Word} {w : Word}
      (hclear : clearWord b ((past - 1).tdiv bitmapBits) w = some b') :
      (past - 1).tdiv bitmapBits < bitmapWords := (Option.ite_none_right_eq_some.mp hclear).1.2
  have hlt : (past - 1).tdiv bitmapBits < bitmapWords := by
    unfold bitmapWriteZeroInt at h
    simp only at h
    split at h
    · next hsame =>
      obtain ⟨w, -, hclear⟩ := Option.bind_eq_some_iff.mp h
      exact hinside (hsame ▸ hclear)
    · obtain ⟨w, -, h⟩ := Option.bind_eq_some_iff.mp h
      obtain ⟨b, -, h⟩ := Option.bind_eq_some_iff.mp h
      obtain ⟨w', -, h⟩ := Option.bind_eq_some_iff.mp h
      obtain ⟨b', hclear, -⟩ := Option.bind_eq_some_iff.mp h
      exact hinside hclear
  have hwords : bitmapWords = 262144 := rfl
  have hpages : maxSystemMemoryPages = 16777216 := rfl
  have hbits : bitmapBits = 64 := rfl
  rw [hbits, hwords] at hlt
  by_contra hlarge
  rw [Int.tdiv_eq_ediv_of_nonneg (by omega)] at hlt
  omega

/-- It has also written the word of its first page, with a mask from its bit on. -/
theorem first_lt_of_bitmapWriteZeroInt {bitmap bitmap' : Nat → Word} {first past : Int}
    (h : bitmapWriteZeroInt bitmap first past = some bitmap') :
    0 ≤ first ∧ first < maxSystemMemoryPages := by
  have hword {b b' : Nat → Word} {w : Word} (hclear : clearWord b (first.tdiv bitmapBits) w = some b') :
      0 ≤ first.tdiv bitmapBits ∧ first.tdiv bitmapBits < bitmapWords :=
    (Option.ite_none_right_eq_some.mp hclear).1
  have hbit {last : Int} {w : Word} (hfill : fillBitsInt (first.tmod bitmapBits) last = some w) :
      0 ≤ first.tmod bitmapBits := by
    have hshift {w : Word} (hlow : shiftOne (first.tmod bitmapBits) = some w) :
        0 ≤ first.tmod bitmapBits := (Option.ite_none_right_eq_some.mp hlow).1.1
    unfold fillBitsInt at hfill
    split at hfill
    · obtain ⟨low, hlow, -⟩ := Option.bind_eq_some_iff.mp hfill
      exact hshift hlow
    · split at hfill
      · next hzero => exact hzero.ge
      · obtain ⟨low, hlow, -⟩ := Option.bind_eq_some_iff.mp hfill
        exact hshift hlow
  have hinside : (0 ≤ first.tdiv bitmapBits ∧ first.tdiv bitmapBits < bitmapWords) ∧
      0 ≤ first.tmod bitmapBits := by
    unfold bitmapWriteZeroInt at h
    simp only at h
    split at h
    · obtain ⟨w, hfill, hclear⟩ := Option.bind_eq_some_iff.mp h
      exact ⟨hword hclear, hbit hfill⟩
    · obtain ⟨w, hfill, h⟩ := Option.bind_eq_some_iff.mp h
      obtain ⟨b, hclear, -⟩ := Option.bind_eq_some_iff.mp h
      exact ⟨hword hclear, hbit hfill⟩
  obtain ⟨⟨hnonneg, hlt⟩, hmod⟩ := hinside
  have hwords : bitmapWords = 262144 := rfl
  have hpages : maxSystemMemoryPages = 16777216 := rfl
  have hbits : ((bitmapBits : Nat) : Int) = 64 := rfl
  have hsum := Int.tmod_add_mul_tdiv first bitmapBits
  rw [hbits] at hnonneg hlt hmod hsum
  have hrest := Int.tmod_lt_of_pos first (b := 64) (by decide)
  omega

end Physical

/-! ### One descriptor -/

namespace EfiMemoryDescriptor

def Usable (entry : EfiMemoryDescriptor) (page : Nat) : Prop :=
  entry.type = .conventionalMemory ∧ entry.firstPage ≤ page ∧ page < entry.pastPage

/-- There are pages, and they have physical addresses. -/
structure WellFormed (entry : EfiMemoryDescriptor) : Prop where
  pos : 0 < entry.numberOfPages
  le : entry.physicalStart + systemPageSize * entry.numberOfPages ≤ 2 ^ 52

/-- The bitmap has room for the memory that becomes usable. -/
def Fits (entry : EfiMemoryDescriptor) : Prop :=
  entry.type = .conventionalMemory → entry.pastPage ≤ maxSystemMemoryPages

theorem WellFormed.past_eq {entry : EfiMemoryDescriptor} (h : entry.WellFormed) :
    entry.past = entry.physicalStart + systemPageSize * entry.numberOfPages := by
  have hle := h.le
  have hbytes : entry.bytes = systemPageSize * entry.numberOfPages := wrap64_of_lt (by omega)
  unfold past
  rw [hbytes, wrap64_of_lt (by omega)]

theorem WellFormed.past_div {entry : EfiMemoryDescriptor} (h : entry.WellFormed) :
    entry.past / systemPageSize = entry.pastPage := by
  rw [h.past_eq, Nat.add_mul_div_left _ _ (by decide)]
  rfl

theorem WellFormed.firstPage_lt {entry : EfiMemoryDescriptor} (h : entry.WellFormed) :
    entry.firstPage < entry.pastPage := Nat.lt_add_of_pos_right h.pos

end EfiMemoryDescriptor

namespace BootMemory

open EfiMemoryDescriptor

variable {textStart : Nat} {s s' : BootMemory} {entry : EfiMemoryDescriptor} {map : List EfiMemoryDescriptor}

structure Added (textStart : Nat) (s : BootMemory) (entry : EfiMemoryDescriptor) (s' : BootMemory) :
    Prop where
  alone : entry.IsRunningCode textStart → s.loaderCodeAddress = 0
  loaderCodeAddress : s'.loaderCodeAddress =
    if entry.IsRunningCode textStart then entry.physicalStart else s.loaderCodeAddress
  endPhysicalAddress : s'.endPhysicalAddress =
    if entry.type = .conventionalMemory then max s.endPhysicalAddress entry.past else s.endPhysicalAddress
  cleared : entry.type = .conventionalMemory → s.clearPages entry = some s'.bitmap
  kept : entry.type ≠ .conventionalMemory → s'.bitmap = s.bitmap

theorem added_of_addDescriptor (h : addDescriptor textStart s entry = some s') :
    Added textStart s entry s' := by
  obtain ⟨s₁, husable, hloader⟩ := Option.bind_eq_some_iff.mp h
  have hfields : s₁.loaderCodeAddress = s.loaderCodeAddress ∧ (s₁.endPhysicalAddress =
      if entry.type = .conventionalMemory then max s.endPhysicalAddress entry.past
      else s.endPhysicalAddress) ∧
      (entry.type = .conventionalMemory → s.clearPages entry = some s₁.bitmap) ∧
      (entry.type ≠ .conventionalMemory → s₁.bitmap = s.bitmap) := by
    unfold addUsable at husable
    by_cases htype : entry.type = .conventionalMemory
    · rw [if_pos htype] at husable ⊢
      obtain ⟨bitmap, hclear, rfl⟩ := Option.map_eq_some_iff.mp husable
      exact ⟨rfl, (max_def_lt ..).symm, fun _ => hclear, fun hne => absurd htype hne⟩
    · rw [if_neg htype] at husable ⊢
      obtain rfl := Option.some.inj husable
      exact ⟨rfl, rfl, fun heq => absurd heq htype, fun _ => rfl⟩
  obtain ⟨hsame, hend, hcleared, hkept⟩ := hfields
  unfold addLoaderCode at hloader
  by_cases hrunning : entry.IsRunningCode textStart
  · rw [if_pos hrunning] at hloader
    obtain ⟨hzero, heq⟩ := Option.ite_none_right_eq_some.mp hloader
    obtain rfl := Option.some.inj heq
    exact ⟨fun _ => hsame ▸ hzero, (if_pos hrunning).symm, hend, hcleared, hkept⟩
  · rw [if_neg hrunning] at hloader
    obtain rfl := Option.some.inj hloader
    exact ⟨fun hrun => absurd hrun hrunning, by rw [if_neg hrunning, hsame], hend, hcleared, hkept⟩

theorem exists_addDescriptor
    (hwrite : entry.type = .conventionalMemory → ∃ bitmap, s.clearPages entry = some bitmap)
    (halone : entry.IsRunningCode textStart → s.loaderCodeAddress = 0) :
    ∃ s', addDescriptor textStart s entry = some s' := by
  obtain ⟨s₁, husable, hsame⟩ : ∃ s₁, addUsable
      { s with totalBytes := wrap64 (s.totalBytes + entry.bytes) } entry = some s₁ ∧
      s₁.loaderCodeAddress = s.loaderCodeAddress := by
    unfold addUsable
    by_cases htype : entry.type = .conventionalMemory
    · obtain ⟨bitmap, hclear⟩ := hwrite htype
      rw [if_pos htype]
      exact ⟨_, Option.map_eq_some_iff.mpr ⟨bitmap, hclear, rfl⟩, rfl⟩
    · rw [if_neg htype]
      exact ⟨_, rfl, rfl⟩
  obtain ⟨s', hloader⟩ : ∃ s', addLoaderCode textStart s₁ entry = some s' := by
    unfold addLoaderCode
    by_cases hrunning : entry.IsRunningCode textStart
    · rw [if_pos hrunning, if_pos (hsame.trans (halone hrunning))]
      exact ⟨_, rfl⟩
    · rw [if_neg hrunning]
      exact ⟨_, rfl⟩
  exact ⟨s', Option.bind_eq_some_iff.mpr ⟨s₁, husable, hloader⟩⟩

theorem clearPages_eq (hwf : entry.WellFormed) (htype : entry.type = .conventionalMemory)
    (hfits : entry.Fits) (s : BootMemory) :
    s.clearPages entry = some (Physical.bitmapWriteZero s.bitmap entry.firstPage entry.pastPage) := by
  have hpages : maxSystemMemoryPages = 16777216 := rfl
  have hpast := hfits htype
  have hlt := hwf.firstPage_lt
  unfold clearPages
  rw [wrap64_of_lt (by omega), toInt_of_lt (by omega), toInt_of_lt (by omega)]
  exact Physical.bitmapWriteZeroInt_eq s.bitmap hlt hpast

theorem Added.bit_iff (h : Added textStart s entry s') (hwf : entry.WellFormed) (hfits : entry.Fits)
    (page : Nat) : Physical.bit s'.bitmap page = true ↔
      Physical.bit s.bitmap page = true ∧ ¬ entry.Usable page := by
  unfold EfiMemoryDescriptor.Usable
  by_cases htype : entry.type = .conventionalMemory
  · have hclear := h.cleared htype
    rw [clearPages_eq hwf htype hfits] at hclear
    rw [← Option.some.inj hclear, Physical.bit_bitmapWriteZero _ hwf.firstPage_lt, Bool.and_eq_true,
      Bool.not_eq_true', decide_eq_false_iff_not]
    exact and_congr_right fun _ => (and_iff_right htype).not.symm
  · rw [h.kept htype]
    exact (and_iff_left fun hboth => htype hboth.1).symm

/-! ### The map -/

theorem bit_exec (hwf : ∀ entry ∈ map, entry.WellFormed) (hfits : ∀ entry ∈ map, entry.Fits)
    (h : Run.exec (addDescriptor textStart) s map = some s') (page : Nat) :
    Physical.bit s'.bitmap page = true ↔
      Physical.bit s.bitmap page = true ∧ ∀ entry ∈ map, ¬ entry.Usable page := by
  induction map generalizing s with
  | nil =>
    cases h
    simp
  | cons entry map ih =>
    rw [Run.exec_cons] at h
    obtain ⟨s₁, h₁, hrest⟩ := Option.bind_eq_some_iff.mp h
    rw [List.forall_mem_cons] at hwf hfits
    rw [ih hwf.2 hfits.2 hrest, (added_of_addDescriptor h₁).bit_iff hwf.1 hfits.1, List.forall_mem_cons,
      and_assoc]

theorem endPhysicalAddress_exec (h : Run.exec (addDescriptor textStart) s map = some s') (past : Nat) :
    s'.endPhysicalAddress ≤ past ↔ s.endPhysicalAddress ≤ past ∧
      ∀ entry ∈ map, entry.type = .conventionalMemory → entry.past ≤ past := by
  induction map generalizing s with
  | nil =>
    cases h
    simp
  | cons entry map ih =>
    rw [Run.exec_cons] at h
    obtain ⟨s₁, h₁, hrest⟩ := Option.bind_eq_some_iff.mp h
    rw [ih hrest, List.forall_mem_cons, ← and_assoc, (added_of_addDescriptor h₁).endPhysicalAddress]
    refine and_congr_left fun _ => ?_
    by_cases htype : entry.type = .conventionalMemory
    · simp [htype]
    · simp [htype]

/-- Code that is running is found once; what starts at 0 is not noticed. -/
def OneRunningCode (textStart : Nat) (map : List EfiMemoryDescriptor) : Prop :=
  map.Pairwise fun entry later =>
    entry.IsRunningCode textStart → later.IsRunningCode textStart → entry.physicalStart = 0

theorem oneRunningCode_of_exec (h : Run.exec (addDescriptor textStart) s map = some s') :
    (∀ entry ∈ map, entry.IsRunningCode textStart → s.loaderCodeAddress = 0) ∧
      OneRunningCode textStart map := by
  induction map generalizing s with
  | nil => exact ⟨nofun, List.Pairwise.nil⟩
  | cons entry map ih =>
    rw [Run.exec_cons] at h
    obtain ⟨s₁, h₁, hrest⟩ := Option.bind_eq_some_iff.mp h
    have hadded := added_of_addDescriptor h₁
    obtain ⟨hzero, hone⟩ := ih hrest
    rw [hadded.loaderCodeAddress] at hzero
    by_cases hrunning : entry.IsRunningCode textStart
    · rw [if_pos hrunning] at hzero
      exact ⟨fun _ _ _ => hadded.alone hrunning,
        List.pairwise_cons.mpr ⟨fun later hmem _ hlater => hzero later hmem hlater, hone⟩⟩
    · rw [if_neg hrunning] at hzero
      refine ⟨fun later hmem hlater => ?_,
        List.pairwise_cons.mpr ⟨fun _ _ hrun => absurd hrun hrunning, hone⟩⟩
      rcases List.mem_cons.mp hmem with rfl | hmem
      · exact absurd hlater hrunning
      · exact hzero later hmem hlater

theorem exists_exec (hwf : ∀ entry ∈ map, entry.WellFormed) (hfits : ∀ entry ∈ map, entry.Fits)
    (hzero : ∀ entry ∈ map, entry.IsRunningCode textStart → s.loaderCodeAddress = 0)
    (hone : OneRunningCode textStart map) :
    ∃ s', Run.exec (addDescriptor textStart) s map = some s' := by
  induction map generalizing s with
  | nil => exact ⟨s, rfl⟩
  | cons entry map ih =>
    rw [List.forall_mem_cons] at hwf hfits hzero
    obtain ⟨hfirst, hone⟩ := List.pairwise_cons.mp hone
    obtain ⟨s₁, h₁⟩ := exists_addDescriptor
      (fun htype => ⟨_, clearPages_eq hwf.1 htype hfits.1 s⟩) hzero.1
    rw [Run.exec_cons, h₁, Option.bind_some]
    refine ih hwf.2 hfits.2 (fun later hmem hlater => ?_) hone
    rw [(added_of_addDescriptor h₁).loaderCodeAddress]
    by_cases hrunning : entry.IsRunningCode textStart
    · rw [if_pos hrunning]
      exact hfirst later hmem hrunning hlater
    · rw [if_neg hrunning]
      exact hzero.2 later hmem hlater

/-- The inventory that the allocator relies on. -/
structure Inventory (map : List EfiMemoryDescriptor) (s : BootMemory) : Prop where
  bits : ∀ page < maxSystemMemoryPages,
    Physical.bit s.bitmap page = false ↔ ∃ entry ∈ map, entry.Usable page
  below : ∀ entry ∈ map, ∀ page : Nat, entry.Usable page → page < s.endPhysicalPage
  reached : s.endPhysicalPage = 0 ∨
    ∃ entry ∈ map, ∃ page : Nat, entry.Usable page ∧ s.endPhysicalPage = page + 1
  above : ∀ page : Nat, page < maxSystemMemoryPages → s.endPhysicalPage ≤ page →
    Physical.bit s.bitmap page = true

theorem bit_start (page : Nat) : Physical.bit start.bitmap page = true := by
  have hlt : page % bitmapBits < 64 := Nat.mod_lt _ (by decide)
  change (~~~0#64).getLsbD (page % bitmapBits) = true
  rw [BitVec.getLsbD_not, decide_eq_true hlt, BitVec.getLsbD_zero]
  rfl

theorem endPhysicalAddress_reached (h : readMap textStart map = some s) :
    s.endPhysicalAddress = 0 ∨ ∃ entry ∈ map, entry.type = .conventionalMemory ∧
      s.endPhysicalAddress = entry.past := by
  have hle := endPhysicalAddress_exec h
  by_cases hzero : s.endPhysicalAddress = 0
  · exact .inl hzero
  · have hnot : ¬ s.endPhysicalAddress ≤ s.endPhysicalAddress - 1 := by omega
    rw [hle] at hnot
    push Not at hnot
    obtain ⟨entry, hmem, htype, hlt⟩ := hnot (Nat.zero_le _)
    have hge := (hle _).mp (Nat.le_refl _)
    have hentry := hge.2 entry hmem htype
    exact .inr ⟨entry, hmem, htype, by omega⟩

theorem inventory_of_fits (hwf : ∀ entry ∈ map, entry.WellFormed) (hfits : ∀ entry ∈ map, entry.Fits)
    (h : readMap textStart map = some s) : Inventory map s := by
  have hpages : maxSystemMemoryPages = 16777216 := rfl
  have hbits (page : Nat) : Physical.bit s.bitmap page = false ↔ ∃ entry ∈ map, entry.Usable page := by
    rw [← Bool.not_eq_true, bit_exec hwf hfits h, and_iff_right (bit_start page)]
    push Not
    rfl
  have hend : s.endPhysicalPage = ((s.endPhysicalAddress / systemPageSize : Nat) : Int) := by
    apply toInt_of_lt
    rcases endPhysicalAddress_reached h with hzero | ⟨entry, hmem, htype, heq⟩
    · rw [hzero]
      decide
    · have hle := hfits entry hmem htype
      rw [heq, (hwf entry hmem).past_div]
      omega
  have hbelow (entry) (hmem : entry ∈ map) (page : Nat) (hpage : entry.Usable page) :
      page < s.endPhysicalAddress / systemPageSize := by
    have hle := ((endPhysicalAddress_exec h _).mp (Nat.le_refl _)).2 entry hmem hpage.1
    have hdiv := Nat.div_le_div_right (c := systemPageSize) hle
    rw [(hwf entry hmem).past_div] at hdiv
    exact hpage.2.2.trans_le hdiv
  refine ⟨fun page _ => hbits page, fun entry hmem page hpage => ?_, ?_, fun page _ hge => ?_⟩
  · rw [hend]
    exact Int.ofNat_lt.mpr (hbelow entry hmem page hpage)
  · rw [hend]
    rcases endPhysicalAddress_reached h with hzero | ⟨entry, hmem, htype, heq⟩
    · rw [hzero]
      exact .inl rfl
    · have hlt := (hwf entry hmem).firstPage_lt
      refine .inr ⟨entry, hmem, entry.pastPage - 1, ⟨htype, by omega, by omega⟩, ?_⟩
      rw [heq, (hwf entry hmem).past_div]
      omega
  · rw [hend] at hge
    rw [← Bool.not_eq_false, hbits]
    rintro ⟨entry, hmem, hpage⟩
    have hlt := hbelow entry hmem page hpage
    omega

/-- The last page of conventional memory is beyond the bitmap, or its number is not an `int`. -/
theorem fits_of_inventory (hwf : ∀ entry ∈ map, entry.WellFormed) (h : readMap textStart map = some s)
    (hinventory : Inventory map s) : ∀ entry ∈ map, entry.Fits := by
  intro entry hmem htype
  by_contra hlarge
  have hpages : maxSystemMemoryPages = 16777216 := rfl
  have hfirst := (hwf entry hmem).firstPage_lt
  have hbelow := hinventory.below entry hmem (entry.pastPage - 1) ⟨htype, by omega, by omega⟩
  have hint : s.endPhysicalPage < 2 ^ 31 := (toInt_bounds _).2
  have hle := ((endPhysicalAddress_exec h _).mp (Nat.le_refl _)).2 entry hmem htype
  rcases endPhysicalAddress_reached h with hzero | ⟨last, hlast, hconventional, heq⟩
  · have hdiv := (hwf entry hmem).past_div
    rw [hzero, Nat.le_zero] at hle
    rw [hle, Nat.zero_div] at hdiv
    omega
  -- the descriptor that ends last is read as it is, and the word of its last page is written
  have hfirst' := (hwf last hlast).firstPage_lt
  have hmono := Nat.div_le_div_right (c := systemPageSize) hle
  rw [heq, (hwf last hlast).past_div, (hwf entry hmem).past_div] at hmono
  have hbelow' := hinventory.below last hlast (last.pastPage - 1) ⟨hconventional, by omega, by omega⟩
  obtain ⟨s₁, s₂, hstep⟩ := Run.exec_mem h hlast
  have hclear := (added_of_addDescriptor hstep).cleared hconventional
  unfold clearPages at hclear
  rw [wrap64_of_lt (by omega), toInt_of_lt (by omega), toInt_of_lt (by omega)] at hclear
  have hinside := Physical.last_lt_of_bitmapWriteZeroInt hclear
  omega

/-- **The inventory.** The loop ends with every write inside of the bitmap and with the right inventory
exactly when all conventional memory lies below 64 GiB and the running code is found once. -/
theorem inventory_iff (hwf : ∀ entry ∈ map, entry.WellFormed) :
    (∃ s, readMap textStart map = some s ∧ Inventory map s) ↔
      (∀ entry ∈ map, entry.Fits) ∧ OneRunningCode textStart map := by
  constructor
  · rintro ⟨s, h, hinventory⟩
    exact ⟨fits_of_inventory hwf h hinventory, (oneRunningCode_of_exec h).2⟩
  · rintro ⟨hfits, hone⟩
    obtain ⟨s, h⟩ := exists_exec (s := start) hwf hfits (fun _ _ _ => rfl) hone
    exact ⟨s, h, inventory_of_fits hwf hfits h⟩

def smallMap : List EfiMemoryDescriptor :=
  [{ type := .loaderCode, physicalStart := 0x100000, numberOfPages := 16 },
    { type := .conventionalMemory, physicalStart := 0x200000, numberOfPages := 64 }]

theorem inventory_smallMap : ∃ s, readMap 0x100000 smallMap = some s ∧ Inventory smallMap s := by
  have hwf : ∀ entry ∈ smallMap, entry.WellFormed := by
    simp only [smallMap, List.forall_mem_cons]
    exact ⟨⟨by decide, by decide⟩, ⟨by decide, by decide⟩, nofun⟩
  have hfits : ∀ entry ∈ smallMap, entry.Fits := by
    simp only [smallMap, List.forall_mem_cons]
    exact ⟨nofun, fun _ => by decide, nofun⟩
  have hone : OneRunningCode 0x100000 smallMap := by
    refine List.pairwise_cons.mpr ⟨fun later hmem _ hlater => ?_, List.pairwise_singleton _ _⟩
    obtain rfl := List.mem_singleton.mp hmem
    exact absurd hlater.1 (by decide)
  exact (inventory_iff hwf).mpr ⟨hfits, hone⟩

def largeMap : List EfiMemoryDescriptor :=
  [{ type := .loaderCode, physicalStart := 0x100000, numberOfPages := 16 },
    { type := .conventionalMemory, physicalStart := 0x1000000000, numberOfPages := 1 }]

theorem not_inventory_largeMap : (∀ entry ∈ largeMap, entry.WellFormed) ∧
    ¬ ∃ s, readMap 0x100000 largeMap = some s ∧ Inventory largeMap s := by
  have hwf : ∀ entry ∈ largeMap, entry.WellFormed := by
    simp only [largeMap, List.forall_mem_cons]
    exact ⟨⟨by decide, by decide⟩, ⟨by decide, by decide⟩, nofun⟩
  refine ⟨hwf, ?_⟩
  rintro ⟨s, h, hinventory⟩
  have hfits := fits_of_inventory hwf h hinventory _ (List.mem_cons_of_mem _ (List.mem_singleton_self _))
  exact absurd (hfits rfl) (by decide)

end BootMemory

end Helos
