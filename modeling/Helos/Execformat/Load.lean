import Helos.Execformat.Reloc
import Helos.Memory.KernelMapping

/-!
# Loading the headers

`execformat_pe_LoadMemory` of `execformat/pe/struct.c`, on an image in memory. A read that is not of the
image has no result, and neither has a position that is too large for an `int`.
-/

namespace Helos

/-- `execformat_pe_PortableExecutable` -/
structure LoadedExecutable extends PortableExecutable where
  pemagic : Nat
  header : Nat
  size : Nat
  numDataDir : Int
deriving DecidableEq

namespace Reloc

structure MemoryImage where
  memory : Nat → UInt8
  image : Nat
  size : UInt32

/-- `EXECFORMAT_PE_HEADER_MAGIC` -/
def headerMagic : List UInt8 := [0x50, 0x45, 0, 0]

/-- `EXECFORMAT_PE_OPTIONAL_HEADER_MAGIC_PE32P` -/
def optionalHeaderMagicPE32P : Nat := 0x20b

/-- `sizeof(execformat_pe_Header)` -/
def sizeofHeader : Nat := 20

/-- The standard and the Windows fields of an optional header, which end in `numRVAandSizes`. -/
def sizeofFields (isPE32P : Bool) : Nat := if isPE32P then 24 + 88 else 28 + 68

/-- `sizeof(execformat_pe_OptionalHeader_DataDirectory)` -/
def sizeofDataDirectory : Nat := 8

inductive LoadResult where
  | returned (pe : LoadedExecutable)
  | assertionFailed
deriving DecidableEq

namespace MemoryImage

def read (file : MemoryImage) (offset width : Nat) : Option Nat :=
  if offset + width ≤ file.size.toNat then some (load file.memory (file.image + offset) width)
  else none

/-- `memcmp`, of the image at an offset and other bytes. -/
def memcmp (file : MemoryImage) (offset : Nat) : List UInt8 → Option Int
  | [] => some 0
  | b :: rest =>
    if offset < file.size.toNat then
      let a := file.memory (file.image + offset)
      if a ≠ b then some (a.toNat - b.toNat : Int) else file.memcmp (offset + 1) rest
    else none

/-- The loop of the search for the magic, from position `i` with `n` positions left. -/
def findMagic (file : MemoryImage) : Nat → Nat → Option (Option Nat)
  | 0, _ => some none
  | n + 1, i => do
    let difference ← file.memcmp i headerMagic
    if difference = 0 then some (some i)
    else if i + 1 < 2 ^ 31 then file.findMagic n (i + 1)
    else none

/-- The image begins with `MZ`. -/
def hasStub (file : MemoryImage) : Option Bool :=
  if file.size.toNat < 2 then some false
  else do
    let m ← file.read 0 1
    if m ≠ 0x4d then some false
    else
      let z ← file.read 1 1
      some (z = 0x5a)

/-- The rest of the function, with the magic at offset `i`. -/
def loadHeaders (file : MemoryImage) (i : Nat) : Option LoadResult := do
  let header := i + 4
  let numSections ← file.read (header + 2) 2
  let optional := header + sizeofHeader
  let magic ← file.read optional 2
  let isPE32P := decide (magic = optionalHeaderMagicPE32P)
  let numRVAandSizes ← file.read (optional + (sizeofFields isPE32P - 4)) 4
  let numDataDir := toInt numRVAandSizes
  -- The product is of type `size_t`, and the sum a difference of pointers.
  let sections := sizeofFields isPE32P + sizeofDataDirectory * numDataDir
  let sizeofOptionalHeader ← file.read (header + 16) 2
  if sections = sizeofOptionalHeader then
    some (.returned
      { begin := file.image
        pemagic := file.image + i
        header := file.image + header
        optional := file.image + optional
        sections := file.image + optional + sections.toNat
        size := file.size.toNat
        numDataDir := numDataDir
        numSections := numSections
        isPE32P := isPE32P })
  else some .assertionFailed

/-- `execformat_pe_LoadMemory` -/
def loadMemory (pe : LoadedExecutable) (file : MemoryImage) : Option LoadResult := do
  let pe := { pe with begin := 0, pemagic := 0 }
  if ← file.hasStub then
    match ← file.findMagic (file.size.toNat - 8) 8 with
    | none => some (.returned pe) -- not found
    | some i => file.loadHeaders i
  else some (.returned pe)

end MemoryImage

/-! ### Staying inside -/

structure HeadersInside (pe : LoadedExecutable) (file : MemoryImage) : Prop where
  optional_le : file.image ≤ pe.optional
  fields : pe.optional + sizeofFields pe.isPE32P ≤ file.image + file.size.toNat
  optional : pe.optional + load file.memory (pe.header + 16) 2 ≤ file.image + file.size.toNat
  sections_le : file.image ≤ pe.sections
  sections : pe.sections + sizeofSectionHeader * pe.numSections ≤ file.image + file.size.toNat

/-- All reads were of the image, and what is loaded from it is inside. -/
def EndsInside (file : MemoryImage) (result : Option LoadResult) : Prop :=
  ∃ r, result = some r ∧ ∀ pe, r = .returned pe → pe.begin ≠ 0 → HeadersInside pe file

namespace MemoryImage

def field (file : MemoryImage) (offset width : Nat) : Nat :=
  load file.memory (file.image + offset) width

def IsMZ (file : MemoryImage) : Prop :=
  2 ≤ file.size.toNat ∧ file.field 0 1 = 0x4d ∧ file.field 1 1 = 0x5a

def HasMagic (file : MemoryImage) (i : Nat) : Prop :=
  i + headerMagic.length ≤ file.size.toNat ∧
    Cells.read file.memory (file.image + i) headerMagic.length = headerMagic

/-- The image ends with a part of the magic. -/
def CutMagic (file : MemoryImage) (i : Nat) : Prop :=
  file.size.toNat < i + headerMagic.length ∧
    Cells.read file.memory (file.image + i) (file.size.toNat - i) <+: headerMagic

structure FirstMagic (file : MemoryImage) (start i : Nat) : Prop where
  start_le : start ≤ i
  hasMagic : file.HasMagic i
  first : ∀ j, start ≤ j → j < i → ¬ file.HasMagic j

def isPE32P (file : MemoryImage) (i : Nat) : Bool :=
  file.field (i + 4 + sizeofHeader) 2 = optionalHeaderMagicPE32P

/-- The size of the optional header, by its own count of directories. -/
def optionalSize (file : MemoryImage) (i : Nat) : Int :=
  sizeofFields (file.isPE32P i) + sizeofDataDirectory *
    toInt (file.field (i + 4 + sizeofHeader + (sizeofFields (file.isPE32P i) - 4)) 4)

def sizeofOptionalHeader (file : MemoryImage) (i : Nat) : Nat := file.field (i + 4 + 16) 2

/-- The headers after the magic at an offset have room in the image. -/
structure HeadersFit (file : MemoryImage) (i : Nat) : Prop where
  fields : i + 4 + sizeofHeader + sizeofFields (file.isPE32P i) ≤ file.size.toNat
  sections : file.optionalSize i = file.sizeofOptionalHeader i →
    i + 4 + sizeofHeader + file.sizeofOptionalHeader i +
      sizeofSectionHeader * file.field (i + 4 + 2) 2 ≤ file.size.toNat

/-- A search that ends in time, and finds headers that have room or nothing at all. -/
structure SearchFits (file : MemoryImage) : Prop where
  found : ∀ i, file.FirstMagic 8 i → i < 2 ^ 31 ∧ file.HeadersFit i
  none_found : (∀ i, 8 ≤ i → ¬ file.HasMagic i) →
    file.size.toNat < 2 ^ 31 ∧ ∀ i, 8 ≤ i → i < file.size.toNat → ¬ file.CutMagic i

instance (file : MemoryImage) : Decidable file.IsMZ := inferInstanceAs (Decidable (_ ∧ _))

/-! ### The headers -/

variable {file : MemoryImage} {i : Nat}

theorem read_of_le {offset width : Nat} (h : offset + width ≤ file.size.toNat) :
    file.read offset width = some (file.field offset width) := if_pos h

theorem read_of_lt {offset width : Nat} (h : file.size.toNat < offset + width) :
    file.read offset width = none := if_neg (Nat.not_le.mpr h)

theorem sizeofFields_bounds (isPE32P : Bool) :
    96 ≤ sizeofFields isPE32P ∧ sizeofFields isPE32P ≤ 112 := by
  cases isPE32P <;> decide

theorem loadHeaders_eq (h : i + 4 + sizeofHeader + sizeofFields (file.isPE32P i) ≤ file.size.toNat) :
    file.loadHeaders i =
      if file.optionalSize i = file.sizeofOptionalHeader i then
        some (.returned
          { begin := file.image
            pemagic := file.image + i
            header := file.image + (i + 4)
            optional := file.image + (i + 4 + sizeofHeader)
            sections := file.image + (i + 4 + sizeofHeader) + (file.optionalSize i).toNat
            size := file.size.toNat
            numDataDir :=
              toInt (file.field (i + 4 + sizeofHeader + (sizeofFields (file.isPE32P i) - 4)) 4)
            numSections := file.field (i + 4 + 2) 2
            isPE32P := file.isPE32P i })
      else some .assertionFailed := by
  have hbounds := sizeofFields_bounds (file.isPE32P i)
  have hheader : sizeofHeader = 20 := rfl
  have hnumSections : file.read (i + 4 + 2) 2 = some (file.field (i + 4 + 2) 2) :=
    read_of_le (by omega)
  have hmagic : file.read (i + 4 + sizeofHeader) 2 = some (file.field (i + 4 + sizeofHeader) 2) :=
    read_of_le (by omega)
  have hnumRVAandSizes :
      file.read (i + 4 + sizeofHeader + (sizeofFields (file.isPE32P i) - 4)) 4 =
        some (file.field (i + 4 + sizeofHeader + (sizeofFields (file.isPE32P i) - 4)) 4) :=
    read_of_le (by omega)
  have hsizeofOptionalHeader : file.read (i + 4 + 16) 2 = some (file.sizeofOptionalHeader i) :=
    read_of_le (by omega)
  have hisPE32P : decide (file.field (i + 4 + sizeofHeader) 2 = optionalHeaderMagicPE32P) =
      file.isPE32P i := rfl
  simp only [loadHeaders, hnumSections, hmagic, hisPE32P, hnumRVAandSizes, hsizeofOptionalHeader,
    Option.bind_eq_bind, Option.bind_some]
  rfl

theorem loadHeaders_eq_none
    (h : file.size.toNat < i + 4 + sizeofHeader + sizeofFields (file.isPE32P i)) :
    file.loadHeaders i = none := by
  have hbounds := sizeofFields_bounds (file.isPE32P i)
  have hnumRVAandSizes :
      file.read (i + 4 + sizeofHeader + (sizeofFields (file.isPE32P i) - 4)) 4 = none :=
    read_of_lt (by omega)
  unfold loadHeaders
  apply Option.bind_eq_none_iff.mpr
  intro numSections _
  apply Option.bind_eq_none_iff.mpr
  intro magic hmagic
  have hfield : magic = file.field (i + 4 + sizeofHeader) 2 := by
    unfold read at hmagic
    split at hmagic
    · exact (Option.some.inj hmagic).symm
    · cases hmagic
  rw [hfield]
  exact Option.bind_eq_none_iff.mpr fun n hn => absurd (hnumRVAandSizes.symm.trans hn) nofun

theorem loadHeaders_inside_iff (himage : file.image ≠ 0) :
    EndsInside file (file.loadHeaders i) ↔ file.HeadersFit i := by
  by_cases hfields : i + 4 + sizeofHeader + sizeofFields (file.isPE32P i) ≤ file.size.toNat
  · rw [loadHeaders_eq hfields]
    by_cases hsize : file.optionalSize i = file.sizeofOptionalHeader i
    · rw [if_pos hsize, hsize, Int.toNat_natCast]
      constructor
      · rintro ⟨result, hresult, hinside⟩
        obtain rfl := Option.some.inj hresult
        have hsections := (hinside _ rfl himage).sections
        refine ⟨hfields, ?_⟩
        intro _
        dsimp only at hsections
        omega
      · intro h
        have hsections := h.sections hsize
        refine ⟨_, rfl, ?_⟩
        intro pe hpe _
        obtain rfl := LoadResult.returned.inj hpe
        refine ⟨?_, ?_, ?_, ?_, ?_⟩
        · exact Nat.le_add_right _ _
        · dsimp only
          omega
        · have hload : load file.memory (file.image + (i + 4) + 16) 2 =
              file.sizeofOptionalHeader i := by
            rw [Nat.add_assoc]
            rfl
          dsimp only
          rw [hload]
          omega
        · dsimp only
          omega
        · dsimp only
          omega
    · rw [if_neg hsize]
      exact iff_of_true ⟨_, rfl, fun _ h => absurd h nofun⟩ ⟨hfields, fun h => absurd h hsize⟩
  · rw [loadHeaders_eq_none (Nat.not_le.mp hfields)]
    exact iff_of_false (fun ⟨_, h, _⟩ => absurd h nofun) fun h => hfields h.fields

/-! ### The search -/

theorem memcmp_cons (hi : i < file.size.toNat) (b : UInt8) (rest : List UInt8) :
    file.memcmp i (b :: rest) =
      if file.memory (file.image + i) ≠ b then
        some ((file.memory (file.image + i)).toNat - b.toNat : Int)
      else file.memcmp (i + 1) rest := if_pos hi

/-- Comparing reads outside of the image when it ends with a part of what it is compared with. -/
theorem memcmp_eq_none_iff {bytes : List UInt8} (hi : i ≤ file.size.toNat) :
    file.memcmp i bytes = none ↔ file.size.toNat < i + bytes.length ∧
      Cells.read file.memory (file.image + i) (file.size.toNat - i) <+: bytes := by
  induction bytes generalizing i with
  | nil => exact iff_of_false (Option.some_ne_none 0) fun h => Nat.not_lt.mpr hi h.1
  | cons b rest ih =>
    rcases Nat.eq_or_lt_of_le hi with rfl | hlt
    · rw [memcmp, if_neg (Nat.lt_irrefl _), Nat.sub_self, Cells.read_zero]
      exact iff_of_true rfl ⟨Nat.lt_add_of_pos_right (Nat.succ_pos _), List.nil_prefix⟩
    · rw [memcmp_cons hlt, show file.size.toNat - i = file.size.toNat - (i + 1) + 1 by omega,
        Cells.read_succ, List.cons_prefix_cons, List.length_cons]
      by_cases hbyte : file.memory (file.image + i) = b
      · rw [if_neg (not_not.mpr hbyte), ih hlt, Nat.add_assoc file.image,
          show i + 1 + rest.length = i + (rest.length + 1) by omega]
        exact and_congr_right fun _ => (and_iff_right hbyte).symm
      · rw [if_pos hbyte]
        exact iff_of_false (Option.some_ne_none _) fun h => hbyte h.2.1

theorem memcmp_eq_zero_iff {bytes : List UInt8} (hi : i ≤ file.size.toNat) :
    file.memcmp i bytes = some 0 ↔ i + bytes.length ≤ file.size.toNat ∧
      Cells.read file.memory (file.image + i) bytes.length = bytes := by
  induction bytes generalizing i with
  | nil => exact iff_of_true rfl ⟨hi, rfl⟩
  | cons b rest ih =>
    rcases Nat.eq_or_lt_of_le hi with rfl | hlt
    · rw [memcmp, if_neg (Nat.lt_irrefl _), List.length_cons]
      exact iff_of_false nofun fun h => absurd h.1 (by omega)
    · rw [memcmp_cons hlt, List.length_cons, Cells.read_succ, List.cons.injEq]
      by_cases hbyte : file.memory (file.image + i) = b
      · rw [if_neg (not_not.mpr hbyte), ih hlt, Nat.add_assoc file.image,
          show i + 1 + rest.length = i + (rest.length + 1) by omega]
        exact and_congr_right fun _ => (and_iff_right hbyte).symm
      · rw [if_pos hbyte, Option.some_inj, sub_eq_zero, Int.natCast_inj, UInt8.toNat_inj]
        exact iff_of_false hbyte fun h => hbyte h.2.1

theorem findMagic_succ (n : Nat) (hi : i < file.size.toNat) (hmagic : ¬ file.HasMagic i)
    (hcut : ¬ file.CutMagic i) :
    file.findMagic (n + 1) i = if i + 1 < 2 ^ 31 then file.findMagic n (i + 1) else none := by
  have hdefined : file.memcmp i headerMagic ≠ none := (memcmp_eq_none_iff hi.le).not.mpr hcut
  obtain ⟨difference, hdifference⟩ := Option.ne_none_iff_exists'.mp hdefined
  have hne : difference ≠ 0 := by
    rintro rfl
    exact hmagic ((memcmp_eq_zero_iff hi.le).mp hdifference)
  rw [findMagic, hdifference]
  exact if_neg hne

theorem findMagic_skip {k : Nat} (hik : i ≤ k) (hk : k ≤ file.size.toNat) (hlt : k < 2 ^ 31)
    (hmagic : ∀ j, i ≤ j → j < k → ¬ file.HasMagic j ∧ ¬ file.CutMagic j) :
    file.findMagic (file.size.toNat - i) i = file.findMagic (file.size.toNat - k) k := by
  induction k, hik using Nat.le_induction with
  | base => rfl
  | succ k hik ih =>
    rw [ih (by omega) (by omega) fun j hij hjk => hmagic j hij (by omega)]
    obtain ⟨hnot, hnotcut⟩ := hmagic k hik (Nat.lt_succ_self k)
    rw [show file.size.toNat - k = file.size.toNat - (k + 1) + 1 by omega,
      findMagic_succ _ hk hnot hnotcut, if_pos hlt]

/-- The search cannot get to positions that are too large. -/
theorem findMagic_overflow {k : Nat} (hi : i < 2 ^ 31) (hk : k ≤ file.size.toNat) (hlarge : 2 ^ 31 ≤ k)
    (hmagic : ∀ j, i ≤ j → j < k → ¬ file.HasMagic j ∧ ¬ file.CutMagic j) :
    file.findMagic (file.size.toNat - i) i = none := by
  have hlast := findMagic_skip (show i ≤ 2 ^ 31 - 1 by omega) (by omega) (by omega)
    fun j hij hj => hmagic j hij (by omega)
  obtain ⟨hnot, hnotcut⟩ := hmagic (2 ^ 31 - 1) (by omega) (by omega)
  rw [hlast, show file.size.toNat - (2 ^ 31 - 1) = file.size.toNat - 2 ^ 31 + 1 by omega,
    findMagic_succ _ (by omega) hnot hnotcut]
  exact if_neg (by omega)

theorem FirstMagic.not_cut {j k : Nat} (h : file.FirstMagic i k) (hj : j < k) :
    ¬ file.CutMagic j := by
  intro hcut
  have hend := h.hasMagic.1
  have hshort := hcut.1
  omega

theorem findMagic_found {k : Nat} (h : file.FirstMagic i k) (hk : k < 2 ^ 31) :
    file.findMagic (file.size.toNat - i) i = some (some k) := by
  have hlength : headerMagic.length = 4 := rfl
  have hend := h.hasMagic.1
  rw [findMagic_skip h.start_le (by omega) hk fun j hij hj => ⟨h.first j hij hj, h.not_cut hj⟩,
    show file.size.toNat - k = file.size.toNat - (k + 1) + 1 by omega, findMagic,
    (memcmp_eq_zero_iff (by omega)).mpr h.hasMagic]
  rfl

theorem findMagic_cut {k : Nat} (hi : i < 2 ^ 31) (hmagic : ∀ j, i ≤ j → ¬ file.HasMagic j)
    (hik : i ≤ k) (hk : k < file.size.toNat) (hcut : file.CutMagic k)
    (hfirst : ∀ j, i ≤ j → j < k → ¬ file.CutMagic j) :
    file.findMagic (file.size.toNat - i) i = none := by
  rcases Nat.lt_or_ge k (2 ^ 31) with hlt | hlarge
  · rw [findMagic_skip hik hk.le hlt fun j hij hj => ⟨hmagic j hij, hfirst j hij hj⟩,
      show file.size.toNat - k = file.size.toNat - (k + 1) + 1 by omega, findMagic,
      (memcmp_eq_none_iff hk.le).mpr hcut]
    rfl
  · exact findMagic_overflow hi hk.le hlarge fun j hij hj => ⟨hmagic j hij, hfirst j hij hj⟩

theorem findMagic_ends (hmagic : ∀ j, i ≤ j → ¬ file.HasMagic j) (hsize : file.size.toNat < 2 ^ 31)
    (hcut : ∀ j, i ≤ j → j < file.size.toNat → ¬ file.CutMagic j) :
    file.findMagic (file.size.toNat - i) i = some none := by
  rcases Nat.le_total i file.size.toNat with hle | hge
  · rw [findMagic_skip hle (Nat.le_refl _) hsize fun j hij hj => ⟨hmagic j hij, hcut j hij hj⟩,
      Nat.sub_self, findMagic]
  · rw [Nat.sub_eq_zero_of_le hge, findMagic]

theorem findMagic_lost (hi : i < 2 ^ 31) (hmagic : ∀ j, i ≤ j → ¬ file.HasMagic j)
    (h : ¬ (file.size.toNat < 2 ^ 31 ∧ ∀ j, i ≤ j → j < file.size.toNat → ¬ file.CutMagic j)) :
    file.findMagic (file.size.toNat - i) i = none := by
  classical
  by_cases hcut : ∃ j, i ≤ j ∧ j < file.size.toNat ∧ file.CutMagic j
  · obtain ⟨hik, hk, hfound⟩ := Nat.find_spec hcut
    exact findMagic_cut hi hmagic hik hk hfound fun j hij hj hcutj =>
      Nat.find_min hcut hj ⟨hij, hj.trans hk, hcutj⟩
  · have hnot : ∀ j, i ≤ j → j < file.size.toNat → ¬ file.CutMagic j := fun j hij hj hcutj =>
      hcut ⟨j, hij, hj, hcutj⟩
    have hlarge : 2 ^ 31 ≤ file.size.toNat := Nat.le_of_not_lt fun hlt => h ⟨hlt, hnot⟩
    exact findMagic_overflow hi (Nat.le_refl _) hlarge fun j hij hj => ⟨hmagic j hij, hnot j hij hj⟩

theorem search_inside_iff (pe : LoadedExecutable) (hpe : pe.begin = 0) (himage : file.image ≠ 0) :
    EndsInside file (do
      match ← file.findMagic (file.size.toNat - 8) 8 with
      | none => some (.returned pe)
      | some i => file.loadHeaders i) ↔ file.SearchFits := by
  classical
  by_cases hmagic : ∃ i, 8 ≤ i ∧ file.HasMagic i
  · have hfirst : file.FirstMagic 8 (Nat.find hmagic) :=
      ⟨(Nat.find_spec hmagic).1, (Nat.find_spec hmagic).2,
        fun j hj hlt hhas => Nat.find_min hmagic hlt ⟨hj, hhas⟩⟩
    have hunique : ∀ i, file.FirstMagic 8 i → i = Nat.find hmagic := by
      intro i hi
      apply Nat.le_antisymm
      · exact Nat.le_of_not_lt fun hlt => hi.first _ hfirst.start_le hlt hfirst.hasMagic
      · exact Nat.find_min' hmagic ⟨hi.start_le, hi.hasMagic⟩
    have hnone : ¬ ∀ i, 8 ≤ i → ¬ file.HasMagic i := fun h =>
      h _ hfirst.start_le hfirst.hasMagic
    have hfits : file.SearchFits ↔
        Nat.find hmagic < 2 ^ 31 ∧ file.HeadersFit (Nat.find hmagic) :=
      ⟨fun h => h.found _ hfirst, fun h => ⟨fun i hi => hunique i hi ▸ h, fun h => absurd h hnone⟩⟩
    rw [hfits]
    rcases Nat.lt_or_ge (Nat.find hmagic) (2 ^ 31) with hlt | hlarge
    · rw [findMagic_found hfirst hlt, and_iff_right hlt]
      exact loadHeaders_inside_iff himage
    · rw [findMagic_overflow (by decide) (Nat.le_of_add_right_le hfirst.hasMagic.1) hlarge fun j hj hlt =>
        ⟨hfirst.first j hj hlt, hfirst.not_cut hlt⟩]
      exact iff_of_false (fun ⟨_, h, _⟩ => absurd h nofun) fun h => Nat.not_lt.mpr hlarge h.1
  · have hnot : ∀ i, 8 ≤ i → ¬ file.HasMagic i := fun i hi hhas => hmagic ⟨i, hi, hhas⟩
    have hfits : file.SearchFits ↔ file.size.toNat < 2 ^ 31 ∧
        ∀ i, 8 ≤ i → i < file.size.toNat → ¬ file.CutMagic i :=
      ⟨fun h => h.none_found hnot,
        fun h => ⟨fun i hi => absurd hi.hasMagic (hnot i hi.start_le), fun _ => h⟩⟩
    rw [hfits]
    by_cases hends : file.size.toNat < 2 ^ 31 ∧
        ∀ i, 8 ≤ i → i < file.size.toNat → ¬ file.CutMagic i
    · rw [findMagic_ends hnot hends.1 hends.2]
      refine iff_of_true ⟨.returned pe, rfl, ?_⟩ hends
      intro loaded hloaded hbegin
      obtain rfl := LoadResult.returned.inj hloaded
      exact absurd hpe hbegin
    · rw [findMagic_lost (by decide) hnot hends]
      exact iff_of_false (fun ⟨_, h, _⟩ => absurd h nofun) hends

/-! ### The whole function -/

theorem hasStub_eq (file : MemoryImage) : file.hasStub = some (decide file.IsMZ) := by
  unfold hasStub
  split
  case isTrue hshort =>
    rw [decide_eq_false fun h => Nat.not_lt.mpr h.1 hshort]
  case isFalse hlong =>
    have hm : file.read 0 1 = some (file.field 0 1) := read_of_le (by omega)
    have hz : file.read 1 1 = some (file.field 1 1) := read_of_le (by omega)
    simp only [hm, hz, Option.bind_eq_bind, Option.bind_some]
    split
    case isTrue hne => rw [decide_eq_false fun h => hne h.2.1]
    case isFalse heq =>
      refine congrArg some (decide_eq_decide.mpr ?_)
      exact ⟨fun h => ⟨Nat.le_of_not_lt hlong, not_not.mp heq, h⟩, fun h => h.2.2⟩

end MemoryImage

open MemoryImage

/-- When the headers of an image are loaded by reads of the image alone, and are inside of it. -/
theorem loadMemory_inside_iff (pe : LoadedExecutable) (file : MemoryImage) (himage : file.image ≠ 0) :
    EndsInside file (file.loadMemory pe) ↔ (file.IsMZ → file.SearchFits) := by
  unfold loadMemory
  rw [hasStub_eq]
  by_cases hstub : file.IsMZ
  · rw [decide_eq_true hstub]
    simp only [forall_prop_of_true hstub]
    exact search_inside_iff { pe with begin := 0, pemagic := 0 } rfl himage
  · rw [decide_eq_false hstub]
    refine iff_of_true ⟨_, rfl, ?_⟩ fun h => absurd h hstub
    intro loaded hloaded hbegin
    obtain rfl := LoadResult.returned.inj hloaded
    exact absurd rfl hbegin

def imageOf (bytes : List UInt8) : MemoryImage where
  memory i := bytes.getD (i - 0x1000) 0
  image := 0x1000
  size := UInt32.ofNat bytes.length

def emptyExecutable : LoadedExecutable :=
  { begin := 0
    optional := 0
    sections := 0
    numSections := 0
    isPE32P := false
    pemagic := 0
    header := 0
    size := 0
    numDataDir := 0 }

/-- A stub that ends with the first letter of the magic. -/
theorem cut_magic_read_beyond :
    ¬ EndsInside (imageOf [0x4d, 0x5a, 0, 0, 0, 0, 0, 0, 0x50])
      ((imageOf [0x4d, 0x5a, 0, 0, 0, 0, 0, 0, 0x50]).loadMemory emptyExecutable) := by
  rintro ⟨result, hresult, -⟩
  have hnone : ((imageOf [0x4d, 0x5a, 0, 0, 0, 0, 0, 0, 0x50]).loadMemory emptyExecutable).isNone := by
    decide
  rw [hresult] at hnone
  cases hnone

/-- The headers of a PE32+ image with one section and no directories. -/
def plainImage : List UInt8 :=
  [0x4d, 0x5a, 0, 0, 0, 0, 0, 0] ++ headerMagic ++
    [0x64, 0x86, 1, 0] ++ List.replicate 12 0 ++ [112, 0, 0, 0] ++
    [0x0b, 0x02] ++ List.replicate 110 0 ++ List.replicate 40 0

theorem plain_image_loaded_inside :
    EndsInside (imageOf plainImage) ((imageOf plainImage).loadMemory emptyExecutable) := by
  have hmagic : (imageOf plainImage).HasMagic 8 := ⟨by decide +kernel, by decide +kernel⟩
  apply (loadMemory_inside_iff emptyExecutable _ (by decide)).mpr
  intro _
  constructor
  · intro i hi
    have hfirst : i = 8 :=
      Nat.le_antisymm (Nat.le_of_not_lt fun hlt => hi.first 8 (Nat.le_refl 8) hlt hmagic) hi.start_le
    rw [hfirst]
    exact ⟨by decide, ⟨by decide +kernel, fun _ => by decide +kernel⟩⟩
  · intro h
    exact absurd hmagic (h 8 (Nat.le_refl 8))

end Reloc

end Helos
