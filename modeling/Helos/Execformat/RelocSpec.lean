import Helos.Execformat.Load
import Mathlib.Order.Interval.Set.Disjoint

/-!
# Relocation composes

A relocation adds to the fields its table names: each kind of entry has a width, and an amount that it
takes from the difference of the bases. When no field is in the table, a second relocation finds the
same table, and what the two add is what one from the first base to the last adds.
-/

namespace Helos.Reloc

open Fields

/-! ### What a table names -/

inductive Kind where
  | high
  | low
  | highlow
  | dir64
deriving DecidableEq

def Kind.width : Kind → Nat
  | high => 2
  | low => 2
  | highlow => 4
  | dir64 => 8

/-- What the kind adds for a difference of the bases; the field keeps the low bytes. -/
def Kind.amount (diff : UInt64) : Kind → Nat
  | high => (diff >>> 16).toNat
  | low => diff.toNat
  | highlow => diff.toNat
  | dir64 => diff.toNat

def kindOf (type : Nat) : Option Kind :=
  if type = typeHigh then some .high
  else if type = typeLow then some .low
  else if type = typeHighlow then some .highlow
  else if type = typeDir64 then some .dir64
  else none

structure Target where
  kind : Kind
  address : Nat
deriving DecidableEq

def Target.field (t : Target) : Field := ⟨t.address, t.kind.width⟩

def Target.amount (diff : UInt64) (t : Target) : Nat := t.kind.amount diff

structure TableBlock where
  pageOffset : Nat
  entries : List Nat

def TableBlock.size (b : TableBlock) : Nat := 8 + 2 * b.entries.length

/-- The targets of a list of entries. `HIGHADJ` has no target, and takes the next word with it. -/
def entryTargets (page : Nat) : List Nat → List Target
  | [] => []
  | e :: rest =>
    if typeOf e = typeHighadj then
      match rest with
      | [] => []
      | _ :: rest => entryTargets page rest
    else
      ((kindOf (typeOf e)).map fun kind => Target.mk kind (page + offsetOf e)).toList ++
        entryTargets page rest

theorem entryTargets_cons (page : Nat) {e : Nat} (he : typeOf e ≠ typeHighadj) (rest : List Nat) :
    entryTargets page (e :: rest) =
      ((kindOf (typeOf e)).map fun kind => Target.mk kind (page + offsetOf e)).toList ++
        entryTargets page rest := by
  rw [entryTargets.eq_def]
  exact if_neg he

def targets (begin : Nat) (blocks : List TableBlock) : List Target :=
  blocks.flatMap fun b => entryTargets (begin + b.pageOffset) b.entries

/-- The block at an address. -/
structure BlockAt (m : Nat → UInt8) (block : Nat) (b : TableBlock) : Prop where
  pageOffset : pageOffset m block = b.pageOffset
  blockSize : blockSize m block = b.size
  entry : ∀ i (hi : i < b.entries.length), entry m block i = b.entries[i]

/-- The blocks tile the table. -/
def TableAt (m : Nat → UInt8) : Nat → List TableBlock → Nat → Prop
  | reloc, [], relocEnd => reloc = relocEnd
  | reloc, b :: blocks, relocEnd => BlockAt m reloc b ∧ TableAt m (reloc + b.size) blocks relocEnd

/-! ### Memory that agrees on the table -/

variable {m m' : Nat → UInt8} {pe : PortableExecutable} {begin block reloc relocEnd : Nat}
  {b : TableBlock} {blocks : List TableBlock} {diff : UInt64}

theorem load_congr {address width : Nat}
    (h : ∀ i ∈ Set.Ico address (address + width), m' i = m i) :
    load m' address width = load m address width :=
  congrArg _ (Cells.read_congr fun _ hi => h _ ⟨Nat.le_add_right _ _, Nat.add_lt_add_left hi _⟩)

/-- The part of a block that a load is from. -/
theorem load_block_congr (offset : Nat) {width : Nat}
    (h : ∀ i ∈ Set.Ico block (block + b.size), m' i = m i) (hle : offset + width ≤ b.size) :
    load m' (block + offset) width = load m (block + offset) width := by
  refine load_congr fun i hi => h i ?_
  have hlow := hi.1
  have hhigh := hi.2
  exact ⟨by omega, by omega⟩

theorem BlockAt.congr (h : BlockAt m block b)
    (hm : ∀ i ∈ Set.Ico block (block + b.size), m' i = m i) : BlockAt m' block b := by
  have hsize : b.size = 8 + 2 * b.entries.length := rfl
  refine ⟨?_, ?_, fun i hi => ?_⟩
  · rw [← h.pageOffset]
    exact load_block_congr 0 hm (by omega)
  · rw [← h.blockSize]
    exact load_block_congr _ hm (by omega)
  · rw [← h.entry i hi, Reloc.entry, Reloc.entry, Nat.add_assoc]
    exact load_block_congr _ hm (by omega)

theorem TableAt.le (h : TableAt m reloc blocks relocEnd) : reloc ≤ relocEnd := by
  induction blocks generalizing reloc with
  | nil => exact Nat.le_of_eq h
  | cons b blocks ih => exact Nat.le_of_add_right_le (ih h.2)

theorem TableAt.congr (h : TableAt m reloc blocks relocEnd)
    (hm : ∀ i ∈ Set.Ico reloc relocEnd, m' i = m i) : TableAt m' reloc blocks relocEnd := by
  induction blocks generalizing reloc with
  | nil => exact h
  | cons b blocks ih =>
    refine ⟨h.1.congr fun i hi => hm i ⟨hi.1, Nat.lt_of_lt_of_le hi.2 h.2.le⟩,
      ih h.2 fun i hi => hm i ⟨Nat.le_of_add_right_le hi.1, hi.2⟩⟩

/-! ### The loops -/

theorem relocateTarget_eq (m : Nat → UInt8) (target type : Nat) (diff : UInt64) :
    relocateTarget m target type diff =
      addAll Target.field (Target.amount diff) m
        ((kindOf type).map fun kind => Target.mk kind target).toList := by
  unfold relocateTarget kindOf
  split
  · rfl
  · split
    · rfl
    · split
      · rfl
      · split
        · rfl
        · rfl

/-- Memory still has the block after an addition to fields that are not in it. -/
theorem BlockAt.addAll (h : BlockAt m block b) {ts : List Target}
    (hoff : ∀ t ∈ ts, Disjoint t.field.cells (Set.Ico block (block + b.size))) :
    BlockAt (addAll Target.field (Target.amount diff) m ts) block b :=
  h.congr fun _ hi => addAll_outside fun t ht => Set.disjoint_right.mp (hoff t ht) hi

theorem BlockAt.entry_drop (h : BlockAt m block b) {e i : Nat} {rest : List Nat}
    (hes : b.entries.drop i = e :: rest) :
    Reloc.entry m block i = e ∧ b.entries.drop (i + 1) = rest := by
  have hi : i < b.entries.length := by
    apply Nat.lt_of_not_le
    intro hle
    rw [List.drop_eq_nil_of_le hle] at hes
    cases hes
  rw [List.drop_eq_getElem_cons hi, List.cons.injEq] at hes
  exact ⟨(h.entry i hi).trans hes.1, hes.2⟩

theorem relocateEntries_succ {n i : Nat} (h : typeOf (entry m block i) ≠ typeHighadj) :
    relocateEntries begin block diff (n + 1) i m =
      relocateEntries begin block diff n (i + 1)
        (relocateTarget m (begin + pageOffset m block + offsetOf (entry m block i))
          (typeOf (entry m block i)) diff) := by
  rw [relocateEntries.eq_def]
  exact if_neg h

/-- The loop over the entries adds to their targets, one after the other. -/
theorem relocateEntries_eq (es : List Nat) (i : Nat) (h : BlockAt m block b)
    (hes : b.entries.drop i = es)
    (hoff : ∀ t ∈ entryTargets (begin + b.pageOffset) es,
      Disjoint t.field.cells (Set.Ico block (block + b.size))) :
    relocateEntries begin block diff es.length i m =
      Fields.addAll Target.field (Target.amount diff) m
        (entryTargets (begin + b.pageOffset) es) := by
  induction es using entryTargets.induct generalizing i m with
  | case1 => rfl
  | case2 e he =>
    have hentry := (h.entry_drop hes).1
    simp [relocateEntries, entryTargets, hentry, he]
  | case3 e he x rest ih =>
    obtain ⟨hentry, hdrop⟩ := h.entry_drop hes
    have hrest := (h.entry_drop hdrop).2
    have htargets : entryTargets (begin + b.pageOffset) (e :: x :: rest) =
        entryTargets (begin + b.pageOffset) rest := by simp [entryTargets, he]
    rw [htargets] at hoff ⊢
    calc
      relocateEntries begin block diff (e :: x :: rest).length i m =
          relocateEntries begin block diff rest.length (i + 2) m := by
        simp [relocateEntries, hentry, he]
      _ = _ := ih (i + 2) h hrest hoff
  | case4 e rest he ih =>
    obtain ⟨hentry, hrest⟩ := h.entry_drop hes
    have htargets := entryTargets_cons (begin + b.pageOffset) he rest
    rw [htargets] at hoff ⊢
    rw [List.forall_mem_append] at hoff
    rw [addAll_append]
    calc
      relocateEntries begin block diff (e :: rest).length i m =
          relocateEntries begin block diff rest.length (i + 1)
            (relocateTarget m (begin + b.pageOffset + offsetOf e) (typeOf e) diff) := by
        rw [List.length_cons, relocateEntries_succ (hentry ▸ he), hentry, h.pageOffset]
      _ = _ := by
        rw [relocateTarget_eq]
        exact ih (i + 1) (h.addAll hoff.1) hrest hoff.2

theorem BlockAt.body (h : BlockAt m block b) : bodySize m block = 2 * b.entries.length := by
  have hsize : Reloc.blockSize m block = 8 + 2 * b.entries.length := h.blockSize
  have hbound : Reloc.blockSize m block < 256 ^ 4 := by
    apply Nat.lt_of_lt_of_eq (LittleEndian.decode_lt _)
    rw [Cells.length_read]
  rw [bodySize]
  omega

/-- The loop over the blocks adds to the targets of all of them. -/
theorem relocateBlocks_eq {fuel : Nat} (hfuel : blocks.length < fuel)
    (h : TableAt m reloc blocks relocEnd)
    (hoff : ∀ t ∈ targets begin blocks, Disjoint t.field.cells (Set.Ico reloc relocEnd)) :
    relocateBlocks begin relocEnd diff fuel reloc m =
      some (Fields.addAll Target.field (Target.amount diff) m (targets begin blocks)) := by
  induction blocks generalizing fuel reloc m with
  | nil =>
    obtain ⟨fuel, rfl⟩ := Nat.exists_eq_add_one_of_ne_zero (Nat.ne_zero_of_lt hfuel)
    rw [relocateBlocks, if_neg (Nat.not_lt.mpr (Nat.le_of_eq h.symm))]
    rfl
  | cons b blocks ih =>
    obtain ⟨fuel, rfl⟩ := Nat.exists_eq_add_one_of_ne_zero (Nat.ne_zero_of_lt hfuel)
    obtain ⟨hblock, hrest⟩ := h
    have hsize : b.size = 8 + 2 * b.entries.length := rfl
    have hlt : reloc < relocEnd := by
      have hle := hrest.le
      omega
    have htargets : targets begin (b :: blocks) =
        entryTargets (begin + b.pageOffset) b.entries ++ targets begin blocks := List.flatMap_cons
    rw [htargets, List.forall_mem_append] at hoff
    have hentries : relocateEntries begin reloc diff (bodySize m reloc / 2) 0 m =
        Fields.addAll Target.field (Target.amount diff) m
          (entryTargets (begin + b.pageOffset) b.entries) := by
      rw [hblock.body, Nat.mul_div_cancel_left _ Nat.two_pos]
      exact relocateEntries_eq b.entries 0 hblock rfl fun t ht =>
        (hoff.1 t ht).mono_right (Set.Ico_subset_Ico_right hrest.le)
    have heven : bodySize m reloc % 2 = 0 := by
      rw [hblock.body, Nat.mul_mod_right]
    have hsame : ∀ i ∈ Set.Ico reloc relocEnd,
        Fields.addAll Target.field (Target.amount diff) m
          (entryTargets (begin + b.pageOffset) b.entries) i = m i := fun i hi =>
      addAll_outside fun t ht => Set.disjoint_right.mp (hoff.1 t ht) hi
    have htable := hrest.congr fun i hi => hsame i ⟨Nat.le_of_add_right_le hi.1, hi.2⟩
    have hnext := hblock.congr fun i hi => hsame i ⟨hi.1, Nat.lt_of_lt_of_le hi.2 hrest.le⟩
    rw [relocateBlocks, if_pos hlt, if_pos heven, hentries, htargets, addAll_append]
    simp only [hnext.blockSize]
    exact ih (Nat.lt_of_succ_lt_succ hfuel) htable fun t ht =>
      (hoff.2 t ht).mono_right (Set.Ico_subset_Ico_left (Nat.le_add_right _ _))

/-! ### Finding the table again -/

/-- What the search for the table reads; nothing, when the caller says where the table is. -/
def headers (pe : PortableExecutable) (relocBase relocEnd : Nat) : Set Nat :=
  if relocBase ≠ 0 ∧ relocEnd ≠ 0 then ∅
  else Set.Ico pe.sections (pe.sections + sizeofSectionHeader * pe.numSections)

theorem localStrncmp_congr {s1 : Nat} {s2 : List UInt8} {n : Nat}
    (h : ∀ i ∈ Set.Ico s1 (s1 + n), m' i = m i) :
    localStrncmp m' s1 s2 n = localStrncmp m s1 s2 n := by
  induction n generalizing s1 s2 with
  | zero => rfl
  | succ n ih =>
    have hfirst : m' s1 = m s1 := h s1 ⟨Nat.le_refl _, by omega⟩
    have hrest : localStrncmp m' (s1 + 1) s2.tail n = localStrncmp m (s1 + 1) s2.tail n :=
      ih fun i hi => h i ⟨Nat.le_of_succ_le hi.1, by have := hi.2; omega⟩
    rw [localStrncmp, localStrncmp, hfirst, hrest]

theorem findReloc_congr {header n : Nat}
    (h : ∀ i ∈ Set.Ico header (header + sizeofSectionHeader * n), m' i = m i) :
    findReloc pe m' header n = findReloc pe m header n := by
  induction n generalizing header with
  | zero => rfl
  | succ n ih =>
    rw [Nat.mul_succ, sizeofSectionHeader] at h
    have hname : localStrncmp m' header relocName 6 = localStrncmp m header relocName 6 :=
      localStrncmp_congr fun i hi => h i ⟨hi.1, by have := hi.2; omega⟩
    have haddr : virtualAddr m' header = virtualAddr m header :=
      load_congr fun i hi => h i ⟨by have := hi.1; omega, by have := hi.2; omega⟩
    have hsize : virtualSize m' header = virtualSize m header :=
      load_congr fun i hi => h i ⟨by have := hi.1; omega, by have := hi.2; omega⟩
    have hrest : findReloc pe m' (header + sizeofSectionHeader) n =
        findReloc pe m (header + sizeofSectionHeader) n := by
      refine ih fun i hi => h i ⟨Nat.le_of_add_right_le hi.1, ?_⟩
      have hlt := hi.2
      rw [sizeofSectionHeader] at hlt
      omega
    rw [findReloc, findReloc, hname, haddr, hsize, hrest]

theorem locate_congr {relocBase : Nat} (h : ∀ i ∈ headers pe relocBase relocEnd, m' i = m i) :
    locate pe m' relocBase relocEnd = locate pe m relocBase relocEnd := by
  rw [headers] at h
  rw [locate, locate]
  split_ifs at h ⊢
  · rfl
  · exact findReloc_congr h

/-! ### Relocating twice -/

/-- A table whose fields are apart from each other and from the table. -/
structure WellFormed (pe : PortableExecutable) (m : Nat → UInt8) (relocBase relocEnd reloc : Nat)
    (blocks : List TableBlock) (tableEnd : Nat) : Prop where
  located : locate pe m relocBase relocEnd = some (reloc, tableEnd)
  table : TableAt m reloc blocks tableEnd
  apart : Apart Target.field (targets pe.begin blocks)
  offTable : ∀ t ∈ targets pe.begin blocks, Disjoint t.field.cells (Set.Ico reloc tableEnd)

/-- No field is in a section header that the search for the table reads. -/
def OffHeaders (pe : PortableExecutable) (relocBase relocEnd : Nat) (blocks : List TableBlock) :
    Prop :=
  ∀ t ∈ targets pe.begin blocks, Disjoint t.field.cells (headers pe relocBase relocEnd)

/-- From the first base to the second and on to the third is from the first to the third, from the
first to the second and back is nowhere, and only the fields change. -/
def Composes (fuel : Nat) (pe : PortableExecutable) (relocBase relocEnd : Nat)
    (blocks : List TableBlock) (a b c : UInt64) (m : Nat → UInt8) : Prop :=
  ∃ m₁ m₂, baseRelocate fuel pe relocBase relocEnd a b m = some m₁ ∧
    baseRelocate fuel pe relocBase relocEnd b c m₁ = some m₂ ∧
    baseRelocate fuel pe relocBase relocEnd a c m = some m₂ ∧
    baseRelocate fuel pe relocBase relocEnd b a m₁ = some m ∧
    ∀ i, (∀ t ∈ targets pe.begin blocks, i ∉ t.field.cells) → m₁ i = m i ∧ m₂ i = m i

variable {relocBase tableEnd fuel : Nat} {a b c : UInt64}

theorem baseRelocate_eq (h : WellFormed pe m relocBase relocEnd reloc blocks tableEnd)
    (hbegin : pe.begin ≠ 0) (hfuel : blocks.length < fuel) (ha : a ≠ 0) :
    baseRelocate fuel pe relocBase relocEnd a b m =
      some (addAll Target.field (Target.amount (b - a)) m (targets pe.begin blocks)) := by
  rw [baseRelocate, if_neg hbegin, if_neg ha, h.located]
  exact relocateBlocks_eq hfuel h.table h.offTable

theorem WellFormed.addAll (h : WellFormed pe m relocBase relocEnd reloc blocks tableEnd)
    (hheaders : OffHeaders pe relocBase relocEnd blocks) :
    WellFormed pe (addAll Target.field (Target.amount diff) m (targets pe.begin blocks))
      relocBase relocEnd reloc blocks tableEnd where
  located := by
    rw [← h.located]
    exact locate_congr fun i hi =>
      addAll_outside fun t ht => Set.disjoint_right.mp (hheaders t ht) hi
  table := h.table.congr fun i hi =>
    addAll_outside fun t ht => Set.disjoint_right.mp (h.offTable t ht) hi
  apart := h.apart
  offTable := h.offTable

theorem toNat_sub_add (a b c : UInt64) :
    ((b - a).toNat + (c - b).toNat) % 2 ^ 64 = (c - a).toNat := by
  have ha := a.toNat_lt
  have hb := b.toNat_lt
  have hc := c.toNat_lt
  rw [UInt64.toNat_sub, UInt64.toNat_sub, UInt64.toNat_sub]
  omega

theorem toNat_sub_mod (h : a.toNat % 65536 = b.toNat % 65536) : (b - a).toNat % 65536 = 0 := by
  have ha := a.toNat_lt
  rw [UInt64.toNat_sub]
  omega

/-- The amounts of two relocations add up in the field. The high half needs bases that agree in the
low half, so that nothing is carried into it. -/
theorem amount_add (hab : a.toNat % 65536 = b.toNat % 65536)
    (hbc : b.toNat % 65536 = c.toNat % 65536) (t : Target) :
    (t.amount (b - a) + t.amount (c - b)) % 256 ^ t.field.width =
      t.amount (c - a) % 256 ^ t.field.width := by
  have hsum := toNat_sub_add a b c
  have hfirst := toNat_sub_mod hab
  have hsecond := toNat_sub_mod hbc
  obtain ⟨kind, address⟩ := t
  cases kind with
  | high =>
    have hhalf : ∀ x : UInt64, (x >>> 16).toNat = x.toNat / 65536 := fun x =>
      (UInt64.toNat_shiftRight x 16).trans (Nat.shiftRight_eq_div_pow _ _)
    simp only [Target.amount, Target.field, Kind.amount, Kind.width, hhalf]
    omega
  | low => simp only [Target.amount, Target.field, Kind.amount, Kind.width]; omega
  | highlow => simp only [Target.amount, Target.field, Kind.amount, Kind.width]; omega
  | dir64 => simp only [Target.amount, Target.field, Kind.amount, Kind.width]; omega

theorem amount_self (t : Target) : t.amount (a - a) = 0 := by
  rw [UInt64.sub_self]
  obtain ⟨kind, address⟩ := t
  cases kind <;> rfl

/-- Two relocations of an image are one. -/
theorem addAll_amount (h : Apart Target.field (targets begin blocks))
    (hab : a.toNat % 65536 = b.toNat % 65536) (hbc : b.toNat % 65536 = c.toNat % 65536) :
    addAll Target.field (Target.amount (c - b))
        (addAll Target.field (Target.amount (b - a)) m (targets begin blocks))
        (targets begin blocks) =
      addAll Target.field (Target.amount (c - a)) m (targets begin blocks) := by
  rw [addAll_addAll h]
  exact addAll_congr fun t _ => amount_add hab hbc t

theorem baseRelocate_composes (h : WellFormed pe m relocBase relocEnd reloc blocks tableEnd)
    (hheaders : OffHeaders pe relocBase relocEnd blocks) (hfuel : blocks.length < fuel)
    (ha : a ≠ 0) (hb : b ≠ 0) (hab : a.toNat % 65536 = b.toNat % 65536)
    (hbc : b.toNat % 65536 = c.toNat % 65536) :
    Composes fuel pe relocBase relocEnd blocks a b c m := by
  by_cases hbegin : pe.begin = 0
  · have hsame : ∀ (x y : UInt64) (m : Nat → UInt8),
        baseRelocate fuel pe relocBase relocEnd x y m = some m := fun x y m => if_pos hbegin
    exact ⟨m, m, hsame _ _ _, hsame _ _ _, hsame _ _ _, hsame _ _ _, fun i _ => ⟨rfl, rfl⟩⟩
  · refine ⟨_, _, baseRelocate_eq h hbegin hfuel ha,
      baseRelocate_eq (h.addAll hheaders) hbegin hfuel hb, ?_, ?_, fun i hi => ⟨?_, ?_⟩⟩
    · rw [baseRelocate_eq h hbegin hfuel ha, addAll_amount h.apart hab hbc]
    · rw [baseRelocate_eq (h.addAll hheaders) hbegin hfuel hb, addAll_amount h.apart hab hab.symm,
        funext amount_self, addAll_zero]
    · exact addAll_outside hi
    · rw [addAll_outside hi, addAll_outside hi]

/-- A PE32+ image of the header of `.reloc` and a table of two blocks, with entries of all kinds. The first
one is for a field at an offset of the first page. -/
def smallImage (offset : Nat) : MemoryImage :=
  imageOf ([0x4d, 0x5a, 0, 0, 0, 0, 0, 0] ++ headerMagic ++
    [0x64, 0x86, 1, 0] ++ List.replicate 12 0 ++ [112, 0, 0, 0] ++
    [0x0b, 0x02] ++ List.replicate 110 0 ++
    [0x2e, 0x72, 0x65, 0x6c, 0x6f, 0x63, 0, 0, 32, 0, 0, 0, 0xb8, 0, 0, 0] ++ List.replicate 24 0 ++
    [0, 0, 0, 0, 16, 0, 0, 0, UInt8.ofNat offset, 0x30, 0xd8, 0xa0, 0xe0, 0x10, 0xe2, 0x20,
      0, 0x10, 0, 0, 16, 0, 0, 0, 0, 0x42, 0x34, 0x12, 0x40, 0x30, 0, 0])

def smallExecutable : LoadedExecutable where
  begin := 0x1000
  optional := 0x1020
  sections := 0x1090
  numSections := 1
  isPE32P := true
  pemagic := 0x1008
  header := 0x100c
  size := 216
  numDataDir := 0

def smallTable (offset : Nat) : List TableBlock :=
  [⟨0, [0x3000 + offset, 0xa0d8, 0x10e0, 0x20e2]⟩, ⟨0x1000, [0x4200, 0x1234, 0x3040, 0]⟩]

theorem loadMemory_smallImage {offset : Nat} (h : offset ∈ [0x90, 0xe4]) :
    (smallImage offset).loadMemory emptyExecutable = some (.returned smallExecutable) := by
  revert offset
  decide +kernel

theorem targets_smallTable {offset : Nat} (h : offset ∈ [0x90, 0xe4]) :
    targets smallExecutable.begin (smallTable offset) =
      [⟨.highlow, 0x1000 + offset⟩, ⟨.dir64, 0x10d8⟩, ⟨.high, 0x10e0⟩, ⟨.low, 0x10e2⟩, ⟨.highlow, 0x2040⟩] := by
  revert offset
  decide

theorem smallImage_wellFormed {offset : Nat} (h : offset ∈ [0x90, 0xe4]) :
    WellFormed smallExecutable.toPortableExecutable (smallImage offset).memory 0 0 0x10b8 (smallTable offset)
      0x10d8 := by
  refine ⟨?_, ⟨⟨?_, ?_, ?_⟩, ⟨?_, ?_, ?_⟩, rfl⟩, ?_, ?_⟩
  · revert offset
    decide
  · revert offset
    decide
  · revert offset
    decide
  · revert offset
    decide
  · revert offset
    decide
  · revert offset
    decide
  · revert offset
    decide
  · rw [targets_smallTable h]
    simp only [Apart, List.pairwise_cons, List.forall_mem_cons, Target.field, Field.cells, Kind.width,
      Set.Ico_disjoint_Ico]
    revert offset
    decide
  · rw [targets_smallTable h]
    simp only [List.forall_mem_cons, Target.field, Field.cells, Kind.width, Set.Ico_disjoint_Ico]
    revert offset
    decide

/-- `execformat_pe_LoadMemory` fills the executable, and relocations between three bases compose. -/
theorem baseRelocate_composes_smallImage :
    (smallImage 0xe4).loadMemory emptyExecutable = some (.returned smallExecutable) ∧
      Composes 3 smallExecutable.toPortableExecutable 0 0 (smallTable 0xe4) 0x140000000 0x7ff000000000 0x10000
        (smallImage 0xe4).memory := by
  refine ⟨loadMemory_smallImage (by decide), baseRelocate_composes (smallImage_wellFormed (by decide)) ?_
    (by decide) (by decide) (by decide) (by decide) (by decide)⟩
  rw [OffHeaders, targets_smallTable (by decide), headers, if_neg (by decide)]
  simp only [List.forall_mem_cons, Target.field, Field.cells, Kind.width, Set.Ico_disjoint_Ico]
  decide

/-- The first field is the name of the section, which the second relocation does not find. -/
theorem header_field_not_composed :
    (smallImage 0x90).loadMemory emptyExecutable = some (.returned smallExecutable) ∧
      WellFormed smallExecutable.toPortableExecutable (smallImage 0x90).memory 0 0 0x10b8 (smallTable 0x90)
        0x10d8 ∧
      ¬ Composes 3 smallExecutable.toPortableExecutable 0 0 (smallTable 0x90) 0x10000 0x20000 0x30000
        (smallImage 0x90).memory := by
  refine ⟨loadMemory_smallImage (by decide), smallImage_wellFormed (by decide), ?_⟩
  rintro ⟨m₁, m₂, hab, -, -, hba, -⟩
  have hback : ((baseRelocate 3 smallExecutable.toPortableExecutable 0 0 0x10000 0x20000
      (smallImage 0x90).memory).bind (baseRelocate 3 smallExecutable.toPortableExecutable 0 0 0x20000 0x10000)).map
        (fun m => m 0x1092) = some ((smallImage 0x90).memory 0x1092) := by
    rw [hab, Option.bind_some, hba, Option.map_some]
  revert hback
  decide

end Helos.Reloc
