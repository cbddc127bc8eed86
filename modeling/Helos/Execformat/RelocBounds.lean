import Helos.Execformat.Reloc
import Helos.Theory.Loops

/-!
# The bounds of a relocation table

The loop over the blocks takes the size of a block from the table, and does not compare it with what is
left of the table. Whether it stays inside and ends is up to the blocks that it comes to: a relocation
may change the blocks that follow, and the size of its own block, by which the loop goes on.
-/

namespace Helos.Reloc

structure BlockState where
  reloc : Nat
  memory : Nat → UInt8

/-- The indices of the entries that are read, in the loop over the entries with `n` of them left. -/
def entriesRead (begin block : Nat) (diff : UInt64) : Nat → Nat → (Nat → UInt8) → List Nat
  | 0, _, _ => []
  | n + 1, i, m =>
    if typeOf (entry m block i) = typeHighadj then
      match n with
      | 0 => [i]
      | n + 1 => i :: entriesRead begin block diff n (i + 2) m
    else
      let target := begin + pageOffset m block + offsetOf (entry m block i)
      i :: entriesRead begin block diff n (i + 1)
        (relocateTarget m target (typeOf (entry m block i)) diff)

namespace BlockState

def entries (s : BlockState) : Nat := bodySize s.memory s.reloc / 2

/-- There is a block to relocate. An odd size fails the assertion, which also ends the loop. -/
def InLoop (relocEnd : Nat) (s : BlockState) : Prop :=
  s.reloc < relocEnd ∧ bodySize s.memory s.reloc % 2 = 0

instance (relocEnd : Nat) : DecidablePred (InLoop relocEnd) := fun _ =>
  inferInstanceAs (Decidable (_ ∧ _))

def read (begin : Nat) (diff : UInt64) (s : BlockState) : List Nat :=
  entriesRead begin s.reloc diff s.entries 0 s.memory

def next (begin : Nat) (diff : UInt64) (s : BlockState) : BlockState :=
  let memory := relocateEntries begin s.reloc diff s.entries 0 s.memory
  ⟨s.reloc + blockSize memory s.reloc, memory⟩

/-- One turn of the loop, which has no result when an entry is read beyond the end. -/
def turn (begin relocEnd : Nat) (diff : UInt64) (s : BlockState) : Option BlockState :=
  if ∀ i ∈ s.read begin diff, s.reloc + 8 + 2 * (i + 1) ≤ relocEnd then some (s.next begin diff)
  else none

/-- The entries of a block end before the table does, or all but the last, which a `HIGHADJ` skips. -/
def Fits (begin relocEnd : Nat) (diff : UInt64) (s : BlockState) : Prop :=
  s.entries = 0 ∨ s.reloc + 8 + 2 * s.entries ≤ relocEnd ∨
    s.reloc + 8 + 2 * (s.entries - 1) ≤ relocEnd ∧ s.entries - 1 ∉ s.read begin diff

end BlockState

/-- The loop over the blocks, with the bound checked. -/
def blockLoop (begin relocEnd : Nat) (diff : UInt64) : Nat → BlockState → Option BlockState :=
  Loops.whileDo (BlockState.InLoop relocEnd) (BlockState.turn begin relocEnd diff)

def BlockState.Reaches (begin relocEnd : Nat) (diff : UInt64) : BlockState → BlockState → Prop :=
  Loops.Reaches (InLoop relocEnd) (turn begin relocEnd diff)

def difference (pe : PortableExecutable) (m : Nat → UInt8) (currentBase targetBase : UInt64) :
    UInt64 :=
  targetBase - if currentBase = 0 then UInt64.ofNat (imageBase pe m) else currentBase

/-- The loop over the blocks ends, and no entry is read at or beyond the end of the table. -/
def StaysInTable (pe : PortableExecutable) (relocBase relocEnd : Nat)
    (currentBase targetBase : UInt64) (m : Nat → UInt8) : Prop :=
  pe.begin ≠ 0 → ∀ reloc tableEnd, locate pe m relocBase relocEnd = some (reloc, tableEnd) →
    ∃ fuel last, blockLoop pe.begin tableEnd (difference pe m currentBase targetBase) fuel
      ⟨reloc, m⟩ = some last

/-! ### The entries of a block -/

variable {begin block relocEnd : Nat} {diff : UInt64} {m : Nat → UInt8} {s last : BlockState}

theorem entriesRead_skip {i : Nat} (h : typeOf (entry m block i) = typeHighadj) (n : Nat) :
    entriesRead begin block diff (n + 2) i m = i :: entriesRead begin block diff n (i + 2) m := by
  rw [entriesRead.eq_def]
  exact if_pos h

theorem entriesRead_next {i : Nat} (h : typeOf (entry m block i) ≠ typeHighadj) (n : Nat) :
    entriesRead begin block diff (n + 1) i m =
      i :: entriesRead begin block diff n (i + 1)
        (relocateTarget m (begin + pageOffset m block + offsetOf (entry m block i))
          (typeOf (entry m block i)) diff) := by
  rw [entriesRead.eq_def]
  exact if_neg h

theorem entriesRead_one (i : Nat) (m : Nat → UInt8) : entriesRead begin block diff 1 i m = [i] := by
  by_cases h : typeOf (entry m block i) = typeHighadj
  · rw [entriesRead.eq_def]
    exact if_pos h
  · exact entriesRead_next h 0

/-- Two entries are left at least: the first is read, and the loop goes on with one or two less. -/
theorem entriesRead_cases (n i : Nat) (m : Nat → UInt8) :
    entriesRead begin block diff (n + 2) i m = i :: entriesRead begin block diff n (i + 2) m ∨
      ∃ m', entriesRead begin block diff (n + 2) i m =
        i :: entriesRead begin block diff (n + 1) (i + 1) m' := by
  by_cases h : typeOf (entry m block i) = typeHighadj
  · exact Or.inl (entriesRead_skip h n)
  · exact Or.inr ⟨_, entriesRead_next h (n + 1)⟩

theorem lt_of_mem_entriesRead {n i j : Nat} (h : j ∈ entriesRead begin block diff n i m) :
    j < i + n := by
  induction n using Nat.twoStepInduction generalizing i m with
  | zero => cases h
  | one =>
    rw [entriesRead_one] at h
    obtain rfl := List.mem_singleton.mp h
    exact Nat.lt_succ_self j
  | more n ih ih' =>
    rcases entriesRead_cases n i m with hreads | ⟨m', hreads⟩
    · rw [hreads] at h
      rcases List.mem_cons.mp h with rfl | hrest
      · omega
      · have hlt := ih hrest
        omega
    · rw [hreads] at h
      rcases List.mem_cons.mp h with rfl | hrest
      · omega
      · have hlt := ih' hrest
        omega

theorem last_mem_entriesRead (n i : Nat) (m : Nat → UInt8) :
    i + n ∈ entriesRead begin block diff (n + 1) i m ∨
      ∃ k, n = k + 1 ∧ i + k ∈ entriesRead begin block diff (n + 1) i m := by
  induction n using Nat.twoStepInduction generalizing i m with
  | zero =>
    rw [entriesRead_one]
    exact Or.inl List.mem_cons_self
  | one =>
    rcases entriesRead_cases 0 i m with hreads | ⟨m', hreads⟩
    · rw [hreads]
      exact Or.inr ⟨0, rfl, List.mem_cons_self⟩
    · rw [hreads, entriesRead_one]
      exact Or.inl (List.mem_cons_of_mem _ List.mem_cons_self)
  | more n ih ih' =>
    rcases entriesRead_cases (n + 1) i m with hreads | ⟨m', hreads⟩
    · rw [hreads]
      rcases ih (i + 2) m with hlast | ⟨k, rfl, hlast⟩
      · rw [show i + 2 + n = i + (n + 2) by omega] at hlast
        exact Or.inl (List.mem_cons_of_mem _ hlast)
      · rw [show i + 2 + k = i + (k + 2) by omega] at hlast
        exact Or.inr ⟨k + 2, rfl, List.mem_cons_of_mem _ hlast⟩
    · rw [hreads]
      rcases ih' (i + 1) m' with hlast | ⟨k, hk, hlast⟩
      · rw [show i + 1 + (n + 1) = i + (n + 2) by omega] at hlast
        exact Or.inl (List.mem_cons_of_mem _ hlast)
      · rw [show i + 1 + k = i + (k + 1) by omega] at hlast
        exact Or.inr ⟨k + 1, by omega, List.mem_cons_of_mem _ hlast⟩

theorem read_last (h : s.entries ≠ 0) :
    s.entries - 1 ∈ s.read begin diff ∨ ∃ k, s.entries = k + 2 ∧ k ∈ s.read begin diff := by
  obtain ⟨n, hn⟩ := Nat.exists_eq_add_one_of_ne_zero h
  have hread : s.read begin diff = entriesRead begin s.reloc diff (n + 1) 0 s.memory := by
    rw [BlockState.read, hn]
  rw [hread, hn]
  rcases last_mem_entriesRead n 0 s.memory with hlast | ⟨k, rfl, hlast⟩
  · rw [Nat.zero_add] at hlast
    exact Or.inl hlast
  · rw [Nat.zero_add] at hlast
    exact Or.inr ⟨k, rfl, hlast⟩

theorem turn_ne_none_iff :
    s.turn begin relocEnd diff ≠ none ↔
      ∀ i ∈ s.read begin diff, s.reloc + 8 + 2 * (i + 1) ≤ relocEnd := by
  unfold BlockState.turn
  rw [ite_ne_right_iff]
  exact and_iff_left (Option.some_ne_none _)

theorem fits_iff :
    s.Fits begin relocEnd diff ↔
      ∀ i ∈ s.read begin diff, s.reloc + 8 + 2 * (i + 1) ≤ relocEnd := by
  constructor
  · rintro (hnone | hall | ⟨hbut, hskipped⟩) i hi
    · have hlt := lt_of_mem_entriesRead hi
      omega
    · have hlt := lt_of_mem_entriesRead hi
      omega
    · have hlt := lt_of_mem_entriesRead hi
      have hne : i ≠ s.entries - 1 := fun heq => hskipped (heq ▸ hi)
      omega
  · intro h
    by_cases hzero : s.entries = 0
    · exact Or.inl hzero
    · by_cases hlast : s.entries - 1 ∈ s.read begin diff
      · have hle := h _ hlast
        exact Or.inr (Or.inl (by omega))
      · obtain ⟨k, hk, hread⟩ := (read_last hzero).resolve_left hlast
        have hle := h k hread
        exact Or.inr (Or.inr ⟨by omega, hlast⟩)

theorem turn_of_fits (h : s.Fits begin relocEnd diff) :
    s.turn begin relocEnd diff = some (s.next begin diff) := if_pos (fits_iff.mp h)

/-! ### The blocks -/

/-- What the checked loop comes to, the function does. -/
theorem relocateBlocks_of_blockLoop {fuel : Nat}
    (h : blockLoop begin relocEnd diff fuel s = some last) :
    relocateBlocks begin relocEnd diff fuel s.reloc s.memory =
      if relocEnd ≤ last.reloc then some last.memory else none := by
  induction fuel generalizing s with
  | zero => cases h
  | succ fuel ih =>
    rw [relocateBlocks]
    by_cases hloop : s.InLoop relocEnd
    · rw [if_pos hloop.1, if_pos hloop.2]
      rw [blockLoop, Loops.whileDo_turn hloop] at h
      obtain ⟨t, ht, hrest⟩ := Option.bind_eq_some_iff.mp h
      have hnext : s.next begin diff = t := by
        unfold BlockState.turn at ht
        split at ht
        · exact Option.some.inj ht
        · cases ht
      rw [← ih hrest, ← hnext]
      rfl
    · rw [blockLoop, Loops.whileDo_end hloop] at h
      obtain rfl := Option.some.inj h
      by_cases hlt : s.reloc < relocEnd
      · rw [if_pos hlt, if_neg fun heven => hloop ⟨hlt, heven⟩, if_neg (Nat.not_le.mpr hlt)]
      · rw [if_neg hlt, if_pos (Nat.le_of_not_lt hlt)]

/-- A block of size 0 has so many entries that it only fits in a table of 4 GB. -/
theorem Fits.of_size_zero (h : s.Fits begin relocEnd diff) (hzero : blockSize s.memory s.reloc = 0) :
    s.reloc + 2 ^ 32 ≤ relocEnd + 2 := by
  have hentries : s.entries = 2 ^ 31 - 4 := by
    unfold BlockState.entries bodySize
    rw [hzero]
    rfl
  unfold BlockState.Fits at h
  rw [hentries] at h
  omega

/-- A loop that stays at a block comes to it with size 0. -/
theorem next_reloc (h : ¬ s.reloc < (s.next begin diff).reloc) :
    (s.next begin diff).reloc = s.reloc ∧
      blockSize (s.next begin diff).memory (s.next begin diff).reloc = 0 := by
  have hreloc : (s.next begin diff).reloc =
      s.reloc + blockSize (s.next begin diff).memory s.reloc := rfl
  have hsame : (s.next begin diff).reloc = s.reloc := by omega
  rw [hsame]
  exact ⟨rfl, by omega⟩

theorem blockLoop_ends_iff :
    (∃ fuel last, blockLoop begin relocEnd diff fuel s = some last) ↔
      ∀ t, s.Reaches begin relocEnd diff t → t.InLoop relocEnd →
        t.Fits begin relocEnd diff ∧ (t.reloc + 2 ^ 32 ≤ relocEnd + 2 →
          ∃ u, t.Reaches begin relocEnd diff u ∧ (¬ u.InLoop relocEnd ∨ t.reloc < u.reloc)) := by
  apply (Loops.whileDo_ends_iff fun t => relocEnd - t.reloc).trans
  constructor
  · intro h t hreach hloop
    obtain ⟨hturn, u, hu, hu'⟩ := h t hreach hloop
    refine ⟨fits_iff.mpr (turn_ne_none_iff.mp hturn), ?_⟩
    intro _
    refine ⟨u, hu, hu'.imp_right ?_⟩
    intro hdown
    omega
  · intro h t hreach hloop
    obtain ⟨hfits, hlarge⟩ := h t hreach hloop
    refine ⟨turn_ne_none_iff.mpr (fits_iff.mp hfits), ?_⟩
    have hbelow : t.reloc < relocEnd := hloop.1
    by_cases hsmall : t.reloc + 2 ^ 32 ≤ relocEnd + 2
    · obtain ⟨u, hu, hu'⟩ := hlarge hsmall
      refine ⟨u, hu, hu'.imp_right ?_⟩
      intro hup
      omega
    · have hnext : t.Reaches begin relocEnd diff (t.next begin diff) :=
        .single ⟨hloop, turn_of_fits hfits⟩
      refine ⟨t.next begin diff, hnext, ?_⟩
      by_cases hin : (t.next begin diff).InLoop relocEnd
      · right
        by_contra hdown
        have hstays : ¬ t.reloc < (t.next begin diff).reloc := by omega
        obtain ⟨hsame, hzero⟩ := next_reloc hstays
        have hroom := Fits.of_size_zero (h _ (hreach.trans hnext) hin).1 hzero
        omega
      · exact Or.inl hin

/-! ### The whole function -/

theorem baseRelocate_of_blockLoop {pe : PortableExecutable} {relocBase reloc fuel : Nat}
    {currentBase targetBase : UInt64} (hbegin : pe.begin ≠ 0)
    (hlocate : locate pe m relocBase relocEnd = some (reloc, relocEnd))
    (h : blockLoop pe.begin relocEnd (difference pe m currentBase targetBase) fuel ⟨reloc, m⟩ =
      some last) :
    baseRelocate fuel pe relocBase relocEnd currentBase targetBase m =
      if relocEnd ≤ last.reloc then some last.memory else none := by
  rw [baseRelocate, if_neg hbegin, hlocate]
  exact relocateBlocks_of_blockLoop h

/-- When a relocation ends and stays inside of its table: when each block that the loop comes to fits,
and, in a table of 4 GB or more, none keeps the loop for ever. -/
theorem staysInTable_iff (pe : PortableExecutable) (relocBase relocEnd : Nat)
    (currentBase targetBase : UInt64) (m : Nat → UInt8) :
    StaysInTable pe relocBase relocEnd currentBase targetBase m ↔
      (pe.begin ≠ 0 → ∀ reloc tableEnd, locate pe m relocBase relocEnd = some (reloc, tableEnd) →
        ∀ s, BlockState.Reaches pe.begin tableEnd (difference pe m currentBase targetBase)
            ⟨reloc, m⟩ s → s.InLoop tableEnd →
          s.Fits pe.begin tableEnd (difference pe m currentBase targetBase) ∧
            (s.reloc + 2 ^ 32 ≤ tableEnd + 2 →
              ∃ t, s.Reaches pe.begin tableEnd (difference pe m currentBase targetBase) t ∧
                (¬ t.InLoop tableEnd ∨ s.reloc < t.reloc))) := by
  apply imp_congr_right
  intro _
  apply forall_congr'
  intro reloc
  apply forall_congr'
  intro tableEnd
  exact imp_congr_right fun _ => blockLoop_ends_iff

theorem padding_read_beyond :
    ¬ StaysInTable ⟨0x1000, 0, 0, 0, true⟩ 0x2000 0x2008 0x1000 0x3000 fun _ => 0 := by
  intro h
  have hends := h (by decide) 0x2000 0x2008 rfl
  have hfits := (blockLoop_ends_iff.mp hends _ .refl ⟨by decide, by decide⟩).1
  exact absurd (Fits.of_size_zero hfits (by decide)) (by decide)

end Helos.Reloc
