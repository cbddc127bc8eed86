import Helos.Memory.PageTableSpec
import Helos.Theory.Run

/-!
# Runs of mapping calls

After any sequence of calls of `paging_map_Page` and `paging_map_Page2M` the tables translate an
address as the last page mapped at its low 48 bits says. For calls on canonical addresses this is the
last call that covers the address.
-/

namespace Helos

structure MapCall where
  large : Bool
  physical : Nat
  virt : Nat
  pageCount : Nat
  flags : BitVec 32

/-- An address whose upper 17 bits are equal. -/
def Canonical (v : Nat) : Prop := v < 2 ^ 47 ∨ 2 ^ 64 - 2 ^ 47 ≤ v ∧ v < 2 ^ 64

namespace MapCall

def size (c : MapCall) : Nat := if c.large then 2097152 else 4096

def Covers (c : MapCall) (v : Nat) : Prop := c.virt ≤ v ∧ v < c.virt + c.size * c.pageCount

instance (c : MapCall) (v : Nat) : Decidable (c.Covers v) := inferInstanceAs (Decidable (_ ∧ _))

/-- The addresses are aligned, and the ranges end in the address spaces. -/
structure InRange (c : MapCall) : Prop where
  physical_aligned : c.physical % c.size = 0
  virt_aligned : c.virt % c.size = 0
  physical_le : c.physical + c.size * c.pageCount ≤ 2 ^ 52
  virt_le : c.virt + c.size * c.pageCount ≤ 2 ^ 64

/-- What a call gives to an address that it covers. -/
def translation (supportExecuteDisable : Bool) (c : MapCall) (v : Nat) : Translation where
  physical := c.physical + (v - c.virt)
  pageSize := c.size
  writable := decide (c.flags &&& mapProtWrite ≠ 0)
  executeDisable := decide (supportExecuteDisable ∧ c.flags &&& mapProtExec = 0)

end MapCall

/-! ### Flat maps -/

namespace FlatMap

def mapPages (size : Nat) (supportExecuteDisable : Bool) (flags : BitVec 32) :
    Nat → Nat → Nat → FlatMap → FlatMap
  | 0, _, _, f => f
  | pageCount + 1, physical, virt, f =>
    mapPages size supportExecuteDisable flags pageCount (physical + size) (virt + size)
      (f.mapOne size supportExecuteDisable flags physical virt)

def step (supportExecuteDisable : Bool) (f : FlatMap) (c : MapCall) : FlatMap :=
  f.mapPages c.size supportExecuteDisable c.flags c.pageCount c.physical c.virt

/-- The last page mapped at the low 48 bits of an address counts. -/
def run (supportExecuteDisable : Bool) (calls : List MapCall) : FlatMap :=
  calls.foldl (step supportExecuteDisable) fun _ => none

/-- The last call that covers an address counts. -/
def lastCall (supportExecuteDisable : Bool) (calls : List MapCall) : FlatMap := fun v =>
  (calls.reverse.find? fun c => c.Covers v).map fun c => c.translation supportExecuteDisable v

/-- Canonical addresses with the same low 48 bits are equal. -/
theorem same_page_iff {size v virt : Nat} (hsize : size = 4096 ∨ size = 2097152)
    (hv : Canonical v) (hvirt : Canonical virt) (halign : virt % size = 0) :
    v % 2 ^ 48 / size = virt % 2 ^ 48 / size ↔ virt ≤ v ∧ v < virt + size := by
  unfold Canonical at hv hvirt
  rcases hsize with rfl | rfl <;> omega

theorem mapPages_apply {size : Nat} (hsize : size = 4096 ∨ size = 2097152)
    {supportExecuteDisable : Bool} {flags : BitVec 32} {v : Nat} (hv : Canonical v) {pageCount : Nat}
    {physical virt : Nat} (halign : virt % size = 0)
    (hcanonical : ∀ k < pageCount, Canonical (virt + size * k)) (f : FlatMap) :
    f.mapPages size supportExecuteDisable flags pageCount physical virt v =
      if virt ≤ v ∧ v < virt + size * pageCount then
        some
          { physical := physical + (v - virt)
            pageSize := size
            writable := decide (flags &&& mapProtWrite ≠ 0)
            executeDisable := decide (supportExecuteDisable ∧ flags &&& mapProtExec = 0) }
      else f v := by
  induction pageCount generalizing physical virt f with
  | zero =>
    rw [if_neg (by omega)]
    rfl
  | succ pageCount ih =>
    have hpos : 0 < size := by omega
    have hfirst : Canonical virt := hcanonical 0 (Nat.succ_pos _)
    have hrest : ∀ k < pageCount, Canonical (virt + size + size * k) := by
      intro k hk
      have hnext := hcanonical (k + 1) (Nat.succ_lt_succ hk)
      rwa [Nat.mul_succ, Nat.add_comm (size * k), ← Nat.add_assoc] at hnext
    have hmod : v % size < size := Nat.mod_lt v hpos
    rw [mapPages, ih (by rw [Nat.add_mod_right, halign]) hrest, Nat.mul_succ]
    by_cases hlater : virt + size ≤ v ∧ v < virt + size + size * pageCount
    · rw [if_pos hlater, if_pos (by omega)]
      congr 2
      omega
    · rw [if_neg hlater]
      unfold mapOne
      simp only [same_page_iff hsize hv hfirst halign]
      by_cases hhere : virt ≤ v ∧ v < virt + size
      · have hoffset : v % size = v - virt := by
          rcases hsize with rfl | rfl <;> omega
        rw [if_pos hhere, if_pos (by omega)]
        unfold Translation.asked
        rw [hoffset]
      · rw [if_neg hhere, if_neg (by omega)]

theorem step_apply {supportExecuteDisable : Bool} {c : MapCall} (halign : c.virt % c.size = 0)
    (hcanonical : ∀ v, c.Covers v → Canonical v) (f : FlatMap) {v : Nat} (hv : Canonical v) :
    f.step supportExecuteDisable c v =
      if c.Covers v then some (c.translation supportExecuteDisable v) else f v := by
  have hsize : c.size = 4096 ∨ c.size = 2097152 := by
    unfold MapCall.size
    split
    · exact .inr rfl
    · exact .inl rfl
  apply mapPages_apply hsize hv halign
  intro k hk
  apply hcanonical
  have hle : c.size * (k + 1) ≤ c.size * c.pageCount := Nat.mul_le_mul_left _ hk
  rw [Nat.mul_succ] at hle
  unfold MapCall.Covers
  omega

/-- For calls on canonical addresses the two agree. -/
theorem run_eq_lastCall {supportExecuteDisable : Bool} {calls : List MapCall}
    (halign : ∀ c ∈ calls, c.virt % c.size = 0)
    (hcanonical : ∀ c ∈ calls, ∀ v, c.Covers v → Canonical v) {v : Nat} (hv : Canonical v) :
    run supportExecuteDisable calls v = lastCall supportExecuteDisable calls v := by
  induction calls using List.reverseRecOn with
  | nil => rfl
  | append_singleton calls c ih =>
    have hmem : c ∈ calls ++ [c] := List.mem_append_right _ (List.mem_singleton_self c)
    have hprev := ih (fun c' hc => halign c' (List.mem_append_left _ hc))
      (fun c' hc => hcanonical c' (List.mem_append_left _ hc))
    unfold run at hprev ⊢
    rw [List.foldl_append, List.foldl_cons, List.foldl_nil,
      step_apply (halign c hmem) (hcanonical c hmem) _ hv, hprev]
    unfold lastCall
    rw [List.reverse_append, List.reverse_singleton, List.singleton_append, List.find?_cons]
    by_cases hcovers : c.Covers v
    · simp [hcovers]
    · simp [hcovers]

end FlatMap

/-! ### The tables -/

namespace Paging

open PageEntry

variable {σ : Type} (g : PagingSetup σ)

def step (s : Paging σ) (c : MapCall) : Option (Paging σ) :=
  if c.large then mapPage2M g s c.physical c.virt c.pageCount c.flags
  else mapPage g s c.physical c.virt c.pageCount c.flags

/-- No 4 KiB page is mapped into a 2 MiB page, and the allocator supplies the call. -/
structure Admissible (s : Paging σ) (c : MapCall) : Prop where
  not_large : c.large = false → ∀ v, c.Covers v → NotLarge (translate g s) v
  supplied : ∀ s', step g s c = some s' → Supplied g.pml4Table s'.events

variable {g} {s : Paging σ}

/-- What a loop over pages needs of its body, where `Ready` is what a page needs of the addresses. -/
structure MapsOne (g : PagingSetup σ) (size : Nat) (flags : BitVec 32)
    (Ready : FlatMap → Nat → Prop) (one : Nat → Nat → Paging σ → Paging σ) : Prop where
  events : ∀ physical virt s, s.events <:+ (one physical virt s).events
  maps : ∀ {s physical virt}, Sound g s → physical % size = 0 → physical < 2 ^ 52 →
    Ready (translate g s) virt → Supplied g.pml4Table (one physical virt s).events →
    Sound g (one physical virt s) ∧ translate g (one physical virt s) =
      FlatMap.mapOne size g.supportExecuteDisable flags physical virt (translate g s)
  ready : ∀ {f : FlatMap} (physical virt) {v}, Ready f v →
    Ready (f.mapOne size g.supportExecuteDisable flags physical virt) v

theorem mapsOne_page (g : PagingSetup σ) (flags : BitVec 32) :
    MapsOne g 4096 flags NotLarge (mapOnePage g flags) where
  events physical virt s := mapOnePage_events g flags physical virt s
  maps hs halign hlt hready hsupplied := hs.mapOnePage ⟨halign, hlt⟩ hready hsupplied
  ready physical virt v hready t ht := by
    unfold FlatMap.mapOne at ht
    split at ht
    · cases ht
      exact (by decide : 4096 ≠ 2097152)
    · exact hready t ht

theorem mapsOne_page2M (g : PagingSetup σ) (flags : BitVec 32) :
    MapsOne g 2097152 flags (fun _ _ => True) (mapOnePage2M g flags) where
  events physical virt s := mapOnePage2M_events g flags physical virt s
  maps hs halign hlt _ hsupplied := hs.mapOnePage2M halign hlt hsupplied
  ready _ _ _ _ := trivial

section Loop

variable {size : Nat} {flags : BitVec 32} {Ready : FlatMap → Nat → Prop}
  {one : Nat → Nat → Paging σ → Paging σ} (h : MapsOne g size flags Ready one)

include h

theorem mapPages_events (pageCount physical virt : Nat) (s : Paging σ) :
    s.events <:+ (mapPages size one pageCount physical virt s).events := by
  induction pageCount generalizing physical virt s with
  | zero => exact List.suffix_refl _
  | succ pageCount ih => exact (h.events physical virt s).trans (ih _ _ _)

theorem Sound.mapPages (hsize : 0 < size) {pageCount physical virt : Nat} (hs : Sound g s)
    (halign : physical % size = 0) (hphysical : physical + size * pageCount ≤ 2 ^ 52)
    (hvirt : virt + size * pageCount ≤ 2 ^ 64)
    (hready : ∀ k < pageCount, Ready (translate g s) (virt + size * k))
    (hsupplied : Supplied g.pml4Table (mapPages size one pageCount physical virt s).events) :
    Sound g (Paging.mapPages size one pageCount physical virt s) ∧
      translate g (Paging.mapPages size one pageCount physical virt s) =
        FlatMap.mapPages size g.supportExecuteDisable flags pageCount physical virt
          (translate g s) := by
  induction pageCount generalizing physical virt s with
  | zero => exact ⟨hs, rfl⟩
  | succ pageCount ih =>
    rw [Nat.mul_succ] at hphysical hvirt
    unfold Paging.mapPages at hsupplied ⊢
    have hfirst := hsupplied.of_suffix (mapPages_events h pageCount _ _ _)
    have hready₀ : Ready (translate g s) virt := hready 0 (Nat.succ_pos _)
    obtain ⟨hone, htranslate⟩ := h.maps hs halign (by omega) hready₀ hfirst
    -- the address wraps around after the last page only
    cases pageCount with
    | zero => exact ⟨hone, htranslate⟩
    | succ pageCount =>
      rw [Nat.mul_succ] at hphysical hvirt
      have hwrap : wrap64 (physical + size) = physical + size := wrap64_of_lt (by omega)
      have hwrap' : wrap64 (virt + size) = virt + size := wrap64_of_lt (by omega)
      rw [hwrap, hwrap'] at hsupplied ⊢
      rw [FlatMap.mapPages, ← htranslate]
      apply ih hone (by rw [Nat.add_mod_right, halign]) (by rw [Nat.mul_succ]; omega)
        (by rw [Nat.mul_succ]; omega) _ hsupplied
      intro k hk
      rw [htranslate]
      apply h.ready
      have hnext := hready (k + 1) (Nat.succ_lt_succ hk)
      rwa [Nat.mul_succ, Nat.add_comm (size * k), ← Nat.add_assoc] at hnext

end Loop

/-- **Step.** A call maps its pages. -/
theorem Sound.step {c : MapCall} {s' : Paging σ} (hs : Sound g s) (hrange : c.InRange)
    (hstep : step g s c = some s') (hadm : Admissible g s c) :
    Sound g s' ∧
      translate g s' = FlatMap.step g.supportExecuteDisable (translate g s) c := by
  obtain ⟨large, physical, virt, pageCount, flags⟩ := c
  have hsupplied := hadm.supplied s' hstep
  obtain ⟨halign, -, hphysical, hvirt⟩ := hrange
  cases large with
  | true =>
    simp only [Paging.step, if_true] at hstep
    unfold mapPage2M at hstep
    split at hstep
    · cases hstep
      exact hs.mapPages (mapsOne_page2M g flags) (by decide) halign hphysical hvirt
        (fun _ _ => trivial) hsupplied
    · cases hstep
  | false =>
    simp only [Paging.step, Bool.false_eq_true, if_false] at hstep
    unfold mapPage at hstep
    split at hstep
    · cases hstep
      apply hs.mapPages (mapsOne_page g flags) (by decide) halign hphysical hvirt _ hsupplied
      intro k hk
      apply hadm.not_large rfl
      have hle : 4096 * (k + 1) ≤ 4096 * pageCount := Nat.mul_le_mul_left _ hk
      unfold MapCall.Covers MapCall.size
      simp only [Bool.false_eq_true, if_false]
      omega
    · cases hstep

theorem step_isSome {c : MapCall} (hrange : c.InRange) (s : Paging σ) :
    ∃ s', step g s c = some s' := by
  obtain ⟨large, physical, virt, pageCount, flags⟩ := c
  obtain ⟨hphysical, hvirt, -, -⟩ := hrange
  cases large with
  | true =>
    simp only [step, if_true]
    exact ⟨_, if_pos ⟨hphysical, hvirt⟩⟩
  | false =>
    simp only [step, Bool.false_eq_true, if_false]
    exact ⟨_, if_pos ⟨hphysical, hvirt⟩⟩

theorem Sound.run {calls : List MapCall} (hs : Sound g s) (hrange : ∀ c ∈ calls, c.InRange)
    (hadm : Run.EachStep (Paging.step g) (Admissible g) s calls) :
    ∃ s', Run.exec (Paging.step g) s calls = some s' ∧ Sound g s' ∧
      translate g s' =
        calls.foldl (FlatMap.step g.supportExecuteDisable) (translate g s) := by
  induction calls generalizing s with
  | nil => exact ⟨s, rfl, hs, rfl⟩
  | cons c calls ih =>
    have hc : c.InRange := hrange c List.mem_cons_self
    obtain ⟨s₁, hstep⟩ := step_isSome hc s
    obtain ⟨hadm₁, hrest⟩ := hadm s₁ hstep
    obtain ⟨hs₁, htranslate⟩ := hs.step hc hstep hadm₁
    obtain ⟨s', hrun, hs', heq⟩ :=
      ih hs₁ (fun c' hc' => hrange c' (List.mem_cons_of_mem c hc')) hrest
    refine ⟨s', ?_, hs', ?_⟩
    · rw [Run.exec_cons, hstep, Option.bind_some, hrun]
    · rw [heq, htranslate, List.foldl_cons]

/-- **The last page mapped counts.** From an empty PML4, the walk of the processor translates an
address as the last page mapped at its low 48 bits says; when the calls cover canonical addresses
only, as the last call that covers it says. -/
theorem translate_last (hpml4 : IsFrame g.pml4Table) (hempty : ∀ i, s.memory g.pml4Table i = 0)
    (hevents : s.events = []) {calls : List MapCall} (hrange : ∀ c ∈ calls, c.InRange)
    (hadm : Run.EachStep (step g) (Admissible g) s calls) :
    ∃ s', Run.exec (step g) s calls = some s' ∧
      (∀ v, translate g s' v = FlatMap.run g.supportExecuteDisable calls v) ∧
      ((∀ c ∈ calls, ∀ v, c.Covers v → Canonical v) →
        ∀ v, Canonical v → translate g s' v = FlatMap.lastCall g.supportExecuteDisable calls v) := by
  obtain ⟨s', hrun, -, htranslate⟩ := (Sound.initial hpml4 hempty hevents).run hrange hadm
  have hnone : translate g s = fun _ => none := funext (Sound.translate_initial hempty)
  have hflat (v : Nat) : translate g s' v = FlatMap.run g.supportExecuteDisable calls v := by
    rw [htranslate, hnone]
    rfl
  refine ⟨s', hrun, hflat, fun hcanonical v hv => ?_⟩
  rw [hflat]
  exact FlatMap.run_eq_lastCall (fun c hc => (hrange c hc).virt_aligned) hcanonical hv

/-! ### Two runs -/

/-- An allocator that gives one frame after another. -/
def risingAllocator : FrameAllocator Nat where
  allocate n := (some (n * 4096), n + 1)
  free n _ _ := n

def risingSetup : PagingSetup Nat := ⟨risingAllocator, 4096, true⟩

def risingState : Paging Nat := ⟨256, fun _ _ => 0, []⟩

/-- A page, and a large page in its place. -/
def replacedPage : List MapCall :=
  [⟨false, 0x5000, 0x400000, 1, mapProtWrite⟩, ⟨true, 0x800000, 0x400000, 1, mapProtExec⟩]

/-- A page at an address that is not canonical. -/
def aliasPage : List MapCall := [⟨false, 0x5000, 2 ^ 48, 1, mapProtWrite⟩]

theorem admissible_first {c : MapCall} {events : List PagingEvent}
    (hevents : (step risingSetup risingState c).map Paging.events = some events)
    (hsupplied : Supplied risingSetup.pml4Table events) :
    Admissible risingSetup risingState c := by
  refine ⟨fun _ v _ t ht => ?_, fun s' hs' => ?_⟩
  · rw [Sound.translate_initial (fun _ => rfl)] at ht
    cases ht
  · rw [hs', Option.map_some, Option.some.injEq] at hevents
    rwa [hevents]

theorem translate_last_replacedPage :
    ∃ s', Run.exec (step risingSetup) risingState replacedPage = some s' ∧
      (∀ v, translate risingSetup s' v = FlatMap.run true replacedPage v) ∧
      ((∀ c ∈ replacedPage, ∀ v, c.Covers v → Canonical v) →
        ∀ v, Canonical v → translate risingSetup s' v = FlatMap.lastCall true replacedPage v) := by
  apply translate_last (g := risingSetup) (by decide) (fun _ => rfl) rfl
  · intro c hc
    rcases List.mem_cons.mp hc with rfl | hc
    · exact ⟨rfl, rfl, by decide, by decide⟩
    · rcases List.mem_singleton.mp hc with rfl
      exact ⟨rfl, rfl, by decide, by decide⟩
  · intro s₁ h₁
    have hevents₁ : (step risingSetup risingState
        ⟨false, 0x5000, 0x400000, 1, mapProtWrite⟩).map Paging.events =
        some [.flushed 0x400000, .allocated (some 0x102000), .allocated (some 0x101000),
          .allocated (some 0x100000)] := by
      decide
    have hevents₂ : ((step risingSetup risingState
        ⟨false, 0x5000, 0x400000, 1, mapProtWrite⟩).bind fun s => (step risingSetup s
          ⟨true, 0x800000, 0x400000, 1, mapProtExec⟩).map Paging.events) =
        some [.flushed 0x400000, .freed 0x102000 1, .flushed 0x400000,
          .allocated (some 0x102000), .allocated (some 0x101000), .allocated (some 0x100000)] := by
      decide
    rw [h₁, Option.bind_some] at hevents₂
    refine ⟨admissible_first hevents₁ (by decide), fun s₂ h₂ => ⟨⟨(nomatch ·), ?_⟩, trivial⟩⟩
    intro s' hs'
    rw [hs', Option.map_some, Option.some.injEq] at hevents₂
    rw [hevents₂]
    decide

/-- A call that covers no canonical address changes the translation of address 0. -/
theorem alias_mapped :
    (∀ c ∈ aliasPage, c.InRange ∧ ¬ c.Covers 0) ∧
      Run.EachStep (step risingSetup) (Admissible risingSetup) risingState aliasPage ∧
      FlatMap.lastCall true aliasPage 0 = none ∧
      ∃ s', Run.exec (step risingSetup) risingState aliasPage = some s' ∧
        translate risingSetup s' 0 = some ⟨0x5000, 4096, true, true⟩ := by
  refine ⟨fun c hc => ?_, fun s₁ h₁ => ⟨?_, trivial⟩, by decide, ?_⟩
  · rcases List.mem_singleton.mp hc with rfl
    exact ⟨⟨rfl, rfl, by decide, by decide⟩, by decide⟩
  · have hevents : (step risingSetup risingState
        ⟨false, 0x5000, 2 ^ 48, 1, mapProtWrite⟩).map Paging.events =
        some [.flushed (2 ^ 48), .allocated (some 0x102000), .allocated (some 0x101000),
          .allocated (some 0x100000)] := by
      decide
    exact admissible_first hevents (by decide)
  · have htranslate : (Run.exec (step risingSetup) risingState aliasPage).map
        (fun s' => translate risingSetup s' 0) = some (some ⟨0x5000, 4096, true, true⟩) := by
      decide
    exact Option.map_eq_some_iff.mp htranslate

end Paging

end Helos
