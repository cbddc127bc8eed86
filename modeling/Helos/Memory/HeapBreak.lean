import Helos.Memory.AllocateReturns
import Helos.Memory.KernelRegions
import Helos.Memory.Tlb

/-!
# The break of the kernel heap

`memory/heap_break.c`. `memory_AddBreak` moves the break by an increment and maps pages when it
passes the end of those it has; it gives none back. The only bound it checks is the start of the
heap. Three GiB further up lies the page of the kernel stack, and a break that is moved beyond it has
that page mapped anew.
-/

namespace Helos

def kernelHeapVirtual : Nat := 0xFFFFFFFF00000000
def kernelStackEndVirtual : Nat := 0xFFFFFFFFC0000000

def mapProtRead : BitVec 32 := 4

/-- The statics of `heap_break.c`, and the paging. -/
structure HeapBreak where
  heapBreak : Nat
  pageBreak : Nat
  paging : Paging Physical

namespace HeapBreak

open Paging

section Setup

variable (g : PagingSetup Physical)

/-- Where the break goes. An increment is an `intptr_t`. -/
def moved (s : HeapBreak) (inc : BitVec 64) : Nat := wrap64 (s.heapBreak + inc.toNat)

/-- The number of pages a break asks for, an `int`. -/
def pageCount (s : HeapBreak) (heapBreak : Nat) : Int := roundUpToPageCount (heapBreak - s.pageBreak)

def pageAllocated (s : HeapBreak) (pageCount : Int) : Option (Paging Physical) :=
  Paging.pageAllocated g (mapProtRead ||| mapProtWrite) s.paging s.pageBreak pageCount.toNat

/-- `memory_AddBreak`, with its result. It does not return if `paging_map_PageAllocated` does not. -/
def addBreak (s : HeapBreak) (inc : BitVec 64) : Option (Nat × HeapBreak) :=
  if s.moved inc < kernelHeapVirtual then some (2 ^ 64 - 1, s)
  else
    let heapBreak := s.moved inc
    let result := wrap64 (heapBreak + (-inc).toNat)
    if s.pageBreak < heapBreak then do
      let pageCount := s.pageCount heapBreak
      let paging ← s.pageAllocated g pageCount
      let pageBreak := ((s.pageBreak + 4096 * pageCount) % 2 ^ 64).toNat
      some (result, { heapBreak, pageBreak, paging })
    else some (result, { s with heapBreak })

def step (s : HeapBreak) (inc : BitVec 64) : Option HeapBreak := (s.addBreak g inc).map Prod.snd

/-! ### What a sound break is -/

/-- The page below the kernel code is that of the stack. -/
def stackPage : Nat := kernelStackEndVirtual - 4096

/-- Nothing is below the pages of the heap that is not theirs, and what is mapped from the stack
upwards is what was mapped at first. -/
structure Sound (initial : Paging Physical) (s : HeapBreak) : Prop where
  aligned : s.pageBreak % 4096 = 0
  start : kernelHeapVirtual ≤ s.heapBreak
  within : s.heapBreak ≤ s.pageBreak
  below : s.pageBreak ≤ stackPage
  mapped : ∀ v, kernelHeapVirtual ≤ v → v < s.pageBreak → (translate g s.paging v).isSome
  kept : ∀ v, stackPage ≤ v → v < 2 ^ 64 → translate g s.paging v = translate g initial v

/-- The call fails and changes nothing, or it returns the break it moves. -/
def Moves (s : HeapBreak) (inc : BitVec 64) : Prop :=
  ∀ result s', s.addBreak g inc = some (result, s') →
    result = 2 ^ 64 - 1 ∧ s' = s ∨
      result = s.heapBreak ∧ (s'.heapBreak : Int) = s.heapBreak + inc.toInt

/-- There are physical frames for the pages of the call, and for the tables they need. -/
def Enough (s : HeapBreak) (inc : BitVec 64) : Prop :=
  kernelHeapVirtual ≤ s.moved inc → s.pageBreak < s.moved inc →
    ∃ paging, s.pageAllocated g (s.pageCount (s.moved inc)) = some paging ∧ Served s.paging paging

/-- The new break is not above the page of the stack. -/
def Fits (s : HeapBreak) (inc : BitVec 64) : Prop := s.moved inc ≤ stackPage

/-- The heap is empty, and no larger page reaches into where it grows. -/
structure Booted (s : HeapBreak) : Prop where
  heapBreak : s.heapBreak = kernelHeapVirtual
  pageBreak : s.pageBreak = kernelHeapVirtual
  tree : Paging.Tree g s.paging
  small : ∀ v, kernelHeapVirtual ≤ v → v < stackPage → NotInside 4096 (translate g s.paging) v

/-- All calls return and move the break as they should, and it is sound all the time. -/
def KeptSound (s : HeapBreak) (calls : List (BitVec 64)) : Prop :=
  ((∃ s', Run.exec (step g) s calls = some s') ∧ Run.Always (step g) (Sound g s.paging) s calls) ∧
    Run.Admits (step g) (Moves g) s calls

structure Invariant (initial : Paging Physical) (s : HeapBreak) : Prop
    extends Sound g initial s where
  tree : Paging.Tree g s.paging
  small : ∀ v, kernelHeapVirtual ≤ v → v < stackPage → NotInside 4096 (translate g s.paging) v

end Setup

/-! ### One call -/

section Call

variable {g : PagingSetup Physical} {initial : Paging Physical} {s s' : HeapBreak} {inc : BitVec 64}
  {result v : Nat}

theorem addBreak_cases (h : s.addBreak g inc = some (result, s')) :
    (s.moved inc < kernelHeapVirtual ∧ result = 2 ^ 64 - 1 ∧ s' = s) ∨
    (kernelHeapVirtual ≤ s.moved inc ∧ result = wrap64 (s.moved inc + (-inc).toNat) ∧
      s'.heapBreak = s.moved inc ∧
      ((s.moved inc ≤ s.pageBreak ∧ s' = { s with heapBreak := s.moved inc }) ∨
        (s.pageBreak < s.moved inc ∧ s.pageAllocated g (s.pageCount (s.moved inc)) = some s'.paging ∧
          s'.pageBreak = ((s.pageBreak + 4096 * s.pageCount (s.moved inc)) % 2 ^ 64).toNat))) := by
  unfold addBreak at h
  split at h
  · next hlow =>
    obtain ⟨rfl, rfl⟩ := Prod.mk.inj (Option.some.inj h)
    exact .inl ⟨hlow, rfl, rfl⟩
  · next hlow =>
    right
    refine ⟨Nat.le_of_not_lt hlow, ?_⟩
    dsimp only at h
    split at h
    · next hgrow =>
      obtain ⟨paging, hpaging, hrest⟩ := Option.bind_eq_some_iff.mp h
      obtain ⟨rfl, rfl⟩ := Prod.mk.inj (Option.some.inj hrest)
      exact ⟨rfl, rfl, .inr ⟨hgrow, hpaging, rfl⟩⟩
    · next hgrow =>
      obtain ⟨rfl, rfl⟩ := Prod.mk.inj (Option.some.inj h)
      exact ⟨rfl, rfl, .inl ⟨Nat.le_of_not_lt hgrow, rfl⟩⟩

theorem step_eq_some (h : s.step g inc = some s') :
    ∃ result, s.addBreak g inc = some (result, s') := by
  obtain ⟨⟨result, t⟩, hcall, rfl⟩ := Option.map_eq_some_iff.mp h
  exact ⟨result, hcall⟩

theorem step_defined (henough : Enough g s inc) : ∃ s', s.step g inc = some s' := by
  unfold step addBreak
  split
  · exact ⟨_, rfl⟩
  · next hlow =>
    dsimp only
    split
    · next hgrow =>
      obtain ⟨paging, hpaging, -⟩ := henough (Nat.le_of_not_lt hlow) hgrow
      rw [hpaging]
      exact ⟨_, rfl⟩
    · exact ⟨_, rfl⟩

/-- Below 2^64 the result is the break before the call: an increment that is taken back. -/
theorem moved_back (h : s.heapBreak < 2 ^ 64) :
    wrap64 (s.moved inc + (-inc).toNat) = s.heapBreak := by
  have hinc := inc.isLt
  unfold moved wrap64
  rw [BitVec.toNat_neg]
  omega

/-- A break that stays above the start of the heap has not wrapped. -/
theorem moved_eq (hstart : kernelHeapVirtual ≤ s.heapBreak) (hend : s.heapBreak < 2 ^ 64)
    (hmoved : kernelHeapVirtual ≤ s.moved inc) : (s.moved inc : Int) = s.heapBreak + inc.toInt := by
  have hinc := inc.isLt
  unfold moved wrap64 kernelHeapVirtual at *
  rw [BitVec.toInt_eq_toNat_cond]
  split <;> omega

theorem moves (hstart : kernelHeapVirtual ≤ s.heapBreak) (hend : s.heapBreak < 2 ^ 64) :
    Moves g s inc := by
  intro result s' hcall
  rcases addBreak_cases hcall with ⟨-, hresult, rfl⟩ | ⟨hmoved, hresult, hbreak, -⟩
  · exact .inl ⟨hresult, rfl⟩
  · right
    rw [hbreak]
    exact ⟨hresult.trans (moved_back hend), moved_eq hstart hend hmoved⟩

/-- The pages of a break that fits reach up to the page of the stack at most. -/
theorem pageCount_spec (haligned : s.pageBreak % 4096 = 0) (hstart : kernelHeapVirtual ≤ s.pageBreak)
    {heapBreak : Nat} (hgrow : s.pageBreak < heapBreak) (hfits : heapBreak ≤ stackPage) :
    ∃ n : Nat, s.pageCount heapBreak = n ∧ heapBreak ≤ s.pageBreak + 4096 * n ∧
      s.pageBreak + 4096 * n ≤ stackPage := by
  have htop : stackPage % 4096 = 0 := by decide
  have hrange : stackPage = kernelHeapVirtual + 4096 * 786431 := by decide
  unfold pageCount roundUpToPageCount
  split
  · exact ⟨_, toInt_of_lt (by omega), by omega, by omega⟩
  · exact ⟨_, toInt_of_lt (by omega), by omega, by omega⟩

/-- The stack's page and what is above it have other low bits than the pages of the heap. -/
theorem not_inPages_of_below {n : Nat} (hstart : kernelHeapVirtual ≤ s.pageBreak)
    (haligned : s.pageBreak % 4096 = 0) (hend : s.pageBreak + 4096 * n ≤ stackPage)
    (hv : kernelHeapVirtual ≤ v ∧ v < s.pageBreak ∨ stackPage ≤ v ∧ v < 2 ^ 64) :
    ¬ InPages 4096 s.pageBreak n v := by
  have htop : stackPage = 18446744072635805696 := by decide
  rintro ⟨k, hk, hpage⟩
  unfold kernelHeapVirtual at *
  omega

theorem isSome_mapFrames {frames : List Nat} {flags : BitVec 32} {supportExecuteDisable : Bool}
    {f : FlatMap} (haligned : s.pageBreak % 4096 = 0) (hstart : kernelHeapVirtual ≤ s.pageBreak)
    (hlow : s.pageBreak ≤ v) (hhigh : v < s.pageBreak + 4096 * frames.length)
    (hend : s.pageBreak + 4096 * frames.length ≤ stackPage) :
    (FlatMap.mapFrames 4096 supportExecuteDisable flags frames s.pageBreak f v).isSome := by
  have htop : stackPage = 18446744072635805696 := by decide
  have hk : (v - s.pageBreak) / 4096 < frames.length := by omega
  have hpage : v % 2 ^ 48 / 4096 =
      (s.pageBreak + 4096 * ((v - s.pageBreak) / 4096)) % 2 ^ 48 / 4096 := by
    omega
  have hspan : 4096 * frames.length ≤ 2 ^ 48 := by
    unfold kernelHeapVirtual at hstart
    omega
  exact Option.isSome_iff_exists.mpr
    ⟨_, FlatMap.mapFrames_inside (a := .page) hspan (List.getElem?_eq_getElem hk) hpage⟩

/-- The frames that a break that fits is given. -/
theorem Invariant.allocated (h : Invariant g initial s) (hfits : s.moved inc ≤ stackPage)
    (hgrow : s.pageBreak < s.moved inc)
    (hpaging : s.pageAllocated g (s.pageCount (s.moved inc)) = some s'.paging)
    (hserved : Served s.paging s'.paging) :
    ∃ frames : List Nat, s.pageCount (s.moved inc) = frames.length ∧
      s.moved inc ≤ s.pageBreak + 4096 * frames.length ∧
      s.pageBreak + 4096 * frames.length ≤ stackPage ∧ Paging.Tree g s'.paging ∧
      translate g s'.paging = FlatMap.mapFrames 4096 g.supportExecuteDisable
        (mapProtRead ||| mapProtWrite) frames s.pageBreak (translate g s.paging) := by
  have hstart : kernelHeapVirtual ≤ s.pageBreak := Nat.le_trans h.start h.within
  have htop : stackPage = 18446744072635805696 := by decide
  obtain ⟨n, hcount, hcovers, hend⟩ := pageCount_spec h.aligned hstart hgrow hfits
  unfold pageAllocated Paging.pageAllocated at hpaging
  rw [hcount, Int.toNat_natCast, if_pos h.aligned] at hpaging
  have hsmall (k : Nat) (hk : k < n) :
      NotInside 4096 (translate g s.paging) (s.pageBreak + 4096 * k) :=
    h.small _ (by omega) (by omega)
  obtain ⟨frames, rfl, hstocked, htranslate⟩ :=
    h.tree.allocatePages (by omega) hsmall hpaging hserved
  exact ⟨frames, hcount, hcovers, hend, hstocked.tree, htranslate⟩

/-- The pages of a break that fits are mapped, and nothing else changes. -/
theorem Invariant.grow (h : Invariant g initial s) (hfits : s.moved inc ≤ stackPage)
    (hgrow : s.pageBreak < s.moved inc) (hbreak : s'.heapBreak = s.moved inc)
    (hpaging : s.pageAllocated g (s.pageCount (s.moved inc)) = some s'.paging)
    (hpageBreak : s'.pageBreak = ((s.pageBreak + 4096 * s.pageCount (s.moved inc)) % 2 ^ 64).toNat)
    (hserved : Served s.paging s'.paging) : Invariant g initial s' := by
  have hstart : kernelHeapVirtual ≤ s.pageBreak := Nat.le_trans h.start h.within
  have htop : stackPage = 18446744072635805696 := by decide
  have haligned := h.aligned
  obtain ⟨frames, hcount, hcovers, hend, htree, htranslate⟩ :=
    h.allocated hfits hgrow hpaging hserved
  have hpageBreak' : s'.pageBreak = s.pageBreak + 4096 * frames.length := by
    rw [hpageBreak, hcount]
    omega
  have hold {v : Nat} (hv : kernelHeapVirtual ≤ v ∧ v < s.pageBreak ∨ stackPage ≤ v ∧ v < 2 ^ 64) :
      translate g s'.paging v = translate g s.paging v := by
    rw [htranslate]
    exact FlatMap.mapFrames_outside (not_inPages_of_below hstart haligned hend hv)
  refine ⟨⟨?_, ?_, ?_, ?_, fun v hlow hhigh => ?_, fun v hlow hhigh => ?_⟩, htree,
    fun v hlow hhigh => ?_⟩
  · omega
  · omega
  · omega
  · omega
  · rcases Nat.lt_or_ge v s.pageBreak with hbelow | habove
    · rw [hold (.inl ⟨hlow, hbelow⟩)]
      exact h.mapped v hlow hbelow
    · rw [htranslate]
      exact isSome_mapFrames haligned hstart habove (hpageBreak' ▸ hhigh) hend
  · rw [hold (.inr ⟨hlow, hhigh⟩)]
    exact h.kept v hlow hhigh
  · rw [htranslate]
    exact (h.small v hlow hhigh).mapFrames _ _ _ _

theorem Invariant.step (h : Invariant g initial s) (henough : Enough g s inc) (hfits : Fits s inc)
    (hstep : s.step g inc = some s') : Invariant g initial s' := by
  obtain ⟨result, hcall⟩ := step_eq_some hstep
  rcases addBreak_cases hcall with ⟨-, -, rfl⟩ | ⟨hmoved, -, hbreak, hwithin | hgrow⟩
  · exact h
  · obtain ⟨hle, rfl⟩ := hwithin
    exact ⟨⟨h.aligned, hmoved, hle, h.below, h.mapped, h.kept⟩, h.tree, h.small⟩
  · obtain ⟨hgrow, hpaging, hpageBreak⟩ := hgrow
    obtain ⟨paging, hsame, hserved⟩ := henough hmoved hgrow
    obtain rfl := Option.some.inj (hsame.symm.trans hpaging)
    exact h.grow hfits hgrow hbreak hpaging hpageBreak hserved

/-- A break that does not fit is above the page of the stack, or above the pages of the heap. -/
theorem not_sound_of_not_fits (hfits : ¬ Fits s inc) (hstep : s.step g inc = some s') :
    ¬ Sound g initial s' := by
  obtain ⟨result, hcall⟩ := step_eq_some hstep
  have habove : stackPage < s.moved inc := Nat.lt_of_not_le hfits
  have hlow : kernelHeapVirtual ≤ stackPage := by decide
  intro hsound
  have hwithin := hsound.within
  have hbelow := hsound.below
  rcases addBreak_cases hcall with ⟨hmoved, -, -⟩ | ⟨-, -, hbreak, -⟩
  · omega
  · omega

theorem Booted.invariant (h : Booted g s) : Invariant g s.paging s := by
  have hheap : kernelHeapVirtual % 4096 = 0 ∧ kernelHeapVirtual ≤ stackPage := by decide
  refine ⟨⟨?_, h.heapBreak.ge, ?_, ?_, fun v hlow hhigh => ?_, fun _ _ _ => rfl⟩, h.tree, h.small⟩
  · rw [h.pageBreak]
    exact hheap.1
  · rw [h.heapBreak, h.pageBreak]
  · rw [h.pageBreak]
    exact hheap.2
  · rw [h.pageBreak] at hhigh
    exact absurd hhigh (Nat.not_lt.mpr hlow)

theorem Invariant.moves (h : Invariant g initial s) (inc : BitVec 64) : Moves g s inc := by
  have htop : stackPage < 2 ^ 64 := by decide
  have hwithin := h.within
  have hbelow := h.below
  exact HeapBreak.moves h.start (by omega)

/-- There are, when four clear pages lie ahead for each page of the call. -/
theorem enough_of_clear (hallocator : g.allocator = bitmapAllocator) (haligned : s.pageBreak % 4096 = 0)
    (h : 4 * (s.pageCount (s.moved inc)).toNat ≤ s.paging.frames.clearAhead.card) :
    Enough g s inc :=
  fun _ _ => pageAllocated_returns hallocator haligned h

end Call

/-- **The heap break stays sound** in a sequence of calls, with frames enough for each of them, exactly
when no call moves the break above the page of the stack. -/
theorem keptSound_iff {g : PagingSetup Physical} {s : HeapBreak} {calls : List (BitVec 64)}
    (hboot : Booted g s) (henough : Run.Admits (step g) (Enough g) s calls) :
    KeptSound g s calls ↔ Run.Admits (step g) Fits s calls := by
  have hgood (t : HeapBreak) (inc : BitVec 64) (h : Invariant g s.paging t)
      (henough : Enough g t inc) (hfits : Fits t inc) :
      ∃ t', t.step g inc = some t' ∧ Invariant g s.paging t' := by
    obtain ⟨t', ht'⟩ := step_defined henough
    exact ⟨t', ht', h.step henough hfits ht'⟩
  have hsound := Run.defined_always_iff hgood (fun _ h => h.toSound)
    (fun _ _ _ _ _ hfits => not_sound_of_not_fits hfits) hboot.invariant henough
  refine ⟨fun h => hsound.mp h.1, fun h => ⟨hsound.mpr h, ?_⟩⟩
  exact henough.of_invariant (fun _ _ _ => Invariant.step) (fun _ inc h => h.moves inc)
    hboot.invariant h

/-! ### Two machines -/

/-- A heap that has no page yet, over a PML4 table without entries. -/
def emptyHeap (frames : Physical) : HeapBreak :=
  { heapBreak := kernelHeapVirtual
    pageBreak := kernelHeapVirtual
    paging := { lonePml4 with frames } }

theorem booted_emptyHeap {frames : Physical} (hend : frames.endPhysicalPage ≤ 2 ^ 31)
    (hused : Physical.bit frames.bitmap 256 = true) : Booted loneSetup (emptyHeap frames) := by
  refine ⟨rfl, rfl, Tree.initial rfl hend (by decide) hused fun _ => rfl, fun v _ _ t ht => ?_⟩
  have hnone : translate loneSetup (emptyHeap frames).paging v = none :=
    Paging.Sound.translate_initial (fun _ => rfl) v
  cases hnone.symm.trans ht

/-- Two pages are mapped for 5000 bytes, and 3000 bytes are given back. -/
theorem keptSound_iff_back :
    let s := emptyHeap lonePml4.frames
    let calls : List (BitVec 64) := [5000#64, -3000#64]
    (Booted loneSetup s ∧ Run.Admits (step loneSetup) (Enough loneSetup) s calls) ∧
      (KeptSound loneSetup s calls ↔ Run.Admits (step loneSetup) Fits s calls) := by
  have hboot : Booted loneSetup (emptyHeap lonePml4.frames) :=
    booted_emptyHeap (by decide) (by decide)
  have hcard : 8 ≤ lonePml4.frames.clearAhead.card := by decide
  have henough : Run.Admits (step loneSetup) (Enough loneSetup) (emptyHeap lonePml4.frames)
      [5000#64, -3000#64] := by
    refine ⟨enough_of_clear rfl (by decide) hcard, fun s hs => ⟨fun _ hgrow => ?_, fun _ _ => trivial⟩⟩
    obtain ⟨result, hcall⟩ := step_eq_some hs
    rcases addBreak_cases hcall with ⟨hlow, -⟩ | ⟨-, -, hbreak, hwithin | hpages⟩
    · exact absurd hlow (by decide)
    · exact absurd hwithin.1 (by decide)
    · have hmoved : s.moved (-3000#64) = kernelHeapVirtual + 2000 := by
        unfold moved
        rw [hbreak]
        decide
      have hpageBreak : s.pageBreak = kernelHeapVirtual + 8192 := by
        rw [hpages.2.2]
        decide
      omega
  exact ⟨⟨hboot, henough⟩, keptSound_iff hboot henough⟩

/-- 16 GiB of clear pages. -/
def wideFrames : Physical := Physical.boot (fun i => if i = 4 then 1#64 else 0#64) 4194304

theorem card_wideFrames : 4194047 ≤ wideFrames.clearAhead.card := by
  have hsub : Finset.Ico 257 4194304 ⊆ wideFrames.clearAhead := by
    intro page hpage
    rw [Finset.mem_Ico] at hpage
    refine Physical.mem_clearAhead.mpr ⟨?_, ?_, ?_⟩
    · exact Nat.le_trans (by decide) hpage.1
    · exact Nat.lt_of_lt_of_le hpage.2 (by decide)
    · have hbit : page / 64 = 4 → page % 64 ≠ 0 := by omega
      unfold Physical.bit wideFrames Physical.boot bitmapBits
      dsimp only
      split
      · next hword => simp [BitVec.getLsbD_one, hbit hword]
      · exact BitVec.getLsbD_zero
  calc 4194047 = (Finset.Ico 257 4194304).card := (Nat.card_Ico 257 4194304).symm
    _ ≤ wideFrames.clearAhead.card := Finset.card_le_card hsub

/-- A first call that asks for 3 GiB moves the break to the end of the stack. -/
theorem not_keptSound_whole :
    Booted loneSetup (emptyHeap wideFrames) ∧
      Run.Admits (step loneSetup) (Enough loneSetup) (emptyHeap wideFrames) [0xC0000000#64] ∧
      ¬ KeptSound loneSetup (emptyHeap wideFrames) [0xC0000000#64] := by
  have hboot : Booted loneSetup (emptyHeap wideFrames) :=
    booted_emptyHeap (by decide) (by decide)
  have hclear : Enough loneSetup (emptyHeap wideFrames) 0xC0000000#64 :=
    enough_of_clear rfl (by decide) (Nat.le_trans (by decide) card_wideFrames)
  refine ⟨hboot, ⟨hclear, fun _ _ => trivial⟩, fun hkept => ?_⟩
  obtain ⟨s, hs⟩ := step_defined hclear
  have hfits : ¬ Fits (emptyHeap wideFrames) 0xC0000000#64 := by
    unfold Fits
    decide
  exact not_sound_of_not_fits hfits hs (hkept.1.2.2 s hs)

end HeapBreak

end Helos
