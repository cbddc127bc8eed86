import Helos.Memory.KernelMapping
import Helos.Theory.Run

/-!
# Regions of kernel mappings

Two callers of `memory_AllocateKernelMapping`: the allocating constructor of `BlockDeviceRamdisk`,
with its three tiers, and `smp_thread_Start` for a stack. A region is what the caller has mapped from
the address it is given: its size rounded up to whole pages. The address leaves room for the size
only, so that the last 2 MiB page of a ramdisk runs into the region above, unless the bottom of the
mappings happens to be aligned well.
-/

namespace Helos

/-- `SYSTEM_PAGE_2M_SIZE` -/
def systemPage2MSize : Nat := 2097152

def roundUpToPageCount (size : Nat) : Int :=
  if size % 4096 = 0 then toInt (size / 4096) else toInt (size / 4096 + 1)

def roundUpToPageCount2M (size : Nat) : Int :=
  if size % systemPage2MSize = 0 then toInt (size / systemPage2MSize)
  else toInt (size / systemPage2MSize + 1)

theorem toNat_roundUpToPageCount {size : Nat} (hsize : size < 134217728) :
    4096 * (roundUpToPageCount size).toNat < size + 4096 ∧
      size ≤ 4096 * (roundUpToPageCount size).toNat := by
  unfold roundUpToPageCount
  split
  · rw [toInt_of_lt (by omega), Int.toNat_natCast]
    omega
  · rw [toInt_of_lt (by omega), Int.toNat_natCast]
    omega

structure Region where
  start : Nat
  size : Nat

namespace Region

def Contains (r : Region) (address : Nat) : Prop := r.start ≤ address ∧ address < r.start + r.size

def Apart (r r' : Region) : Prop := ∀ address, r.Contains address → ¬ r'.Contains address

theorem apart_of_le {r r' : Region} (h : r.start + r.size ≤ r'.start) : r.Apart r' := by
  intro address hr hr'
  unfold Contains at hr hr'
  omega

end Region

/-- `memory_KernelMappingBottom` and the regions mapped so far. -/
structure KernelMappings where
  bottom : Nat
  regions : List Region

namespace KernelMappings

/-- What the constructor of `BlockDeviceRamdisk` maps, and the bottom it leaves. The smallest ones
come from `kMalloc`. -/
def ramdisk (bottom blockSize blockCount : Nat) : Nat × Option Region :=
  let bytes := wrap64 (blockSize * blockCount)
  if bytes < 4096 then (bottom, none)
  else if bytes < systemPage2MSize * 64 then
    let buffer := allocateKernelMapping bottom bytes 4096
    (buffer, some ⟨buffer, (roundUpToPageCount bytes).toNat * 4096⟩)
  else
    let buffer := allocateKernelMapping bottom bytes systemPage2MSize
    (buffer, some ⟨buffer, (roundUpToPageCount2M bytes).toNat * systemPage2MSize⟩)

def stack (bottom : Nat) : Nat × Option Region :=
  let newstack := allocateKernelMapping bottom 4096 4096
  (newstack, some ⟨newstack, 4096⟩)

inductive Creation where
  | ramdisk (blockSize blockCount : Nat)
  | stack

def add (m : KernelMappings) : Nat × Option Region → KernelMappings
  | (bottom, region) => { bottom, regions := region.toList ++ m.regions }

/-- The product of a ramdisk does not overflow, and fits below the bottom. -/
def step (m : KernelMappings) : Creation → Option KernelMappings
  | .ramdisk blockSize blockCount =>
    if blockSize * blockCount < 2 ^ 64 ∧ blockSize * blockCount ≤ m.bottom then
      some (m.add (ramdisk m.bottom blockSize blockCount))
    else none
  | .stack => some (m.add (stack m.bottom))

def boot : KernelMappings := { bottom := kernelMiscMapping, regions := [] }

/-- The regions are apart and lie below the static mappings. -/
def Separate (m : KernelMappings) : Prop :=
  m.regions.Pairwise Region.Apart ∧
    ∀ r ∈ m.regions, ∀ address, r.Contains address → address < kernelMiscMapping

/-- A ramdisk of 2 MiB pages has whole pages, or fewer bytes in its last page than there are between
a page boundary and the bottom, or so many pages that an `int` does not hold their number. A stack
has a page left. -/
def Fits (m : KernelMappings) : Creation → Prop
  | .ramdisk blockSize blockCount =>
    let bytes := blockSize * blockCount
    bytes < systemPage2MSize * 64 ∨ bytes % systemPage2MSize = 0 ∨
      m.bottom % systemPage2MSize < bytes % systemPage2MSize ∨
      2 ^ 31 ≤ bytes / systemPage2MSize + 1
  | .stack => 4096 ≤ m.bottom

/-! ### One creation -/

section Creation

variable {bottom blockSize blockCount : Nat}

/-- A number of pages that an `int` does not hold comes out smaller by 2 ^ 31 at least. -/
theorem toInt_of_ge {n : Nat} (h : 2 ^ 31 ≤ n) : (toInt n).toNat + 2 ^ 31 ≤ n := by
  unfold toInt
  split
  · rw [Int.toNat_natCast]
    omega
  · have hneg : ((n % 2 ^ 32 : Nat) : Int) - 2 ^ 32 ≤ 0 := by omega
    rw [Int.toNat_of_nonpos hneg]
    omega

theorem ramdisk_small {bytes : Nat} (hbottom : bottom < 2 ^ 64) (haligned : bottom % 4096 = 0)
    (hfit : bytes ≤ bottom) (hlow : 4096 ≤ bytes) (hhigh : bytes < 134217728) :
    let start := allocateKernelMapping bottom bytes 4096
    let size := (roundUpToPageCount bytes).toNat * 4096
    start % 4096 = 0 ∧ 0 < size ∧ start + size ≤ bottom := by
  have hstart : allocateKernelMapping bottom bytes 4096 = bottom - bytes - (bottom - bytes) % 4096 :=
    allocateKernelMapping_eq (k := 12) hbottom hfit (by decide)
  have hpages := toNat_roundUpToPageCount hhigh
  simp only [hstart]
  omega

theorem allocateKernelMapping_page2M {bytes : Nat} (hbottom : bottom < 2 ^ 64)
    (hfit : bytes ≤ bottom) :
    allocateKernelMapping bottom bytes 2097152 = bottom - bytes - (bottom - bytes) % 2097152 :=
  allocateKernelMapping_eq (k := 21) hbottom hfit (by decide)

theorem ramdisk_large {bytes : Nat} (hbottom : bottom < 2 ^ 64) (hfit : bytes ≤ bottom)
    (hfits : bytes % 2097152 = 0 ∨ bottom % 2097152 < bytes % 2097152 ∨
      2 ^ 31 ≤ bytes / 2097152 + 1) :
    let start := allocateKernelMapping bottom bytes 2097152
    let size := (roundUpToPageCount2M bytes).toNat * 2097152
    start % 2097152 = 0 ∧ start + size ≤ bottom := by
  simp only [allocateKernelMapping_page2M hbottom hfit]
  unfold roundUpToPageCount2M systemPage2MSize
  split
  · next hwhole =>
    by_cases hcount : bytes / 2097152 < 2 ^ 31
    · rw [toInt_of_lt hcount, Int.toNat_natCast]
      omega
    · have hless := toInt_of_ge (Nat.le_of_not_lt hcount)
      omega
  · next hpart =>
    by_cases hcount : bytes / 2097152 + 1 < 2 ^ 31
    · rw [toInt_of_lt hcount, Int.toNat_natCast]
      omega
    · have hless := toInt_of_ge (Nat.le_of_not_lt hcount)
      omega

theorem ramdisk_large_over {bytes : Nat} (hbottom : bottom < 2 ^ 64) (hfit : bytes ≤ bottom)
    (hpart : bytes % 2097152 ≠ 0) (hroom : bytes % 2097152 ≤ bottom % 2097152)
    (hcount : bytes / 2097152 + 1 < 2 ^ 31) :
    let start := allocateKernelMapping bottom bytes 2097152
    let size := (roundUpToPageCount2M bytes).toNat * 2097152
    start ≤ bottom ∧ bottom < start + size := by
  simp only [allocateKernelMapping_page2M hbottom hfit]
  unfold roundUpToPageCount2M systemPage2MSize
  rw [if_neg hpart, toInt_of_lt hcount, Int.toNat_natCast]
  omega

end Creation

/-! ### The invariant -/

/-- The regions lie between the bottom and the static mappings, and one of them begins at the bottom
whenever that is not aligned to large pages. -/
structure Invariant (m : KernelMappings) : Prop where
  bottom : m.bottom ≤ kernelMiscMapping
  aligned : m.bottom % 4096 = 0
  regions : ∀ r ∈ m.regions, m.bottom ≤ r.start ∧ r.start + r.size ≤ kernelMiscMapping
  apart : m.regions.Pairwise Region.Apart
  corner : m.bottom % 2097152 ≠ 0 → ∃ r ∈ m.regions, r.Contains m.bottom

section Step

variable {m m' : KernelMappings}

theorem invariant_boot : boot.Invariant :=
  ⟨Nat.le_refl _, by decide, by simp [boot], by simp [boot], fun h => absurd (by decide) h⟩

theorem Invariant.separate (h : m.Invariant) : m.Separate := by
  refine ⟨h.apart, fun r hr address haddress => ?_⟩
  have hend := (h.regions r hr).2
  unfold Region.Contains at haddress
  omega

theorem Invariant.add (h : m.Invariant) {r : Region} (haligned : r.start % 4096 = 0)
    (hend : r.start + r.size ≤ m.bottom) (hcorner : 0 < r.size ∨ r.start % 2097152 = 0) :
    (m.add (r.start, some r)).Invariant := by
  have hbottom := h.bottom
  refine ⟨?_, haligned, fun x hx => ?_, List.pairwise_cons.mpr ⟨fun x hx => ?_, h.apart⟩,
    fun hodd => ⟨r, List.mem_cons_self, ?_⟩⟩
  · simp only [KernelMappings.add]
    omega
  · simp only [KernelMappings.add]
    rcases List.mem_cons.mp hx with rfl | hx
    · omega
    · obtain ⟨hlow, hhigh⟩ := h.regions x hx
      omega
  · exact Region.apart_of_le (Nat.le_trans hend (h.regions x hx).1)
  · simp only [KernelMappings.add] at hodd ⊢
    unfold Region.Contains
    omega

theorem Invariant.step (h : m.Invariant) {creation : Creation} (hstep : m.step creation = some m')
    (hfits : m.Fits creation) : m'.Invariant := by
  have hmisc : kernelMiscMapping < 2 ^ 64 := by decide
  have hbottom := h.bottom
  cases creation with
  | ramdisk blockSize blockCount =>
    simp only [KernelMappings.step] at hstep
    split at hstep
    · next hcall =>
      obtain rfl := Option.some.inj hstep
      have hwrap : wrap64 (blockSize * blockCount) = blockSize * blockCount := wrap64_of_lt hcall.1
      simp only [Fits, systemPage2MSize] at hfits
      unfold ramdisk systemPage2MSize
      simp only [hwrap]
      generalize blockSize * blockCount = bytes at hcall hfits
      by_cases hmalloc : bytes < 4096
      · rw [if_pos hmalloc]
        exact h
      · rw [if_neg hmalloc]
        by_cases hsmall : bytes < 2097152 * 64
        · rw [if_pos hsmall]
          obtain ⟨haligned, hpos, hend⟩ :=
            ramdisk_small (by omega) h.aligned hcall.2 (Nat.le_of_not_lt hmalloc) hsmall
          exact Invariant.add h (r := ⟨_, _⟩) haligned hend (.inl hpos)
        · rw [if_neg hsmall]
          obtain ⟨haligned, hend⟩ :=
            ramdisk_large (by omega) hcall.2 (hfits.resolve_left hsmall)
          have hpage : allocateKernelMapping m.bottom bytes 2097152 % 4096 = 0 := by omega
          exact Invariant.add h (r := ⟨_, _⟩) hpage hend (.inr haligned)
    · cases hstep
  | stack =>
    obtain rfl := Option.some.inj hstep
    have hroom : 4096 ≤ m.bottom := hfits
    have hstart : allocateKernelMapping m.bottom 4096 4096 =
        m.bottom - 4096 - (m.bottom - 4096) % 4096 :=
      allocateKernelMapping_eq (k := 12) (by omega) hroom (by decide)
    have haligned : allocateKernelMapping m.bottom 4096 4096 % 4096 = 0 := by
      rw [hstart]
      omega
    have hend : allocateKernelMapping m.bottom 4096 4096 + 4096 ≤ m.bottom := by
      rw [hstart]
      omega
    exact Invariant.add h (r := ⟨_, 4096⟩) haligned hend (.inl (Nat.succ_pos 4095))

theorem Invariant.not_separate (h : m.Invariant) {creation : Creation}
    (hstep : m.step creation = some m') (hfits : ¬ m.Fits creation) : ¬ m'.Separate := by
  have hmisc : kernelMiscMapping < 2 ^ 64 := by decide
  have hbottom := h.bottom
  cases creation with
  | ramdisk blockSize blockCount =>
    simp only [KernelMappings.step] at hstep
    split at hstep
    · next hcall =>
      obtain rfl := Option.some.inj hstep
      have hwrap : wrap64 (blockSize * blockCount) = blockSize * blockCount := wrap64_of_lt hcall.1
      simp only [Fits, systemPage2MSize, not_or] at hfits
      unfold ramdisk systemPage2MSize
      simp only [hwrap]
      generalize blockSize * blockCount = bytes at hcall hfits
      obtain ⟨hlarge, hpart, hroom, hcount⟩ := hfits
      rw [if_neg (by omega), if_neg hlarge]
      obtain ⟨hstart, hover⟩ :=
        ramdisk_large_over (by omega) hcall.2 hpart (by omega) (by omega)
      obtain ⟨r, hr, hcontains⟩ := h.corner (by omega)
      intro hseparate
      exact (List.pairwise_cons.mp hseparate.1).1 r hr m.bottom ⟨hstart, hover⟩ hcontains
    · cases hstep
  | stack =>
    obtain rfl := Option.some.inj hstep
    have hroom : m.bottom < 4096 := Nat.lt_of_not_le hfits
    have hstart : allocateKernelMapping m.bottom 4096 4096 =
        m.bottom + (2 ^ 64 - 4096) - (m.bottom + (2 ^ 64 - 4096)) % 4096 :=
      allocateKernelMapping_of_lt (k := 12) hroom (by decide) (by decide)
    have haligned := h.aligned
    intro hseparate
    have hlt := hseparate.2 _ List.mem_cons_self (2 ^ 64 - 4096) ⟨by simp only; omega, by simp only; omega⟩
    revert hlt
    decide

end Step

/-- **Regions stay separate** in a sequence of creations exactly when each of them fits. -/
theorem separate_iff_fits (creations : List Creation) :
    Run.Always step Separate boot creations ↔ Run.EachStep step Fits boot creations :=
  Run.always_iff_eachStep (fun _ _ _ h hstep hfits => h.step hstep hfits)
    (fun _ h => h.separate) (fun _ _ _ h hstep hfits => h.not_separate hstep hfits) invariant_boot

/-- A stack, and a ramdisk of 64 large pages and one byte. -/
def stackThenRamdisk : List Creation := [.stack, .ramdisk 134217729 1]

theorem ramdisk_over_stack :
    ∃ m, Run.exec step boot stackThenRamdisk = some m ∧ ¬ m.Separate := by
  have hrun : (Run.exec step boot stackThenRamdisk).map (fun m =>
      m.regions.map fun r => (r.start, r.size)) =
      some [(kernelMiscMapping - 136314880, 136314880), (kernelMiscMapping - 4096, 4096)] := by
    decide
  obtain ⟨m, hm, hregions⟩ := Option.map_eq_some_iff.mp hrun
  refine ⟨m, hm, fun hseparate => ?_⟩
  match hr : m.regions with
  | [⟨start, size⟩, ⟨start', size'⟩] =>
    simp only [hr, List.map_cons, List.map_nil, List.cons.injEq, Prod.mk.injEq, and_true] at hregions
    obtain ⟨⟨rfl, rfl⟩, rfl, rfl⟩ := hregions
    have hpair := hseparate.1
    rw [hr] at hpair
    have hapart := (List.pairwise_cons.mp hpair).1 _ List.mem_cons_self (kernelMiscMapping - 1)
    refine hapart ⟨?_, ?_⟩ ⟨?_, ?_⟩ <;> decide
  | [] => simp [hr] at hregions
  | [_] => simp [hr] at hregions
  | _ :: _ :: _ :: _ => simp [hr] at hregions

end KernelMappings

end Helos
