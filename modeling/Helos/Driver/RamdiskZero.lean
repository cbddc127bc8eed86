import Helos.Driver.RamdiskSpec
import Helos.Memory.AllocateUndo
import Helos.Memory.KernelRegions

/-!
# What a new ramdisk holds

The allocating constructor of `BlockDeviceRamdisk` takes its buffer from `kMalloc` or maps pages of its own.
The frames of such pages are zeroed, a block of `kMalloc` is not, and of 2 MiB pages only the first of each
buffer of frames is mapped.
-/

namespace Helos

open Paging

def Permission.toFlags (perm : Permission) : BitVec 32 :=
  (if perm.read then 4 else 0) ||| (if perm.write then 2 else 0) ||| (if perm.execute then 1 else 0)

/-- A block from `kMalloc`, with what it held before. -/
structure HeapBlock where
  address : Nat
  contents : Nat → UInt8

/-! ### Bytes -/

namespace Paging

variable {σ : Type}

/-- A byte of physical memory, of which the tables are entries of 8 bytes. -/
def physicalByte (s : Paging σ) (x : Nat) : UInt8 :=
  UInt8.ofNat (s.memory (x / 4096 * 4096) (x % 4096 / 8) / 256 ^ (x % 8))

/-- What the processor reads at an address, unless the page is not present. -/
def readByte (g : PagingSetup σ) (s : Paging σ) (v : Nat) : Option UInt8 :=
  (translate g s v).map fun t => physicalByte s t.physical

end Paging

/-- `memcpy` from memory that may not be mapped. -/
def copied (bytes : Nat → Option UInt8) : Nat → Nat → Option (List UInt8)
  | _, 0 => some []
  | address, length + 1 =>
    (bytes address).bind fun b => (copied bytes (address + 1) length).map fun rest => b :: rest

/-- `ReadBlock`, from memory that may not be mapped. -/
def Ramdisk.readMapped (d : Ramdisk) (bytes : Nat → Option UInt8) (offset count : UInt64) : Option Transfer :=
  if ¬ d.perm.read then some refused
  else
    let count := d.clamp offset count
    let length := (d.blocksize * count).toNat
    (copied bytes (d.address offset) length).map fun data =>
      { count, address := d.address offset, length, data }

/-! ### The constructor -/

/-- The device, the page tables and the bytes that its buffer is read from. -/
structure NewRamdisk where
  ramdisk : Ramdisk
  paging : Paging Physical
  bytes : Nat → Option UInt8

section Construct

variable (g : PagingSetup Physical) (block : HeapBlock) (s : Paging Physical) (bottom : Nat)
  (blockSize blockCount : UInt64) (perm : Permission)

/-- The buffer has to lie in the address space. -/
def ramdiskAt (buffer : Nat) (paging : Paging Physical) (bytes : Nat → Option UInt8) : Option NewRamdisk :=
  if h : buffer + blockSize.toNat * blockCount.toNat < 2 ^ 64 then
    some { ramdisk := ⟨blockSize, blockCount, buffer, perm, h⟩, paging, bytes }
  else none

def ramdiskOfPages (a : Allocation) (buffer : Nat) (pages : Int) : Option NewRamdisk :=
  (a.run g perm.toFlags s buffer pages.toNat).bind fun s' =>
    ramdiskAt blockSize blockCount perm buffer s' (readByte g s')

/-- The constructor. `kMalloc` has returned the block, and `bottom` is `memory_KernelMappingBottom`. -/
def newRamdisk : Option NewRamdisk :=
  let bytes := (blockSize * blockCount).toNat
  if bytes < systemPageSize then
    ramdiskAt blockSize blockCount perm block.address s fun v => some (block.contents (v - block.address))
  else if bytes < systemPage2MSize * 64 then
    ramdiskOfPages g s blockSize blockCount perm .page (allocateKernelMapping bottom bytes systemPageSize)
      (roundUpToPageCount bytes)
  else
    ramdiskOfPages g s blockSize blockCount perm .page2M (allocateKernelMapping bottom bytes systemPage2MSize)
      (roundUpToPageCount2M bytes)

end Construct

/-- No byte that is written is one of a block's. -/
def Ramdisk.Call.Spares (d : Ramdisk) (i : Nat) : Ramdisk.Call → Prop
  | .read _ _ => True
  | .write offset count _ => d.perm.write = true →
    Disjoint (Set.Ico (d.address offset) (d.address offset + (d.blocksize * d.clamp offset count).toNat))
      (Set.Ico (d.buffer + d.blocksize.toNat * i) (d.buffer + d.blocksize.toNat * (i + 1)))

/-- Every block is read, as zeros, and still is after any calls that have not written to it. -/
structure NewRamdisk.ReadsZero (d : NewRamdisk) : Prop where
  created : ∀ i < d.ramdisk.blockcount, ∃ t, d.ramdisk.readMapped d.bytes i 1 = some t ∧
    t.data = List.replicate d.ramdisk.blocksize.toNat 0
  unwritten : ∀ m : Nat → UInt8, (∀ v b, d.bytes v = some b → m v = b) →
    ∀ i < d.ramdisk.blockcount, ∀ calls : List Ramdisk.Call, (∀ c ∈ calls, c.Spares d.ramdisk i.toNat) →
      (d.ramdisk.readBlock (d.ramdisk.after m calls) i 1).data =
        List.replicate d.ramdisk.blocksize.toNat 0

/-- The product does not overflow, there is room below the bottom, and nothing is mapped there yet. -/
structure RoomBelow (g : PagingSetup Physical) (s : Paging Physical) (bottom : Nat)
    (blockSize blockCount : UInt64) : Prop where
  bottom_le : bottom ≤ kernelMiscMapping
  product_lt : blockSize.toNat * blockCount.toNat < 2 ^ 64
  product_le : blockSize.toNat * blockCount.toNat ≤ bottom
  unmapped : ∀ v < bottom, (KernelMappings.ramdisk bottom blockSize.toNat blockCount.toNat).1 ≤ v →
    translate g s v = none

/-! ### Reads -/

theorem copied_zero_iff {bytes : Nat → Option UInt8} {address length : Nat} :
    copied bytes address length = some (List.replicate length 0) ↔
      ∀ j < length, bytes (address + j) = some 0 := by
  induction length generalizing address with
  | zero => exact ⟨fun _ _ hj => absurd hj (Nat.not_lt_zero _), fun _ => rfl⟩
  | succ length ih =>
    constructor
    · intro h j hj
      obtain ⟨b, hb, h⟩ := Option.bind_eq_some_iff.mp h
      obtain ⟨rest, hrest, h⟩ := Option.map_eq_some_iff.mp h
      obtain ⟨rfl, rfl⟩ := List.cons.inj h
      cases j with
      | zero => exact hb
      | succ j =>
        have hnext := ih.mp hrest j (Nat.lt_of_succ_lt_succ hj)
        rwa [Nat.add_assoc, Nat.add_comm 1] at hnext
    · intro h
      refine Option.bind_eq_some_iff.mpr ⟨0, h 0 (Nat.succ_pos _), Option.map_eq_some_iff.mpr ⟨_, ?_, rfl⟩⟩
      refine ih.mpr fun j hj => ?_
      rw [Nat.add_assoc, Nat.add_comm 1]
      exact h (j + 1) (Nat.succ_lt_succ hj)

namespace Ramdisk

variable {d : Ramdisk} {m : Nat → UInt8} {c : Call} {calls : List Call}

theorem block_step_spared {i : Nat} (h : c.Spares d i) : d.block (d.step m c).1 i = d.block m i := by
  cases c with
  | read offset count => rfl
  | write offset count data =>
    change d.block (d.writeBlock m offset data count).1 i = d.block m i
    unfold writeBlock
    by_cases hwrite : d.perm.write = true
    · rw [if_neg (not_not.mpr hwrite)]
      apply Cells.read_congr
      intro j hj
      have hmem : d.buffer + d.blocksize.toNat * i + j ∈
          Set.Ico (d.buffer + d.blocksize.toNat * i) (d.buffer + d.blocksize.toNat * (i + 1)) := by
        rw [Nat.mul_succ, ← Nat.add_assoc]
        exact ⟨Nat.le_add_right _ _, Nat.add_lt_add_left hj _⟩
      refine Cells.write_apply_outside fun hwritten => ?_
      rw [Cells.length_read] at hwritten
      exact Set.disjoint_left.mp (h hwrite) hwritten hmem
    · rw [if_pos hwrite]

theorem block_after_spared {i : Nat} (h : ∀ c ∈ calls, c.Spares d i) :
    d.block (d.after m calls) i = d.block m i := by
  induction calls using List.reverseRecOn with
  | nil => rfl
  | append_singleton calls c ih =>
    rw [List.forall_mem_append] at h
    rw [after, Refinement.replies_concat, block_step_spared (h.2 c List.mem_cons_self)]
    exact ih h.1

theorem readBlock_one (hread : d.perm.read = true) {i : UInt64} (hi : i < d.blockcount) :
    (d.readBlock m i 1).data = d.block m i.toNat := by
  have hle : i ≤ d.blockcount := UInt64.le_of_lt hi
  have hlt := UInt64.lt_iff_toNat_lt.mp hi
  have hone : (Call.read i 1).transferred d = 1 := by
    rw [Call.transferred, Block.transferred, Call.offset, Call.count, UInt64.toNat_one]
    rw [if_pos (Nat.le_of_lt hlt)]
    omega
  have hdata : (d.step m (.read i 1)).2.data = _ := step_data hread hle
  rw [hone] at hdata
  exact hdata.trans (by simp)

end Ramdisk

section Device

variable {d : NewRamdisk}

theorem NewRamdisk.readMapped_eq (hread : d.ramdisk.perm.read = true) {i : UInt64}
    (hi : i < d.ramdisk.blockcount) :
    d.ramdisk.readMapped d.bytes i 1 = (copied d.bytes
      (d.ramdisk.buffer + d.ramdisk.blocksize.toNat * i.toNat) d.ramdisk.blocksize.toNat).map fun data =>
        { count := 1, address := d.ramdisk.buffer + d.ramdisk.blocksize.toNat * i.toNat
          length := d.ramdisk.blocksize.toNat, data } := by
  have hle : i ≤ d.ramdisk.blockcount := UInt64.le_of_lt hi
  have hlt := UInt64.lt_iff_toNat_lt.mp hi
  have hone : d.ramdisk.clamp i 1 = 1 := by
    apply UInt64.toNat_inj.mp
    rw [Ramdisk.clamp_toNat hle, UInt64.toNat_one]
    omega
  unfold Ramdisk.readMapped
  rw [if_neg (not_not.mpr hread), hone]
  simp only [UInt64.mul_one, Ramdisk.address_eq hle]

theorem NewRamdisk.readsZero_iff_bytes (hread : d.ramdisk.perm.read = true) :
    d.ReadsZero ↔ ∀ x < d.ramdisk.blocksize.toNat * d.ramdisk.blockcount.toNat,
      d.bytes (d.ramdisk.buffer + x) = some 0 := by
  set size := d.ramdisk.blocksize.toNat with hsize
  have hblock {i : UInt64} (hi : i < d.ramdisk.blockcount) :
      (∃ t, d.ramdisk.readMapped d.bytes i 1 = some t ∧ t.data = List.replicate size 0) ↔
        ∀ j < size, d.bytes (d.ramdisk.buffer + size * i.toNat + j) = some 0 := by
    rw [NewRamdisk.readMapped_eq hread hi, ← copied_zero_iff]
    constructor
    · rintro ⟨t, ht, hdata⟩
      obtain ⟨data, hcopied, rfl⟩ := Option.map_eq_some_iff.mp ht
      exact hcopied.trans (congrArg some hdata)
    · intro hcopied
      exact ⟨_, Option.map_eq_some_iff.mpr ⟨_, hcopied, rfl⟩, rfl⟩
  constructor
  · rintro ⟨h, -⟩ x hx
    have hpos : 0 < size := Nat.pos_of_mul_pos_right (Nat.zero_lt_of_lt hx)
    have hi : x / size < d.ramdisk.blockcount.toNat := Nat.div_lt_of_lt_mul hx
    have hnat : (UInt64.ofNat (x / size)).toNat = x / size :=
      UInt64.toNat_ofNat_of_lt' (hi.trans d.ramdisk.blockcount.toNat_lt)
    have hlt : UInt64.ofNat (x / size) < d.ramdisk.blockcount := by
      rw [UInt64.lt_iff_toNat_lt, hnat]
      exact hi
    have hbyte := (hblock hlt).mp (h _ hlt) (x % size) (Nat.mod_lt _ hpos)
    rwa [hnat, Nat.add_assoc, Nat.div_add_mod] at hbyte
  · intro h
    have hzero {i : UInt64} (hi : i < d.ramdisk.blockcount) (j : Nat) (hj : j < size) :
        d.bytes (d.ramdisk.buffer + size * i.toNat + j) = some 0 := by
      rw [Nat.add_assoc]
      apply h
      calc size * i.toNat + j < size * i.toNat + size := Nat.add_lt_add_left hj _
        _ = size * (i.toNat + 1) := (Nat.mul_succ _ _).symm
        _ ≤ size * d.ramdisk.blockcount.toNat := Nat.mul_le_mul_left _ (UInt64.lt_iff_toNat_lt.mp hi)
    refine ⟨fun i hi => (hblock hi).mpr (hzero hi), fun m hm i hi calls hspared => ?_⟩
    rw [Ramdisk.readBlock_one hread hi, Ramdisk.block_after_spared hspared]
    refine List.eq_replicate_iff.mpr ⟨Cells.length_read _ _ _, fun b hb => ?_⟩
    obtain ⟨j, rfl⟩ := List.mem_ofFn.mp hb
    exact hm _ _ (hzero hi j j.isLt)

end Device

/-! ### Pages -/

namespace Paging

variable {g : PagingSetup Physical} {s s' : Paging Physical} {flags : BitVec 32} {virt pageCount : Nat}

theorem physicalByte_zero {frame r : Nat} (halign : frame % 4096 = 0) (hr : r < 4096)
    (hzero : s.memory frame = fun _ => 0) : physicalByte s (frame + r) = 0 := by
  have hbase : (frame + r) / 4096 * 4096 = frame := by omega
  unfold physicalByte
  rw [hbase, hzero, Nat.zero_div]
  rfl

theorem readByte_page (htree : Tree g s) (hend : virt + 4096 * pageCount < 2 ^ 64)
    (hspan : 4096 * pageCount ≤ 2 ^ 48)
    (hnone : ∀ k < pageCount, translate g s (virt + 4096 * k) = none)
    (hrun : Allocation.page.run g flags s virt pageCount = some s') (hserved : Served s s') {x : Nat}
    (hx : x < 4096 * pageCount) : readByte g s' (virt + x) = some 0 := by
  obtain ⟨halign, hpages⟩ := Option.ite_none_right_eq_some.mp hrun
  have hsmall (k : Nat) (hk : k < pageCount) : NotInside 4096 (translate g s) (virt + 4096 * k) :=
    notInside_of_none (hnone k hk)
  obtain ⟨frames, rfl, hstock, htranslate, -, hzero⟩ :=
    htree.allocatePages_zeroed hend hsmall hpages hserved
  have hk : x / 4096 < frames.length := by omega
  have hr : x % 4096 < 4096 := Nat.mod_lt x (by decide)
  have hframe : frames[x / 4096]? = some frames[x / 4096] := List.getElem?_eq_getElem hk
  have hmem : frames[x / 4096] ∈ frames := List.getElem_mem hk
  have hmapped := mapped_frame (a := .page) htranslate halign hspan hframe hr
  have haddress : virt + Allocation.page.pageSize * (x / 4096) + x % 4096 = virt + x := by
    simp only [Allocation.pageSize]
    omega
  rw [haddress] at hmapped
  unfold readByte
  rw [hmapped, Option.map_some]
  simp only [Translation.asked, Allocation.pageSize, Nat.mod_mod]
  rw [physicalByte_zero (hstock.frame _ hmem).1 hr (hzero _ hmem)]

theorem readByte_page2M (htree : Tree g s) (hend : virt + 2097152 * pageCount < 2 ^ 64)
    (hnone : ∀ k < pageCount, translate g s (virt + 2097152 * k) = none)
    (hrun : Allocation.page2M.run g flags s virt pageCount = some s') (hserved : Served s s')
    (hsecond : translate g s (virt + 2097152) = none) : readByte g s' (virt + 2097152) = none := by
  obtain ⟨halign, hpages⟩ := Option.ite_none_right_eq_some.mp hrun
  have hsmall (k : Nat) (hk : k < pageCount) : NotInside 2097152 (translate g s) (virt + 2097152 * k) :=
    notInside_of_none (hnone k hk)
  have hsame := htree.allocatePages2M_elsewhere hend hsmall hpages hserved (w := virt + 2097152) (by omega)
  unfold readByte
  rw [hsame, hsecond, Option.map_none]

end Paging

/-! ### The tiers -/

section Tiers

variable {g : PagingSetup Physical} {block : HeapBlock} {s s' : Paging Physical} {bottom buffer : Nat}
  {blockSize blockCount : UInt64} {perm : Permission} {bytes : Nat → Option UInt8} {d : NewRamdisk}

theorem toNat_toInt_le (n : Nat) : (toInt n).toNat ≤ n := Int.toNat_le.mpr (toInt_le n)

theorem toNat_roundUpToPageCount2M (size : Nat) :
    2097152 * (roundUpToPageCount2M size).toNat < size + 2097152 := by
  unfold roundUpToPageCount2M systemPage2MSize
  split
  · have hle := toNat_toInt_le (size / 2097152)
    omega
  · have hle := toNat_toInt_le (size / 2097152 + 1)
    omega

theorem ramdiskAt_eq_some (hfits : buffer + blockSize.toNat * blockCount.toNat < 2 ^ 64) :
    ramdiskAt blockSize blockCount perm buffer s' bytes =
      some ⟨⟨blockSize, blockCount, buffer, perm, hfits⟩, s', bytes⟩ :=
  dif_pos hfits

theorem readsZero_of_ramdiskAt (hread : perm.read = true)
    (h : ramdiskAt blockSize blockCount perm buffer s' bytes = some d) : d.paging = s' ∧
      (d.ReadsZero ↔ ∀ x < blockSize.toNat * blockCount.toNat, bytes (buffer + x) = some 0) := by
  unfold ramdiskAt at h
  split at h
  · obtain rfl := Option.some.inj h
    exact ⟨rfl, NewRamdisk.readsZero_iff_bytes hread⟩
  · cases h

theorem readsZero_of_pages {a : Allocation} {pages : Int} (hread : perm.read = true)
    (h : ramdiskOfPages g s blockSize blockCount perm a buffer pages = some d) :
    a.run g perm.toFlags s buffer pages.toNat = some d.paging ∧
      (d.ReadsZero ↔ ∀ x < blockSize.toNat * blockCount.toNat,
        readByte g d.paging (buffer + x) = some 0) := by
  obtain ⟨s', hrun, hdevice⟩ := Option.bind_eq_some_iff.mp h
  obtain ⟨hpaging, hreads⟩ := readsZero_of_ramdiskAt hread hdevice
  rw [hpaging]
  exact ⟨hrun, hreads⟩

section Room

variable (hroom : RoomBelow g s bottom blockSize blockCount)

include hroom

theorem RoomBelow.toNat_mul : (blockSize * blockCount).toNat = blockSize.toNat * blockCount.toNat :=
  (UInt64.toNat_mul _ _).trans (Nat.mod_eq_of_lt hroom.product_lt)

theorem RoomBelow.bottom_lt : bottom + 2 * 2097152 < 2 ^ 64 := by
  have hle := hroom.bottom_le
  have hmisc : kernelMiscMapping + 2 * 2097152 < 2 ^ 64 := by decide
  omega

theorem newRamdisk_malloc (hsmall : blockSize.toNat * blockCount.toNat < 4096) :
    newRamdisk g block s bottom blockSize blockCount perm =
      ramdiskAt blockSize blockCount perm block.address s fun v =>
        some (block.contents (v - block.address)) := by
  unfold newRamdisk
  rw [hroom.toNat_mul]
  exact if_pos hsmall

theorem readsZero_malloc (hread : perm.read = true) (hsmall : blockSize.toNat * blockCount.toNat < 4096)
    (h : newRamdisk g block s bottom blockSize blockCount perm = some d) :
    d.ReadsZero ↔ ∀ x < blockSize.toNat * blockCount.toNat, block.contents x = 0 := by
  have hdevice := (newRamdisk_malloc hroom hsmall).symm.trans h
  rw [(readsZero_of_ramdiskAt hread hdevice).2]
  refine forall₂_congr fun x _ => ?_
  rw [Nat.add_sub_cancel_left, Option.some_inj]

theorem newRamdisk_page (hlow : 4096 ≤ blockSize.toNat * blockCount.toNat)
    (hhigh : blockSize.toNat * blockCount.toNat < 134217728) :
    newRamdisk g block s bottom blockSize blockCount perm = ramdiskOfPages g s blockSize blockCount perm .page
      (allocateKernelMapping bottom (blockSize.toNat * blockCount.toNat) 4096)
      (roundUpToPageCount (blockSize.toNat * blockCount.toNat)) := by
  unfold newRamdisk
  rw [hroom.toNat_mul]
  exact (if_neg (Nat.not_lt.mpr hlow)).trans (if_pos hhigh)

theorem newRamdisk_page2M (hlow : 134217728 ≤ blockSize.toNat * blockCount.toNat) :
    newRamdisk g block s bottom blockSize blockCount perm = ramdiskOfPages g s blockSize blockCount perm .page2M
      (allocateKernelMapping bottom (blockSize.toNat * blockCount.toNat) 2097152)
      (roundUpToPageCount2M (blockSize.toNat * blockCount.toNat)) := by
  unfold newRamdisk
  rw [hroom.toNat_mul]
  have hpages : ¬ blockSize.toNat * blockCount.toNat < systemPageSize :=
    Nat.not_lt.mpr (Nat.le_trans (by decide) hlow)
  exact (if_neg hpages).trans (if_neg (Nat.not_lt.mpr hlow))

theorem RoomBelow.unmapped_page (hlow : 4096 ≤ blockSize.toNat * blockCount.toNat)
    (hhigh : blockSize.toNat * blockCount.toNat < 134217728) {v : Nat} (hv : v < bottom)
    (hstart : allocateKernelMapping bottom (blockSize.toNat * blockCount.toNat) 4096 ≤ v) :
    translate g s v = none := by
  apply hroom.unmapped v hv
  unfold KernelMappings.ramdisk
  rw [wrap64_of_lt hroom.product_lt, if_neg (Nat.not_lt.mpr hlow)]
  exact (congrArg Prod.fst (if_pos hhigh)).trans_le hstart

theorem RoomBelow.unmapped_page2M (hlow : 134217728 ≤ blockSize.toNat * blockCount.toNat) {v : Nat}
    (hv : v < bottom)
    (hstart : allocateKernelMapping bottom (blockSize.toNat * blockCount.toNat) 2097152 ≤ v) :
    translate g s v = none := by
  apply hroom.unmapped v hv
  unfold KernelMappings.ramdisk
  rw [wrap64_of_lt hroom.product_lt, if_neg (Nat.not_lt.mpr (Nat.le_trans (by decide) hlow))]
  exact (congrArg Prod.fst (if_neg (Nat.not_lt.mpr hlow))).trans_le hstart

theorem readsZero_page (hread : perm.read = true) (htree : Paging.Tree g s)
    (hlow : 4096 ≤ blockSize.toNat * blockCount.toNat)
    (hhigh : blockSize.toNat * blockCount.toNat < 134217728)
    (h : newRamdisk g block s bottom blockSize blockCount perm = some d) (hserved : Served s d.paging) :
    d.ReadsZero := by
  rw [newRamdisk_page hroom hlow hhigh] at h
  obtain ⟨hrun, hreads⟩ := readsZero_of_pages hread h
  rw [hreads]
  intro x hx
  have hnone (v : Nat) (hv : v < bottom) := hroom.unmapped_page hlow hhigh hv
  have hlt := hroom.bottom_lt
  have hstart := allocateKernelMapping_eq (k := 12) (by omega : bottom < 2 ^ 64) hroom.product_le (by decide)
  obtain ⟨hcount, hcount'⟩ := toNat_roundUpToPageCount hhigh
  have hfits := hroom.product_le
  generalize blockSize.toNat * blockCount.toNat = size at *
  change allocateKernelMapping bottom size 4096 = _ - _ % 4096 at hstart
  apply readByte_page htree (by omega) (by omega) (fun k hk => ?_) hrun hserved (by omega)
  exact hnone _ (by omega) (Nat.le_add_right _ _)

theorem not_readsZero_page2M (hread : perm.read = true) (htree : Paging.Tree g s)
    (hlow : 134217728 ≤ blockSize.toNat * blockCount.toNat)
    (h : newRamdisk g block s bottom blockSize blockCount perm = some d) (hserved : Served s d.paging) :
    ¬ d.ReadsZero := by
  rw [newRamdisk_page2M hroom hlow] at h
  obtain ⟨hrun, hreads⟩ := readsZero_of_pages hread h
  rw [hreads]
  intro hzero
  have hsecond := hzero 2097152 (Nat.lt_of_lt_of_le (by decide) hlow)
  have hnone (v : Nat) (hv : v < bottom) := hroom.unmapped_page2M hlow hv
  have hlt := hroom.bottom_lt
  have hstart := allocateKernelMapping_eq (k := 21) (by omega : bottom < 2 ^ 64) hroom.product_le (by decide)
  have hcount := toNat_roundUpToPageCount2M (blockSize.toNat * blockCount.toNat)
  have hfits := hroom.product_le
  generalize blockSize.toNat * blockCount.toNat = size at *
  change allocateKernelMapping bottom size 2097152 = _ - _ % 2097152 at hstart
  have habsent := readByte_page2M htree (by omega)
    (fun k hk => hnone _ (by omega) (Nat.le_add_right _ _)) hrun hserved
    (hnone _ (by omega) (Nat.le_add_right _ _))
  rw [habsent] at hsecond
  cases hsecond

end Room

/-- What the constructor needs: room, and frames or a block. -/
structure Created (g : PagingSetup Physical) (address : Nat) (s : Paging Physical) (bottom : Nat)
    (blockSize blockCount : UInt64) (perm : Permission) : Prop where
  tree : Paging.Tree g s
  room : RoomBelow g s bottom blockSize blockCount
  returns : ∀ contents, ∃ d, newRamdisk g ⟨address, contents⟩ s bottom blockSize blockCount perm = some d ∧
    Served s d.paging

/-- **Initial contents.** Whatever the heap held, a new ramdisk is read as zeros exactly when it is empty or
has 4 KiB pages. -/
theorem readsZero_iff {address : Nat} (hread : perm.read = true)
    (h : Created g address s bottom blockSize blockCount perm) :
    (∀ contents d, newRamdisk g ⟨address, contents⟩ s bottom blockSize blockCount perm = some d →
      d.ReadsZero) ↔
      blockSize.toNat * blockCount.toNat = 0 ∨
        4096 ≤ blockSize.toNat * blockCount.toNat ∧ blockSize.toNat * blockCount.toNat < 134217728 := by
  constructor
  · intro hzero
    by_contra hsize
    obtain ⟨d, hd, hserved⟩ := h.returns fun _ => 1
    have hreads := hzero _ d hd
    by_cases hsmall : blockSize.toNat * blockCount.toNat < 4096
    · have hone := (readsZero_malloc h.room hread hsmall hd).mp hreads 0 (by omega)
      cases hone
    · exact not_readsZero_page2M h.room hread h.tree (by omega) hd hserved hreads
  · intro hsize contents d hd
    obtain ⟨d', hd', hserved⟩ := h.returns contents
    obtain rfl := Option.some.inj (hd'.symm.trans hd)
    rcases hsize with hnone | ⟨hlow, hhigh⟩
    · refine (readsZero_malloc h.room hread (by omega) hd).mpr fun x hx => ?_
      omega
    · exact readsZero_page h.room hread h.tree hlow hhigh hd hserved

end Tiers

theorem created_onePage : Created loneSetup 0xFFFFFFFF00000000 lonePml4 kernelMiscMapping 512 8
    ⟨true, true, false⟩ where
  tree := tree_lonePml4
  room := ⟨Nat.le_refl _, by decide, by decide, fun v _ _ => translate_lonePml4 v⟩
  returns contents := by
    have hserved : ((Allocation.page.run loneSetup 6 lonePml4 0xFFFFFFFEBFFFF000 1).map
        fun s' => decide (Served lonePml4 s')) = some true := by
      decide
    obtain ⟨s', hrun, hs'⟩ := Option.map_eq_some_iff.mp hserved
    have hbytes : ((512 : UInt64) * 8).toNat = 4096 := by decide
    have hbuffer : allocateKernelMapping kernelMiscMapping 4096 systemPageSize = 0xFFFFFFFEBFFFF000 := by
      decide
    have hflags : Permission.toFlags ⟨true, true, false⟩ = 6 := by decide
    have hcount : (roundUpToPageCount 4096).toNat = 1 := by decide
    have hfits : 0xFFFFFFFEBFFFF000 + (512 : UInt64).toNat * (8 : UInt64).toNat < 2 ^ 64 := by decide
    refine ⟨⟨⟨512, 8, 0xFFFFFFFEBFFFF000, ⟨true, true, false⟩, hfits⟩, s', readByte loneSetup s'⟩, ?_,
      of_decide_eq_true hs'⟩
    unfold newRamdisk
    rw [hbytes]
    refine (if_neg (by decide)).trans ((if_pos (by decide)).trans ?_)
    unfold ramdiskOfPages
    rw [hbuffer, hflags, hcount, hrun]
    exact ramdiskAt_eq_some hfits

theorem readsZero_onePage : ∃ d, newRamdisk loneSetup ⟨0xFFFFFFFF00000000, fun _ => 1⟩ lonePml4
    kernelMiscMapping 512 8 ⟨true, true, false⟩ = some d ∧ d.ReadsZero := by
  obtain ⟨d, hd, -⟩ := created_onePage.returns fun _ => 1
  exact ⟨d, hd, (readsZero_iff rfl created_onePage).mpr (by decide) _ d hd⟩

theorem stale_block_read : ∃ d, newRamdisk loneSetup ⟨0xFFFFFFFF00000000, fun _ => 1⟩ lonePml4
    kernelMiscMapping 512 1 ⟨true, true, false⟩ = some d ∧ ¬ d.ReadsZero := by
  have hroom : RoomBelow loneSetup lonePml4 kernelMiscMapping 512 1 :=
    ⟨Nat.le_refl _, by decide, by decide, fun v _ _ => translate_lonePml4 v⟩
  have hfits : 0xFFFFFFFF00000000 + (512 : UInt64).toNat * (1 : UInt64).toNat < 2 ^ 64 := by decide
  have hd : newRamdisk loneSetup ⟨0xFFFFFFFF00000000, fun _ => 1⟩ lonePml4 kernelMiscMapping 512 1
      ⟨true, true, false⟩ = some _ :=
    (newRamdisk_malloc hroom (by decide)).trans (ramdiskAt_eq_some hfits)
  refine ⟨_, hd, fun hreads => ?_⟩
  have hone := (readsZero_malloc hroom rfl (by decide) hd).mp hreads 0 (by decide)
  cases hone

end Helos
