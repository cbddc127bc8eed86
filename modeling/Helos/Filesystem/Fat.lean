import Helos.Driver.BlockDevice
import Helos.Memory.KernelMapping
import Helos.Theory.LittleEndian

/-!
# Probing for FAT

`FAT::Allocator::AllocateBlock` and the destructor of `driver/filesystem/fat/fat.cpp`. The object is made
by `new FAT`, which leaves what was in its memory. Dividing by zero is undefined (`none`), and so is
deleting what the probe has not allocated or has deleted already. `new` is taken to succeed.
-/

namespace Helos

namespace Fat

abbrev Sector := { bytes : List UInt8 // bytes.length = 512 }

/-- `FATType` -/
inductive FATType where
  | fat12 | fat16 | fat32 | exFAT
deriving DecidableEq

/-- `FAT`. The field `ebr` is a union with `ebr32`, and `0` is null. -/
structure Object where
  type : FATType
  bpb : Addr
  ebr : Addr
  sector : Addr
  numSectors : Int

/-- What `new` returns for the object and for what it points to. -/
structure News where
  fat : Addr
  sector : Addr
  bpb : Addr
  ebr : Addr
  nodup : [fat, sector, bpb, ebr].Nodup
  nonnull : 0 ∉ [fat, sector, bpb, ebr]

/-! ### The first sector -/

def word (sector : Sector) (offset width : Nat) : Nat :=
  LittleEndian.decode ((sector.1.drop offset).take width)

/-- The members of `BIOSParamBlock` -/
def numBytesPerSector (sector : Sector) : Nat := word sector 11 2

def numSectorsPerCluster (sector : Sector) : Nat := word sector 13 1

def numSectorsShort (sector : Sector) : Nat := word sector 19 2

def numSectorsPerFAT (sector : Sector) : Nat := word sector 22 2

def numSectorsLarge (sector : Sector) : Nat := word sector 32 4

/-- `ebr->type`, which follows 36 bytes of parameters and 18 of the boot record. -/
def ebrType (sector : Sector) : List UInt8 := (sector.1.drop 54).take 8

def totalSectors (sector : Sector) : Nat :=
  if numSectorsShort sector ≠ 0 then numSectorsShort sector else numSectorsLarge sector

def strncmp : List UInt8 → List UInt8 → Nat → Int
  | _, _, 0 => 0
  | s, t, n + 1 =>
    if s.headD 0 ≠ 0 ∧ s.headD 0 = t.headD 0 then strncmp s.tail t.tail n
    else ((s.headD 0).toNat - (t.headD 0).toNat : Int)

def nameFAT12 : List UInt8 := [0x46, 0x41, 0x54, 0x31, 0x32]

def nameFAT16 : List UInt8 := [0x46, 0x41, 0x54, 0x31, 0x36]

/-- The clusters of an `int` of sectors, rounded up. -/
def countClusters (numSectors : Int) (perCluster : Nat) : Option Int :=
  if perCluster = 0 then none
  else
    let clusters := numSectors.tdiv perCluster
    some (if numSectors.tmod perCluster ≠ 0 then clusters + 1 else clusters)

def tellType (sector : Sector) (numSectors : Int) : Option FATType :=
  if strncmp (ebrType sector) nameFAT12 5 = 0 then some .fat12
  else if strncmp (ebrType sector) nameFAT16 5 = 0 then some .fat16
  else do
    let clusters ← countClusters numSectors (numSectorsPerCluster sector)
    some (if clusters > 4085 then .fat16 else .fat12)

/-! ### Deleting -/

/-- `delete p`, with the blocks that were allocated and not deleted. -/
def release (own : List Addr) (p : Addr) : Option (List Addr) :=
  if p ∈ own then some (own.erase p) else none

def releaseUnlessNull (own : List Addr) (p : Addr) : Option (List Addr) :=
  if p ≠ 0 then release own p else some own

/-- `FAT::~FAT`. Either member of the union is the same pointer. -/
def Object.destroy (fat : Object) (own : List Addr) : Option (List Addr) := do
  let own ← releaseUnlessNull own fat.sector
  let own ← releaseUnlessNull own fat.bpb
  releaseUnlessNull own fat.ebr

def Object.delete (fat : Object) (address : Addr) (own : List Addr) : Option (List Addr) := do
  let own ← fat.destroy own
  release own address

variable {σ : Type}

/-- The filesystem or null, and the blocks that are left. `stale` is what the memory of the object holds
and `junk` what that of the sector does. -/
def allocateBlock (device : Block.BlockDevice σ Sector) (s : σ) (news : News) (stale : Object) (junk : Sector) :
    Option (Option Object × List Addr) := do
  let fat := { stale with sector := news.sector }
  let own := [news.sector, news.fat]
  let reply := device.readBlock s 0 1
  let sector := reply.data.headD junk
  if reply.count = 0 then do
    let own ← fat.delete news.fat own
    some (none, own)
  else do
    let fat := { fat with bpb := news.bpb, numSectors := toInt (totalSectors sector) }
    let own := news.bpb :: own
    if numBytesPerSector sector = 0 then do
      let fat := { fat with type := .exFAT }
      let own ← fat.delete news.fat own
      some (none, own)
    else if numSectorsPerFAT sector = 0 then
      some (some { fat with type := .fat32, ebr := news.ebr }, news.ebr :: own)
    else do
      let fat := { fat with ebr := news.ebr }
      let type ← tellType sector fat.numSectors
      some (some { fat with type }, news.ebr :: own)

/-! ### Counting clusters -/

/-- The name says neither FAT12 nor FAT16. -/
def Inconclusive (sector : Sector) : Prop :=
  strncmp (ebrType sector) nameFAT12 5 ≠ 0 ∧ strncmp (ebrType sector) nameFAT16 5 ≠ 0

/-- The volume is FAT16 when its sectors make more than 4085 clusters, rounded up. -/
def ManyClusters (sector : Sector) : Prop :=
  4085 < (totalSectors sector + numSectorsPerCluster sector - 1) / numSectorsPerCluster sector

theorem totalSectors_lt (sector : Sector) : totalSectors sector < 2 ^ 32 := by
  have hword : ∀ offset width, word sector offset width < 256 ^ width := fun offset width =>
    Nat.lt_of_lt_of_le (LittleEndian.decode_lt _)
      (Nat.pow_le_pow_right (by decide) (List.length_take_le _ _))
  have hshort := hword 19 2
  have hlarge := hword 32 4
  unfold totalSectors numSectorsShort numSectorsLarge
  split <;> omega

theorem numSectorsPerCluster_lt (sector : Sector) : numSectorsPerCluster sector < 256 :=
  Nat.lt_of_lt_of_le (LittleEndian.decode_lt _)
    (Nat.pow_le_pow_right (by decide) (List.length_take_le 1 _))

theorem round_up {n d : Nat} (h : 0 < d) :
    (n + d - 1) / d = if n % d ≠ 0 then n / d + 1 else n / d := by
  have hdiv := Nat.div_add_mod n d
  have hmod := Nat.mod_lt n h
  split
  · next hne =>
    apply Nat.div_eq_of_lt_le
    · rw [Nat.add_mul, Nat.one_mul, Nat.mul_comm]
      omega
    · rw [Nat.add_mul, Nat.add_mul, Nat.one_mul, Nat.mul_comm]
      omega
  · next heq =>
    rw [not_not] at heq
    apply Nat.div_eq_of_lt_le
    · rw [Nat.mul_comm]
      omega
    · rw [Nat.add_mul, Nat.one_mul, Nat.mul_comm]
      omega

theorem countClusters_natCast {n perCluster : Nat} (h : perCluster ≠ 0) :
    countClusters n perCluster = some (((n + perCluster - 1) / perCluster : Nat) : Int) := by
  rw [countClusters, if_neg h, round_up (Nat.pos_of_ne_zero h), ← Int.ofNat_tdiv, ← Int.ofNat_tmod]
  dsimp only
  by_cases hmod : n % perCluster = 0
  · rw [if_neg (not_not.mpr hmod), if_neg (by omega)]
  · rw [if_pos hmod, if_pos (by omega)]
    rfl

theorem countClusters_neg {numSectors : Int} {perCluster : Nat} (h : perCluster ≠ 0)
    (hneg : numSectors < 0) : ∃ clusters, countClusters numSectors perCluster = some clusters ∧ clusters ≤ 1 := by
  have hle : numSectors.tdiv perCluster ≤ 0 := by
    rw [← neg_neg numSectors, Int.neg_tdiv, Int.neg_nonpos_iff]
    exact Int.tdiv_nonneg (Int.neg_nonneg_of_nonpos hneg.le) (Int.natCast_nonneg _)
  refine ⟨_, if_neg h, ?_⟩
  split <;> omega

/-! ### What the probe needs -/

variable {sector : Sector} {news : News} {fat : Object}

theorem tellType_conclusive (h : ¬ Inconclusive sector) (numSectors : Int) :
    ∃ type, tellType sector numSectors = some type := by
  unfold Inconclusive at h
  unfold tellType
  by_cases hfat12 : strncmp (ebrType sector) nameFAT12 5 = 0
  · exact ⟨_, if_pos hfat12⟩
  · rw [if_neg hfat12, if_pos (not_not.mp fun hfat16 => h ⟨hfat12, hfat16⟩)]
    exact ⟨_, rfl⟩

theorem tellType_inconclusive (h : Inconclusive sector) (numSectors : Int) :
    tellType sector numSectors = (countClusters numSectors (numSectorsPerCluster sector)).map
      fun clusters => if clusters > 4085 then .fat16 else .fat12 := by
  rw [tellType, if_neg h.1, if_neg h.2, Option.map_eq_bind]
  rfl

/-- The type is told by the number of clusters exactly when there is something to divide by and the
sectors fit an `int`. -/
theorem tellType_iff (h : Inconclusive sector) :
    (∃ type, tellType sector (toInt (totalSectors sector)) = some type ∧
        (type = .fat16 ↔ ManyClusters sector)) ↔
      numSectorsPerCluster sector ≠ 0 ∧ totalSectors sector < 2 ^ 31 := by
  rw [tellType_inconclusive h]
  have htotal := totalSectors_lt sector
  have hperCluster := numSectorsPerCluster_lt sector
  by_cases hzero : numSectorsPerCluster sector = 0
  · refine iff_of_false ?_ fun h => h.1 hzero
    rintro ⟨type, htype, -⟩
    rw [countClusters, if_pos hzero] at htype
    cases htype
  · rw [and_iff_right hzero]
    by_cases hint : totalSectors sector < 2 ^ 31
    · refine iff_of_true ?_ hint
      rw [toInt_of_lt hint, countClusters_natCast hzero, Option.map_some]
      refine ⟨_, rfl, ?_⟩
      unfold ManyClusters
      generalize (totalSectors sector + numSectorsPerCluster sector - 1) / numSectorsPerCluster sector = clusters
      split
      · next hmany => exact iff_of_true rfl (by omega)
      · next hfew => exact iff_of_false nofun (by omega)
    · refine iff_of_false ?_ hint
      rintro ⟨type, htype, hiff⟩
      have hneg : toInt (totalSectors sector) < 0 := by
        unfold toInt
        rw [Nat.mod_eq_of_lt htotal, if_neg hint]
        omega
      obtain ⟨clusters, hclusters, hle⟩ := countClusters_neg hzero hneg
      rw [hclusters, Option.map_some, if_neg (by omega)] at htype
      obtain rfl := Option.some.inj htype
      have hmany : ManyClusters sector := by
        unfold ManyClusters
        rw [Nat.lt_div_iff_mul_lt (Nat.pos_of_ne_zero hzero)]
        have hbound : numSectorsPerCluster sector * 4086 ≤ 255 * 4086 := by
          omega
        omega
      cases hiff.mpr hmany

/-! ### What the probe deletes -/

theorem length_release {own own' : List Addr} {p : Addr} (h : release own p = some own') :
    own'.length + 1 = own.length := by
  obtain ⟨hmem, heq⟩ := Option.ite_none_right_eq_some.mp h
  obtain rfl := Option.some.inj heq
  rw [List.length_erase_of_mem hmem]
  exact Nat.sub_add_cancel (List.length_pos_of_mem hmem)

theorem length_releaseUnlessNull {own own' : List Addr} {p : Addr}
    (h : releaseUnlessNull own p = some own') :
    own'.length ≤ own.length ∧ (p ≠ 0 → own'.length + 1 = own.length) := by
  unfold releaseUnlessNull at h
  by_cases hp : p = 0
  · rw [if_neg (not_not.mpr hp)] at h
    obtain rfl := Option.some.inj h
    exact ⟨Nat.le_refl _, fun hne => absurd hp hne⟩
  · rw [if_pos hp] at h
    have hlength := length_release h
    exact ⟨by omega, fun _ => hlength⟩

theorem delete_eq_some {address : Addr} {own own' : List Addr} (h : fat.delete address own = some own') :
    ∃ own₁ own₂ own₃, releaseUnlessNull own fat.sector = some own₁ ∧
      releaseUnlessNull own₁ fat.bpb = some own₂ ∧ releaseUnlessNull own₂ fat.ebr = some own₃ ∧
      release own₃ address = some own' := by
  obtain ⟨own₃, hdestroy, hlast⟩ := Option.bind_eq_some_iff.mp h
  obtain ⟨own₁, h₁, hrest⟩ := Option.bind_eq_some_iff.mp hdestroy
  obtain ⟨own₂, h₂, h₃⟩ := Option.bind_eq_some_iff.mp hrest
  exact ⟨own₁, own₂, own₃, h₁, h₂, h₃, hlast⟩

theorem News.sector_ne_zero (news : News) : news.sector ≠ 0 := fun h =>
  news.nonnull (by simp [h])

theorem News.bpb_ne_zero (news : News) : news.bpb ≠ 0 := fun h =>
  news.nonnull (by simp [h])

/-- Two blocks were allocated, so no more than two are deleted. -/
theorem delete_unread_iff (news : News) (hsector : fat.sector = news.sector) :
    (∃ own, fat.delete news.fat [news.sector, news.fat] = some own) ↔ fat.bpb = 0 ∧ fat.ebr = 0 := by
  constructor
  · rintro ⟨own, h⟩
    obtain ⟨own₁, own₂, own₃, h₁, h₂, h₃, hlast⟩ := delete_eq_some h
    have hlength₁ := (length_releaseUnlessNull h₁).2 (hsector ▸ news.sector_ne_zero)
    obtain ⟨hle₂, hlength₂⟩ := length_releaseUnlessNull h₂
    obtain ⟨hle₃, hlength₃⟩ := length_releaseUnlessNull h₃
    have hlength := length_release hlast
    simp only [List.length_cons, List.length_nil] at hlength₁
    refine ⟨?_, ?_⟩
    · by_contra hbpb
      have hfewer := hlength₂ hbpb
      omega
    · by_contra hebr
      have hfewer := hlength₃ hebr
      omega
  · rintro ⟨hbpb, hebr⟩
    have hne := news.sector_ne_zero
    exact ⟨[], by simp [Object.delete, Object.destroy, releaseUnlessNull, release, hsector, hbpb, hebr, hne]⟩

theorem delete_exFAT_iff (news : News) (hsector : fat.sector = news.sector) (hbpb : fat.bpb = news.bpb) :
    (∃ own, fat.delete news.fat [news.bpb, news.sector, news.fat] = some own) ↔ fat.ebr = 0 := by
  constructor
  · rintro ⟨own, h⟩
    obtain ⟨own₁, own₂, own₃, h₁, h₂, h₃, hlast⟩ := delete_eq_some h
    have hlength₁ := (length_releaseUnlessNull h₁).2 (hsector ▸ news.sector_ne_zero)
    have hlength₂ := (length_releaseUnlessNull h₂).2 (hbpb ▸ news.bpb_ne_zero)
    have hlength := length_release hlast
    simp only [List.length_cons, List.length_nil] at hlength₁
    by_contra hebr
    have hfewer := (length_releaseUnlessNull h₃).2 hebr
    omega
  · intro hebr
    have hne := news.sector_ne_zero
    have hne' := news.bpb_ne_zero
    have hnodup := news.nodup
    simp only [List.nodup_cons, List.mem_cons, List.not_mem_nil, or_false, not_or] at hnodup
    have hapart : news.bpb ≠ news.sector := fun h => hnodup.2.1.1 h.symm
    refine ⟨[], ?_⟩
    simp [Object.delete, Object.destroy, releaseUnlessNull, release, hsector, hbpb, hebr, hne, hne', hapart]

/-! ### Probing -/

/-- What the probe of a sector read in full needs. -/
structure Probes (sector : Sector) (stale : Object) : Prop where
  exFAT : numBytesPerSector sector = 0 → stale.ebr = 0
  counted : numBytesPerSector sector ≠ 0 → numSectorsPerFAT sector ≠ 0 → Inconclusive sector →
    numSectorsPerCluster sector ≠ 0 ∧ totalSectors sector < 2 ^ 31

/-- The sector in the buffer after the read. -/
def firstSector (device : Block.BlockDevice σ Sector) (s : σ) (junk : Sector) : Sector :=
  (device.readBlock s 0 1).data.headD junk

/-- The type of a filesystem without a conclusive name, if it is not one of 32 bits. -/
def Classified (sector : Sector) (fat : Object) : Prop :=
  numBytesPerSector sector ≠ 0 → numSectorsPerFAT sector ≠ 0 → Inconclusive sector →
    (fat.type = .fat16 ↔ ManyClusters sector)

theorem failed_iff {deleted : Option (List Addr)} {P : Object → Prop} :
    (∃ result own, (deleted.bind fun own => some ((none : Option Object), own)) = some (result, own) ∧
        ∀ fat, result = some fat → P fat) ↔ ∃ own, deleted = some own := by
  constructor
  · rintro ⟨result, own, h, -⟩
    obtain ⟨own', hown, -⟩ := Option.bind_eq_some_iff.mp h
    exact ⟨own', hown⟩
  · rintro ⟨own, rfl⟩
    exact ⟨none, own, rfl, nofun⟩

/-- **Probing is safe**, and the type is told by the number of clusters, exactly when the memory of the
object was null where the destructor looks and the number of clusters can be computed. -/
theorem probe_safe_iff (device : Block.BlockDevice σ Sector) (s : σ) (news : News) (stale : Object)
    (junk : Sector) :
    (∃ result own, allocateBlock device s news stale junk = some (result, own) ∧
        ∀ fat, result = some fat → Classified (firstSector device s junk) fat) ↔
      ((device.readBlock s 0 1).count = 0 → stale.bpb = 0 ∧ stale.ebr = 0) ∧
      ((device.readBlock s 0 1).count ≠ 0 → Probes (firstSector device s junk) stale) := by
  unfold allocateBlock
  simp only [Option.bind_eq_bind]
  rw [← firstSector]
  generalize firstSector device s junk = sector
  by_cases hcount : (device.readBlock s 0 1).count = 0
  · rw [if_pos hcount, failed_iff, delete_unread_iff news rfl]
    exact ⟨fun h => ⟨fun _ => h, fun hne => absurd hcount hne⟩, fun h => h.1 hcount⟩
  rw [if_neg hcount, and_iff_right fun h => absurd h hcount]
  suffices hprobes : _ ↔ Probes sector stale from hprobes.trans ⟨fun h _ => h, fun h => h hcount⟩
  by_cases hexFAT : numBytesPerSector sector = 0
  · rw [if_pos hexFAT, failed_iff, delete_exFAT_iff news rfl rfl]
    exact ⟨fun h => ⟨fun _ => h, fun hne => absurd hexFAT hne⟩, fun h => h.exFAT hexFAT⟩
  rw [if_neg hexFAT]
  by_cases hfat32 : numSectorsPerFAT sector = 0
  · rw [if_pos hfat32]
    refine iff_of_true ⟨_, _, rfl, ?_⟩ ⟨fun h => absurd h hexFAT, fun _ hne => absurd hfat32 hne⟩
    exact fun _ _ _ hne => absurd hfat32 hne
  rw [if_neg hfat32]
  by_cases hname : Inconclusive sector
  · have hiff := tellType_iff hname
    constructor
    · rintro ⟨result, own, h, hclassified⟩
      obtain ⟨type, htype, heq⟩ := Option.bind_eq_some_iff.mp h
      obtain ⟨rfl, -⟩ := Prod.mk.inj (Option.some.inj heq)
      have hcounted := hiff.mp ⟨type, htype, hclassified _ rfl hexFAT hfat32 hname⟩
      exact ⟨fun h => absurd h hexFAT, fun _ _ _ => hcounted⟩
    · intro h
      obtain ⟨type, htype, hmany⟩ := hiff.mpr (h.counted hexFAT hfat32 hname)
      refine ⟨_, _, Option.bind_eq_some_iff.mpr ⟨type, htype, rfl⟩, ?_⟩
      rintro _ ⟨⟩ - - -
      exact hmany
  · obtain ⟨type, htype⟩ := tellType_conclusive hname (toInt (totalSectors sector))
    refine iff_of_true ⟨_, _, Option.bind_eq_some_iff.mpr ⟨type, htype, rfl⟩, ?_⟩ ?_
    · exact fun _ _ _ _ h => absurd h hname
    · exact ⟨fun h => absurd h hexFAT, fun _ _ h => absurd h hname⟩

/-- A sector with one sector to the FAT and none to the cluster, and without a name -/
def noClusters : Sector :=
  ⟨List.replicate 11 0 ++ [0, 2] ++ List.replicate 9 0 ++ [1] ++ List.replicate 489 0, by
    simp only [List.length_append, List.length_replicate, List.length_cons, List.length_nil]⟩

def deviceOf (sectors : List Sector) : Block.BlockDevice Unit Sector where
  blockSize := 512
  size := sectors.length.toUInt64
  devicePermission := ⟨true, false, false⟩
  readBlock := fun _ _ _ => ⟨sectors.length.toUInt64, ∅, sectors⟩
  writeBlock := fun s _ _ _ => (s, ⟨0, ∅, []⟩)

def someNews : News := ⟨0x1000, 0x2000, 0x3000, 0x4000, by decide, by decide⟩

/-- A division by zero on one sector, and on a device that cannot be read a stale pointer is deleted. -/
theorem probe_fails :
    allocateBlock (deviceOf [noClusters]) () someNews ⟨.fat12, 0, 0, 0, 0⟩ noClusters = none ∧
    allocateBlock (deviceOf []) () someNews ⟨.fat12, 0x5000, 0, 0, 0⟩ noClusters = none := by
  refine ⟨?_, by decide⟩
  rfl

end Fat

end Helos
