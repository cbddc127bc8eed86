import Helos.Memory.InsidePages

/-!
# Flushing the TLB

The TLB may hold the translation of any 4 KiB page that was mapped until `flush_tlb_single` is called
on an address in that page. The mapping functions flush the first 4 KiB of each page they map, which
is all of it for `paging_map_Page` only, and `paging_map_FreeAllocated` flushes nothing. So a
translation stays behind when it is changed elsewhere in a large page, whenever one is freed, and where
a walk through a larger page writes to a table of other addresses.
-/

namespace Helos

/-- What the TLB holds of a translation. -/
def Translation.held (t : Translation) : Nat × Bool × Bool := (t.physical, t.writable, t.executeDisable)

/-- The pages that one of the mapping functions is asked for. -/
structure Mapping where
  size : Nat
  physical : Nat
  virt : Nat
  pageCount : Nat
  flags : BitVec 32

inductive PagingCall where
  | page (physical virt pageCount : Nat) (flags : BitVec 32)
  | page2M (physical virt pageCount : Nat) (flags : BitVec 32)
  | page1G (physical virt pageCount : Nat) (flags : BitVec 32)
  | freeAllocated (virt past : Nat)

namespace Mapping

/-- The address is in the page `k`, by its low 48 bits. -/
def InPage (m : Mapping) (k v : Nat) : Prop :=
  v % 2 ^ 48 / m.size = (m.virt + m.size * k) % 2 ^ 48 / m.size

instance (m : Mapping) (k v : Nat) : Decidable (m.InPage k v) :=
  inferInstanceAs (Decidable (_ = _))

/-- The address is in the first 4 KiB of a page. -/
def InFirst (m : Mapping) (v : Nat) : Prop :=
  ∃ k < m.pageCount, (m.virt + m.size * k) / 4096 = v / 4096

/-- The page `k` is not inside a larger one. -/
def Outermost (f : FlatMap) (m : Mapping) (k : Nat) : Prop :=
  Paging.NotInside m.size f (m.virt + m.size * k)

/-- What the page `k` gives to an address in it. -/
def asked (supportExecuteDisable : Bool) (m : Mapping) (k v : Nat) : Translation :=
  Translation.asked m.size (m.physical + m.size * k) supportExecuteDisable m.flags v

/-- Every address that is in a page not inside a larger one, the last one of those that it is in, but
not in the first 4 KiB of a page, was not mapped, or mapped as it is asked for. -/
def Harmless (supportExecuteDisable : Bool) (f : FlatMap) (m : Mapping) : Prop :=
  ∀ k < m.pageCount, m.Outermost f k → ∀ v, Canonical v → m.InPage k v →
    (∀ j < m.pageCount, k < j → m.Outermost f j → ¬ m.InPage j v) → ¬ m.InFirst v →
    ∀ t, f v = some t → (m.asked supportExecuteDisable k v).held = t.held

end Mapping

namespace PagingCall

def mapping : PagingCall → Option Mapping
  | .page physical virt pageCount flags => some ⟨4096, physical, virt, pageCount, flags⟩
  | .page2M physical virt pageCount flags => some ⟨2097152, physical, virt, pageCount, flags⟩
  | .page1G physical virt pageCount flags => some ⟨1073741824, physical, virt, pageCount, flags⟩
  | .freeAllocated _ _ => none

end PagingCall

namespace Paging

open PageEntry Translation

/-- Every address whose translation was changed or removed is in a page that was flushed. -/
def Coherent {σ : Type} (g : PagingSetup σ) (s s' : Paging σ) : Prop :=
  ∀ v t, Canonical v → translate g s v = some t →
    (translate g s' v).map held ≠ some t.held →
    ∃ w, .flushed w ∈ newEvents s s' ∧ w / 4096 = v / 4096

/-- The call comes back with this state. -/
def Returns {σ : Type} (g : PagingSetup σ) (s s' : Paging σ) : PagingCall → Prop
  | .page physical virt pageCount flags => mapPage g s physical virt pageCount flags = some s'
  | .page2M physical virt pageCount flags => mapPage2M g s physical virt pageCount flags = some s'
  | .page1G physical virt pageCount flags => mapPage1G g s physical virt pageCount flags = some s'
  | .freeAllocated virt past => ∃ fuel, freeAllocated g fuel s virt past = some s'

/-- The ranges end in the address spaces, and there is a frame for each new table. -/
structure RegularMapping (g : PagingSetup Physical) (s s' : Paging Physical) (m : Mapping) :
    Prop where
  tree : Tree g s
  physical_le : m.physical + m.size * m.pageCount ≤ 2 ^ 52
  virt_lt : m.virt < 2 ^ 64
  virt_le : m.virt + m.size * m.pageCount ≤ 2 ^ 64
  served : Served s s'

/-- A mapping call needs a tree of tables; `paging_map_FreeAllocated` may find anything. -/
def Regular (g : PagingSetup Physical) (s s' : Paging Physical) : PagingCall → Prop
  | .freeAllocated virt _ => virt < 2 ^ 64
  | c => ∀ m ∈ c.mapping, RegularMapping g s s' m

/-- A mapping call changes what was mapped in the first 4 KiB of its pages only, and
`paging_map_FreeAllocated` finds nothing to free. -/
def Harmless (g : PagingSetup Physical) (s : Paging Physical) : PagingCall → Prop
  | .freeAllocated virt past => ∀ k, virt + 4096 * k < past → translate g s (virt + 4096 * k) = none
  | c => ∀ m ∈ c.mapping, m.Harmless g.supportExecuteDisable (translate g s)

section Mapping

variable {g : PagingSetup Physical} {s s' : Paging Physical} {m : Mapping}

end Mapping

/-! ### `paging_map_FreeAllocated` -/

section Free

variable {σ : Type} {g : PagingSetup σ} {s s' : Paging σ} {virt past : Nat}

/-- The canonical address with the low 48 bits of an address. -/
theorem exists_canonical (x : Nat) : ∃ v, Canonical v ∧ v % 2 ^ 48 = x % 2 ^ 48 := by
  unfold Canonical
  by_cases hlow : x % 2 ^ 48 < 2 ^ 47
  · exact ⟨x % 2 ^ 48, .inl hlow, by omega⟩
  · exact ⟨x % 2 ^ 48 + (2 ^ 64 - 2 ^ 48), .inr (by omega), by omega⟩

end Free

/-! ### All calls -/

variable {g : PagingSetup Physical} {s s' : Paging Physical}

/-- At canonical addresses `paging_map_Page` flushes all that it changes. -/
theorem harmless_page (s : Paging Physical) {physical virt pageCount : Nat} (flags : BitVec 32)
    (halign : virt % 4096 = 0) (hcanonical : ∀ k < pageCount, Canonical (virt + 4096 * k)) :
    Harmless g s (.page physical virt pageCount flags) := by
  intro m hm k hk _ v hv hin _ hnot
  obtain rfl := Option.some.inj hm
  have halign' : (virt + 4096 * k) % 4096 = 0 := by omega
  have hpage := (FlatMap.same_page_iff (.inl rfl) hv (hcanonical k hk) halign').mp hin
  exact absurd ⟨k, hk, by simp only; omega⟩ hnot

/-- A PML4 table without entries, and 63 free frames after it. -/
def lonePml4 : Paging Physical :=
  { frames := Physical.boot (fun i => if i = 4 then 1#64 else ~~~0#64) 320
    memory := fun _ _ => 0
    events := [] }

def loneSetup : PagingSetup Physical := bitmapSetup 0x100000 true

theorem tree_lonePml4 : Tree loneSetup lonePml4 :=
  Tree.initial rfl (by decide) (by decide) (by unfold Used; decide) fun _ => rfl

theorem translate_lonePml4 (v : Nat) : translate loneSetup lonePml4 v = none :=
  Sound.translate_initial (fun _ => rfl) v

/-- A PML4 table at the start of a large page. -/
def alignedSetup : PagingSetup Physical := bitmapSetup 0x200000 true

/-- A call inside a large page that holds the PML4 table writes to it. It is harmless all the same, so
the calls have to keep out. -/
theorem walk_to_pml4_not_coherent :
    ∃ s s', mapPage2M alignedSetup lonePml4 0x200000 0x40000000 1 mapProtWrite = some s ∧
      Returns alignedSetup s s' (.page 0x300000 0x40000000 1 mapProtWrite) ∧
      Regular alignedSetup s s' (.page 0x300000 0x40000000 1 mapProtWrite) ∧
      Harmless alignedSetup s (.page 0x300000 0x40000000 1 mapProtWrite) ∧
      ¬ Coherent alignedSetup s s' := by
  have hrun : ((mapPage2M alignedSetup lonePml4 0x200000 0x40000000 1 mapProtWrite).bind fun s =>
      (mapPage alignedSetup s 0x300000 0x40000000 1 mapProtWrite).map fun s' =>
        (translate alignedSetup s 0x40001000, translate alignedSetup s' 0x40001000, newEvents s s',
          decide (Served lonePml4 s), decide (Served s s'))) =
      some (some ⟨0x201000, 2097152, true, true⟩, none, [.flushed 0x40000000], true, true) := by
    decide
  obtain ⟨s, hs, hrest⟩ := Option.bind_eq_some_iff.mp hrun
  obtain ⟨s', hs', hread⟩ := Option.map_eq_some_iff.mp hrest
  simp only [Prod.mk.injEq, decide_eq_true_eq] at hread
  obtain ⟨hbefore, hafter, hevents, hserved, hserved'⟩ := hread
  have hempty : Tree alignedSetup lonePml4 :=
    Tree.initial rfl (by decide) (by decide) (by unfold Used; decide) fun _ => rfl
  have hfirst : s = mapPages 2097152 (mapOnePage2M alignedSetup mapProtWrite) 1 0x200000 0x40000000
      lonePml4 := by
    rw [mapPage2M, if_pos (by decide)] at hs
    exact (Option.some.inj hs).symm
  obtain ⟨htree, htranslate⟩ := hempty.mapPages (mapsPage2M alignedSetup mapProtWrite) (by decide)
    (by decide) (by decide) (by decide) (by decide)
    (fun k _ t ht => by
      rw [Sound.translate_initial (g := alignedSetup) (fun _ => rfl)] at ht
      cases ht) (hfirst ▸ hserved)
  rw [← hfirst] at htree htranslate
  refine ⟨s, s', hs, hs', fun m hm => ?_, fun m hm k hk houter => ?_, fun hcoherent => ?_⟩
  · obtain rfl := Option.some.inj hm
    exact ⟨htree, by decide, by decide, by decide, hserved'⟩
  · obtain rfl := Option.some.inj hm
    obtain rfl := Nat.lt_one_iff.mp hk
    have hle := houter ⟨0x200000, 2097152, true, true⟩ (by rw [htranslate]; decide)
    exact absurd hle (by decide)
  · obtain ⟨w, hw, hpage⟩ := hcoherent 0x40001000 _ (.inl (by decide)) hbefore
      (by rw [hafter]; exact nofun)
    rw [hevents, List.mem_singleton] at hw
    obtain rfl := PagingEvent.flushed.inj hw
    exact absurd hpage (by decide)

end Paging

end Helos
