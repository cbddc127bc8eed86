import Helos.Memory.Tlb
import Helos.Theory.Run

/-!
# The frames of the tables

The mapping functions obtain a frame for each table that is missing. A large page that takes the place of
a table frees that table only: below a page of 2 MiB there is nothing else, but the page tables below a
page of 1 GiB stay allocated, and no path leads to them any more.
-/

namespace Helos

inductive PageKind where
  | page
  | page2M
  | page1G
deriving DecidableEq

def PageKind.size : PageKind → Nat
  | .page => 4096
  | .page2M => 2097152
  | .page1G => 1073741824

theorem PageKind.size_pos (kind : PageKind) : 0 < kind.size := by
  cases kind <;> decide

structure SizedCall where
  kind : PageKind
  physical : Nat
  virt : Nat
  pageCount : Nat
  flags : BitVec 32

namespace Paging

open PageEntry Translation

def sizedStep (g : PagingSetup Physical) (s : Paging Physical) (c : SizedCall) :
    Option (Paging Physical) :=
  match c.kind with
  | .page => mapPage g s c.physical c.virt c.pageCount c.flags
  | .page2M => mapPage2M g s c.physical c.virt c.pageCount c.flags
  | .page1G => mapPage1G g s c.physical c.virt c.pageCount c.flags

/-- The frames that were obtained for tables and not freed since are the tables. -/
def Accounted (g : PagingSetup Physical) (s : Paging Physical) : Prop :=
  ∀ t, t ∈ tableFrames g.pml4Table s.events ↔ Radix.IsTable link s.memory g.pml4Table t

/-- A page of 1 GiB at the address takes the place of no page table. -/
def SparesRegion (g : PagingSetup Physical) (s : Paging Physical) (kind : PageKind) (virt : Nat) : Prop :=
  kind = .page1G → ∀ q t, (indices virt).take 2 <+: q → q.length = 3 →
    Radix.find link s.memory 0 g.pml4Table q ≠ some t

def SparesTables (g : PagingSetup Physical) (s : Paging Physical) (c : SizedCall) : Prop :=
  ∀ k < c.pageCount, SparesRegion g s c.kind (wrap64 (c.virt + c.kind.size * k))

/-- The addresses are in range, no page goes inside a larger one, and no allocation fails. -/
structure Proper (g : PagingSetup Physical) (s : Paging Physical) (c : SizedCall) : Prop where
  physical_le : c.physical + c.kind.size * c.pageCount ≤ 2 ^ 52
  virt_lt : c.virt < 2 ^ 64
  outermost : ∀ k < c.pageCount,
    NotInside c.kind.size (translate g s) (wrap64 (c.virt + c.kind.size * k))
  served : ∀ s', sizedStep g s c = some s' → Served s s'

/-! ### Books -/

/-- The tables are among the frames obtained, and these are marked in the bitmap. -/
structure Books (g : PagingSetup Physical) (s : Paging Physical) : Prop where
  tables : ∀ t, Radix.IsTable link s.memory g.pml4Table t → t ∈ tableFrames g.pml4Table s.events
  used : ∀ t ∈ tableFrames g.pml4Table s.events, IsFrame t ∧ s.Used (t / 4096)

/-- A frame that was obtained for a table that no path leads to. -/
def Lost (g : PagingSetup Physical) (s : Paging Physical) (t : Nat) : Prop :=
  t ∈ tableFrames g.pml4Table s.events ∧ ¬ Radix.IsTable link s.memory g.pml4Table t

variable {g : PagingSetup Physical} {s s₁ s' : Paging Physical} {p q : List Nat} {t i e : Nat}

theorem Accounted.books (h : Accounted g s) (htree : Tree g s) : Books g s :=
  ⟨fun t => (h t).mpr, fun t ht => htree.tables t ((h t).mp ht)⟩

theorem Books.accounted_iff (h : Books g s) : Accounted g s ↔ ∀ t, ¬ Lost g s t := by
  constructor
  · exact fun hall t hlost => hlost.2 ((hall t).mp hlost.1)
  · exact fun hnone t => ⟨fun ht => not_not.mp fun hnot => hnone t ⟨ht, hnot⟩, h.tables t⟩

/-! ### A descent -/

/-- These frames were obtained for tables in between, and nothing else happened to the allocator. -/
structure Obtained (g : PagingSetup Physical) (s s' : Paging Physical) (new : List Nat) : Prop where
  events : s'.events = new.map (fun frame => .allocated (some frame)) ++ s.events
  frames : ∀ frame ∈ new, IsFrame frame ∧ ¬ s.Used (frame / 4096)
  used : ∀ page, s'.Used page ↔ s.Used page ∨ ∃ frame ∈ new, frame / 4096 = page
  endPage : s'.frames.endPhysicalPage = s.frames.endPhysicalPage

theorem Obtained.refl (s : Paging Physical) : Obtained g s s [] :=
  ⟨rfl, by simp, by simp, rfl⟩

theorem Obtained.trans {new new' : List Nat} (h : Obtained g s s₁ new) (h' : Obtained g s₁ s' new') :
    Obtained g s s' (new' ++ new) := by
  refine ⟨?_, fun frame hmem => ?_, fun page => ?_, h'.endPage.trans h.endPage⟩
  · rw [h'.events, h.events, List.map_append, List.append_assoc]
  · rcases List.mem_append.mp hmem with hlater | hfirst
    · exact ⟨(h'.frames frame hlater).1, fun hused =>
        (h'.frames frame hlater).2 ((h.used _).mpr (.inl hused))⟩
    · exact h.frames frame hfirst
  · rw [h'.used, h.used]
    simp only [List.mem_append, or_and_right, exists_or]
    rw [or_assoc]
    exact or_congr_right or_comm

theorem obtained_nextTable (hallocator : g.allocator = bitmapAllocator)
    (hend : s.frames.endPhysicalPage ≤ 2 ^ 31) (hserved : Served s (nextTable g s t i).2) :
    ∃ new, Obtained g s (nextTable g s t i).2 new := by
  obtain ⟨-, hnext⟩ | ⟨-, frames, -, hnext⟩ | ⟨-, frame, frames, halloc, hnext⟩ :=
    nextTable_cases g s t i
  · rw [hnext]
    exact ⟨[], Obtained.refl s⟩
  · rw [hnext] at hserved
    simp [Served] at hserved
  · obtain ⟨hframe, hclear, hpage, hbits⟩ :=
      Physical.allocateFrame_spec hend (allocateFrame_of_allocate hallocator halloc)
    rw [hnext]
    refine ⟨[frame], rfl, fun x hx => ?_, fun page => ?_, hpage⟩
    · obtain rfl := List.mem_singleton.mp hx
      exact ⟨hframe, fun hused => Bool.false_ne_true (hclear.symm.trans hused)⟩
    · exact (hbits page).trans (or_congr_right (by simp [eq_comm]))

theorem obtained_descend (hallocator : g.allocator = bitmapAllocator) {is : List Nat}
    (hend : s.frames.endPhysicalPage ≤ 2 ^ 31) (hserved : Served s (descend g is t s).2) :
    ∃ new, Obtained g s (descend g is t s).2 new := by
  induction is generalizing t s with
  | nil => exact ⟨[], Obtained.refl s⟩
  | cons i is ih =>
    obtain ⟨hfirst, hrest⟩ := hserved.split (flushes_nextTable g s t i) (flushes_descend g is _ _)
    obtain ⟨new, hnew⟩ := obtained_nextTable hallocator hend hfirst
    obtain ⟨new', hnew'⟩ := ih (hnew.endPage ▸ hend) hrest
    exact ⟨new' ++ new, hnew.trans hnew'⟩

theorem Obtained.mem_tableFrames {new : List Nat} (h : Obtained g s s' new) {pml4Table x : Nat} :
    x ∈ tableFrames pml4Table s'.events ↔ x ∈ new ∨ x ∈ tableFrames pml4Table s.events := by
  rw [h.events]
  generalize s.events = events
  clear h
  induction new with
  | nil => simp
  | cons frame new ih =>
    rw [List.map_cons, List.cons_append, tableFrames, Finset.mem_insert, ih, List.mem_cons, or_assoc]

theorem Obtained.newTable_iff {new : List Nat} (h : Obtained g s s₁ new) (hs : Descended g s s₁) {x : Nat} :
    NewTable g s s₁ x ↔ x ∈ new := by
  constructor
  · intro hx
    obtain ⟨hframe, hused⟩ := hs.tree.tables x hx.1
    rcases (h.used _).mp hused with hold | ⟨frame, hmem, hpage⟩
    · exact absurd hold (hs.fresh x hx)
    · have halign := hframe.1
      have halign' := (h.frames frame hmem).1.1
      obtain rfl : frame = x := by omega
      exact hmem
  · intro hmem
    obtain ⟨hframe, hclear⟩ := h.frames x hmem
    rcases (hs.used _).mp ((h.used _).mpr (.inr ⟨x, hmem, rfl⟩)) with hold | ⟨y, hy, hpage⟩
    · exact absurd hold hclear
    · have halign := hframe.1
      have halign' := (hs.tree.tables y hy.1).1.1
      obtain rfl : y = x := by omega
      exact hy

structure Kept (g : PagingSetup Physical) (s s' : Paging Physical) : Prop where
  tree : Tree g s'
  books : Books g s'
  lost : ∀ t, Lost g s t → Lost g s' t

theorem Kept.trans (h : Kept g s s₁) (h' : Kept g s₁ s') : Kept g s s' :=
  ⟨h'.tree, h'.books, fun t ht => h'.lost t (h.lost t ht)⟩

theorem Books.descended {new : List Nat} (h : Books g s) (hs : Descended g s s₁)
    (hnew : Obtained g s s₁ new) : Kept g s s₁ ∧ (Accounted g s → Accounted g s₁) := by
  have hmem {x : Nat} : x ∈ tableFrames g.pml4Table s₁.events ↔
      NewTable g s s₁ x ∨ x ∈ tableFrames g.pml4Table s.events := by
    rw [hnew.mem_tableFrames, hnew.newTable_iff hs]
  refine ⟨⟨hs.tree, ⟨fun x hx => ?_, fun x hx => ?_⟩, fun x hx => ?_⟩, fun hall x => ?_⟩
  · by_cases hold : Radix.IsTable link s.memory g.pml4Table x
    · exact hmem.mpr (.inr (h.tables x hold))
    · exact hmem.mpr (.inl ⟨hx, hold⟩)
  · rcases hmem.mp hx with hx | hx
    · exact hs.tree.tables x hx.1
    · obtain ⟨hframe, hused⟩ := h.used x hx
      exact ⟨hframe, (hs.used _).mpr (.inl hused)⟩
  · refine ⟨hmem.mpr (.inr hx.1), fun htable => ?_⟩
    exact hs.fresh x ⟨htable, hx.2⟩ (h.used x hx.1).2
  · rw [hmem, hall x]
    constructor
    · rintro (hx | hx)
      · exact hx.1
      · exact hs.isTable hx
    · intro hx
      by_cases hold : Radix.IsTable link s.memory g.pml4Table x
      · exact .inr hold
      · exact .inl ⟨hx, hold⟩

/-! ### The entry of a page -/

theorem Books.congr (h : Books g s) (hfind : ∀ q, Radix.find link s'.memory 0 g.pml4Table q =
      Radix.find link s.memory 0 g.pml4Table q)
    (hevents : tableFrames g.pml4Table s'.events = tableFrames g.pml4Table s.events)
    (hused : ∀ page, s'.Used page ↔ s.Used page) (htree : Tree g s') :
    Kept g s s' ∧ (Accounted g s' ↔ Accounted g s) := by
  have htable (x : Nat) : Radix.IsTable link s'.memory g.pml4Table x ↔
      Radix.IsTable link s.memory g.pml4Table x := by
    unfold Radix.IsTable
    simp only [hfind]
  refine ⟨⟨htree, ⟨fun x hx => ?_, fun x hx => ?_⟩, fun x hx => ?_⟩, ?_⟩
  · rw [hevents]
    exact h.tables x ((htable x).mp hx)
  · rw [hused]
    exact h.used x (hevents ▸ hx)
  · exact ⟨hevents ▸ hx.1, (htable x).not.mpr hx.2⟩
  · unfold Accounted
    simp only [hevents, htable]

section Cut

variable {c : Nat} (h : Books g s) (htree : Tree g s)
  (hp : Radix.find link s.memory 0 g.pml4Table p = some t)
  (hbelow : Radix.find link s.memory 0 g.pml4Table (p ++ [i]) = some c)
  (hleaf : link p.length e = none)

/-- The state after the table is freed and the page is in its place. -/
def replaced (g : PagingSetup Physical) (s : Paging Physical) (t i e c : Nat) : Paging Physical :=
  (freeFrame g s c 1).setEntry t i e

include htree hbelow

theorem mem_tableFrames_replaced {x : Nat} (h : Books g s) :
    x ∈ tableFrames g.pml4Table (replaced g s t i e c).events ↔
      x ∈ tableFrames g.pml4Table s.events ∧ x ≠ c := by
  change x ∈ (tableFrames g.pml4Table s.events).filter _ ↔ _
  rw [Finset.mem_filter]
  refine and_congr_right fun hx => ?_
  have halign := (h.used x hx).1.1
  have halign' := (htree.tables c ⟨_, hbelow⟩).1.1
  omega

theorem used_replaced (page : Nat) :
    (replaced g s t i e c).Used page ↔ s.Used page ∧ page ≠ c / 4096 := by
  have hframe := (htree.tables c ⟨_, hbelow⟩).1
  change Physical.bit (g.allocator.free s.frames c 1).bitmap page = true ↔ _
  rw [free_eq htree.allocator, Physical.bit_freeFrame hframe.1 Nat.one_pos]
  refine and_congr_right fun _ => ?_
  omega

include hp hleaf

omit hbelow in
theorem isTable_replaced {x : Nat} :
    Radix.IsTable link (replaced g s t i e c).memory g.pml4Table x ↔
      ∃ q, ¬ p ++ [i] <+: q ∧ Radix.find link s.memory 0 g.pml4Table q = some x :=
  exists_congr fun _ => (htree.cuttable hp hleaf).find_iff

include h

/-- Of the tables that are cut off only the first is freed. -/
theorem Books.replaced (htree' : Tree g (Paging.replaced g s t i e c)) :
    Kept g s (Paging.replaced g s t i e c) ∧
      (∀ q x, p ++ [i] <+: q → q ≠ p ++ [i] → Radix.find link s.memory 0 g.pml4Table q = some x →
        Lost g (Paging.replaced g s t i e c) x) ∧
      (Accounted g s → (∀ q x, p ++ [i] <+: q → q ≠ p ++ [i] →
        Radix.find link s.memory 0 g.pml4Table q ≠ some x) → Accounted g (Paging.replaced g s t i e c)) := by
  have hframes {x : Nat} : x ∈ tableFrames g.pml4Table (Paging.replaced g s t i e c).events ↔
      x ∈ tableFrames g.pml4Table s.events ∧ x ≠ c := mem_tableFrames_replaced htree hbelow h
  have htables {x : Nat} : Radix.IsTable link (Paging.replaced g s t i e c).memory g.pml4Table x ↔
      ∃ q, ¬ p ++ [i] <+: q ∧ Radix.find link s.memory 0 g.pml4Table q = some x :=
    isTable_replaced htree hp hleaf
  have hother {q : List Nat} {x : Nat} (hx : Radix.find link s.memory 0 g.pml4Table q = some x)
      (hq : q ≠ p ++ [i]) : x ≠ c := by
    rintro rfl
    exact hq (htree.unshared _ _ _ hx hbelow)
  refine ⟨⟨htree', ⟨fun x hx => ?_, fun x hx => ?_⟩, fun x hx => ?_⟩, fun q x hq hne hx => ?_,
    fun hall hnone x => ?_⟩
  · obtain ⟨q, hq, hold⟩ := htables.mp hx
    exact hframes.mpr ⟨h.tables x ⟨q, hold⟩, hother hold fun heq => hq (heq ▸ List.prefix_refl _)⟩
  · obtain ⟨hmem, hne⟩ := hframes.mp hx
    obtain ⟨hframe, hused⟩ := h.used x hmem
    have halign := hframe.1
    have halign' := (htree.tables c ⟨_, hbelow⟩).1.1
    exact ⟨hframe, (used_replaced htree hbelow _).mpr ⟨hused, by omega⟩⟩
  · refine ⟨hframes.mpr ⟨hx.1, ?_⟩, fun htable => ?_⟩
    · rintro rfl
      exact hx.2 ⟨_, hbelow⟩
    · obtain ⟨q, -, hold⟩ := htables.mp htable
      exact hx.2 ⟨q, hold⟩
  · refine ⟨hframes.mpr ⟨h.tables x ⟨q, hx⟩, hother hx hne⟩, fun htable => ?_⟩
    obtain ⟨q', hq', hx'⟩ := htables.mp htable
    exact hq' (htree.unshared _ _ _ hx hx' ▸ hq)
  · rw [hframes, hall x, htables]
    constructor
    · rintro ⟨⟨q, hq⟩, hne⟩
      refine ⟨q, fun hprefix => ?_, hq⟩
      by_cases hhere : q = p ++ [i]
      · rw [hhere, hbelow] at hq
        exact hne (Option.some.inj hq).symm
      · exact hnone q x hprefix hhere hq
    · rintro ⟨q, hq, hx⟩
      exact ⟨⟨q, hx⟩, hother hx fun heq => hq (heq ▸ List.prefix_refl _)⟩

end Cut

theorem find_length {x : Nat} (h : Radix.find link s.memory 0 g.pml4Table q = some x) : q.length ≤ 3 := by
  by_contra hlong
  obtain ⟨r, i, rfl⟩ : ∃ r i, q = r ++ [i] := by
    rcases List.eq_nil_or_concat q with rfl | ⟨r, i, rfl⟩
    · exact absurd (Nat.zero_le 3) hlong
    · exact ⟨r, i, List.concat_eq_append⟩
  rw [Radix.find_append] at h
  obtain ⟨y, hy, hlast⟩ := Option.bind_eq_some_iff.mp h
  rw [Radix.find_cons, Nat.zero_add] at hlast
  obtain ⟨z, hz, -⟩ := Option.bind_eq_some_iff.mp hlast
  have hdepth := (link_eq_some hz).2.2
  rw [List.length_append, List.length_singleton] at hlong
  omega

/-- A large page in the place of an entry, be it a table or none. -/
theorem Books.writeLarge (h : Books g s) (htree : Tree g s)
    (hp : Radix.find link s.memory 0 g.pml4Table p = some t)
    (hlength : p.length = 1 ∨ p.length = 2) (hleaf : link p.length e = none) :
    Kept g s ((freeTable g s t i).setEntry t i e) ∧
      (∀ q x, p ++ [i] <+: q → q ≠ p ++ [i] → Radix.find link s.memory 0 g.pml4Table q = some x →
        Lost g ((freeTable g s t i).setEntry t i e) x) ∧
      (Accounted g s → (∀ q x, p ++ [i] <+: q → q ≠ p ++ [i] →
        Radix.find link s.memory 0 g.pml4Table q ≠ some x) →
          Accounted g ((freeTable g s t i).setEntry t i e)) := by
  have htree' := htree.writeLarge (i := i) hp hleaf hlength
  by_cases htable : s.memory t i &&& pmlPresent ≠ 0 ∧ s.memory t i &&& pmlPageSize = 0
  · have hlink : link p.length (s.memory t i) = some (s.memory t i &&& pmlAddrMask) := by
      rcases hlength with heq | heq <;> rw [heq] <;>
        exact if_pos ⟨htable.1, not_not.mpr htable.2⟩
    have hbelow : Radix.find link s.memory 0 g.pml4Table (p ++ [i]) =
        some (s.memory t i &&& pmlAddrMask) := by
      rw [Radix.find_snoc hp, Nat.zero_add, hlink]
    have hfree : freeTable g s t i = freeFrame g s (s.memory t i &&& pmlAddrMask) 1 := if_pos htable
    rw [hfree] at htree' ⊢
    exact h.replaced htree hp hbelow hleaf htree'
  · have hfree : freeTable g s t i = s := if_neg htable
    rw [hfree] at htree' ⊢
    have hnone : link p.length (s.memory t i) = none := by
      rcases hlength with heq | heq <;> rw [heq] <;>
        exact if_neg fun hboth => htable ⟨hboth.1, not_not.mp hboth.2⟩
    have hmemory : (s.setEntry t i e).memory = Radix.write s.memory t i e := rfl
    obtain ⟨hkept, haccounted⟩ :=
      h.congr (htree.find_write hp hleaf hmemory hnone) rfl (fun _ => Iff.rfl) htree'
    refine ⟨hkept, fun q x hq hne hx => ?_, fun hall _ => haccounted.mpr hall⟩
    obtain ⟨r, rfl⟩ := hq
    rw [Radix.find_append, Radix.find_snoc hp, Nat.zero_add, hnone] at hx
    cases hx

theorem Kept.flush (h : Kept g s s') (virt : Nat) : Kept g s (s'.flushTlbSingle virt) :=
  ⟨h.tree.flush, ⟨h.books.tables, h.books.used⟩, h.lost⟩

/-! ### One page -/

/-- What mapping a page does to the tables. -/
structure Mapped (g : PagingSetup Physical) (kind : PageKind) (virt : Nat) (s s' : Paging Physical) :
    Prop where
  kept : Kept g s s'
  spares : Accounted g s → SparesRegion g s kind virt → Accounted g s'
  loses : ¬ SparesRegion g s kind virt → ∃ t, Lost g s' t
  regions : SparesRegion g s kind virt → ∀ w, SparesRegion g s' kind w ↔ SparesRegion g s kind w

/-- Pages of the two smaller sizes take the place of no page table. -/
theorem mapped_of_kept {kind : PageKind} {virt : Nat} (hkind : kind ≠ .page1G) (hkept : Kept g s s')
    (haccounted : Accounted g s → Accounted g s') : Mapped g kind virt s s' where
  kept := hkept
  spares hall _ := haccounted hall
  loses hnot := absurd (fun heq => absurd heq hkind) hnot
  regions _ _ := ⟨fun _ heq => absurd heq hkind, fun _ heq => absurd heq hkind⟩

section Page

variable {flags : BitVec 32} {physical virt : Nat} (h : Books g s) (htree : Tree g s)

include h htree

theorem Books.mapOnePage (hphysical : IsFrame physical)
    (hsmall : NotInside 4096 (translate g s) virt)
    (hserved : Served s (mapOnePage g flags physical virt s)) :
    Mapped g .page virt s (Paging.mapOnePage g flags physical virt s) := by
  have htree' := (htree.mapSmallPage hphysical hsmall hserved).1
  obtain ⟨hserved₁, hdescended, hfind⟩ := htree.descend_small hsmall hserved
  set t := (descend g ((indices virt).take 3) g.pml4Table s).1
  set s₁ := (descend g ((indices virt).take 3) g.pml4Table s).2
  obtain ⟨new, hnew⟩ := obtained_descend htree.allocator htree.endPage hserved₁
  obtain ⟨hkept, haccounted⟩ := h.descended hdescended hnew
  have hleaf (e : Nat) : link ((indices virt).take 3).length e = none := rfl
  have hsame : Kept g s₁ (Paging.mapOnePage g flags physical virt s) ∧
      (Accounted g (Paging.mapOnePage g flags physical virt s) ↔ Accounted g s₁) :=
    hkept.books.congr (hkept.tree.find_write hfind (hleaf _) rfl (hleaf _)) rfl (fun _ => Iff.rfl) htree'
  exact mapped_of_kept (by decide) (hkept.trans hsame.1) fun hall => hsame.2.mpr (haccounted hall)

theorem Books.mapLargePage {is : List Nat} {size : Nat} (hlength : is.length = 1 ∨ is.length = 2)
    (hv : is <+: indices virt) (hsize : 1 < is.length → size < sizeAt is.length)
    (hsmall : NotInside size (translate g s) virt)
    (hserved : Served s (mapLargePage g is i flags physical virt s)) :
    Kept g s (Paging.mapLargePage g is i flags physical virt s) ∧
      (∀ q x, is ++ [i] <+: q → q ≠ is ++ [i] → Radix.find link s.memory 0 g.pml4Table q = some x →
        Lost g (Paging.mapLargePage g is i flags physical virt s) x) ∧
      (Accounted g s → (∀ q x, is ++ [i] <+: q → q ≠ is ++ [i] →
        Radix.find link s.memory 0 g.pml4Table q ≠ some x) →
          Accounted g (Paging.mapLargePage g is i flags physical virt s)) ∧
      ∀ q x, is.length < q.length → (Radix.find link
        (Paging.mapLargePage g is i flags physical virt s).memory 0 g.pml4Table q = some x ↔
          ¬ is ++ [i] <+: q ∧ Radix.find link s.memory 0 g.pml4Table q = some x) := by
  obtain ⟨hserved₁, hdescended, honPath, hfind⟩ := htree.descend_large hlength hv hsize hsmall hserved
  unfold Paging.mapLargePage
  set t := (descend g is g.pml4Table s).1
  set s₁ := (descend g is g.pml4Table s).2
  obtain ⟨new, hnew⟩ := obtained_descend htree.allocator htree.endPage hserved₁
  obtain ⟨hkept, haccounted⟩ := h.descended hdescended hnew
  have hleaf := link_leaf_large hlength g.supportExecuteDisable flags physical
  obtain ⟨hwritten, hlost, hspared⟩ := hkept.books.writeLarge (i := i) hkept.tree hfind hlength hleaf
  -- the tables that the descent obtained are not below the entry
  have hdeep {q : List Nat} {x : Nat} (hq : is.length < q.length) :
      Radix.find link s₁.memory 0 g.pml4Table q = some x ↔
        Radix.find link s.memory 0 g.pml4Table q = some x := by
    refine ⟨fun hx => ?_, hdescended.find q x⟩
    rcases honPath q x hx with hold | hprefix
    · exact hold
    · exact absurd hprefix.length_le (Nat.not_le_of_lt hq)
  have hbelow {q : List Nat} (hq : is ++ [i] <+: q) : is.length < q.length := by
    have hle := hq.length_le
    rw [List.length_append, List.length_singleton] at hle
    omega
  refine ⟨(hkept.trans hwritten).flush virt, fun q x hq hne hx => ?_, fun hall hnone => ?_,
    fun q x hq => ?_⟩
  · exact hlost q x hq hne ((hdeep (hbelow hq)).mpr hx)
  · exact hspared (haccounted hall) fun q x hq hne hx => hnone q x hq hne ((hdeep (hbelow hq)).mp hx)
  · rw [← hdeep hq]
    have hmemory : ((freeTable g s₁ t i).setEntry t i
        (leaf pmlPageSize g.supportExecuteDisable physical flags)).memory =
          Radix.write s₁.memory t i (leaf pmlPageSize g.supportExecuteDisable physical flags) := by
      unfold setEntry freeTable
      split <;> rfl
    change Radix.find link ((freeTable g s₁ t i).setEntry t i _).memory 0 g.pml4Table q = some x ↔ _
    rw [hmemory]
    exact (hkept.tree.cuttable hfind hleaf).find_iff

/-- Below an entry of a PML2 table there is no table but its own. -/
theorem Books.mapOnePage2M (hsmall : NotInside 2097152 (translate g s) virt)
    (hserved : Served s (mapOnePage2M g flags physical virt s)) :
    Mapped g .page2M virt s (Paging.mapOnePage2M g flags physical virt s) := by
  rw [mapOnePage2M_eq] at hserved ⊢
  obtain ⟨hkept, -, hspared, -⟩ := h.mapLargePage htree (.inr rfl) (List.take_prefix 2 _)
    (by simp [indices, sizeAt]) hsmall hserved
  refine mapped_of_kept (by decide) hkept fun hall => hspared hall fun q x hq hne hx => ?_
  refine hne (hq.eq_of_length_le ?_).symm
  exact (find_length hx).trans (Nat.le_refl 3)

theorem Books.mapOnePage1G (hsmall : NotInside 1073741824 (translate g s) virt)
    (hserved : Served s (mapOnePage1G g flags physical virt s)) :
    Mapped g .page1G virt s (Paging.mapOnePage1G g flags physical virt s) := by
  rw [mapOnePage1G_eq] at hserved ⊢
  obtain ⟨hkept, hlost, hspared, hfind⟩ := h.mapLargePage htree (.inl rfl) (List.take_prefix 1 _)
    (by simp [indices, sizeAt]) hsmall hserved
  have hregion : (indices virt).take 1 ++ [takeBitfield virt 38 30] = (indices virt).take 2 := rfl
  rw [hregion] at hlost hspared hfind
  -- below a region there are its own table and page tables
  have hstrict {q : List Nat} {x : Nat} (hq : (indices virt).take 2 <+: q) (hne : q ≠ (indices virt).take 2)
      (hx : Radix.find link s.memory 0 g.pml4Table q = some x) : q.length = 3 := by
    have hle := find_length hx
    have hge := hq.length_le
    have htwo : ((indices virt).take 2).length = 2 := rfl
    by_contra hlength
    exact hne (hq.eq_of_length_le (by omega)).symm
  refine ⟨hkept, fun hall hspare => ?_, fun hnot => ?_, fun hspare w => ?_⟩
  · exact hspared hall fun q x hq hne hx => hspare rfl q x hq (hstrict hq hne hx) hx
  · unfold SparesRegion at hnot
    push Not at hnot
    obtain ⟨-, q, x, hq, hlength, hx⟩ := hnot
    refine ⟨x, hlost q x hq ?_ hx⟩
    rintro rfl
    have htwo : ((indices virt).take 2).length = 2 := rfl
    omega
  · have hsame {q : List Nat} {x : Nat} (hlength : q.length = 3) : Radix.find link
        (Paging.mapLargePage g ((indices virt).take 1) (takeBitfield virt 38 30) flags physical virt
          s).memory 0 g.pml4Table q = some x ↔ Radix.find link s.memory 0 g.pml4Table q = some x := by
      rw [hfind q x (hlength ▸ (by decide : 1 < 3)), and_iff_right_iff_imp]
      exact fun hx hq => hspare rfl q x hq hlength hx
    unfold SparesRegion
    refine forall_congr' fun _ => forall₂_congr fun q x => forall₂_congr fun _ hlength => ?_
    exact (hsame hlength).not

end Page

/-! ### The loop over pages -/

structure MapsBooks (g : PagingSetup Physical) (kind : PageKind) (flags : BitVec 32)
    (one : Nat → Nat → Paging Physical → Paging Physical) : Prop
    extends MapsPage g kind.size flags one where
  books : ∀ {s physical virt}, Books g s → Tree g s → physical % kind.size = 0 → physical < 2 ^ 52 →
    NotInside kind.size (translate g s) virt → Served s (one physical virt s) →
    Mapped g kind virt s (one physical virt s)

theorem mapsBooks (g : PagingSetup Physical) (flags : BitVec 32) :
    MapsBooks g .page flags (Paging.mapOnePage g flags) where
  toMapsPage := mapsPage g flags
  books h htree halign hlt hsmall hserved := h.mapOnePage htree ⟨halign, hlt⟩ hsmall hserved

theorem mapsBooks2M (g : PagingSetup Physical) (flags : BitVec 32) :
    MapsBooks g .page2M flags (Paging.mapOnePage2M g flags) where
  toMapsPage := mapsPage2M g flags
  books h htree _ _ hsmall hserved := h.mapOnePage2M htree hsmall hserved

theorem mapsBooks1G (g : PagingSetup Physical) (flags : BitVec 32) :
    MapsBooks g .page1G flags (Paging.mapOnePage1G g flags) where
  toMapsPage := mapsPage1G g flags
  books h htree _ _ hsmall hserved := h.mapOnePage1G htree hsmall hserved

/-- One region that is not spared is enough. -/
theorem Mapped.accounted_iff {kind : PageKind} {virt pageCount : Nat} {next : Nat → Nat}
    (hfirst : Mapped g kind virt s s₁) (hlater : Kept g s₁ s')
    (hpages : Accounted g s₁ → (Accounted g s' ↔ ∀ k < pageCount, SparesRegion g s₁ kind (next k)))
    (hall : Accounted g s) :
    Accounted g s' ↔ SparesRegion g s kind virt ∧ ∀ k < pageCount, SparesRegion g s kind (next k) := by
  by_cases hspares : SparesRegion g s kind virt
  · rw [hpages (hfirst.spares hall hspares), and_iff_right hspares]
    exact forall₂_congr fun k _ => hfirst.regions hspares (next k)
  · obtain ⟨t, hlost⟩ := hfirst.loses hspares
    have hnot : ¬ Accounted g s' := fun hall' =>
      hlater.books.accounted_iff.mp hall' t (hlater.lost t hlost)
    exact iff_of_false hnot fun h => hspares h.1

theorem MapsBooks.mapPages {kind : PageKind} {flags : BitVec 32}
    {one : Nat → Nat → Paging Physical → Paging Physical} (h : MapsBooks g kind flags one)
    {pageCount physical virt : Nat} (hbooks : Books g s) (htree : Tree g s)
    (halign : physical % kind.size = 0) (hphysical : physical + kind.size * pageCount ≤ 2 ^ 52)
    (hvirt : virt < 2 ^ 64)
    (hsmall : ∀ k < pageCount, NotInside kind.size (translate g s) (wrap64 (virt + kind.size * k)))
    (hserved : Served s (mapPages kind.size one pageCount physical virt s)) :
    Kept g s (Paging.mapPages kind.size one pageCount physical virt s) ∧
      (Accounted g s → (Accounted g (Paging.mapPages kind.size one pageCount physical virt s) ↔
        ∀ k < pageCount, SparesRegion g s kind (wrap64 (virt + kind.size * k)))) := by
  have hsize := kind.size_pos
  induction pageCount generalizing physical virt s with
  | zero =>
    exact ⟨⟨htree, hbooks, fun _ => id⟩,
      fun hall => ⟨fun _ k hk => absurd hk k.not_lt_zero, fun _ => hall⟩⟩
  | succ pageCount ih =>
    rw [Nat.mul_succ] at hphysical
    obtain ⟨virts, hrest, -⟩ := h.flushes_mapPages pageCount
      (wrap64 (physical + kind.size)) (one physical virt s) (wrap64_lt (virt + kind.size))
    have hstart : wrap64 (virt + kind.size * 0) = virt := wrap64_of_lt hvirt
    have hnext (k : Nat) : wrap64 (virt + kind.size * (k + 1)) =
        wrap64 (wrap64 (virt + kind.size) + kind.size * k) := by
      rw [Nat.mul_succ]
      unfold wrap64
      omega
    have hsmall₀ : NotInside kind.size (translate g s) virt := hstart ▸ hsmall 0 (Nat.succ_pos _)
    unfold Paging.mapPages at hserved ⊢
    obtain ⟨hserved₁, hserved₂⟩ := hserved.split (h.flushes physical virt s) hrest
    have hfirst := h.books hbooks htree halign (by omega) hsmall₀ hserved₁
    obtain ⟨-, htranslate⟩ := h.maps htree halign (by omega) hsmall₀ hserved₁
    set s₁ := one physical virt s
    have hlater : Kept g s₁ (Paging.mapPages kind.size one pageCount (wrap64 (physical + kind.size))
          (wrap64 (virt + kind.size)) s₁) ∧
        (Accounted g s₁ → (Accounted g (Paging.mapPages kind.size one pageCount
            (wrap64 (physical + kind.size)) (wrap64 (virt + kind.size)) s₁) ↔
          ∀ k < pageCount, SparesRegion g s₁ kind (wrap64 (wrap64 (virt + kind.size) + kind.size * k)))) := by
      -- the physical address wraps around after the last page only
      rcases Nat.eq_zero_or_pos pageCount with rfl | hpos
      · exact ⟨⟨hfirst.kept.tree, hfirst.kept.books, fun _ => id⟩,
          fun hall => ⟨fun _ k hk => absurd hk k.not_lt_zero, fun _ => hall⟩⟩
      have hwrap : wrap64 (physical + kind.size) = physical + kind.size := by
        have hle := Nat.le_mul_of_pos_right kind.size hpos
        exact wrap64_of_lt (by omega)
      rw [hwrap] at hserved₂ ⊢
      refine ih hfirst.kept.books hfirst.kept.tree (by rw [Nat.add_mod_right, halign]) (by omega)
        (wrap64_lt _) (fun k hk => ?_) hserved₂
      rw [htranslate, ← hnext]
      exact (hsmall (k + 1) (Nat.succ_lt_succ hk)).mapOne _ _ _ _
    refine ⟨hfirst.kept.trans hlater.1, fun hall => ?_⟩
    rw [hfirst.accounted_iff hlater.1 hlater.2 hall, Nat.forall_lt_succ_left, hstart]
    simp only [hnext]

/-! ### Runs -/

theorem sizedStep_spec {c : SizedCall} (hall : Accounted g s) (htree : Tree g s) (hproper : Proper g s c)
    (hstep : sizedStep g s c = some s') :
    Tree g s' ∧ (Accounted g s' ↔ SparesTables g s c) := by
  have hbooks := hall.books htree
  have hserved := hproper.served s' hstep
  have hpages {kind : PageKind} {one : Nat → Nat → Paging Physical → Paging Physical}
      (h : MapsBooks g kind c.flags one) (hkind : c.kind = kind) (halign : c.physical % kind.size = 0)
      (hstate : s' = mapPages kind.size one c.pageCount c.physical c.virt s) :
      Tree g s' ∧ (Accounted g s' ↔ SparesTables g s c) := by
    obtain rfl := hkind
    rw [hstate] at hserved ⊢
    obtain ⟨hkept, hiff⟩ := h.mapPages hbooks htree halign hproper.physical_le hproper.virt_lt
      hproper.outermost hserved
    exact ⟨hkept.tree, hiff hall⟩
  unfold sizedStep at hstep
  split at hstep
  case h_1 hkind =>
    obtain ⟨halign, hstate⟩ := Option.ite_none_right_eq_some.mp hstep
    exact hpages (mapsBooks g c.flags) hkind halign.1 (Option.some.inj hstate).symm
  case h_2 hkind =>
    obtain ⟨halign, hstate⟩ := Option.ite_none_right_eq_some.mp hstep
    exact hpages (mapsBooks2M g c.flags) hkind halign.1 (Option.some.inj hstate).symm
  case h_3 hkind =>
    obtain ⟨halign, hstate⟩ := Option.ite_none_right_eq_some.mp hstep
    exact hpages (mapsBooks1G g c.flags) hkind halign.1 (Option.some.inj hstate).symm

theorem Accounted.initial (hempty : ∀ i, s.memory g.pml4Table i = 0) (hevents : s.events = []) :
    Accounted g s := by
  intro t
  rw [hevents, tableFrames, Finset.mem_singleton]
  constructor
  · rintro rfl
    exact ⟨[], rfl⟩
  · rintro ⟨q, hq⟩
    exact (Radix.find_of_empty link_zero hempty hq).2

/-- **Accounting.** From an empty PML4 the frames obtained for tables are the tables in every state of a
run exactly when no page of 1 GiB takes the place of page tables. -/
theorem tables_accounted_iff {calls : List SizedCall} (hallocator : g.allocator = bitmapAllocator)
    (hend : s.frames.endPhysicalPage ≤ 2 ^ 31) (hframe : IsFrame g.pml4Table)
    (hused : s.Used (g.pml4Table / 4096)) (hempty : ∀ i, s.memory g.pml4Table i = 0)
    (hevents : s.events = []) (hproper : Run.EachStep (sizedStep g) (Proper g) s calls) :
    Run.Always (sizedStep g) (Accounted g) s calls ↔
      Run.EachStep (sizedStep g) (SparesTables g) s calls := by
  refine Run.always_iff_eachStep_of (I := fun s => Tree g s ∧ Accounted g s) ?_ (fun _ h => h.2) ?_
    ⟨Tree.initial hallocator hend hframe hused hempty, Accounted.initial hempty hevents⟩ hproper
  · intro s c s' hs hp hstep hspares
    obtain ⟨htree, hiff⟩ := sizedStep_spec hs.2 hs.1 hp hstep
    exact ⟨htree, hiff.mpr hspares⟩
  · intro s c s' hs hp hstep hnot hall
    exact hnot ((sizedStep_spec hs.2 hs.1 hp hstep).2.mp hall)

def lonePage (kind : PageKind) : SizedCall :=
  { kind, physical := 0x40000000, virt := 0x40000000, pageCount := 1, flags := mapProtWrite }

theorem translate_lonePage (h : sizedStep loneSetup lonePml4 (lonePage .page) = some s') :
    Tree loneSetup s' ∧ translate loneSetup s' =
      FlatMap.mapOne 4096 true mapProtWrite 0x40000000 0x40000000 fun _ => none := by
  have hserved : Served lonePml4 (mapOnePage loneSetup mapProtWrite 0x40000000 0x40000000 lonePml4) := by
    decide
  have hnone : translate loneSetup lonePml4 = fun _ => none := funext translate_lonePml4
  have hsmall : NotInside 4096 (translate loneSetup lonePml4) 0x40000000 :=
    notInside_of_none (translate_lonePml4 _)
  obtain ⟨htree, -, htranslate⟩ := tree_lonePml4.mapSmallPage ⟨by decide, by decide⟩ hsmall hserved
  obtain rfl := Option.some.inj h
  exact ⟨htree, hnone ▸ htranslate⟩

theorem proper_lonePages (kind : PageKind) :
    Run.EachStep (sizedStep loneSetup) (Proper loneSetup) lonePml4 [lonePage .page, lonePage kind] := by
  intro s₁ h₁
  have hserved : ∀ s', sizedStep loneSetup lonePml4 (lonePage .page) = some s' → Served lonePml4 s' := by
    intro s' h
    obtain rfl := Option.some.inj h
    decide
  have hlt : 0x40000000 < 2 ^ 64 := by decide
  refine ⟨⟨by decide, hlt, fun k _ t ht => ?_, hserved⟩,
    fun _ _ => ⟨⟨by cases kind <;> decide, hlt, fun k _ t ht => ?_, fun s' h => ?_⟩, trivial⟩⟩
  · rw [translate_lonePml4] at ht
    cases ht
  · rw [(translate_lonePage h₁).2] at ht
    obtain ⟨-, heq⟩ := Option.ite_none_right_eq_some.mp ht
    rw [← Option.some.inj heq]
    change 4096 ≤ kind.size
    cases kind <;> decide
  · obtain rfl := Option.some.inj h₁
    cases kind
    all_goals
      obtain rfl := Option.some.inj h
      decide

theorem tables_accounted_page2M :
    Run.Always (sizedStep loneSetup) (Accounted loneSetup) lonePml4
      [lonePage .page, lonePage .page2M] := by
  refine (tables_accounted_iff rfl (by decide) (by decide) (by unfold Used; decide) (fun _ => rfl)
    rfl (proper_lonePages .page2M)).mpr
      fun s₁ _ => ⟨fun k _ heq => ?_, fun _ _ => ⟨fun k _ heq => ?_, trivial⟩⟩
  · cases heq
  · cases heq

theorem page_table_lost :
    Run.EachStep (sizedStep loneSetup) (Proper loneSetup) lonePml4 [lonePage .page, lonePage .page1G] ∧
      ¬ Run.Always (sizedStep loneSetup) (Accounted loneSetup) lonePml4
        [lonePage .page, lonePage .page1G] := by
  have hproper := proper_lonePages .page1G
  refine ⟨hproper, fun halways => ?_⟩
  obtain ⟨s₁, h₁⟩ : ∃ s₁, sizedStep loneSetup lonePml4 (lonePage .page) = some s₁ := ⟨_, rfl⟩
  obtain ⟨s₂, h₂⟩ : ∃ s₂, sizedStep loneSetup s₁ (lonePage .page1G) = some s₂ := ⟨_, rfl⟩
  have hall := halways.2 s₁ h₁
  have hspares := (sizedStep_spec hall.head (translate_lonePage h₁).1 ((hproper s₁ h₁).2 s₂ h₂).1 h₂).2.mp
    (hall.2 s₂ h₂).head
  obtain ⟨t, ht⟩ : ∃ t, Radix.find link s₁.memory 0 loneSetup.pml4Table [0, 1, 0] = some t := by
    obtain rfl := Option.some.inj h₁
    exact Option.isSome_iff_exists.mp (by decide)
  exact hspares 0 (by decide) rfl [0, 1, 0] t (by decide) rfl ht

end Paging

end Helos
