import Helos.Memory.AllocateReturns
import Helos.Memory.InsidePages

/-!
# The frames that are linked as tables

`paging_physical_AllocateOneFrame` says by the address 0 that there is no frame, and its callers in
`paging_map.c` do not look: where an entry is not present they link what they get.
-/

namespace Helos

open PageEntry

namespace Paging

/-! ### Entries that are asked for tables -/

section Setup

variable {σ : Type} (g : PagingSetup σ)

/-- An entry that a call comes to on its way down, and the state it is found in. -/
structure Visit (σ : Type) where
  paging : Paging σ
  table : Nat
  i : Nat

def Visit.Absent (v : Visit σ) : Prop := v.paging.memory v.table v.i &&& pmlPresent = 0

def Visit.next (v : Visit σ) : Nat × Paging σ := nextTable g v.paging v.table v.i

def visits : List Nat → Nat → Paging σ → List (Visit σ)
  | [], _, _ => []
  | i :: is, t, s => ⟨s, t, i⟩ :: visits is (nextTable g s t i).1 (nextTable g s t i).2

/-- Those of the loop over pages; `depth` counts the levels of tables that may be missing. -/
def pageVisits (depth size : Nat) (mapOne : Nat → Nat → Paging σ → Paging σ) :
    Nat → Nat → Nat → Paging σ → List (Visit σ)
  | 0, _, _, _ => []
  | pageCount + 1, physical, virt, s =>
    visits g ((indices virt).take depth) g.pml4Table s ++
      pageVisits depth size mapOne pageCount (wrap64 (physical + size)) (wrap64 (virt + size))
        (mapOne physical virt s)

def callVisits (s : Paging σ) (c : MapCall) : List (Visit σ) :=
  if c.large then pageVisits g 2 2097152 (mapOnePage2M g c.flags) c.pageCount c.physical c.virt s
  else pageVisits g 3 4096 (mapOnePage g c.flags) c.pageCount c.physical c.virt s

/-- Each table that is linked from `s` to `s'` was allocated in between. An entry that is present is not
linked to anything; what becomes of a large page there is in `exists_large_visit`. -/
def LinksAllocated (s s' : Paging σ) (c : MapCall) : Prop :=
  ∀ v ∈ callVisits g s c, v.Absent → .allocated (some (v.next g).1) ∈ newEvents s s'

end Setup

/-- Whenever an entry is not present, a clear page is ahead of the cursor. -/
def Provided (g : PagingSetup Physical) (s : Paging Physical) (c : MapCall) : Prop :=
  ∀ v ∈ callVisits g s c, v.Absent → v.paging.frames.clearAhead.Nonempty

/-! ### Entries that are present -/

section Present

variable {σ : Type} {g : PagingSetup σ} {s : Paging σ}

theorem Visit.next_present {v : Visit σ} (h : ¬ v.Absent) :
    v.next g = (v.paging.memory v.table v.i &&& pmlAddrMask, v.paging) := by
  unfold Absent at h
  simp only [next, nextTable, if_neg h]

theorem visits_append {p is : List Nat} {d t c : Nat} (hp : Radix.find link s.memory d t p = some c) :
    visits g (p ++ is) t s = visits g p t s ++ visits g is c s := by
  induction p generalizing d t with
  | nil =>
    obtain rfl := Option.some.inj hp
    rfl
  | cons j p ih =>
    rw [Radix.find_cons] at hp
    obtain ⟨c', hlink, hrest⟩ := Option.bind_eq_some_iff.mp hp
    rw [List.cons_append, visits, visits, nextTable_of_link hlink]
    exact congrArg _ (ih hrest)

end Present

/-- On the way to a page inside a larger one the code comes to that one, allocates and links nothing, and
goes on in the larger page as if it were a table. -/
theorem exists_large_visit {g : PagingSetup Physical} {s : Paging Physical} {size n virt : Nat} (hn : n ≤ 3)
    (hsize : Translation.sizeAt (n + 1) ≤ size) (hinside : ¬ NotInside size (translate g s) virt) :
    ∃ v ∈ visits g ((indices virt).take n) g.pml4Table s, v.paging = s ∧ PageSize (s.memory v.table v.i) ∧
      v.next g = (s.memory v.table v.i &&& pmlAddrMask, s) := by
  obtain ⟨p, t, i, rest, hrest, -, htable, hpresent, hroot, hleaf⟩ := exists_larger hn hsize hinside
  have hlength : p.length = 1 ∨ p.length = 2 := by
    have hcount := congrArg List.length hrest
    rw [List.length_append, List.length_cons, List.length_take] at hcount
    omega
  refine ⟨⟨s, t, i⟩, ?_, rfl, ?_, Visit.next_present hpresent⟩
  · rw [← hrest, visits_append htable]
    exact List.mem_append_right _ List.mem_cons_self
  · by_contra hsmall
    have hlink : link p.length (s.memory t i) = some (s.memory t i &&& pmlAddrMask) := by
      rcases hlength with h | h <;> rw [h] <;> exact if_pos ⟨hpresent, hsmall⟩
    cases hleaf.symm.trans hlink

/-! ### What stays the same -/

/-- The record and the cursor go forward, and page 0 is not handed out. -/
structure Later (s s' : Paging Physical) : Prop where
  events : s.events <:+ s'.events
  cursor : s.frames.phyI ≤ s'.frames.phyI
  endPage : s'.frames.endPhysicalPage = s.frames.endPhysicalPage
  zero : 0 < s.frames.phyI →
    s'.events.count (.allocated (some 0)) = s.events.count (.allocated (some 0))

section Later

variable {g : PagingSetup Physical} {s s₁ s' : Paging Physical}

theorem Later.refl (s : Paging Physical) : Later s s :=
  ⟨List.suffix_refl _, Nat.le_refl _, rfl, fun _ => rfl⟩

theorem Later.trans (h : Later s s₁) (h' : Later s₁ s') : Later s s' :=
  ⟨h.events.trans h'.events, h.cursor.trans h'.cursor, h'.endPage.trans h.endPage,
    fun hpos => (h'.zero (Nat.lt_of_lt_of_le hpos h.cursor)).trans (h.zero hpos)⟩

theorem Later.mem_newEvents (h : Later s s₁) (h' : Later s₁ s') {event : PagingEvent} {last : Paging Physical}
    (hlast : Later s' last) (hmem : event ∈ newEvents s₁ s') : event ∈ newEvents s last := by
  obtain ⟨events, hevents⟩ := h.events
  obtain ⟨events', hevents'⟩ := h'.events
  obtain ⟨events'', hevents''⟩ := hlast.events
  rw [newEvents_eq hevents'.symm] at hmem
  have hall : last.events = (events'' ++ events' ++ events) ++ s.events := by
    rw [← hevents'', ← hevents', ← hevents]
    simp
  rw [newEvents_eq hall]
  exact List.mem_append_left _ (List.mem_append_right _ hmem)

theorem Later.zero_not_mem (h : Later s s') (hpos : 0 < s.frames.phyI) :
    .allocated (some 0) ∉ newEvents s s' := by
  obtain ⟨events, hevents⟩ := h.events
  have hcount := h.zero hpos
  rw [newEvents_eq hevents.symm]
  rw [← hevents, List.count_append] at hcount
  exact List.count_eq_zero.mp (by omega)

theorem allocateFrame_later (p : Physical) :
    p.phyI ≤ p.allocateFrame.1.phyI ∧ p.allocateFrame.1.endPhysicalPage = p.endPhysicalPage ∧
      (0 < p.phyI → p.allocateFrame.2 ≠ some 0) := by
  unfold Physical.allocateFrame
  split
  · next i hscan => exact ⟨(Physical.scan_spec hscan).1, rfl, fun _ => nofun⟩
  · next i j hscan =>
    have hle := (Physical.scan_spec hscan).1
    refine ⟨hle, rfl, fun hpos hzero => ?_⟩
    have haddr := Option.some.inj hzero
    unfold bitmapBits systemPageSize at haddr
    omega

end Later

section Calls

variable {g : PagingSetup Physical} (hallocator : g.allocator = bitmapAllocator)
  {s s' : Paging Physical}

include hallocator

theorem later_nextTable (s : Paging Physical) (t i : Nat) : Later s (nextTable g s t i).2 := by
  obtain ⟨hcursor, hend, hzero⟩ := allocateFrame_later s.frames
  obtain ⟨-, hnext⟩ | ⟨-, frames, halloc, hnext⟩ | ⟨-, frame, frames, halloc, hnext⟩ :=
    nextTable_cases g s t i
  · rw [hnext]
    exact Later.refl s
  · rw [allocateFrame_of_allocate hallocator halloc] at hcursor hend
    rw [hnext]
    exact ⟨⟨[.allocated none], rfl⟩, hcursor, hend, fun _ => List.count_cons_of_ne (by simp)⟩
  · rw [allocateFrame_of_allocate hallocator halloc] at hcursor hend hzero
    rw [hnext]
    refine ⟨⟨[.allocated (some frame)], rfl⟩, hcursor, hend, fun hpos => List.count_cons_of_ne ?_⟩
    intro heq
    exact hzero hpos (PagingEvent.allocated.inj heq)

theorem later_descend (is : List Nat) (t : Nat) (s : Paging Physical) :
    Later s (descend g is t s).2 := by
  induction is generalizing t s with
  | nil => exact Later.refl s
  | cons i is ih => exact (later_nextTable hallocator s t i).trans (ih _ _)

omit hallocator in
theorem later_setEntry (s : Paging Physical) (t i e virt : Nat) :
    Later s ((s.setEntry t i e).flushTlbSingle virt) :=
  ⟨⟨[.flushed virt], rfl⟩, Nat.le_refl _, rfl, fun _ => List.count_cons_of_ne (by simp)⟩

theorem later_freeTable (s : Paging Physical) (t i : Nat) : Later s (freeTable g s t i) := by
  unfold freeTable
  split
  · refine ⟨⟨[.freed _ 1], rfl⟩, ?_, ?_, fun _ => List.count_cons_of_ne (by simp)⟩
    · change _ ≤ (g.allocator.free _ _ _).phyI
      rw [free_eq hallocator]
      unfold Physical.freeFrame
      split <;> exact Nat.le_refl _
    · change (g.allocator.free _ _ _).endPhysicalPage = _
      rw [free_eq hallocator, Physical.endPhysicalPage_freeFrame]
  · exact Later.refl s

omit hallocator in
theorem later_mapOnePage (flags : BitVec 32) (physical virt : Nat) (s : Paging Physical) :
    Later (descend g ((indices virt).take 3) g.pml4Table s).2 (mapOnePage g flags physical virt s) :=
  later_setEntry _ _ _ _ _

theorem later_mapOnePage2M (flags : BitVec 32) (physical virt : Nat) (s : Paging Physical) :
    Later (descend g ((indices virt).take 2) g.pml4Table s).2
      (mapOnePage2M g flags physical virt s) :=
  (later_freeTable hallocator _ _ _).trans (later_setEntry _ _ _ _ _)

/-! ### Visits -/

/-- An entry is come to after the start of the descent, and left before its end. -/
theorem mem_visits {is : List Nat} {t : Nat} {v : Visit Physical} (h : v ∈ visits g is t s) :
    Later s v.paging ∧ Later (v.next g).2 (descend g is t s).2 := by
  induction is generalizing t s with
  | nil => cases h
  | cons i is ih =>
    rcases List.mem_cons.mp h with rfl | hlater
    · exact ⟨Later.refl s, later_descend hallocator is _ _⟩
    · obtain ⟨hbefore, hafter⟩ := ih hlater
      exact ⟨(later_nextTable hallocator s t i).trans hbefore, hafter⟩

section Pages

variable {depth size : Nat} {mapOne : Nat → Nat → Paging Physical → Paging Physical}
  (hone : ∀ physical virt s,
    Later (descend g ((indices virt).take depth) g.pml4Table s).2 (mapOne physical virt s))

include hone

theorem later_mapPages (pageCount physical virt : Nat) (s : Paging Physical) :
    Later s (mapPages size mapOne pageCount physical virt s) := by
  induction pageCount generalizing physical virt s with
  | zero => exact Later.refl s
  | succ pageCount ih =>
    exact ((later_descend hallocator _ _ s).trans (hone physical virt s)).trans (ih _ _ _)

theorem mem_pageVisits {pageCount physical virt : Nat} {v : Visit Physical}
    (h : v ∈ pageVisits g depth size mapOne pageCount physical virt s) :
    Later s v.paging ∧ Later (v.next g).2 (mapPages size mapOne pageCount physical virt s) := by
  induction pageCount generalizing physical virt s with
  | zero => cases h
  | succ pageCount ih =>
    have hfirst := hone physical virt s
    rcases List.mem_append.mp h with hhere | hlater
    · obtain ⟨hbefore, hafter⟩ := mem_visits hallocator hhere
      exact ⟨hbefore, (hafter.trans hfirst).trans (later_mapPages hallocator hone _ _ _ _)⟩
    · obtain ⟨hbefore, hafter⟩ := ih hlater
      exact ⟨((later_descend hallocator _ _ s).trans hfirst).trans hbefore, hafter⟩

end Pages

theorem mem_callVisits {c : MapCall} {v : Visit Physical} (hstep : step g s c = some s')
    (h : v ∈ callVisits g s c) : Later s v.paging ∧ Later (v.next g).2 s' := by
  unfold callVisits at h
  unfold step mapPage mapPage2M at hstep
  cases hlarge : c.large with
  | true =>
    rw [hlarge, if_pos rfl] at h hstep
    obtain ⟨-, hs'⟩ := Option.ite_none_right_eq_some.mp hstep
    obtain rfl := Option.some.inj hs'
    exact mem_pageVisits hallocator (later_mapOnePage2M hallocator c.flags) h
  | false =>
    rw [hlarge, if_neg Bool.false_ne_true] at h hstep
    obtain ⟨-, hs'⟩ := Option.ite_none_right_eq_some.mp hstep
    obtain rfl := Option.some.inj hs'
    exact mem_pageVisits hallocator (later_mapOnePage c.flags) h

/-- A missing table is allocated where there is a clear page ahead. Without one, page 0 is linked. -/
theorem Visit.next_absent {v : Visit Physical} (hend : v.paging.frames.endPhysicalPage ≤ 2 ^ 31)
    (habsent : v.Absent) :
    (v.paging.frames.clearAhead.Nonempty →
      .allocated (some (v.next g).1) ∈ newEvents v.paging (v.next g).2) ∧
    (¬ v.paging.frames.clearAhead.Nonempty → (v.next g).1 = 0) := by
  obtain ⟨s, t, i⟩ := v
  unfold Absent at habsent
  unfold next nextTable allocateOneFrame setEntry
  rw [if_pos habsent, allocate_eq hallocator]
  rcases hone : s.frames.allocateFrame with ⟨frames, found⟩
  cases found with
  | none =>
    have hempty := (Physical.allocateFrame_none hone).1
    refine ⟨fun hsome => absurd hempty hsome.ne_empty, fun _ => ?_⟩
    change Radix.write s.memory t i (PageEntry.table 0) t i &&& pmlAddrMask = 0
    rw [Radix.write_self]
    decide
  | some frame =>
    have hframe := (Physical.allocateFrame_spec hend hone).1
    have hmem := (Physical.allocateFrame_some hone).1
    refine ⟨fun _ => ?_, fun hnone => absurd ⟨_, hmem⟩ hnone⟩
    rw [@newEvents_eq _ _ _ [.allocated (some frame)] rfl]
    change .allocated (some (Radix.write (Radix.clear s.memory frame 0) t i (PageEntry.table frame) t i &&&
      pmlAddrMask)) ∈ [PagingEvent.allocated (some frame)]
    rw [Radix.write_self, table_and_addrMask hframe]
    exact List.mem_singleton_self _

/-- **Tables are allocated** throughout a call exactly when for every entry that is not present a clear page
is ahead of the cursor. -/
theorem linksAllocated_iff {c : MapCall} (hcursor : 0 < s.frames.phyI)
    (hend : s.frames.endPhysicalPage ≤ 2 ^ 31) (hstep : step g s c = some s') :
    LinksAllocated g s s' c ↔ Provided g s c := by
  unfold LinksAllocated Provided
  refine forall₂_congr fun v hv => forall_congr' fun habsent => ?_
  obtain ⟨hbefore, hafter⟩ := mem_callVisits hallocator hstep hv
  obtain ⟨hsome, hnone⟩ := Visit.next_absent hallocator (hbefore.endPage ▸ hend) habsent
  constructor
  · intro hmem
    by_contra hempty
    rw [hnone hempty] at hmem
    have hall := hbefore.trans ((later_nextTable hallocator v.paging v.table v.i).trans hafter)
    exact hall.zero_not_mem hcursor hmem
  · intro hahead
    exact hbefore.mem_newEvents (later_nextTable hallocator v.paging v.table v.i) hafter (hsome hahead)

end Calls

instance (v : Visit Physical) : Decidable v.Absent := inferInstanceAs (Decidable (_ = _))

def onePage : MapCall :=
  { large := false, physical := 0x200000, virt := 0x400000, pageCount := 1, flags := mapProtWrite }

theorem linksAllocated_oneWord : ∃ s', step (bitmapSetup 0x1000 false) oneWordPaging onePage = some s' ∧
    LinksAllocated (bitmapSetup 0x1000 false) oneWordPaging s' onePage := by
  refine ⟨_, rfl, (linksAllocated_iff rfl (by decide) (by decide) rfl).mpr ?_⟩
  unfold Provided
  decide

theorem frame_zero_linked : ∃ s', step (bitmapSetup 0x1000 false)
      { oneWordPaging with frames := .boot (fun _ => ~~~0#64) 320 } onePage = some s' ∧
    ¬ LinksAllocated (bitmapSetup 0x1000 false)
      { oneWordPaging with frames := .boot (fun _ => ~~~0#64) 320 } s' onePage := by
  refine ⟨_, rfl, mt (linksAllocated_iff rfl (by decide) (by decide) rfl).mp ?_⟩
  unfold Provided
  decide

end Paging

end Helos
