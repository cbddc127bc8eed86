import Helos.Memory.PageAllocated
import Helos.Memory.PageMap
import Helos.Memory.PhysicalBits
import Mathlib.Tactic.IntervalCases

/-!
# The tables and the bitmap

The tables form a tree, and their frames are marked in the bitmap. Large pages may stand at either
of the two levels that allow them. Each level of a descent adds at most one table, whose frame was
free, and a page mapped at its end changes the translations of that page only, unless the descent
goes through a larger page: the code takes that for a table.
-/

namespace Helos

open PageEntry

/-! ### Frames of the bitmap -/

namespace Physical

variable {p p' : Physical} {frame : Nat}

theorem allocateFrame_spec (hend : p.endPhysicalPage ≤ 2 ^ 31)
    (h : p.allocateFrame = (p', some frame)) :
    IsFrame frame ∧ bit p.bitmap (frame / 4096) = false ∧
      p'.endPhysicalPage = p.endPhysicalPage ∧
      ∀ page, bit p'.bitmap page = true ↔ bit p.bitmap page = true ∨ page = frame / 4096 := by
  unfold allocateFrame at h
  split at h
  · cases h
  · next i j hscan =>
    obtain ⟨rfl, hframe⟩ := Prod.mk.inj h
    obtain rfl := Option.some.inj hframe
    obtain ⟨hle, hfound⟩ := scan_spec hscan
    obtain ⟨hlt, hj, hclear⟩ := hfound j rfl
    have hpage : (i * bitmapBits + j) * systemPageSize / 4096 = i * 64 + j := by
      unfold bitmapBits systemPageSize
      omega
    have hi : i < p.endPhysicalPage / 64 := by
      unfold bitmapBits at hlt
      omega
    refine ⟨⟨?_, ?_⟩, by rw [hpage, hclear], rfl, fun page => ?_⟩
    · unfold systemPageSize
      omega
    · unfold bitmapBits systemPageSize
      omega
    · rw [bit_setBit _ hj, hpage, Bool.or_eq_true, decide_eq_true_iff]

theorem bit_freeFrame {pageCount : Nat} (hframe : frame % 4096 = 0) (hcount : 0 < pageCount)
    (page : Nat) :
    bit (p.freeFrame frame pageCount).bitmap page = true ↔
      bit p.bitmap page = true ∧ ¬ (frame / 4096 ≤ page ∧ page < frame / 4096 + pageCount) := by
  unfold freeFrame systemPageSize
  rw [if_neg (not_not.mpr hframe), bit_bitmapWriteZero _ (Nat.lt_add_of_pos_right hcount),
    Bool.and_eq_true, Bool.not_eq_true', decide_eq_false_iff_not]

theorem endPhysicalPage_freeFrame {pageCount : Nat} :
    (p.freeFrame frame pageCount).endPhysicalPage = p.endPhysicalPage := by
  unfold freeFrame
  split <;> rfl

end Physical

namespace Paging

open Translation

/-! ### Events -/

section Events

variable {σ : Type} {s s₁ s' : Paging σ}

def flushes (events : List PagingEvent) : List Nat :=
  events.filterMap fun event =>
    match event with
    | .flushed virt => some virt
    | _ => none

/-- What a call has added to the record. -/
def newEvents (s s' : Paging σ) : List PagingEvent :=
  s'.events.take (s'.events.length - s.events.length)

theorem newEvents_eq {events : List PagingEvent} (h : s'.events = events ++ s.events) :
    newEvents s s' = events := by
  unfold newEvents
  rw [h, List.length_append, Nat.add_sub_cancel, List.take_left]

/-- No allocation has failed in between. -/
def Served (s s' : Paging σ) : Prop :=
  s'.events.count (.allocated none) = s.events.count (.allocated none)

instance (s s' : Paging σ) : Decidable (Served s s') := inferInstanceAs (Decidable (_ = _))

/-- In between, these pages were flushed, the last one first. -/
def Flushes (s s' : Paging σ) (virts : List Nat) : Prop :=
  ∃ events, s'.events = events ++ s.events ∧ flushes events = virts

theorem Flushes.refl (s : Paging σ) : Flushes s s [] := ⟨[], rfl, rfl⟩

theorem Flushes.trans {virts virts' : List Nat} (h : Flushes s s₁ virts)
    (h' : Flushes s₁ s' virts') : Flushes s s' (virts' ++ virts) := by
  obtain ⟨events, hevents, rfl⟩ := h
  obtain ⟨events', hevents', rfl⟩ := h'
  refine ⟨events' ++ events, ?_, List.filterMap_append⟩
  rw [hevents', hevents, List.append_assoc]

theorem Flushes.mem_newEvents {virts : List Nat} (h : Flushes s s' virts) {virt : Nat} :
    .flushed virt ∈ newEvents s s' ↔ virt ∈ virts := by
  obtain ⟨events, hevents, rfl⟩ := h
  rw [newEvents_eq hevents, flushes, List.mem_filterMap]
  constructor
  · intro hmem
    exact ⟨_, hmem, rfl⟩
  · rintro ⟨event, hmem, heq⟩
    match event, heq with
    | .flushed _, heq =>
      cases heq
      exact hmem

theorem Flushes.suffix {virts : List Nat} (h : Flushes s s' virts) : s.events <:+ s'.events := by
  obtain ⟨events, hevents, -⟩ := h
  exact ⟨events, hevents.symm⟩

theorem Served.split {virts virts' : List Nat} (h : Served s s') (hfirst : Flushes s s₁ virts)
    (hrest : Flushes s₁ s' virts') : Served s s₁ ∧ Served s₁ s' := by
  unfold Served at h ⊢
  have hle := hfirst.suffix.sublist.count_le (.allocated none)
  have hle' := hrest.suffix.sublist.count_le (.allocated none)
  omega

theorem flushes_nextTable (g : PagingSetup σ) (s : Paging σ) (t i : Nat) :
    Flushes s (nextTable g s t i).2 [] := by
  obtain ⟨-, hnext⟩ | ⟨-, frames, -, hnext⟩ | ⟨-, frame, frames, -, hnext⟩ := nextTable_cases g s t i
  · rw [hnext]
    exact Flushes.refl s
  · rw [hnext]
    exact ⟨[.allocated none], rfl, rfl⟩
  · rw [hnext]
    exact ⟨[.allocated (some frame)], rfl, rfl⟩

end Events

/-! ### The tree -/

/-- The page is marked in the bitmap. -/
def Used (s : Paging Physical) (page : Nat) : Prop := Physical.bit s.frames.bitmap page = true

structure Tree (g : PagingSetup Physical) (s : Paging Physical) : Prop where
  allocator : g.allocator = bitmapAllocator
  endPage : s.frames.endPhysicalPage ≤ 2 ^ 31
  unshared : Radix.Unshared link s.memory g.pml4Table
  tables : ∀ t, Radix.IsTable link s.memory g.pml4Table t → IsFrame t ∧ s.Used (t / 4096)
  links : ∀ p t i, Radix.find link s.memory 0 g.pml4Table p = some t →
    link p.length (s.memory t i) ≠ none → Permissive (s.memory t i)

def NewTable (g : PagingSetup Physical) (s s' : Paging Physical) (t : Nat) : Prop :=
  Radix.IsTable link s'.memory g.pml4Table t ∧ ¬ Radix.IsTable link s.memory g.pml4Table t

/-- Tables may have come, which are what is marked since, and none has gone. -/
structure Enlarged (g : PagingSetup Physical) (s s' : Paging Physical) : Prop where
  fresh : ∀ t, NewTable g s s' t → ¬ s.Used (t / 4096)
  find : ∀ q x, Radix.find link s.memory 0 g.pml4Table q = some x →
    Radix.find link s'.memory 0 g.pml4Table q = some x
  used : ∀ page, s'.Used page ↔ s.Used page ∨ ∃ t, NewTable g s s' t ∧ t / 4096 = page

/-- So it is when a level of the descent was passed: the translations are as before. -/
structure Descended (g : PagingSetup Physical) (s s' : Paging Physical) : Prop
    extends Enlarged g s s' where
  tree : Tree g s'
  translate : translate g s' = translate g s

/-- The tables that have come are on this path. -/
def OnPath (g : PagingSetup Physical) (s s' : Paging Physical) (p : List Nat) : Prop :=
  ∀ q x, Radix.find link s'.memory 0 g.pml4Table q = some x →
    Radix.find link s.memory 0 g.pml4Table q = some x ∨ q <+: p

section Tree

variable {g : PagingSetup Physical} {s s₁ s' : Paging Physical} {p q : List Nat} {t i e : Nat}

theorem Enlarged.isTable (h : Enlarged g s s') {x : Nat}
    (hx : Radix.IsTable link s.memory g.pml4Table x) :
    Radix.IsTable link s'.memory g.pml4Table x := by
  obtain ⟨q, hq⟩ := hx
  exact ⟨q, h.find q x hq⟩

theorem Enlarged.refl (s : Paging Physical) : Enlarged g s s := by
  refine ⟨fun t ht => absurd ht.1 ht.2, fun _ _ hx => hx, fun page => ⟨.inl, ?_⟩⟩
  rintro (hused | ⟨t, ht, -⟩)
  · exact hused
  · exact absurd ht.1 ht.2

/-- A table that is new came before the state in the middle or after it. -/
theorem exists_newTable_iff
    (hold : ∀ t, Radix.IsTable link s.memory g.pml4Table t → Radix.IsTable link s₁.memory g.pml4Table t)
    (hkept : ∀ t, Radix.IsTable link s₁.memory g.pml4Table t → Radix.IsTable link s'.memory g.pml4Table t)
    (page : Nat) :
    (∃ t, NewTable g s s' t ∧ t / 4096 = page) ↔
      (∃ t, NewTable g s s₁ t ∧ t / 4096 = page) ∨ ∃ t, NewTable g s₁ s' t ∧ t / 4096 = page := by
  constructor
  · rintro ⟨t, ht, hpage⟩
    by_cases hmiddle : Radix.IsTable link s₁.memory g.pml4Table t
    · exact .inl ⟨t, ⟨hmiddle, ht.2⟩, hpage⟩
    · exact .inr ⟨t, ⟨ht.1, hmiddle⟩, hpage⟩
  · rintro (⟨t, ht, hpage⟩ | ⟨t, ht, hpage⟩)
    · exact ⟨t, ⟨hkept t ht.1, ht.2⟩, hpage⟩
    · exact ⟨t, ⟨ht.1, fun h => ht.2 (hold t h)⟩, hpage⟩

theorem Enlarged.trans (h : Enlarged g s s₁) (h' : Enlarged g s₁ s') : Enlarged g s s' := by
  refine ⟨fun t ht hused => ?_, fun q x hx => h'.find q x (h.find q x hx), fun page => ?_⟩
  · by_cases hmiddle : Radix.IsTable link s₁.memory g.pml4Table t
    · exact h.fresh t ⟨hmiddle, ht.2⟩ hused
    · exact h'.fresh t ⟨ht.1, hmiddle⟩ ((h.used _).mpr (.inl hused))
  · rw [h'.used, h.used, or_assoc,
      exists_newTable_iff (fun _ => h.isTable) (fun _ => h'.isTable)]

theorem Descended.trans (h : Descended g s s₁) (h' : Descended g s₁ s') : Descended g s s' :=
  ⟨h.toEnlarged.trans h'.toEnlarged, h'.tree, h'.translate.trans h.translate⟩

theorem Tree.permissive_trail (h : Tree g s)
    (hp : Radix.find link s.memory 0 g.pml4Table p = some t) :
    ∀ e ∈ Radix.trail link s.memory 0 g.pml4Table p, Permissive e :=
  Paging.permissive_trail h.links hp

theorem Tree.initial (hallocator : g.allocator = bitmapAllocator)
    (hend : s.frames.endPhysicalPage ≤ 2 ^ 31) (hframe : IsFrame g.pml4Table)
    (hused : s.Used (g.pml4Table / 4096)) (hempty : ∀ i, s.memory g.pml4Table i = 0) :
    Tree g s := by
  have hroot {p : List Nat} {t : Nat}
      (hp : Radix.find link s.memory 0 g.pml4Table p = some t) : p = [] ∧ t = g.pml4Table :=
    Radix.find_of_empty link_zero hempty hp
  refine ⟨hallocator, hend, fun p q t hp hq => ?_, ?_, fun p t i hp hlink => ?_⟩
  · rw [(hroot hp).1, (hroot hq).1]
  · rintro t ⟨p, hp⟩
    rw [(hroot hp).2]
    exact ⟨hframe, hused⟩
  · rw [(hroot hp).2, hempty] at hlink
    exact absurd (link_zero _) hlink

theorem allocate_eq (hallocator : g.allocator = bitmapAllocator) (p : Physical) :
    g.allocator.allocate p = (p.allocateFrame.2, p.allocateFrame.1) := by
  rw [hallocator]
  rfl

theorem allocateFrame_of_allocate (hallocator : g.allocator = bitmapAllocator) {p q : Physical}
    {found : Option Nat} (h : g.allocator.allocate p = (found, q)) : p.allocateFrame = (q, found) := by
  rw [allocate_eq hallocator] at h
  obtain ⟨hfound, hq⟩ := Prod.mk.inj h
  exact Prod.ext hq hfound

theorem free_eq (hallocator : g.allocator = bitmapAllocator) : g.allocator.free = Physical.freeFrame := by
  rw [hallocator]
  rfl

/-- A free frame that is linked in at an entry which was not present. -/
theorem Tree.graft (h : Tree g s) (hp : Radix.find link s.memory 0 g.pml4Table p = some t)
    (hlength : p.length ≤ 2) (habsent : ¬ Present (s.memory t i)) {frame : Nat}
    {frames : Physical} (halloc : s.frames.allocateFrame = (frames, some frame)) :
    let s' : Paging Physical :=
      { frames
        memory := Radix.graft s.memory t i (PageEntry.table frame) frame 0
        events := .allocated (some frame) :: s.events }
    Descended g s s' ∧ OnPath g s s' (p ++ [i]) ∧
      Radix.find link s'.memory 0 g.pml4Table (p ++ [i]) = some frame := by
  obtain ⟨hframe, hclear, hend, hbits⟩ := Physical.allocateFrame_spec h.endPage halloc
  have hfresh : ¬ Radix.IsTable link s.memory g.pml4Table frame := by
    intro htable
    have hused := (h.tables frame htable).2
    unfold Used at hused
    rw [hclear] at hused
    cases hused
  have hgraft : Radix.Graftable link s.memory g.pml4Table t p i (PageEntry.table frame) frame 0 :=
    ⟨h.unshared, hp, hfresh, link_of_not_present habsent, link_table hframe hlength, link_zero⟩
  have hnew (x : Nat) : NewTable g s
      { frames
        memory := Radix.graft s.memory t i (PageEntry.table frame) frame 0
        events := .allocated (some frame) :: s.events } x ↔ x = frame := by
    unfold NewTable
    rw [hgraft.isTable_iff]
    constructor
    · rintro ⟨hx | hx, hnot⟩
      · exact hx
      · exact absurd hx hnot
    · rintro rfl
      exact ⟨.inl rfl, hfresh⟩
  refine ⟨⟨⟨fun x hx => ?_, fun q x hx => hgraft.find_old hx, fun page => ?_⟩,
    ⟨h.allocator, hend ▸ h.endPage, hgraft.grafted, fun x hx => ?_, fun q x j hx hlink => ?_⟩,
    translate_graft hgraft habsent hlength⟩, fun q x hx => ?_, hgraft.find_new⟩
  · unfold Used
    rw [(hnew x).mp hx, hclear]
    exact Bool.false_ne_true
  · simp only [hnew, exists_eq_left]
    unfold Used
    rw [hbits]
    exact or_congr_right eq_comm
  · unfold Used
    simp only [hbits]
    rcases hgraft.isTable_iff.mp hx with rfl | hx
    · exact ⟨hframe, .inr rfl⟩
    · exact ⟨(h.tables x hx).1, .inl (h.tables x hx).2⟩
  · rcases hgraft.entry (j := j) hx with ⟨-, -, hentry⟩ | hentry | ⟨hold, hentry⟩
    · simp only [hentry]
      exact ⟨writeable_table hframe, not_executeDisable_table hframe⟩
    · simp only [hentry] at hlink
      exact absurd (link_zero _) hlink
    · simp only [hentry] at hlink ⊢
      exact h.links q x j hold hlink
  · rcases hgraft.find_iff.mp hx with ⟨rfl, -⟩ | hold
    · exact .inr (List.prefix_refl _)
    · exact .inl hold

theorem Tree.nextTable (h : Tree g s)
    (hp : Radix.find link s.memory 0 g.pml4Table p = some t) (hlength : p.length ≤ 2)
    (hlink : Present (s.memory t i) → link p.length (s.memory t i) ≠ none)
    (hserved : Served s (nextTable g s t i).2) :
    Descended g s (Paging.nextTable g s t i).2 ∧ OnPath g s (Paging.nextTable g s t i).2 (p ++ [i]) ∧
      Radix.find link (Paging.nextTable g s t i).2.memory 0 g.pml4Table (p ++ [i]) =
        some (Paging.nextTable g s t i).1 := by
  obtain ⟨hpresent, -⟩ | ⟨-, frames, -, hnext⟩ | ⟨habsent, frame, frames, halloc, hnext⟩ :=
    nextTable_cases g s t i
  · obtain ⟨c, hc⟩ := Option.ne_none_iff_exists'.mp (hlink hpresent)
    rw [nextTable_of_link hc]
    refine ⟨⟨Enlarged.refl s, h, rfl⟩, fun q x hx => .inl hx, ?_⟩
    rw [Radix.find_snoc hp, Nat.zero_add, hc]
  · rw [hnext] at hserved
    simp [Served] at hserved
  · have hone := allocateFrame_of_allocate h.allocator halloc
    have hframe := (Physical.allocateFrame_spec h.endPage hone).1
    rw [hnext, table_and_addrMask hframe]
    exact h.graft hp hlength habsent hone

/-! ### One level -/

/-- The address is not in a larger page. -/
def NotInside (size : Nat) (f : FlatMap) (v : Nat) : Prop := ∀ t, f v = some t → t.pageSize ≤ size

theorem notInside_of_none {size : Nat} {f : FlatMap} {v : Nat} (h : f v = none) : NotInside size f v := by
  intro t ht
  rw [h] at ht
  cases ht

theorem NotInside.mapOne {size : Nat} {f : FlatMap} {v : Nat} (h : NotInside size f v)
    (supportExecuteDisable : Bool) (flags : BitVec 32) (physical virt : Nat) :
    NotInside size (f.mapOne size supportExecuteDisable flags physical virt) v := by
  intro t ht
  unfold FlatMap.mapOne at ht
  split at ht
  · cases ht
    exact Nat.le_refl size
  · exact h t ht

theorem Tree.enter (h : Tree g s) (hp : Radix.find link s.memory 0 g.pml4Table p = some t)
    (hlength : p.length ≤ 2) {virt size : Nat} (hv : p ++ [i] <+: indices virt)
    (hsize : 0 < p.length → size < sizeAt (p.length + 1))
    (hsmall : NotInside size (Paging.translate g s) virt)
    (hserved : Served s (Paging.nextTable g s t i).2) :
    Descended g s (Paging.nextTable g s t i).2 ∧ OnPath g s (Paging.nextTable g s t i).2 (p ++ [i]) ∧
      Radix.find link (Paging.nextTable g s t i).2.memory 0 g.pml4Table (p ++ [i]) =
        some (Paging.nextTable g s t i).1 := by
  refine h.nextTable hp hlength (fun hpresent hlink => ?_) hserved
  have htranslate := Sound.translate_eq hp hlink hv
  rw [ofTrail_concat (h.permissive_trail hp), if_pos hpresent, Radix.length_trail hp] at htranslate
  have hle := hsmall _ htranslate
  cases p with
  | nil =>
    -- an entry of the PML4 table is never a page
    rw [List.length_nil, link, if_pos hpresent] at hlink
    cases hlink
  | cons j p => exact absurd (hsize (Nat.succ_pos _)) (Nat.not_lt_of_le hle)

/-! ### Several levels -/

/-- The levels of a descent, one index each. -/
def descend {σ : Type} (g : PagingSetup σ) : List Nat → Nat → Paging σ → Nat × Paging σ
  | [], t, s => (t, s)
  | i :: is, t, s => descend g is (Paging.nextTable g s t i).1 (Paging.nextTable g s t i).2

theorem flushes_descend {σ : Type} (g : PagingSetup σ) (is : List Nat) (t : Nat) (s : Paging σ) :
    Flushes s (descend g is t s).2 [] := by
  induction is generalizing t s with
  | nil => exact Flushes.refl s
  | cons i is ih => exact (flushes_nextTable g s t i).trans (ih _ _)

theorem sizeAt_le {m n : Nat} (hmn : m ≤ n) (hn : n ≤ 3) : sizeAt n ≤ sizeAt m := by
  interval_cases n <;> interval_cases m <;> decide

theorem Tree.descend {is : List Nat} (h : Tree g s)
    (hp : Radix.find link s.memory 0 g.pml4Table p = some t)
    (hlength : p.length + is.length ≤ 3) {virt size : Nat} (hv : p ++ is <+: indices virt)
    (hsize : 1 < p.length + is.length → size < sizeAt (p.length + is.length))
    (hsmall : NotInside size (Paging.translate g s) virt)
    (hserved : Served s (Paging.descend g is t s).2) :
    Descended g s (Paging.descend g is t s).2 ∧ OnPath g s (Paging.descend g is t s).2 (p ++ is) ∧
      Radix.find link (Paging.descend g is t s).2.memory 0 g.pml4Table (p ++ is) =
        some (Paging.descend g is t s).1 := by
  induction is generalizing p t s with
  | nil =>
    rw [List.append_nil]
    exact ⟨⟨Enlarged.refl s, h, rfl⟩, fun q x hx => .inl hx, hp⟩
  | cons i is ih =>
    rw [List.length_cons] at hlength hsize
    rw [List.append_cons] at hv ⊢
    obtain ⟨hfirst, hrest⟩ := hserved.split (flushes_nextTable g s t i) (flushes_descend g is _ _)
    have hsize₁ (hp₀ : 0 < p.length) : size < sizeAt (p.length + 1) :=
      Nat.lt_of_lt_of_le (hsize (by omega)) (sizeAt_le (by omega) hlength)
    obtain ⟨hdescended, honPath, hfind⟩ :=
      h.enter hp (by omega) ((List.prefix_append _ _).trans hv) hsize₁ hsmall hfirst
    have hlen : (p ++ [i]).length + is.length = p.length + (is.length + 1) := by
      rw [List.length_append, List.length_singleton]
      omega
    obtain ⟨hdescended', honPath', hfind'⟩ := ih hdescended.tree hfind (by omega) hv (hlen ▸ hsize)
      (hdescended.translate ▸ hsmall) hrest
    refine ⟨hdescended.trans hdescended', fun q x hx => ?_, hfind'⟩
    rcases honPath' q x hx with hx | hq
    · exact (honPath q x hx).imp_right fun hq => hq.trans (List.prefix_append _ _)
    · exact .inr hq

/-! ### A page -/

section Write

variable (h : Tree g s) (hp : Radix.find link s.memory 0 g.pml4Table p = some t)
  (hleaf : link p.length e = none) (hmemory : s'.memory = Radix.write s.memory t i e)

include h hp hleaf

theorem Tree.cuttable : Radix.Cuttable link s.memory g.pml4Table t p e := ⟨h.unshared, hp, hleaf⟩

include hmemory

theorem Tree.write (hend : s'.frames.endPhysicalPage = s.frames.endPhysicalPage)
    (hused : ∀ q x, ¬ p ++ [i] <+: q → Radix.find link s.memory 0 g.pml4Table q = some x →
      s'.Used (x / 4096)) : Tree g s' := by
  have hcut := h.cuttable hp hleaf
  refine ⟨h.allocator, hend ▸ h.endPage, ?_, fun x hx => ?_, fun q x j hx hlink => ?_⟩
  · rw [hmemory]
    exact hcut.cut
  · rw [hmemory] at hx
    obtain ⟨q, hq⟩ := hx
    obtain ⟨hnot, hold⟩ := hcut.find_iff.mp hq
    exact ⟨(h.tables x ⟨q, hold⟩).1, hused q x hnot hold⟩
  · rw [hmemory] at hx hlink ⊢
    rcases hcut.entry (j := j) hx with ⟨rfl, rfl, hentry⟩ | ⟨hold, hentry⟩
    · rw [hentry] at hlink
      exact absurd hleaf hlink
    · rw [hentry] at hlink ⊢
      exact h.links q x j hold hlink

/-- A page in the place of an entry that was no link leaves the tables alone. -/
theorem Tree.find_write (hold : link p.length (s.memory t i) = none) (q : List Nat) :
    Radix.find link s'.memory 0 g.pml4Table q = Radix.find link s.memory 0 g.pml4Table q := by
  have hcut := h.cuttable hp hleaf
  apply Option.ext
  intro x
  rw [hmemory, hcut.find_iff, and_iff_right_iff_imp]
  rintro hx ⟨r, rfl⟩
  rw [Radix.find_append, Radix.find_snoc hp, Nat.zero_add, hold] at hx
  cases hx

end Write

theorem Enlarged.of_find (hfind : ∀ q, Radix.find link s'.memory 0 g.pml4Table q =
    Radix.find link s.memory 0 g.pml4Table q) (hframes : s'.frames = s.frames) :
    Enlarged g s s' := by
  have hnone (t : Nat) : ¬ NewTable g s s' t := by
    rintro ⟨⟨q, hq⟩, hnot⟩
    exact hnot ⟨q, (hfind q).symm.trans hq⟩
  refine ⟨fun t ht => absurd ht (hnone t), fun q x hx => (hfind q).trans hx, fun page => ?_⟩
  unfold Used
  rw [hframes]
  refine ⟨.inl, ?_⟩
  rintro (hused | ⟨t, ht, -⟩)
  · exact hused
  · exact absurd ht (hnone t)

/-- `paging_physical_FreeFrame` of the table, if any, that a large page takes the place of. -/
def freeTable (g : PagingSetup Physical) (s : Paging Physical) (t i : Nat) : Paging Physical :=
  if s.memory t i &&& pmlPresent ≠ 0 ∧ s.memory t i &&& pmlPageSize = 0 then
    freeFrame g s (s.memory t i &&& pmlAddrMask) 1
  else s

theorem flushes_freeTable (g : PagingSetup Physical) (s : Paging Physical) (t i : Nat) :
    Flushes s (freeTable g s t i) [] := by
  unfold freeTable freeFrame
  split
  · exact ⟨[.freed _ 1], rfl, rfl⟩
  · exact Flushes.refl s

theorem Tree.writeLarge (h : Tree g s) (hp : Radix.find link s.memory 0 g.pml4Table p = some t)
    (hleaf : link p.length e = none) (hlength : p.length = 1 ∨ p.length = 2) :
    Tree g ((freeTable g s t i).setEntry t i e) := by
  unfold freeTable
  split
  · next htable =>
    set c := s.memory t i &&& pmlAddrMask with hc
    have hlink : link p.length (s.memory t i) = some c := by
      rcases hlength with heq | heq <;> rw [heq] <;>
        exact if_pos ⟨htable.1, not_not.mpr htable.2⟩
    have hbelow : Radix.find link s.memory 0 g.pml4Table (p ++ [i]) = some c := by
      rw [Radix.find_snoc hp, Nat.zero_add, hlink]
    have hframe := (h.tables c ⟨_, hbelow⟩).1
    refine h.write hp hleaf rfl ?_ fun q x hnot hx => ?_
    · change (g.allocator.free s.frames c 1).endPhysicalPage = _
      rw [free_eq h.allocator, Physical.endPhysicalPage_freeFrame]
    · obtain ⟨hxframe, hused⟩ := h.tables x ⟨q, hx⟩
      have hne : x ≠ c := by
        rintro rfl
        obtain rfl := h.unshared _ _ _ hbelow hx
        exact hnot (List.prefix_refl _)
      change Physical.bit (g.allocator.free s.frames c 1).bitmap (x / 4096) = true
      rw [free_eq h.allocator, Physical.bit_freeFrame hframe.1 Nat.one_pos]
      refine ⟨hused, fun hpage => hne ?_⟩
      have hx4096 := hxframe.1
      have hc4096 := hframe.1
      omega
  · exact h.write hp hleaf rfl rfl fun q x _ hx => (h.tables x ⟨q, hx⟩).2

section Page

variable {flags : BitVec 32} {physical virt : Nat}

theorem Tree.flush (h : Tree g s) : Tree g (s.flushTlbSingle virt) :=
  ⟨h.allocator, h.endPage, h.unshared, h.tables, h.links⟩

/-- The descent to the table that these indices lead to, and a page for its entry `i`. -/
def mapSmallPage {σ : Type} (g : PagingSetup σ) (flags : BitVec 32) (physical virt : Nat)
    (s : Paging σ) : Paging σ :=
  let table := Paging.descend g ((indices virt).take 3) g.pml4Table s
  (table.2.setEntry table.1 (takeBitfield virt 20 12)
    (leaf 0 g.supportExecuteDisable physical flags)).flushTlbSingle virt

def mapLargePage (g : PagingSetup Physical) (is : List Nat) (i : Nat) (flags : BitVec 32)
    (physical virt : Nat) (s : Paging Physical) : Paging Physical :=
  let table := Paging.descend g is g.pml4Table s
  ((freeTable g table.2 table.1 i).setEntry table.1 i
    (leaf pmlPageSize g.supportExecuteDisable physical flags)).flushTlbSingle virt

theorem mapOnePage2M_eq (g : PagingSetup Physical) (flags : BitVec 32) (physical virt : Nat)
    (s : Paging Physical) : Paging.mapOnePage2M g flags physical virt s =
      mapLargePage g ((indices virt).take 2) (takeBitfield virt 29 21) flags physical virt s := rfl

theorem mapOnePage1G_eq (g : PagingSetup Physical) (flags : BitVec 32) (physical virt : Nat)
    (s : Paging Physical) : Paging.mapOnePage1G g flags physical virt s =
      mapLargePage g ((indices virt).take 1) (takeBitfield virt 38 30) flags physical virt s := rfl

theorem flushes_mapSmallPage {σ : Type} (g : PagingSetup σ) (flags : BitVec 32)
    (physical virt : Nat) (s : Paging σ) :
    Flushes s (mapSmallPage g flags physical virt s) [virt] :=
  (flushes_descend g _ _ s).trans ⟨[.flushed virt], rfl, rfl⟩

theorem flushes_mapLargePage (g : PagingSetup Physical) (is : List Nat) (i : Nat)
    (flags : BitVec 32) (physical virt : Nat) (s : Paging Physical) :
    Flushes s (mapLargePage g is i flags physical virt s) [virt] :=
  (flushes_descend g is _ s).trans
    ((flushes_freeTable g _ _ _).trans ⟨[.flushed virt], rfl, rfl⟩)

theorem Tree.translate_page {size : Nat} (h : Tree g s)
    (hp : Radix.find link s.memory 0 g.pml4Table p = some t) (hleaf : link p.length e = none)
    (hmemory : s'.memory = Radix.write s.memory t i e)
    (hasked : ∀ w, ofTrail w (Radix.trail link s.memory 0 g.pml4Table p ++ [e]) =
      some (asked size physical g.supportExecuteDisable flags w))
    (hindices : ∀ w, p ++ [i] <+: indices w ↔ w % 2 ^ 48 / size = virt % 2 ^ 48 / size) :
    Paging.translate g s' =
      FlatMap.mapOne size g.supportExecuteDisable flags physical virt (Paging.translate g s) := by
  funext w
  rw [translate_write (h.cuttable hp hleaf) hmemory, hasked]
  unfold FlatMap.mapOne
  simp only [hindices]

theorem Tree.descend_root {is : List Nat} {size : Nat} (h : Tree g s) (hlength : is.length ≤ 3)
    (hv : is <+: indices virt) (hsize : 1 < is.length → size < sizeAt is.length)
    (hsmall : NotInside size (Paging.translate g s) virt)
    (hserved : Served s (Paging.descend g is g.pml4Table s).2) :
    Descended g s (Paging.descend g is g.pml4Table s).2 ∧
      OnPath g s (Paging.descend g is g.pml4Table s).2 is ∧
      Radix.find link (Paging.descend g is g.pml4Table s).2.memory 0 g.pml4Table is =
        some (Paging.descend g is g.pml4Table s).1 := by
  have hroot : ([] : List Nat).length + is.length = is.length := Nat.zero_add _
  exact h.descend (p := []) rfl (by rwa [hroot]) hv (by rwa [hroot]) hsmall hserved

theorem Tree.descend_small (h : Tree g s) (hsmall : NotInside 4096 (Paging.translate g s) virt)
    (hserved : Served s (Paging.mapSmallPage g flags physical virt s)) :
    Served s (Paging.descend g ((indices virt).take 3) g.pml4Table s).2 ∧
      Descended g s (Paging.descend g ((indices virt).take 3) g.pml4Table s).2 ∧
      Radix.find link (Paging.descend g ((indices virt).take 3) g.pml4Table s).2.memory 0 g.pml4Table
          ((indices virt).take 3) =
        some (Paging.descend g ((indices virt).take 3) g.pml4Table s).1 := by
  have hwalked := (hserved.split (flushes_descend g _ _ s) ⟨[.flushed virt], rfl, rfl⟩).1
  obtain ⟨hdescended, -, hfind⟩ := h.descend_root (by simp [indices]) (List.take_prefix 3 _)
    (by simp [indices, sizeAt]) hsmall hwalked
  exact ⟨hwalked, hdescended, hfind⟩

theorem Tree.descend_large {is : List Nat} {size : Nat} (h : Tree g s)
    (hlength : is.length = 1 ∨ is.length = 2) (hv : is <+: indices virt)
    (hsize : 1 < is.length → size < sizeAt is.length)
    (hsmall : NotInside size (Paging.translate g s) virt)
    (hserved : Served s (Paging.mapLargePage g is i flags physical virt s)) :
    Served s (Paging.descend g is g.pml4Table s).2 ∧
      Descended g s (Paging.descend g is g.pml4Table s).2 ∧
      OnPath g s (Paging.descend g is g.pml4Table s).2 is ∧
      Radix.find link (Paging.descend g is g.pml4Table s).2.memory 0 g.pml4Table is =
        some (Paging.descend g is g.pml4Table s).1 := by
  have hwalked := (hserved.split (flushes_descend g is _ s)
    ((flushes_freeTable g _ _ i).trans ⟨[.flushed virt], rfl, rfl⟩)).1
  exact ⟨hwalked, h.descend_root (by omega) hv hsize hsmall hwalked⟩

theorem Tree.mapSmallPage (h : Tree g s) (hphysical : IsFrame physical)
    (hsmall : NotInside 4096 (Paging.translate g s) virt)
    (hserved : Served s (mapSmallPage g flags physical virt s)) :
    Tree g (Paging.mapSmallPage g flags physical virt s) ∧
      Enlarged g s (Paging.mapSmallPage g flags physical virt s) ∧
      Paging.translate g (Paging.mapSmallPage g flags physical virt s) =
        FlatMap.mapOne 4096 g.supportExecuteDisable flags physical virt
          (Paging.translate g s) := by
  obtain ⟨-, hdescended, hfind⟩ := h.descend_small hsmall hserved
  unfold Paging.mapSmallPage
  set t := (Paging.descend g ((indices virt).take 3) g.pml4Table s).1
  set s₁ := (Paging.descend g ((indices virt).take 3) g.pml4Table s).2
  have htree := hdescended.tree
  have hleaf (e : Nat) : link ((indices virt).take 3).length e = none := rfl
  have htrail := Radix.length_trail hfind
  set s₂ := s₁.setEntry t (takeBitfield virt 20 12) (leaf 0 g.supportExecuteDisable physical flags)
  have hmemory : s₂.memory = Radix.write s₁.memory t (takeBitfield virt 20 12)
      (leaf 0 g.supportExecuteDisable physical flags) := rfl
  have hkept := htree.find_write hfind (hleaf _) hmemory (hleaf _)
  refine ⟨(htree.write hfind (hleaf _) hmemory rfl fun q x _ hx => (htree.tables x ⟨q, hx⟩).2).flush,
    hdescended.toEnlarged.trans (Enlarged.of_find hkept rfl), ?_⟩
  rw [translate_flush, ← hdescended.translate]
  refine htree.translate_page hfind (hleaf _) hmemory (fun w => ?_) fun w => ?_
  · exact ofTrail_page (htree.permissive_trail hfind) htrail hphysical
  · rw [eq_comm, ← indices_eq_iff, ← prefix_indices_iff]
    rfl

theorem link_leaf_large {d : Nat} (hd : d = 1 ∨ d = 2) (supportExecuteDisable : Bool)
    (flags : BitVec 32) (physical : Nat) :
    link d (leaf pmlPageSize supportExecuteDisable physical flags) = none := by
  rcases hd with rfl | rfl <;> exact link_leaf_pageSize supportExecuteDisable flags physical

theorem Tree.mapLargePage (is : List Nat) {size : Nat} (h : Tree g s)
    (hlength : is.length = 1 ∨ is.length = 2) (hv : is <+: indices virt)
    (hsize : 1 < is.length → size < sizeAt is.length)
    (hsmall : NotInside size (Paging.translate g s) virt)
    (hindices : ∀ w, is ++ [i] <+: indices w ↔ w % 2 ^ 48 / size = virt % 2 ^ 48 / size)
    (hasked : ∀ {trail : List Nat} {w : Nat}, (∀ e ∈ trail, Permissive e) →
      trail.length = is.length →
      ofTrail w (trail ++ [leaf pmlPageSize g.supportExecuteDisable physical flags]) =
        some (asked size physical g.supportExecuteDisable flags w))
    (hserved : Served s (mapLargePage g is i flags physical virt s)) :
    Tree g (Paging.mapLargePage g is i flags physical virt s) ∧
      Paging.translate g (Paging.mapLargePage g is i flags physical virt s) =
        FlatMap.mapOne size g.supportExecuteDisable flags physical virt
          (Paging.translate g s) := by
  obtain ⟨-, hdescended, -, hfind⟩ := h.descend_large hlength hv hsize hsmall hserved
  unfold Paging.mapLargePage
  set t := (Paging.descend g is g.pml4Table s).1
  set s₁ := (Paging.descend g is g.pml4Table s).2
  have htree := hdescended.tree
  have hleaf := link_leaf_large hlength g.supportExecuteDisable flags physical
  refine ⟨(htree.writeLarge hfind hleaf hlength).flush, ?_⟩
  rw [translate_flush, ← hdescended.translate]
  refine htree.translate_page hfind hleaf ?_ (fun w => ?_) hindices
  · unfold setEntry freeTable
    split <;> rfl
  · exact hasked (htree.permissive_trail hfind) (Radix.length_trail hfind)

theorem Tree.mapOnePage2M (h : Tree g s) (halign : physical % 2097152 = 0)
    (hphysical : physical < 2 ^ 52) (hsmall : NotInside 2097152 (Paging.translate g s) virt)
    (hserved : Served s (mapOnePage2M g flags physical virt s)) :
    Tree g (Paging.mapOnePage2M g flags physical virt s) ∧
      Paging.translate g (Paging.mapOnePage2M g flags physical virt s) =
        FlatMap.mapOne 2097152 g.supportExecuteDisable flags physical virt
          (Paging.translate g s) := by
  refine h.mapLargePage ((indices virt).take 2) (.inr rfl) (List.take_prefix 2 _)
    (by simp [indices, sizeAt]) hsmall (fun w => ?_)
    (fun hpermissive htrail => ofTrail_page2M hpermissive htrail halign hphysical) hserved
  rw [eq_comm, ← indices_take_eq_iff, List.prefix_iff_eq_take]
  rfl

theorem Tree.mapOnePage1G (h : Tree g s) (halign : physical % 1073741824 = 0)
    (hphysical : physical < 2 ^ 52) (hsmall : NotInside 1073741824 (Paging.translate g s) virt)
    (hserved : Served s (mapOnePage1G g flags physical virt s)) :
    Tree g (Paging.mapOnePage1G g flags physical virt s) ∧
      Paging.translate g (Paging.mapOnePage1G g flags physical virt s) =
        FlatMap.mapOne 1073741824 g.supportExecuteDisable flags physical virt
          (Paging.translate g s) := by
  refine h.mapLargePage ((indices virt).take 1) (.inl rfl) (List.take_prefix 1 _)
    (by simp [indices, sizeAt]) hsmall (fun w => ?_)
    (fun hpermissive htrail => ofTrail_page1G hpermissive htrail halign hphysical) hserved
  rw [eq_comm, ← indices_take_two_eq_iff, List.prefix_iff_eq_take]
  rfl

end Page

/-! ### The loop over pages -/

/-- What the loop needs of its body. -/
structure MapsPage (g : PagingSetup Physical) (size : Nat) (flags : BitVec 32)
    (one : Nat → Nat → Paging Physical → Paging Physical) : Prop where
  flushes : ∀ physical virt s, Flushes s (one physical virt s) [virt]
  maps : ∀ {s physical virt}, Tree g s → physical % size = 0 → physical < 2 ^ 52 →
    NotInside size (Paging.translate g s) virt → Served s (one physical virt s) →
    Tree g (one physical virt s) ∧ Paging.translate g (one physical virt s) =
      FlatMap.mapOne size g.supportExecuteDisable flags physical virt (Paging.translate g s)

theorem mapsPage (g : PagingSetup Physical) (flags : BitVec 32) :
    MapsPage g 4096 flags (mapOnePage g flags) where
  flushes physical virt s := flushes_mapSmallPage g flags physical virt s
  maps h halign hlt hsmall hserved :=
    have hmapped := h.mapSmallPage ⟨halign, hlt⟩ hsmall hserved
    ⟨hmapped.1, hmapped.2.2⟩

theorem mapsPage2M (g : PagingSetup Physical) (flags : BitVec 32) :
    MapsPage g 2097152 flags (mapOnePage2M g flags) where
  flushes physical virt s := by
    rw [mapOnePage2M_eq]
    exact flushes_mapLargePage g _ _ flags physical virt s
  maps h halign hlt hsmall hserved := h.mapOnePage2M halign hlt hsmall hserved

theorem mapsPage1G (g : PagingSetup Physical) (flags : BitVec 32) :
    MapsPage g 1073741824 flags (mapOnePage1G g flags) where
  flushes physical virt s := by
    rw [mapOnePage1G_eq]
    exact flushes_mapLargePage g _ _ flags physical virt s
  maps h halign hlt hsmall hserved := h.mapOnePage1G halign hlt hsmall hserved

section Loop

variable {size : Nat} {flags : BitVec 32} {one : Nat → Nat → Paging Physical → Paging Physical}
  (h : MapsPage g size flags one)

include h

theorem MapsPage.flushes_mapPages {virt : Nat} (pageCount physical : Nat) (s : Paging Physical)
    (hvirt : virt < 2 ^ 64) :
    ∃ virts, Flushes s (mapPages size one pageCount physical virt s) virts ∧
      ∀ w, w ∈ virts ↔ ∃ k < pageCount, w = wrap64 (virt + size * k) := by
  induction pageCount generalizing physical virt s with
  | zero => exact ⟨[], Flushes.refl s, by simp⟩
  | succ pageCount ih =>
    obtain ⟨virts, hflushes, hmem⟩ :=
      ih (wrap64 (physical + size)) (one physical virt s) (wrap64_lt (virt + size))
    refine ⟨virts ++ [virt], (h.flushes physical virt s).trans hflushes, fun w => ?_⟩
    have hnext (k : Nat) : wrap64 (wrap64 (virt + size) + size * k) =
        wrap64 (virt + size * (k + 1)) := by
      rw [Nat.mul_succ]
      unfold wrap64
      omega
    rw [List.mem_append, List.mem_singleton, hmem]
    simp only [hnext]
    constructor
    · rintro (⟨k, hk, rfl⟩ | rfl)
      · exact ⟨k + 1, Nat.succ_lt_succ hk, rfl⟩
      · exact ⟨0, Nat.succ_pos _, (wrap64_of_lt hvirt).symm⟩
    · rintro ⟨k, hk, rfl⟩
      cases k with
      | zero => exact .inr (wrap64_of_lt hvirt)
      | succ k => exact .inl ⟨k, Nat.lt_of_succ_lt_succ hk, rfl⟩

theorem Tree.mapPages (hsize : 0 < size) {pageCount physical virt : Nat} (hs : Tree g s)
    (halign : physical % size = 0) (hphysical : physical + size * pageCount ≤ 2 ^ 52)
    (hvirt : virt < 2 ^ 64) (hend : virt + size * pageCount ≤ 2 ^ 64)
    (hsmall : ∀ k < pageCount, NotInside size (Paging.translate g s) (virt + size * k))
    (hserved : Served s (mapPages size one pageCount physical virt s)) :
    Tree g (Paging.mapPages size one pageCount physical virt s) ∧
      Paging.translate g (Paging.mapPages size one pageCount physical virt s) =
        FlatMap.mapPages size g.supportExecuteDisable flags pageCount physical virt
          (Paging.translate g s) := by
  induction pageCount generalizing physical virt s with
  | zero => exact ⟨hs, rfl⟩
  | succ pageCount ih =>
    rw [Nat.mul_succ] at hphysical hend
    obtain ⟨virts, hrest, -⟩ := h.flushes_mapPages pageCount
      (wrap64 (physical + size)) (one physical virt s) (wrap64_lt (virt + size))
    have hsmall₀ : NotInside size (Paging.translate g s) virt := hsmall 0 (Nat.succ_pos _)
    unfold Paging.mapPages at hserved ⊢
    obtain ⟨hserved₁, hserved₂⟩ := hserved.split (h.flushes physical virt s) hrest
    obtain ⟨hone, htranslate⟩ := h.maps hs halign (by omega) hsmall₀ hserved₁
    -- the address wraps around after the last page only
    cases pageCount with
    | zero => exact ⟨hone, htranslate⟩
    | succ pageCount =>
      rw [Nat.mul_succ] at hphysical hend
      have hwrap : wrap64 (physical + size) = physical + size := wrap64_of_lt (by omega)
      have hwrap' : wrap64 (virt + size) = virt + size := wrap64_of_lt (by omega)
      rw [hwrap, hwrap'] at hserved₂ ⊢
      rw [FlatMap.mapPages, ← htranslate]
      refine ih hone (by rw [Nat.add_mod_right, halign]) (by rw [Nat.mul_succ]; omega) (by omega)
        (by rw [Nat.mul_succ]; omega) (fun k hk => ?_) hserved₂
      rw [htranslate]
      apply NotInside.mapOne
      have hnext := hsmall (k + 1) (Nat.succ_lt_succ hk)
      rwa [Nat.mul_succ, Nat.add_comm (size * k), ← Nat.add_assoc] at hnext

end Loop

end Tree

end Paging

end Helos
