import Helos.Memory.AllocateReturns
import Helos.Theory.Loops

/-!
# When the loops over the buffers end

`paging_map_PageAllocated` and `paging_map_PageAllocated2M` take what the allocator gave off the pages that
are left, and go on until none is. A turn that is given less than a buffer has the scan at its end, so
the next turn is given nothing, and so is every turn after it.
-/

namespace Helos

open PageEntry

namespace Physical

variable {p : Physical}

theorem allocateFrame_cursor (p : Physical) :
    p.allocateFrame.1.phyI2M = p.phyI2M ∧ p.allocateFrame.1.endPhysicalPage = p.endPhysicalPage := by
  unfold allocateFrame
  split <;> exact ⟨rfl, rfl⟩

theorem freeFrame_cursor (p : Physical) (frame pageCount : Nat) :
    (p.freeFrame frame pageCount).phyI2M = p.phyI2M ∧
      (p.freeFrame frame pageCount).endPhysicalPage = p.endPhysicalPage := by
  unfold freeFrame
  split <;> exact ⟨rfl, rfl⟩

theorem allocateFrames_cursor (p : Physical) (pageCount : Nat) :
    (p.allocateFrames pageCount).1.phyI2M = p.phyI2M := by
  induction pageCount generalizing p with
  | zero => rfl
  | succ pageCount ih =>
    have hone := (allocateFrame_cursor p).1
    rw [allocateFrames]
    split
    · next q heq => rwa [heq] at hone
    · next q addr heq =>
      rw [heq] at hone
      exact (ih q).trans hone

theorem BlockCursor.congr (h : p.BlockCursor) {q : Physical} (hq : q.phyI2M = p.phyI2M) :
    q.BlockCursor := ⟨hq ▸ h.low, hq ▸ h.aligned⟩

theorem blocksAhead_of_end (h : p.endPhysicalPage / 64 ≤ p.phyI2M) : p.blocksAhead = ∅ := by
  rw [Finset.eq_empty_iff_forall_notMem]
  intro i hi
  obtain ⟨⟨hlo, hhi⟩, -⟩ := mem_blocksAhead.mp hi
  omega

end Physical

namespace Paging

structure Buffers where
  pageCount : Nat
  virt : Nat
  paging : Paging Physical

def Buffers.PagesLeft (t : Buffers) : Prop := 0 < t.pageCount

instance : DecidablePred Buffers.PagesLeft := fun t => inferInstanceAs (Decidable (0 < t.pageCount))

namespace Allocation

variable (g : PagingSetup Physical) (flags : BitVec 32)

/-- One turn of `while (pageCount > 0)`. -/
def turn : Allocation → Buffers → Option Buffers
  | .page, ⟨pageCount, virt, s⟩ => do
    let (buf, s) := s.allocateFrames (min pageCount bufSize)
    let (s, virt) ← mapFrames g flags buf virt s
    some ⟨pageCount - buf.length, virt, s⟩
  | .page2M, ⟨pageCount, virt, s⟩ => do
    let (buf, s) := s.allocateFrames2M (min pageCount bufSize)
    let s ← mapFrames2M g flags virt buf s
    some ⟨pageCount - buf.length, wrap64 (virt + 2097152 * buf.length), s⟩

def loop : Allocation → Nat → Nat → Nat → Paging Physical → Option (Paging Physical)
  | .page => allocatePages g flags
  | .page2M => allocatePages2M g flags

def Returns (a : Allocation) (s : Paging Physical) (virt pageCount : Nat) : Prop :=
  ∃ fuel s', a.loop g flags fuel pageCount virt s = some s'

/-- Frames or blocks that the scan can still find. -/
def ahead : Allocation → Physical → Nat
  | .page, p => p.clearAhead.card
  | .page2M, p => p.blocksAhead.card

variable {g flags} {a : Allocation} {s s' : Paging Physical} {virt pageCount fuel : Nat}

theorem loop_zero (fuel : Nat) : a.loop g flags fuel 0 virt s = some s := by
  cases a <;> cases fuel <;> rfl

theorem loop_succ (fuel : Nat) (t : Buffers) (h : t.PagesLeft) :
    a.loop g flags (fuel + 1) t.pageCount t.virt t.paging =
      (a.turn g flags t).bind fun u => a.loop g flags fuel u.pageCount u.virt u.paging := by
  obtain ⟨pageCount, virt, s⟩ := t
  obtain ⟨n, rfl⟩ := Nat.exists_eq_add_one_of_ne_zero (Nat.ne_of_gt h)
  cases a with
  | page =>
    simp only [loop, turn, allocatePages]
    cases mapFrames g flags (s.allocateFrames (min (n + 1) bufSize)).1 virt
      (s.allocateFrames (min (n + 1) bufSize)).2 <;> rfl
  | page2M =>
    simp only [loop, turn, allocatePages2M]
    cases mapFrames2M g flags virt (s.allocateFrames2M (min (n + 1) bufSize)).1
      (s.allocateFrames2M (min (n + 1) bufSize)).2 <;> rfl

theorem returns_iff_whileDo (t : Buffers) :
    a.Returns g flags t.paging t.virt t.pageCount ↔
      ∃ fuel last, Loops.whileDo Buffers.PagesLeft (a.turn g flags) fuel t = some last := by
  constructor
  · rintro ⟨fuel, s', hrun⟩
    induction fuel generalizing t with
    | zero =>
      refine ⟨1, t, Loops.whileDo_end (Nat.not_lt.mpr ?_)⟩
      obtain ⟨pageCount, virt, s⟩ := t
      cases pageCount with
      | zero => exact Nat.le_refl 0
      | succ n => cases a <;> cases hrun
    | succ fuel ih =>
      by_cases hguard : t.PagesLeft
      · rw [loop_succ fuel t hguard] at hrun
        obtain ⟨u, hturn, hrest⟩ := Option.bind_eq_some_iff.mp hrun
        obtain ⟨fuel', last, hend⟩ := ih u hrest
        exact ⟨fuel' + 1, last, by rw [Loops.whileDo_turn hguard, hturn, Option.bind_some, hend]⟩
      · exact ⟨1, t, Loops.whileDo_end hguard⟩
  · rintro ⟨fuel, last, hend⟩
    induction fuel generalizing t with
    | zero => cases hend
    | succ fuel ih =>
      by_cases hguard : t.PagesLeft
      · rw [Loops.whileDo_turn hguard] at hend
        obtain ⟨u, hturn, hrest⟩ := Option.bind_eq_some_iff.mp hend
        obtain ⟨fuel', s', hrun⟩ := ih u hrest
        exact ⟨fuel' + 1, s', by rw [loop_succ fuel' t hguard, hturn, Option.bind_some, hrun]⟩
      · refine ⟨0, t.paging, ?_⟩
        rw [Nat.eq_zero_of_not_pos hguard]
        exact loop_zero 0

end Allocation

/-! ### What mapping does to the allocator -/

section Mapping

variable {g : PagingSetup Physical} {flags : BitVec 32} {P : Physical → Prop}
  {s : Paging Physical} {virt : Nat} {buf : List Nat}

/-- Whatever single allocations keep holds of the allocator after a descent. -/
theorem frames_descend (hallocator : g.allocator = bitmapAllocator)
    (hallocate : ∀ p, P p → P p.allocateFrame.1) (is : List Nat) (t : Nat) (hs : P s.frames) :
    P (descend g is t s).2.frames := by
  induction is generalizing t s with
  | nil => exact hs
  | cons i is ih =>
    refine ih _ ?_
    have hone := hallocate s.frames hs
    obtain ⟨-, hnext⟩ | ⟨-, frames, halloc, hnext⟩ | ⟨-, frame, frames, halloc, hnext⟩ :=
      nextTable_cases g s t i
    · rw [hnext]
      exact hs
    · rw [allocateFrame_of_allocate hallocator halloc] at hone
      rw [hnext]
      exact hone
    · rw [allocateFrame_of_allocate hallocator halloc] at hone
      rw [hnext]
      exact hone

theorem frames_mapFrames (hallocator : g.allocator = bitmapAllocator)
    (hallocate : ∀ p, P p → P p.allocateFrame.1) (halign : virt % 4096 = 0)
    (hframes : ∀ frame ∈ buf, frame % 4096 = 0) (hs : P s.frames) :
    ∃ s' virt', mapFrames g flags buf virt s = some (s', virt') ∧ virt' % 4096 = 0 ∧ P s'.frames := by
  induction buf generalizing virt s with
  | nil => exact ⟨s, virt, rfl, halign, hs⟩
  | cons frame buf ih =>
    have hpage : mapPage g s frame virt 1 flags = some (mapSmallPage g flags frame virt s) :=
      if_pos ⟨hframes frame List.mem_cons_self, halign⟩
    have hnext : wrap64 (virt + 4096) % 4096 = 0 := by
      unfold wrap64
      omega
    have hone : P (mapSmallPage g flags frame virt s).frames :=
      frames_descend hallocator hallocate ((indices virt).take 3) g.pml4Table hs
    obtain ⟨s', virt', hrest, halign', hs'⟩ :=
      ih hnext (fun x hx => hframes x (List.mem_cons_of_mem _ hx)) hone
    refine ⟨s', virt', ?_, halign', hs'⟩
    rw [mapFrames, hpage]
    exact hrest

theorem frames_mapFrames2M (hallocator : g.allocator = bitmapAllocator)
    (hallocate : ∀ p, P p → P p.allocateFrame.1)
    (hfree : ∀ p frame pageCount, P p → P (p.freeFrame frame pageCount))
    (halign : virt % 2097152 = 0) (hframes : ∀ frame ∈ buf, frame % 2097152 = 0) (hs : P s.frames) :
    ∃ s', mapFrames2M g flags virt buf s = some s' ∧ P s'.frames := by
  induction buf generalizing s with
  | nil => exact ⟨s, rfl, hs⟩
  | cons frame buf ih =>
    have hpage : mapPage2M g s frame virt 1 flags = some (mapOnePage2M g flags frame virt s) :=
      if_pos ⟨hframes frame List.mem_cons_self, halign⟩
    have hdescend := frames_descend hallocator hallocate ((indices virt).take 2) g.pml4Table hs
    have hone : P (mapOnePage2M g flags frame virt s).frames := by
      rw [mapOnePage2M_eq]
      set table := descend g ((indices virt).take 2) g.pml4Table s with htable
      change P (freeTable g table.2 table.1 (takeBitfield virt 29 21)).frames
      unfold freeTable
      split
      · have hfreed := hfree table.2.frames (table.2.memory table.1 (takeBitfield virt 29 21) &&& pmlAddrMask)
          1 hdescend
        rw [← free_eq hallocator] at hfreed
        exact hfreed
      · exact hdescend
    obtain ⟨s', hrest, hs'⟩ := ih (fun x hx => hframes x (List.mem_cons_of_mem _ hx)) hone
    refine ⟨s', ?_, hs'⟩
    rw [mapFrames2M, hpage]
    exact hrest

end Mapping

/-! ### Turns -/

namespace Allocation

variable {g : PagingSetup Physical} (hallocator : g.allocator = bitmapAllocator) {flags : BitVec 32}
  {a : Allocation}

/-- A turn is given what there is ahead, and when that is less than it asked for nothing is left there. -/
structure Turned (a : Allocation) (t u : Buffers) : Prop where
  cursor : u.paging.frames.BlockCursor
  aligned : u.virt % a.pageSize = 0
  pageCount : u.pageCount = t.pageCount - min (min t.pageCount bufSize) (a.ahead t.paging.frames)
  exhausted : a.ahead t.paging.frames < min t.pageCount bufSize → a.ahead u.paging.frames = 0

include hallocator in
theorem turn_page (t : Buffers) (hcursor : t.paging.frames.BlockCursor)
    (halign : t.virt % 4096 = 0) :
    ∃ u, page.turn g flags t = some u ∧
      Turned page t u := by
  obtain ⟨pageCount, virt, s⟩ := t
  have hlength := (Physical.allocateFrames_spec s.frames (min pageCount bufSize)).1
  have hkept : ∀ p : Physical,
      p.BlockCursor ∧ (s.frames.clearAhead.card < min pageCount bufSize → p.clearAhead = ∅) →
      p.allocateFrame.1.BlockCursor ∧
        (s.frames.clearAhead.card < min pageCount bufSize → p.allocateFrame.1.clearAhead = ∅) :=
    fun p hp => ⟨hp.1.congr (Physical.allocateFrame_cursor p).1,
      fun hshort => Physical.allocateFrame_exhausted (hp.2 hshort)⟩
  obtain ⟨s', virt', hmap, halign', hcursor', hahead⟩ := frames_mapFrames
    (s := (s.allocateFrames (min pageCount bufSize)).2) hallocator hkept halign
    (Physical.allocateFrames_aligned s.frames (min pageCount bufSize))
    ⟨hcursor.congr (Physical.allocateFrames_cursor s.frames _),
      fun hshort => Physical.allocateFrames_exhausted (Nat.le_of_lt hshort)⟩
  refine ⟨⟨pageCount - (s.frames.allocateFrames (min pageCount bufSize)).2.length, virt', s'⟩, ?_,
    hcursor', halign', congrArg _ hlength, fun hshort => Finset.card_eq_zero.mpr (hahead hshort)⟩
  exact Option.bind_eq_some_iff.mpr ⟨(s', virt'), hmap, rfl⟩

include hallocator in
theorem turn_page2M (t : Buffers) (hcursor : t.paging.frames.BlockCursor)
    (halign : t.virt % 2097152 = 0) :
    ∃ u, page2M.turn g flags t = some u ∧
      Turned page2M t u := by
  obtain ⟨pageCount, virt, s⟩ := t
  obtain ⟨hlength, hcursor₁, haligned, hend⟩ :=
    Physical.allocateFrames2M_spec hcursor (min pageCount bufSize)
  have hkept {p q : Physical} (hq : q.phyI2M = p.phyI2M ∧ q.endPhysicalPage = p.endPhysicalPage)
      (hp : p.BlockCursor ∧ (s.frames.blocksAhead.card < min pageCount bufSize →
        p.endPhysicalPage / 64 ≤ p.phyI2M)) :
      q.BlockCursor ∧ (s.frames.blocksAhead.card < min pageCount bufSize →
        q.endPhysicalPage / 64 ≤ q.phyI2M) :=
    ⟨hp.1.congr hq.1, fun hshort => hq.1 ▸ hq.2 ▸ hp.2 hshort⟩
  obtain ⟨s', hmap, hcursor', hpast⟩ := frames_mapFrames2M
    (s := (s.allocateFrames2M (min pageCount bufSize)).2) hallocator
    (fun p hp => hkept (Physical.allocateFrame_cursor p) hp)
    (fun p frame n hp => hkept (Physical.freeFrame_cursor p frame n) hp) halign haligned
    ⟨hcursor₁, hend⟩
  refine ⟨⟨pageCount - (s.frames.allocateFrames2M (min pageCount bufSize)).2.length,
    wrap64 (virt + 2097152 * (s.frames.allocateFrames2M (min pageCount bufSize)).2.length), s'⟩, ?_,
    hcursor', ?_, congrArg _ hlength,
    fun hshort => Finset.card_eq_zero.mpr (Physical.blocksAhead_of_end (hpast hshort))⟩
  · exact Option.bind_eq_some_iff.mpr ⟨s', hmap, rfl⟩
  · change wrap64 (virt + 2097152 * _) % 2097152 = 0
    change virt % 2097152 = 0 at halign
    unfold wrap64
    omega

def Stocked (a : Allocation) (t : Buffers) : Prop :=
  min t.pageCount bufSize ≤ a.ahead t.paging.frames

include hallocator in
theorem turn_spec (t : Buffers) (hcursor : t.paging.frames.BlockCursor)
    (halign : t.virt % a.pageSize = 0) :
    ∃ u, a.turn g flags t = some u ∧ a.Turned t u := by
  cases a with
  | page => exact turn_page hallocator t hcursor halign
  | page2M => exact turn_page2M hallocator t hcursor halign

theorem Turned.down {t u : Buffers} (h : a.Turned t u) (hleft : t.PagesLeft) (hstocked : a.Stocked t) :
    u.pageCount < t.pageCount := by
  have hcount := h.pageCount
  unfold Stocked at hstocked
  unfold Buffers.PagesLeft at hleft
  unfold bufSize at hcount hstocked
  omega

theorem Turned.stuck {t u : Buffers} (h : a.Turned t u) (hshort : ¬ a.Stocked t) :
    u.PagesLeft ∧ ¬ a.Stocked u := by
  have hcount := h.pageCount
  unfold Stocked at hshort ⊢
  have hnone := h.exhausted (Nat.lt_of_not_le hshort)
  unfold Buffers.PagesLeft
  rw [hnone]
  unfold bufSize at hcount hshort ⊢
  omega

/-- Every turn that the loop comes to with pages left finds what it asks for ahead of the cursor. -/
def AllStocked (a : Allocation) (g : PagingSetup Physical) (flags : BitVec 32) (s : Paging Physical)
    (virt pageCount : Nat) : Prop :=
  ∀ t, Loops.Reaches Buffers.PagesLeft (a.turn g flags) ⟨pageCount, virt, s⟩ t → t.PagesLeft → a.Stocked t

section Ends

variable {s : Paging Physical} {virt pageCount : Nat}

include hallocator in
theorem returns_iff_allStocked (hcursor : s.frames.BlockCursor) (halign : virt % a.pageSize = 0)
    (pageCount : Nat) : a.Returns g flags s virt pageCount ↔ a.AllStocked g flags s virt pageCount := by
  apply (returns_iff_whileDo ⟨pageCount, virt, s⟩).trans
  apply Loops.whileDo_ends_iff_good Buffers.pageCount
    (I := fun t : Buffers => t.paging.frames.BlockCursor ∧ t.virt % a.pageSize = 0)
    ⟨hcursor, halign⟩
  rintro t ⟨hcursor, halign⟩ hleft
  obtain ⟨u, hturn, hturned⟩ := turn_spec hallocator t hcursor halign
  exact ⟨u, hturn, ⟨hturned.cursor, hturned.aligned⟩, hturned.down hleft, hturned.stuck⟩

include hallocator in
theorem returns_buffer_iff (hcursor : s.frames.BlockCursor) (halign : virt % a.pageSize = 0)
    (hone : pageCount ≤ bufSize) : a.Returns g flags s virt pageCount ↔ pageCount ≤ a.ahead s.frames := by
  refine (returns_iff_allStocked hallocator hcursor halign pageCount).trans
    ⟨fun h => ?_, fun henough t hreach hleft => ?_⟩
  · rcases Nat.eq_zero_or_pos pageCount with rfl | hpos
    · exact Nat.zero_le _
    · have hfirst := h ⟨pageCount, virt, s⟩ .refl hpos
      exact (Nat.min_eq_left hone).symm.trans_le hfirst
  · rcases hreach.cases_head with rfl | ⟨u, ⟨-, hturn⟩, hrest⟩
    · exact (Nat.min_le_left _ _).trans henough
    · -- the first turn took all pages
      obtain ⟨u', hturn', hturned⟩ := turn_spec hallocator ⟨pageCount, virt, s⟩ hcursor halign
      obtain rfl := Option.some.inj (hturn.symm.trans hturn')
      have hdone : ¬ u.PagesLeft := by
        have hcount := hturned.pageCount
        simp only at hcount
        unfold Buffers.PagesLeft
        omega
      rcases hrest.cases_head with rfl | ⟨v, ⟨hleft', -⟩, -⟩
      · exact absurd hleft hdone
      · exact absurd hleft' hdone

end Ends

include hallocator in
/-- **Return.** The loops end exactly when no turn is given less than it asks for; for a call of up to one
buffer that is when there are as many frames, or blocks, ahead of the cursor as there are pages. -/
theorem returns_iff {s : Paging Physical} {virt : Nat} (hcursor : s.frames.BlockCursor)
    (halign : virt % a.pageSize = 0) (pageCount : Nat) :
    (a.Returns g flags s virt pageCount ↔
      a.AllStocked g flags s virt pageCount) ∧
    (pageCount ≤ bufSize →
      (a.Returns g flags s virt pageCount ↔
        pageCount ≤ a.ahead s.frames)) :=
  ⟨returns_iff_allStocked hallocator hcursor halign pageCount, returns_buffer_iff hallocator hcursor halign⟩

theorem card_oneWord : oneWordPaging.frames.clearAhead.card = 64 := by decide

theorem returns_oneWord :
    page.Returns (bitmapSetup 0x1000 false) mapProtWrite oneWordPaging 0x400000 61 := by
  have hcursor : oneWordPaging.frames.BlockCursor := ⟨by decide, by decide⟩
  apply ((returns_iff rfl hcursor (by decide) 61).2 (by decide)).mpr
  change 61 ≤ oneWordPaging.frames.clearAhead.card
  rw [card_oneWord]
  decide

theorem not_returns_oneWord :
    ¬ page.Returns (bitmapSetup 0x1000 false) mapProtWrite oneWordPaging 0x400000 65 := by
  have hcursor : oneWordPaging.frames.BlockCursor := ⟨by decide, by decide⟩
  intro h
  have hle := ((returns_iff rfl hcursor (by decide) 65).2 (by decide)).mp h
  change 65 ≤ oneWordPaging.frames.clearAhead.card at hle
  rw [card_oneWord] at hle
  exact absurd hle (by decide)

end Allocation

end Paging

end Helos
