import Helos.Memory.MapAllocated
import Helos.Memory.PhysicalCompleteness

/-!
# When `paging_map_PageAllocated` returns

Its loop goes on until all pages have frames, so it may not end. It does with four clear pages ahead
of the cursor for each page: one to map, and one for the table of each of the three lower levels.
-/

namespace Helos

open PageEntry

namespace Physical

variable {p q : Physical} {frame : Nat}

theorem allocateFrame_aligned (h : p.allocateFrame = (q, some frame)) : frame % 4096 = 0 := by
  unfold allocateFrame at h
  split at h
  · cases h
  · obtain ⟨-, hframe⟩ := Prod.mk.inj h
    rw [← Option.some.inj hframe]
    exact Nat.mul_mod_left _ _

theorem allocateFrames_aligned (p : Physical) (pageCount : Nat) :
    ∀ frame ∈ (p.allocateFrames pageCount).2, frame % 4096 = 0 := by
  induction pageCount generalizing p with
  | zero => simp [allocateFrames]
  | succ pageCount ih =>
    rw [allocateFrames]
    split
    · simp
    · next q addr hone =>
      intro frame hframe
      rcases List.mem_cons.mp hframe with rfl | hframe
      · exact allocateFrame_aligned hone
      · exact ih q frame hframe

/-- Each frame takes one page from those ahead of the cursor. -/
theorem card_clearAhead_le (p : Physical) (pageCount : Nat) :
    p.clearAhead.card ≤ (p.allocateFrames pageCount).1.clearAhead.card + pageCount := by
  induction pageCount generalizing p with
  | zero => exact Nat.le_refl _
  | succ pageCount ih =>
    rw [allocateFrames]
    split
    · next q hone =>
      rw [(allocateFrame_none hone).1]
      exact Nat.zero_le _
    · next q addr hone =>
      obtain ⟨hmem, hahead, -⟩ := allocateFrame_some hone
      calc p.clearAhead.card = q.clearAhead.card + 1 := by
            rw [hahead, Finset.card_erase_add_one hmem]
        _ ≤ (q.allocateFrames pageCount).1.clearAhead.card + pageCount + 1 :=
            Nat.succ_le_succ (ih q)

end Physical

namespace Paging

/-- The clear pages that the scan has yet to look at. -/
def ahead (s : Paging Physical) : Nat := s.frames.clearAhead.card

/-- No allocation has failed, and at most `k` frames were taken. -/
def Takes (k : Nat) (s s' : Paging Physical) : Prop := Served s s' ∧ s.ahead ≤ s'.ahead + k

variable {g : PagingSetup Physical} {s s₁ s' : Paging Physical} {flags : BitVec 32}
  {virt pageCount fuel j k : Nat} {buf : List Nat}

theorem Takes.refl (s : Paging Physical) : Takes 0 s s := ⟨rfl, Nat.le_refl _⟩

theorem Takes.trans (h : Takes j s s₁) (h' : Takes k s₁ s') : Takes (j + k) s s' :=
  ⟨h'.1.trans h.1, by have := h.2; have := h'.2; omega⟩

theorem takes_nextTable (hallocator : g.allocator = bitmapAllocator) (t i : Nat)
    (h : 0 < s.ahead) : Takes 1 s (nextTable g s t i).2 := by
  obtain ⟨-, hnext⟩ | ⟨-, frames, halloc, -⟩ | ⟨-, frame, frames, halloc, hnext⟩ :=
    nextTable_cases g s t i
  · rw [hnext]
    exact ⟨rfl, Nat.le_succ _⟩
  · have hone := allocateFrame_of_allocate hallocator halloc
    unfold ahead at h
    rw [(Physical.allocateFrame_none hone).1] at h
    cases h
  · have hone := allocateFrame_of_allocate hallocator halloc
    obtain ⟨hmem, hahead, -⟩ := Physical.allocateFrame_some hone
    rw [hnext]
    refine ⟨List.count_cons_of_ne (by simp), ?_⟩
    unfold ahead
    rw [hahead, Finset.card_erase_add_one hmem]

theorem takes_descend (hallocator : g.allocator = bitmapAllocator) (is : List Nat) (t : Nat)
    (h : is.length ≤ s.ahead) : Takes is.length s (descend g is t s).2 := by
  induction is generalizing t s with
  | nil => exact Takes.refl s
  | cons i is ih =>
    rw [List.length_cons] at h ⊢
    have hfirst := takes_nextTable hallocator t i (Nat.lt_of_lt_of_le (Nat.succ_pos _) h)
    rw [Nat.add_comm]
    exact hfirst.trans (ih _ (by have := hfirst.2; omega))

/-- A page takes at most three tables. -/
theorem takes_mapSmallPage (hallocator : g.allocator = bitmapAllocator) (flags : BitVec 32)
    (physical virt : Nat) (h : 3 ≤ s.ahead) : Takes 3 s (mapSmallPage g flags physical virt s) := by
  have hdescend := takes_descend hallocator ((indices virt).take 3) g.pml4Table h
  refine ⟨?_, hdescend.2⟩
  exact (List.count_cons_of_ne (by simp)).trans hdescend.1

theorem takes_mapFrames (hallocator : g.allocator = bitmapAllocator) (flags : BitVec 32)
    (halign : virt % 4096 = 0) (hframes : ∀ frame ∈ buf, frame % 4096 = 0)
    (h : 3 * buf.length ≤ s.ahead) :
    ∃ s' virt', mapFrames g flags buf virt s = some (s', virt') ∧ virt' % 4096 = 0 ∧
      Takes (3 * buf.length) s s' := by
  induction buf generalizing virt s with
  | nil => exact ⟨s, virt, rfl, halign, Takes.refl s⟩
  | cons frame buf ih =>
    rw [List.length_cons, Nat.mul_succ] at h ⊢
    have hpage : mapPage g s frame virt 1 flags = some (mapSmallPage g flags frame virt s) :=
      if_pos ⟨hframes frame List.mem_cons_self, halign⟩
    have hfirst : Takes 3 s (mapSmallPage g flags frame virt s) :=
      takes_mapSmallPage hallocator flags frame virt (by omega)
    have hnext : wrap64 (virt + 4096) % 4096 = 0 := by
      unfold wrap64
      omega
    have hleft : 3 * buf.length ≤ (mapSmallPage g flags frame virt s).ahead := by
      have hle := hfirst.2
      omega
    obtain ⟨s', virt', hrest, halign', htakes⟩ :=
      ih hnext (fun x hx => hframes x (List.mem_cons_of_mem _ hx)) hleft
    refine ⟨s', virt', ?_, halign', ?_⟩
    · rw [mapFrames, hpage]
      exact hrest
    · rw [Nat.add_comm]
      exact hfirst.trans htakes

theorem takes_allocateFrames (h : pageCount ≤ s.ahead) :
    (s.frames.allocateFrames pageCount).2.length = pageCount ∧
      Takes pageCount s (s.allocateFrames pageCount).2 := by
  have hlength : (s.frames.allocateFrames pageCount).2.length = pageCount :=
    (Physical.allocateFrames_spec s.frames pageCount).1.trans (Nat.min_eq_left h)
  refine ⟨hlength, ?_, Physical.card_clearAhead_le s.frames pageCount⟩
  unfold Served
  exact congrArg _ (if_neg (Nat.not_lt_of_le (Nat.le_of_eq hlength.symm)))

theorem takes_allocatePages (hallocator : g.allocator = bitmapAllocator) (flags : BitVec 32)
    (halign : virt % 4096 = 0) (h : 4 * pageCount ≤ s.ahead) (hfuel : pageCount ≤ fuel) :
    ∃ s', allocatePages g flags fuel pageCount virt s = some s' ∧ Takes (4 * pageCount) s s' := by
  induction fuel generalizing pageCount virt s with
  | zero =>
    obtain rfl := Nat.le_zero.mp hfuel
    exact ⟨s, rfl, Takes.refl s⟩
  | succ fuel ih =>
    cases pageCount with
    | zero => exact ⟨s, rfl, Takes.refl s⟩
    | succ pageCount =>
      obtain ⟨turn, hturn⟩ : ∃ turn, turn = min (pageCount + 1) bufSize := ⟨_, rfl⟩
      have hsome : 0 < turn ∧ turn ≤ pageCount + 1 := by
        unfold bufSize at hturn
        omega
      have hahead : turn ≤ s.ahead := by omega
      obtain ⟨hlength, halloc⟩ := takes_allocateFrames hahead
      have hmappable : 3 * (s.frames.allocateFrames turn).2.length ≤
          (s.allocateFrames turn).2.ahead := by
        have hle := halloc.2
        omega
      obtain ⟨s₂, virt', hmap, halign', hmapped⟩ := takes_mapFrames hallocator flags halign
        (Physical.allocateFrames_aligned s.frames turn) hmappable
      have hthen := halloc.trans hmapped
      have hleft : 4 * (pageCount + 1 - turn) ≤ s₂.ahead := by
        have hle := hthen.2
        omega
      obtain ⟨s', hrest, htakes⟩ := ih halign' hleft (by omega)
      have hall : 4 * (pageCount + 1) =
          turn + 3 * (s.frames.allocateFrames turn).2.length + 4 * (pageCount + 1 - turn) := by
        omega
      refine ⟨s', ?_, hall ▸ hthen.trans htakes⟩
      rw [← hlength] at hrest
      subst hturn
      exact Option.bind_eq_some_iff.mpr ⟨(s₂, virt'), hmap, hrest⟩

/-- **Return.** With enough clear pages ahead `paging_map_PageAllocated` maps all pages, and no
allocation fails. -/
theorem pageAllocated_returns (hallocator : g.allocator = bitmapAllocator)
    (halign : virt % 4096 = 0) (h : 4 * pageCount ≤ s.frames.clearAhead.card) :
    ∃ s', pageAllocated g flags s virt pageCount = some s' ∧ Served s s' := by
  obtain ⟨s', hrun, htakes⟩ :=
    takes_allocatePages hallocator flags halign h (Nat.le_refl pageCount)
  exact ⟨s', (if_pos halign).trans hrun, htakes.1⟩

/-- An empty PML4, and 64 clear pages at the first MiB. -/
def oneWordPaging : Paging Physical :=
  { frames := .boot Physical.Books.oneWord 320, memory := fun _ _ => 0, events := [] }

end Paging

end Helos
