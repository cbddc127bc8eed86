import Helos.Memory.PageTree

/-!
# Frames taken from the bitmap

Frames, or blocks of 512 frames, that are handed out were clear in the bitmap, so that none of them
is a table, and zeroing them leaves the tables alone. The tables that come afterwards take other
frames. So the bitmap is made up of what was marked before, of the new tables and of these frames.
-/

namespace Helos

open PageEntry

/-- The page is in one of these blocks of `n` frames. -/
def InFrames (n : Nat) (frames : List Nat) (page : Nat) : Prop :=
  ∃ frame ∈ frames, frame / 4096 ≤ page ∧ page < frame / 4096 + n

section InFrames

variable {n frame page : Nat} {frames frames' : List Nat}

@[simp] theorem not_inFrames_nil : ¬ InFrames n [] page := by simp [InFrames]

theorem inFrames_cons :
    InFrames n (frame :: frames) page ↔
      (frame / 4096 ≤ page ∧ page < frame / 4096 + n) ∨ InFrames n frames page := by
  simp [InFrames]

theorem inFrames_singleton :
    InFrames n [frame] page ↔ frame / 4096 ≤ page ∧ page < frame / 4096 + n := by
  rw [inFrames_cons, or_iff_left not_inFrames_nil]

theorem inFrames_append :
    InFrames n (frames ++ frames') page ↔ InFrames n frames page ∨ InFrames n frames' page := by
  simp only [InFrames, List.mem_append, or_and_right, exists_or]

theorem InFrames.head (hn : 0 < n) (h : frame ∈ frames) : InFrames n frames (frame / 4096) :=
  ⟨frame, h, Nat.le_refl _, Nat.lt_add_of_pos_right hn⟩

end InFrames

namespace Physical

/-- What a call of one of the allocating functions does, when a block is `n` frames. -/
structure HandsOut (n : Nat) (p p' : Physical) (frames : List Nat) : Prop where
  endPage : p'.endPhysicalPage = p.endPhysicalPage
  nodup : frames.Nodup
  frame : ∀ frame ∈ frames, IsFrame frame
  clear : ∀ page, InFrames n frames page → bit p.bitmap page = false
  marked : ∀ page, bit p'.bitmap page = true ↔ bit p.bitmap page = true ∨ InFrames n frames page

variable {n pageCount : Nat} {p p₁ p' : Physical} {frame : Nat} {frames : List Nat}

theorem HandsOut.of_bitmap (hend : p'.endPhysicalPage = p.endPhysicalPage)
    (hbitmap : p'.bitmap = p.bitmap) : HandsOut n p p' [] := by
  refine ⟨hend, List.nodup_nil, ?_, fun page h => absurd h not_inFrames_nil, fun page => ?_⟩
  · intro frame hframe
    cases hframe
  · rw [hbitmap, or_iff_left not_inFrames_nil]

theorem HandsOut.cons (hn : 0 < n) (h : HandsOut n p p₁ [frame]) (h' : HandsOut n p₁ p' frames) :
    HandsOut n p p' (frame :: frames) := by
  refine ⟨h'.endPage.trans h.endPage, List.nodup_cons.mpr ⟨fun hmem => ?_, h'.nodup⟩,
    fun x hx => ?_, fun page hpage => ?_, fun page => ?_⟩
  · -- a frame that was handed out is marked
    have hmarked := (h.marked _).mpr (.inr (InFrames.head hn (List.mem_singleton.mpr rfl)))
    rw [h'.clear _ (InFrames.head hn hmem)] at hmarked
    cases hmarked
  · rcases List.mem_cons.mp hx with rfl | hx
    · exact h.frame x (List.mem_singleton.mpr rfl)
    · exact h'.frame x hx
  · rcases inFrames_cons.mp hpage with hpage | hpage
    · exact h.clear page (inFrames_singleton.mpr hpage)
    · by_contra hset
      have hmarked := (h.marked page).mpr (.inl (by simpa using hset))
      rw [h'.clear page hpage] at hmarked
      cases hmarked
  · rw [h'.marked, h.marked, inFrames_singleton, inFrames_cons, or_assoc]

theorem handsOut_allocateFrame (hend : p.endPhysicalPage ≤ 2 ^ 31)
    (h : p.allocateFrame = (p', some frame)) : HandsOut 1 p p' [frame] := by
  obtain ⟨hframe, hclear, hkept, hmarked⟩ := allocateFrame_spec hend h
  have hpage (page : Nat) : InFrames 1 [frame] page ↔ page = frame / 4096 := by
    rw [inFrames_singleton]
    omega
  refine ⟨hkept, List.nodup_singleton _, fun x hx => ?_, fun page hin => ?_, fun page => ?_⟩
  · rw [List.mem_singleton.mp hx]
    exact hframe
  · rw [(hpage page).mp hin, hclear]
  · rw [hmarked, hpage]

theorem handsOut_allocateFrame_none (h : p.allocateFrame = (p', none)) : HandsOut 1 p p' [] := by
  unfold allocateFrame at h
  split at h
  · obtain ⟨rfl, -⟩ := Prod.mk.inj h
    exact HandsOut.of_bitmap rfl rfl
  · cases h

/-- `paging_physical_AllocateFrames` -/
theorem handsOut_allocateFrames (pageCount : Nat) (hend : p.endPhysicalPage ≤ 2 ^ 31) :
    HandsOut 1 p (p.allocateFrames pageCount).1 (p.allocateFrames pageCount).2 := by
  induction pageCount generalizing p with
  | zero => exact HandsOut.of_bitmap rfl rfl
  | succ pageCount ih =>
    rw [allocateFrames]
    split
    · next hone => exact handsOut_allocateFrame_none hone
    · next hone =>
      have hfirst := handsOut_allocateFrame hend hone
      exact hfirst.cons Nat.one_pos (ih (hfirst.endPage ▸ hend))

theorem handsOut_allocateFrame2M (hend : p.endPhysicalPage ≤ 2 ^ 31)
    (h : p.allocateFrame2M = (p', some frame)) : HandsOut 512 p p' [frame] := by
  simp only [allocateFrame2M] at h
  split at h
  · cases h
  · next i hscan =>
    obtain ⟨rfl, hframe⟩ := Prod.mk.inj h
    obtain ⟨-, hframe⟩ := Option.ite_none_left_eq_some.mp hframe
    obtain ⟨hlt, hclear⟩ := (scan2M_spec hscan).2 rfl
    obtain rfl := Option.some.inj hframe
    have hpage : i * bitmapBits * systemPageSize / 4096 = i * 64 := by
      unfold bitmapBits systemPageSize
      omega
    have hi : i < p.endPhysicalPage / 64 := hlt
    refine ⟨rfl, List.nodup_singleton _, fun x hx => ?_, fun page hin => ?_, fun page => ?_⟩
    · rw [List.mem_singleton.mp hx]
      unfold IsFrame bitmapBits systemPageSize
      omega
    · rw [inFrames_singleton, hpage] at hin
      exact hclear page hin.1 hin.2
    · rw [bit_fillWords_ones, inFrames_singleton, hpage, Bool.or_eq_true, decide_eq_true_iff]

/-- `paging_physical_AllocateFrames2M`, unless it comes back short: a block at the address 0 gets
marked and is not handed out. -/
theorem handsOut_allocateFrames2M {pageCount : Nat} (hend : p.endPhysicalPage ≤ 2 ^ 31)
    (hfull : (p.allocateFrames2M pageCount).2.length = pageCount) :
    HandsOut 512 p (p.allocateFrames2M pageCount).1 (p.allocateFrames2M pageCount).2 := by
  induction pageCount generalizing p with
  | zero => exact HandsOut.of_bitmap rfl rfl
  | succ pageCount ih =>
    rw [allocateFrames2M] at hfull ⊢
    split at hfull
    · cases hfull
    · next hone =>
      have hfirst := handsOut_allocateFrame2M hend hone
      exact hfirst.cons (by decide)
        (ih (hfirst.endPage ▸ hend) (Nat.succ.inj hfull))

end Physical

namespace Paging

open Translation

variable {g : PagingSetup Physical} {s s₁ s' : Paging Physical} {n frame : Nat}
  {frames frames' : List Nat}

/-! ### Zeroing -/

theorem foldl_clear_of_notMem {m : Nat → Nat → Nat} {t : Nat} (h : t ∉ frames) :
    frames.foldl (fun m frame => Radix.clear m frame 0) m t = m t := by
  induction frames generalizing m with
  | nil => rfl
  | cons frame frames ih =>
    rw [List.mem_cons, not_or] at h
    rw [List.foldl_cons, ih h.2]
    exact Function.update_of_ne h.1 _ _

/-- What is not a table may change, and more pages may be marked. -/
theorem Tree.of_tables (h : Tree g s)
    (hmemory : ∀ t, Radix.IsTable link s.memory g.pml4Table t → s'.memory t = s.memory t)
    (hend : s'.frames.endPhysicalPage = s.frames.endPhysicalPage)
    (hused : ∀ page, s.Used page → s'.Used page) : Tree g s' := by
  have hfind (q : List Nat) : Radix.find link s'.memory 0 g.pml4Table q =
      Radix.find link s.memory 0 g.pml4Table q := Radix.find_of_tables hmemory
  refine ⟨h.allocator, hend ▸ h.endPage, fun p q t hp hq => ?_, ?_, fun p t i hp hlink => ?_⟩
  · rw [hfind] at hp hq
    exact h.unshared p q t hp hq
  · rintro t ⟨p, hp⟩
    rw [hfind] at hp
    obtain ⟨hframe, hmarked⟩ := h.tables t ⟨p, hp⟩
    exact ⟨hframe, hused _ hmarked⟩
  · rw [hfind] at hp
    rw [hmemory t ⟨p, hp⟩] at hlink ⊢
    exact h.links p t i hp hlink

/-! ### What was taken -/

/-- No table is in these blocks. -/
def Apart (g : PagingSetup Physical) (n : Nat) (s : Paging Physical) (frames : List Nat) : Prop :=
  ∀ t, Radix.IsTable link s.memory g.pml4Table t → ¬ InFrames n frames (t / 4096)

/-- Since then these blocks were handed out, and tables may have come: that is what is marked. -/
structure Stocked (g : PagingSetup Physical) (n : Nat) (s s' : Paging Physical)
    (frames : List Nat) : Prop where
  tree : Tree g s'
  find : ∀ q x, Radix.find link s.memory 0 g.pml4Table q = some x →
    Radix.find link s'.memory 0 g.pml4Table q = some x
  fresh : ∀ t, NewTable g s s' t → ¬ s.Used (t / 4096)
  nodup : frames.Nodup
  frame : ∀ frame ∈ frames, IsFrame frame
  clear : ∀ page, InFrames n frames page → ¬ s.Used page
  apart : Apart g n s' frames
  used : ∀ page, s'.Used page ↔
    s.Used page ∨ (∃ t, NewTable g s s' t ∧ t / 4096 = page) ∨ InFrames n frames page

theorem Enlarged.stocked (h : Enlarged g s s') (htree : Tree g s') : Stocked g n s s' [] := by
  refine ⟨htree, h.find, h.fresh, List.nodup_nil, ?_, fun _ h => absurd h not_inFrames_nil,
    fun _ _ => not_inFrames_nil, fun page => ?_⟩
  · intro frame hframe
    cases hframe
  · rw [h.used, or_iff_left not_inFrames_nil]

theorem Stocked.isTable (h : Stocked g n s s' frames) {t : Nat}
    (ht : Radix.IsTable link s.memory g.pml4Table t) :
    Radix.IsTable link s'.memory g.pml4Table t := by
  obtain ⟨q, hq⟩ := ht
  exact ⟨q, h.find q t hq⟩

theorem Stocked.trans (hn : 0 < n) (h : Stocked g n s s₁ frames)
    (h' : Stocked g n s₁ s' frames') : Stocked g n s s' (frames ++ frames') := by
  have hkept (page : Nat) (hpage : s.Used page ∨ InFrames n frames page) : s₁.Used page := by
    rw [h.used]
    exact hpage.imp_right .inr
  refine ⟨h'.tree, fun q x hx => h'.find q x (h.find q x hx), fun t ht hused => ?_, ?_,
    fun x hx => ?_, fun page hpage => ?_, fun t ht hin => ?_, fun page => ?_⟩
  · by_cases hmiddle : Radix.IsTable link s₁.memory g.pml4Table t
    · exact h.fresh t ⟨hmiddle, ht.2⟩ hused
    · exact h'.fresh t ⟨ht.1, hmiddle⟩ (hkept _ (.inl hused))
  · apply h.nodup.append h'.nodup
    intro x hx hx'
    exact h'.clear _ (InFrames.head hn hx') (hkept _ (.inr (InFrames.head hn hx)))
  · exact (List.mem_append.mp hx).elim (h.frame x) (h'.frame x)
  · rcases inFrames_append.mp hpage with hpage | hpage
    · exact h.clear page hpage
    · exact fun hused => h'.clear page hpage (hkept page (.inl hused))
  · rcases inFrames_append.mp hin with hin | hin
    · by_cases hmiddle : Radix.IsTable link s₁.memory g.pml4Table t
      · exact h.apart t hmiddle hin
      · exact h'.fresh t ⟨ht, hmiddle⟩ (hkept _ (.inr hin))
    · exact h'.apart t ht hin
  · rw [h'.used, h.used, inFrames_append]
    rw [exists_newTable_iff (fun _ => h.isTable) (fun _ => h'.isTable), or_assoc, or_or_or_comm]

/-- Blocks that are handed out and zeroed. -/
theorem Tree.stock (h : Tree g s) (hframes : Physical.HandsOut n s.frames s'.frames frames)
    (hmemory : ∀ t, ¬ InFrames n frames (t / 4096) → s'.memory t = s.memory t) :
    Stocked g n s s' frames ∧ (∀ q, Radix.find link s'.memory 0 g.pml4Table q =
      Radix.find link s.memory 0 g.pml4Table q) ∧ translate g s' = translate g s := by
  have hold : Apart g n s frames := by
    intro t ht hin
    have hmarked := (h.tables t ht).2
    unfold Used at hmarked
    rw [hframes.clear _ hin] at hmarked
    cases hmarked
  have hsame (t : Nat) (ht : Radix.IsTable link s.memory g.pml4Table t) :
      s'.memory t = s.memory t := hmemory t (hold t ht)
  have hfind (q : List Nat) : Radix.find link s'.memory 0 g.pml4Table q =
      Radix.find link s.memory 0 g.pml4Table q := Radix.find_of_tables hsame
  have hnone (t : Nat) : ¬ NewTable g s s' t := by
    rintro ⟨⟨q, hq⟩, hnot⟩
    exact hnot ⟨q, (hfind q).symm.trans hq⟩
  have hkept (page : Nat) (hused : s.Used page) : s'.Used page :=
    (hframes.marked page).mpr (.inl hused)
  refine ⟨⟨h.of_tables hsame hframes.endPage hkept, fun q x hx => (hfind q).trans hx,
    fun t ht => absurd ht (hnone t), hframes.nodup, hframes.frame,
    fun page hin => ?_, ?_, fun page => ?_⟩, hfind, ?_⟩
  · unfold Used
    rw [hframes.clear page hin]
    exact Bool.false_ne_true
  · rintro t ⟨q, hq⟩
    exact hold t ⟨q, (hfind q).symm.trans hq⟩
  · unfold Used
    rw [hframes.marked]
    simp only [hnone, false_and, exists_false, false_or]
  · funext v
    unfold Paging.translate
    rw [Radix.trail_of_tables hsame]

/-! ### The allocating functions -/

theorem length_allocateFrames_le (p : Physical) (pageCount : Nat) :
    (p.allocateFrames pageCount).2.length ≤ pageCount := by
  induction pageCount generalizing p with
  | zero => exact Nat.le_refl 0
  | succ pageCount ih =>
    rw [Physical.allocateFrames]
    split
    · exact Nat.zero_le _
    · exact Nat.succ_le_succ (ih _)

theorem length_allocateFrames2M_le (p : Physical) (pageCount : Nat) :
    (p.allocateFrames2M pageCount).2.length ≤ pageCount := by
  induction pageCount generalizing p with
  | zero => exact Nat.le_refl 0
  | succ pageCount ih =>
    rw [Physical.allocateFrames2M]
    split
    · exact Nat.zero_le _
    · exact Nat.succ_le_succ (ih _)

theorem events_allocateFrames {pageCount : Nat} (h : s.allocateFrames pageCount = (frames, s')) :
    s.events <:+ s'.events := by
  obtain ⟨rfl, rfl⟩ := Prod.mk.inj h
  simp only
  split
  · exact List.suffix_cons _ _
  · exact List.suffix_refl _

theorem events_allocateFrames2M {pageCount : Nat}
    (h : s.allocateFrames2M pageCount = (frames, s')) : s.events <:+ s'.events := by
  obtain ⟨rfl, rfl⟩ := Prod.mk.inj h
  simp only
  split
  · exact List.suffix_cons _ _
  · exact List.suffix_refl _

/-- A buffer that came back short would have been recorded. -/
theorem Served.full {length pageCount : Nat} (hle : length ≤ pageCount)
    (hevents : s'.events = if length < pageCount then .allocated none :: s.events else s.events)
    (hserved : Served s s') : length = pageCount := by
  by_contra hne
  rw [if_pos (by omega)] at hevents
  unfold Served at hserved
  rw [hevents, List.count_cons_self] at hserved
  omega

theorem Tree.allocateFrames (h : Tree g s) {pageCount : Nat}
    (hrun : s.allocateFrames pageCount = (frames, s')) (hserved : Served s s') :
    frames.length = pageCount ∧ Stocked g 1 s s' frames ∧
      (∀ q, Radix.find link s'.memory 0 g.pml4Table q = Radix.find link s.memory 0 g.pml4Table q) ∧
      translate g s' = translate g s := by
  obtain ⟨rfl, rfl⟩ := Prod.mk.inj hrun
  refine ⟨hserved.full (length_allocateFrames_le _ _) rfl,
    h.stock (Physical.handsOut_allocateFrames pageCount h.endPage) fun t ht => ?_⟩
  exact foldl_clear_of_notMem fun hmem => ht (InFrames.head Nat.one_pos hmem)

theorem Tree.allocateFrames2M (h : Tree g s) {pageCount : Nat}
    (hrun : s.allocateFrames2M pageCount = (frames, s')) (hserved : Served s s') :
    frames.length = pageCount ∧ Stocked g 512 s s' frames ∧
      (∀ q, Radix.find link s'.memory 0 g.pml4Table q = Radix.find link s.memory 0 g.pml4Table q) ∧
      translate g s' = translate g s := by
  obtain ⟨rfl, rfl⟩ := Prod.mk.inj hrun
  have hfull := hserved.full (length_allocateFrames2M_le _ _) rfl
  refine ⟨hfull, h.stock (Physical.handsOut_allocateFrames2M h.endPage hfull) fun t ht => ?_⟩
  refine foldl_clear_of_notMem fun hmem => ht ?_
  obtain ⟨frame, hframe, hpage⟩ := List.mem_flatMap.mp hmem
  obtain ⟨i, hi, rfl⟩ := List.mem_map.mp hpage
  have hlt := List.mem_range.mp hi
  exact ⟨frame, hframe, by omega, by omega⟩

end Paging

end Helos
