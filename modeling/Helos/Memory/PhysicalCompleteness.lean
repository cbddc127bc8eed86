import Helos.Memory.PhysicalLedger

/-!
# When an allocation falls short

`phy_i` only moves forward, and the scan ends at the last whole word of the bitmap. A call hands out
what is clear between the two: it comes back short with memory left exactly when too few pages are
clear ahead of the cursor while one is clear behind it or in the last partial word.
-/

namespace Helos.Physical

theorem clearBit_eq_none {w : Word} (h : clearBit w = none) {j : Nat} (hj : j < 64) :
    w.getLsbD j = true := by
  unfold clearBit bitmapBits at h
  have hset := List.find?_eq_none.mp h j (List.mem_range.mpr hj)
  rw [beq_iff_eq, and_shiftLeft_one_eq_zero w hj] at hset
  simpa using hset

theorem bit_of_clearBit_none {bitmap : Nat → Word} {i : Nat}
    (h : bitmap i = ~~~0#64 ∨ clearBit (bitmap i) = none) {page : Nat} (hpage : page / 64 = i) :
    bit bitmap page = true := by
  have hlt : page % 64 < 64 := Nat.mod_lt _ (by decide)
  unfold bit bitmapBits
  rw [hpage]
  rcases h with hones | hnone
  · rw [hones, BitVec.getLsbD_not]
    simp [hlt]
  · exact clearBit_eq_none hnone hlt

/-- What a scan steps over is full, and it gives up at the end only. -/
theorem scan_skips {bitmap : Nat → Word} {left i k : Nat} {found : Option Nat}
    (h : scan bitmap left i = (k, found)) :
    (∀ page, i * 64 ≤ page → page < k * 64 → bit bitmap page = true) ∧
      (found = none → k = i + left) := by
  induction left generalizing i with
  | zero =>
    cases h
    exact ⟨fun page hlo hhi => absurd hhi (by omega), fun _ => rfl⟩
  | succ left ih =>
    have hnext : (bitmap i = ~~~0#64 ∨ clearBit (bitmap i) = none) →
        scan bitmap left (i + 1) = (k, found) →
        (∀ page, i * 64 ≤ page → page < k * 64 → bit bitmap page = true) ∧
          (found = none → k = i + (left + 1)) := by
      intro hfull hrest
      obtain ⟨hskip, hend⟩ := ih hrest
      refine ⟨fun page hlo hhi => ?_, fun hnone => ?_⟩
      · by_cases hword : page / 64 = i
        · exact bit_of_clearBit_none hfull hword
        · exact hskip page (by omega) hhi
      · have hk := hend hnone
        omega
    rw [scan] at h
    split at h
    · split at h
      · cases h
        exact ⟨fun page hlo hhi => absurd hhi (by omega), by simp⟩
      · next hnone => exact hnext (.inr hnone) h
    · next hones =>
      have hones : bitmap i = ~~~0#64 := by simpa using hones
      exact hnext (.inl hones) h

/-! ### The pages ahead of the cursor -/

/-- The clear pages of the words the scan has yet to look at. -/
def clearAhead (p : Physical) : Finset Nat :=
  (Finset.Ico (p.phyI * 64) (p.endPhysicalPage / 64 * 64)).filter fun page => bit p.bitmap page = false

theorem mem_clearAhead {p : Physical} {page : Nat} :
    page ∈ p.clearAhead ↔
      p.phyI * 64 ≤ page ∧ page < p.endPhysicalPage / 64 * 64 ∧ bit p.bitmap page = false := by
  simp only [clearAhead, Finset.mem_filter, Finset.mem_Ico, and_assoc]

theorem allocateFrame_none {p q : Physical} (h : p.allocateFrame = (q, none)) :
    p.clearAhead = ∅ ∧ q.bitmap = p.bitmap := by
  unfold allocateFrame bitmapBits at h
  split at h
  · next i hscan =>
    obtain ⟨rfl, -⟩ := Prod.mk.inj h
    obtain ⟨hskip, hend⟩ := scan_skips hscan
    have hi := hend rfl
    refine ⟨?_, rfl⟩
    ext page
    simp only [mem_clearAhead, Finset.notMem_empty, iff_false]
    rintro ⟨hlo, hhi, hclear⟩
    have hfull := hskip page hlo (by omega)
    simp [hclear] at hfull
  · cases h

/-- A frame comes from ahead of the cursor, and nothing else ahead of it is passed over. -/
theorem allocateFrame_some {p q : Physical} {addr : Nat} (h : p.allocateFrame = (q, some addr)) :
    addr / systemPageSize ∈ p.clearAhead ∧
      q.clearAhead = p.clearAhead.erase (addr / systemPageSize) ∧
      ∀ page, bit q.bitmap page = (bit p.bitmap page || decide (page = addr / systemPageSize)) := by
  unfold allocateFrame bitmapBits at h
  split at h
  · cases h
  · next i j hscan =>
    obtain ⟨rfl, haddr⟩ := Prod.mk.inj h
    obtain ⟨hle, hfound⟩ := scan_spec hscan
    obtain ⟨hlt, hj, hclear⟩ := hfound j rfl
    obtain ⟨hskip, -⟩ := scan_skips hscan
    have hpage : addr / systemPageSize = i * 64 + j := by
      rw [← Option.some.inj haddr]
      unfold systemPageSize
      omega
    rw [hpage]
    refine ⟨mem_clearAhead.mpr ⟨by omega, by omega, hclear⟩, ?_, fun page => bit_setBit _ hj page⟩
    ext page
    simp only [mem_clearAhead, Finset.mem_erase, bit_setBit _ hj, Bool.or_eq_false_iff,
      decide_eq_false_iff_not]
    constructor
    · rintro ⟨hlo, hhi, hbit, hne⟩
      exact ⟨hne, by omega, hhi, hbit⟩
    · rintro ⟨hne, hlo, hhi, hbit⟩
      refine ⟨?_, hhi, hbit, hne⟩
      by_contra hbehind
      have hfull := hskip page hlo (by omega)
      simp [hbit] at hfull

/-! ### Whole calls -/

/-- A call hands out as many of the pages ahead as it was asked for, and touches no other page. -/
theorem allocateFrames_spec (p : Physical) (pageCount : Nat) :
    (p.allocateFrames pageCount).2.length = min pageCount p.clearAhead.card ∧
      (∀ page, page ∉ p.clearAhead →
        bit (p.allocateFrames pageCount).1.bitmap page = bit p.bitmap page) ∧
      (p.clearAhead.card ≤ pageCount →
        ∀ page ∈ p.clearAhead, bit (p.allocateFrames pageCount).1.bitmap page = true) := by
  induction pageCount generalizing p with
  | zero =>
    refine ⟨(Nat.zero_min _).symm, fun _ _ => rfl, fun hcard page hpage => ?_⟩
    rw [Nat.le_zero, Finset.card_eq_zero] at hcard
    simp [hcard] at hpage
  | succ pageCount ih =>
    rw [allocateFrames]
    split
    · next q hone =>
      obtain ⟨hempty, hmap⟩ := allocateFrame_none hone
      refine ⟨by simp [hempty], fun _ _ => by rw [hmap], fun _ page hpage => ?_⟩
      simp [hempty] at hpage
    · next q addr hone =>
      obtain ⟨hmem, hahead, hbits⟩ := allocateFrame_some hone
      obtain ⟨hlen, hkeep, hfull⟩ := ih q
      have hcard : q.clearAhead.card + 1 = p.clearAhead.card := by
        rw [hahead, Finset.card_erase_add_one hmem]
      have hset : bit q.bitmap (addr / systemPageSize) = true := by simp [hbits]
      have hgone : addr / systemPageSize ∉ q.clearAhead := by simp [hahead]
      refine ⟨?_, fun page hpage => ?_, fun hall page hpage => ?_⟩
      · rw [List.length_cons, hlen]
        omega
      · have hne : page ≠ addr / systemPageSize := fun heq => hpage (heq ▸ hmem)
        have hpage' : page ∉ q.clearAhead := by
          rw [hahead]
          exact fun h => hpage (Finset.mem_of_mem_erase h)
        rw [hkeep page hpage', hbits]
        simp [hne]
      · by_cases hne : page = addr / systemPageSize
        · rw [hne, hkeep _ hgone, hset]
        · refine hfull (by omega) page ?_
          rw [hahead]
          exact Finset.mem_erase.mpr ⟨hne, hpage⟩

/-- What a call that falls short leaves is ahead of no cursor. -/
theorem allocateFrame_exhausted {p : Physical} (h : p.clearAhead = ∅) :
    p.allocateFrame.1.clearAhead = ∅ := by
  rcases hone : p.allocateFrame with ⟨q, found⟩
  change q.clearAhead = ∅
  cases found with
  | some addr => exact absurd (h ▸ (allocateFrame_some hone).1) (Finset.notMem_empty _)
  | none =>
    have hcursor : p.phyI ≤ q.phyI ∧ q.endPhysicalPage = p.endPhysicalPage := by
      unfold allocateFrame at hone
      split at hone
      · next i hscan =>
        obtain ⟨rfl, -⟩ := Prod.mk.inj hone
        exact ⟨(scan_spec hscan).1, rfl⟩
      · cases hone
    rw [Finset.eq_empty_iff_forall_notMem] at h ⊢
    intro page hpage
    obtain ⟨hlo, hhi, hclear⟩ := mem_clearAhead.mp hpage
    rw [(allocateFrame_none hone).2] at hclear
    exact h page (mem_clearAhead.mpr ⟨by omega, hcursor.2 ▸ hhi, hclear⟩)

theorem allocateFrames_exhausted {p : Physical} {pageCount : Nat}
    (h : p.clearAhead.card ≤ pageCount) : (p.allocateFrames pageCount).1.clearAhead = ∅ := by
  induction pageCount generalizing p with
  | zero => exact Finset.card_eq_zero.mp (Nat.le_zero.mp h)
  | succ pageCount ih =>
    rw [allocateFrames]
    split
    · next q hone =>
      have hq := allocateFrame_exhausted (allocateFrame_none hone).1
      rwa [hone] at hq
    · next q addr hone =>
      obtain ⟨hmem, hahead, -⟩ := allocateFrame_some hone
      apply ih
      rw [hahead, Finset.card_erase_of_mem hmem]
      omega

/-! ### Blocks -/

/-- The clear blocks that the scan has yet to look at, by their first words. -/
def blocksAhead (p : Physical) : Finset Nat :=
  (Finset.Ico p.phyI2M (p.endPhysicalPage / 64)).filter fun i =>
    i % 8 = 0 ∧ (List.range 8).all fun j => p.bitmap (i + j) == 0#64

theorem mem_blocksAhead {p : Physical} {i : Nat} :
    i ∈ p.blocksAhead ↔ (p.phyI2M ≤ i ∧ i < p.endPhysicalPage / 64) ∧
      i % 8 = 0 ∧ ∀ j < 8, p.bitmap (i + j) = 0#64 := by
  simp [blocksAhead]

/-- `phy_i_2M` starts at the second MiB, and goes from block to block. -/
structure BlockCursor (p : Physical) : Prop where
  low : 8 ≤ p.phyI2M
  aligned : p.phyI2M % 8 = 0

/-- The scan stops at the first clear block, or at the end. -/
theorem scan2M_skips {bitmap : Nat → Word} {past left i k : Nat} {found : Bool} (hi : i % 8 = 0)
    (hleft : past ≤ i + left) (h : scan2M bitmap past left i = (k, found)) :
    (i ≤ k ∧ k % 8 = 0) ∧ (found = false → past ≤ k) ∧
      (found = true → k < past ∧ ∀ j < 8, bitmap (k + j) = 0#64) ∧
      ∀ n, i ≤ n → n < k → n < past → n % 8 = 0 → ¬ ∀ j < 8, bitmap (n + j) = 0#64 := by
  induction left generalizing i with
  | zero =>
    obtain ⟨rfl, rfl⟩ := Prod.mk.inj h
    exact ⟨⟨Nat.le_refl i, hi⟩, fun _ => hleft, (by simp), fun n hlo hhi => absurd hhi (by omega)⟩
  | succ left ih =>
    rw [scan2M] at h
    split at h
    · next hlt =>
      have hblock : ((List.range 8).all fun j => bitmap (i + j) == 0#64) = true ↔
          ∀ j < 8, bitmap (i + j) = 0#64 := by simp
      split at h
      · next hall =>
        obtain ⟨rfl, rfl⟩ := Prod.mk.inj h
        exact ⟨⟨Nat.le_refl i, hi⟩, (by simp), fun _ => ⟨hlt, hblock.mp hall⟩,
          fun n hlo hhi => absurd hhi (by omega)⟩
      · next hused =>
        obtain ⟨⟨hle, halign⟩, hend, hfound, hskip⟩ := ih (by omega) (by omega) h
        refine ⟨⟨by omega, halign⟩, hend, hfound, fun n hlo hhi hpast hn => ?_⟩
        by_cases hfirst : n = i
        · exact hfirst ▸ mt hblock.mpr hused
        · exact hskip n (by omega) hhi hpast hn
    · next hge =>
      obtain ⟨rfl, rfl⟩ := Prod.mk.inj h
      exact ⟨⟨Nat.le_refl i, hi⟩, fun _ => Nat.le_of_not_lt hge, (by simp),
        fun n hlo hhi => absurd hhi (by omega)⟩

variable {p q : Physical} {addr pageCount : Nat}

theorem allocateFrame2M_none (hcursor : p.BlockCursor) (h : p.allocateFrame2M = (q, none)) :
    p.blocksAhead = ∅ ∧ q.BlockCursor ∧ q.endPhysicalPage / 64 ≤ q.phyI2M := by
  unfold allocateFrame2M bitmapBits systemPageSize at h
  simp only at h
  split at h
  · next k hscan =>
    obtain ⟨rfl, -⟩ := Prod.mk.inj h
    obtain ⟨⟨hle, halign⟩, hend, -, hskip⟩ := scan2M_skips hcursor.aligned (by omega) hscan
    have hpast := hend rfl
    refine ⟨Finset.eq_empty_iff_forall_notMem.mpr fun n hn => ?_,
      ⟨hcursor.low.trans hle, halign⟩, hpast⟩
    obtain ⟨⟨hlo, hhi⟩, hn, hclear⟩ := mem_blocksAhead.mp hn
    exact hskip n hlo (by omega) hhi hn hclear
  · next k hscan =>
    obtain ⟨⟨hle, -⟩, -⟩ := scan2M_skips hcursor.aligned (by omega) hscan
    have hlow := hcursor.low
    have haddr : k * 64 * 4096 ≠ 0 := by omega
    rw [if_neg haddr] at h
    cases h

theorem allocateFrame2M_some (hcursor : p.BlockCursor) (h : p.allocateFrame2M = (q, some addr)) :
    addr % 2097152 = 0 ∧ q.BlockCursor ∧
      ∃ k ∈ p.blocksAhead, q.blocksAhead = p.blocksAhead.erase k := by
  unfold allocateFrame2M bitmapBits systemPageSize at h
  simp only at h
  split at h
  · cases h
  · next k hscan =>
    obtain ⟨⟨hle, halign⟩, -, hfound, hskip⟩ := scan2M_skips hcursor.aligned (by omega) hscan
    obtain ⟨hlt, hclear⟩ := hfound rfl
    have hlow := hcursor.low
    have haddr : k * 64 * 4096 ≠ 0 := by omega
    rw [if_neg haddr] at h
    obtain ⟨rfl, haddr⟩ := Prod.mk.inj h
    obtain rfl := Option.some.inj haddr
    refine ⟨by omega, ⟨hlow.trans hle, halign⟩, k, mem_blocksAhead.mpr ⟨⟨hle, hlt⟩, halign, hclear⟩, ?_⟩
    have hones : (~~~0#64 : Word) ≠ 0#64 := by decide
    ext n
    simp only [mem_blocksAhead, Finset.mem_erase]
    constructor
    · rintro ⟨⟨hlo, hhi⟩, hn, hblock⟩
      have hne : n ≠ k := by
        rintro rfl
        have hfirst := hblock 0 (by decide)
        rw [fillWords_apply, if_pos (by omega)] at hfirst
        exact hones hfirst
      refine ⟨hne, ⟨hle.trans hlo, hhi⟩, hn, fun j hj => ?_⟩
      have hword := hblock j hj
      rwa [fillWords_apply, if_neg (by omega)] at hword
    · rintro ⟨hne, ⟨hlo, hhi⟩, hn, hblock⟩
      have hafter : k ≤ n := by
        by_contra hbefore
        exact hskip n hlo (by omega) hhi hn hblock
      refine ⟨⟨hafter, hhi⟩, hn, fun j hj => ?_⟩
      rw [fillWords_apply, if_neg (by omega)]
      exact hblock j hj

/-- A call hands out as many of the blocks ahead as it was asked for, and then the scan is at the end if
that was not enough. -/
theorem allocateFrames2M_spec (hcursor : p.BlockCursor) (pageCount : Nat) :
    (p.allocateFrames2M pageCount).2.length = min pageCount p.blocksAhead.card ∧
      (p.allocateFrames2M pageCount).1.BlockCursor ∧
      (∀ frame ∈ (p.allocateFrames2M pageCount).2, frame % 2097152 = 0) ∧
      (p.blocksAhead.card < pageCount → (p.allocateFrames2M pageCount).1.endPhysicalPage / 64 ≤
        (p.allocateFrames2M pageCount).1.phyI2M) := by
  induction pageCount generalizing p with
  | zero => exact ⟨(Nat.zero_min _).symm, hcursor, by simp [allocateFrames2M], fun h => absurd h (by omega)⟩
  | succ pageCount ih =>
    rw [allocateFrames2M]
    split
    · next q hone =>
      obtain ⟨hempty, hq, hend⟩ := allocateFrame2M_none hcursor hone
      exact ⟨by simp [hempty], hq, by simp, fun _ => hend⟩
    · next q addr hone =>
      obtain ⟨halign, hq, k, hk, hahead⟩ := allocateFrame2M_some hcursor hone
      obtain ⟨hlength, hcursor', hframes, hend⟩ := ih hq
      have hcard : q.blocksAhead.card + 1 = p.blocksAhead.card := by
        rw [hahead, Finset.card_erase_add_one hk]
      refine ⟨?_, hcursor', ?_, fun hshort => hend (by omega)⟩
      · rw [List.length_cons, hlength]
        omega
      · intro frame hframe
        rcases List.mem_cons.mp hframe with rfl | hframe
        · exact halign
        · exact hframes frame hframe

/-- What a call of `paging_physical_AllocateFrames` is meant to do: it returns fewer frames than it
was asked for only when none is left. -/
def Complete (p : Physical) (pageCount : Nat) : Prop :=
  (p.allocateFrames pageCount).2.length < pageCount →
    ∀ page, 256 ≤ page → page < p.endPhysicalPage →
      bit (p.allocateFrames pageCount).1.bitmap page = true

/-- Either the scan has enough clear pages ahead of it, or all there are lie ahead of it. -/
def InReach (p : Physical) (pageCount : Nat) : Prop :=
  pageCount ≤ p.clearAhead.card ∨
    ∀ page, 256 ≤ page → page < p.endPhysicalPage → bit p.bitmap page = false →
      p.phyI * 64 ≤ page ∧ page < p.endPhysicalPage / 64 * 64

theorem complete_iff (p : Physical) (pageCount : Nat) : p.Complete pageCount ↔ p.InReach pageCount := by
  obtain ⟨hlen, hkeep, hfull⟩ := allocateFrames_spec p pageCount
  unfold Complete InReach
  rw [hlen]
  constructor
  · intro hcomplete
    apply or_iff_not_imp_left.mpr
    intro hshort page hlo hhi hclear
    have hset := hcomplete (by omega) page hlo hhi
    by_contra hbehind
    have hout : page ∉ p.clearAhead := by
      rw [mem_clearAhead]
      exact fun h => hbehind ⟨h.1, h.2.1⟩
    rw [hkeep page hout, hclear] at hset
    cases hset
  · rintro (henough | hahead) hshort page hlo hhi
    · omega
    · by_cases hmem : page ∈ p.clearAhead
      · exact hfull (by omega) page hmem
      · rw [hkeep page hmem]
        by_contra hclear
        have hclear : bit p.bitmap page = false := by simpa using hclear
        obtain ⟨hge, hlt⟩ := hahead page hlo hhi hclear
        exact hmem (mem_clearAhead.mpr ⟨hge, hlt, hclear⟩)

namespace Books

/-- The calls of `paging_physical_AllocateFrames` in one operation, `AllocateOneFrame`'s included. -/
def framesAsked : FrameOp → Option Nat
  | .allocateFrames pageCount => some pageCount
  | .allocateOneFrame => some 1
  | _ => none

/-- **Completeness of allocation.** In every run every call is complete exactly when each finds what
it needs in reach. -/
theorem allocations_complete_iff (initial : Nat → Word) (endPage : Nat) (ops : List FrameOp) :
    Run.EachStep Books.step
        (fun b op => ∀ pageCount ∈ framesAsked op, b.phys.Complete pageCount) (boot initial endPage) ops ↔
      Run.EachStep Books.step
        (fun b op => ∀ pageCount ∈ framesAsked op, b.phys.InReach pageCount) (boot initial endPage) ops := by
  have heq : (fun (b : Books) op => ∀ pageCount ∈ framesAsked op, b.phys.Complete pageCount) =
      fun b op => ∀ pageCount ∈ framesAsked op, b.phys.InReach pageCount := by
    funext b op
    simp only [complete_iff]
  rw [heq]

/-- One free word of 64 pages, at the first MiB. -/
def oneWord : Nat → Word := fun i => if i = 4 then 0#64 else ~~~0#64

/-- A frame is freed behind the cursor, and the next call does not find it. -/
theorem freed_frame_not_found :
    EndMarked oneWord 320 ∧
      ¬ Run.EachStep Books.step
        (fun b op => ∀ pageCount ∈ framesAsked op, b.phys.Complete pageCount) (boot oneWord 320)
        [.allocateFrames 65, .freeFrame 0x100000 1, .allocateFrames 1] := by
  constructor
  · intro page hpage
    have hword : page / 64 ≠ 4 := by omega
    unfold bit oneWord bitmapBits
    rw [if_neg hword, BitVec.getLsbD_not]
    simp [Nat.mod_lt]
  · intro hall
    have hrun : (Run.exec Books.step (boot oneWord 320)
        [.allocateFrames 65, .freeFrame 0x100000 1]).any fun b =>
          (b.phys.allocateFrames 1).2.length == 0 && b.phys.endPhysicalPage == 320 &&
            !bit (b.phys.allocateFrames 1).1.bitmap 256 := by
      decide
    obtain ⟨b, hb, hshort⟩ := (Option.any_eq_true _ _).mp hrun
    simp only [Bool.and_eq_true, beq_iff_eq, Bool.not_eq_true'] at hshort
    obtain ⟨⟨hlen, hend⟩, hclear⟩ := hshort
    have hstep : ∃ b', Books.step b (.allocateFrames 1) = some b' := ⟨_, rfl⟩
    obtain ⟨b', hb'⟩ := hstep
    have hcomplete : b.phys.Complete 1 := Run.EachStep.after hall hb hb' 1 rfl
    have hset := hcomplete (by omega) 256 (Nat.le_refl _) (by omega)
    rw [hclear] at hset
    cases hset

end Books

end Helos.Physical
