import Helos.Memory.PhysicalBits
import Helos.Theory.Ledger
import Helos.Theory.Run
import Mathlib.Order.Interval.Finset.Nat

/-!
# No frame is handed out twice

`Books` runs the allocator together with a record of what is handed out: each call of an allocator
adds its frames and blocks, and a free strikes its pages from every entry. Over any run the record
is a sound ledger whose used pages are the set bits of the bitmap.
-/

namespace Helos.Physical

/-- The pages of one frame or of one 2 MiB block, those already freed left out. -/
structure Handout where
  large : Bool
  pages : Finset Nat

def frameHandout (addr : Nat) : Handout := ⟨false, {addr / systemPageSize}⟩

def blockHandout (addr : Nat) : Handout :=
  ⟨true, Finset.Ico (addr / systemPageSize) (addr / systemPageSize + 512)⟩

structure Books where
  phys : Physical
  live : List Handout

inductive FrameOp where
  | allocateFrames (pageCount : Nat)
  | allocateOneFrame
  | allocateFrames2M (pageCount : Nat)
  | allocateOneFrame2M
  | freeFrame (frame pageCount : Nat)

namespace Books

def handedOut (b : Books) (page : Nat) : Prop := ∃ h ∈ b.live, page ∈ h.pages

instance (b : Books) (page : Nat) : Decidable (b.handedOut page) :=
  inferInstanceAs (Decidable (∃ h ∈ b.live, page ∈ h.pages))

/-- Frees are of non-empty ranges of handed-out frames; a single-frame wrapper that returns 0 has
handed out nothing. -/
def step (b : Books) : FrameOp → Option Books
  | .allocateFrames pageCount =>
    let (phys, frames) := b.phys.allocateFrames pageCount
    some { phys, live := frames.foldl (fun live addr => frameHandout addr :: live) b.live }
  | .allocateOneFrame =>
    let (phys, addr) := b.phys.allocateOneFrame
    some { phys, live := if addr = 0 then b.live else frameHandout addr :: b.live }
  | .allocateFrames2M pageCount =>
    let (phys, frames) := b.phys.allocateFrames2M pageCount
    some { phys, live := frames.foldl (fun live addr => blockHandout addr :: live) b.live }
  | .allocateOneFrame2M =>
    let (phys, addr) := b.phys.allocateOneFrame2M
    some { phys, live := if addr = 0 then b.live else blockHandout addr :: b.live }
  | .freeFrame frame pageCount =>
    let range := Finset.Ico (frame / systemPageSize) (frame / systemPageSize + pageCount)
    if 0 < pageCount ∧ frame % systemPageSize = 0 ∧ ∀ page ∈ range, b.handedOut page then
      some
        { phys := b.phys.freeFrame frame pageCount
          live := b.live.map fun h => { h with pages := h.pages \ range } }
    else none

def boot (bitmap : Nat → Word) (endPhysicalPage : Nat) : Books :=
  { phys := Physical.boot bitmap endPhysicalPage, live := [] }

/-! ### The invariant -/

def used (bitmap : Nat → Word) : Set Nat := {page | bit bitmap page = true}

structure Invariant (initial : Nat → Word) (endPage : Nat) (b : Books) : Prop where
  sound : Ledger.Sound (used initial) (used b.phys.bitmap) (b.live.map Handout.pages)
  endPage_eq : b.phys.endPhysicalPage = endPage
  cursor : 4 ≤ b.phys.phyI
  cursor2M : 8 ≤ b.phys.phyI2M
  bounds : ∀ h ∈ b.live, ∀ page ∈ h.pages, page < endPage ∧ 256 ≤ page ∧ (h.large → 512 ≤ page)

variable {initial : Nat → Word} {endPage : Nat} {b : Books}

/-- Pages that are free at boot lie below the end of memory. -/
def EndMarked (initial : Nat → Word) (endPage : Nat) : Prop :=
  ∀ page, endPage ≤ page → bit initial page = true

theorem Invariant.bit_of_end (hend : EndMarked initial endPage) (h : b.Invariant initial endPage)
    {page : Nat} (hclear : bit b.phys.bitmap page = false) : page < endPage := by
  by_contra hge
  have hinit : page ∈ used initial := hend page (by omega)
  have hused : page ∈ used b.phys.bitmap := (h.sound.used_iff page).mpr (.inl hinit)
  simp [used, hclear] at hused

theorem Invariant.grant (hend : EndMarked initial endPage) (h : b.Invariant initial endPage)
    {phys : Physical} {new : Handout} (hphys : phys.endPhysicalPage = b.phys.endPhysicalPage)
    (hcur : 4 ≤ phys.phyI) (hcur2M : 8 ≤ phys.phyI2M)
    (hbits : ∀ page, bit phys.bitmap page = (bit b.phys.bitmap page || decide (page ∈ new.pages)))
    (hclear : ∀ page ∈ new.pages, bit b.phys.bitmap page = false)
    (hlow : ∀ page ∈ new.pages, 256 ≤ page ∧ (new.large → 512 ≤ page)) :
    Invariant initial endPage { phys, live := new :: b.live } := by
  refine ⟨?_, hphys.trans h.endPage_eq, hcur, hcur2M, fun g hg page hpage => ?_⟩
  · have hsound := h.sound.grant (s := new.pages) fun page hpage => by
      simp [used, hclear page hpage]
    have hused : used phys.bitmap = used b.phys.bitmap ∪ new.pages := by
      ext page
      simp [used, hbits]
    rw [hused]
    exact hsound
  · rcases List.mem_cons.mp hg with rfl | hg
    · exact ⟨h.bit_of_end hend (hclear page hpage), hlow page hpage⟩
    · exact h.bounds g hg page hpage

theorem Invariant.setPhys (h : b.Invariant initial endPage) {phys : Physical}
    (hmap : phys.bitmap = b.phys.bitmap) (hphys : phys.endPhysicalPage = b.phys.endPhysicalPage)
    (hcur : 4 ≤ phys.phyI) (hcur2M : 8 ≤ phys.phyI2M) :
    Invariant initial endPage { b with phys := phys } := by
  refine ⟨?_, hphys.trans h.endPage_eq, hcur, hcur2M, h.bounds⟩
  rw [hmap]
  exact h.sound

/-! ### One step of each allocator -/

theorem Invariant.allocateFrame (hend : EndMarked initial endPage)
    (h : b.Invariant initial endPage) {phys : Physical} {found : Option Nat}
    (hrun : b.phys.allocateFrame = (phys, found)) :
    match found with
    | none => Invariant initial endPage { b with phys := phys }
    | some addr => addr ≠ 0 ∧
        Invariant initial endPage { phys, live := frameHandout addr :: b.live } := by
  unfold Physical.allocateFrame at hrun
  have hcur := h.cursor
  split at hrun
  · next i hscan =>
    obtain ⟨rfl, rfl⟩ := Prod.mk.inj hrun
    obtain ⟨hle, -⟩ := scan_spec hscan
    exact h.setPhys rfl rfl (by simp only; omega) h.cursor2M
  · next i j hscan =>
    obtain ⟨rfl, rfl⟩ := Prod.mk.inj hrun
    obtain ⟨hle, hfound⟩ := scan_spec hscan
    obtain ⟨hlt, hj, hclear⟩ := hfound j rfl
    have hpage : ((i * bitmapBits + j) * systemPageSize) / systemPageSize = i * 64 + j := by
      unfold bitmapBits systemPageSize
      omega
    refine ⟨by unfold bitmapBits systemPageSize; omega, ?_⟩
    refine h.grant hend rfl (by simp only; omega) h.cursor2M (fun page => ?_) (fun page hmem => ?_)
      fun page hmem => ?_
    · rw [bit_setBit _ hj]
      simp only [frameHandout, hpage, Finset.mem_singleton]
    · simp only [frameHandout, hpage, Finset.mem_singleton] at hmem
      rw [hmem, hclear]
    · simp only [frameHandout, hpage, Finset.mem_singleton] at hmem
      simp only [frameHandout, Bool.false_eq_true, false_implies, and_true]
      omega

theorem Invariant.allocateFrame2M (hend : EndMarked initial endPage)
    (h : b.Invariant initial endPage) {phys : Physical} {found : Option Nat}
    (hrun : b.phys.allocateFrame2M = (phys, found)) :
    match found with
    | none => Invariant initial endPage { b with phys := phys }
    | some addr => addr ≠ 0 ∧
        Invariant initial endPage { phys, live := blockHandout addr :: b.live } := by
  unfold Physical.allocateFrame2M at hrun
  have hcur := h.cursor2M
  simp only at hrun
  split at hrun
  · next i hscan =>
    obtain ⟨rfl, rfl⟩ := Prod.mk.inj hrun
    obtain ⟨hle, -⟩ := scan2M_spec hscan
    exact h.setPhys rfl rfl h.cursor (by simp only; omega)
  · next i hscan =>
    obtain ⟨hle, hfound⟩ := scan2M_spec hscan
    obtain ⟨hlt, hclear⟩ := hfound rfl
    have haddr : i * bitmapBits * systemPageSize ≠ 0 := by
      unfold bitmapBits systemPageSize
      omega
    rw [if_neg haddr] at hrun
    obtain ⟨rfl, rfl⟩ := Prod.mk.inj hrun
    have hpage : (i * bitmapBits * systemPageSize) / systemPageSize = i * 64 := by
      unfold bitmapBits systemPageSize
      omega
    refine ⟨haddr, ?_⟩
    refine h.grant hend rfl h.cursor (by simp only; omega) (fun page => ?_) (fun page hmem => ?_)
      fun page hmem => ?_
    · rw [bit_fillWords_ones]
      simp only [blockHandout, hpage, Finset.mem_Ico]
    · simp only [blockHandout, hpage, Finset.mem_Ico] at hmem
      exact hclear page hmem.1 hmem.2
    · simp only [blockHandout, hpage, Finset.mem_Ico] at hmem
      omega

/-! ### Whole calls -/

theorem Invariant.allocateFrames (hend : EndMarked initial endPage) (pageCount : Nat)
    (h : b.Invariant initial endPage) {phys : Physical} {frames : List Nat}
    (hrun : b.phys.allocateFrames pageCount = (phys, frames)) :
    (∀ addr ∈ frames, addr ≠ 0) ∧
      Invariant initial endPage
        { phys, live := frames.foldl (fun live addr => frameHandout addr :: live) b.live } := by
  induction pageCount generalizing b frames with
  | zero =>
    obtain ⟨rfl, rfl⟩ := Prod.mk.inj hrun
    exact ⟨by simp, h⟩
  | succ pageCount ih =>
    rw [Physical.allocateFrames] at hrun
    split at hrun
    · next p hone =>
      obtain ⟨rfl, rfl⟩ := Prod.mk.inj hrun
      exact ⟨by simp, h.allocateFrame hend hone⟩
    · next p addr hone =>
      obtain ⟨hne, hinv⟩ := h.allocateFrame hend hone
      cases hrest : p.allocateFrames pageCount with
      | mk q rest =>
        simp only [hrest] at hrun
        obtain ⟨rfl, rfl⟩ := Prod.mk.inj hrun
        obtain ⟨hne', hinv'⟩ := ih hinv hrest
        refine ⟨fun a ha => ?_, hinv'⟩
        rcases List.mem_cons.mp ha with rfl | ha
        · exact hne
        · exact hne' a ha

theorem Invariant.allocateFrames2M (hend : EndMarked initial endPage) (pageCount : Nat)
    (h : b.Invariant initial endPage) {phys : Physical} {frames : List Nat}
    (hrun : b.phys.allocateFrames2M pageCount = (phys, frames)) :
    (∀ addr ∈ frames, addr ≠ 0) ∧
      Invariant initial endPage
        { phys, live := frames.foldl (fun live addr => blockHandout addr :: live) b.live } := by
  induction pageCount generalizing b frames with
  | zero =>
    obtain ⟨rfl, rfl⟩ := Prod.mk.inj hrun
    exact ⟨by simp, h⟩
  | succ pageCount ih =>
    rw [Physical.allocateFrames2M] at hrun
    split at hrun
    · next p hone =>
      obtain ⟨rfl, rfl⟩ := Prod.mk.inj hrun
      exact ⟨by simp, h.allocateFrame2M hend hone⟩
    · next p addr hone =>
      obtain ⟨hne, hinv⟩ := h.allocateFrame2M hend hone
      cases hrest : p.allocateFrames2M pageCount with
      | mk q rest =>
        simp only [hrest] at hrun
        obtain ⟨rfl, rfl⟩ := Prod.mk.inj hrun
        obtain ⟨hne', hinv'⟩ := ih hinv hrest
        refine ⟨fun a ha => ?_, hinv'⟩
        rcases List.mem_cons.mp ha with rfl | ha
        · exact hne
        · exact hne' a ha

theorem allocateFrames_length (p : Physical) (pageCount : Nat) :
    (p.allocateFrames pageCount).2.length ≤ pageCount := by
  induction pageCount generalizing p with
  | zero => exact Nat.le_refl _
  | succ pageCount ih =>
    rw [Physical.allocateFrames]
    split
    · exact Nat.zero_le _
    · next q addr _ => exact Nat.succ_le_succ (ih q)

theorem allocateFrames2M_length (p : Physical) (pageCount : Nat) :
    (p.allocateFrames2M pageCount).2.length ≤ pageCount := by
  induction pageCount generalizing p with
  | zero => exact Nat.le_refl _
  | succ pageCount ih =>
    rw [Physical.allocateFrames2M]
    split
    · exact Nat.zero_le _
    · next q addr _ => exact Nat.succ_le_succ (ih q)

/-- A wrapper's zero means that nothing was handed out, and any other result is the frame. -/
theorem foldl_of_length_le_one {frames : List Nat} (hlen : frames.length ≤ 1)
    (hne : ∀ addr ∈ frames, addr ≠ 0) (handout : Nat → Handout) (live : List Handout) :
    frames.foldl (fun live addr => handout addr :: live) live =
      if frames.headD 0 = 0 then live else handout (frames.headD 0) :: live := by
  match frames with
  | [] => rfl
  | [addr] =>
    rw [List.headD_cons, if_neg (hne addr (List.mem_singleton.mpr rfl))]
    rfl
  | _ :: _ :: _ => simp at hlen

/-- Frees undo what was granted, over word boundaries too. -/
theorem Invariant.freeFrame (h : b.Invariant initial endPage) {frame pageCount : Nat}
    (hcount : 0 < pageCount) (haligned : frame % systemPageSize = 0)
    (hrange : ∀ page ∈ Finset.Ico (frame / systemPageSize) (frame / systemPageSize + pageCount),
      b.handedOut page) :
    Invariant initial endPage
      { phys := b.phys.freeFrame frame pageCount
        live := b.live.map fun g =>
          { g with pages := g.pages \
              Finset.Ico (frame / systemPageSize) (frame / systemPageSize + pageCount) } } := by
  set first := frame / systemPageSize
  have hfree : b.phys.freeFrame frame pageCount =
      { b.phys with bitmap := bitmapWriteZero b.phys.bitmap first (first + pageCount) } := by
    unfold Physical.freeFrame
    rw [if_neg (by simp [haligned])]
  have hsound := h.sound.release (s := Finset.Ico first (first + pageCount)) fun page hpage => by
    obtain ⟨g, hg, hmem⟩ := hrange page hpage
    exact ⟨g.pages, List.mem_map_of_mem hg, hmem⟩
  have hused : used (bitmapWriteZero b.phys.bitmap first (first + pageCount)) =
      used b.phys.bitmap \ Finset.Ico first (first + pageCount) := by
    ext page
    simp only [used, Set.mem_ofPred_eq, bit_bitmapWriteZero _ (Nat.lt_add_of_pos_right hcount),
      Bool.and_eq_true, Bool.not_eq_true', decide_eq_false_iff_not, Set.mem_sdiff, Finset.coe_Ico,
      Set.mem_Ico]
  rw [hfree]
  refine ⟨?_, h.endPage_eq, h.cursor, h.cursor2M, fun g hg page hpage => ?_⟩
  · simp only [hused, List.map_map] at hsound ⊢
    exact hsound
  · obtain ⟨g', hg', rfl⟩ := List.mem_map.mp hg
    exact h.bounds g' hg' page (Finset.mem_sdiff.mp hpage).1

theorem Invariant.step (hend : EndMarked initial endPage) (op : FrameOp) {b' : Books}
    (h : b.Invariant initial endPage) (hstep : b.step op = some b') :
    b'.Invariant initial endPage := by
  cases op with
  | allocateFrames pageCount =>
    obtain rfl := Option.some.inj hstep
    exact (h.allocateFrames hend pageCount rfl).2
  | allocateOneFrame =>
    have hlen := allocateFrames_length b.phys 1
    cases hone : b.phys.allocateFrames 1 with
    | mk phys frames =>
      rw [hone] at hlen
      obtain ⟨hne, hinv⟩ := h.allocateFrames hend 1 hone
      rw [foldl_of_length_le_one hlen hne] at hinv
      simp only [Books.step, Physical.allocateOneFrame, hone] at hstep
      obtain rfl := Option.some.inj hstep
      exact hinv
  | allocateFrames2M pageCount =>
    obtain rfl := Option.some.inj hstep
    exact (h.allocateFrames2M hend pageCount rfl).2
  | allocateOneFrame2M =>
    have hlen := allocateFrames2M_length b.phys 1
    cases hone : b.phys.allocateFrames2M 1 with
    | mk phys frames =>
      rw [hone] at hlen
      obtain ⟨hne, hinv⟩ := h.allocateFrames2M hend 1 hone
      rw [foldl_of_length_le_one hlen hne] at hinv
      simp only [Books.step, Physical.allocateOneFrame2M, hone] at hstep
      obtain rfl := Option.some.inj hstep
      exact hinv
  | freeFrame frame pageCount =>
    simp only [Books.step] at hstep
    split at hstep
    · next hcall =>
      obtain rfl := Option.some.inj hstep
      exact h.freeFrame hcall.1 hcall.2.1 hcall.2.2
    · cases hstep

theorem invariant_boot (initial : Nat → Word) (endPage : Nat) :
    (boot initial endPage).Invariant initial endPage :=
  ⟨Ledger.sound_nil, rfl, Nat.le_refl 4, Nat.le_refl 8, by simp [boot]⟩

/-- **No frame is handed out twice.** In every state of every run, what is handed out is disjoint,
was free at boot, lies inside the memory the allocators may use, and is what the bitmap says. -/
theorem handouts_disjoint (initial : Nat → Word) (endPage : Nat) (hend : EndMarked initial endPage)
    (ops : List FrameOp) (b : Books)
    (hrun : Run.exec Books.step (boot initial endPage) ops = some b) :
    b.live.Pairwise (fun g g' => Disjoint g.pages g'.pages) ∧
      (∀ g ∈ b.live, ∀ page ∈ g.pages,
        bit initial page = false ∧ page < endPage ∧ 256 ≤ page ∧ (g.large → 512 ≤ page)) ∧
      ∀ page, bit b.phys.bitmap page = true ↔ bit initial page = true ∨ b.handedOut page := by
  have h : b.Invariant initial endPage :=
    Run.exec_invariant (fun b op b' hinv => hinv.step hend op) (invariant_boot initial endPage) hrun
  refine ⟨List.pairwise_map.mp h.sound.disjoint, fun g hg page hpage => ⟨?_, h.bounds g hg page hpage⟩,
    fun page => ?_⟩
  · have hfresh := h.sound.fresh g.pages (List.mem_map_of_mem hg) page hpage
    simpa [used] using hfresh
  · have hused := h.sound.used_iff page
    simpa [used, handedOut] using hused

def fourMiB : Nat → Word := fun i => if i < 16 then 0#64 else ~~~0#64

theorem handouts_disjoint_fourMiB :
    ∃ b, Run.exec Books.step (boot fourMiB 1024)
        [.allocateFrames 2, .allocateOneFrame2M, .freeFrame 0x100000 1] = some b ∧
      b.live.Pairwise (fun g g' => Disjoint g.pages g'.pages) ∧
      (∀ g ∈ b.live, ∀ page ∈ g.pages,
        bit fourMiB page = false ∧ page < 1024 ∧ 256 ≤ page ∧ (g.large → 512 ≤ page)) ∧
      ∀ page, bit b.phys.bitmap page = true ↔ bit fourMiB page = true ∨ b.handedOut page := by
  have hend : EndMarked fourMiB 1024 := by
    intro page hpage
    have hword : ¬ page / 64 < 16 := by omega
    unfold bit fourMiB bitmapBits
    rw [if_neg hword, BitVec.getLsbD_not]
    simp [Nat.mod_lt]
  have hsome : (Run.exec Books.step (boot fourMiB 1024)
      [.allocateFrames 2, .allocateOneFrame2M, .freeFrame 0x100000 1]).isSome := by
    decide +kernel
  obtain ⟨b, hb⟩ := Option.isSome_iff_exists.mp hsome
  exact ⟨b, hb, handouts_disjoint fourMiB 1024 hend _ b hb⟩

end Books

end Helos.Physical
