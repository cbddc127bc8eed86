import Helos.Memory.FreeAllocated
import Helos.Memory.MapAllocated
import Helos.Memory.Tlb

/-!
# Allocating pages and freeing them

`paging_map_FreeAllocated` takes back what `paging_map_PageAllocated` has done on a range that was not
mapped: every translation, and of the bitmap all but the new tables, which stay in the tree. After
`paging_map_PageAllocated2M` of two pages or more the second page is not mapped.
-/

namespace Helos.Paging

open PageEntry Translation

/-- Nothing is mapped in the range, and for large pages the entries of the PML2 tables are not
present. -/
def Unmapped (g : PagingSetup Physical) (a : Allocation) (virt pageCount : Nat)
    (s : Paging Physical) : Prop :=
  ∀ v, virt ≤ v → v < virt + a.pageSize * pageCount → translate g s v = none ∧
    (a = .page2M → ∀ t, Radix.find link s.memory 0 g.pml4Table ((indices v).take 2) = some t →
      ¬ Present (s.memory t (takeBitfield v 29 21)))

/-- What the two calls are meant to do, where `s₁` is the state between them: the pages are mapped to
frames of their own, and these are what is given back. -/
structure Undone (g : PagingSetup Physical) (a : Allocation) (virt pageCount : Nat)
    (s s₁ s₂ : Paging Physical) : Prop where
  restored : translate g s₂ = translate g s
  exchanged : ∃ frames : List Nat, frames.length = pageCount ∧ frames.Nodup ∧
    (∀ k frame, frames[k]? = some frame → ∀ x < a.pageSize,
      (translate g s₁ (virt + a.pageSize * k + x)).map physical = some (frame + x)) ∧
    (∀ page, InFrames a.framesPerPage frames page → s₁.Used page ∧ ¬ s₂.Used page) ∧
    ∀ page, ¬ InFrames a.framesPerPage frames page → (s₁.Used page ↔ s₂.Used page)
  tables : ∀ page, s₂.Used page ↔ s.Used page ∨ ∃ t, NewTable g s s₂ t ∧ t / 4096 = page

variable {g : PagingSetup Physical} {s s₁ s₂ s' : Paging Physical} {flags : BitVec 32}
  {virt pageCount : Nat} {p : List Nat} {t i frame : Nat} {frames : List Nat} {a : Allocation}

/-! ### Freeing one page -/

theorem found_depth (hpath : p ++ [i] <+: indices virt)
    (hpage : sizeAt (p.length + 1) = a.pageSize) :
    framesAt (p.length + 1) = a.framesPerPage ∧
      ∀ w, p ++ [i] <+: indices w ↔ w % 2 ^ 48 / a.pageSize = virt % 2 ^ 48 / a.pageSize := by
  have hlength : p.length + 1 ≤ 4 := by
    have hle := hpath.length_le
    rwa [List.length_append, List.length_singleton] at hle
  have htake := List.prefix_iff_eq_take.mp hpath
  rw [List.length_append, List.length_singleton] at htake
  have hstart (w : Nat) : p ++ [i] <+: indices w ↔
      (indices w).take (p.length + 1) = (indices virt).take (p.length + 1) := by
    rw [List.prefix_iff_eq_take, List.length_append, List.length_singleton, htake, eq_comm]
  simp only [hstart]
  cases a with
  | page =>
    have hdepth : ∀ d < 4, sizeAt (d + 1) = 4096 → d = 3 := by decide
    rw [hdepth _ hlength hpage]
    exact ⟨rfl, fun w => indices_eq_iff⟩
  | page2M =>
    have hdepth : ∀ d < 4, sizeAt (d + 1) = 2097152 → d = 2 := by decide
    rw [hdepth _ hlength hpage]
    exact ⟨rfl, fun w => indices_take_eq_iff⟩

/-- The frames go back to the bitmap, and the page is not mapped any more. -/
theorem Tree.freeFound (h : Tree g s) (hfound : Found g s virt p t i)
    (hframe : s.memory t i &&& maskAt (p.length + 1) = frame) (halign : frame % 4096 = 0)
    (hapart : Apart g (framesAt (p.length + 1)) s [frame]) :
    let s' := (freeFound g s p.length t i).2
    Tree g s' ∧
      (∀ q, Radix.find link s'.memory 0 g.pml4Table q = Radix.find link s.memory 0 g.pml4Table q) ∧
      (∀ page, s'.Used page ↔
        s.Used page ∧ ¬ InFrames (framesAt (p.length + 1)) [frame] page) ∧
      ∀ w, translate g s' w = if p ++ [i] <+: indices w then none else translate g s w := by
  intro s'
  have hzero : link p.length 0 = none := link_zero _
  have hmemory : s'.memory = Radix.write s.memory t i 0 := rfl
  have hcount : 0 < framesAt (p.length + 1) := by
    unfold framesAt
    split <;> decide
  have hframes : s'.frames = s.frames.freeFrame frame (framesAt (p.length + 1)) := by
    rw [← hframe]
    change g.allocator.free s.frames _ _ = _
    rw [h.allocator]
    rfl
  have hused (page : Nat) : s'.Used page ↔
      s.Used page ∧ ¬ InFrames (framesAt (p.length + 1)) [frame] page := by
    unfold Used
    rw [hframes, Physical.bit_freeFrame halign hcount, inFrames_singleton]
  refine ⟨h.write hfound.table hzero hmemory ?_ fun q x _ hx => ?_,
    h.find_write hfound.table hzero hmemory hfound.leaf, hused, fun w => ?_⟩
  · rw [hframes, Physical.endPhysicalPage_freeFrame]
  · exact (hused _).mpr ⟨(h.tables x ⟨q, hx⟩).2, hapart x ⟨q, hx⟩⟩
  · rw [translate_write (h.cuttable hfound.table hzero) hmemory,
      ofTrail_of_absent not_present_zero]

/-! ### The loop -/

/-- The blocks were freed and the pages unmapped, and the tables were left alone. -/
structure Freed (g : PagingSetup Physical) (a : Allocation) (virt : Nat) (s s' : Paging Physical)
    (frames : List Nat) : Prop where
  find : ∀ q, Radix.find link s'.memory 0 g.pml4Table q = Radix.find link s.memory 0 g.pml4Table q
  used : ∀ page, s'.Used page ↔ s.Used page ∧ ¬ InFrames a.framesPerPage frames page
  inside : ∀ w, InPages a.pageSize virt frames.length w → translate g s' w = none
  outside : ∀ w, ¬ InPages a.pageSize virt frames.length w → translate g s' w = translate g s w

theorem Freed.cons (h : Freed g a virt s s₁ [frame])
    (h' : Freed g a (virt + a.pageSize) s₁ s' frames) :
    Freed g a virt s s' (frame :: frames) := by
  refine ⟨fun q => (h'.find q).trans (h.find q), fun page => ?_, fun w hw => ?_, fun w hw => ?_⟩
  · rw [h'.used, h.used, inFrames_singleton, inFrames_cons, not_or, and_assoc]
  · by_cases hlater : InPages a.pageSize (virt + a.pageSize) frames.length w
    · exact h'.inside w hlater
    · rw [h'.outside w hlater]
      exact h.inside w (inPages_one.mpr ((inPages_succ.mp hw).resolve_right hlater))
  · rw [List.length_cons, inPages_succ, not_or] at hw
    rw [h'.outside w hw.2]
    exact h.outside w (inPages_one.not.mpr hw.1)

theorem Tree.freeOnePage (h : Tree g s) (halign : virt % a.pageSize = 0)
    (hframe : frame % 4096 = 0) (hapart : Apart g a.framesPerPage s [frame])
    (hmapped : ∃ t, translate g s virt = some t ∧ t.pageSize = a.pageSize ∧ t.physical = frame) :
    ∃ s', Paging.freeOnePage g virt s = (a.pageSize, s') ∧ Tree g s' ∧
      Freed g a virt s s' [frame] := by
  obtain ⟨translation, htranslation, hpage, hphysical⟩ := hmapped
  rcases freeOnePage_cases g virt s with ⟨-, hnone⟩ | ⟨p, t, i, hfound, hrun⟩
  · rw [hnone] at htranslation
    cases htranslation
  · obtain ⟨translation', htranslation', hpage', hphysical'⟩ := hfound.translate
    obtain rfl := Option.some.inj (htranslation.symm.trans htranslation')
    have hdepth : sizeAt (p.length + 1) = a.pageSize := hpage'.symm.trans hpage
    obtain ⟨hcount, hindices⟩ := found_depth hfound.path hdepth
    rw [hdepth, halign, hphysical] at hphysical'
    obtain ⟨htree, hfind, hused, htranslate⟩ :=
      h.freeFound hfound hphysical'.symm hframe (hcount ▸ hapart)
    refine ⟨_, by rw [hrun, ← hdepth]; rfl, htree, hfind, hcount ▸ hused, fun w hw => ?_,
      fun w hw => ?_⟩
    · rw [htranslate]
      exact if_pos ((hindices w).mpr (inPages_one.mp hw))
    · rw [htranslate]
      exact if_neg fun hin => hw (inPages_one.mpr ((hindices w).mp hin))

theorem Tree.freePages (h : Tree g s) (halign : virt % a.pageSize = 0)
    (hend : virt + a.pageSize * frames.length < 2 ^ 64)
    (hspan : a.pageSize * frames.length ≤ 2 ^ 48) (hframes : ∀ frame ∈ frames, frame % 4096 = 0)
    (hapart : Apart g a.framesPerPage s frames)
    (hmapped : ∀ k frame, frames[k]? = some frame → ∃ t,
      translate g s (virt + a.pageSize * k) = some t ∧ t.pageSize = a.pageSize ∧
        t.physical = frame) :
    ∃ s', Paging.freePages g (virt + a.pageSize * frames.length) frames.length virt s = some s' ∧
      Freed g a virt s s' frames := by
  induction frames generalizing virt s with
  | nil =>
    refine ⟨s, if_neg (Nat.lt_irrefl _), fun q => rfl, fun page => ?_, fun w hw => ?_,
      fun w _ => rfl⟩
    · rw [and_iff_left not_inFrames_nil]
    · exact absurd hw not_inPages_zero
  | cons frame frames ih =>
    have hpos : 0 < a.pageSize := by cases a <;> decide
    rw [List.length_cons] at hend hspan ⊢
    have hshift (k : Nat) : virt + a.pageSize * (k + 1) = virt + a.pageSize + a.pageSize * k := by
      rw [Nat.mul_succ]
      omega
    rw [hshift] at hend ⊢
    have hlt : virt + a.pageSize < 2 ^ 64 := Nat.lt_of_le_of_lt (Nat.le_add_right _ _) hend
    obtain ⟨s₁, hfirst, htree, hfreed⟩ := h.freeOnePage halign
      (hframes frame List.mem_cons_self)
      (fun x hx hin => hapart x hx (inFrames_cons.mpr (.inl (inFrames_singleton.mp hin))))
      (hmapped 0 frame rfl)
    have hapart' : Apart g a.framesPerPage s₁ frames := by
      rintro x ⟨q, hq⟩ hin
      exact hapart x ⟨q, (hfreed.find q).symm.trans hq⟩ (inFrames_cons.mpr (.inr hin))
    have hmapped' (k x : Nat) (hx : frames[k]? = some x) : ∃ t,
        translate g s₁ (virt + a.pageSize + a.pageSize * k) = some t ∧
          t.pageSize = a.pageSize ∧ t.physical = x := by
      have hlater : InPages a.pageSize (virt + a.pageSize) frames.length
          (virt + a.pageSize + a.pageSize * k) :=
        ⟨k, (List.getElem?_eq_some_iff.mp hx).1, rfl⟩
      rw [hfreed.outside _ fun hin => not_inPages_rest hspan (inPages_one.mp hin) hlater, ← hshift]
      exact hmapped (k + 1) x hx
    obtain ⟨s', hrest, hfreed'⟩ := ih htree (by rw [Nat.add_mod_right, halign]) hend
      (Nat.le_trans (Nat.mul_le_mul_left _ (Nat.le_succ _)) hspan)
      (fun x hx => hframes x (List.mem_cons_of_mem _ hx)) hapart' hmapped'
    refine ⟨s', ?_, hfreed.cons hfreed'⟩
    rw [Paging.freePages, if_pos (by omega), hfirst]
    simp only [wrap64_of_lt hlt]
    exact hrest

/-! ### Both calls -/

theorem Allocation.run_aligned (h : a.run g flags s virt pageCount = some s') :
    virt % a.pageSize = 0 := by
  cases a with
  | page => exact (Option.ite_none_right_eq_some.mp h).1
  | page2M => exact (Option.ite_none_right_eq_some.mp h).1

theorem Undone.mapped (h : Undone g a virt pageCount s s₁ s₂) {k : Nat} (hk : k < pageCount) :
    translate g s₁ (virt + a.pageSize * k) ≠ none := by
  obtain ⟨frames, hlength, -, hmapped, -⟩ := h.exchanged
  have hpos : 0 < a.pageSize := by cases a <;> decide
  intro hnone
  have hpage := hmapped k _ (List.getElem?_eq_getElem (hlength ▸ hk)) 0 hpos
  rw [Nat.add_zero, hnone] at hpage
  cases hpage

theorem Unmapped.translate (h : Unmapped g a virt pageCount s) {k : Nat} (hk : k < pageCount) :
    Paging.translate g s (virt + a.pageSize * k) = none := by
  have hpos : 0 < a.pageSize := by cases a <;> decide
  exact (h _ (Nat.le_add_right _ _)
    (Nat.add_lt_add_left (Nat.mul_lt_mul_of_pos_left hk hpos) _)).1

theorem Unmapped.notInside (h : Unmapped g a virt pageCount s) {k : Nat} (hk : k < pageCount) :
    NotInside a.pageSize (Paging.translate g s) (virt + a.pageSize * k) :=
  notInside_of_none (h.translate hk)

/-- An address of the pages, by its low 48 bits, is not mapped either. -/
theorem Unmapped.inPages (h : Unmapped g a virt pageCount s) (halign : virt % a.pageSize = 0)
    {w : Nat} (hw : InPages a.pageSize virt pageCount w) : Paging.translate g s w = none := by
  obtain ⟨k, hk, hpage⟩ := hw
  have hlt : a.pageSize * (k + 1) ≤ a.pageSize * pageCount := Nat.mul_le_mul_left _ hk
  refine (translate_none_iff ?_).mp
    (h (virt + a.pageSize * k + w % a.pageSize) (by omega) ?_).1
  · cases a <;> simp only [Allocation.pageSize] at * <;> omega
  · have hmod : w % a.pageSize < a.pageSize := Nat.mod_lt _ (by cases a <;> decide)
    rw [Nat.mul_succ] at hlt
    omega

/-- An address of a page is mapped to its frame. -/
theorem mapped_frame (htranslate : translate g s₁ = FlatMap.mapFrames a.pageSize
      g.supportExecuteDisable flags frames virt (translate g s))
    (halign : virt % a.pageSize = 0) (hspan : a.pageSize * frames.length ≤ 2 ^ 48) {k x : Nat}
    (hframe : frames[k]? = some frame) (hx : x < a.pageSize) :
    translate g s₁ (virt + a.pageSize * k + x) =
      some (asked a.pageSize frame g.supportExecuteDisable flags x) := by
  have hpage : (virt + a.pageSize * k + x) % 2 ^ 48 / a.pageSize =
      (virt + a.pageSize * k) % 2 ^ 48 / a.pageSize := by
    cases a <;> simp only [Allocation.pageSize] at * <;> omega
  have hmod : (virt + a.pageSize * k + x) % a.pageSize = x % a.pageSize := by
    rw [Nat.add_mod, Nat.add_mul_mod_self_left, halign, Nat.zero_add, Nat.mod_mod]
  rw [htranslate, FlatMap.mapFrames_inside hspan hframe hpage]
  unfold asked
  rw [hmod]

/-- Frames that were mapped to the pages are given back. -/
theorem Stocked.undone (h : Stocked g a.framesPerPage s s₁ frames)
    (htranslate : translate g s₁ = FlatMap.mapFrames a.pageSize g.supportExecuteDisable flags frames
      virt (translate g s))
    (halign : virt % a.pageSize = 0) (hend : virt + a.pageSize * frames.length < 2 ^ 64)
    (hspan : a.pageSize * frames.length ≤ 2 ^ 48)
    (hunmapped : Unmapped g a virt frames.length s) :
    ∃ fuel s₂, freeAllocated g fuel s₁ virt (virt + a.pageSize * frames.length) = some s₂ ∧
      Undone g a virt frames.length s s₁ s₂ := by
  have hmapped (k frame : Nat) (hframe : frames[k]? = some frame) : ∃ t,
      translate g s₁ (virt + a.pageSize * k) = some t ∧ t.pageSize = a.pageSize ∧
        t.physical = frame := by
    have hpos : 0 < a.pageSize := by cases a <;> decide
    have hbase := mapped_frame htranslate halign hspan hframe hpos
    refine ⟨_, hbase, rfl, ?_⟩
    rw [asked, Nat.zero_mod, Nat.add_zero]
  obtain ⟨s₂, hrun, hfreed⟩ := h.tree.freePages halign hend hspan
    (fun frame hframe => (h.frame frame hframe).1) h.apart hmapped
  have hpageAlign : virt % 4096 = 0 := by
    cases a <;> simp only [Allocation.pageSize] at halign <;> omega
  refine ⟨frames.length, s₂, (if_pos hpageAlign).trans hrun, ⟨?_, ?_, fun page => ?_⟩⟩
  · funext w
    by_cases hw : InPages a.pageSize virt frames.length w
    · rw [hfreed.inside w hw, hunmapped.inPages halign hw]
    · rw [hfreed.outside w hw, htranslate, FlatMap.mapFrames_outside hw]
  · refine ⟨frames, rfl, h.nodup, fun k frame hframe x hx => ?_, fun page hin => ⟨?_, ?_⟩,
      fun page hout => ?_⟩
    · rw [mapped_frame htranslate halign hspan hframe hx, Option.map_some, asked,
        Nat.mod_eq_of_lt hx]
    · exact (h.used page).mpr (.inr (.inr hin))
    · exact fun hused => ((hfreed.used page).mp hused).2 hin
    · rw [hfreed.used, and_iff_left hout]
  · have hnew (t : Nat) : NewTable g s s₂ t ↔ NewTable g s s₁ t := by
      simp only [NewTable, Radix.IsTable, hfreed.find]
    simp only [hnew]
    rw [hfreed.used, h.used]
    constructor
    · rintro ⟨hused | htable | hin, hout⟩
      · exact .inl hused
      · exact .inr htable
      · exact absurd hin hout
    · rintro (hused | ⟨t, ht, rfl⟩)
      · exact ⟨.inl hused, fun hin => h.clear page hin hused⟩
      · exact ⟨.inr (.inl ⟨t, ht, rfl⟩), h.apart t ht.1⟩

/-- What the pages are mapped to in the cases where all of them are. -/
theorem Tree.allocated (h : Tree g s) (hend : virt + a.pageSize * pageCount < 2 ^ 64)
    (hunmapped : Unmapped g a virt pageCount s)
    (hrun : a.run g flags s virt pageCount = some s₁) (hserved : Served s s₁)
    (hcase : a = .page ∨ pageCount ≤ 1) :
    ∃ frames, frames.length = pageCount ∧ Stocked g a.framesPerPage s s₁ frames ∧
      translate g s₁ = FlatMap.mapFrames a.pageSize g.supportExecuteDisable flags frames virt
        (translate g s) := by
  cases a with
  | page =>
    obtain ⟨-, hpages⟩ := Option.ite_none_right_eq_some.mp hrun
    exact h.allocatePages hend (fun k hk => hunmapped.notInside hk) hpages hserved
  | page2M =>
    obtain ⟨-, hpages⟩ := Option.ite_none_right_eq_some.mp hrun
    have hle : pageCount ≤ 1 := hcase.resolve_left (by decide)
    interval_cases pageCount
    · rw [allocatePages2M_zero] at hpages
      obtain rfl := Option.some.inj hpages
      exact ⟨[], rfl, (Enlarged.refl s).stocked h, rfl⟩
    · obtain ⟨hnone, hlarge⟩ := hunmapped virt (Nat.le_refl _) (by simp [Allocation.pageSize])
      refine h.allocatePage2M hnone ?_ hpages hserved
      have htake : (indices virt).take 3 = (indices virt).take 2 ++ [takeBitfield virt 29 21] := rfl
      rw [htake]
      cases htable : Radix.find link s.memory 0 g.pml4Table ((indices virt).take 2) with
      | none => rw [Radix.find_append, htable, Option.bind_none]
      | some t =>
        rw [Radix.find_snoc htable, Option.eq_none_iff_forall_not_mem]
        intro c hc
        exact hlarge rfl t htable (link_eq_some hc).1

/-- **Undo.** Allocating pages and freeing them again is an undo exactly for 4 KiB pages, and for one
2 MiB page at most. -/
theorem undone_iff (h : Tree g s) (hcount : pageCount < 2 ^ 31)
    (hend : virt + a.pageSize * pageCount < 2 ^ 64) (hunmapped : Unmapped g a virt pageCount s)
    (hrun : a.run g flags s virt pageCount = some s₁) (hserved : Served s s₁) :
    (∃ fuel s₂, freeAllocated g fuel s₁ virt (virt + a.pageSize * pageCount) = some s₂ ∧
      Undone g a virt pageCount s s₁ s₂) ↔ a = .page ∨ pageCount ≤ 1 := by
  constructor
  · rintro ⟨fuel, s₂, -, hundone⟩
    cases a with
    | page => exact .inl rfl
    | page2M =>
      by_contra hcase
      rw [not_or, not_le] at hcase
      have hrange := Option.ite_none_right_eq_some.mp hrun
      refine hundone.mapped hcase.2 ?_
      rw [← hunmapped.translate hcase.2]
      refine h.allocatePages2M_elsewhere hend (fun k hk => hunmapped.notInside hk) hrange.2 hserved ?_
      simp only [Allocation.pageSize]
      omega
  · intro hcase
    obtain ⟨frames, rfl, hstock, htranslate⟩ := h.allocated hend hunmapped hrun hserved hcase
    refine hstock.undone htranslate (Allocation.run_aligned hrun) hend ?_ hunmapped
    rcases hcase with rfl | hle
    · simp only [Allocation.pageSize]
      omega
    · calc a.pageSize * frames.length ≤ a.pageSize * 1 := Nat.mul_le_mul_left _ hle
        _ ≤ 2 ^ 48 := by cases a <;> decide

/-- The second of two pages with frames of their own shares all tables with the first. -/
theorem undone_iff_twoPages :
    ∃ s₁, Allocation.page.run loneSetup mapProtWrite lonePml4 0x400000 2 = some s₁ ∧
      ((∃ fuel s₂, freeAllocated loneSetup fuel s₁ 0x400000 0x402000 = some s₂ ∧
        Undone loneSetup .page 0x400000 2 lonePml4 s₁ s₂) ↔ Allocation.page = .page ∨ 2 ≤ 1) := by
  have hserved : ((Allocation.page.run loneSetup mapProtWrite lonePml4 0x400000 2).map
      fun s₁ => decide (Served lonePml4 s₁)) = some true := by
    decide
  obtain ⟨s₁, hs₁, hdecide⟩ := Option.map_eq_some_iff.mp hserved
  refine ⟨s₁, hs₁, undone_iff tree_lonePml4 (by decide) (by decide) (fun v _ _ => ?_) hs₁
    (of_decide_eq_true hdecide)⟩
  exact ⟨translate_lonePml4 v, nofun⟩

/-- A PML4 table without entries, 63 free frames and two free blocks. -/
def twoBlocks : Paging Physical :=
  { lonePml4 with
    frames := Physical.boot
      (fun i => if i = 4 then 1#64 else if 8 ≤ i ∧ i < 24 then 0#64 else ~~~0#64) 1536 }

/-- Of two large pages only the first is mapped. -/
theorem second_page2M_not_mapped :
    Tree loneSetup twoBlocks ∧ Unmapped loneSetup .page2M 0x400000 2 twoBlocks ∧
      ∃ s₁, Allocation.page2M.run loneSetup mapProtWrite twoBlocks 0x400000 2 = some s₁ ∧
        Served twoBlocks s₁ ∧
        ¬ ∃ fuel s₂, freeAllocated loneSetup fuel s₁ 0x400000 0x800000 = some s₂ ∧
          Undone loneSetup .page2M 0x400000 2 twoBlocks s₁ s₂ := by
  have hempty (v : Nat) : translate loneSetup twoBlocks v = none :=
    Sound.translate_initial (fun _ => rfl) v
  have hrun : ((Allocation.page2M.run loneSetup mapProtWrite twoBlocks 0x400000 2).map
      fun s₁ => (decide (Served twoBlocks s₁), translate loneSetup s₁ 0x600000)) =
      some (true, none) := by
    decide +kernel
  obtain ⟨s₁, hs₁, hread⟩ := Option.map_eq_some_iff.mp hrun
  obtain ⟨hserved, hsecond⟩ := Prod.mk.inj hread
  refine ⟨Tree.initial rfl (by decide) (by decide) (by unfold Used; decide) fun _ => rfl,
    fun v _ _ => ⟨hempty v, fun _ t ht hpresent => ?_⟩, s₁, hs₁, of_decide_eq_true hserved, ?_⟩
  · obtain ⟨hpath, -⟩ := Radix.find_of_empty link_zero (fun _ => rfl) ht
    cases hpath
  · rintro ⟨fuel, s₂, -, hundone⟩
    exact hundone.mapped (show 1 < 2 by decide) hsecond

end Helos.Paging
