import Helos.Memory.ZeroedFrames

/-!
# Mapping frames that are allocated

`paging_map_PageAllocated` maps one page after the other, each to a frame of its own. The loop of
`paging_map_PageAllocated2M` maps all blocks of a buffer at one address: one page is mapped as it
should be, and no address between two buffers is mapped at all.
-/

namespace Helos

open PageEntry

/-- The address is in one of these pages, by its low 48 bits. -/
def InPages (size virt pageCount w : Nat) : Prop :=
  ∃ k < pageCount, w % 2 ^ 48 / size = (virt + size * k) % 2 ^ 48 / size

section Pages

variable {size virt pageCount w : Nat}

theorem inPages_succ :
    InPages size virt (pageCount + 1) w ↔
      w % 2 ^ 48 / size = virt % 2 ^ 48 / size ∨ InPages size (virt + size) pageCount w := by
  have hshift (k : Nat) : virt + size + size * k = virt + size * (k + 1) := by
    rw [Nat.mul_succ]
    omega
  unfold InPages
  simp only [hshift]
  constructor
  · rintro ⟨k, hk, hpage⟩
    cases k with
    | zero => exact .inl hpage
    | succ k => exact .inr ⟨k, Nat.lt_of_succ_lt_succ hk, hpage⟩
  · rintro (hpage | ⟨k, hk, hpage⟩)
    · exact ⟨0, Nat.succ_pos _, hpage⟩
    · exact ⟨k + 1, Nat.succ_lt_succ hk, hpage⟩

@[simp] theorem not_inPages_zero : ¬ InPages size virt 0 w := by simp [InPages]

theorem inPages_one : InPages size virt 1 w ↔ w % 2 ^ 48 / size = virt % 2 ^ 48 / size := by
  rw [inPages_succ, or_iff_left not_inPages_zero]

/-- Pages that fit into the 48 bits are apart. -/
theorem not_inPages_rest {a : Paging.Allocation} (hspan : a.pageSize * (pageCount + 1) ≤ 2 ^ 48)
    (hw : w % 2 ^ 48 / a.pageSize = virt % 2 ^ 48 / a.pageSize) :
    ¬ InPages a.pageSize (virt + a.pageSize) pageCount w := by
  rintro ⟨k, hk, hpage⟩
  cases a <;> simp only [Paging.Allocation.pageSize] at * <;> omega

end Pages

/-- Each frame is mapped in turn. -/
def FlatMap.mapFrames (size : Nat) (supportExecuteDisable : Bool) (flags : BitVec 32) :
    List Nat → Nat → FlatMap → FlatMap
  | [], _, f => f
  | frame :: frames, virt, f =>
    mapFrames size supportExecuteDisable flags frames (virt + size)
      (f.mapOne size supportExecuteDisable flags frame virt)

namespace FlatMap

variable {size virt w : Nat} {supportExecuteDisable : Bool} {flags : BitVec 32}
  {frames frames' : List Nat} {f : FlatMap}

theorem mapFrames_append :
    mapFrames size supportExecuteDisable flags (frames ++ frames') virt f =
      mapFrames size supportExecuteDisable flags frames' (virt + size * frames.length)
        (mapFrames size supportExecuteDisable flags frames virt f) := by
  induction frames generalizing virt f with
  | nil => rfl
  | cons frame frames ih =>
    rw [List.cons_append, mapFrames, ih, mapFrames, List.length_cons, Nat.mul_succ, Nat.add_assoc,
      Nat.add_comm size]

theorem mapFrames_outside (h : ¬ InPages size virt frames.length w) :
    mapFrames size supportExecuteDisable flags frames virt f w = f w := by
  induction frames generalizing virt f with
  | nil => rfl
  | cons frame frames ih =>
    rw [List.length_cons, inPages_succ, not_or] at h
    rw [mapFrames, ih h.2]
    exact if_neg h.1

theorem mapFrames_inside {a : Paging.Allocation} (hspan : a.pageSize * frames.length ≤ 2 ^ 48)
    {k frame : Nat} (hframe : frames[k]? = some frame)
    (hw : w % 2 ^ 48 / a.pageSize = (virt + a.pageSize * k) % 2 ^ 48 / a.pageSize) :
    mapFrames a.pageSize supportExecuteDisable flags frames virt f w =
      some (Translation.asked a.pageSize frame supportExecuteDisable flags w) := by
  induction frames generalizing virt f k with
  | nil => cases hframe
  | cons first frames ih =>
    rw [List.length_cons] at hspan
    cases k with
    | zero =>
      obtain rfl := Option.some.inj hframe
      rw [Nat.mul_zero, Nat.add_zero] at hw
      rw [mapFrames, mapFrames_outside (not_inPages_rest hspan hw)]
      exact if_pos hw
    | succ k =>
      rw [Nat.mul_succ] at hspan hw
      rw [mapFrames]
      exact ih (by omega) hframe (by rw [hw]; congr 2; omega)

end FlatMap

namespace Paging

open Translation

theorem NotInside.mapFrames {size : Nat} {f : FlatMap} {v : Nat} (h : NotInside size f v)
    (supportExecuteDisable : Bool) (flags : BitVec 32) (frames : List Nat) (virt : Nat) :
    NotInside size (f.mapFrames size supportExecuteDisable flags frames virt) v := by
  induction frames generalizing virt f with
  | nil => exact h
  | cons frame frames ih => exact ih (h.mapOne supportExecuteDisable flags frame virt) _

variable {g : PagingSetup Physical} {s s₁ s₂ s' : Paging Physical} {flags : BitVec 32}
  {virt virt' pageCount fuel : Nat} {buf : List Nat}

theorem Served.split_of_suffix (h : Served s s') (hfirst : s.events <:+ s₁.events)
    (hrest : s₁.events <:+ s'.events) : Served s s₁ ∧ Served s₁ s' := by
  unfold Served at h ⊢
  have hle := hfirst.sublist.count_le (.allocated none)
  have hle' := hrest.sublist.count_le (.allocated none)
  omega

theorem Served.split_turn (h : Served s s') (hfirst : s.events <:+ s₁.events)
    (hsecond : s₁.events <:+ s₂.events) (hrest : s₂.events <:+ s'.events) :
    Served s s₁ ∧ Served s₁ s₂ ∧ Served s₂ s' := by
  obtain ⟨hserved, hlater⟩ := h.split_of_suffix hfirst (hsecond.trans hrest)
  exact ⟨hserved, hlater.split_of_suffix hsecond hrest⟩

/-! ### 4 KiB pages -/

theorem mapPage_one {frame : Nat} (h : mapPage g s frame virt 1 flags = some s') :
    s' = mapSmallPage g flags frame virt s := by
  obtain ⟨-, hs'⟩ := Option.ite_none_right_eq_some.mp h
  exact (Option.some.inj hs').symm

theorem events_mapFrames (h : mapFrames g flags buf virt s = some (s', virt')) :
    s.events <:+ s'.events := by
  induction buf generalizing virt s with
  | nil =>
    obtain ⟨rfl, -⟩ := Prod.mk.inj (Option.some.inj h)
    exact List.suffix_refl _
  | cons frame buf ih =>
    obtain ⟨s₁, hfirst, hrest⟩ := Option.bind_eq_some_iff.mp h
    rw [mapPage_one hfirst] at hrest
    exact (flushes_mapSmallPage g flags frame virt s).suffix.trans (ih hrest)

/-- One turn of the loop. -/
theorem allocatePages_succ
    (h : allocatePages g flags (fuel + 1) (pageCount + 1) virt s = some s') :
    ∃ buf s₁ s₂ virt', s.allocateFrames (min (pageCount + 1) bufSize) = (buf, s₁) ∧
      mapFrames g flags buf virt s₁ = some (s₂, virt') ∧
      allocatePages g flags fuel (pageCount + 1 - buf.length) virt' s₂ = some s' := by
  obtain ⟨⟨s₂, virt'⟩, hmap, hrest⟩ := Option.bind_eq_some_iff.mp h
  exact ⟨_, _, s₂, virt', rfl, hmap, hrest⟩

theorem events_allocatePages (h : allocatePages g flags fuel pageCount virt s = some s') :
    s.events <:+ s'.events := by
  induction fuel generalizing pageCount virt s with
  | zero =>
    cases pageCount with
    | zero => exact Option.some.inj h ▸ List.suffix_refl _
    | succ pageCount => cases h
  | succ fuel ih =>
    cases pageCount with
    | zero => exact Option.some.inj h ▸ List.suffix_refl _
    | succ pageCount =>
      obtain ⟨buf, s₁, s₂, virt', halloc, hmap, hrest⟩ := allocatePages_succ h
      exact (events_allocateFrames halloc).trans ((events_mapFrames hmap).trans (ih hrest))

theorem Tree.mapFrames (h : Tree g s) (hframes : ∀ frame ∈ buf, IsFrame frame)
    (hend : virt + 4096 * buf.length < 2 ^ 64)
    (hsmall : ∀ k < buf.length, NotInside 4096 (translate g s) (virt + 4096 * k))
    (hrun : mapFrames g flags buf virt s = some (s', virt')) (hserved : Served s s') :
    virt' = virt + 4096 * buf.length ∧ Tree g s' ∧ Enlarged g s s' ∧ Confined g s s' ∧
      translate g s' =
        FlatMap.mapFrames 4096 g.supportExecuteDisable flags buf virt (translate g s) := by
  induction buf generalizing virt s with
  | nil =>
    obtain ⟨rfl, rfl⟩ := Prod.mk.inj (Option.some.inj hrun)
    exact ⟨rfl, h, Enlarged.refl s, Confined.refl s, rfl⟩
  | cons frame buf ih =>
    rw [List.length_cons, Nat.mul_succ] at hend
    have hlt : virt + 4096 < 2 ^ 64 := Nat.lt_of_le_of_lt (by omega) hend
    obtain ⟨s₁, hfirst, hrest⟩ := Option.bind_eq_some_iff.mp hrun
    rw [mapPage_one hfirst, wrap64_of_lt hlt] at hrest
    obtain ⟨hserved₁, hserved₂⟩ := hserved.split_of_suffix
      (flushes_mapSmallPage g flags frame virt s).suffix (events_mapFrames hrest)
    have hsmall₀ : NotInside 4096 (translate g s) virt := hsmall 0 (Nat.succ_pos _)
    obtain ⟨htree, henlarged, htranslate⟩ :=
      h.mapSmallPage (hframes frame List.mem_cons_self) hsmall₀ hserved₁
    have hsmall' (k : Nat) (hk : k < buf.length) :
        NotInside 4096 (translate g (Paging.mapSmallPage g flags frame virt s))
          (virt + 4096 + 4096 * k) := by
      have hnext := hsmall (k + 1) (Nat.succ_lt_succ hk)
      rw [htranslate]
      apply NotInside.mapOne
      rwa [Nat.mul_succ, Nat.add_comm (4096 * k), ← Nat.add_assoc] at hnext
    have hconfined := h.confined_mapSmallPage hsmall₀ hserved₁
    obtain ⟨hvirt', htree', henlarged', hconfined', htranslate'⟩ :=
      ih htree (fun x hx => hframes x (List.mem_cons_of_mem _ hx)) (by omega) hsmall' hrest hserved₂
    refine ⟨?_, htree', henlarged.trans henlarged', hconfined.trans hconfined', ?_⟩
    · rw [hvirt', List.length_cons, Nat.mul_succ]
      omega
    · rw [htranslate', htranslate]
      rfl

/-- The frames that were mapped, in order, and what they hold. -/
theorem Tree.allocatePages_zeroed (h : Tree g s) (hend : virt + 4096 * pageCount < 2 ^ 64)
    (hsmall : ∀ k < pageCount, NotInside 4096 (translate g s) (virt + 4096 * k))
    (hrun : allocatePages g flags fuel pageCount virt s = some s') (hserved : Served s s') :
    ∃ frames, frames.length = pageCount ∧ Stocked g 1 s s' frames ∧
      translate g s' =
        FlatMap.mapFrames 4096 g.supportExecuteDisable flags frames virt (translate g s) ∧
      Confined g s s' ∧ ∀ frame ∈ frames, s'.memory frame = fun _ => 0 := by
  induction fuel generalizing pageCount virt s with
  | zero =>
    cases pageCount with
    | zero =>
      obtain rfl := Option.some.inj hrun
      exact ⟨[], rfl, (Enlarged.refl s).stocked h, rfl, Confined.refl s, nofun⟩
    | succ pageCount => cases hrun
  | succ fuel ih =>
    cases pageCount with
    | zero =>
      obtain rfl := Option.some.inj hrun
      exact ⟨[], rfl, (Enlarged.refl s).stocked h, rfl, Confined.refl s, nofun⟩
    | succ pageCount =>
      obtain ⟨buf, s₁, s₂, virt', halloc, hmap, hrest⟩ := allocatePages_succ hrun
      obtain ⟨hserved₁, hserved₂, hserved₃⟩ := hserved.split_turn (events_allocateFrames halloc)
        (events_mapFrames hmap) (events_allocatePages hrest)
      obtain ⟨hlength, hstock, -, hsame⟩ := h.allocateFrames halloc hserved₁
      have hle : buf.length ≤ pageCount + 1 := hlength ▸ Nat.min_le_left _ _
      have hspan : virt + 4096 * buf.length < 2 ^ 64 := by
        exact Nat.lt_of_le_of_lt (by omega) hend
      obtain ⟨hcleared, hzero⟩ := h.confined_allocateFrames halloc hserved₁
      have hsmall₁ (k : Nat) (hk : k < buf.length) : NotInside 4096 (translate g s₁) (virt + 4096 * k) :=
        hsame ▸ hsmall k (Nat.lt_of_lt_of_le hk hle)
      obtain ⟨rfl, htree, henlarged, hconfined, htranslate⟩ :=
        hstock.tree.mapFrames hstock.frame hspan hsmall₁ hmap hserved₂
      have hsmall' (k : Nat) (hk : k < pageCount + 1 - buf.length) :
          NotInside 4096 (translate g s₂) (virt + 4096 * buf.length + 4096 * k) := by
        rw [htranslate, hsame, Nat.add_assoc, ← Nat.mul_add]
        exact (hsmall _ (by omega)).mapFrames _ _ _ _
      obtain ⟨frames, hframes, hstock', htranslate', hconfined', hzero'⟩ := ih htree
        (Nat.lt_of_le_of_lt (by omega) hend) hsmall' hrest hserved₃
      have hmapped : Stocked g 1 s s' (buf ++ frames) := by
        have hfirst := hstock.trans Nat.one_pos (henlarged.stocked htree)
        rw [List.append_nil] at hfirst
        exact hfirst.trans Nat.one_pos hstock'
      refine ⟨buf ++ frames, ?_, hmapped, ?_, hcleared.trans (hconfined.trans hconfined'),
        fun frame hmem => ?_⟩
      · rw [List.length_append, hframes]
        omega
      · rw [htranslate', htranslate, hsame, FlatMap.mapFrames_append]
      · rcases List.mem_append.mp hmem with hfirst | hlater
        · -- a frame that was mapped is no table, so nothing was written since it was zeroed
          have hnot : ¬ Radix.IsTable link s'.memory g.pml4Table frame := fun htable =>
            hmapped.apart frame htable (InFrames.head Nat.one_pos hmem)
          exact ((hconfined.trans hconfined').unwritten frame hnot).zero (hzero frame hfirst)
        · exact hzero' frame hlater

theorem Tree.allocatePages (h : Tree g s) (hend : virt + 4096 * pageCount < 2 ^ 64)
    (hsmall : ∀ k < pageCount, NotInside 4096 (translate g s) (virt + 4096 * k))
    (hrun : Paging.allocatePages g flags fuel pageCount virt s = some s') (hserved : Served s s') :
    ∃ frames, frames.length = pageCount ∧ Stocked g 1 s s' frames ∧
      translate g s' =
        FlatMap.mapFrames 4096 g.supportExecuteDisable flags frames virt (translate g s) := by
  obtain ⟨frames, hlength, hstock, htranslate, -, -⟩ := h.allocatePages_zeroed hend hsmall hrun hserved
  exact ⟨frames, hlength, hstock, htranslate⟩

/-! ### 2 MiB pages -/

theorem mapPage2M_one {frame : Nat} (h : mapPage2M g s frame virt 1 flags = some s') :
    frame % 2097152 = 0 ∧ s' = mapOnePage2M g flags frame virt s := by
  obtain ⟨⟨halign, -⟩, hs'⟩ := Option.ite_none_right_eq_some.mp h
  exact ⟨halign, (Option.some.inj hs').symm⟩

theorem events_mapFrames2M (h : mapFrames2M g flags virt buf s = some s') :
    s.events <:+ s'.events := by
  induction buf generalizing s with
  | nil => exact Option.some.inj h ▸ List.suffix_refl _
  | cons frame buf ih =>
    obtain ⟨s₁, hfirst, hrest⟩ := Option.bind_eq_some_iff.mp h
    rw [(mapPage2M_one hfirst).2] at hrest
    exact (mapOnePage2M_events g flags frame virt s).trans (ih hrest)

theorem allocatePages2M_zero (g : PagingSetup Physical) (flags : BitVec 32) (fuel virt : Nat)
    (s : Paging Physical) : allocatePages2M g flags fuel 0 virt s = some s := by
  cases fuel <;> rfl

theorem allocatePages2M_succ
    (h : allocatePages2M g flags (fuel + 1) (pageCount + 1) virt s = some s') :
    ∃ buf s₁ s₂, s.allocateFrames2M (min (pageCount + 1) bufSize) = (buf, s₁) ∧
      mapFrames2M g flags virt buf s₁ = some s₂ ∧
      allocatePages2M g flags fuel (pageCount + 1 - buf.length)
        (wrap64 (virt + 2097152 * buf.length)) s₂ = some s' := by
  obtain ⟨s₂, hmap, hrest⟩ := Option.bind_eq_some_iff.mp h
  exact ⟨_, _, s₂, rfl, hmap, hrest⟩

theorem events_allocatePages2M (h : allocatePages2M g flags fuel pageCount virt s = some s') :
    s.events <:+ s'.events := by
  induction fuel generalizing pageCount virt s with
  | zero =>
    cases pageCount with
    | zero => exact Option.some.inj h ▸ List.suffix_refl _
    | succ pageCount => cases h
  | succ fuel ih =>
    cases pageCount with
    | zero => exact Option.some.inj h ▸ List.suffix_refl _
    | succ pageCount =>
      obtain ⟨buf, s₁, s₂, halloc, hmap, hrest⟩ := allocatePages2M_succ h
      exact (events_allocateFrames2M halloc).trans ((events_mapFrames2M hmap).trans (ih hrest))

/-- An entry that the descent ends at is not present if there was nothing to find below it: a page
would be found by the walk, and a table is not on the path of the descent. -/
theorem Descended.absent (h : Descended g s s₁) {p : List Nat} {t i : Nat}
    (honPath : OnPath g s s₁ p) (hp : Radix.find link s₁.memory 0 g.pml4Table p = some t)
    (hv : p ++ [i] <+: indices virt) (hnone : Paging.translate g s virt = none)
    (hfind : Radix.find link s.memory 0 g.pml4Table (p ++ [i]) = none) :
    ¬ Present (s₁.memory t i) := by
  intro hpresent
  cases hlink : link p.length (s₁.memory t i) with
  | none =>
    have htranslate := Sound.translate_eq hp hlink hv
    rw [h.translate, hnone] at htranslate
    obtain ⟨translation, htranslation, -⟩ := ofTrail_of_present hpresent
    cases htranslate.trans htranslation
  | some c =>
    have hbelow : Radix.find link s₁.memory 0 g.pml4Table (p ++ [i]) = some c := by
      rw [Radix.find_snoc hp, Nat.zero_add, hlink]
    rcases honPath _ _ hbelow with hold | hpath
    · rw [hfind] at hold
      cases hold
    · exact Radix.not_append_prefix_self hpath

/-- Where there was no table for the page, none is freed. -/
theorem Tree.enlarged_mapOnePage2M (h : Tree g s) {physical : Nat}
    (hnone : translate g s virt = none)
    (hfind : Radix.find link s.memory 0 g.pml4Table ((indices virt).take 3) = none)
    (hserved : Served s (Paging.mapOnePage2M g flags physical virt s)) :
    Enlarged g s (Paging.mapOnePage2M g flags physical virt s) := by
  have hsmall : NotInside 2097152 (translate g s) virt := notInside_of_none hnone
  rw [mapOnePage2M_eq] at hserved ⊢
  obtain ⟨-, hdescended, honPath, hfound⟩ := h.descend_large (.inr rfl) (List.take_prefix 2 _)
    (by simp [indices, sizeAt]) hsmall hserved
  unfold Paging.mapLargePage
  set t := (Paging.descend g ((indices virt).take 2) g.pml4Table s).1
  set s₁ := (Paging.descend g ((indices virt).take 2) g.pml4Table s).2
  have habsent : ¬ Present (s₁.memory t (takeBitfield virt 29 21)) :=
    hdescended.absent honPath hfound ⟨[takeBitfield virt 20 12], rfl⟩ hnone hfind
  have hfree : freeTable g s₁ t (takeBitfield virt 29 21) = s₁ :=
    if_neg fun htable => habsent htable.1
  have hleaf := link_leaf_pageSize g.supportExecuteDisable flags physical
  have hold : link ((indices virt).take 2).length
      (s₁.memory t (takeBitfield virt 29 21)) = none := by
    rw [Option.eq_none_iff_forall_not_mem]
    intro c hc
    exact habsent (link_eq_some hc).1
  change Enlarged g s (((freeTable g s₁ t _).setEntry t _ _).flushTlbSingle virt)
  rw [hfree]
  exact hdescended.toEnlarged.trans
    (Enlarged.of_find (hdescended.tree.find_write hfound hleaf rfl hold) rfl)

theorem Tree.allocatePage2M (h : Tree g s) (hnone : translate g s virt = none)
    (hfind : Radix.find link s.memory 0 g.pml4Table ((indices virt).take 3) = none)
    (hrun : allocatePages2M g flags fuel 1 virt s = some s') (hserved : Served s s') :
    ∃ frames, frames.length = 1 ∧ Stocked g 512 s s' frames ∧
      translate g s' =
        FlatMap.mapFrames 2097152 g.supportExecuteDisable flags frames virt (translate g s) := by
  cases fuel with
  | zero => cases hrun
  | succ fuel =>
    obtain ⟨buf, s₁, s₂, halloc, hmap, hrest⟩ := allocatePages2M_succ hrun
    have hmin : min (0 + 1) bufSize = 1 := by decide
    rw [hmin] at halloc
    obtain ⟨hserved₁, hserved'⟩ := hserved.split_of_suffix (events_allocateFrames2M halloc)
      ((events_mapFrames2M hmap).trans (events_allocatePages2M hrest))
    obtain ⟨hlength, hstock, hkept, hsame⟩ := h.allocateFrames2M halloc hserved₁
    obtain ⟨frame, rfl⟩ := List.length_eq_one_iff.mp hlength
    obtain rfl := Option.some.inj ((allocatePages2M_zero g flags fuel _ s₂).symm.trans hrest)
    obtain ⟨s₃, hpage, hlast⟩ := Option.bind_eq_some_iff.mp hmap
    obtain rfl := Option.some.inj hlast
    obtain ⟨halign, rfl⟩ := mapPage2M_one hpage
    have hframe := hstock.frame frame (List.mem_singleton.mpr rfl)
    have hnone₁ : translate g s₁ virt = none := (congrFun hsame virt).trans hnone
    have hsmall : NotInside 2097152 (translate g s₁) virt := notInside_of_none hnone₁
    obtain ⟨htree, htranslate⟩ := hstock.tree.mapOnePage2M halign hframe.2 hsmall hserved'
    have henlarged := hstock.tree.enlarged_mapOnePage2M hnone₁ ((hkept _).trans hfind) hserved'
    refine ⟨[frame], rfl, ?_, ?_⟩
    · have hmapped := hstock.trans (by decide) (henlarged.stocked htree)
      rwa [List.append_nil] at hmapped
    · rw [htranslate, hsame]
      rfl

/-- All blocks of the buffer are mapped at one address. -/
theorem Tree.mapFrames2M (h : Tree g s) (hframes : ∀ frame ∈ buf, IsFrame frame)
    (hsmall : NotInside 2097152 (translate g s) virt)
    (hrun : mapFrames2M g flags virt buf s = some s') (hserved : Served s s') :
    Tree g s' ∧ translate g s' = buf.foldl (fun f frame =>
      FlatMap.mapOne 2097152 g.supportExecuteDisable flags frame virt f) (translate g s) := by
  induction buf generalizing s with
  | nil =>
    obtain rfl := Option.some.inj hrun
    exact ⟨h, rfl⟩
  | cons frame buf ih =>
    obtain ⟨s₁, hfirst, hrest⟩ := Option.bind_eq_some_iff.mp hrun
    obtain ⟨halign, rfl⟩ := mapPage2M_one hfirst
    obtain ⟨hserved₁, hserved₂⟩ := hserved.split_of_suffix
      (mapOnePage2M_events g flags frame virt s) (events_mapFrames2M hrest)
    obtain ⟨htree, htranslate⟩ :=
      h.mapOnePage2M halign (hframes frame List.mem_cons_self).2 hsmall hserved₁
    rw [List.foldl_cons, ← htranslate]
    refine ih htree (fun x hx => hframes x (List.mem_cons_of_mem _ hx)) ?_ hrest hserved₂
    rw [htranslate]
    exact hsmall.mapOne _ _ _ _

section Blocks

variable {f : FlatMap} (supportExecuteDisable : Bool) (flags : BitVec 32) (buf : List Nat)

theorem NotInside.mapBlocks {v : Nat} (h : NotInside 2097152 f v) :
    NotInside 2097152 (buf.foldl (fun f frame =>
      FlatMap.mapOne 2097152 supportExecuteDisable flags frame virt f) f) v := by
  induction buf generalizing f with
  | nil => exact h
  | cons frame buf ih => exact ih (h.mapOne _ _ _ _)

theorem mapBlocks_elsewhere {w : Nat} (hw : w % 2 ^ 48 / 2097152 ≠ virt % 2 ^ 48 / 2097152) :
    buf.foldl (fun f frame =>
      FlatMap.mapOne 2097152 supportExecuteDisable flags frame virt f) f w = f w := by
  induction buf generalizing f with
  | nil => rfl
  | cons frame buf ih =>
    rw [List.foldl_cons, ih]
    exact if_neg hw

end Blocks

/-- A whole buffer is 2^32 bytes, so an address is only mapped if it is in a first page of these. -/
theorem Tree.allocatePages2M_elsewhere (h : Tree g s)
    (hend : virt + 2097152 * pageCount < 2 ^ 64)
    (hsmall : ∀ k < pageCount, NotInside 2097152 (translate g s) (virt + 2097152 * k))
    (hrun : allocatePages2M g flags fuel pageCount virt s = some s') (hserved : Served s s')
    {w : Nat} (hw : w % 2 ^ 32 / 2097152 ≠ virt % 2 ^ 32 / 2097152) :
    translate g s' w = translate g s w := by
  induction fuel generalizing pageCount virt s with
  | zero =>
    cases pageCount with
    | zero => rw [Option.some.inj hrun]
    | succ pageCount => cases hrun
  | succ fuel ih =>
    cases pageCount with
    | zero => rw [Option.some.inj hrun]
    | succ pageCount =>
      obtain ⟨buf, s₁, s₂, halloc, hmap, hrest⟩ := allocatePages2M_succ hrun
      obtain ⟨hserved₁, hserved₂, hserved₃⟩ := hserved.split_turn (events_allocateFrames2M halloc)
        (events_mapFrames2M hmap) (events_allocatePages2M hrest)
      obtain ⟨hlength, hstock, -, hsame⟩ := h.allocateFrames2M halloc hserved₁
      have hsmall₀ : NotInside 2097152 (translate g s₁) virt := hsame ▸ hsmall 0 (Nat.succ_pos _)
      obtain ⟨htree, htranslate⟩ :=
        hstock.tree.mapFrames2M hstock.frame hsmall₀ hmap hserved₂
      have helsewhere : translate g s₂ w = translate g s w := by
        rw [htranslate, mapBlocks_elsewhere _ _ _ (by omega), hsame]
      rw [← helsewhere]
      by_cases hlast : pageCount + 1 ≤ 2048
      · -- the buffer took all pages
        have hall : pageCount + 1 - buf.length = 0 := by
          rw [hlength]
          unfold bufSize
          omega
        rw [hall, allocatePages2M_zero] at hrest
        rw [Option.some.inj hrest]
      · have hfull : buf.length = 2048 := by
          rw [hlength]
          unfold bufSize
          omega
        have hlt : virt + 2097152 * 2048 < 2 ^ 64 := Nat.lt_of_le_of_lt (by omega) hend
        rw [hfull, wrap64_of_lt hlt] at hrest
        refine ih htree (Nat.lt_of_le_of_lt (by omega) hend) (fun k hk => ?_) hrest hserved₃
          (by omega)
        rw [htranslate, hsame, Nat.add_assoc, ← Nat.mul_add]
        exact NotInside.mapBlocks _ _ _ (hsmall _ (by omega))

end Paging

end Helos
