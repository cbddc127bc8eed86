import Helos.Memory.BitmapRanges
import Helos.Memory.FreeAllocated
import Helos.Memory.Tlb

/-!
# When unmapping is exact

The loop of `paging_map_FreeAllocated` goes on by the size of the page it has found, from wherever in the
page it was. It unmaps the range and nothing else when every page that is mapped in the range lies
in it, and only then. The frames it frees are those of these pages, as `paging_physical_FreeFrame` narrows
their numbers: beyond 64 GiB these are other frames, or none of the bitmap.
-/

namespace Helos

/-- `paging_physical_AllocateOneFrame`, and `paging_physical_FreeFrame` of any frame. Nothing is known once
a write has missed the bitmap. -/
def narrowingAllocator : FrameAllocator (Option Physical) where
  allocate
    | some p => (p.allocateFrame.2, some p.allocateFrame.1)
    | none => (none, none)
  free p frame pageCount := p.bind fun p => p.freeFrameInt frame pageCount

/-- A page that a call gives back, by the number that the call narrows it to. -/
def PagingEvent.GivesBack : PagingEvent → Nat → Prop
  | .freed frame pageCount, page =>
    frame % systemPageSize = 0 ∧ toInt (frame / systemPageSize) ≤ page ∧
      page < toInt (wrap64 (frame / systemPageSize + pageCount))
  | _, _ => False

namespace Paging

open PageEntry Translation

/-- The frame of a page number backs an address of the range. -/
def Backs {σ : Type} (g : PagingSetup σ) (s : Paging σ) (virt past page : Nat) : Prop :=
  ∃ v t, virt ≤ v ∧ v < past ∧ translate g s v = some t ∧ t.physical / systemPageSize = page

/-- What the call is meant to do, in canonical addresses. -/
structure FreedExactly (g : PagingSetup (Option Physical)) (s s' : Paging (Option Physical))
    (virt past : Nat) : Prop where
  unmapped : ∀ v, virt ≤ v → v < past → translate g s' v = none
  kept : ∀ v, Canonical v → ¬ (virt ≤ v ∧ v < past) → translate g s' v = translate g s v
  frames : ∀ event ∈ newEvents s s', ∀ page, event.GivesBack page → Backs g s virt past page
  bitmap : ∃ p p', s.frames = some p ∧ s'.frames = some p' ∧
    ∀ page, Physical.bit p'.bitmap page ≠ Physical.bit p.bitmap page → Backs g s virt past page

variable {σ : Type} {g : PagingSetup σ} {s₀ s s' : Paging σ} {virt past low : Nat} {p : List Nat}
  {t i : Nat}

/-- Every page mapped at an address of the range lies in the range. -/
def PagesInside (g : PagingSetup σ) (s : Paging σ) (virt past : Nat) : Prop :=
  ∀ v t, virt ≤ v → v < past → translate g s v = some t →
    ∀ w, Canonical w → w % 2 ^ 48 / t.pageSize = v % 2 ^ 48 / t.pageSize → virt ≤ w ∧ w < past

/-- The frame of every page mapped in the range is one of the bitmap when its number is narrowed, and backs
an address of the range. -/
def FramesInside (g : PagingSetup σ) (s : Paging σ) (virt past : Nat) : Prop :=
  ∀ v t, virt ≤ v → v < past → translate g s v = some t →
    ∃ page : Nat, toInt (t.physical / systemPageSize) = page ∧ page < maxSystemMemoryPages ∧
      Backs g s virt past page

/-! ### Pages -/

def IsPageSize (size : Nat) : Prop := size = 4096 ∨ size = 2097152 ∨ size = 1073741824

theorem Found.page (h : Found g s virt p t i) :
    IsPageSize (sizeAt (p.length + 1)) ∧ sizeAt (p.length + 1) = 4096 * framesAt (p.length + 1) ∧
      ∀ w, p ++ [i] <+: indices w ↔
        w % 2 ^ 48 / sizeAt (p.length + 1) = virt % 2 ^ 48 / sizeAt (p.length + 1) := by
  have hlength : p.length + 1 ≤ 4 := by
    have hle := h.path.length_le
    rwa [List.length_append, List.length_singleton] at hle
  have htake := List.prefix_iff_eq_take.mp h.path
  rw [List.length_append, List.length_singleton] at htake
  have hstart (w : Nat) : p ++ [i] <+: indices w ↔
      (indices w).take (p.length + 1) = (indices virt).take (p.length + 1) := by
    rw [List.prefix_iff_eq_take, List.length_append, List.length_singleton, htake, eq_comm]
  simp only [hstart]
  have hpresent := h.present
  have hleaf := h.leaf
  obtain ⟨d, hd⟩ : ∃ d, d = p.length := ⟨_, rfl⟩
  rw [← hd] at hlength hleaf ⊢
  match d, hlength with
  | 0, _ =>
    rw [link, if_pos hpresent] at hleaf
    cases hleaf
  | 1, _ => exact ⟨.inr (.inr rfl), rfl, fun w => indices_take_two_eq_iff⟩
  | 2, _ => exact ⟨.inr (.inl rfl), rfl, fun w => indices_take_eq_iff⟩
  | 3, _ => exact ⟨.inl rfl, rfl, fun w => indices_eq_iff⟩

theorem Found.of_prefix (h : Found g s virt p t i) {w : Nat} (hw : p ++ [i] <+: indices w) :
    Found g s w p t i := ⟨hw, h.table, h.leaf, h.present⟩

/-- Where the page of an address starts among the canonical addresses. -/
theorem exists_start {size : Nat} (hsize : IsPageSize size) (virt : Nat) :
    ∃ start, (start < 2 ^ 47 ∨ 2 ^ 64 - 2 ^ 47 ≤ start) ∧
      ∀ r < size, Canonical (start + r) ∧ (start + r) % 2 ^ 48 / size = virt % 2 ^ 48 / size ∧
        (start + r) % size = r := by
  unfold Canonical
  by_cases hlow : virt % 2 ^ 48 < 2 ^ 47
  · refine ⟨virt % 2 ^ 48 / size * size, .inl ?_, fun r hr => ?_⟩ <;>
      rcases hsize with rfl | rfl | rfl <;> omega
  · refine ⟨virt % 2 ^ 48 / size * size + (2 ^ 64 - 2 ^ 48), .inr ?_, fun r hr => ?_⟩ <;>
      rcases hsize with rfl | rfl | rfl <;> omega

/-- From no address of a page before its start does the loop step over canonical addresses behind its end. -/
theorem page_ahead {size start : Nat} (hsize : IsPageSize size)
    (hhalf : start < 2 ^ 47 ∨ 2 ^ 64 - 2 ^ 47 ≤ start)
    (hsame : start % 2 ^ 48 / size = virt % 2 ^ 48 / size) (hzero : start % size = 0)
    (hahead : virt ≤ start) (hend : start + (size - 1) < past) (hlimit : past < 2 ^ 64) :
    virt + size ≤ past ∧ ∀ w, Canonical w → virt ≤ w → w < virt + size →
      w % 2 ^ 48 / size = virt % 2 ^ 48 / size := by
  unfold Canonical
  rcases hsize with rfl | rfl | rfl <;> exact ⟨by omega, fun w hw hge hbelow => by omega⟩

/-! ### One page -/

theorem translate_freeFound (s : Paging σ) (depth t i v : Nat) :
    translate g (freeFound g s depth t i).2 v = translate g s v ∨
      translate g (freeFound g s depth t i).2 v = none := by
  unfold translate
  change ofTrail v (Radix.trail link (Radix.write s.memory t i 0) 0 g.pml4Table (indices v)) = _ ∨
    ofTrail v (Radix.trail link (Radix.write s.memory t i 0) 0 g.pml4Table (indices v)) = none
  have hwalk := Radix.trail_write_zero (m := s.memory) (t := t) (r := g.pml4Table) (i := i) (d := 0)
    (p := indices v) link_zero
  rcases hwalk with hsame | ⟨before, hbefore⟩
  · rw [hsame]
    exact .inl rfl
  · rw [hbefore]
    exact .inr (ofTrail_of_absent not_present_zero)

theorem Found.translate_apart (h : Found g s virt p t i)
    (hunshared : Radix.Unshared link s.memory g.pml4Table) {w : Nat} (hw : ¬ p ++ [i] <+: indices w) :
    Paging.translate g (freeFound g s p.length t i).2 w = Paging.translate g s w :=
  congrArg (ofTrail w) (hunshared.trail_write h.table hw)

theorem Found.survives (h : Found g s virt p t i) (depth t' i' : Nat) :
    Found g (freeFound g s depth t' i').2 virt p t i ∨
      ∀ w, p ++ [i] <+: indices w → Paging.translate g (freeFound g s depth t' i').2 w = none := by
  rcases Radix.entry_write_zero (t := t') (i := i') (j := i) link_zero h.table with
    ⟨hfind, hentry⟩ | hcut
  · refine .inl ⟨h.path, hfind, ?_, ?_⟩
    · exact (congrArg (link p.length) hentry).trans h.leaf
    · exact (congrArg Present hentry).mpr h.present
  · refine .inr fun w hw => ?_
    obtain ⟨q, hq⟩ := hw
    rw [List.append_assoc, List.singleton_append] at hq
    obtain ⟨before, hbefore⟩ := hcut q
    unfold Paging.translate
    rw [← hq]
    exact (congrArg (ofTrail w) hbefore).trans (ofTrail_of_absent not_present_zero)

theorem freePages_found {fuel v : Nat} (hrun : freePages g past fuel virt s = some s')
    (h : Found g s v p t i) :
    Found g s' v p t i ∨ ∀ w, p ++ [i] <+: indices w → translate g s' w = none := by
  induction fuel generalizing virt s with
  | zero =>
    rw [freePages, Option.ite_none_left_eq_some] at hrun
    exact .inl (Option.some.inj hrun.2 ▸ h)
  | succ fuel ih =>
    rw [freePages] at hrun
    split at hrun
    · rcases freeOnePage_cases g virt s with ⟨hone, -⟩ | ⟨p', t', i', -, hone⟩
      · simp only [hone] at hrun
        exact ih hrun h
      · simp only [hone] at hrun
        rcases h.survives p'.length t' i' with hfound | hcut
        · exact ih hrun hfound
        · exact .inr fun w hw => freePages_unmaps hrun (hcut w hw)
    · exact .inl (Option.some.inj hrun ▸ h)

theorem freePages_unique {fuel fuel' : Nat} {s₁ s₂ : Paging σ}
    (h : freePages g past fuel virt s = some s₁) (h' : freePages g past fuel' virt s = some s₂) :
    s₁ = s₂ := by
  induction fuel generalizing fuel' virt s with
  | zero =>
    rw [freePages, Option.ite_none_left_eq_some] at h
    cases fuel' with
    | zero =>
      rw [freePages, Option.ite_none_left_eq_some] at h'
      exact Option.some.inj (h.2.symm.trans h'.2)
    | succ fuel' =>
      rw [freePages, if_neg h.1] at h'
      exact Option.some.inj (h.2.symm.trans h')
  | succ fuel ih =>
    rw [freePages] at h
    split at h
    · next hlt =>
      cases fuel' with
      | zero => exact absurd hlt (Option.ite_none_left_eq_some.mp h').1
      | succ fuel' => exact ih h ((if_pos hlt).symm.trans h')
    · next hge =>
      cases fuel' with
      | zero => exact Option.some.inj (h.symm.trans (Option.ite_none_left_eq_some.mp h').2)
      | succ fuel' => exact Option.some.inj (h.symm.trans ((if_neg hge).symm.trans h'))

/-! ### Calls that free frames -/

/-- The frames after the calls that free some, the last of which comes first. -/
def replayFrees (allocator : FrameAllocator σ) : List PagingEvent → σ → σ
  | .freed frame pageCount :: events, frames =>
    allocator.free (replayFrees allocator events frames) frame pageCount
  | _ :: events, frames => replayFrees allocator events frames
  | [], frames => frames

/-- A call for some frames, the pages of which are no more than those of a page of 1 GiB. -/
structure IsFree (event : PagingEvent) (frame pageCount : Nat) : Prop where
  eq : event = .freed frame pageCount
  isFrame : IsFrame frame
  pos : 0 < pageCount
  le : pageCount ≤ 2 ^ 18

/-- The calls that were made for what has been unmapped since. -/
structure Frees (g : PagingSetup σ) (s₀ s : Paging σ) (low past : Nat) (events : List PagingEvent) :
    Prop where
  replayed : s.frames = replayFrees g.allocator events s₀.frames
  freed : ∀ event ∈ events, ∃ frame pageCount, IsFree event frame pageCount ∧ ∀ x, frame ≤ x →
    x < frame + 4096 * pageCount →
      ∃ v t, low ≤ v ∧ v < past ∧ translate g s₀ v = some t ∧ t.physical = x
  lost : ∀ v t, translate g s₀ v = some t → translate g s v = none →
    ∃ frame pageCount, .freed frame pageCount ∈ events ∧ frame ≤ t.physical ∧
      t.physical < frame + 4096 * pageCount

theorem framesAt_bounds (n : Nat) : 0 < framesAt n ∧ framesAt n ≤ 2 ^ 18 := by
  unfold framesAt
  split <;> decide

/-! ### Progress -/

/-- What holds when the loop has come from `low` to `virt`, over pages that lie inside the range. -/
structure Progress (g : PagingSetup σ) (s₀ s : Paging σ) (low past virt : Nat) : Prop where
  bounds : low ≤ virt ∧ virt ≤ past
  aligned : virt % 4096 = 0
  unmapped : ∀ v, Canonical v → low ≤ v → v < virt → translate g s v = none
  only : ∀ v, translate g s v = translate g s₀ v ∨ translate g s v = none
  kept : ∀ v, Canonical v → ¬ (low ≤ v ∧ v < past) → translate g s v = translate g s₀ v
  unshared : Radix.Unshared link s.memory g.pml4Table
  frames : ∃ events, s.events = events ++ s₀.events ∧ Frees g s₀ s low past events

section Turn

variable (hinside : PagesInside g s₀ low past) (h : Progress g s₀ s low past virt) (hlt : virt < past)

include h

theorem Progress.skip (hpast : past % 4096 = 0) (hlt : virt < past) (hnone : translate g s virt = none) :
    Progress g s₀ s low past (virt + 4096) := by
  obtain ⟨hlow, -⟩ := h.bounds
  have halign := h.aligned
  refine ⟨by omega, by omega, fun v hv hle hbelow => ?_, h.only, h.kept, h.unshared, h.frames⟩
  by_cases hbefore : v < virt
  · exact h.unmapped v hv hle hbefore
  · exact (translate_none_iff (by omega)).mpr hnone

include hinside hlt

/-- The page that is found lies inside the range; at a canonical address the loop has come to its start,
and otherwise there is no canonical address before its end. -/
theorem Progress.found_inside (hlimit : past < 2 ^ 64) (hfound : Found g s virt p t i) :
    let size := sizeAt (p.length + 1)
    (∀ w, Canonical w → p ++ [i] <+: indices w → low ≤ w ∧ w < past) ∧ virt + size ≤ past ∧
      ∀ w, Canonical w → virt ≤ w → w < virt + size → p ++ [i] <+: indices w := by
  obtain ⟨hsize, -, hindices⟩ := hfound.page
  obtain ⟨translation, htranslation, hpage, -⟩ := hfound.translate
  set size := sizeAt (p.length + 1)
  obtain ⟨hlow, -⟩ := h.bounds
  have hbefore : translate g s₀ virt = some translation := by
    rcases h.only virt with hsame | hnone
    · exact hsame.symm.trans htranslation
    · cases htranslation.symm.trans hnone
  have hin : ∀ w, Canonical w → p ++ [i] <+: indices w → low ≤ w ∧ w < past := fun w hw hprefix =>
    hinside virt translation hlow hlt hbefore w hw (hpage.symm ▸ (hindices w).mp hprefix)
  obtain ⟨start, hhalf, hstart⟩ := exists_start hsize virt
  have hpos : 0 < size := (sizeAt_mod _).2
  obtain ⟨hcanonical, hsame, hzero⟩ := hstart 0 hpos
  obtain ⟨hlast, hsame', -⟩ := hstart (size - 1) (by omega)
  have hfirst := hin _ hcanonical ((hindices _).mpr hsame)
  have hend := hin _ hlast ((hindices _).mpr hsame')
  rw [Nat.add_zero] at hcanonical hsame hzero hfirst
  -- an address of the page that the loop has passed is unmapped
  have hnotPassed : virt ≤ start := by
    by_contra hpassed
    have hgone := h.unmapped start hcanonical hfirst.1 (Nat.lt_of_not_le hpassed)
    obtain ⟨_, hmapped, -⟩ := (hfound.of_prefix ((hindices start).mpr hsame)).translate
    cases hmapped.symm.trans hgone
  obtain ⟨hfits, hnone⟩ := page_ahead hsize hhalf hsame hzero hnotPassed hend.2 hlimit
  exact ⟨hin, hfits, fun w hw hge hbelow => (hindices w).mpr (hnone w hw hge hbelow)⟩

/-- The page is unmapped, and its frames backed addresses of the range. -/
theorem Progress.free (hlimit : past < 2 ^ 64) (hfound : Found g s virt p t i) :
    Progress g s₀ (freeFound g s p.length t i).2 low past (virt + sizeAt (p.length + 1)) := by
  obtain ⟨hin, hfits, hahead⟩ := h.found_inside hinside hlt hlimit hfound
  obtain ⟨hsize, hcount, hindices⟩ := hfound.page
  have hgone {w : Nat} (hw : p ++ [i] <+: indices w) :
      translate g (freeFound g s p.length t i).2 w = none := (hfound.of_prefix hw).unmapped
  obtain ⟨hlow, -⟩ := h.bounds
  have halign := h.aligned
  have hmod := (sizeAt_mod (p.length + 1)).1
  refine ⟨⟨by omega, hfits⟩, by omega, fun v hv hle hbelow => ?_, fun v => ?_, fun v hv hout => ?_,
    h.unshared.write_zero link_zero, ?_⟩
  · by_cases hbefore : v < virt
    · exact translate_freeFound_of_none (h.unmapped v hv hle hbefore)
    · exact hgone (hahead v hv (Nat.le_of_not_lt hbefore) hbelow)
  · rcases translate_freeFound s p.length t i v with hsame | hnone
    · exact hsame ▸ h.only v
    · exact .inr hnone
  · rw [hfound.translate_apart h.unshared fun hw => hout (hin v hv hw)]
    exact h.kept v hv hout
  · obtain ⟨events, hevents, hframes⟩ := h.frames
    refine ⟨.freed _ _ :: events, congrArg _ hevents, ?_, fun event hmem => ?_, fun v t hv hnone => ?_⟩
    · exact congrArg (fun frames => g.allocator.free frames _ _) hframes.replayed
    · rcases List.mem_cons.mp hmem with rfl | hold
      · obtain ⟨hpos, hle⟩ := framesAt_bounds (p.length + 1)
        refine ⟨_, _, ⟨rfl, isFrame_and_maskAt _ _, hpos, hle⟩, fun x hge hbelow => ?_⟩
        obtain ⟨start, -, hstart⟩ := exists_start hsize virt
        obtain ⟨r, rfl⟩ := Nat.exists_eq_add_of_le hge
        obtain ⟨hcanonical, hsame, hoffset⟩ := hstart r (by omega)
        have hprefix := (hindices _).mpr hsame
        obtain ⟨translation, htranslation, -, hphysical⟩ := (hfound.of_prefix hprefix).translate
        rw [hoffset] at hphysical
        obtain ⟨hle, hpast⟩ := hin _ hcanonical hprefix
        refine ⟨start + r, translation, hle, hpast, ?_, hphysical⟩
        rcases h.only (start + r) with hsame | hnone
        · exact hsame.symm.trans htranslation
        · cases htranslation.symm.trans hnone
      · exact hframes.freed event hold
    · -- What is unmapped now was unmapped before, or is of the page.
      rcases h.only v with hsame | hbefore
      · by_cases hprefix : p ++ [i] <+: indices v
        · obtain ⟨translation, htranslation, -, hphysical⟩ := (hfound.of_prefix hprefix).translate
          obtain rfl := Option.some.inj (hv.symm.trans (hsame.symm.trans htranslation))
          have hoffset := Nat.mod_lt v (sizeAt_mod (p.length + 1)).2
          exact ⟨_, _, List.mem_cons_self, by omega, by omega⟩
        · rw [hfound.translate_apart h.unshared hprefix, hsame, hv] at hnone
          cases hnone
      · obtain ⟨frame, pageCount, hmem, hcovered⟩ := hframes.lost v t hv hbefore
        exact ⟨frame, pageCount, List.mem_cons_of_mem _ hmem, hcovered⟩

end Turn

theorem Progress.run (hinside : PagesInside g s₀ low past) (hpast : past % 4096 = 0)
    (hlimit : past < 2 ^ 64) (h : Progress g s₀ s low past virt) :
    ∃ fuel s', freePages g past fuel virt s = some s' ∧ Progress g s₀ s' low past past := by
  obtain ⟨left, hleft⟩ : ∃ left, left = past - virt := ⟨_, rfl⟩
  induction left using Nat.strong_induction_on generalizing virt s with
  | _ left ih =>
    by_cases hlt : virt < past
    · have hturn : ∃ size s₁, freeOnePage g virt s = (size, s₁) ∧ 0 < size ∧
          Progress g s₀ s₁ low past (virt + size) := by
        rcases freeOnePage_cases g virt s with ⟨hone, hnone⟩ | ⟨p, t, i, hfound, hone⟩
        · exact ⟨4096, s, hone, by decide, h.skip hpast hlt hnone⟩
        · exact ⟨_, _, hone, (sizeAt_mod _).2, h.free hinside hlt hlimit hfound⟩
      obtain ⟨size, s₁, hone, hpos, hnext⟩ := hturn
      obtain ⟨fuel, s', hrun, hend⟩ := ih (past - (virt + size)) (by omega) hnext rfl
      refine ⟨fuel + 1, s', ?_, hend⟩
      have hbound := hnext.bounds.2
      rw [freePages, if_pos hlt, hone]
      change freePages g past fuel (wrap64 (virt + size)) s₁ = some s'
      rw [wrap64_of_lt (by omega), hrun]
    · have hsame : virt = past := Nat.le_antisymm h.bounds.2 (Nat.le_of_not_lt hlt)
      exact ⟨0, s, if_neg hlt, hsame ▸ h⟩

theorem Progress.start (hunshared : Radix.Unshared link s.memory g.pml4Table)
    (hvirt : virt % 4096 = 0) (hle : virt ≤ past) : Progress g s s virt past virt where
  bounds := ⟨Nat.le_refl _, hle⟩
  aligned := hvirt
  unmapped _ _ hge hlt := absurd hge (Nat.not_le_of_lt hlt)
  only _ := .inl rfl
  kept _ _ _ := rfl
  unshared := hunshared
  frames := ⟨[], rfl, rfl, fun _ hmem => absurd hmem List.not_mem_nil,
    fun _ _ hv hnone => absurd (hnone.symm.trans hv) nofun⟩

theorem Progress.unmapped_range (h : Progress g s₀ s' low past past)
    (hinside : PagesInside g s₀ low past) (v : Nat) (hle : low ≤ v) (hlt : v < past) :
    translate g s' v = none := by
  rcases h.only v with hsame | hnone
  · by_contra hmapped
    obtain ⟨translation, htranslation⟩ := Option.ne_none_iff_exists'.mp hmapped
    -- the canonical address of the same page has been unmapped
    obtain ⟨w, hw, hmod⟩ := exists_canonical v
    obtain ⟨hle', hlt'⟩ :=
      hinside v translation hle hlt (hsame.symm.trans htranslation) w hw (by rw [hmod])
    exact hmapped ((translate_none_iff (by rw [hmod])).mp (h.unmapped w hw hle' hlt'))
  · exact hnone

/-- A call that ends, leaves the range unmapped and keeps the rest has found no page that is only partly
in the range. -/
theorem pagesInside_of_freed {fuel : Nat}
    (hunmapped : ∀ v, virt ≤ v → v < past → translate g s' v = none)
    (hkept : ∀ v, Canonical v → ¬ (virt ≤ v ∧ v < past) → translate g s' v = translate g s v)
    (hrun : freePages g past fuel virt s = some s') : PagesInside g s virt past := by
  intro v translation hle hlt htranslation w hw hsame
  rcases freeOnePage_cases g v s with ⟨-, hnone⟩ | ⟨p, t, i, hfound, -⟩
  · cases htranslation.symm.trans hnone
  obtain ⟨_, hsome, hpage, -⟩ := hfound.translate
  obtain rfl := Option.some.inj (htranslation.symm.trans hsome)
  have hprefix : p ++ [i] <+: indices w := (hfound.page.2.2 w).mpr (hpage ▸ hsame)
  rcases freePages_found hrun hfound with hstays | hcut
  · obtain ⟨_, hmapped, -⟩ := hstays.translate
    cases hmapped.symm.trans (hunmapped v hle hlt)
  · by_contra hout
    obtain ⟨_, hmapped, -⟩ := (hfound.of_prefix hprefix).translate
    have hsame := hkept w hw hout
    rw [hcut w hprefix, hmapped] at hsame
    cases hsame

/-! ### The frames -/

section Narrowing

variable {g : PagingSetup (Option Physical)} {s₀ s s' : Paging (Option Physical)} {before : Physical}
  {events : List PagingEvent}

theorem IsFree.givesBack_iff {event : PagingEvent} {frame pageCount : Nat}
    (h : IsFree event frame pageCount) (hinside : Physical.InBitmap frame pageCount) (page : Nat) :
    event.GivesBack page ↔ toInt (frame / systemPageSize) ≤ page ∧
      page < toInt (frame / systemPageSize) + pageCount := by
  obtain ⟨rfl, hframe, hpos, hle⟩ := h
  have hpast := hinside.past
  have hend := Physical.toInt_past (hframe.2.trans (by decide)) hle (by omega) hinside.first
  have hgives : PagingEvent.GivesBack (.freed frame pageCount) page ↔
      toInt (frame / systemPageSize) ≤ page ∧
        page < toInt (wrap64 (frame / systemPageSize + pageCount)) := and_iff_right hframe.1
  rw [hgives, hend]

theorem IsFree.bit {event : PagingEvent} {frame pageCount : Nat} {p p' : Physical}
    (h : IsFree event frame pageCount) (hfree : p.freeFrameInt frame pageCount = some p')
    (page : Nat) : Physical.bit p'.bitmap page = true ↔
      Physical.bit p.bitmap page = true ∧ ¬ event.GivesBack page := by
  have hlt : frame < 2 ^ 64 := h.isFrame.2.trans (by decide)
  have hinside := Physical.inBitmap_of_freeFrameInt h.isFrame.1 hlt h.le hfree
  rw [Physical.freeFrameInt_eq h.isFrame.1 hlt h.pos h.le hinside] at hfree
  obtain rfl := Option.some.inj hfree
  have halign : (toInt (frame / systemPageSize)).toNat * systemPageSize % 4096 = 0 :=
    Nat.mul_mod_left _ 4096
  have hpage : (toInt (frame / systemPageSize)).toNat * systemPageSize / 4096 =
      (toInt (frame / systemPageSize)).toNat := Nat.mul_div_cancel _ (by decide)
  have hfirst := hinside.first
  rw [Physical.bit_freeFrame halign h.pos, h.givesBack_iff hinside, hpage]
  refine and_congr_right' (not_congr ?_)
  omega

/-- Calls that all stay in the bitmap clear the bits of the pages that they give back. -/
theorem exists_replayFrees (before : Physical)
    (hevents : ∀ event ∈ events, ∃ frame pageCount, IsFree event frame pageCount ∧
      Physical.InBitmap frame pageCount) :
    ∃ after, replayFrees narrowingAllocator events (some before) = some after ∧
      ∀ page, Physical.bit after.bitmap page = true ↔
        Physical.bit before.bitmap page = true ∧ ∀ event ∈ events, ¬ event.GivesBack page := by
  induction events with
  | nil => exact ⟨before, rfl, fun page => (and_iff_left nofun).symm⟩
  | cons event events ih =>
    rw [List.forall_mem_cons] at hevents
    obtain ⟨⟨frame, pageCount, hfree, hinside⟩, hrest⟩ := hevents
    obtain ⟨after, hafter, hbits⟩ := ih hrest
    have hlt : frame < 2 ^ 64 := hfree.isFrame.2.trans (by decide)
    obtain ⟨last, hcall⟩ : ∃ last, after.freeFrameInt frame pageCount = some last :=
      ⟨_, Physical.freeFrameInt_eq hfree.isFrame.1 hlt hfree.pos hfree.le hinside⟩
    refine ⟨last, ?_, fun page => ?_⟩
    · rw [hfree.eq, replayFrees, hafter]
      exact hcall
    · rw [hfree.bit hcall, hbits, List.forall_mem_cons, and_assoc,
        and_comm (a := ¬ event.GivesBack page)]

/-- None of the calls has missed the bitmap when it is still there. -/
theorem inBitmap_of_replayFrees {after : Physical}
    (hevents : ∀ event ∈ events, ∃ frame pageCount, IsFree event frame pageCount)
    (h : replayFrees narrowingAllocator events (some before) = some after) {frame pageCount : Nat}
    (hmem : .freed frame pageCount ∈ events) : Physical.InBitmap frame pageCount := by
  induction events generalizing after with
  | nil => cases hmem
  | cons event events ih =>
    rw [List.forall_mem_cons] at hevents
    obtain ⟨⟨frame', pageCount', hfree⟩, hrest⟩ := hevents
    rw [hfree.eq, replayFrees] at h
    obtain ⟨middle, hmiddle, hcall⟩ := Option.bind_eq_some_iff.mp h
    rcases List.mem_cons.mp hmem with hfirst | hlater
    · obtain ⟨rfl, rfl⟩ := PagingEvent.freed.inj (hfirst.trans hfree.eq)
      exact Physical.inBitmap_of_freeFrameInt hfree.isFrame.1 (hfree.isFrame.2.trans (by decide))
        hfree.le hcall
    · exact ih hrest hmiddle hlater

/-- The pages of a call for frames that back the range, when these are numbered well. -/
theorem FramesInside.of_free {event : PagingEvent} {frame pageCount : Nat}
    (h : FramesInside g s₀ low past) (hfree : IsFree event frame pageCount)
    (hbacked : ∀ x, frame ≤ x → x < frame + 4096 * pageCount →
      ∃ v t, low ≤ v ∧ v < past ∧ translate g s₀ v = some t ∧ t.physical = x) :
    Physical.InBitmap frame pageCount ∧ ∀ page, event.GivesBack page → Backs g s₀ low past page := by
  have hframe := hfree.isFrame
  have hpos := hfree.pos
  have hle := hfree.le
  have hpages : maxSystemMemoryPages = 16777216 := rfl
  -- The number of each frame, from the first on.
  have hnumber (j : Nat) (hj : j < pageCount) : ∃ page : Nat,
      toInt (frame / systemPageSize + j) = page ∧ page < maxSystemMemoryPages ∧
        Backs g s₀ low past page := by
    obtain ⟨v, t, hlow, hpast, htranslation, hphysical⟩ := hbacked (frame + 4096 * j) (by omega) (by omega)
    have hpage : t.physical / systemPageSize = frame / systemPageSize + j := by
      rw [hphysical]
      exact Nat.add_mul_div_left _ _ (by decide)
    exact hpage ▸ h v t hlow hpast htranslation
  obtain ⟨first, hfirst, hfirstLt, -⟩ := hnumber 0 hpos
  rw [Nat.add_zero] at hfirst
  have hsum (j : Nat) (hj : j < pageCount) : toInt (frame / systemPageSize + j) = (first + j : Nat) := by
    unfold toInt at hfirst ⊢
    split at hfirst <;> split <;> omega
  have hinside : Physical.InBitmap frame pageCount := by
    obtain ⟨last, hlast, hlastLt, -⟩ := hnumber (pageCount - 1) (by omega)
    have hlast' := (hsum _ (by omega)).symm.trans hlast
    exact ⟨by omega, by omega⟩
  refine ⟨hinside, fun page hpage => ?_⟩
  rw [hfree.givesBack_iff hinside, hfirst] at hpage
  obtain ⟨page', hnumber', -, hbacks⟩ := hnumber (page - first) (by omega)
  rw [hsum _ (by omega)] at hnumber'
  obtain rfl : page = page' := by omega
  exact hbacks

theorem Progress.freedExactly (hallocator : g.allocator = narrowingAllocator)
    (hbefore : s₀.frames = some before) (h : Progress g s₀ s' low past past)
    (hinside : PagesInside g s₀ low past) (hframes : FramesInside g s₀ low past) :
    FreedExactly g s₀ s' low past := by
  obtain ⟨events, hevents, hfrees⟩ := h.frames
  have hbacks : ∀ event ∈ events, ∀ page, event.GivesBack page → Backs g s₀ low past page := by
    intro event hmem
    obtain ⟨frame, pageCount, hfree, hbacked⟩ := hfrees.freed event hmem
    exact (hframes.of_free hfree hbacked).2
  obtain ⟨after, hafter, hbits⟩ := exists_replayFrees before fun event hmem => by
    obtain ⟨frame, pageCount, hfree, hbacked⟩ := hfrees.freed event hmem
    exact ⟨frame, pageCount, hfree, (hframes.of_free hfree hbacked).1⟩
  refine ⟨h.unmapped_range hinside, h.kept, ?_, before, after, hbefore, ?_, fun page hchanged => ?_⟩
  · rw [newEvents_eq hevents]
    exact hbacks
  · rw [hfrees.replayed, hallocator, hbefore, hafter]
  · by_contra hnone
    refine hchanged (Bool.eq_iff_iff.mpr ((hbits page).trans (and_iff_left ?_)))
    exact fun event hmem hgives => hnone (hbacks event hmem page hgives)

/-- A call that frees nothing else has narrowed no number of a frame to another. -/
theorem FreedExactly.framesInside (hallocator : g.allocator = narrowingAllocator)
    (h : FreedExactly g s₀ s' low past) (hprogress : Progress g s₀ s' low past past) :
    FramesInside g s₀ low past := by
  obtain ⟨events, hevents, hfrees⟩ := hprogress.frames
  obtain ⟨before, after, hbefore, hafter, -⟩ := h.bitmap
  have hreplayed := hfrees.replayed
  rw [hallocator, hbefore, hafter] at hreplayed
  have hkinds : ∀ event ∈ events, ∃ frame pageCount, IsFree event frame pageCount := by
    intro event hmem
    obtain ⟨frame, pageCount, hfree, -⟩ := hfrees.freed event hmem
    exact ⟨frame, pageCount, hfree⟩
  have hgiven := h.frames
  rw [newEvents_eq hevents] at hgiven
  intro v t hle hlt htranslation
  obtain ⟨frame, pageCount, hmem, hcovers, hend⟩ :=
    hfrees.lost v t htranslation (h.unmapped v hle hlt)
  have hinside := inBitmap_of_replayFrees hkinds hreplayed.symm hmem
  obtain ⟨frame', pageCount', hfree⟩ := hkinds _ hmem
  obtain ⟨rfl, rfl⟩ := PagingEvent.freed.inj hfree.eq
  have hframe := hfree.isFrame
  have hcount := hfree.le
  have hpages : maxSystemMemoryPages = 16777216 := rfl
  obtain ⟨first, hfirst⟩ := Int.eq_ofNat_of_zero_le hinside.first
  have hpast := hinside.past
  rw [hfirst] at hpast
  obtain ⟨j, hj, hpage⟩ : ∃ j < pageCount,
      t.physical / systemPageSize = frame / systemPageSize + j := by
    refine ⟨t.physical / systemPageSize - frame / systemPageSize, ?_, ?_⟩ <;>
      unfold systemPageSize <;> unfold IsFrame at hframe <;> omega
  have hnumber : toInt (t.physical / systemPageSize) = (first + j : Nat) := by
    rw [hpage]
    unfold toInt at hfirst ⊢
    split at hfirst <;> split <;> omega
  refine ⟨first + j, hnumber, by omega, hgiven _ hmem _ ?_⟩
  rw [hfree.givesBack_iff hinside, hfirst]
  omega

/-- **Exactness.** The call ends and unmaps the range, and nothing else, and frees what backed the range, and
nothing else, exactly when every page that is mapped in the range lies in it and has frames that are numbered
as frames of the range. -/
theorem freedExactly_iff (hallocator : g.allocator = narrowingAllocator)
    (hbefore : s.frames = some before) (hunshared : Radix.Unshared link s.memory g.pml4Table)
    (hvirt : virt % 4096 = 0) (hpast : past % 4096 = 0) (hle : virt ≤ past) (hlimit : past < 2 ^ 64) :
    (∃ fuel s', freeAllocated g fuel s virt past = some s' ∧ FreedExactly g s s' virt past) ↔
      PagesInside g s virt past ∧ FramesInside g s virt past := by
  have hstart := Progress.start hunshared hvirt hle
  constructor
  · rintro ⟨fuel, s', hrun, hexact⟩
    have hpages := (Option.ite_none_right_eq_some.mp hrun).2
    have hinside := pagesInside_of_freed hexact.unmapped hexact.kept hpages
    obtain ⟨fuel', s₁, hrun', hend⟩ := hstart.run hinside hpast hlimit
    obtain rfl := freePages_unique hpages hrun'
    exact ⟨hinside, hexact.framesInside hallocator hend⟩
  · rintro ⟨hinside, hframes⟩
    obtain ⟨fuel, s', hrun, hend⟩ := hstart.run hinside hpast hlimit
    exact ⟨fuel, s', (if_pos hvirt).trans hrun, hend.freedExactly hallocator hbefore hinside hframes⟩

end Narrowing

/-- A state of the tables, with the bitmap that frames of any number are freed in. -/
def narrowing (s : Paging Physical) : Paging (Option Physical) :=
  { s with frames := some s.frames }

def narrowingSetup (g : PagingSetup Physical) : PagingSetup (Option Physical) :=
  { g with allocator := narrowingAllocator }

theorem exists_largePage : ∃ s, mapPage2M loneSetup lonePml4 0x200000 0x400000 1 mapProtWrite = some s ∧
    Tree loneSetup s ∧ translate loneSetup s =
      FlatMap.mapOne 2097152 true mapProtWrite 0x200000 0x400000 fun _ => none := by
  have hserved : Served lonePml4 (mapOnePage2M loneSetup mapProtWrite 0x200000 0x400000 lonePml4) := by
    decide
  have hnone : translate loneSetup lonePml4 = fun _ => none := funext translate_lonePml4
  have hsmall : NotInside 2097152 (translate loneSetup lonePml4) 0x400000 :=
    notInside_of_none (translate_lonePml4 _)
  obtain ⟨htree, htranslate⟩ :=
    tree_lonePml4.mapOnePage2M (by decide) (by decide) hsmall hserved
  exact ⟨_, rfl, htree, hnone ▸ htranslate⟩

theorem freedExactly_largePage :
    ∃ s, mapPage2M loneSetup lonePml4 0x200000 0x400000 1 mapProtWrite = some s ∧
      ∃ fuel s', freeAllocated (narrowingSetup loneSetup) fuel (narrowing s) 0x400000 0x600000 =
          some s' ∧
        FreedExactly (narrowingSetup loneSetup) (narrowing s) s' 0x400000 0x600000 := by
  obtain ⟨s, hs, htree, htranslate⟩ := exists_largePage
  refine ⟨s, hs, (freedExactly_iff (g := narrowingSetup loneSetup) (s := narrowing s) rfl rfl
    htree.unshared (by decide) (by decide) (by decide) (by decide)).mpr ?_⟩
  have hmapped (v : Nat) (t : Translation)
      (ht : translate (narrowingSetup loneSetup) (narrowing s) v = some t) :
      t = asked 2097152 0x200000 true mapProtWrite v := by
    have ht' : translate loneSetup s v = some t := ht
    rw [htranslate] at ht'
    exact (Option.some.inj (Option.ite_none_right_eq_some.mp ht').2).symm
  constructor
  · intro v t hlow hhigh ht w hw hsame
    have hsize : t.pageSize = 2097152 := congrArg Translation.pageSize (hmapped v t ht)
    rw [hsize] at hsame
    unfold Canonical at hw
    omega
  · intro v t hlow hhigh ht
    have hphysical : t.physical = 0x200000 + v % 2097152 :=
      congrArg Translation.physical (hmapped v t ht)
    have hpage : t.physical / systemPageSize < 2 ^ 12 := by
      unfold systemPageSize
      omega
    exact ⟨_, toInt_of_lt (hpage.trans (by decide)), hpage.trans (by decide), v, t, hlow, hhigh, ht, rfl⟩

theorem not_freedExactly_largePage :
    ∃ s, mapPage2M loneSetup lonePml4 0x200000 0x400000 1 mapProtWrite = some s ∧
      ¬ ∃ fuel s', freeAllocated (narrowingSetup loneSetup) fuel (narrowing s) 0x401000 0x402000 =
          some s' ∧
        FreedExactly (narrowingSetup loneSetup) (narrowing s) s' 0x401000 0x402000 := by
  obtain ⟨s, hs, -, htranslate⟩ := exists_largePage
  refine ⟨s, hs, ?_⟩
  rintro ⟨fuel, s', hrun, hexact⟩
  have hinside := pagesInside_of_freed hexact.unmapped hexact.kept
    (Option.ite_none_right_eq_some.mp hrun).2
  have hmapped : translate (narrowingSetup loneSetup) (narrowing s) 0x401000 =
      some (asked 2097152 0x200000 true mapProtWrite 0x401000) := by
    change translate loneSetup s 0x401000 = _
    rw [htranslate]
    exact if_pos (by decide)
  obtain ⟨hlow, -⟩ := hinside 0x401000 _ (by decide) (by decide) hmapped 0x400000 (.inl (by decide)) rfl
  exact absurd hlow (by decide)

end Paging

end Helos
