import Helos.Memory.PageTable

/-!
# The tables as a tree

The tables are the frames that were allocated for them and not freed since, and no two paths lead to
one table. One level of the descent keeps this and every translation, and the entry written at its
end changes the translations of one page.
-/

namespace Helos

/-- A translation for every address: what the tables stand for. -/
abbrev FlatMap := Nat → Option Translation

def FlatMap.mapOne (size : Nat) (supportExecuteDisable : Bool) (flags : BitVec 32)
    (physical virt : Nat) (f : FlatMap) : FlatMap := fun v =>
  if v % 2 ^ 48 / size = virt % 2 ^ 48 / size then
    some (Translation.asked size physical supportExecuteDisable flags v)
  else f v

namespace Paging

open PageEntry Translation

/-- An entry that is a link allows everything, and one of the two upper levels is a link when it is
present. -/
def EntryProper (d e : Nat) : Prop :=
  (link d e ≠ none → Permissive e) ∧ (d ≤ 1 → Present e → link d e ≠ none)

theorem link_zero (d : Nat) : link d 0 = none := by
  match d with
  | 0 | 1 | 2 | _ + 3 => rfl

theorem entryProper_zero (d : Nat) : EntryProper d 0 :=
  ⟨fun h => absurd (link_zero d) h, fun _ h => absurd rfl h⟩

theorem entryProper_table {d frame : Nat} (h : IsFrame frame) (hd : d ≤ 2) :
    EntryProper d (PageEntry.table frame) := by
  refine ⟨fun _ => ⟨writeable_table h, not_executeDisable_table h⟩, fun _ _ => ?_⟩
  rw [link_table h hd]
  exact Option.some_ne_none frame

theorem entryProper_leaf {d e : Nat} (h : link d e = none) (hd : 2 ≤ d) : EntryProper d e :=
  ⟨fun hne => absurd h hne, fun hle => absurd hd (by omega)⟩

theorem link_eq_some {d e c : Nat} (h : link d e = some c) :
    Present e ∧ c = e &&& pmlAddrMask ∧ d ≤ 2 := by
  match d with
  | 0 =>
    rw [link, Option.ite_none_right_eq_some] at h
    exact ⟨h.1, (Option.some.inj h.2).symm, by decide⟩
  | 1 | 2 =>
    rw [link, Option.ite_none_right_eq_some] at h
    exact ⟨h.1.1, (Option.some.inj h.2).symm, by decide⟩
  | _ + 3 => cases h

theorem link_of_not_present {d e : Nat} (h : ¬ Present e) : link d e = none := by
  rw [Option.eq_none_iff_forall_not_mem]
  intro c hc
  exact h (link_eq_some hc).1

theorem link_leaf_pageSize (supportExecuteDisable : Bool) (flags : BitVec 32) (physical : Nat) :
    link 2 (leaf pmlPageSize supportExecuteDisable physical flags) = none := by
  rw [link, if_neg]
  rintro ⟨-, hnot⟩
  exact hnot pageSize_leaf

/-! ### The record of events -/

section Events

variable {pml4Table : Nat} {events earlier : List PagingEvent}

theorem Supplied.of_cons {event : PagingEvent} (h : Supplied pml4Table (event :: events)) :
    Supplied pml4Table events := by
  match event, h with
  | .allocated (some _), h => exact h.2.2
  | .freed _ _, h => exact h
  | .flushed _, h => exact h

theorem Supplied.of_suffix (h : Supplied pml4Table events) (hsuffix : earlier <:+ events) :
    Supplied pml4Table earlier := by
  obtain ⟨recent, rfl⟩ := hsuffix
  induction recent with
  | nil => exact h
  | cons event recent ih => exact ih h.of_cons

end Events

variable {σ : Type} {g : PagingSetup σ} {s : Paging σ} {t i e : Nat} {p q : List Nat}

/-- The table of an entry that is a link is there already. -/
theorem nextTable_of_link {d c : Nat} (hlink : link d (s.memory t i) = some c) :
    nextTable g s t i = (c, s) := by
  obtain ⟨hpresent, hc, -⟩ := link_eq_some hlink
  unfold nextTable
  rw [if_neg hpresent, hc]

/-- All that one level of the descent can do. A frame that could not be had is linked in as 0. -/
theorem nextTable_cases (g : PagingSetup σ) (s : Paging σ) (t i : Nat) :
    (Present (s.memory t i) ∧ nextTable g s t i = (s.memory t i &&& pmlAddrMask, s)) ∨
      (¬ Present (s.memory t i) ∧ ∃ frames, g.allocator.allocate s.frames = (none, frames) ∧
        nextTable g s t i = (PageEntry.table 0 &&& pmlAddrMask,
          { frames
            memory := Radix.write s.memory t i (PageEntry.table 0)
            events := .allocated none :: s.events })) ∨
      (¬ Present (s.memory t i) ∧ ∃ frame frames,
        g.allocator.allocate s.frames = (some frame, frames) ∧
        nextTable g s t i = (PageEntry.table frame &&& pmlAddrMask,
          { frames
            memory := Radix.graft s.memory t i (PageEntry.table frame) frame 0
            events := .allocated (some frame) :: s.events })) := by
  unfold nextTable allocateOneFrame setEntry Present
  by_cases hzero : s.memory t i &&& pmlPresent = 0
  · rw [if_pos hzero]
    rcases halloc : g.allocator.allocate s.frames with ⟨found, frames⟩
    cases found with
    | none =>
      refine .inr (.inl ⟨not_not_intro hzero, frames, rfl, ?_⟩)
      simp only [Radix.write_self]
    | some frame =>
      refine .inr (.inr ⟨not_not_intro hzero, frame, frames, rfl, ?_⟩)
      simp only [Radix.write_self, Radix.graft]
  · rw [if_neg hzero]
    exact .inl ⟨hzero, rfl⟩

theorem permissive_trail
    (hlinks : ∀ q x j, Radix.find link s.memory 0 g.pml4Table q = some x →
      link q.length (s.memory x j) ≠ none → Permissive (s.memory x j))
    (hp : Radix.find link s.memory 0 g.pml4Table p = some t) :
    ∀ e ∈ Radix.trail link s.memory 0 g.pml4Table p, Permissive e := by
  intro e he
  obtain ⟨q, j, x, hq, rfl, hlink⟩ := Radix.trail_links hp e he
  rw [Nat.zero_add] at hlink
  exact hlinks q x j hq hlink

theorem nextTable_events (g : PagingSetup σ) (s : Paging σ) (t i : Nat) :
    s.events <:+ (nextTable g s t i).2.events := by
  obtain ⟨-, hnext⟩ | ⟨-, frames, -, hnext⟩ | ⟨-, frame, frames, -, hnext⟩ := nextTable_cases g s t i
  · rw [hnext]
  · rw [hnext]
    exact List.suffix_cons _ _
  · rw [hnext]
    exact List.suffix_cons _ _

/-! ### The invariant -/

structure Sound (g : PagingSetup σ) (s : Paging σ) : Prop where
  unshared : Radix.Unshared link s.memory g.pml4Table
  tables : ∀ t, Radix.IsTable link s.memory g.pml4Table t ↔ t ∈ tableFrames g.pml4Table s.events
  frames : ∀ t ∈ tableFrames g.pml4Table s.events, IsFrame t
  entries : ∀ p t i, Radix.find link s.memory 0 g.pml4Table p = some t →
    EntryProper p.length (s.memory t i)

namespace Sound

theorem permissive_trail (h : Sound g s)
    (hp : Radix.find link s.memory 0 g.pml4Table p = some t) :
    ∀ e ∈ Radix.trail link s.memory 0 g.pml4Table p, Permissive e :=
  Paging.permissive_trail (fun q x j hq => (h.entries q x j hq).1) hp

/-- What a walk makes of an entry that is no link. -/
theorem translate_eq (hp : Radix.find link s.memory 0 g.pml4Table p = some t)
    (hlink : link p.length (s.memory t i) = none) {v : Nat} (hv : p ++ [i] <+: indices v) :
    translate g s v =
      ofTrail v (Radix.trail link s.memory 0 g.pml4Table p ++ [s.memory t i]) := by
  obtain ⟨r, hr⟩ := hv
  unfold translate
  rw [← hr, List.append_assoc, List.singleton_append, Radix.trail_append hp, Radix.trail_cons,
    Nat.zero_add, hlink]
  rfl

theorem initial (hframe : IsFrame g.pml4Table) (hempty : ∀ i, s.memory g.pml4Table i = 0)
    (hevents : s.events = []) : Sound g s := by
  have hroot {p : List Nat} {t : Nat}
      (hp : Radix.find link s.memory 0 g.pml4Table p = some t) : p = [] ∧ t = g.pml4Table :=
    Radix.find_of_empty link_zero hempty hp
  refine ⟨fun p q t hp hq => ?_, fun t => ?_, ?_, fun p t i hp => ?_⟩
  · rw [(hroot hp).1, (hroot hq).1]
  · rw [hevents, tableFrames, Finset.mem_singleton]
    constructor
    · rintro ⟨p, hp⟩
      exact (hroot hp).2
    · rintro rfl
      exact ⟨[], rfl⟩
  · rw [hevents, tableFrames]
    intro t ht
    rwa [Finset.mem_singleton.mp ht]
  · rw [(hroot hp).2, hempty]
    exact entryProper_zero _

theorem translate_initial (hempty : ∀ i, s.memory g.pml4Table i = 0) (v : Nat) :
    translate g s v = none := by
  have hroot : Radix.find link s.memory 0 g.pml4Table [] = some g.pml4Table := rfl
  have hlink : link ([] : List Nat).length (s.memory g.pml4Table (takeBitfield v 47 39)) = none := by
    rw [hempty]
    exact link_zero _
  rw [translate_eq hroot hlink ⟨_, rfl⟩, hempty]
  exact ofTrail_of_absent fun h => h rfl

end Sound

/-! ### One level of the descent -/

/-- Tables may have come, but none has gone, and every translation is as before. -/
structure Grown (g : PagingSetup σ) (s s' : Paging σ) : Prop where
  sound : Sound g s'
  find : ∀ q x, Radix.find link s.memory 0 g.pml4Table q = some x →
    Radix.find link s'.memory 0 g.pml4Table q = some x
  translate : translate g s' = translate g s

theorem Grown.trans {s₁ s₂ s₃ : Paging σ} (h : Grown g s₁ s₂) (h' : Grown g s₂ s₃) :
    Grown g s₁ s₃ :=
  ⟨h'.sound, fun q x hx => h'.find q x (h.find q x hx), h'.translate.trans h.translate⟩

/-- An empty table that is linked in changes no translation: no page is mapped there, before or
after. -/
theorem translate_graft {frame : Nat} {frames : σ} {events : List PagingEvent}
    (hgraft : Radix.Graftable link s.memory g.pml4Table t p i e frame 0)
    (habsent : ¬ Present (s.memory t i)) (hlength : p.length ≤ 2) :
    translate g { frames, memory := Radix.graft s.memory t i e frame 0, events } = translate g s := by
  funext w
  unfold translate
  by_cases hw : p ++ [i] <+: indices w
  · obtain ⟨r, hr⟩ := hw
    have hsize : (p ++ [i] ++ r).length = 4 := by
      rw [hr]
      rfl
    rw [List.append_assoc, List.singleton_append] at hr
    match r, hsize with
    | [], hsize =>
      simp only [List.append_nil, List.length_append, List.length_singleton] at hsize
      omega
    | j :: r, _ =>
      rw [← hr, hgraft.trail_after, hgraft.trail_before, ofTrail_of_absent habsent,
        List.append_cons]
      exact ofTrail_of_absent fun hzero => hzero rfl
  · rw [hgraft.trail_off hw]

section Descent

variable (h : Sound g s) (hp : Radix.find link s.memory 0 g.pml4Table p = some t)
  (hlength : p.length ≤ 2)

include h hp hlength

/-- A fresh frame that is linked in at an entry which was not present. -/
theorem Sound.graft {frame : Nat} {frames : σ} (habsent : ¬ Present (s.memory t i))
    (hframe : IsFrame frame) (hfresh : frame ∉ tableFrames g.pml4Table s.events) :
    let s' : Paging σ :=
      { frames
        memory := Radix.graft s.memory t i (PageEntry.table frame) frame 0
        events := .allocated (some frame) :: s.events }
    Grown g s s' ∧ Radix.find link s'.memory 0 g.pml4Table (p ++ [i]) = some frame := by
  have hgraft : Radix.Graftable link s.memory g.pml4Table t p i (PageEntry.table frame) frame 0 :=
    ⟨h.unshared, hp, (h.tables frame).not.mpr hfresh, link_of_not_present habsent,
      link_table hframe hlength, link_zero⟩
  refine ⟨⟨⟨hgraft.grafted, fun x => ?_, fun x hx => ?_, fun q x j hx => ?_⟩,
    fun q x hx => hgraft.find_old hx, ?_⟩, hgraft.find_new⟩
  · rw [hgraft.isTable_iff, h.tables, tableFrames, Finset.mem_insert]
  · rw [tableFrames, Finset.mem_insert] at hx
    rcases hx with rfl | hx
    · exact hframe
    · exact h.frames x hx
  · rcases hgraft.entry (j := j) hx with ⟨rfl, rfl, hentry⟩ | hentry | ⟨hold, hentry⟩
    · simp only [hentry]
      exact entryProper_table hframe hlength
    · simp only [hentry]
      exact entryProper_zero _
    · simp only [hentry]
      exact h.entries q x j hold
  · exact translate_graft hgraft habsent hlength

theorem Sound.nextTable (hlink : Present (s.memory t i) → link p.length (s.memory t i) ≠ none)
    (hsupplied : Supplied g.pml4Table (nextTable g s t i).2.events) :
    Grown g s (nextTable g s t i).2 ∧
      Radix.find link (nextTable g s t i).2.memory 0 g.pml4Table (p ++ [i]) =
        some (nextTable g s t i).1 := by
  obtain ⟨hpresent, -⟩ | ⟨-, frames, -, hnext⟩ | ⟨habsent, frame, frames, -, hnext⟩ :=
    nextTable_cases g s t i
  · obtain ⟨c, hc⟩ := Option.ne_none_iff_exists'.mp (hlink hpresent)
    rw [nextTable_of_link hc]
    refine ⟨⟨h, fun q x hx => hx, rfl⟩, ?_⟩
    rw [Radix.find_snoc hp, Nat.zero_add, hc]
  · rw [hnext] at hsupplied
    exact hsupplied.elim
  · rw [hnext] at hsupplied ⊢
    obtain ⟨hframe, hfresh, -⟩ := hsupplied
    rw [table_and_addrMask hframe]
    exact h.graft hp hlength habsent hframe hfresh

end Descent

/-! ### The entry at the end -/

theorem translate_write {s' : Paging σ}
    (hcut : Radix.Cuttable link s.memory g.pml4Table t p e)
    (hmemory : s'.memory = Radix.write s.memory t i e) (w : Nat) :
    translate g s' w =
      if p ++ [i] <+: indices w then
        ofTrail w (Radix.trail link s.memory 0 g.pml4Table p ++ [e])
      else translate g s w := by
  unfold translate
  rw [hmemory]
  split
  · next hw =>
    obtain ⟨r, hr⟩ := hw
    rw [← hr, List.append_assoc, List.singleton_append, hcut.trail_after]
  · next hw => rw [hcut.trail_off hw]

section Leaf

variable (h : Sound g s) (hp : Radix.find link s.memory 0 g.pml4Table p = some t)
  (hleaf : link p.length e = none)

include h hp hleaf

theorem Sound.cuttable : Radix.Cuttable link s.memory g.pml4Table t p e := ⟨h.unshared, hp, hleaf⟩

theorem Sound.entries_setEntry (hlength : 2 ≤ p.length) {q : List Nat} {x : Nat} (j : Nat)
    (hx : Radix.find link (s.setEntry t i e).memory 0 g.pml4Table q = some x) :
    EntryProper q.length ((s.setEntry t i e).memory x j) := by
  rcases (h.cuttable hp hleaf).entry (j := j) hx with ⟨rfl, rfl, hentry⟩ | ⟨hold, hentry⟩
  · unfold setEntry
    simp only [hentry]
    exact entryProper_leaf hleaf hlength
  · unfold setEntry
    simp only [hentry]
    exact h.entries q x j hold

theorem Sound.translate_setEntry (w : Nat) :
    translate g (s.setEntry t i e) w =
      if p ++ [i] <+: indices w then
        ofTrail w (Radix.trail link s.memory 0 g.pml4Table p ++ [e])
      else translate g s w :=
  translate_write (h.cuttable hp hleaf) rfl w

theorem Sound.setEntry (hold : link p.length (s.memory t i) = none) (hlength : 2 ≤ p.length) :
    Sound g (s.setEntry t i e) := by
  refine ⟨(h.cuttable hp hleaf).cut, fun x => ?_, h.frames,
    fun q x j hx => h.entries_setEntry hp hleaf hlength j hx⟩
  rw [show (s.setEntry t i e).events = s.events from rfl, ← h.tables x]
  constructor
  · rintro ⟨q, hq⟩
    exact ⟨q, ((h.cuttable hp hleaf).find_iff.mp hq).2⟩
  · rintro ⟨q, hq⟩
    refine ⟨q, (h.cuttable hp hleaf).find_iff.mpr ⟨?_, hq⟩⟩
    rintro ⟨r, rfl⟩
    rw [Radix.find_append, Radix.find_snoc hp, Nat.zero_add, hold] at hq
    cases hq

/-- The entry linked to a table without tables below it, which is freed. -/
theorem Sound.replace {c : Nat} {s' : Paging σ} (hold : link 2 (s.memory t i) = some c)
    (hlength : p.length = 2) (hmemory : s'.memory = s.memory)
    (hevents : s'.events = .freed c 1 :: s.events) : Sound g (s'.setEntry t i e) := by
  have hcut := h.cuttable hp hleaf
  have hmemory' : (s'.setEntry t i e).memory = (s.setEntry t i e).memory := by
    unfold Paging.setEntry
    simp only [hmemory]
  have hc : Radix.find link s.memory 0 g.pml4Table (p ++ [i]) = some c := by
    rw [Radix.find_snoc hp, Nat.zero_add, hlength, hold]
  have hcframe : IsFrame c := h.frames c ((h.tables c).mp ⟨_, hc⟩)
  have hevents' : (s'.setEntry t i e).events = .freed c 1 :: s.events := hevents
  refine ⟨?_, fun x => ?_, fun x hx => ?_, fun q x j hx => ?_⟩
  · rw [hmemory']
    exact hcut.cut
  · rw [hmemory', hevents', tableFrames, Finset.mem_filter, ← h.tables x]
    constructor
    · rintro ⟨q, hq⟩
      obtain ⟨hnot, hx⟩ := hcut.find_iff.mp hq
      have hxframe : IsFrame x := h.frames x ((h.tables x).mp ⟨q, hx⟩)
      have hne : x ≠ c := by
        rintro rfl
        obtain rfl := h.unshared _ _ _ hc hx
        exact hnot (List.prefix_refl _)
      refine ⟨⟨q, hx⟩, ?_⟩
      have hx4096 := hxframe.1
      have hc4096 := hcframe.1
      omega
    · rintro ⟨⟨q, hx⟩, hapart⟩
      refine ⟨q, hcut.find_iff.mpr ⟨?_, hx⟩⟩
      rintro ⟨r, rfl⟩
      -- only `c` itself is below the entry
      rw [Radix.find_append, hc, Option.bind_some] at hx
      cases r with
      | nil =>
        cases hx
        omega
      | cons j r =>
        rw [Radix.find_cons, List.length_append, hlength] at hx
        cases hx
  · rw [hevents', tableFrames, Finset.mem_filter] at hx
    exact h.frames x hx.1
  · rw [hmemory'] at hx ⊢
    exact h.entries_setEntry hp hleaf (Nat.le_of_eq hlength.symm) j hx

end Leaf

/-! ### One page -/

section Page

variable {flags : BitVec 32} {physical virt : Nat}

/-- The address is not in a 2 MiB page. -/
def NotLarge (f : FlatMap) (v : Nat) : Prop := ∀ t, f v = some t → t.pageSize ≠ 2097152

theorem Sound.link_of_present (h : Sound g s)
    (hp : Radix.find link s.memory 0 g.pml4Table p = some t) (hlength : p.length ≤ 1) :
    Present (s.memory t i) → link p.length (s.memory t i) ≠ none :=
  (h.entries p t i hp).2 hlength

/-- In the third level an entry is a link unless it is a large page. -/
theorem Sound.link_of_notLarge (h : Sound g s)
    (hp : Radix.find link s.memory 0 g.pml4Table p = some t) (hlength : p.length = 2)
    (hv : p ++ [i] <+: indices virt) (hsmall : NotLarge (translate g s) virt) :
    Present (s.memory t i) → link p.length (s.memory t i) ≠ none := by
  intro hpresent hlink
  have htrail : (Radix.trail link s.memory 0 g.pml4Table p).length = 2 := by
    rw [Radix.length_trail hp, hlength]
  have htranslate := Sound.translate_eq hp hlink hv
  rw [ofTrail_concat (h.permissive_trail hp), if_pos hpresent, htrail] at htranslate
  exact hsmall _ htranslate rfl

theorem Sound.flush (h : Sound g s) : Sound g (s.flushTlbSingle virt) :=
  ⟨h.unshared, h.tables, h.frames, h.entries⟩

@[simp] theorem translate_flush : translate g (s.flushTlbSingle virt) = translate g s := rfl

theorem prefix_indices_iff {v w : Nat} : indices v <+: indices w ↔ indices v = indices w := by
  rw [List.prefix_iff_eq_take]
  rfl

section Descent

variable {t₁ t₂ : Nat} {s₁ s₂ : Paging σ}
  (h₁ : Paging.nextTable g s g.pml4Table (takeBitfield virt 47 39) = (t₁, s₁))
  (h₂ : Paging.nextTable g s₁ t₁ (takeBitfield virt 38 30) = (t₂, s₂))

include h₁ h₂

theorem descend_events : s.events <:+ s₂.events := by
  have hfirst := nextTable_events g s g.pml4Table (takeBitfield virt 47 39)
  have hsecond := nextTable_events g s₁ t₁ (takeBitfield virt 38 30)
  rw [h₁] at hfirst
  rw [h₂] at hsecond
  exact hfirst.trans hsecond

/-- The two levels that all pages share. -/
theorem Sound.descend (h : Sound g s) (hsupplied : Supplied g.pml4Table s₂.events) :
    Grown g s s₂ ∧
      Radix.find link s₂.memory 0 g.pml4Table [takeBitfield virt 47 39, takeBitfield virt 38 30] =
        some t₂ := by
  have hroot : Radix.find link s.memory 0 g.pml4Table [] = some g.pml4Table := rfl
  have hevents := nextTable_events g s₁ t₁ (takeBitfield virt 38 30)
  rw [h₂] at hevents
  have hfirst := h.nextTable (i := takeBitfield virt 47 39) hroot (Nat.zero_le 2)
    (h.link_of_present hroot (Nat.zero_le 1))
  rw [h₁] at hfirst
  obtain ⟨hgrown₁, hfind₁⟩ := hfirst (hsupplied.of_suffix hevents)
  have hsecond := hgrown₁.sound.nextTable (i := takeBitfield virt 38 30) hfind₁ (by decide : 1 ≤ 2)
    (hgrown₁.sound.link_of_present hfind₁ (Nat.le_refl 1))
  rw [h₂] at hsecond
  obtain ⟨hgrown₂, hfind₂⟩ := hsecond hsupplied
  exact ⟨hgrown₁.trans hgrown₂, hfind₂⟩

end Descent

theorem mapOnePage_events (g : PagingSetup σ) (flags : BitVec 32) (physical virt : Nat)
    (s : Paging σ) : s.events <:+ (mapOnePage g flags physical virt s).events := by
  rcases h₁ : nextTable g s g.pml4Table (takeBitfield virt 47 39) with ⟨t₁, s₁⟩
  rcases h₂ : nextTable g s₁ t₁ (takeBitfield virt 38 30) with ⟨t₂, s₂⟩
  rcases h₃ : nextTable g s₂ t₂ (takeBitfield virt 29 21) with ⟨t₃, s₃⟩
  have hevents := nextTable_events g s₂ t₂ (takeBitfield virt 29 21)
  rw [h₃] at hevents
  simp only [mapOnePage, h₁, h₂, h₃]
  exact ((descend_events h₁ h₂).trans hevents).trans (List.suffix_cons _ _)

theorem Sound.mapOnePage (h : Sound g s) (hphysical : IsFrame physical)
    (hsmall : NotLarge (translate g s) virt)
    (hsupplied : Supplied g.pml4Table (mapOnePage g flags physical virt s).events) :
    Sound g (mapOnePage g flags physical virt s) ∧
      translate g (Paging.mapOnePage g flags physical virt s) =
        FlatMap.mapOne 4096 g.supportExecuteDisable flags physical virt (translate g s) := by
  rcases h₁ : Paging.nextTable g s g.pml4Table (takeBitfield virt 47 39) with ⟨t₁, s₁⟩
  rcases h₂ : Paging.nextTable g s₁ t₁ (takeBitfield virt 38 30) with ⟨t₂, s₂⟩
  rcases h₃ : Paging.nextTable g s₂ t₂ (takeBitfield virt 29 21) with ⟨t₃, s₃⟩
  have hevents := nextTable_events g s₂ t₂ (takeBitfield virt 29 21)
  rw [h₃] at hevents
  simp only [Paging.mapOnePage, h₁, h₂, h₃] at hsupplied ⊢
  have hsupplied₃ : Supplied g.pml4Table s₃.events := hsupplied.of_cons
  obtain ⟨hgrown₂, hfind₂⟩ := h.descend h₁ h₂ (hsupplied₃.of_suffix hevents)
  have hthird := hgrown₂.sound.nextTable (i := takeBitfield virt 29 21) hfind₂ (Nat.le_refl 2)
    (hgrown₂.sound.link_of_notLarge hfind₂ rfl ⟨_, rfl⟩ (hgrown₂.translate ▸ hsmall))
  rw [h₃] at hthird
  obtain ⟨hgrown₃, hfind₃⟩ := hthird hsupplied₃
  have hleaf : link 3 (leaf 0 g.supportExecuteDisable physical flags) = none := rfl
  refine ⟨(hgrown₃.sound.setEntry hfind₃ hleaf rfl (by decide : 2 ≤ 3)).flush, ?_⟩
  rw [translate_flush]
  funext w
  rw [hgrown₃.sound.translate_setEntry hfind₃ hleaf,
    ofTrail_page (hgrown₃.sound.permissive_trail hfind₃) (Radix.length_trail hfind₃) hphysical,
    hgrown₃.translate, hgrown₂.translate]
  unfold FlatMap.mapOne
  change (if indices virt <+: indices w then _ else _) = _
  simp only [prefix_indices_iff, indices_eq_iff, eq_comm]

theorem mapOnePage2M_events (g : PagingSetup σ) (flags : BitVec 32) (physical virt : Nat)
    (s : Paging σ) : s.events <:+ (mapOnePage2M g flags physical virt s).events := by
  rcases h₁ : nextTable g s g.pml4Table (takeBitfield virt 47 39) with ⟨t₁, s₁⟩
  rcases h₂ : nextTable g s₁ t₁ (takeBitfield virt 38 30) with ⟨t₂, s₂⟩
  simp only [mapOnePage2M, h₁, h₂]
  apply (descend_events h₁ h₂).trans
  split
  · exact ⟨[_, _], rfl⟩
  · exact List.suffix_cons _ _

theorem Sound.mapOnePage2M (h : Sound g s) (halign : physical % 2097152 = 0)
    (hphysical : physical < 2 ^ 52)
    (hsupplied : Supplied g.pml4Table (mapOnePage2M g flags physical virt s).events) :
    Sound g (Paging.mapOnePage2M g flags physical virt s) ∧
      translate g (Paging.mapOnePage2M g flags physical virt s) =
        FlatMap.mapOne 2097152 g.supportExecuteDisable flags physical virt (translate g s) := by
  rcases h₁ : Paging.nextTable g s g.pml4Table (takeBitfield virt 47 39) with ⟨t₁, s₁⟩
  rcases h₂ : Paging.nextTable g s₁ t₁ (takeBitfield virt 38 30) with ⟨t₂, s₂⟩
  simp only [Paging.mapOnePage2M, h₁, h₂] at hsupplied ⊢
  have hsupplied₂ : Supplied g.pml4Table s₂.events := by
    have hrest := hsupplied.of_cons
    split at hrest
    · exact hrest.of_cons
    · exact hrest
  obtain ⟨hgrown, hfind⟩ := h.descend h₁ h₂ hsupplied₂
  have hleaf := link_leaf_pageSize g.supportExecuteDisable flags physical
  have htranslate (w : Nat) :
      translate g (s₂.setEntry t₂ (takeBitfield virt 29 21)
        (leaf pmlPageSize g.supportExecuteDisable physical flags)) w =
        FlatMap.mapOne 2097152 g.supportExecuteDisable flags physical virt (translate g s) w := by
    rw [hgrown.sound.translate_setEntry hfind hleaf,
      ofTrail_page2M (hgrown.sound.permissive_trail hfind) (Radix.length_trail hfind) halign
        hphysical, hgrown.translate]
    unfold FlatMap.mapOne
    simp only [← indices_take_eq_iff, eq_comm (a := (indices w).take 3), List.prefix_iff_eq_take]
    rfl
  by_cases htable : s₂.memory t₂ (takeBitfield virt 29 21) &&& pmlPresent ≠ 0 ∧
      s₂.memory t₂ (takeBitfield virt 29 21) &&& pmlPageSize = 0
  · rw [if_pos htable]
    have hlink : link 2 (s₂.memory t₂ (takeBitfield virt 29 21)) =
        some (s₂.memory t₂ (takeBitfield virt 29 21) &&& pmlAddrMask) :=
      if_pos ⟨htable.1, not_not.mpr htable.2⟩
    have hsound : Sound g ((freeFrame g s₂
        (s₂.memory t₂ (takeBitfield virt 29 21) &&& pmlAddrMask) 1).setEntry t₂
          (takeBitfield virt 29 21) (leaf pmlPageSize g.supportExecuteDisable physical flags)) :=
      hgrown.sound.replace hfind hleaf hlink rfl rfl rfl
    exact ⟨hsound.flush, funext htranslate⟩
  · rw [if_neg htable]
    have hlink : link 2 (s₂.memory t₂ (takeBitfield virt 29 21)) = none :=
      if_neg fun hpresent => htable ⟨hpresent.1, not_not.mp hpresent.2⟩
    exact ⟨(hgrown.sound.setEntry hfind hleaf hlink (Nat.le_refl 2)).flush, funext htranslate⟩

end Page

end Paging

end Helos
