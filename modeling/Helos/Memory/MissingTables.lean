import Helos.Memory.AllocateEnds
import Mathlib.Algebra.BigOperators.Intervals

/-!
# The tables of a long allocation

`paging_map_PageAllocated` takes its frames by buffers. What is left for a buffer is what the pages before
it and their tables did not take. In a tree of tables these tables are those that the pages go through
and that are not there at the call, each of them once.
-/

namespace Helos

open PageEntry

theorem Physical.card_clearAhead {p : Physical} {pageCount : Nat} (h : pageCount ≤ p.clearAhead.card) :
    p.clearAhead.card = (p.allocateFrames pageCount).1.clearAhead.card + pageCount := by
  induction pageCount generalizing p with
  | zero => rfl
  | succ pageCount ih =>
    rw [allocateFrames]
    split
    · next q hone =>
      rw [(allocateFrame_none hone).1] at h
      exact absurd h (Nat.not_succ_le_zero pageCount)
    · next q addr hone =>
      obtain ⟨hmem, hahead, -⟩ := allocateFrame_some hone
      have hcard : q.clearAhead.card + 1 = p.clearAhead.card := by
        rw [hahead, Finset.card_erase_add_one hmem]
      have hrest := ih (p := q) (by omega)
      dsimp only
      omega

namespace Paging

/-- The ways to the three tables of a page. -/
def tablePaths (virt : Nat) : Finset (List Nat) := (Finset.range 3).image fun n => (indices virt).take (n + 1)

def pathsOf (virt pageCount : Nat) : Finset (List Nat) :=
  (Finset.range pageCount).biUnion fun k => tablePaths (virt + 4096 * k)

/-- The tables of the pages that are not there. -/
def missing (g : PagingSetup Physical) (s : Paging Physical) (virt pageCount : Nat) : Finset (List Nat) :=
  (pathsOf virt pageCount).filter fun q => Radix.find link s.memory 0 g.pml4Table q = none

/-! ### Paths -/

section Paths

variable {g : PagingSetup Physical} {s s₁ s' : Paging Physical} {virt m n : Nat} {q : List Nat}

theorem pathsOf_one (virt : Nat) : pathsOf virt 1 = tablePaths virt := by
  rw [pathsOf, Finset.range_one, Finset.singleton_biUnion]
  rfl

theorem pathsOf_add (virt m n : Nat) : pathsOf virt (m + n) = pathsOf virt m ∪ pathsOf (virt + 4096 * m) n := by
  ext q
  simp only [pathsOf, Finset.mem_union, Finset.mem_biUnion, Finset.mem_range]
  constructor
  · rintro ⟨k, hk, hq⟩
    rcases Nat.lt_or_ge k m with hlt | hge
    · exact .inl ⟨k, hlt, hq⟩
    · obtain ⟨j, rfl⟩ := Nat.exists_eq_add_of_le hge
      refine .inr ⟨j, Nat.lt_of_add_lt_add_left hk, ?_⟩
      rwa [Nat.add_assoc, ← Nat.mul_add]
  · rintro (⟨k, hk, hq⟩ | ⟨k, hk, hq⟩)
    · exact ⟨k, Nat.lt_of_lt_of_le hk (Nat.le_add_right _ _), hq⟩
    · refine ⟨m + k, Nat.add_lt_add_left hk m, ?_⟩
      rwa [Nat.mul_add, ← Nat.add_assoc]

/-- The tables that have come are these. -/
def Added (g : PagingSetup Physical) (s s' : Paging Physical) (qs : Finset (List Nat)) : Prop :=
  ∀ q, Radix.find link s'.memory 0 g.pml4Table q = none ↔
    Radix.find link s.memory 0 g.pml4Table q = none ∧ q ∉ qs

/-- What the first pages go through is there for the rest. -/
theorem Added.card_missing (h : Added g s s₁ (pathsOf virt m)) (n : Nat) :
    (missing g s virt (m + n)).card = (missing g s virt m).card + (missing g s₁ (virt + 4096 * m) n).card := by
  rw [← Finset.card_union_of_disjoint]
  · congr 1
    ext q
    simp only [missing, pathsOf_add, Finset.mem_union, Finset.mem_filter]
    constructor
    · rintro ⟨hq, hnone⟩
      by_cases hfirst : q ∈ pathsOf virt m
      · exact .inl ⟨hfirst, hnone⟩
      · exact .inr ⟨hq.resolve_left hfirst, (h q).mpr ⟨hnone, hfirst⟩⟩
    · rintro (⟨hq, hnone⟩ | ⟨hq, hnone⟩)
      · exact ⟨.inl hq, hnone⟩
      · exact ⟨.inr hq, ((h q).mp hnone).1⟩
  · rw [Finset.disjoint_left]
    intro q hq hq'
    exact ((h q).mp (Finset.mem_filter.mp hq').2).2 (Finset.mem_filter.mp hq).1

theorem Added.trans (h : Added g s s₁ (pathsOf virt m)) (h' : Added g s₁ s' (pathsOf (virt + 4096 * m) n)) :
    Added g s s' (pathsOf virt (m + n)) := by
  intro q
  rw [h' q, h q, pathsOf_add, Finset.mem_union, not_or, and_assoc]

end Paths

/-! ### One page -/

section Page

variable {g : PagingSetup Physical} {s s' : Paging Physical} {p is : List Nat} {t i virt : Nat}
  {flags : BitVec 32}

/-- An allocation that succeeds takes a page from those ahead. While there are any, it does. -/
theorem ahead_nextTable (hallocator : g.allocator = bitmapAllocator) (s : Paging Physical) (t i : Nat) :
    (Served s (nextTable g s t i).2 →
      s.ahead = (nextTable g s t i).2.ahead + if Present (s.memory t i) then 0 else 1) ∧
    ((if Present (s.memory t i) then 0 else 1) ≤ s.ahead → Served s (nextTable g s t i).2) ∧
    (0 < (nextTable g s t i).2.ahead → Served s (nextTable g s t i).2 ∧ 0 < s.ahead) := by
  obtain ⟨hpresent, hnext⟩ | ⟨habsent, frames, halloc, hnext⟩ | ⟨habsent, frame, frames, halloc, hnext⟩ :=
    nextTable_cases g s t i
  · rw [hnext, if_pos hpresent]
    exact ⟨fun _ => rfl, fun _ => rfl, fun h => ⟨rfl, h⟩⟩
  · have hone := allocateFrame_of_allocate hallocator halloc
    have hempty := (Physical.allocateFrame_none hone).1
    have hafter := Physical.allocateFrame_exhausted hempty
    rw [hone] at hafter
    rw [hnext, if_neg habsent]
    have hzero : s.ahead = 0 := Finset.card_eq_zero.mpr hempty
    refine ⟨fun hserved => ?_, fun hle => ?_, fun hpos => ?_⟩
    · simp [Served] at hserved
    · omega
    · exact absurd (Finset.card_eq_zero.mpr hafter) (Nat.ne_of_gt hpos)
  · have hone := allocateFrame_of_allocate hallocator halloc
    obtain ⟨hmem, hahead, -⟩ := Physical.allocateFrame_some hone
    have hserved : Served s (nextTable g s t i).2 := by
      rw [hnext]
      exact List.count_cons_of_ne (by simp)
    refine ⟨fun _ => ?_, fun _ => hserved, fun _ => ⟨hserved, Finset.card_pos.mpr ⟨_, hmem⟩⟩⟩
    rw [hnext, if_neg habsent]
    unfold ahead
    rw [hahead, Finset.card_erase_add_one hmem]

theorem served_of_ahead_descend (hallocator : g.allocator = bitmapAllocator) (is : List Nat) (t : Nat)
    (h : 0 < (descend g is t s).2.ahead) : Served s (descend g is t s).2 ∧ 0 < s.ahead := by
  induction is generalizing t s with
  | nil => exact ⟨rfl, h⟩
  | cons i is ih =>
    obtain ⟨hrest, hpos⟩ := ih _ h
    obtain ⟨hfirst, hpos'⟩ := (ahead_nextTable hallocator s t i).2.2 hpos
    exact ⟨hrest.trans hfirst, hpos'⟩

/-- The tables on a way that are not there. -/
def missingOn (g : PagingSetup Physical) (s : Paging Physical) (p is : List Nat) : Nat :=
  ∑ n ∈ Finset.range is.length,
    if Radix.find link s.memory 0 g.pml4Table (p ++ is.take (n + 1)) = none then 1 else 0

theorem missingOn_cons : missingOn g s p (i :: is) =
    (if Radix.find link s.memory 0 g.pml4Table (p ++ [i]) = none then 1 else 0) +
      ∑ n ∈ Finset.range is.length,
        if Radix.find link s.memory 0 g.pml4Table (p ++ [i] ++ is.take (n + 1)) = none then 1 else 0 := by
  rw [missingOn, List.length_cons, Finset.sum_range_succ', Nat.add_comm]
  congr 1
  refine Finset.sum_congr rfl fun n _ => ?_
  rw [List.take_succ_cons, List.append_assoc, List.singleton_append]

theorem Enlarged.find_none (h : Enlarged g s s') (honPath : OnPath g s s' p)
    (hp : Radix.find link s'.memory 0 g.pml4Table p = some t) (q : List Nat) :
    Radix.find link s'.memory 0 g.pml4Table q = none ↔
      Radix.find link s.memory 0 g.pml4Table q = none ∧ ¬ q <+: p := by
  constructor
  · intro hnone
    refine ⟨?_, fun hprefix => Radix.find_of_prefix hp hprefix hnone⟩
    rw [Option.eq_none_iff_forall_ne_some]
    intro x hx
    rw [h.find q x hx] at hnone
    cases hnone
  · rintro ⟨hnone, hout⟩
    rw [Option.eq_none_iff_forall_ne_some]
    intro x hx
    have hold := (honPath q x hx).resolve_right hout
    rw [hnone] at hold
    cases hold

theorem Tree.present_iff (h : Tree g s) (hp : Radix.find link s.memory 0 g.pml4Table p = some t)
    (hlength : p.length ≤ 2) {size : Nat} (hv : p ++ [i] <+: indices virt)
    (hsize : 0 < p.length → size < Translation.sizeAt (p.length + 1))
    (hsmall : NotInside size (Paging.translate g s) virt) :
    Present (s.memory t i) ↔ Radix.find link s.memory 0 g.pml4Table (p ++ [i]) ≠ none := by
  constructor
  · intro hpresent
    have hnext : Paging.nextTable g s t i = (s.memory t i &&& pmlAddrMask, s) := by
      rcases nextTable_cases g s t i with ⟨-, hnext⟩ | ⟨habsent, -⟩ | ⟨habsent, -⟩
      · exact hnext
      · exact absurd hpresent habsent
      · exact absurd hpresent habsent
    have henter := h.enter hp hlength hv hsize hsmall
    rw [hnext] at henter
    exact Option.ne_none_iff_exists'.mpr ⟨_, (henter rfl).2.2⟩
  · intro hfound
    by_contra habsent
    rw [Radix.find_snoc hp, link_of_not_present habsent] at hfound
    exact hfound rfl

/-- The first table of a way, and those that are missing after it is there. -/
theorem missingOn_enter (h : Enlarged g s s') (honPath : OnPath g s s' (p ++ [i]))
    (hp : Radix.find link s'.memory 0 g.pml4Table (p ++ [i]) = some t) (is : List Nat) :
    missingOn g s p (i :: is) =
      (if Radix.find link s.memory 0 g.pml4Table (p ++ [i]) = none then 1 else 0) +
        missingOn g s' (p ++ [i]) is := by
  rw [missingOn_cons, missingOn]
  congr 1
  refine Finset.sum_congr rfl fun n hn => if_congr ?_ rfl rfl
  have hlong : ¬ p ++ [i] ++ is.take (n + 1) <+: p ++ [i] := by
    intro hprefix
    have hle := hprefix.length_le
    have hlt := Finset.mem_range.mp hn
    simp only [List.length_append, List.length_take, List.length_singleton] at hle
    omega
  rw [h.find_none honPath hp, and_iff_left hlong]

theorem Tree.descend_ahead (h : Tree g s) (is : List Nat) (hp : Radix.find link s.memory 0 g.pml4Table p = some t)
    (hlength : p.length + is.length ≤ 3) {size : Nat} (hv : p ++ is <+: indices virt)
    (hsize : 1 < p.length + is.length → size < Translation.sizeAt (p.length + is.length))
    (hsmall : NotInside size (Paging.translate g s) virt) :
    (Served s (Paging.descend g is t s).2 → s.ahead = (Paging.descend g is t s).2.ahead + missingOn g s p is) ∧
      (missingOn g s p is ≤ s.ahead → Served s (Paging.descend g is t s).2) := by
  induction is generalizing p t s with
  | nil => exact ⟨fun _ => rfl, fun _ => rfl⟩
  | cons i is ih =>
    rw [List.length_cons] at hlength hsize
    rw [List.append_cons] at hv
    have hentry := (List.prefix_append (p ++ [i]) is).trans hv
    have hsize₁ (hp₀ : 0 < p.length) : size < Translation.sizeAt (p.length + 1) :=
      Nat.lt_of_lt_of_le (hsize (by omega)) (sizeAt_le (by omega) hlength)
    have henter := h.enter hp (by omega) hentry hsize₁ hsmall
    obtain ⟨hcount, henough, -⟩ := ahead_nextTable h.allocator s t i
    -- the entry is not present where the way ends before
    simp only [h.present_iff hp (by omega) hentry hsize₁ hsmall, ne_eq, ite_not] at hcount henough
    have hlen : (p ++ [i]).length + is.length = p.length + (is.length + 1) := by
      rw [List.length_append, List.length_singleton]
      omega
    have hlater (hfirst : Served s (Paging.nextTable g s t i).2) := by
      obtain ⟨hdescended, -, hfind⟩ := henter hfirst
      exact ih hdescended.tree hfind (by omega) hv (hlen ▸ hsize) (hdescended.translate ▸ hsmall)
    have hrest (hfirst : Served s (Paging.nextTable g s t i).2) :=
      missingOn_enter (henter hfirst).1.toEnlarged (henter hfirst).2.1 (henter hfirst).2.2 is
    constructor
    · intro hserved
      obtain ⟨hfirst, hserved'⟩ := hserved.split (flushes_nextTable g s t i) (flushes_descend g is _ _)
      have hahead := hcount hfirst
      have hahead' := (hlater hfirst).1 hserved'
      rw [hrest hfirst]
      change s.ahead = (Paging.descend g is (Paging.nextTable g s t i).1 (Paging.nextTable g s t i).2).2.ahead + _
      omega
    · intro hle
      have hfirst : Served s (Paging.nextTable g s t i).2 := by
        rw [missingOn_cons] at hle
        exact henough (Nat.le_of_add_right_le hle)
      rw [hrest hfirst] at hle
      have hahead := hcount hfirst
      exact ((hlater hfirst).2 (by omega)).trans hfirst

/-- The three tables of a page. -/
theorem card_missing_one (g : PagingSetup Physical) (s : Paging Physical) (virt : Nat) :
    (missing g s virt 1).card = missingOn g s [] ((indices virt).take 3) := by
  rw [missing, pathsOf_one, tablePaths, Finset.card_filter, Finset.sum_image, missingOn]
  · refine Finset.sum_congr rfl fun n hn => ?_
    have hlt : n + 1 ≤ 3 := Finset.mem_range.mp hn
    rw [List.nil_append, List.take_take, Nat.min_eq_left hlt]
  · intro m hm n hn heq
    have hlength := congrArg List.length heq
    have hm' := Finset.mem_range.mp hm
    have hn' := Finset.mem_range.mp hn
    simp only [List.length_take, indices, List.length_cons, List.length_nil] at hlength
    omega

theorem mem_tablePaths {q : List Nat} : q ∈ tablePaths virt ↔ q ≠ [] ∧ q <+: (indices virt).take 3 := by
  simp only [tablePaths, Finset.mem_image, Finset.mem_range]
  constructor
  · rintro ⟨n, hn, rfl⟩
    refine ⟨by simp [indices], List.prefix_take_iff.mpr ⟨List.take_prefix _ _, ?_⟩⟩
    exact (List.length_take_le _ _).trans hn
  · rintro ⟨hne, hprefix⟩
    obtain ⟨hindices, hle⟩ := List.prefix_take_iff.mp hprefix
    have hpos := List.length_pos_iff.mpr hne
    refine ⟨q.length - 1, by omega, ?_⟩
    rw [Nat.sub_add_cancel hpos]
    exact (List.prefix_iff_eq_take.mp hindices).symm

/-- A page takes a frame for each of its tables that is not there. -/
theorem Tree.mapSmallPage_ahead (h : Tree g s) (hsmall : NotInside 4096 (Paging.translate g s) virt)
    (flags : BitVec 32) (physical : Nat) :
    (Served s (Paging.mapSmallPage g flags physical virt s) →
      s.ahead = (Paging.mapSmallPage g flags physical virt s).ahead + (missing g s virt 1).card ∧
        Added g s (Paging.mapSmallPage g flags physical virt s) (pathsOf virt 1)) ∧
    ((missing g s virt 1).card ≤ s.ahead → Served s (Paging.mapSmallPage g flags physical virt s)) := by
  obtain ⟨hcount, henough⟩ := h.descend_ahead (p := []) ((indices virt).take 3) rfl (by simp [indices])
    (List.take_prefix 3 _) (by simp [indices, Translation.sizeAt]) hsmall
  rw [card_missing_one]
  refine ⟨fun hserved => ?_, fun hle => (List.count_cons_of_ne (by simp)).trans (henough hle)⟩
  obtain ⟨hwalked, hdescended, hfind⟩ := h.descend_small hsmall hserved
  obtain ⟨-, honPath, -⟩ := h.descend_root (by simp [indices]) (List.take_prefix 3 (indices virt))
    (by simp [indices, Translation.sizeAt]) hsmall hwalked
  have hkept (q : List Nat) : Radix.find link (Paging.mapSmallPage g flags physical virt s).memory 0 g.pml4Table q =
      Radix.find link (Paging.descend g ((indices virt).take 3) g.pml4Table s).2.memory 0 g.pml4Table q :=
    hdescended.tree.find_write hfind rfl rfl rfl q
  refine ⟨hcount hwalked, fun q => ?_⟩
  rw [hkept, hdescended.toEnlarged.find_none honPath hfind, pathsOf_one, mem_tablePaths]
  refine and_congr_right fun hnone => not_congr ⟨fun hprefix => ⟨?_, hprefix⟩, And.right⟩
  rintro rfl
  cases hnone

end Page

/-! ### Buffers -/

section Buffers

variable {g : PagingSetup Physical} {s s' : Paging Physical} {buf : List Nat} {virt virt' pageCount : Nat}
  {flags : BitVec 32}

theorem served_of_ahead_mapFrames (hallocator : g.allocator = bitmapAllocator)
    (hrun : mapFrames g flags buf virt s = some (s', virt')) (h : 0 < s'.ahead) : Served s s' ∧ 0 < s.ahead := by
  induction buf generalizing virt s with
  | nil =>
    obtain ⟨rfl, -⟩ := Prod.mk.inj (Option.some.inj hrun)
    exact ⟨rfl, h⟩
  | cons frame buf ih =>
    obtain ⟨s₁, hfirst, hrest⟩ := Option.bind_eq_some_iff.mp hrun
    obtain ⟨hserved, hpos⟩ := ih hrest
    rw [mapPage_one hfirst] at hserved hpos
    obtain ⟨hwalked, hpos'⟩ := served_of_ahead_descend hallocator ((indices virt).take 3) g.pml4Table hpos
    exact ⟨hserved.trans ((List.count_cons_of_ne (by simp)).trans hwalked), hpos'⟩

theorem ahead_allocateFrames (h : pageCount ≤ s.ahead) :
    s.ahead = (s.allocateFrames pageCount).2.ahead + pageCount := Physical.card_clearAhead h

theorem missing_subset (g : PagingSetup Physical) (s : Paging Physical) (virt m n : Nat) :
    missing g s virt m ⊆ missing g s virt (m + n) := by
  rw [missing, missing, pathsOf_add]
  exact Finset.filter_subset_filter _ Finset.subset_union_left

theorem Tree.mapFrames_ahead (h : Tree g s) (hframes : ∀ frame ∈ buf, IsFrame frame)
    (hend : virt + 4096 * buf.length < 2 ^ 64)
    (hsmall : ∀ k < buf.length, NotInside 4096 (translate g s) (virt + 4096 * k))
    (hrun : Paging.mapFrames g flags buf virt s = some (s', virt')) :
    (Served s s' → s.ahead = s'.ahead + (missing g s virt buf.length).card ∧
        Added g s s' (pathsOf virt buf.length)) ∧
      ((missing g s virt buf.length).card ≤ s.ahead → Served s s') := by
  induction buf generalizing virt s with
  | nil =>
    obtain ⟨rfl, -⟩ := Prod.mk.inj (Option.some.inj hrun)
    exact ⟨fun _ => ⟨rfl, fun q => by simp [pathsOf]⟩, fun _ => rfl⟩
  | cons frame buf ih =>
    rw [List.length_cons, Nat.mul_succ] at hend
    have hlt : virt + 4096 < 2 ^ 64 := Nat.lt_of_le_of_lt (by omega) hend
    obtain ⟨s₁, hfirst, hrest⟩ := Option.bind_eq_some_iff.mp hrun
    obtain rfl := mapPage_one hfirst
    rw [wrap64_of_lt hlt] at hrest
    have hsmall₀ : NotInside 4096 (translate g s) virt := hsmall 0 (Nat.succ_pos _)
    obtain ⟨hone, hserve⟩ := h.mapSmallPage_ahead hsmall₀ flags frame
    have hlater (hserved : Served s (Paging.mapSmallPage g flags frame virt s)) := by
      obtain ⟨htree, -, htranslate⟩ := h.mapSmallPage (hframes frame List.mem_cons_self) hsmall₀ hserved
      refine ih htree (fun x hx => hframes x (List.mem_cons_of_mem _ hx)) (by omega) (fun k hk => ?_) hrest
      have hnext := hsmall (k + 1) (Nat.succ_lt_succ hk)
      rw [htranslate]
      apply NotInside.mapOne
      rwa [Nat.mul_succ, Nat.add_comm (4096 * k), ← Nat.add_assoc] at hnext
    rw [List.length_cons, Nat.add_comm buf.length]
    constructor
    · intro hserved
      obtain ⟨hserved₁, hserved₂⟩ := hserved.split_of_suffix
        (flushes_mapSmallPage g flags frame virt s).suffix (events_mapFrames hrest)
      obtain ⟨hcount, hadded⟩ := hone hserved₁
      obtain ⟨hcount', hadded'⟩ := (hlater hserved₁).1 hserved₂
      refine ⟨?_, hadded.trans hadded'⟩
      rw [hadded.card_missing, hcount, hcount', Nat.add_assoc, Nat.add_comm (missing g _ _ _).card]
    · intro hle
      have hserved₁ := hserve ((Finset.card_le_card (missing_subset g s virt 1 buf.length)).trans hle)
      obtain ⟨hcount, hadded⟩ := hone hserved₁
      rw [hadded.card_missing] at hle
      have hserved₂ := (hlater hserved₁).2 (by rw [Nat.mul_one] at hle; omega)
      exact hserved₂.trans hserved₁

end Buffers

/-! ### The loop -/

namespace Allocation

variable {g : PagingSetup Physical} {flags : BitVec 32} {a : Allocation} {t u : Buffers}
  {s : Paging Physical} {virt pageCount : Nat}

theorem returns_turn (hleft : t.PagesLeft) (hturn : a.turn g flags t = some u) :
    a.Returns g flags t.paging t.virt t.pageCount ↔ a.Returns g flags u.paging u.virt u.pageCount := by
  rw [returns_iff_whileDo t, returns_iff_whileDo u]
  constructor
  · rintro ⟨fuel, last, hend⟩
    cases fuel with
    | zero => cases hend
    | succ fuel =>
      rw [Loops.whileDo_turn hleft, hturn, Option.bind_some] at hend
      exact ⟨fuel, last, hend⟩
  · rintro ⟨fuel, last, hend⟩
    exact ⟨fuel + 1, last, by rw [Loops.whileDo_turn hleft, hturn, Option.bind_some, hend]⟩

theorem mapFrames_of_turn (hturn : page.turn g flags ⟨pageCount, virt, s⟩ = some u) :
    mapFrames g flags (s.allocateFrames (min pageCount bufSize)).1 virt
      (s.allocateFrames (min pageCount bufSize)).2 = some (u.paging, u.virt) := by
  obtain ⟨⟨s', virt'⟩, hmap, hu⟩ := Option.bind_eq_some_iff.mp hturn
  obtain rfl := Option.some.inj hu
  exact hmap

/-- What the turn leaves of a call of several buffers. Where an allocation has failed it is nothing. -/
theorem turn_leaves (h : Tree g s) (hstocked : bufSize ≤ s.ahead) (hlong : bufSize < pageCount)
    (hend : virt + 4096 * pageCount < 2 ^ 64)
    (hsmall : ∀ k < pageCount, NotInside 4096 (translate g s) (virt + 4096 * k))
    (hturn : page.turn g flags ⟨pageCount, virt, s⟩ = some u) :
    (0 < u.paging.ahead ∨ bufSize + (missing g s virt bufSize).card ≤ s.ahead → Served s u.paging) ∧
    (Served s u.paging →
      s.ahead = u.paging.ahead + (missing g s virt bufSize).card + bufSize ∧
      Added g s u.paging (pathsOf virt bufSize) ∧ u.virt = virt + 4096 * bufSize ∧ Tree g u.paging ∧
      ∀ k < pageCount - bufSize, NotInside 4096 (translate g u.paging) (u.virt + 4096 * k)) := by
  have hmap := mapFrames_of_turn hturn
  rw [Nat.min_eq_right (Nat.le_of_lt hlong)] at hmap
  have hcard := ahead_allocateFrames hstocked
  have hfirst := (takes_allocateFrames hstocked).2.1
  obtain ⟨⟨buf, s₁⟩, halloc⟩ : ∃ given, s.allocateFrames bufSize = given := ⟨_, rfl⟩
  rw [halloc] at hmap hcard hfirst
  dsimp only at hmap hcard hfirst
  obtain ⟨hlength, hstock, hfind, hsame⟩ := h.allocateFrames halloc hfirst
  have hsmall₁ (k : Nat) (hk : k < buf.length) : NotInside 4096 (translate g s₁) (virt + 4096 * k) :=
    hsame ▸ hsmall k (Nat.lt_trans (hlength ▸ hk) hlong)
  have hspan : virt + 4096 * buf.length < 2 ^ 64 := by omega
  obtain ⟨hcount, henough⟩ := hstock.tree.mapFrames_ahead hstock.frame hspan hsmall₁ hmap
  have hmissing : missing g s₁ virt buf.length = missing g s virt bufSize := by
    simp only [missing, hfind, hlength]
  rw [hmissing] at hcount henough
  have hlast := events_mapFrames hmap
  refine ⟨fun hleft => ?_, fun hserved => ?_⟩
  · have hserved : Served s₁ u.paging := by
      rcases hleft with hpos | hle
      · exact (served_of_ahead_mapFrames hstock.tree.allocator hmap hpos).1
      · exact henough (by omega)
    exact hserved.trans hfirst
  · obtain ⟨-, hserved₂⟩ := hserved.split_of_suffix (events_allocateFrames halloc) hlast
    obtain ⟨hahead, hadded⟩ := hcount hserved₂
    obtain ⟨hvirt, htree, -, -, htranslate⟩ := hstock.tree.mapFrames hstock.frame hspan hsmall₁ hmap hserved₂
    refine ⟨by rw [hcard, hahead], fun q => ?_, hlength ▸ hvirt, htree, fun k hk => ?_⟩
    · rw [hadded q, hfind, hlength]
    · rw [htranslate, hsame, hvirt, Nat.add_assoc, ← Nat.mul_add]
      exact (hsmall _ (by omega)).mapFrames _ _ _ _

/-- **Return of long calls.** In a tree of tables, for pages that are not inside larger ones, there have to be
as many clear pages ahead of the cursor as there are pages, and one for each table that the pages of all
buffers but the last go through and that is not there. -/
theorem page_returns_iff (h : Tree g s) (hcursor : s.frames.BlockCursor) (halign : virt % 4096 = 0)
    (hend : virt + 4096 * pageCount < 2 ^ 64)
    (hsmall : ∀ k < pageCount, NotInside 4096 (translate g s) (virt + 4096 * k)) :
    page.Returns g flags s virt pageCount ↔
      pageCount + (missing g s virt (bufSize * ((pageCount - 1) / bufSize))).card ≤ s.ahead := by
  induction pageCount using Nat.strong_induction_on generalizing s virt with
  | h pageCount ih =>
    by_cases hone : pageCount ≤ bufSize
    · have hfirst : bufSize * ((pageCount - 1) / bufSize) = 0 := by
        unfold bufSize at hone ⊢
        omega
      rw [hfirst]
      exact returns_buffer_iff h.allocator hcursor halign hone
    have hlong : bufSize < pageCount := Nat.lt_of_not_le hone
    have hbuffer : min pageCount bufSize = bufSize := Nat.min_eq_right (Nat.le_of_lt hlong)
    have hleft : Buffers.PagesLeft ⟨pageCount, virt, s⟩ := Nat.zero_lt_of_lt hlong
    by_cases hstocked : bufSize ≤ s.ahead
    · obtain ⟨u, hturn, hturned⟩ := @turn_spec g h.allocator flags page ⟨pageCount, virt, s⟩ hcursor halign
      obtain ⟨hserves, hserved⟩ := turn_leaves h hstocked hlong hend hsmall hturn
      have hcount : u.pageCount = pageCount - bufSize := by
        have htaken : u.pageCount = pageCount - min (min pageCount bufSize) s.ahead := hturned.pageCount
        rwa [hbuffer, Nat.min_eq_left hstocked] at htaken
      have hbuffers : bufSize * ((pageCount - 1) / bufSize) =
          bufSize + bufSize * ((pageCount - bufSize - 1) / bufSize) := by
        unfold bufSize at hlong ⊢
        omega
      rw [returns_turn hleft hturn, hbuffers]
      by_cases hall : Served s u.paging
      · obtain ⟨hahead, hadded, hvirt, htree, hsmall'⟩ := hserved hall
        rw [ih u.pageCount (by unfold bufSize at hcount; omega) htree hturned.cursor hturned.aligned
          (by rw [hvirt, hcount]; omega) (hcount ▸ hsmall'), hadded.card_missing, hcount, hvirt]
        omega
      · have hnone : u.paging.ahead = 0 := Nat.eq_zero_of_not_pos fun hpos => hall (hserves (.inl hpos))
        refine iff_of_false (fun hreturns => ?_) fun hle => hall (hserves (.inr ?_))
        · have hu : page.Stocked u := (returns_iff_allStocked h.allocator hturned.cursor hturned.aligned
            u.pageCount).mp hreturns u .refl (by unfold Buffers.PagesLeft; omega)
          have hzero : min u.pageCount bufSize ≤ 0 := hnone ▸ hu
          have hpos : 0 < bufSize := by decide
          omega
        · have hsub := Finset.card_le_card (missing_subset g s virt bufSize
            (bufSize * ((pageCount - bufSize - 1) / bufSize)))
          exact (Nat.add_le_add (Nat.le_of_lt hlong) hsub).trans hle
    · refine iff_of_false (fun hreturns => hstocked ?_) fun hle => ?_
      · have hfirst : page.Stocked ⟨pageCount, virt, s⟩ :=
          (returns_iff_allStocked h.allocator hcursor halign pageCount).mp hreturns _ .refl hleft
        exact hbuffer ▸ hfirst
      · omega

end Allocation

end Paging

end Helos
