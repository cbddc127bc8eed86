import Mathlib.Data.List.Infix
import Mathlib.Logic.Function.Basic
import Mathlib.Tactic.Common

/-!
# Radix tables in memory

A table has an entry for every index, and an entry may link to another table; whether it does depends
on its depth too. A path of indices leads from a root to a table, and a walk down a path reads the
entries it passes. Tables are unshared when no two paths lead to the same one. A write to an entry
then changes the walks through that entry, and no other.
-/

namespace Radix

variable {A I E : Type*} (link : Nat → E → Option A)

def find (m : A → I → E) : Nat → A → List I → Option A
  | _, t, [] => some t
  | d, t, i :: p => (link d (m t i)).bind fun c => find m (d + 1) c p

/-- The entries read on the way, up to the first that is no link. -/
def trail (m : A → I → E) : Nat → A → List I → List E
  | _, _, [] => []
  | d, t, i :: p => m t i :: (link d (m t i)).elim [] fun c => trail m (d + 1) c p

def IsTable (m : A → I → E) (root t : A) : Prop := ∃ p, find link m 0 root p = some t

def Unshared (m : A → I → E) (root : A) : Prop :=
  ∀ p q t, find link m 0 root p = some t → find link m 0 root q = some t → p = q

section Update

variable [DecidableEq A] {m : A → I → E} {t t' : A} {i i' : I} {e z : E}

def clear (m : A → I → E) (t : A) (z : E) : A → I → E := Function.update m t fun _ => z

@[simp] theorem clear_self : clear m t z t i = z := by simp [clear]

theorem clear_of_ne (h : t' ≠ t) : clear m t z t' i = m t' i := by simp [clear, h]

variable [DecidableEq I]

def write (m : A → I → E) (t : A) (i : I) (e : E) : A → I → E :=
  Function.update m t (Function.update (m t) i e)

@[simp] theorem write_self : write m t i e t i = e := by simp [write]

theorem write_of_ne_table (h : t' ≠ t) : write m t i e t' i' = m t' i' := by simp [write, h]

theorem write_of_ne_index (h : i' ≠ i) : write m t i e t' i' = m t' i' := by
  by_cases ht : t' = t
  · subst ht
    simp [write, h]
  · exact write_of_ne_table ht

theorem write_of_ne (h : ¬ (t' = t ∧ i' = i)) : write m t i e t' i' = m t' i' := by
  rcases not_and_or.mp h with ht | hi
  · exact write_of_ne_table ht
  · exact write_of_ne_index hi

end Update

section Walk

variable {link} {m m' : A → I → E} {root t c : A} {i : I} {d : Nat} {p q r : List I} {z : E}

@[simp] theorem find_nil : find link m d t [] = some t := rfl

theorem find_cons :
    find link m d t (i :: p) = (link d (m t i)).bind fun c => find link m (d + 1) c p := rfl

theorem trail_cons :
    trail link m d t (i :: p) =
      m t i :: (link d (m t i)).elim [] fun c => trail link m (d + 1) c p := rfl

theorem find_append :
    find link m d t (p ++ q) =
      (find link m d t p).bind fun c => find link m (d + p.length) c q := by
  induction p generalizing d t with
  | nil => rfl
  | cons i p ih =>
    simp only [List.cons_append, find_cons, List.length_cons]
    cases link d (m t i) with
    | none => rfl
    | some c =>
      simp only [Option.bind_some]
      rw [ih, Nat.add_right_comm, Nat.add_assoc]

theorem find_snoc (h : find link m d t p = some c) :
    find link m d t (p ++ [i]) = link (d + p.length) (m c i) := by
  rw [find_append, h, Option.bind_some, find_cons]
  cases link (d + p.length) (m c i) <;> rfl

/-- Where a walk arrives there is something all along the way. -/
theorem find_of_prefix (h : find link m d t p = some c) (hq : q <+: p) : find link m d t q ≠ none := by
  obtain ⟨rest, rfl⟩ := hq
  intro hnone
  rw [find_append, hnone] at h
  cases h

theorem trail_append (h : find link m d t p = some c) :
    trail link m d t (p ++ q) = trail link m d t p ++ trail link m (d + p.length) c q := by
  induction p generalizing d t with
  | nil =>
    cases h
    rfl
  | cons i p ih =>
    rw [find_cons] at h
    obtain ⟨t', hlink, hrest⟩ := Option.bind_eq_some_iff.mp h
    simp only [List.cons_append, trail_cons, List.length_cons, hlink, Option.elim_some]
    rw [ih hrest, Nat.add_right_comm, Nat.add_assoc]

theorem length_trail (h : find link m d t p = some c) : (trail link m d t p).length = p.length := by
  induction p generalizing d t with
  | nil => rfl
  | cons i p ih =>
    rw [find_cons] at h
    obtain ⟨t', hlink, hrest⟩ := Option.bind_eq_some_iff.mp h
    simp only [trail_cons, hlink, Option.elim_some, List.length_cons, ih hrest]

/-- The entries on the way to a table link to the next table. -/
theorem trail_links (h : find link m d t p = some c) :
    ∀ e ∈ trail link m d t p, ∃ q j x, find link m d t q = some x ∧ m x j = e ∧
      link (d + q.length) e ≠ none := by
  induction p generalizing d t with
  | nil => simp [trail]
  | cons i p ih =>
    rw [find_cons] at h
    obtain ⟨t', hlink, hrest⟩ := Option.bind_eq_some_iff.mp h
    intro e he
    simp only [trail_cons, hlink, Option.elim_some, List.mem_cons] at he
    rcases he with rfl | he
    · exact ⟨[], i, t, rfl, rfl, by simp [hlink]⟩
    · obtain ⟨q, j, x, hq, hx, hne⟩ := ih hrest e he
      refine ⟨i :: q, j, x, ?_, hx, ?_⟩
      · rw [find_cons, hlink]
        exact hq
      · rwa [List.length_cons, ← Nat.add_assoc, Nat.add_right_comm]

/-- A walk goes the same way in a memory with the same entries on that way. -/
theorem find_congr (h : ∀ p i x, p ++ [i] <+: q → find link m d t p = some x → m' x i = m x i) :
    find link m' d t q = find link m d t q := by
  induction q generalizing d t with
  | nil => rfl
  | cons j q ih =>
    have hhead : m' t j = m t j := h [] j t (by simp) rfl
    rw [find_cons, find_cons, hhead]
    cases hlink : link d (m t j) with
    | none => rfl
    | some c =>
      apply ih
      intro p i x hp hx
      apply h (j :: p) i x (List.cons_prefix_cons.mpr ⟨rfl, hp⟩)
      rw [find_cons, hlink]
      exact hx

theorem trail_congr (h : ∀ p i x, p ++ [i] <+: q → find link m d t p = some x → m' x i = m x i) :
    trail link m' d t q = trail link m d t q := by
  induction q generalizing d t with
  | nil => rfl
  | cons j q ih =>
    have hhead : m' t j = m t j := h [] j t (by simp) rfl
    rw [trail_cons, trail_cons, hhead]
    cases hlink : link d (m t j) with
    | none => rfl
    | some c =>
      simp only [Option.elim_some]
      congr 1
      apply ih
      intro p i x hp hx
      apply h (j :: p) i x (List.cons_prefix_cons.mpr ⟨rfl, hp⟩)
      rw [find_cons, hlink]
      exact hx

/-- What is not a table may change. -/
theorem find_of_tables (h : ∀ x, IsTable link m root x → m' x = m x) :
    find link m' 0 root q = find link m 0 root q :=
  find_congr fun p i x _ hx => congrFun (h x ⟨p, hx⟩) i

theorem trail_of_tables (h : ∀ x, IsTable link m root x → m' x = m x) :
    trail link m' 0 root q = trail link m 0 root q :=
  trail_congr fun p i x _ hx => congrFun (h x ⟨p, hx⟩) i

/-- Nothing is found below a table without links. -/
theorem find_of_empty (hz : ∀ d, link d z = none) (hempty : ∀ i, m t i = z) {x : A}
    (h : find link m d t p = some x) : p = [] ∧ x = t := by
  cases p with
  | nil => exact ⟨rfl, (Option.some.inj h).symm⟩
  | cons i p =>
    rw [find_cons, hempty, hz] at h
    cases h

theorem trail_of_empty (hz : ∀ d, link d z = none) (hempty : ∀ i, m t i = z) :
    trail link m d t (i :: p) = [z] := by
  rw [trail_cons, hempty, hz]
  rfl

theorem not_append_prefix_self {p : List I} : ¬ p ++ [i] <+: p := by
  intro h
  have hlength := h.length_le
  rw [List.length_append, List.length_singleton] at hlength
  omega

end Walk

/-! ### Writes -/

section Write

variable {link} [DecidableEq A] {m : A → I → E} {root t c x : A} {i : I} {p q r : List I} {e z : E}

theorem clear_agrees (hc : ¬ IsTable link m root c) :
    ∀ p i x, p ++ [i] <+: q → find link m 0 root p = some x → clear m c z x i = m x i := by
  intro p i x _ hx
  apply clear_of_ne
  rintro rfl
  exact hc ⟨p, hx⟩

theorem find_clear (hc : ¬ IsTable link m root c) :
    find link (clear m c z) 0 root q = find link m 0 root q :=
  find_congr (clear_agrees hc)

theorem trail_clear (hc : ¬ IsTable link m root c) :
    trail link (clear m c z) 0 root q = trail link m 0 root q :=
  trail_congr (clear_agrees hc)

theorem Unshared.clear (h : Unshared link m root) (hc : ¬ IsTable link m root c) :
    Unshared link (clear m c z) root := by
  intro p q t hp hq
  rw [find_clear hc] at hp hq
  exact h p q t hp hq

variable [DecidableEq I]

theorem Unshared.write_agrees (h : Unshared link m root) (hp : find link m 0 root p = some t)
    (hq : ¬ p ++ [i] <+: q) :
    ∀ p' i' x, p' ++ [i'] <+: q → find link m 0 root p' = some x →
      write m t i e x i' = m x i' := by
  intro p' i' x hprefix hx
  by_cases htable : x = t
  · subst htable
    obtain rfl := h p p' x hp hx
    apply write_of_ne_index
    rintro rfl
    exact hq hprefix
  · exact write_of_ne_table htable

/-- **Frame.** A write leaves the paths that do not pass it. -/
theorem Unshared.find_write (h : Unshared link m root) (hp : find link m 0 root p = some t)
    (hq : ¬ p ++ [i] <+: q) : find link (write m t i e) 0 root q = find link m 0 root q :=
  find_congr (h.write_agrees hp hq)

theorem Unshared.trail_write (h : Unshared link m root) (hp : find link m 0 root p = some t)
    (hq : ¬ p ++ [i] <+: q) : trail link (write m t i e) 0 root q = trail link m 0 root q :=
  trail_congr (h.write_agrees hp hq)

theorem Unshared.find_write_self (h : Unshared link m root) (hp : find link m 0 root p = some t) :
    find link (write m t i e) 0 root p = some t := by
  rw [h.find_write hp not_append_prefix_self, hp]

/-- A path that passes the write goes where the new entry says. -/
theorem Unshared.find_write_below (h : Unshared link m root) (hp : find link m 0 root p = some t) :
    find link (write m t i e) 0 root (p ++ i :: r) =
      (link p.length e).bind fun c => find link (write m t i e) (p.length + 1) c r := by
  rw [find_append, h.find_write_self hp, Option.bind_some, find_cons, write_self, Nat.zero_add]

theorem Unshared.trail_write_below (h : Unshared link m root)
    (hp : find link m 0 root p = some t) :
    trail link (write m t i e) 0 root (p ++ i :: r) =
      trail link m 0 root p ++
        e :: (link p.length e).elim [] fun c => trail link (write m t i e) (p.length + 1) c r := by
  rw [trail_append (h.find_write_self hp), h.trail_write hp not_append_prefix_self, trail_cons,
    write_self, Nat.zero_add]

end Write

/-! ### Zeroed entries

Without the tables being unshared, an entry that becomes no link at least ends every walk that
passes it.
-/

section Zero

variable {link} [DecidableEq A] [DecidableEq I] {m : A → I → E} {t r : A} {i : I} {d : Nat}
  {p q : List I} {z : E}

theorem trail_write_zero (hz : ∀ d, link d z = none) :
    trail link (write m t i z) d r p = trail link m d r p ∨
      ∃ before, trail link (write m t i z) d r p = before ++ [z] := by
  induction p generalizing d r with
  | nil => exact .inl rfl
  | cons j p ih =>
    rw [trail_cons, trail_cons]
    by_cases hwritten : r = t ∧ j = i
    · obtain ⟨rfl, rfl⟩ := hwritten
      rw [write_self, hz]
      exact .inr ⟨[], rfl⟩
    · have hentry : write m t i z r j = m r j := write_of_ne hwritten
      rw [hentry]
      cases link d (m r j) with
      | none => exact .inl rfl
      | some c =>
        rcases ih (d := d + 1) (r := c) with hsame | ⟨before, hbefore⟩
        · exact .inl (congrArg _ hsame)
        · exact .inr ⟨m r j :: before, congrArg _ hbefore⟩

theorem trail_write_zero_below (hz : ∀ d, link d z = none) (h : find link m d r p = some t) :
    ∃ before, trail link (write m t i z) d r (p ++ i :: q) = before ++ [z] := by
  induction p generalizing d r with
  | nil =>
    cases h
    rw [List.nil_append, trail_cons, write_self, hz]
    exact ⟨[], rfl⟩
  | cons j p ih =>
    rw [find_cons] at h
    obtain ⟨c, hlink, hrest⟩ := Option.bind_eq_some_iff.mp h
    rw [List.cons_append, trail_cons]
    by_cases hwritten : r = t ∧ j = i
    · obtain ⟨rfl, rfl⟩ := hwritten
      rw [write_self, hz]
      exact ⟨[], rfl⟩
    · have hentry : write m t i z r j = m r j := write_of_ne hwritten
      rw [hentry, hlink]
      obtain ⟨before, hbefore⟩ := ih hrest
      exact ⟨m r j :: before, congrArg _ hbefore⟩

/-- What is still found was found before. -/
theorem find_write_zero {x : A} (hz : ∀ d, link d z = none)
    (h : find link (write m t i z) d r p = some x) : find link m d r p = some x := by
  induction p generalizing d r with
  | nil => exact h
  | cons j p ih =>
    rw [find_cons] at h ⊢
    obtain ⟨c, hlink, hrest⟩ := Option.bind_eq_some_iff.mp h
    by_cases hwritten : r = t ∧ j = i
    · obtain ⟨rfl, rfl⟩ := hwritten
      rw [write_self, hz] at hlink
      cases hlink
    · have hentry : write m t i z r j = m r j := write_of_ne hwritten
      rw [hentry] at hlink
      rw [hlink]
      exact ih hrest

theorem Unshared.write_zero (hz : ∀ d, link d z = none) (h : Unshared link m r) :
    Unshared link (write m t i z) r := fun p q x hp hq =>
  h p q x (find_write_zero hz hp) (find_write_zero hz hq)

/-- An entry that is found stays, or all walks through it end before. -/
theorem entry_write_zero {x : A} {j : I} (hz : ∀ d, link d z = none)
    (h : find link m d r p = some x) :
    (find link (write m t i z) d r p = some x ∧ write m t i z x j = m x j) ∨
      ∀ q, ∃ before, trail link (write m t i z) d r (p ++ j :: q) = before ++ [z] := by
  induction p generalizing d r with
  | nil =>
    obtain rfl := Option.some.inj h
    by_cases hwritten : r = t ∧ j = i
    · obtain ⟨rfl, rfl⟩ := hwritten
      exact .inr fun q => trail_write_zero_below hz rfl
    · exact .inl ⟨rfl, write_of_ne hwritten⟩
  | cons k p ih =>
    rw [find_cons] at h
    obtain ⟨c, hlink, hrest⟩ := Option.bind_eq_some_iff.mp h
    by_cases hwritten : r = t ∧ k = i
    · obtain ⟨rfl, rfl⟩ := hwritten
      refine .inr fun q => ⟨[], ?_⟩
      rw [List.cons_append, trail_cons, write_self, hz]
      rfl
    · have hentry : write m t i z r k = m r k := write_of_ne hwritten
      rcases ih (d := d + 1) (r := c) hrest with ⟨hfind, hsame⟩ | hcut
      · refine .inl ⟨?_, hsame⟩
        rw [find_cons, hentry, hlink]
        exact hfind
      · refine .inr fun q => ?_
        obtain ⟨before, hbefore⟩ := hcut q
        refine ⟨m r k :: before, ?_⟩
        rw [List.cons_append, trail_cons, hentry, hlink]
        exact congrArg _ hbefore

end Zero

/-! ### Grafts

An entry that was no link becomes a link to an empty table that was none before.
-/

section Graft

def graft [DecidableEq A] [DecidableEq I] (m : A → I → E) (t : A) (i : I) (e : E) (c : A) (z : E) :
    A → I → E :=
  write (clear m c z) t i e

variable (m : A → I → E) (root t : A) (p : List I) (i : I) (e : E) (c : A) (z : E)

structure Graftable : Prop where
  unshared : Unshared link m root
  table : find link m 0 root p = some t
  fresh : ¬ IsTable link m root c
  free : link p.length (m t i) = none
  linked : link p.length e = some c
  empty : ∀ d, link d z = none

variable {link m root t p i e c z} {q r : List I} {x : A} {j : I}

namespace Graftable

variable (h : Graftable link m root t p i e c z)

include h

theorem table_ne : t ≠ c := by
  rintro rfl
  exact h.fresh ⟨p, h.table⟩

theorem old_below (hx : find link m 0 root (p ++ i :: r) = some x) : False := by
  rw [find_append, h.table, Option.bind_some, find_cons, Nat.zero_add, h.free] at hx
  cases hx

theorem trail_before : trail link m 0 root (p ++ i :: r) = trail link m 0 root p ++ [m t i] := by
  rw [trail_append h.table, trail_cons, Nat.zero_add, h.free]
  rfl

variable [DecidableEq A]

theorem find_clear : find link (clear m c z) 0 root p = some t := by
  rw [Radix.find_clear h.fresh, h.table]

variable [DecidableEq I]

theorem new_entry (j : I) : graft m t i e c z c j = z := by
  unfold graft
  rw [write_of_ne_table h.table_ne.symm, clear_self]

theorem find_iff :
    find link (graft m t i e c z) 0 root q = some x ↔
      (q = p ++ [i] ∧ x = c) ∨ find link m 0 root q = some x := by
  have hunshared := h.unshared.clear h.fresh (z := z)
  by_cases hq : p ++ [i] <+: q
  · obtain ⟨r, rfl⟩ := hq
    rw [List.append_assoc, List.singleton_append]
    unfold graft
    rw [hunshared.find_write_below h.find_clear, h.linked, Option.bind_some]
    constructor
    · intro hx
      obtain ⟨rfl, rfl⟩ := find_of_empty h.empty h.new_entry hx
      exact .inl ⟨rfl, rfl⟩
    · rintro (⟨hpath, rfl⟩ | hx)
      · rw [List.append_right_inj, List.cons.injEq] at hpath
        rw [hpath.2, find_nil]
      · exact (h.old_below hx).elim
  · unfold graft
    rw [hunshared.find_write h.find_clear hq, Radix.find_clear h.fresh]
    constructor
    · exact .inr
    · rintro (⟨rfl, -⟩ | hx)
      · exact absurd (List.prefix_refl _) hq
      · exact hx

theorem find_new : find link (graft m t i e c z) 0 root (p ++ [i]) = some c :=
  h.find_iff.mpr (.inl ⟨rfl, rfl⟩)

theorem find_old (hx : find link m 0 root q = some x) :
    find link (graft m t i e c z) 0 root q = some x :=
  h.find_iff.mpr (.inr hx)

theorem isTable_iff :
    IsTable link (graft m t i e c z) root x ↔ x = c ∨ IsTable link m root x := by
  constructor
  · rintro ⟨q, hq⟩
    rcases h.find_iff.mp hq with ⟨-, rfl⟩ | hx
    · exact .inl rfl
    · exact .inr ⟨q, hx⟩
  · rintro (rfl | ⟨q, hx⟩)
    · exact ⟨_, h.find_new⟩
    · exact ⟨q, h.find_old hx⟩

theorem grafted : Unshared link (graft m t i e c z) root := by
  intro p' q' x hp' hq'
  rcases h.find_iff.mp hp' with ⟨rfl, rfl⟩ | hp'
  · rcases h.find_iff.mp hq' with ⟨rfl, -⟩ | hq'
    · rfl
    · exact absurd ⟨q', hq'⟩ h.fresh
  · rcases h.find_iff.mp hq' with ⟨-, hx⟩ | hq'
    · exact absurd ⟨p', hx ▸ hp'⟩ h.fresh
    · exact h.unshared p' q' x hp' hq'

/-- Every entry of a table is the new link, an empty one of the new table, or an old one. -/
theorem entry (hx : find link (graft m t i e c z) 0 root q = some x) :
    (q = p ∧ j = i ∧ graft m t i e c z x j = e) ∨ graft m t i e c z x j = z ∨
      (find link m 0 root q = some x ∧ graft m t i e c z x j = m x j) := by
  rcases h.find_iff.mp hx with ⟨-, rfl⟩ | hold
  · exact .inr (.inl (h.new_entry j))
  · have hxc : x ≠ c := by
      rintro rfl
      exact h.fresh ⟨q, hold⟩
    by_cases hwritten : x = t ∧ j = i
    · obtain ⟨rfl, rfl⟩ := hwritten
      exact .inl ⟨h.unshared q p x hold h.table, rfl, write_self⟩
    · refine .inr (.inr ⟨hold, ?_⟩)
      unfold graft
      rcases not_and_or.mp hwritten with ht | hi
      · rw [write_of_ne_table ht, clear_of_ne hxc]
      · rw [write_of_ne_index hi, clear_of_ne hxc]

theorem trail_off (hq : ¬ p ++ [i] <+: q) :
    trail link (graft m t i e c z) 0 root q = trail link m 0 root q := by
  unfold graft
  rw [(h.unshared.clear h.fresh).trail_write h.find_clear hq, trail_clear h.fresh]

theorem trail_after :
    trail link (graft m t i e c z) 0 root (p ++ i :: j :: r) =
      trail link m 0 root p ++ [e, z] := by
  have hunshared := h.unshared.clear h.fresh (z := z)
  calc trail link (graft m t i e c z) 0 root (p ++ i :: j :: r)
      = trail link (clear m c z) 0 root p ++ e ::
          (link p.length e).elim [] fun c' =>
            trail link (graft m t i e c z) (p.length + 1) c' (j :: r) :=
        hunshared.trail_write_below h.find_clear
    _ = trail link m 0 root p ++ [e, z] := by
        rw [h.linked, Option.elim_some, trail_of_empty h.empty h.new_entry, trail_clear h.fresh]

end Graftable

end Graft

/-! ### Cuts

An entry becomes one that is no link.
-/

section Cut

variable [DecidableEq A] [DecidableEq I] (m : A → I → E) (root t : A) (p : List I) (e : E)

structure Cuttable : Prop where
  unshared : Unshared link m root
  table : find link m 0 root p = some t
  leaf : link p.length e = none

variable {link m root t p e} {q r : List I} {x : A} {i j : I}

namespace Cuttable

variable (h : Cuttable link m root t p e)

include h

theorem find_iff :
    find link (write m t i e) 0 root q = some x ↔
      ¬ p ++ [i] <+: q ∧ find link m 0 root q = some x := by
  by_cases hq : p ++ [i] <+: q
  · obtain ⟨r, rfl⟩ := hq
    rw [List.append_assoc, List.singleton_append, h.unshared.find_write_below h.table, h.leaf]
    simp
  · rw [h.unshared.find_write h.table hq]
    simp [hq]

theorem cut : Unshared link (write m t i e) root := by
  intro p' q' x hp' hq'
  exact h.unshared p' q' x (h.find_iff.mp hp').2 (h.find_iff.mp hq').2

theorem entry (hx : find link (write m t i e) 0 root q = some x) :
    (q = p ∧ j = i ∧ write m t i e x j = e) ∨
      (find link m 0 root q = some x ∧ write m t i e x j = m x j) := by
  have hold := (h.find_iff.mp hx).2
  by_cases hwritten : x = t ∧ j = i
  · obtain ⟨rfl, rfl⟩ := hwritten
    exact .inl ⟨h.unshared q p x hold h.table, rfl, write_self⟩
  · exact .inr ⟨hold, write_of_ne hwritten⟩

theorem trail_off (hq : ¬ p ++ [i] <+: q) :
    trail link (write m t i e) 0 root q = trail link m 0 root q :=
  h.unshared.trail_write h.table hq

theorem trail_after :
    trail link (write m t i e) 0 root (p ++ i :: r) = trail link m 0 root p ++ [e] := by
  rw [h.unshared.trail_write_below h.table, h.leaf]
  rfl

end Cuttable

end Cut

end Radix
