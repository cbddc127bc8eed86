import Mathlib.Data.Finset.Basic
import Mathlib.Data.Finset.SDiff
import Mathlib.Data.Set.Basic
import Mathlib.Order.Disjoint

/-!
# A ledger of disjoint grants

Resources are granted in finite sets and released in any pieces. The books are sound when the used
resources are the ones unusable from the start and the ones granted, and no two grants share one.
-/

namespace Ledger

variable {α : Type*} [DecidableEq α]

structure Sound (initial used : Set α) (live : List (Finset α)) : Prop where
  used_iff : ∀ x, x ∈ used ↔ x ∈ initial ∨ ∃ s ∈ live, x ∈ s
  disjoint : live.Pairwise Disjoint
  fresh : ∀ s ∈ live, ∀ x ∈ s, x ∉ initial

variable {initial used : Set α} {live : List (Finset α)}

omit [DecidableEq α] in
theorem sound_nil : Sound initial initial ([] : List (Finset α)) :=
  ⟨by simp, List.Pairwise.nil, by simp⟩

omit [DecidableEq α] in
theorem Sound.grant (h : Sound initial used live) {s : Finset α} (hs : ∀ x ∈ s, x ∉ used) :
    Sound initial (used ∪ s) (s :: live) := by
  refine ⟨fun x => ?_, List.pairwise_cons.mpr ⟨fun t ht => ?_, h.disjoint⟩, fun t ht x hx => ?_⟩
  · simp only [Set.mem_union, h.used_iff, Finset.mem_coe, List.mem_cons, exists_eq_or_imp]
    rw [or_assoc]
    exact or_congr_right or_comm
  · rw [Finset.disjoint_left]
    exact fun x hx hxt => hs x hx ((h.used_iff x).mpr (.inr ⟨t, ht, hxt⟩))
  · rcases List.mem_cons.mp ht with rfl | ht
    · exact fun hinit => hs x hx ((h.used_iff x).mpr (.inl hinit))
    · exact h.fresh t ht x hx

/-- Releasing resources that are granted, whatever the grants they came from. -/
theorem Sound.release (h : Sound initial used live) {s : Finset α}
    (hs : ∀ x ∈ s, ∃ t ∈ live, x ∈ t) :
    Sound initial (used \ s) (live.map (· \ s)) := by
  refine ⟨fun x => ?_, ?_, fun t ht x hx => ?_⟩
  · simp only [Set.mem_sdiff, h.used_iff, Finset.mem_coe, List.mem_map, exists_exists_and_eq_and,
      Finset.mem_sdiff]
    constructor
    · rintro ⟨hinit | ⟨t, ht, hx⟩, hxs⟩
      · exact .inl hinit
      · exact .inr ⟨t, ht, hx, hxs⟩
    · rintro (hinit | ⟨t, ht, hx, hxs⟩)
      · refine ⟨.inl hinit, fun hxs => ?_⟩
        obtain ⟨t, ht, hx⟩ := hs x hxs
        exact h.fresh t ht x hx hinit
      · exact ⟨.inr ⟨t, ht, hx⟩, hxs⟩
  · exact List.pairwise_map.mpr (h.disjoint.imp fun hd => hd.mono Finset.sdiff_subset
      Finset.sdiff_subset)
  · obtain ⟨u, hu, rfl⟩ := List.mem_map.mp ht
    exact h.fresh u hu x (Finset.mem_sdiff.mp hx).1

end Ledger
