import Mathlib.Data.List.Count
import Mathlib.Logic.Equiv.Basic
import Mathlib.Logic.Function.Basic

/-!
# Owners and what they hold

Every live resource is held by exactly one owner, and has been allocated once more often than it was
released; a resource that is not live has been released as often as it was allocated. The operations
of owners keep this: to acquire a fresh resource, to release one's own, to hand it over and to
exchange.
-/

@[ext]
structure Owners (κ α : Type*) where
  holds : κ → Option α
  live : α → Bool
  allocated : List α
  released : List α

namespace Owners

variable {κ α : Type*} [DecidableEq κ] [DecidableEq α]

structure Sound (b : Owners κ α) : Prop where
  live_iff : ∀ a, b.live a = true ↔ ∃ k, b.holds k = some a
  unique : ∀ k k' a, b.holds k = some a → b.holds k' = some a → k = k'
  once : ∀ a, b.allocated.count a = b.released.count a + if b.live a then 1 else 0

def acquire (b : Owners κ α) (k : κ) (a : α) : Owners κ α :=
  { b with
    holds := Function.update b.holds k (some a)
    live := Function.update b.live a true
    allocated := a :: b.allocated }

def release (b : Owners κ α) (k : κ) : Owners κ α :=
  match b.holds k with
  | none => b
  | some a =>
    { b with
      holds := Function.update b.holds k none
      live := Function.update b.live a false
      released := a :: b.released }

/-- What `k` holds goes to `k'`. -/
def transfer (b : Owners κ α) (k k' : κ) : Owners κ α :=
  { b with holds := Function.update (Function.update b.holds k none) k' (b.holds k) }

def exchange (b : Owners κ α) (k k' : κ) : Owners κ α :=
  { b with holds := Function.update (Function.update b.holds k (b.holds k')) k' (b.holds k) }

variable {b : Owners κ α} {k k' : κ} {a : α}

omit [DecidableEq α] in
theorem transfer_eq_exchange (h : b.holds k' = none) : b.transfer k k' = b.exchange k k' := by
  unfold transfer exchange
  rw [h]

theorem release_none (h : b.holds k = none) : b.release k = b := by
  unfold release
  rw [h]

theorem release_some (h : b.holds k = some a) :
    b.release k =
      { b with
        holds := Function.update b.holds k none
        live := Function.update b.live a false
        released := a :: b.released } := by
  unfold release
  rw [h]

omit [DecidableEq κ] in
theorem Sound.live_of_holds (h : b.Sound) (hk : b.holds k = some a) : b.live a = true :=
  (h.live_iff a).mpr ⟨k, hk⟩

theorem Sound.acquire (h : b.Sound) (hk : b.holds k = none) (ha : b.live a = false) :
    (b.acquire k a).Sound := by
  have hfree : ∀ j, b.holds j ≠ some a := fun j hj => by
    rw [h.live_of_holds hj] at ha
    cases ha
  refine ⟨fun x => ?_, fun i j x hi hj => ?_, fun x => ?_⟩
  · simp only [Owners.acquire, Function.update_apply]
    by_cases hx : x = a
    · subst hx
      simp only [if_true, true_iff]
      exact ⟨k, if_pos rfl⟩
    · rw [if_neg hx, h.live_iff]
      apply exists_congr
      intro j
      by_cases hj : j = k
      · simp [hj, hk, Ne.symm hx]
      · rw [if_neg hj]
  · simp only [Owners.acquire, Function.update_apply] at hi hj
    split at hi
    · next hik =>
      cases hi
      split at hj
      · next hjk => rw [hik, hjk]
      · exact absurd hj (hfree j)
    · split at hj
      · cases hj
        exact absurd hi (hfree i)
      · exact h.unique i j x hi hj
  · have hx := h.once x
    simp only [Owners.acquire, Function.update_apply, List.count_cons, beq_iff_eq]
    by_cases hax : a = x
    · subst hax
      simp [ha] at hx
      simp [hx]
    · simp [hax, Ne.symm hax, hx]

theorem Sound.release (h : b.Sound) (k : κ) : (b.release k).Sound := by
  cases hk : b.holds k with
  | none => rwa [release_none hk]
  | some a =>
    have hlive := h.live_of_holds hk
    rw [release_some hk]
    refine ⟨fun x => ?_, fun i j x hi hj => ?_, fun x => ?_⟩
    · simp only [Function.update_apply]
      by_cases hx : x = a
      · subst hx
        simp only [if_true, Bool.false_eq_true, false_iff, not_exists]
        intro j hj
        split at hj
        · cases hj
        · next hjk => exact hjk (h.unique j k x hj hk)
      · rw [if_neg hx, h.live_iff]
        apply exists_congr
        intro j
        by_cases hj : j = k
        · simp [hj, hk, Ne.symm hx]
        · rw [if_neg hj]
    · simp only [Function.update_apply] at hi hj
      split at hi
      · cases hi
      · split at hj
        · cases hj
        · exact h.unique i j x hi hj
    · have hx := h.once x
      simp only [Function.update_apply, List.count_cons, beq_iff_eq]
      by_cases hax : a = x
      · subst hax
        simp [hlive] at hx
        simp [hx]
      · simp [hax, Ne.symm hax, hx]

theorem Sound.exchange (h : b.Sound) (k k' : κ) : (b.exchange k k').Sound := by
  have hholds : (b.exchange k k').holds = fun j => b.holds (Equiv.swap k k' j) := by
    funext j
    simp only [Owners.exchange, Function.update_apply, Equiv.swap_apply_def]
    by_cases hj' : j = k'
    · subst hj'
      by_cases hj : j = k <;> simp [hj]
    · by_cases hj : j = k
      · subst hj
        simp [hj']
      · simp [hj, hj']
  refine ⟨fun x => ?_, fun i j x hi hj => ?_, h.once⟩
  · rw [hholds, show (b.exchange k k').live = b.live from rfl, h.live_iff]
    constructor
    · rintro ⟨j, hj⟩
      exact ⟨Equiv.swap k k' j, by simpa using hj⟩
    · rintro ⟨j, hj⟩
      exact ⟨Equiv.swap k k' j, hj⟩
  · rw [hholds] at hi hj
    exact (Equiv.swap k k').injective (h.unique _ _ x hi hj)

/-- To hand over to an owner that holds nothing is to exchange. -/
theorem Sound.transfer (h : b.Sound) (hk : b.holds k' = none) : (b.transfer k k').Sound :=
  transfer_eq_exchange hk ▸ h.exchange k k'

end Owners
