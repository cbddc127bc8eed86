import Mathlib.Data.Option.Basic
import Mathlib.Logic.Function.Iterate
import Mathlib.Logic.Relation
import Mathlib.Order.Basic
import Mathlib.Tactic.Common

/-!
# Loops

`forUpTo body start stop` runs a body that may be undefined for `start`, `start + 1` and so on below
`stop`. An invariant that each round carries to the next holds at the end.

`whileDo guard body fuel` runs such a body as long as a guard holds. A trace is the sequence of states
that the loop would go through: where the guard fails first is where the loop ends, and a loop whose
body is undefined before that does not. `doWhile step again fuel` is a loop that tests after its body.
-/

namespace Loops

variable {σ : Type*} (body : Int → σ → Option σ)

/-- `count` more rounds, from `i` on. -/
def rounds : Nat → Int → σ → Option σ
  | 0, _, s => some s
  | count + 1, i, s => (body i s).bind (rounds count (i + 1))

def forUpTo (start stop : Int) (s : σ) : Option σ := rounds body (stop - start).toNat start s

variable {body} (Inv : Int → σ → Prop) {start stop : Int} {s : σ}

theorem rounds_spec {count : Nat}
    (hbody : ∀ i t, start ≤ i → i < start + count → Inv i t → ∃ t', body i t = some t' ∧ Inv (i + 1) t')
    (hstart : Inv start s) : ∃ s', rounds body count start s = some s' ∧ Inv (start + count) s' := by
  induction count generalizing start s with
  | zero => exact ⟨s, rfl, by simpa using hstart⟩
  | succ count ih =>
    obtain ⟨t, ht, hnext⟩ := hbody start s (Int.le_refl start) (by omega) hstart
    have hrest : ∃ s', rounds body count (start + 1) t = some s' ∧ Inv (start + 1 + count) s' := by
      refine ih (fun i t' hle hlt hinv => hbody i t' ?_ ?_ hinv) hnext <;> omega
    obtain ⟨s', hs', hend⟩ := hrest
    refine ⟨s', ?_, ?_⟩
    · rw [rounds, ht, Option.bind_some, hs']
    · rw [show start + ((count + 1 : Nat) : Int) = start + 1 + count by omega]
      exact hend

theorem forUpTo_spec
    (hbody : ∀ i t, start ≤ i → i < stop → Inv i t → ∃ t', body i t = some t' ∧ Inv (i + 1) t')
    (hstart : Inv start s) :
    ∃ s', forUpTo body start stop s = some s' ∧ Inv (max start stop) s' := by
  have hrounds : ∃ s', rounds body (stop - start).toNat start s = some s' ∧
      Inv (start + (stop - start).toNat) s' := by
    refine rounds_spec Inv (fun i t hle hlt hinv => hbody i t hle ?_ hinv) hstart
    omega
  obtain ⟨s', hs', hend⟩ := hrounds
  refine ⟨s', hs', ?_⟩
  rw [show max start stop = start + ((stop - start).toNat : Int) by omega]
  exact hend

theorem forUpTo_empty (h : stop ≤ start) : forUpTo body start stop s = some s := by
  rw [forUpTo, show (stop - start).toNat = 0 by omega]
  rfl

theorem rounds_eq_none {count : Nat} {i : Int} (hle : start ≤ i) (hlt : i < start + count)
    (h : ∀ t, body i t = none) : rounds body count start s = none := by
  induction count generalizing start s with
  | zero => omega
  | succ count ih =>
    rw [rounds]
    rcases Int.lt_or_eq_of_le hle with hlater | rfl
    · refine Option.bind_eq_none_iff.mpr fun t _ => ih hlater ?_
      omega
    · rw [h, Option.bind_none]

/-- A loop with a round that is undefined whatever the state. -/
theorem forUpTo_eq_none {i : Int} (hle : start ≤ i) (hlt : i < stop) (h : ∀ t, body i t = none) :
    forUpTo body start stop s = none :=
  rounds_eq_none hle (by omega) h

/-! ### Guarded loops -/

variable (guard : σ → Prop) [DecidablePred guard] (turn : σ → Option σ)

def whileDo : Nat → σ → Option σ
  | 0, _ => none
  | fuel + 1, s => if guard s then (turn s).bind (whileDo fuel) else some s

def Follows (trace : Nat → σ) (n : Nat) : Prop :=
  ∀ k < n, guard (trace k) ∧ turn (trace k) = some (trace (k + 1))

variable {guard turn} {trace : Nat → σ} {n fuel : Nat} {s' : σ}

theorem whileDo_turn (hguard : guard s) :
    whileDo guard turn (fuel + 1) s = (turn s).bind (whileDo guard turn fuel) := if_pos hguard

theorem whileDo_end (hguard : ¬ guard s) : whileDo guard turn (fuel + 1) s = some s := if_neg hguard

/-- After the turns of a trace the loop goes on from its last state. -/
theorem Follows.whileDo (h : Follows guard turn trace n) (fuel : Nat) :
    whileDo guard turn (n + fuel) (trace 0) = whileDo guard turn fuel (trace n) := by
  induction n generalizing fuel with
  | zero => rw [Nat.zero_add]
  | succ n ih =>
    have hshort : Follows guard turn trace n := fun k hk => h k (Nat.lt_succ_of_lt hk)
    obtain ⟨hguard, hturn⟩ := h n (Nat.lt_succ_self n)
    calc Loops.whileDo guard turn (n + 1 + fuel) (trace 0)
        = Loops.whileDo guard turn (n + (fuel + 1)) (trace 0) := by
          rw [Nat.add_assoc, Nat.add_comm 1]
      _ = Loops.whileDo guard turn (fuel + 1) (trace n) := ih hshort (fuel + 1)
      _ = Loops.whileDo guard turn fuel (trace (n + 1)) := by
          rw [whileDo_turn hguard, hturn, Option.bind_some]

theorem Follows.ends (h : Follows guard turn trace n) (hend : ¬ guard (trace n)) :
    Loops.whileDo guard turn (n + 1) (trace 0) = some (trace n) := by
  rw [h.whileDo 1]
  exact whileDo_end hend

/-- A loop that comes to a turn it cannot take does not end, whatever the fuel. -/
theorem Follows.diverges (h : Follows guard turn trace n) (hguard : guard (trace n))
    (hturn : turn (trace n) = none) (fuel : Nat) : Loops.whileDo guard turn fuel (trace 0) = none := by
  induction n generalizing trace fuel with
  | zero =>
    cases fuel with
    | zero => rfl
    | succ fuel => rw [whileDo_turn hguard, hturn, Option.bind_none]
  | succ n ih =>
    obtain ⟨hfirst, hnext⟩ := h 0 (Nat.succ_pos n)
    cases fuel with
    | zero => rfl
    | succ fuel =>
      rw [whileDo_turn hfirst, hnext, Option.bind_some]
      have hrest : Follows guard turn (fun k => trace (k + 1)) n :=
        fun k hk => h (k + 1) (Nat.succ_lt_succ hk)
      exact ih hrest hguard hturn fuel

/-- An invariant of the turns holds where the loop ends. -/
theorem whileDo_invariant {I : σ → Prop} (hturn : ∀ s s', I s → guard s → turn s = some s' → I s')
    (hs : I s) (h : Loops.whileDo guard turn fuel s = some s') : I s' := by
  induction fuel generalizing s with
  | zero => cases h
  | succ fuel ih =>
    by_cases hguard : guard s
    · rw [whileDo_turn hguard] at h
      obtain ⟨t, ht, hrest⟩ := Option.bind_eq_some_iff.mp h
      exact ih (hturn s t hs hguard ht) hrest
    · rw [whileDo_end hguard] at h
      exact Option.some.inj h ▸ hs

/-! ### Ends -/

variable (guard turn) in
def Reaches : σ → σ → Prop := Relation.ReflTransGen fun s t => guard s ∧ turn s = some t

variable {t last : σ}

theorem Reaches.whileDo (h : Reaches guard turn s t) (hend : Loops.whileDo guard turn fuel t = some last) :
    ∃ fuel', Loops.whileDo guard turn fuel' s = some last := by
  induction h using Relation.ReflTransGen.head_induction_on with
  | refl => exact ⟨fuel, hend⟩
  | head hstep _ ih =>
    obtain ⟨fuel', hrest⟩ := ih
    exact ⟨fuel' + 1, by rw [whileDo_turn hstep.1, hstep.2, Option.bind_some, hrest]⟩

theorem Reaches.whileDo_rest (h : Reaches guard turn s t)
    (hend : Loops.whileDo guard turn fuel s = some last) :
    ∃ fuel', Loops.whileDo guard turn fuel' t = some last := by
  induction h using Relation.ReflTransGen.head_induction_on generalizing fuel with
  | refl => exact ⟨fuel, hend⟩
  | head hstep _ ih =>
    cases fuel with
    | zero => cases hend
    | succ fuel =>
      rw [whileDo_turn hstep.1, hstep.2, Option.bind_some] at hend
      exact ih hend

theorem reaches_of_whileDo (h : whileDo guard turn fuel s = some last) :
    Reaches guard turn s last ∧ ¬ guard last := by
  induction fuel generalizing s with
  | zero => cases h
  | succ fuel ih =>
    by_cases hguard : guard s
    · rw [whileDo_turn hguard] at h
      obtain ⟨t, ht, hrest⟩ := Option.bind_eq_some_iff.mp h
      exact ⟨.head ⟨hguard, ht⟩ (ih hrest).1, (ih hrest).2⟩
    · rw [whileDo_end hguard] at h
      exact Option.some.inj h ▸ ⟨.refl, hguard⟩

/-- A loop ends when all its turns are defined, and from each the measure goes down in the end. -/
theorem whileDo_ends_iff (μ : σ → Nat) :
    (∃ fuel last, whileDo guard turn fuel s = some last) ↔
      ∀ t, Reaches guard turn s t → guard t →
        turn t ≠ none ∧ ∃ u, Reaches guard turn t u ∧ (¬ guard u ∨ μ u < μ t) := by
  constructor
  · rintro ⟨fuel, last, hend⟩ t hreach hguard
    obtain ⟨fuel', hrest⟩ := hreach.whileDo_rest hend
    refine ⟨fun hnone => ?_, last, (reaches_of_whileDo hrest).1, Or.inl (reaches_of_whileDo hrest).2⟩
    cases fuel' with
    | zero => cases hrest
    | succ fuel' =>
      rw [whileDo_turn hguard, hnone, Option.bind_none] at hrest
      cases hrest
  · intro h
    have hfrom (n : Nat) : ∀ t, Reaches guard turn s t → μ t < n →
        ∃ fuel last, whileDo guard turn fuel t = some last := by
      induction n with
      | zero => exact fun t _ hlt => absurd hlt (Nat.not_lt_zero _)
      | succ n ih =>
        intro t hreach hlt
        by_cases hguard : guard t
        · obtain ⟨-, u, hu, hu'⟩ := h t hreach hguard
          have hrest : ∃ fuel last, whileDo guard turn fuel u = some last := by
            rcases hu' with hstop | hdown
            · exact ⟨1, u, whileDo_end hstop⟩
            · exact ih u (hreach.trans hu) (Nat.lt_of_lt_of_le hdown (Nat.le_of_lt_succ hlt))
          obtain ⟨fuel, last, hend⟩ := hrest
          obtain ⟨fuel', hend'⟩ := hu.whileDo hend
          exact ⟨fuel', last, hend'⟩
        · exact ⟨1, t, whileDo_end hguard⟩
    exact hfrom (μ s + 1) s .refl (Nat.lt_succ_self _)

/-- Where a bad turn is followed by another one, a loop ends when no turn it comes to is bad. -/
theorem whileDo_ends_iff_good (μ : σ → Nat) {I Good : σ → Prop} (hs : I s)
    (hturn : ∀ t, I t → guard t → ∃ u, turn t = some u ∧ I u ∧
      (Good t → μ u < μ t) ∧ (¬ Good t → guard u ∧ ¬ Good u)) :
    (∃ fuel last, whileDo guard turn fuel s = some last) ↔
      ∀ t, Reaches guard turn s t → guard t → Good t := by
  have hinvariant {t : σ} (h : Reaches guard turn s t) : I t := by
    induction h with
    | refl => exact hs
    | tail _ hstep ih =>
      obtain ⟨u, hu, hI, -⟩ := hturn _ ih hstep.1
      obtain rfl := Option.some.inj (hstep.2.symm.trans hu)
      exact hI
  constructor
  · rintro ⟨fuel, last, hend⟩ t hreach hguard
    by_contra hbad
    have hstuck {u : σ} (h : Reaches guard turn t u) : guard u ∧ ¬ Good u := by
      induction h with
      | refl => exact ⟨hguard, hbad⟩
      | tail hprev hstep ih =>
        obtain ⟨u, hu, -, -, hagain⟩ := hturn _ (hinvariant (hreach.trans hprev)) hstep.1
        obtain rfl := Option.some.inj (hstep.2.symm.trans hu)
        exact hagain ih.2
    obtain ⟨fuel', hrest⟩ := hreach.whileDo_rest hend
    obtain ⟨hlast, hstop⟩ := reaches_of_whileDo hrest
    exact hstop (hstuck hlast).1
  · intro h
    apply (whileDo_ends_iff μ).mpr
    intro t hreach hguard
    obtain ⟨u, hu, -, hdown, -⟩ := hturn t (hinvariant hreach) hguard
    refine ⟨hu ▸ Option.some_ne_none u, u, .single ⟨hguard, hu⟩, .inr ?_⟩
    exact hdown (h t hreach hguard)

/-! ### Loops with the test at the bottom -/

section DoWhile

variable (step : σ → σ) (again : σ → Prop) [DecidablePred again]

def doWhile : Nat → σ → Option σ
  | 0, _ => none
  | fuel + 1, s => if again (step s) then doWhile fuel (step s) else some (step s)

variable {step again} {last' : σ} {fuel' : Nat}

/-- The loop stops after the first turn that does not ask for another. -/
theorem doWhile_eq (hagain : ∀ k < n, again (step^[k + 1] s)) (hend : ¬ again (step^[n + 1] s)) :
    doWhile step again (n + 1) s = some (step^[n + 1] s) := by
  induction n generalizing s with
  | zero => exact if_neg hend
  | succ n ih =>
    have hfirst : again (step s) := hagain 0 (Nat.succ_pos n)
    rw [doWhile, if_pos hfirst]
    exact ih (fun k hk => hagain (k + 1) (Nat.succ_lt_succ hk)) hend

/-- More fuel changes nothing. -/
theorem doWhile_unique (h : doWhile step again fuel s = some last)
    (h' : doWhile step again fuel' s = some last') : last = last' := by
  induction fuel generalizing s fuel' with
  | zero => cases h
  | succ fuel ih =>
    cases fuel' with
    | zero => cases h'
    | succ fuel' =>
      rw [doWhile] at h h'
      by_cases hagain : again (step s)
      · rw [if_pos hagain] at h h'
        exact ih h h'
      · rw [if_neg hagain] at h h'
        exact Option.some.inj (h.symm.trans h')

end DoWhile

end Loops
