import Mathlib.Data.Option.Basic
import Mathlib.Tactic.Common

/-!
# Machines that answer calls

A machine takes a call in a state and answers it. `run` is a machine that may be undefined, `replies`
a total one. A relation between the states of two machines under which every call gets the same
answer carries over to runs; and when a condition says exactly which calls are answered well, a run
is exactly when all its calls meet it.
-/

namespace Refinement

variable {σ τ ι ο : Type*}

def run (step : σ → ι → Option (σ × ο)) : σ → List ι → Option (σ × List ο)
  | s, [] => some (s, [])
  | s, i :: calls => do
    let (s, o) ← step s i
    let (s, os) ← run step s calls
    some (s, o :: os)

def replies (step : σ → ι → σ × ο) : σ → List ι → σ × List ο
  | s, [] => (s, [])
  | s, i :: calls =>
    let rest := replies step (step s i).1 calls
    (rest.1, (step s i).2 :: rest.2)

/-- Every call of a run, with the state it is made in. -/
def EachCall (step : σ → ι → σ × ο) (C : σ → ι → Prop) : σ → List ι → Prop
  | _, [] => True
  | s, i :: calls => C s i ∧ EachCall step C (step s i).1 calls

/-- What the last call with something to say says. -/
def latest (on : ι → Option ο) (initial : ο) (calls : List ι) : ο :=
  (calls.filterMap on).getLast?.getD initial

theorem latest_concat (on : ι → Option ο) (initial : ο) (calls : List ι) (i : ι) :
    latest on initial (calls ++ [i]) = (on i).getD (latest on initial calls) := by
  unfold latest
  rw [List.filterMap_append]
  cases h : on i with
  | none => simp [h]
  | some o => simp [h]

variable {step : σ → ι → σ × ο} {spec : τ → ι → τ × ο} {R : σ → τ → Prop} {C D : σ → ι → Prop}

@[simp] theorem replies_nil (s : σ) : replies step s [] = (s, []) := rfl

@[simp] theorem replies_cons (s : σ) (i : ι) (calls : List ι) :
    replies step s (i :: calls) =
      ((replies step (step s i).1 calls).1, (step s i).2 :: (replies step (step s i).1 calls).2) :=
  rfl

theorem replies_append (s : σ) (calls rest : List ι) :
    replies step s (calls ++ rest) =
      ((replies step (replies step s calls).1 rest).1,
        (replies step s calls).2 ++ (replies step (replies step s calls).1 rest).2) := by
  induction calls generalizing s with
  | nil => rfl
  | cons i calls ih => simp only [List.cons_append, replies_cons, ih]

theorem replies_concat (s : σ) (calls : List ι) (i : ι) :
    (replies step s (calls ++ [i])).1 = (step (replies step s calls).1 i).1 := by
  rw [replies_append]
  rfl

@[simp] theorem replies_length (s : σ) (calls : List ι) :
    (replies step s calls).2.length = calls.length := by
  induction calls generalizing s with
  | nil => rfl
  | cons i calls ih => rw [replies_cons, List.length_cons, ih, List.length_cons]

/-- An invariant of the state and of all replies so far. -/
theorem replies_history {I : List ο → σ → Prop}
    (hstep : ∀ os s i, I os s → I (os ++ [(step s i).2]) (step s i).1) {os : List ο} {s : σ}
    (hs : I os s) (calls : List ι) : I (os ++ (replies step s calls).2) (replies step s calls).1 := by
  induction calls generalizing os s with
  | nil => rwa [replies_nil, List.append_nil]
  | cons i calls ih =>
    have hrest := ih (hstep os s i hs)
    rwa [List.append_assoc, List.singleton_append] at hrest

theorem replies_map {κ : Type*} (f : κ → ι) (s : σ) (calls : List κ) :
    replies step s (calls.map f) = replies (fun s k => step s (f k)) s calls := by
  induction calls generalizing s with
  | nil => rfl
  | cons i calls ih => rw [List.map_cons, replies_cons, replies_cons, ih]

theorem eachCall_map {κ : Type*} (f : κ → ι) (s : σ) (calls : List κ) :
    EachCall step C s (calls.map f) ↔
      EachCall (fun s k => step s (f k)) (fun s k => C s (f k)) s calls := by
  induction calls generalizing s with
  | nil => exact Iff.rfl
  | cons i calls ih => exact and_congr_right fun _ => ih _

theorem eachCall_append (s : σ) (calls rest : List ι) :
    EachCall step C s (calls ++ rest) ↔
      EachCall step C s calls ∧ EachCall step C (replies step s calls).1 rest := by
  induction calls generalizing s with
  | nil => exact ⟨fun h => ⟨trivial, h⟩, And.right⟩
  | cons i calls ih => rw [List.cons_append, EachCall, ih, EachCall, and_assoc, replies_cons]

theorem eachCall_concat (s : σ) (calls : List ι) (i : ι) :
    EachCall step C s (calls ++ [i]) ↔
      EachCall step C s calls ∧ C (replies step s calls).1 i := by
  rw [eachCall_append, EachCall, EachCall, and_true]

/-- Messages of several calls, each of which brings the machine back to where it was. -/
theorem replies_messages {κ : Type*} {encode : κ → List ι} {answers : κ → List ο} {s : σ}
    (h : ∀ k, replies step s (encode k) = (s, answers k)) (messages : List κ) :
    replies step s (messages.flatMap encode) = (s, messages.flatMap answers) := by
  induction messages with
  | nil => rfl
  | cons k messages ih => rw [List.flatMap_cons, replies_append, h, ih, List.flatMap_cons]

theorem eachCall_messages {κ : Type*} {encode : κ → List ι} {s : σ}
    (hstate : ∀ k, (replies step s (encode k)).1 = s) (h : ∀ k, EachCall step C s (encode k))
    (messages : List κ) : EachCall step C s (messages.flatMap encode) := by
  induction messages with
  | nil => trivial
  | cons k messages ih =>
    rw [List.flatMap_cons, eachCall_append, hstate]
    exact ⟨h k, ih⟩

theorem run_cons_eq_some {step : σ → ι → Option (σ × ο)} {s s' : σ} {i : ι} {calls : List ι}
    {os : List ο} : run step s (i :: calls) = some (s', os) ↔
      ∃ s₁ o rest, step s i = some (s₁, o) ∧ run step s₁ calls = some (s', rest) ∧ os = o :: rest := by
  constructor
  · intro h
    obtain ⟨⟨s₁, o⟩, hstep, hrest⟩ := Option.bind_eq_some_iff.mp h
    obtain ⟨⟨s₂, rest⟩, hrun, heq⟩ := Option.bind_eq_some_iff.mp hrest
    obtain ⟨rfl, rfl⟩ := Prod.mk.inj (Option.some.inj heq)
    exact ⟨s₁, o, rest, hstep, hrun, rfl⟩
  · rintro ⟨s₁, o, rest, hstep, hrun, rfl⟩
    simp only [run, hstep, hrun, Option.bind_eq_bind, Option.bind_some]

theorem run_step {step : σ → ι → Option (σ × ο)} {s s₁ s' : σ} {i : ι} {o : ο} {calls : List ι}
    {os : List ο} (hi : step s i = some (s₁, o)) (h : run step s₁ calls = some (s', os)) :
    run step s (i :: calls) = some (s', o :: os) :=
  run_cons_eq_some.mpr ⟨s₁, o, os, hi, h, rfl⟩

theorem run_append {step : σ → ι → Option (σ × ο)} {s s₁ s' : σ} {calls rest : List ι}
    {os os' : List ο} (h : run step s calls = some (s₁, os)) (h' : run step s₁ rest = some (s', os')) :
    run step s (calls ++ rest) = some (s', os ++ os') := by
  induction calls generalizing s os with
  | nil =>
    obtain ⟨rfl, rfl⟩ := Prod.mk.inj (Option.some.inj h)
    exact h'
  | cons j calls ih =>
    obtain ⟨s₂, o, os₂, h₂, hrest, rfl⟩ := run_cons_eq_some.mp h
    exact run_step h₂ (ih hrest)

theorem run_concat {step : σ → ι → Option (σ × ο)} {s s₁ s' : σ} {calls : List ι} {os : List ο}
    {i : ι} {o : ο} (h : run step s calls = some (s₁, os)) (hi : step s₁ i = some (s', o)) :
    run step s (calls ++ [i]) = some (s', os ++ [o]) :=
  run_append h (run_step hi rfl)

/-- Messages of several calls, each of which a machine on messages answers as a whole. -/
theorem run_messages {κ : Type*} {step : σ → ι → Option (σ × ο)} {spec : τ → κ → τ × List ο}
    {encode : κ → List ι}
    (hmessage : ∀ s t k, R s t → ∃ s', run step s (encode k) = some (s', (spec t k).2) ∧
      R s' (spec t k).1)
    {s : σ} {t : τ} (h : R s t) (messages : List κ) :
    ∃ s', run step s (messages.flatMap encode) = some (s', (replies spec t messages).2.flatten) ∧
      R s' (replies spec t messages).1 := by
  induction messages generalizing s t with
  | nil => exact ⟨s, rfl, h⟩
  | cons k messages ih =>
    obtain ⟨s₁, h₁, hR⟩ := hmessage s t k h
    obtain ⟨s', hrest, hR'⟩ := ih hR
    exact ⟨s', run_append h₁ hrest, hR'⟩

theorem EachCall.of_append {s : σ} {calls rest : List ι} (h : EachCall step C s (calls ++ rest)) :
    EachCall step C s calls :=
  ((eachCall_append s calls rest).mp h).1

theorem mem_replies {o : ο} {s : σ} {calls : List ι} (h : o ∈ (replies step s calls).2) :
    ∃ s' i, (step s' i).2 = o := by
  induction calls generalizing s with
  | nil => cases h
  | cons i calls ih =>
    rcases List.mem_cons.mp h with rfl | hrest
    · exact ⟨s, i, rfl⟩
    · exact ih hrest

/-- Where the condition does not look at the state. -/
theorem eachCall_iff_forall {C : ι → Prop} {s : σ} {calls : List ι} :
    EachCall step (fun _ => C) s calls ↔ ∀ i ∈ calls, C i := by
  induction calls generalizing s with
  | nil => simp [EachCall]
  | cons i calls ih => rw [List.forall_mem_cons, EachCall, ih]

/-- A machine that may be undefined follows a total one as long as the calls meet a condition. -/
theorem run_refines_of {step : σ → ι → Option (σ × ο)} {C : τ → ι → Prop}
    (hstep : ∀ s t i, R s t → C t i → ∃ s', step s i = some (s', (spec t i).2) ∧ R s' (spec t i).1)
    {s : σ} {t : τ} (h : R s t) {calls : List ι} (hcalls : EachCall spec C t calls) :
    ∃ s', run step s calls = some (s', (replies spec t calls).2) ∧
      R s' (replies spec t calls).1 := by
  induction calls generalizing s t with
  | nil => exact ⟨s, rfl, h⟩
  | cons i calls ih =>
    obtain ⟨s₁, h₁, hR⟩ := hstep s t i h hcalls.1
    obtain ⟨s', hrest, hR'⟩ := ih hR hcalls.2
    exact ⟨s', run_step h₁ hrest, hR'⟩

theorem run_refines {step : σ → ι → Option (σ × ο)}
    (hstep : ∀ s t i, R s t → ∃ s', step s i = some (s', (spec t i).2) ∧ R s' (spec t i).1)
    {s : σ} {t : τ} (h : R s t) (calls : List ι) :
    ∃ s', run step s calls = some (s', (replies spec t calls).2) ∧
      R s' (replies spec t calls).1 :=
  run_refines_of (fun s t i hR _ => hstep s t i hR) h
    (eachCall_iff_forall.mpr fun _ _ => trivial)

/-! ### Runs that go well -/

/-- Every call of a run that may be undefined meets a condition, in the state it is made in. -/
def Throughout (step : σ → ι → Option (σ × ο)) (C : σ → ι → Prop) : σ → List ι → Prop
  | _, [] => True
  | s, i :: calls => C s i ∧ ∀ s' o, step s i = some (s', o) → Throughout step C s' calls

section Throughout

variable {step : σ → ι → Option (σ × ο)} {s s' : σ} {i : ι} {calls : List ι} {o : ο} {os : List ο}

theorem run_invariant {I : σ → Prop} (hkeep : ∀ s i s' o, I s → step s i = some (s', o) → I s')
    (hs : I s) (h : run step s calls = some (s', os)) : I s' := by
  induction calls generalizing s os with
  | nil =>
    obtain ⟨rfl, -⟩ := Prod.mk.inj (Option.some.inj h)
    exact hs
  | cons i calls ih =>
    obtain ⟨s₁, o, rest, h₁, hrest, -⟩ := run_cons_eq_some.mp h
    exact ih (hkeep s i s₁ o hs h₁) hrest

/-- When a condition says exactly which calls are defined and answered well, it says so of runs. -/
theorem run_good_iff {I : σ → Prop} {G : ο → Prop}
    (hstep : ∀ s i, I s → (C s i ↔ ∃ s' o, step s i = some (s', o) ∧ G o))
    (hkeep : ∀ s i s' o, I s → step s i = some (s', o) → I s') (hs : I s) :
    (∃ s' os, run step s calls = some (s', os) ∧ ∀ o ∈ os, G o) ↔ Throughout step C s calls := by
  induction calls generalizing s with
  | nil => exact ⟨fun _ => trivial, fun _ => ⟨s, [], rfl, by simp⟩⟩
  | cons i calls ih =>
    constructor
    · rintro ⟨s', os, hrun, hgood⟩
      obtain ⟨s₁, o, rest, h₁, hrest, rfl⟩ := run_cons_eq_some.mp hrun
      rw [List.forall_mem_cons] at hgood
      refine ⟨(hstep s i hs).mpr ⟨s₁, o, h₁, hgood.1⟩, fun s₂ o₂ h₂ => ?_⟩
      obtain ⟨rfl, rfl⟩ := Prod.mk.inj (Option.some.inj (h₁.symm.trans h₂))
      exact (ih (hkeep s i s₁ o hs h₁)).mp ⟨s', rest, hrest, hgood.2⟩
    · rintro ⟨hC, hcalls⟩
      obtain ⟨s₁, o, h₁, hgood⟩ := (hstep s i hs).mp hC
      obtain ⟨s', rest, hrest, hrestGood⟩ :=
        (ih (hkeep s i s₁ o hs h₁)).mpr (hcalls s₁ o h₁)
      refine ⟨s', o :: rest, run_cons_eq_some.mpr ⟨s₁, o, rest, h₁, hrest, rfl⟩, ?_⟩
      exact List.forall_mem_cons.mpr ⟨hgood, hrestGood⟩

/-- When a condition says which calls that are defined are answered well, it says so of a run. -/
theorem run_replies_iff {G : ο → Prop} {D : ι → Prop}
    (hstep : ∀ s i s' o, step s i = some (s', o) → (G o ↔ D i))
    (h : run step s calls = some (s', os)) : (∀ o ∈ os, G o) ↔ ∀ i ∈ calls, D i := by
  induction calls generalizing s os with
  | nil =>
    obtain ⟨-, rfl⟩ := Prod.mk.inj (Option.some.inj h)
    exact iff_of_true (List.forall_mem_nil _) (List.forall_mem_nil _)
  | cons i calls ih =>
    obtain ⟨s₁, o, rest, h₁, hrest, rfl⟩ := run_cons_eq_some.mp h
    rw [List.forall_mem_cons, List.forall_mem_cons, hstep s i s₁ o h₁, ih hrest]

end Throughout

/-! ### Specifications that leave something open -/

/-- A run that is defined throughout, beside a run of a specification in which a step of the machine
picks a step of the specification. -/
def Simulates (step : σ → ι → Option (σ × ο)) (R : σ → τ → Prop) (Q : τ → ι → τ → σ → ο → Prop) :
    σ → τ → List ι → Prop
  | s, t, [] => R s t
  | s, t, i :: calls =>
    R s t ∧ ∃ s' o t', step s i = some (s', o) ∧ Q t i t' s' o ∧ Simulates step R Q s' t' calls

theorem simulates_of_throughout {step : σ → ι → Option (σ × ο)} {I : σ → τ → Prop}
    {Q : τ → ι → τ → σ → ο → Prop}
    (hstep : ∀ s t i, I s t → C s i → ∃ s' o t', step s i = some (s', o) ∧ Q t i t' s' o ∧ I s' t')
    (hR : ∀ s t, I s t → R s t) {s : σ} {t : τ} (h : I s t) {calls : List ι}
    (hcalls : Throughout step C s calls) : Simulates step R Q s t calls := by
  induction calls generalizing s t with
  | nil => exact hR s t h
  | cons i calls ih =>
    obtain ⟨s', o, t', hs', hQ, hI⟩ := hstep s t i h hcalls.1
    exact ⟨hR s t h, s', o, t', hs', hQ, ih hI (hcalls.2 s' o hs')⟩

/-! ### Callers that do not see each other -/

section Callers

variable {κ : Type*} [DecidableEq κ]

/-- The replies that one caller gets. -/
def observed (k : κ) (calls : List (κ × ι)) (os : List ο) : List ο :=
  ((calls.zip os).filter fun r => r.1.1 = k).map Prod.snd

/-- When a caller's own calls preserve a relation with equal replies, and those of the others preserve
it on one side alone, the caller gets the same replies as if it were alone. -/
theorem observed_replies {step : σ → κ × ι → σ × ο} {R : σ → σ → Prop} {P : κ × ι → Prop} (k : κ)
    (hown : ∀ s t i, R s t → P (k, i) →
      (step s (k, i)).2 = (step t (k, i)).2 ∧ R (step s (k, i)).1 (step t (k, i)).1)
    (hother : ∀ s t j i, R s t → j ≠ k → P (j, i) → R (step s (j, i)).1 t)
    {s t : σ} (h : R s t) {calls : List (κ × ι)} (hcalls : ∀ c ∈ calls, P c) :
    observed k calls (replies step s calls).2 =
      (replies step t (calls.filter fun c => c.1 = k)).2 := by
  induction calls generalizing s t with
  | nil => rfl
  | cons c calls ih =>
    obtain ⟨j, i⟩ := c
    rw [List.forall_mem_cons] at hcalls
    by_cases hj : j = k
    · subst hj
      obtain ⟨hreply, hR⟩ := hown s t i h hcalls.1
      have hrest := ih hR hcalls.2
      simp only [observed] at hrest
      simp [observed, hreply, hrest]
    · have hrest := ih (hother s t j i h hj hcalls.1) hcalls.2
      simp only [observed] at hrest
      simp [observed, hj, hrest]

end Callers

end Refinement
