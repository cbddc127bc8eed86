import Mathlib.Data.Option.Basic
import Mathlib.Tactic.Common

/-!
# Runs of a partial step function

A system is a step function that may be undefined. `exec` runs a list of actions; `Always` speaks of
every state a run meets and `EachStep` of every step it takes, up to the first undefined one. The
last theorem is the shape of an exact characterisation: when good steps keep an invariant and a bad
step breaks the property at once, the property holds throughout exactly when all steps are good.
Two systems whose steps are defined together and keep a relation have runs that do.
-/

namespace Run

variable {σ α : Type*} (step : σ → α → Option σ)

def exec : σ → List α → Option σ
  | s, [] => some s
  | s, a :: as => (step s a).bind fun s' => exec s' as

def Always (P : σ → Prop) : σ → List α → Prop
  | s, [] => P s
  | s, a :: as => P s ∧ ∀ s', step s a = some s' → Always P s' as

def EachStep (C : σ → α → Prop) : σ → List α → Prop
  | _, [] => True
  | s, a :: as => ∀ s', step s a = some s' → C s a ∧ EachStep C s' as

variable {step} {P I : σ → Prop} {C : σ → α → Prop} {s s' : σ} {as bs : List α}

@[simp] theorem exec_nil : exec step s [] = some s := rfl

theorem exec_cons (a : α) : exec step s (a :: as) = (step s a).bind fun s' => exec step s' as := rfl

theorem exec_append (as bs : List α) :
    exec step s (as ++ bs) = (exec step s as).bind fun s' => exec step s' bs := by
  induction as generalizing s with
  | nil => rfl
  | cons a as ih =>
    rw [List.cons_append, exec_cons, exec_cons, Option.bind_assoc]
    exact Option.bind_congr fun s₁ _ => ih

theorem exec_invariant (hstep : ∀ s a s', I s → step s a = some s' → I s') (hs : I s)
    (h : exec step s as = some s') : I s' := by
  induction as generalizing s with
  | nil =>
    cases h
    exact hs
  | cons a as ih =>
    rw [exec_cons] at h
    obtain ⟨s₁, h₁, hrest⟩ := Option.bind_eq_some_iff.mp h
    exact ih (hstep s a s₁ hs h₁) hrest

/-- An invariant under which every step is defined. -/
theorem exec_defined (hstep : ∀ s a, I s → ∃ s', step s a = some s' ∧ I s') (hs : I s) (as : List α) :
    ∃ s', exec step s as = some s' ∧ I s' := by
  induction as generalizing s with
  | nil => exact ⟨s, rfl, hs⟩
  | cons a as ih =>
    obtain ⟨s₁, h₁, hI⟩ := hstep s a hs
    obtain ⟨s', hrest, hI'⟩ := ih hI
    exact ⟨s', by rw [exec_cons, h₁, Option.bind_some, hrest], hI'⟩

/-- Every action of a run that ends is taken in some state. -/
theorem exec_mem {a : α} (h : exec step s as = some s') (ha : a ∈ as) : ∃ s₁ s₂, step s₁ a = some s₂ := by
  induction as generalizing s with
  | nil => cases ha
  | cons b as ih =>
    rw [exec_cons] at h
    obtain ⟨s₁, h₁, hrest⟩ := Option.bind_eq_some_iff.mp h
    rcases List.mem_cons.mp ha with rfl | ha
    · exact ⟨s, s₁, h₁⟩
    · exact ih hrest ha

/-- What holds of each step holds of the one taken after a part of the run. -/
theorem EachStep.after {a : α} {s'' : σ} (h : EachStep step C s (as ++ a :: bs))
    (hrun : exec step s as = some s') (hstep : step s' a = some s'') : C s' a := by
  induction as generalizing s with
  | nil =>
    cases hrun
    exact (h s'' hstep).1
  | cons b as ih =>
    rw [exec_cons] at hrun
    obtain ⟨s₁, h₁, hrest⟩ := Option.bind_eq_some_iff.mp hrun
    exact ih (h s₁ h₁).2 hrest

theorem Always.head (h : Always step P s as) : P s := by
  cases as with
  | nil => exact h
  | cons a as => exact h.1

theorem Always.exec (h : Always step P s as) (hrun : exec step s as = some s') : P s' := by
  induction as generalizing s with
  | nil =>
    cases hrun
    exact h
  | cons a as ih =>
    rw [exec_cons] at hrun
    obtain ⟨s₁, h₁, hrest⟩ := Option.bind_eq_some_iff.mp hrun
    exact ih (h.2 s₁ h₁) hrest

theorem always_of_eachStep (hgood : ∀ s a s', I s → step s a = some s' → C s a → I s')
    (hP : ∀ s, I s → P s) (hs : I s) (h : EachStep step C s as) : Always step P s as := by
  induction as generalizing s with
  | nil => exact hP s hs
  | cons a as ih =>
    refine ⟨hP s hs, fun s₁ h₁ => ?_⟩
    obtain ⟨hC, hrest⟩ := h s₁ h₁
    exact ih (hgood s a s₁ hs h₁ hC) hrest

/-- Two conditions on steps that agree where an invariant holds, when steps that meet one keep it. -/
theorem eachStep_congr {D : σ → α → Prop} (hiff : ∀ s a s', I s → step s a = some s' → (C s a ↔ D s a))
    (hgood : ∀ s a s', I s → step s a = some s' → C s a → I s') (hs : I s) :
    EachStep step C s as ↔ EachStep step D s as := by
  induction as generalizing s with
  | nil => exact Iff.rfl
  | cons a as ih =>
    apply forall_congr'
    intro s₁
    apply forall_congr'
    intro h₁
    rw [hiff s a s₁ hs h₁]
    exact and_congr_right fun hD => ih (hgood s a s₁ hs h₁ ((hiff s a s₁ hs h₁).mpr hD))

theorem EachStep.of_forall (h : ∀ s a, C s a) : EachStep step C s as := by
  induction as generalizing s with
  | nil => trivial
  | cons a as ih => exact fun _ _ => ⟨h s a, ih⟩

/-- The steps of the run may be promised to be of some kind. -/
theorem always_iff_eachStep_of {V : σ → α → Prop}
    (hgood : ∀ s a s', I s → V s a → step s a = some s' → C s a → I s') (hP : ∀ s, I s → P s)
    (hbad : ∀ s a s', I s → V s a → step s a = some s' → ¬ C s a → ¬ P s') (hs : I s)
    (hV : EachStep step V s as) : Always step P s as ↔ EachStep step C s as := by
  induction as generalizing s with
  | nil => exact ⟨fun _ => trivial, fun _ => hP s hs⟩
  | cons a as ih =>
    constructor
    · rintro ⟨-, hrest⟩ s₁ h₁
      obtain ⟨hVa, hVrest⟩ := hV s₁ h₁
      by_cases hC : C s a
      · exact ⟨hC, (ih (hgood s a s₁ hs hVa h₁ hC) hVrest).mp (hrest s₁ h₁)⟩
      · exact absurd (hrest s₁ h₁).head (hbad s a s₁ hs hVa h₁ hC)
    · intro h
      refine ⟨hP s hs, fun s₁ h₁ => ?_⟩
      obtain ⟨hVa, hVrest⟩ := hV s₁ h₁
      exact (ih (hgood s a s₁ hs hVa h₁ (h s₁ h₁).1) hVrest).mpr (h s₁ h₁).2

theorem always_iff_eachStep (hgood : ∀ s a s', I s → step s a = some s' → C s a → I s')
    (hP : ∀ s, I s → P s) (hbad : ∀ s a s', I s → step s a = some s' → ¬ C s a → ¬ P s')
    (hs : I s) : Always step P s as ↔ EachStep step C s as :=
  always_iff_eachStep_of (V := fun _ _ => True) (fun s a s' hI _ => hgood s a s' hI) hP
    (fun s a s' hI _ => hbad s a s' hI) hs (.of_forall fun _ _ => trivial)

/-- Every action of a run is admitted in the state it is taken in, whether it is defined or not. -/
def Admits (step : σ → α → Option σ) (C : σ → α → Prop) : σ → List α → Prop
  | _, [] => True
  | s, a :: as => C s a ∧ ∀ s', step s a = some s' → Admits step C s' as

theorem Admits.of_forall (h : ∀ s a, C s a) : Admits step C s as := by
  induction as generalizing s with
  | nil => trivial
  | cons a as ih => exact ⟨h s a, fun _ _ => ih⟩

/-- What follows from an invariant holds of every action in a run of good ones. -/
theorem Admits.of_invariant {V D : σ → α → Prop} (hV : Admits step V s as)
    (hgood : ∀ s a s', I s → V s a → C s a → step s a = some s' → I s') (hD : ∀ s a, I s → D s a)
    (hs : I s) (hC : Admits step C s as) : Admits step D s as := by
  induction as generalizing s with
  | nil => trivial
  | cons a as ih =>
    refine ⟨hD s a hs, fun s₁ h₁ => ?_⟩
    exact ih (hV.2 s₁ h₁) (hgood s a s₁ hs hV.1 hC.1 h₁) (hC.2 s₁ h₁)

/-- The exact condition for a run to be defined throughout and in order: good actions are defined and
keep an invariant, and a bad one breaks the property at once. -/
theorem defined_always_iff {V : σ → α → Prop}
    (hgood : ∀ s a, I s → V s a → C s a → ∃ s', step s a = some s' ∧ I s') (hP : ∀ s, I s → P s)
    (hbad : ∀ s a s', I s → V s a → ¬ C s a → step s a = some s' → ¬ P s') (hs : I s)
    (hV : Admits step V s as) :
    (∃ s', exec step s as = some s') ∧ Always step P s as ↔ Admits step C s as := by
  induction as generalizing s with
  | nil => exact ⟨fun _ => trivial, fun _ => ⟨⟨s, rfl⟩, hP s hs⟩⟩
  | cons a as ih =>
    constructor
    · rintro ⟨⟨s', hrun⟩, -, halways⟩
      rw [exec_cons] at hrun
      obtain ⟨s₁, h₁, hrest⟩ := Option.bind_eq_some_iff.mp hrun
      have hC : C s a := by
        by_contra hC
        exact hbad s a s₁ hs hV.1 hC h₁ (halways s₁ h₁).head
      refine ⟨hC, fun s₂ h₂ => ?_⟩
      obtain rfl := Option.some.inj (h₁.symm.trans h₂)
      obtain ⟨s₃, h₃, hI⟩ := hgood s a hs hV.1 hC
      obtain rfl := Option.some.inj (h₁.symm.trans h₃)
      exact (ih hI (hV.2 s₁ h₁)).mp ⟨⟨s', hrest⟩, halways s₁ h₁⟩
    · rintro ⟨hC, hrest⟩
      obtain ⟨s₁, h₁, hI⟩ := hgood s a hs hV.1 hC
      obtain ⟨⟨s', hrun⟩, halways⟩ := (ih hI (hV.2 s₁ h₁)).mpr (hrest s₁ h₁)
      refine ⟨⟨s', by rw [exec_cons, h₁, Option.bind_some, hrun]⟩, hP s hs, fun s₂ h₂ => ?_⟩
      obtain rfl := Option.some.inj (h₁.symm.trans h₂)
      exact halways

/-! ### Two systems -/

section Related

variable {τ : Type*} {R : σ → τ → Prop} {step' : τ → α → Option τ} {t : τ}

theorem rel_bind {σ' τ' : Type*} {Q : σ' → τ' → Prop} {x : Option σ} {y : Option τ}
    {f : σ → Option σ'} {g : τ → Option τ'} (h : Option.Rel R x y)
    (hfg : ∀ s t, R s t → Option.Rel Q (f s) (g t)) : Option.Rel Q (x.bind f) (y.bind g) := by
  cases h with
  | some hR => exact hfg _ _ hR
  | none => exact Option.Rel.none

theorem exec_rel (hstep : ∀ s t a, R s t → Option.Rel R (step s a) (step' t a)) (h : R s t)
    (as : List α) : Option.Rel R (exec step s as) (exec step' t as) := by
  induction as generalizing s t with
  | nil => exact Option.Rel.some h
  | cons a as ih =>
    rw [exec_cons, exec_cons]
    exact rel_bind (hstep s t a h) fun s₁ t₁ h₁ => ih h₁

end Related

end Run
