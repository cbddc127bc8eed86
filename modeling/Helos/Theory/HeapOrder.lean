import Helos.Theory.LinkedTree
import Mathlib.Order.Basic

/-!
# Heap order in binary trees

Every cell has a priority, and none below that of its father. Between the rotations that restore the
order one cell may be out of place; `Gap` says that the tree around it would be in order if it were
left out. Rotating the cell up closes the gap from below, rotating its smaller son up moves the gap
down.
-/

namespace LinkedTree

variable {α β : Type*} [Preorder β] (p : α → β)

namespace Shape

def RootAbove (k : β) (T : Shape α) : Prop := ∀ a, T.root = some a → k ≤ p a

def Heaped : Shape α → Prop
  | .nil => True
  | .node l a r => l.RootAbove p (p a) ∧ r.RootAbove p (p a) ∧ l.Heaped ∧ r.Heaped

def sons : Shape α → List (Shape α)
  | .nil => []
  | .node l _ r => [l, r]

variable {p} {s : Side} {x y T : Shape α} {a : α} {k k' : β}

theorem mem_sons_join {S : Shape α} : S ∈ (join s x a y).sons ↔ S = x ∨ S = y := by
  cases s <;> simp [join, sons, or_comm]

theorem rootAbove_join : (join s x a y).RootAbove p k ↔ k ≤ p a := by
  simp [RootAbove]

theorem RootAbove.trans (h : T.RootAbove p k') (hk : k ≤ k') : T.RootAbove p k :=
  fun a ha => hk.trans (h a ha)

theorem heaped_join : (join s x a y).Heaped p ↔
    x.RootAbove p (p a) ∧ y.RootAbove p (p a) ∧ x.Heaped p ∧ y.Heaped p := by
  cases s with
  | left => exact Iff.rfl
  | right =>
    simp only [join, Heaped]
    tauto

theorem heaped_leaf (a : α) : (node nil a nil).Heaped p :=
  ⟨by simp [RootAbove], by simp [RootAbove], trivial, trivial⟩

theorem Heaped.congr {q : α → β} (h : T.Heaped p) (hq : ∀ a ∈ T.inorder, q a = p a) :
    T.Heaped q := by
  induction T with
  | nil => trivial
  | node l a r ihl ihr =>
    obtain ⟨hl, hr, hleft, hright⟩ := h
    simp only [inorder_node, List.mem_append, List.mem_cons] at hq
    refine ⟨fun b hb => ?_, fun b hb => ?_, ihl hleft fun b hb => hq b (.inl hb),
      ihr hright fun b hb => hq b (.inr (.inr hb))⟩
    · rw [hq a (.inr (.inl rfl)), hq b (.inl (mem_of_root hb))]
      exact hl b hb
    · rw [hq a (.inr (.inl rfl)), hq b (.inr (.inr (mem_of_root hb)))]
      exact hr b hb

end Shape

/-- The order around the hole, whatever fills it. -/
def Ctx.Heaped : Ctx α → Prop
  | .top => True
  | .step _ a sib c => sib.RootAbove p (p a) ∧ sib.Heaped p ∧
      (∀ f, c.holder = some f → p f ≤ p a) ∧ Ctx.Heaped c

variable {p} {c : Ctx α} {T : Shape α}

theorem heaped_plug : (c.plug T).Heaped p ↔
    c.Heaped p ∧ T.Heaped p ∧ ∀ f, c.holder = some f → T.RootAbove p (p f) := by
  induction c generalizing T with
  | top => simp [Ctx.plug, Ctx.Heaped, Ctx.holder]
  | step s a sib c ih =>
    simp only [Ctx.plug, ih, Shape.heaped_join, Shape.rootAbove_join, Ctx.Heaped, Ctx.holder,
      Option.some.injEq, forall_eq']
    tauto

variable (p) in
/-- The tree would be in order without the root of what fills the hole. -/
structure Gap (c : Ctx α) (T : Shape α) : Prop where
  ctx : c.Heaped p
  heaped : ∀ S ∈ T.sons, S.Heaped p
  holder : ∀ S ∈ T.sons, ∀ f, c.holder = some f → S.RootAbove p (p f)

theorem gap_of_heaped {l r : Shape α} {a : α} (h : (c.plug (.node l a r)).Heaped p) :
    Gap p c (.node l a r) := by
  obtain ⟨hc, ⟨hl, hr, hleft, hright⟩, hover⟩ := heaped_plug.mp h
  have hle : ∀ f, c.holder = some f → p f ≤ p a := fun f hf => hover f hf a rfl
  refine ⟨hc, fun S hS => ?_, fun S hS f hf => ?_⟩
  · rcases Shape.mem_sons_join (s := .left).mp hS with rfl | rfl
    · exact hleft
    · exact hright
  · rcases Shape.mem_sons_join (s := .left).mp hS with rfl | rfl
    · exact hl.trans (hle f hf)
    · exact hr.trans (hle f hf)

theorem Gap.heaped_son {S : Shape α} (h : Gap p c T) (hS : S ∈ T.sons) : (c.plug S).Heaped p :=
  heaped_plug.mpr ⟨h.ctx, h.heaped S hS, h.holder S hS⟩

section Rotate

variable {s : Side} {x m r : Shape α} {a b : α}

/-- The cell `a`, smaller than its father, is rotated up. -/
theorem Gap.raise (h : Gap p (.step s b r c) (.join s x a m)) (hT : (Shape.join s x a m).Heaped p)
    (hab : p a ≤ p b) :
    Gap p c (.join s x a (.join s m b r)) ∧ (Shape.join s x a (.join s m b r)).Heaped p := by
  obtain ⟨hr, hright, hle, hc⟩ := h.ctx
  obtain ⟨hx, -, hleft, hmid⟩ := Shape.heaped_join.mp hT
  have hxb : x.RootAbove p (p b) := h.holder x (Shape.mem_sons_join.mpr (.inl rfl)) b rfl
  have hmb : m.RootAbove p (p b) := h.holder m (Shape.mem_sons_join.mpr (.inr rfl)) b rfl
  have hlower : (Shape.join s m b r).Heaped p := Shape.heaped_join.mpr ⟨hmb, hr, hmid, hright⟩
  refine ⟨⟨hc, fun S hS => ?_, fun S hS f hf => ?_⟩,
    Shape.heaped_join.mpr ⟨hx, Shape.rootAbove_join.mpr hab, hleft, hlower⟩⟩
  · rcases Shape.mem_sons_join.mp hS with rfl | rfl
    · exact hleft
    · exact hlower
  · rcases Shape.mem_sons_join.mp hS with rfl | rfl
    · exact hxb.trans (hle f hf)
    · exact Shape.rootAbove_join.mpr (hle f hf)

/-- The smaller son `a` is rotated up over the cell `b` out of place. -/
theorem Gap.sink (h : Gap p c (.join s (.join s x a m) b r)) (hr : r.RootAbove p (p a)) :
    Gap p (.step s.flip a x c) (.join s m b r) := by
  have hinner := Shape.mem_sons_join (s := s) (y := r) (a := b).mpr (.inl (Eq.refl (.join s x a m)))
  obtain ⟨hx, hm, hleft, hmid⟩ := Shape.heaped_join.mp (h.heaped _ hinner)
  have hle : ∀ f, c.holder = some f → p f ≤ p a := fun f hf =>
    Shape.rootAbove_join.mp (h.holder _ hinner f hf)
  refine ⟨⟨hx, hleft, hle, h.ctx⟩, fun S hS => ?_, fun S hS f hf => ?_⟩
  · rcases Shape.mem_sons_join.mp hS with rfl | rfl
    · exact hmid
    · exact h.heaped _ (Shape.mem_sons_join.mpr (.inr rfl))
  · cases hf
    rcases Shape.mem_sons_join.mp hS with rfl | rfl
    · exact hm
    · exact hr

end Rotate

/-- A new leaf fills the hole of a context. -/
theorem Shape.Grown.exists_ctx {m : α} {T T' : Shape α} (h : T.Grown m T') :
    ∃ c : Ctx α, T = c.plug .nil ∧ T' = c.plug (.node .nil m .nil) := by
  suffices hgen : ∀ c₀ : Ctx α, ∃ c : Ctx α,
      c₀.plug T = c.plug .nil ∧ c₀.plug T' = c.plug (.node .nil m .nil) from hgen .top
  induction h with
  | nil => exact fun c₀ => ⟨c₀, rfl, rfl⟩
  | @left l l' r a _ ih => exact fun c₀ => ih (.step .left a r c₀)
  | @right l r r' a _ ih => exact fun c₀ => ih (.step .right a l c₀)

end LinkedTree
