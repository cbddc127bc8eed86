import Mathlib.Data.List.Nodup
import Mathlib.Data.List.Pairwise
import Mathlib.Tactic.Common

/-!
# Binary trees made of linked cells

A cell holds the names of its father and of its two sons. `Linked` says that a link map lays out a
given shape, `LinkedCtx` that it lays out everything around a hole, and `connect` is the one write
all pointer surgery is made of. A rotation is three of them, and it keeps the in-order sequence.
-/

namespace LinkedTree

variable {α : Type*}

inductive Side where
  | left
  | right
deriving DecidableEq, Repr

def Side.flip : Side → Side
  | .left => .right
  | .right => .left

structure Links (α : Type*) where
  father : Option α
  left : Option α
  right : Option α
deriving DecidableEq

namespace Links

def child (n : Links α) : Side → Option α
  | .left => n.left
  | .right => n.right

def setChild (n : Links α) : Side → Option α → Links α
  | .left, p => { n with left := p }
  | .right, p => { n with right := p }

/-- A cell given by its father and its sons, the side of the first one chosen. -/
def of (father : Option α) : Side → Option α → Option α → Links α
  | .left, inner, outer => ⟨father, inner, outer⟩
  | .right, inner, outer => ⟨father, outer, inner⟩

@[simp] theorem child_flip_of (f p q : Option α) (s : Side) : (of f s p q).child s.flip = q := by
  cases s <;> rfl

@[simp] theorem father_of (f p q : Option α) (s : Side) : (of f s p q).father = f := by
  cases s <;> rfl

@[simp] theorem setChild_of (f p q p' : Option α) (s : Side) :
    (of f s p q).setChild s p' = of f s p' q := by
  cases s <;> rfl

@[simp] theorem setChild_flip_of (f p q q' : Option α) (s : Side) :
    (of f s p q).setChild s.flip q' = of f s p q' := by
  cases s <;> rfl

@[simp] theorem setFather_of (f f' p q : Option α) (s : Side) :
    ({ of f s p q with father := f' } : Links α) = of f' s p q := by
  cases s <;> rfl

end Links

/-! ### Shapes and contexts -/

inductive Shape (α : Type*) where
  | nil
  | node (l : Shape α) (a : α) (r : Shape α)

namespace Shape

def root : Shape α → Option α
  | .nil => none
  | .node _ a _ => some a

def inorder : Shape α → List α
  | .nil => []
  | .node l a r => l.inorder ++ a :: r.inorder

/-- A node whose son on side `s` is `inner`. -/
def join : Side → Shape α → α → Shape α → Shape α
  | .left, inner, a, outer => .node inner a outer
  | .right, inner, a, outer => .node outer a inner

def size : Shape α → Nat
  | .nil => 0
  | .node l _ r => l.size + r.size + 1

@[simp] theorem root_nil : (nil : Shape α).root = none := rfl
@[simp] theorem root_node (l r : Shape α) (a : α) : (node l a r).root = some a := rfl
@[simp] theorem inorder_nil : (nil : Shape α).inorder = [] := rfl
@[simp] theorem inorder_node (l r : Shape α) (a : α) :
    (node l a r).inorder = l.inorder ++ a :: r.inorder := rfl

@[simp] theorem root_join (s : Side) (x y : Shape α) (a : α) : (join s x a y).root = some a := by
  cases s <;> rfl

@[simp] theorem mem_join {s : Side} {x y : Shape α} {a b : α} :
    b ∈ (join s x a y).inorder ↔ b = a ∨ b ∈ x.inorder ∨ b ∈ y.inorder := by
  cases s <;> simp only [join, inorder_node, List.mem_append, List.mem_cons] <;> tauto

theorem inorder_rotate (s : Side) (x m r : Shape α) (a b : α) :
    (join s (join s x a m) b r).inorder = (join s x a (join s m b r)).inorder := by
  cases s <;> simp [join]

theorem mem_of_root {t : Shape α} {a : α} (h : t.root = some a) : a ∈ t.inorder := by
  cases t with
  | nil => simp at h
  | node l b r =>
    obtain rfl : b = a := by simpa using h
    simp

theorem length_inorder (t : Shape α) : t.inorder.length = t.size := by
  induction t with
  | nil => rfl
  | node l a r ihl ihr => simp [size, ihl, ihr]; omega

end Shape

/-- A tree with a hole: the hole is the son on side `s` of `a`, whose other son is `sib`. -/
inductive Ctx (α : Type*) where
  | top
  | step (s : Side) (a : α) (sib : Shape α) (c : Ctx α)

namespace Ctx

def plug : Ctx α → Shape α → Shape α
  | .top, t => t
  | .step s a sib c, t => c.plug (Shape.join s t a sib)

def holder : Ctx α → Option α
  | .top => none
  | .step _ a _ _ => some a

/-- The side of the hole; the root counts as a left son. -/
def side : Ctx α → Side
  | .top => .left
  | .step s _ _ _ => s

/-- The root of the whole tree, when `p` is the root of what fills the hole. -/
def rootOf : Ctx α → Option α → Option α
  | .top, p => p
  | .step _ a _ c, _ => c.rootOf (some a)

def before : Ctx α → List α
  | .top => []
  | .step .left _ _ c => c.before
  | .step .right a sib c => c.before ++ sib.inorder ++ [a]

def after : Ctx α → List α
  | .top => []
  | .step .left a sib c => a :: sib.inorder ++ c.after
  | .step .right _ _ c => c.after

def depth : Ctx α → Nat
  | .top => 0
  | .step _ _ _ c => c.depth + 1

def elems (c : Ctx α) : List α := c.before ++ c.after

theorem inorder_plug (c : Ctx α) (t : Shape α) :
    (c.plug t).inorder = c.before ++ t.inorder ++ c.after := by
  induction c generalizing t with
  | top => simp [plug, before, after]
  | step s a sib c ih =>
    cases s <;> simp [plug, before, after, ih, Shape.join]

@[simp] theorem root_plug (c : Ctx α) (t : Shape α) : (c.plug t).root = c.rootOf t.root := by
  induction c generalizing t with
  | top => rfl
  | step s a sib c ih => simp [plug, rootOf, ih]

theorem mem_elems_step {s : Side} {a b : α} {sib : Shape α} {c : Ctx α} :
    b ∈ (step s a sib c).elems ↔ b = a ∨ b ∈ sib.inorder ∨ b ∈ c.elems := by
  cases s <;>
    simp only [elems, before, after, List.mem_append, List.mem_cons, List.not_mem_nil] <;> tauto

theorem holder_mem {c : Ctx α} {a : α} (h : c.holder = some a) : a ∈ c.elems := by
  cases c with
  | top => simp [holder] at h
  | step s b sib c =>
    obtain rfl : b = a := by simpa [holder] using h
    exact mem_elems_step.mpr (.inl rfl)

theorem mem_plug {c : Ctx α} {t : Shape α} {a : α} :
    a ∈ (c.plug t).inorder ↔ a ∈ c.elems ∨ a ∈ t.inorder := by
  rw [inorder_plug, elems]
  simp only [List.mem_append]
  tauto

/-- With a cell above the hole, the root of the whole tree lies in the context. -/
theorem rootOf_mem {s : Side} {b a : α} {sib : Shape α} {c : Ctx α}
    (h : c.rootOf (some b) = some a) : a ∈ (step s b sib c).elems := by
  have hroot : ((step s b sib c).plug .nil).root = some a := by
    rw [root_plug]
    exact h
  rcases mem_plug.mp (Shape.mem_of_root hroot) with hmem | hmem
  · exact hmem
  · cases hmem

/-- The rest of a subtree in the place of the subtree. -/
theorem inorder_erase [DecidableEq α] {c : Ctx α} {l r d : Shape α} {a : α}
    (hnodup : (c.plug (.node l a r)).inorder.Nodup) (hd : d.inorder = l.inorder ++ r.inorder) :
    (c.plug (.node l a r)).inorder.erase a = (c.plug d).inorder := by
  have hsplit : (c.plug (.node l a r)).inorder =
      (c.before ++ l.inorder) ++ a :: (r.inorder ++ c.after) := by
    simp [inorder_plug]
  rw [hsplit, List.nodup_middle, List.nodup_cons, List.mem_append, not_or] at hnodup
  calc (c.plug (.node l a r)).inorder.erase a
      = ((c.before ++ l.inorder) ++ a :: (r.inorder ++ c.after)).erase a := by rw [hsplit]
    _ = (c.before ++ l.inorder) ++ (r.inorder ++ c.after) := by
        rw [List.erase_append_right _ hnodup.1.1, List.erase_cons_head]
    _ = (c.plug d).inorder := by
        rw [inorder_plug, hd]
        simp only [List.append_assoc]

/-- The whole tree lists no cell twice exactly when its parts do not and are apart. -/
theorem nodup_plug {c : Ctx α} {t : Shape α} :
    (c.plug t).inorder.Nodup ↔
      c.elems.Nodup ∧ t.inorder.Nodup ∧ ∀ x ∈ c.elems, x ∉ t.inorder := by
  have hperm : (c.plug t).inorder.Perm (c.elems ++ t.inorder) := by
    rw [inorder_plug, elems, List.append_assoc, List.append_assoc]
    exact List.Perm.append_left _ List.perm_append_comm
  rw [hperm.nodup_iff, List.nodup_append]
  constructor
  · rintro ⟨hc, ht, hd⟩
    exact ⟨hc, ht, fun x hx hx' => hd x hx x hx' rfl⟩
  · rintro ⟨hc, ht, hd⟩
    exact ⟨hc, ht, fun x hx y hy hxy => hd x hx (hxy ▸ hy)⟩

theorem nodup_step {s : Side} {a : α} {sib : Shape α} {c : Ctx α}
    (h : (step s a sib c).elems.Nodup) : a ∉ sib.inorder ∧ a ∉ c.elems ∧ c.elems.Nodup := by
  have hplug : ((step s a sib c).plug .nil).inorder.Nodup :=
    nodup_plug.mpr ⟨h, by simp, by simp⟩
  rw [plug, nodup_plug] at hplug
  obtain ⟨hc, hjoin, hdisj⟩ := hplug
  refine ⟨fun hmem => ?_, fun hmem => hdisj a hmem (by simp), hc⟩
  cases s with
  | left => exact (List.nodup_cons.mp (by simpa [Shape.join] using hjoin)).1 hmem
  | right =>
    simp only [Shape.join, Shape.inorder_node, Shape.inorder_nil, List.nodup_append] at hjoin
    exact hjoin.2.2 a hmem a (by simp) rfl

theorem depth_le_length (c : Ctx α) : c.depth ≤ c.elems.length := by
  induction c with
  | top => simp [depth]
  | step s a sib c ih =>
    cases s <;> simp only [depth, elems, before, after, List.length_append, List.length_cons,
      List.length_nil] at * <;> omega

end Ctx

theorem exists_plug {t : Shape α} {a : α} (h : a ∈ t.inorder) :
    ∃ (c : Ctx α) (l r : Shape α), t = c.plug (.node l a r) := by
  suffices hgen : ∀ c : Ctx α, ∃ (c' : Ctx α) (l r : Shape α), c.plug t = c'.plug (.node l a r) from
    hgen .top
  induction t with
  | nil => simp at h
  | node l b r ihl ihr =>
    intro c
    simp only [Shape.inorder_node, List.mem_append, List.mem_cons] at h
    rcases h with hl | rfl | hr
    · exact ihl hl (.step .left b r c)
    · exact ⟨c, l, r, rfl⟩
    · exact ihr hr (.step .right b l c)

/-! ### Growing a leaf -/

/-- `m` takes the place of one empty subtree. -/
inductive Shape.Grown (m : α) : Shape α → Shape α → Prop where
  | nil : Grown m .nil (.node .nil m .nil)
  | left {l l' r : Shape α} {a : α} (h : Grown m l l') : Grown m (.node l a r) (.node l' a r)
  | right {l r r' : Shape α} {a : α} (h : Grown m r r') : Grown m (.node l a r) (.node l a r')

/-! ### Layout -/

variable (L : α → Option (Links α))

/-- The link map lays out the shape, its root hanging from `father`. -/
def Linked (father : Option α) : Shape α → Prop
  | .nil => True
  | .node l a r =>
    L a = some ⟨father, l.root, r.root⟩ ∧ Linked (some a) l ∧ Linked (some a) r

/-- The link map lays out the context, the hole being filled by a tree with root `hole`. -/
def LinkedCtx (hole : Option α) : Ctx α → Prop
  | .top => True
  | .step s a sib c =>
    L a = some (Links.of c.holder s hole sib.root) ∧ Linked L (some a) sib ∧ LinkedCtx (some a) c

section Layout

variable {L} {L' : α → Option (Links α)}

@[simp] theorem linked_nil {f : Option α} : Linked L f .nil := trivial

theorem linked_node {f : Option α} {l r : Shape α} {a : α} :
    Linked L f (.node l a r) ↔
      L a = some ⟨f, l.root, r.root⟩ ∧ Linked L (some a) l ∧ Linked L (some a) r := Iff.rfl

theorem linked_join {f : Option α} {s : Side} {x y : Shape α} {a : α} :
    Linked L f (Shape.join s x a y) ↔
      L a = some (Links.of f s x.root y.root) ∧ Linked L (some a) x ∧ Linked L (some a) y := by
  cases s
  · exact Iff.rfl
  · simp only [Shape.join, linked_node, Links.of]
    tauto

theorem linked_plug {c : Ctx α} {t : Shape α} :
    Linked L none (c.plug t) ↔ LinkedCtx L t.root c ∧ Linked L c.holder t := by
  induction c generalizing t with
  | top => simp [Ctx.plug, LinkedCtx, Ctx.holder]
  | step s a sib c ih =>
    simp only [Ctx.plug, ih, linked_join, Shape.root_join, LinkedCtx, Ctx.holder]
    tauto

theorem Linked.congr {f : Option α} {t : Shape α} (h : Linked L f t)
    (heq : ∀ x ∈ t.inorder, L' x = L x) : Linked L' f t := by
  induction t generalizing f with
  | nil => trivial
  | node l a r ihl ihr =>
    obtain ⟨ha, hl, hr⟩ := h
    refine ⟨?_, ihl hl fun x hx => heq x ?_, ihr hr fun x hx => heq x ?_⟩
    · rw [heq a (by simp), ha]
    · simp [hx]
    · simp [hx]

theorem LinkedCtx.congr {p : Option α} {c : Ctx α} (h : LinkedCtx L p c)
    (heq : ∀ x ∈ c.elems, L' x = L x) : LinkedCtx L' p c := by
  induction c generalizing p with
  | top => trivial
  | step s a sib c ih =>
    obtain ⟨ha, hsib, hc⟩ := h
    refine ⟨?_, hsib.congr fun x hx => heq x ?_, ih hc fun x hx => heq x ?_⟩
    · rw [heq a (Ctx.mem_elems_step.mpr (.inl rfl)), ha]
    · exact Ctx.mem_elems_step.mpr (.inr (.inl hx))
    · exact Ctx.mem_elems_step.mpr (.inr (.inr hx))

theorem Linked.isSome {f : Option α} {t : Shape α} (h : Linked L f t) {x : α}
    (hx : x ∈ t.inorder) : (L x).isSome := by
  induction t generalizing f with
  | nil => simp at hx
  | node l a r ihl ihr =>
    obtain ⟨ha, hl, hr⟩ := h
    simp only [Shape.inorder_node, List.mem_append, List.mem_cons] at hx
    rcases hx with hx | rfl | hx
    · exact ihl hl hx
    · simp [ha]
    · exact ihr hr hx

theorem Linked.father_root {f : Option α} {t : Shape α} (h : Linked L f t) {a : α}
    (ha : t.root = some a) : ∃ n, L a = some n ∧ n.father = f := by
  cases t with
  | nil => simp at ha
  | node l b r =>
    obtain rfl : b = a := by simpa using ha
    exact ⟨_, h.1, rfl⟩

theorem Linked.father_child {f : Option α} {t : Shape α} (h : Linked L f t) {a : α}
    (ha : a ∈ t.inorder) {n : Links α} (hn : L a = some n) {s : Side} {b : α}
    (hb : n.child s = some b) : ∃ m, L b = some m ∧ m.father = some a := by
  induction t generalizing f with
  | nil => simp at ha
  | node l c r ihl ihr =>
    obtain ⟨hc, hl, hr⟩ := h
    simp only [Shape.inorder_node, List.mem_append, List.mem_cons] at ha
    rcases ha with ha | rfl | ha
    · exact ihl hl ha
    · obtain rfl := Option.some.inj (hc.symm.trans hn)
      cases s with
      | left => exact hl.father_root hb
      | right => exact hr.father_root hb
    · exact ihr hr ha

/-! ### Reachable cells -/

variable (L) in
/-- The cells that are come to from a name by going to sons. -/
inductive Reaches : Option α → α → Prop
  | here (a : α) : Reaches (some a) a
  | son {a b : α} {n : Links α} (s : Side) : L a = some n → Reaches (n.child s) b → Reaches (some a) b

theorem Reaches.mem_inorder {p : Option α} {a : α} (h : Reaches L p a) {f : Option α} {t : Shape α}
    (ht : Linked L f t) (hroot : t.root = p) : a ∈ t.inorder := by
  induction h generalizing f t with
  | here a => exact Shape.mem_of_root hroot
  | son s hn _ ih =>
    cases t with
    | nil => cases hroot
    | node l c r =>
      obtain rfl := Option.some.inj hroot
      obtain ⟨hc, hl, hr⟩ := ht
      obtain rfl := Option.some.inj (hc.symm.trans hn)
      rw [Shape.inorder_node, List.mem_append, List.mem_cons]
      cases s with
      | left => exact .inl (ih hl rfl)
      | right => exact .inr (.inr (ih hr rfl))

theorem Linked.reaches_iff {f : Option α} {t : Shape α} (ht : Linked L f t) (a : α) :
    Reaches L t.root a ↔ a ∈ t.inorder := by
  refine ⟨fun h => h.mem_inorder ht rfl, fun ha => ?_⟩
  induction t generalizing f with
  | nil => cases ha
  | node l c r ihl ihr =>
    obtain ⟨hc, hl, hr⟩ := ht
    rw [Shape.inorder_node, List.mem_append, List.mem_cons] at ha
    rcases ha with ha | rfl | ha
    · exact .son .left hc (ihl hl ha)
    · exact .here a
    · exact .son .right hc (ihr hr ha)

end Layout

/-! ### Connecting a son to a father -/

section Connect

variable [DecidableEq α]

/-- Writes `father` into the son and the son into the father, where they exist. -/
def connect (father son : Option α) (s : Side) : α → Option (Links α) := fun x =>
  (L x).map fun n =>
    let n := if son = some x then { n with father := father } else n
    if father = some x then n.setChild s son else n

variable {L}

theorem connect_apply (f p : Option α) (s : Side) (x : α) :
    connect L f p s x = (L x).map fun n =>
      if f = some x then (if p = some x then { n with father := f } else n).setChild s p
      else if p = some x then { n with father := f } else n := rfl

theorem connect_of_ne {f p : Option α} {s : Side} {x : α} (hf : f ≠ some x) (hp : p ≠ some x) :
    connect L f p s x = L x := by
  cases h : L x <;> simp [connect, hf, hp, h]

theorem connect_son {f : Option α} {s : Side} {x : α} (hf : f ≠ some x) :
    connect L f (some x) s x = (L x).map fun n => { n with father := f } := by
  simp [connect, hf]

theorem connect_father {p : Option α} {s : Side} {x : α} (hp : p ≠ some x) :
    connect L (some x) p s x = (L x).map fun n => n.setChild s p := by
  simp [connect, hp]

theorem Linked.connect_son {f g : Option α} {t : Shape α} {s : Side} (h : Linked L f t)
    (hnodup : t.inorder.Nodup) (hg : ∀ x ∈ t.inorder, g ≠ some x) :
    Linked (connect L g t.root s) g t := by
  cases t with
  | nil => trivial
  | node l a r =>
    obtain ⟨ha, hl, hr⟩ := h
    simp only [Shape.inorder_node, List.mem_append, List.mem_cons] at hg
    have hal : a ∉ l.inorder := by
      intro hmem
      simp only [Shape.inorder_node, List.nodup_append] at hnodup
      exact hnodup.2.2 a hmem a (by simp) rfl
    have har : a ∉ r.inorder := by
      intro hmem
      simp only [Shape.inorder_node, List.nodup_append, List.nodup_cons] at hnodup
      exact hnodup.2.1.1 hmem
    refine ⟨?_, hl.congr fun x hx => ?_, hr.congr fun x hx => ?_⟩
    · rw [Shape.root_node, LinkedTree.connect_son (hg a (by simp)), ha]
      rfl
    · refine connect_of_ne (hg x (by simp [hx])) ?_
      simp only [Shape.root_node, ne_eq, Option.some.injEq]
      rintro rfl
      exact hal hx
    · refine connect_of_ne (hg x (by simp [hx])) ?_
      simp only [Shape.root_node, ne_eq, Option.some.injEq]
      rintro rfl
      exact har hx

theorem LinkedCtx.connect {p q : Option α} {c : Ctx α} (h : LinkedCtx L p c)
    (hnodup : c.elems.Nodup) (hq : ∀ x ∈ c.elems, q ≠ some x) :
    LinkedCtx (connect L c.holder q c.side) q c := by
  cases c with
  | top => trivial
  | step s a sib c =>
    obtain ⟨ha, hsib, hc⟩ := h
    obtain ⟨hasib, hac, -⟩ := Ctx.nodup_step hnodup
    have hq' : q ≠ some a := hq a (Ctx.mem_elems_step.mpr (.inl rfl))
    refine ⟨?_, hsib.congr fun x hx => ?_, hc.congr fun x hx => ?_⟩
    · simp only [Ctx.holder, Ctx.side]
      rw [connect_father hq', ha]
      simp [Ctx.holder]
    · refine connect_of_ne ?_ (hq x (Ctx.mem_elems_step.mpr (.inr (.inl hx))))
      simp only [Ctx.holder, ne_eq, Option.some.injEq]
      rintro rfl
      exact hasib hx
    · refine connect_of_ne ?_ (hq x (Ctx.mem_elems_step.mpr (.inr (.inr hx))))
      simp only [Ctx.holder, ne_eq, Option.some.injEq]
      rintro rfl
      exact hac hx

/-! ### Rotation -/

/-- The three connections that rotate the son on side `s` of `b` up over `b`. -/
def rotate (L : α → Option (Links α)) (c : Ctx α) (s : Side) (a b : α) (m : Shape α) :
    α → Option (Links α) :=
  connect (connect (connect L c.holder (some a) c.side) (some a) (some b) s.flip) (some b) m.root s

theorem linked_rotate {c : Ctx α} {s : Side} {a b : α} {x m r : Shape α}
    (hc : LinkedCtx L (some b) c) (ht : Linked L c.holder (Shape.join s (Shape.join s x a m) b r))
    (hnodup : (c.plug (Shape.join s (Shape.join s x a m) b r)).inorder.Nodup) :
    LinkedCtx (rotate L c s a b m) (some a) c ∧
      Linked (rotate L c s a b m) c.holder (Shape.join s x a (Shape.join s m b r)) := by
  obtain ⟨hcn, htn, hdisj⟩ := Ctx.nodup_plug.mp hnodup
  simp only [Shape.mem_join, not_or] at hdisj
  have hsplit : a ≠ b ∧ a ∉ x.inorder ∧ a ∉ m.inorder ∧ a ∉ r.inorder ∧ b ∉ x.inorder ∧
      b ∉ m.inorder ∧ b ∉ r.inorder ∧ m.inorder.Nodup ∧ (∀ y ∈ m.inorder, y ∉ x.inorder) ∧
      ∀ y ∈ m.inorder, y ∉ r.inorder := by
    cases s <;>
      · simp only [Shape.join, Shape.inorder_node, List.nodup_append, List.nodup_cons,
          List.mem_append, List.mem_cons] at htn
        grind
  obtain ⟨hab, hax, ham, har, hbx, hbm, hbr, hmn, hmx, hmr⟩ := hsplit
  rw [linked_join, linked_join] at ht
  obtain ⟨hb, ⟨ha, hx, hm⟩, hr⟩ := ht
  rw [Shape.root_join] at hb
  have hholder : ∀ y, y ∉ c.elems → c.holder ≠ some y := fun y hy h => hy (Ctx.holder_mem h)
  have hac : a ∉ c.elems := fun h => (hdisj a h).2.1.1 rfl
  have hbc : b ∉ c.elems := fun h => (hdisj b h).1 rfl
  -- the cells of `a` and `b` after each connection
  set L₁ := connect L c.holder (some a) c.side with hL₁
  set L₂ := connect L₁ (some a) (some b) s.flip with hL₂
  have ha₁ : L₁ a = some (Links.of c.holder s x.root m.root) := by
    rw [hL₁, connect_son (hholder a hac), ha]
    simp
  have hb₁ : L₁ b = some (Links.of c.holder s (some a) r.root) := by
    rw [hL₁, connect_of_ne (hholder b hbc) (by simpa using hab), hb]
  have ha₂ : L₂ a = some (Links.of c.holder s x.root (some b)) := by
    rw [hL₂, connect_father (by simpa using hab.symm), ha₁]
    simp
  have hb₂ : L₂ b = some (Links.of (some a) s (some a) r.root) := by
    rw [hL₂, connect_son (by simpa using hab), hb₁]
    simp
  have hother : ∀ y, y ≠ a → y ≠ b → c.holder ≠ some y → L₂ y = L y := by
    intro y hya hyb hyc
    rw [hL₂, connect_of_ne (by simpa using hya.symm) (by simpa using hyb.symm), hL₁,
      connect_of_ne hyc (by simpa using hya.symm)]
  have hmroot : ∀ y, y ∉ m.inorder → m.root ≠ some y := fun y hy h => hy (Shape.mem_of_root h)
  have hunder : ∀ y, (y ∈ x.inorder ∨ y ∈ m.inorder ∨ y ∈ r.inorder) → c.holder ≠ some y := by
    intro y hy
    apply hholder y
    intro h
    have := hdisj y h
    tauto
  have hm₂ : Linked L₂ (some a) m := hm.congr fun y hy =>
    hother y (by rintro rfl; exact ham hy) (by rintro rfl; exact hbm hy) (hunder y (by simp [hy]))
  constructor
  · have hc₁ : LinkedCtx L₁ (some a) c := hc.connect hcn fun y hy => by
      rintro h
      obtain rfl : a = y := by simpa using h
      exact hac hy
    apply hc₁.congr
    intro y hy
    have hy' := hdisj y hy
    rw [rotate, connect_of_ne (by simpa using (Ne.symm hy'.1)) (hmroot y hy'.2.1.2.2), ← hL₁, ← hL₂,
      hL₂, connect_of_ne (by simpa using (Ne.symm hy'.2.1.1)) (by simpa using (Ne.symm hy'.1))]
  · have hframe : ∀ y, y ≠ a → y ≠ b → y ∉ m.inorder → c.holder ≠ some y →
        rotate L c s a b m y = L y := by
      intro y hya hyb hym hyc
      rw [rotate, connect_of_ne (by simpa using hyb.symm) (hmroot y hym), ← hL₁, ← hL₂,
        hother y hya hyb hyc]
    rw [linked_join, linked_join, Shape.root_join]
    refine ⟨?_, ?_, ⟨?_, ?_, ?_⟩⟩
    · rw [rotate, ← hL₁, ← hL₂, connect_of_ne (by simpa using hab.symm) (hmroot a ham), ha₂]
    · exact hx.congr fun y hy => hframe y (by rintro rfl; exact hax hy)
        (by rintro rfl; exact hbx hy) (fun h => hmx y h hy) (hunder y (by simp [hy]))
    · rw [rotate, ← hL₁, ← hL₂, connect_father (hmroot b hbm), hb₂]
      simp
    · exact hm₂.connect_son hmn fun y hy h => by
        obtain rfl : b = y := by simpa using h
        exact hbm hy
    · exact hr.congr fun y hy => hframe y (by rintro rfl; exact har hy)
        (by rintro rfl; exact hbr hy) (fun h => hmr y h hy) (hunder y (by simp [hy]))

end Connect

end LinkedTree
