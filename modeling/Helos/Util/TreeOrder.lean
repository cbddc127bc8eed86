import Helos.Theory.HeapOrder
import Helos.Util.TreeLayout

/-!
# The treap as a sorted list of nodes

`Represents` reads a tree as the list of its nodes in the order of their keys. Each function of the
treap is then a function on that list, whatever the priorities: rotations only ever move nodes to
another place in the shape.
-/

namespace Helos.Tree

open LinkedTree

variable {δ : Type} {t : Tree δ}

def keyOf (t : Tree δ) (a : Addr) : Nat := ((t.payload a).map Payload.key).getD 0

theorem keyOf_eq {a : Addr} {n : TreeNode δ} (h : t.node a = some n) : t.keyOf a = n.key := by
  simp [keyOf, payload, h, TreeNode.payload]

theorem SameNodes.keyOf {t' : Tree δ} (h : SameNodes t t') : t'.keyOf = t.keyOf := by
  funext a
  unfold Tree.keyOf
  rw [h.payload]

def priorityOf (t : Tree δ) (a : Addr) : Nat := ((t.payload a).map Payload.internal).getD 0

theorem priorityOf_eq {a : Addr} {n : TreeNode δ} (h : t.node a = some n) :
    t.priorityOf a = n.internal := by
  simp [priorityOf, payload, h, TreeNode.payload]

theorem SameNodes.priorityOf {t' : Tree δ} (h : SameNodes t t') : t'.priorityOf = t.priorityOf := by
  funext a
  unfold Tree.priorityOf
  rw [h.payload]

def Sorted (t : Tree δ) (l : List Addr) : Prop := l.Pairwise fun a b => t.keyOf a < t.keyOf b

theorem Sorted.node {l r : Shape Addr} {a : Addr} (h : t.Sorted (Shape.node l a r).inorder) :
    t.Sorted l.inorder ∧ t.Sorted r.inorder ∧ (∀ x ∈ l.inorder, t.keyOf x < t.keyOf a) ∧
      ∀ x ∈ r.inorder, t.keyOf a < t.keyOf x := by
  obtain ⟨hl, har, hlt⟩ := List.pairwise_append.mp h
  obtain ⟨ha, hr⟩ := List.pairwise_cons.mp har
  exact ⟨hl, hr, fun x hx => hlt x hx a List.mem_cons_self, ha⟩

structure Represents (t : Tree δ) (l : List Addr) : Prop where
  layout : ∃ T, t.Layout T ∧ T.inorder = l
  sorted : t.Sorted l

theorem represents_create : (create : Tree δ).Represents [] := by
  refine ⟨⟨.nil, ⟨rfl, trivial, List.nodup_nil, fun a => ?_⟩, rfl⟩, List.Pairwise.nil⟩
  simp [Tree.node, create]

section Represents

variable {l : List Addr}

theorem Represents.nodup (h : t.Represents l) : l.Nodup := by
  obtain ⟨T, hT, rfl⟩ := h.layout
  exact hT.nodup

theorem Represents.isSome_iff (h : t.Represents l) (a : Addr) : (t.node a).isSome ↔ a ∈ l := by
  obtain ⟨T, hT, rfl⟩ := h.layout
  exact hT.isSome_iff a

theorem Represents.exists_node (h : t.Represents l) {a : Addr} (ha : a ∈ l) :
    ∃ n, t.node a = some n :=
  Option.isSome_iff_exists.mp ((h.isSome_iff a).mpr ha)

/-- A tree with the same nodes laid out in the same order represents the same list. -/
theorem Represents.of_sameNodes (h : t.Represents l) {t' : Tree δ} (hs : SameNodes t t')
    {T : Shape Addr} (hT : t'.Layout T) (hin : T.inorder = l) : t'.Represents l := by
  refine ⟨⟨T, hT, hin⟩, ?_⟩
  unfold Sorted
  rw [hs.keyOf]
  exact h.sorted

end Represents

/-! ### `__tree_treap_Adjust` -/

theorem exists_join (s : Side) (l r : Shape Addr) (a : Addr) :
    ∃ x m, Shape.node l a r = Shape.join s x a m := by
  cases s with
  | left => exact ⟨l, r, rfl⟩
  | right => exact ⟨r, l, rfl⟩

theorem exists_node_of_join (s : Side) (x y : Shape Addr) (a : Addr) :
    ∃ l r, Shape.join s x a y = Shape.node l a r := by
  cases s with
  | left => exact ⟨x, y, rfl⟩
  | right => exact ⟨y, x, rfl⟩

/-- Where only the node itself is out of place, the adjusted tree is in heap order. -/
theorem treapAdjust_spec (c : Ctx Addr) {l r : Shape Addr} {a : Addr} {fuel : Nat}
    (h : t.Layout (c.plug (.node l a r))) (hfuel : c.depth < fuel) :
    ∃ t' T', treapAdjust fuel t a = some t' ∧ SameNodes t t' ∧ t'.Layout T' ∧
      T'.inorder = (c.plug (.node l a r)).inorder ∧
      (Gap t.priorityOf c (.node l a r) → (Shape.node l a r).Heaped t.priorityOf →
        T'.Heaped t.priorityOf) := by
  induction c generalizing t l r fuel with
  | top =>
    obtain ⟨fuel, rfl⟩ := Nat.exists_eq_succ_of_ne_zero (Nat.ne_of_gt hfuel)
    obtain ⟨n, hn, hfather, -, -⟩ := node_of_links h.parts.2.1
    refine ⟨t, _, ?_, SameNodes.refl t, h, rfl, fun _ hheap => hheap⟩
    simp only [Ctx.holder] at hfather
    simp [treapAdjust, hn, hfather]
  | step s b sib c ih =>
    obtain ⟨fuel, rfl⟩ := Nat.exists_eq_succ_of_ne_zero (Nat.ne_of_gt (Nat.zero_lt_of_lt hfuel))
    simp only [Ctx.depth] at hfuel
    obtain ⟨n, hn, hfather, -, -⟩ := node_of_links h.parts.2.1
    simp only [Ctx.holder] at hfather
    obtain ⟨m, hm, -⟩ := Option.map_eq_some_iff.mp h.parts.1.1
    have hpn := priorityOf_eq hn
    have hpm := priorityOf_eq hm
    by_cases hgt : m.internal > n.internal
    · obtain ⟨x, y, hxy⟩ := exists_join s l r a
      have h' : t.Layout (c.plug (Shape.join s (Shape.join s x a y) b sib)) := by
        rw [← hxy]
        exact h
      obtain ⟨t₁, hrun, hs₁, hT₁⟩ := h'.rotate
      obtain ⟨l', r', hlr⟩ := exists_node_of_join s x (Shape.join s y b sib) a
      rw [hlr] at hT₁
      obtain ⟨t', T', hadj, hs', hT', hin, hheap⟩ := ih hT₁ (show c.depth < fuel by omega)
      refine ⟨t', T', ?_, hs₁.trans hs', hT', ?_, fun hgap hsub => ?_⟩
      · simp [treapAdjust, hn, hfather, hm, hgt, hrun, hadj]
      · rw [hin, ← hlr, Ctx.inorder_plug, ← Shape.inorder_rotate, ← hxy, ← Ctx.inorder_plug]
        rfl
      · rw [hxy] at hgap hsub
        rw [hs₁.priorityOf, ← hlr] at hheap
        obtain ⟨hgap', hsub'⟩ := hgap.raise hsub (show t.priorityOf a ≤ t.priorityOf b by omega)
        exact hheap hgap' hsub'
    · refine ⟨t, _, ?_, SameNodes.refl t, h, rfl, fun hgap hsub => ?_⟩
      · simp [treapAdjust, hn, hfather, hm, hgt]
      · refine heaped_plug.mpr ⟨hgap.ctx, hsub, fun f hf d hd => ?_⟩
        cases hf
        cases hd
        omega

/-! ### `tree_InsertNode` -/

/-- What `insertNodes` leaves when it has added `new` under `father`: the new shape, and every old
node as it was up to the links inside the shape. -/
structure Inserted (t : Tree δ) (father : Ptr) (T : Shape Addr) (key : Nat) (new : Fresh δ)
    (t' : Tree δ) (T' : Shape Addr) : Prop where
  grown : T.Grown new.addr T'
  linked : Linked t'.links father T'
  root : t'.root = t.root
  size : t'.size = wrap64 (t.size + 1)
  frame : ∀ x, x ∉ T.inorder → x ≠ new.addr → t'.node x = t.node x
  payload : ∀ x, t'.payload x =
    if x = new.addr then some ⟨key, new.rand ^^^ key, new.data⟩ else t.payload x
  split : ∃ l₁ l₂, T.inorder = l₁ ++ l₂ ∧ T'.inorder = l₁ ++ new.addr :: l₂ ∧
    (∀ x ∈ l₁, t.keyOf x < key) ∧ ∀ x ∈ l₂, key < t.keyOf x

section Insert

variable {key : Nat} {new : Fresh δ}

theorem Inserted.mem_iff {father : Ptr} {T T' : Shape Addr} {t' : Tree δ}
    (h : Inserted t father T key new t' T') {x : Addr} :
    x ∈ T'.inorder ↔ x = new.addr ∨ x ∈ T.inorder := by
  obtain ⟨l₁, l₂, hT, hT', -, -⟩ := h.split
  simp only [hT, hT', List.mem_append, List.mem_cons]
  tauto

theorem inserted_leaf (father : Ptr) :
    Inserted t father .nil key new
      (t.newNode key father (new.rand ^^^ key) new.addr new.data) (.node .nil new.addr .nil) := by
  have hnode : ∀ x, (t.newNode key father (new.rand ^^^ key) new.addr new.data).node x =
      if x = new.addr then some ⟨key, none, none, father, new.rand ^^^ key, new.data⟩
      else t.node x := fun x => node_insert t _ _ _ x _
  refine ⟨.nil, ⟨?_, trivial, trivial⟩, rfl, rfl, fun x _ hx => ?_, fun x => ?_, ?_⟩
  · unfold links
    rw [hnode, if_pos rfl]
    rfl
  · rw [hnode, if_neg hx]
  · unfold payload
    rw [hnode]
    split <;> rfl
  · exact ⟨[], [], rfl, rfl, by simp, by simp⟩

theorem Inserted.modify {father : Ptr} {s : Side} {x y x' : Shape Addr} {a : Addr} {t₁ : Tree δ}
    {n : TreeNode δ} (hn : t.node a = some n)
    (hlinks : n.links = Links.of father s x.root y.root)
    (hnodup : (Shape.join s x a y).inorder.Nodup) (hy : Linked t.links (some a) y)
    (hnew : new.addr ∉ (Shape.join s x a y).inorder) (h : Inserted t (some a) x key new t₁ x') :
    ∃ t', t₁.modify a (fun n => n.set s x'.root) = some t' ∧
      Linked t'.links father (Shape.join s x' a y) ∧ t'.root = t₁.root ∧ t'.size = t₁.size ∧
      (∀ z, z ≠ a → t'.node z = t₁.node z) ∧ t'.payload = t₁.payload := by
  simp only [Shape.mem_join, not_or] at hnew
  have hsplit : a ∉ x.inorder ∧ a ∉ y.inorder ∧ ∀ z ∈ y.inorder, z ∉ x.inorder := by
    cases s <;>
      · simp only [Shape.join, Shape.inorder_node, List.nodup_append, List.nodup_cons,
          List.mem_cons] at hnodup
        grind
  obtain ⟨hax, hay, hyx⟩ := hsplit
  have hna₁ : t₁.node a = some n := by
    rw [h.frame a hax (Ne.symm hnew.1), hn]
  obtain ⟨t', hrun, hs, hroot, hnode⟩ := modify_spec (t := t₁) (a := a) (by simp [hna₁])
    (f := fun n => n.set s x'.root) (fun n => by simp)
  have hframe : ∀ z, z ≠ a → t'.node z = t₁.node z := fun z hz => by rw [hnode, if_neg hz]
  refine ⟨t', hrun, ?_, hroot, hs.size, hframe, hs.payload⟩
  rw [linked_join]
  refine ⟨?_, h.linked.congr fun z hz => ?_, hy.congr fun z hz => ?_⟩
  · unfold links
    rw [hnode, if_pos rfl, hna₁]
    simp [TreeNode.links_set, hlinks]
  · unfold links
    rw [hframe z]
    rintro rfl
    rcases h.mem_iff.mp hz with heq | hmem
    · exact hnew.1 heq.symm
    · exact hax hmem
  · have hza : z ≠ a := by
      rintro rfl
      exact hay hz
    have hzn : z ≠ new.addr := by
      rintro rfl
      exact hnew.2.2 hz
    unfold links
    rw [hframe z hza, h.frame z (hyx z hz) hzn]

/-- The node above the subtree that grows points to what is left of it. -/
theorem Inserted.left {father : Ptr} {l r l' : Shape Addr} {a : Addr} {t₁ : Tree δ}
    {n : TreeNode δ} (hT : Linked t.links father (.node l a r)) (hn : t.node a = some n)
    (hnodup : (Shape.node l a r).inorder.Nodup) (hsorted : t.Sorted (Shape.node l a r).inorder)
    (hnew : new.addr ∉ (Shape.node l a r).inorder) (hlt : key < n.key)
    (h : Inserted t (some a) l key new t₁ l') :
    ∃ t', t₁.modify a (fun m => { m with left := l'.root }) = some t' ∧
      Inserted t father (.node l a r) key new t' (.node l' a r) := by
  obtain ⟨ha, -, hr⟩ := hT
  obtain ⟨-, -, -, hra⟩ := hsorted.node
  have hkey := keyOf_eq hn
  have hlinks : n.links = Links.of father .left l.root r.root := by
    unfold links at ha
    rw [hn] at ha
    exact Option.some.inj ha
  obtain ⟨t', hmod, hlinked, hroot, hsize, hframe, hpay⟩ := h.modify hn hlinks hnodup hr hnew
  refine ⟨t', hmod, .left h.grown, hlinked, hroot.trans h.root, hsize.trans h.size,
    fun x hx hxn => ?_, fun x => ?_, ?_⟩
  · simp only [Shape.inorder_node, List.mem_append, List.mem_cons, not_or] at hx
    rw [hframe x hx.2.1, h.frame x hx.1 hxn]
  · rw [hpay, h.payload]
  · obtain ⟨l₁, l₂, h₁, h₂, hlow, hhigh⟩ := h.split
    refine ⟨l₁, l₂ ++ a :: r.inorder, by simp [h₁], by simp [h₂], hlow, fun x hx => ?_⟩
    rcases List.mem_append.mp hx with hx | hx
    · exact hhigh x hx
    · rcases List.mem_cons.mp hx with rfl | hx
      · omega
      · have := hra x hx
        omega

theorem Inserted.right {father : Ptr} {l r r' : Shape Addr} {a : Addr} {t₁ : Tree δ}
    {n : TreeNode δ} (hT : Linked t.links father (.node l a r)) (hn : t.node a = some n)
    (hnodup : (Shape.node l a r).inorder.Nodup) (hsorted : t.Sorted (Shape.node l a r).inorder)
    (hnew : new.addr ∉ (Shape.node l a r).inorder) (hgt : n.key < key)
    (h : Inserted t (some a) r key new t₁ r') :
    ∃ t', t₁.modify a (fun m => { m with right := r'.root }) = some t' ∧
      Inserted t father (.node l a r) key new t' (.node l a r') := by
  obtain ⟨ha, hl, -⟩ := hT
  obtain ⟨-, -, hla, -⟩ := hsorted.node
  have hkey := keyOf_eq hn
  have hlinks : n.links = Links.of father .right r.root l.root := by
    unfold links at ha
    rw [hn] at ha
    exact Option.some.inj ha
  obtain ⟨t', hmod, hlinked, hroot, hsize, hframe, hpay⟩ := h.modify hn hlinks hnodup hl hnew
  refine ⟨t', hmod, .right h.grown, hlinked, hroot.trans h.root, hsize.trans h.size,
    fun x hx hxn => ?_, fun x => ?_, ?_⟩
  · simp only [Shape.inorder_node, List.mem_append, List.mem_cons, not_or] at hx
    rw [hframe x hx.2.1, h.frame x hx.2.2 hxn]
  · rw [hpay, h.payload]
  · obtain ⟨l₁, l₂, h₁, h₂, hlow, hhigh⟩ := h.split
    refine ⟨l.inorder ++ a :: l₁, l₂, by simp [h₁], by simp [h₂], fun x hx => ?_, hhigh⟩
    rcases List.mem_append.mp hx with hx | hx
    · have := hla x hx
      omega
    · rcases List.mem_cons.mp hx with rfl | hx
      · omega
      · exact hlow x hx

/-- A node that is written as it is. -/
theorem modify_self {a : Addr} {n : TreeNode δ} (hn : t.node a = some n)
    {f : TreeNode δ → TreeNode δ} (hf : f n = n) : t.modify a f = some t := by
  have hins : t.heap.insert a n = t.heap := Finmap.ext_lookup fun x => by
    by_cases hx : x = a
    · subst hx
      rw [Finmap.lookup_insert]
      exact hn.symm
    · rw [Finmap.lookup_insert_of_ne _ hx]
  rw [modify_eq_some hn, hf, hins]

theorem insertNodes_spec (key : Nat) (T : Shape Addr) {father : Ptr} {fuel : Nat}
    (hT : Linked t.links father T) (hnodup : T.inorder.Nodup) (hsorted : t.Sorted T.inorder)
    (hnew : t.node new.addr = none) (hfuel : T.size < fuel) :
    (∃ n ∈ T.inorder, t.keyOf n = key ∧
      insertNodes key new fuel t T.root father = some (t, T.root, n, false)) ∨
    ∃ t' T', Inserted t father T key new t' T' ∧
      insertNodes key new fuel t T.root father = some (t', T'.root, new.addr, true) := by
  induction T generalizing father fuel with
  | nil =>
    obtain ⟨fuel, rfl⟩ := Nat.exists_eq_succ_of_ne_zero (Nat.ne_of_gt (Nat.zero_lt_of_lt hfuel))
    exact .inr ⟨_, _, inserted_leaf father, rfl⟩
  | node l a r ihl ihr =>
    obtain ⟨fuel, rfl⟩ := Nat.exists_eq_succ_of_ne_zero (Nat.ne_of_gt (Nat.zero_lt_of_lt hfuel))
    simp only [Shape.size] at hfuel
    have hnewT : new.addr ∉ (Shape.node l a r).inorder := fun hmem => by
      have hsome := hT.isSome hmem
      simp [links, hnew] at hsome
    have hlinked := hT
    obtain ⟨ha, hl, hr⟩ := hT
    obtain ⟨n, hn, hnf, hnl, hnr⟩ := node_of_links ha
    have hkey := keyOf_eq hn
    obtain ⟨hsl, hsr, hla, hra⟩ := hsorted.node
    have hnodup' := hnodup
    simp only [Shape.inorder_node, List.nodup_append, List.nodup_cons] at hnodup'
    rcases Nat.lt_trichotomy key n.key with hlt | heq | hgt
    · rcases ihl hl hnodup'.1 hsl (show l.size < fuel by omega) with
        ⟨m, hm, hmk, hrun⟩ | ⟨t₁, l', hins, hrun⟩
      · have hback := modify_self hn (f := fun m => { m with left := l.root }) (by rw [← hnl])
        refine .inl ⟨m, by simp [hm], hmk, ?_⟩
        simp [insertNodes, hn, hlt, hnl, hrun, hback]
      · obtain ⟨t', hmod, hins'⟩ := hins.left hlinked hn hnodup hsorted hnewT hlt
        refine .inr ⟨t', .node l' a r, hins', ?_⟩
        simp [insertNodes, hn, hlt, hnl, hrun, hmod]
    · refine .inl ⟨a, by simp, by omega, ?_⟩
      simp [insertNodes, hn, heq]
    · have hnlt : ¬ key < n.key := by omega
      rcases ihr hr hnodup'.2.1.2 hsr (show r.size < fuel by omega) with
        ⟨m, hm, hmk, hrun⟩ | ⟨t₁, r', hins, hrun⟩
      · have hback := modify_self hn (f := fun m => { m with right := r.root }) (by rw [← hnr])
        refine .inl ⟨m, by simp [hm], hmk, ?_⟩
        simp [insertNodes, hn, hnlt, hgt, hnr, hrun, hback]
      · obtain ⟨t', hmod, hins'⟩ := hins.right hlinked hn hnodup hsorted hnewT hgt
        refine .inr ⟨t', .node l a r', hins', ?_⟩
        simp [insertNodes, hn, hnlt, hgt, hnr, hrun, hmod]

/-- The tree that an insertion which adds a node leaves, before it is adjusted. -/
theorem Inserted.layout {T T' : Shape Addr} {t₁ : Tree δ} (hins : Inserted t none T key new t₁ T')
    (hT : t.Layout T) (hnew : t.node new.addr = none) :
    Layout { t₁ with root := T'.root } T' := by
  obtain ⟨l₁, l₂, hl, hl', -, -⟩ := hins.split
  have hnewT : new.addr ∉ T.inorder := fun hmem => by
    have hsome := (hT.isSome_iff new.addr).mpr hmem
    simp [hnew] at hsome
  refine ⟨rfl, hins.linked, ?_, fun x => ?_⟩
  · have hperm : T'.inorder.Perm (new.addr :: T.inorder) := by
      rw [hl, hl']
      exact List.perm_middle
    exact hperm.nodup_iff.mpr (List.nodup_cons.mpr ⟨hnewT, hT.nodup⟩)
  · have hpay := hins.payload x
    rw [hins.mem_iff, ← hT.isSome_iff x]
    unfold Tree.payload at hpay
    change (t₁.node x).isSome ↔ _
    by_cases hx : x = new.addr
    · rw [if_pos hx] at hpay
      obtain ⟨m, hm, -⟩ := Option.map_eq_some_iff.mp hpay
      exact iff_of_true (by simp [hm]) (.inl hx)
    · rw [if_neg hx] at hpay
      have hsome := congrArg Option.isSome hpay
      simp only [Option.isSome_map] at hsome
      rw [hsome, or_iff_right hx]

/-- A leaf added to a tree in heap order is the only node out of place. -/
theorem Inserted.gap {T T' : Shape Addr} {t₁ : Tree δ} (hins : Inserted t none T key new t₁ T')
    (hnew : new.addr ∉ T.inorder) {c : Ctx Addr} (hc : T = c.plug .nil)
    (hheap : T.Heaped t.priorityOf) : Gap t₁.priorityOf c (.node .nil new.addr .nil) := by
  have hold : T.Heaped t₁.priorityOf := hheap.congr fun x hx => by
    unfold priorityOf
    rw [hins.payload, if_neg (by rintro rfl; exact hnew hx)]
  rw [hc] at hold
  have hnil : ∀ S ∈ (Shape.node Shape.nil new.addr Shape.nil).sons, S = .nil := by
    simp [Shape.sons]
  refine ⟨(heaped_plug.mp hold).1, fun S hS => ?_, fun S hS f _ a ha => ?_⟩
  · rw [hnil S hS]
    trivial
  · rw [hnil S hS] at ha
    cases ha

theorem adjustIf_spec (c : Ctx Addr) {l r : Shape Addr} {a : Addr}
    (h : t.Layout (c.plug (.node l a r))) (b : Bool) :
    ∃ t' T', adjustIf b t a = some t' ∧ SameNodes t t' ∧ t'.Layout T' ∧
      T'.inorder = (c.plug (.node l a r)).inorder ∧
      ((c.plug (.node l a r)).Heaped t.priorityOf → T'.Heaped t.priorityOf) ∧
      (b = true → Gap t.priorityOf c (.node l a r) → (Shape.node l a r).Heaped t.priorityOf →
        T'.Heaped t.priorityOf) := by
  cases b with
  | false => exact ⟨t, _, rfl, SameNodes.refl t, h, rfl, id, fun hb => Bool.noConfusion hb⟩
  | true =>
    obtain ⟨t', T', hadj, hs, hT', hin, hheap⟩ := treapAdjust_spec c h h.depth_lt
    exact ⟨t', T', hadj, hs, hT', hin,
      fun hT => hheap (gap_of_heaped hT) (heaped_plug.mp hT).2.1, fun _ => hheap⟩

/-- An insertion either finds the node with that key and keeps every node as it is, or adds one
between the smaller and the larger keys. When it adjusts the node that it adds, heap order is kept. -/
theorem Layout.insertNode {T : Shape Addr} (hT : t.Layout T) (hsorted : t.Sorted T.inorder)
    (key : Nat) (added : AddedArg) (hnew : t.node new.addr = none) :
    (∃ n ∈ T.inorder, t.keyOf n = key ∧ ∃ t' T', t.insertNode key added new = some (t', n, false) ∧
      SameNodes t t' ∧ t'.Layout T' ∧ T'.inorder = T.inorder ∧
      (T.Heaped t.priorityOf → T'.Heaped t'.priorityOf)) ∨
    ∃ t' T' l₁ l₂, t.insertNode key added new = some (t', new.addr, true) ∧
      T.inorder = l₁ ++ l₂ ∧ t'.Layout T' ∧ T'.inorder = l₁ ++ new.addr :: l₂ ∧
      (∀ x ∈ l₁, t.keyOf x < key) ∧ (∀ x ∈ l₂, key < t.keyOf x) ∧
      t'.size = wrap64 (t.size + 1) ∧
      (∀ x, t'.payload x =
        if x = new.addr then some ⟨key, new.rand ^^^ key, new.data⟩ else t.payload x) ∧
      (added.read true = true → T.Heaped t.priorityOf → T'.Heaped t'.priorityOf) := by
  have hsize : T.size < t.fuel := Layout.size_lt (c := .top) hT
  rcases insertNodes_spec key T hT.linked hT.nodup hsorted hnew hsize with
    ⟨n, hn, hkey, hrun⟩ | ⟨t₁, T', hins, hrun⟩
  · refine .inl ⟨n, hn, hkey, ?_⟩
    have hroot : { t with root := T.root } = t := by rw [← hT.root]
    obtain ⟨c, l, r, rfl⟩ := exists_plug hn
    obtain ⟨t', T', hadj, hs, hT', hin, hheap, -⟩ := adjustIf_spec c hT (added.read false)
    refine ⟨t', T', ?_, hs, hT', hin, hs.priorityOf ▸ hheap⟩
    simp only [Tree.insertNode, hT.root, hrun, hroot, hadj, Option.bind_eq_bind, Option.bind_some]
  · obtain ⟨l₁, l₂, hl, hl', hlow, hhigh⟩ := hins.split
    obtain ⟨c, hc, rfl⟩ := hins.grown.exists_ctx
    obtain ⟨t', T'', hadj, hs, hT'', hin, -, hheap⟩ :=
      adjustIf_spec c (hins.layout hT hnew) (added.read true)
    refine .inr ⟨t', T'', l₁, l₂, ?_, hl, hT'', hin.trans hl', hlow, hhigh,
      hs.size.trans hins.size, fun x => (congrFun hs.payload x).trans (hins.payload x),
      fun hread hT₀ => ?_⟩
    · simp only [Tree.insertNode, hT.root, hrun, hadj, Option.bind_eq_bind, Option.bind_some]
    · have hnewT : new.addr ∉ T.inorder := fun hmem => by
        have hsome := (hT.isSome_iff new.addr).mpr hmem
        simp [hnew] at hsome
      rw [hs.priorityOf]
      exact hheap hread (hins.gap hnewT hc hT₀) (Shape.heaped_leaf _)

theorem Represents.insertNode {l : List Addr} (h : t.Represents l) (key : Nat) (added : AddedArg)
    (hnew : t.node new.addr = none) :
    (∃ n ∈ l, t.keyOf n = key ∧ ∃ t', t.insertNode key added new = some (t', n, false) ∧
      SameNodes t t' ∧ t'.Represents l) ∨
    ((∀ x ∈ l, t.keyOf x ≠ key) ∧
      ∃ t' l₁ l₂, t.insertNode key added new = some (t', new.addr, true) ∧ l = l₁ ++ l₂ ∧
        t'.Represents (l₁ ++ new.addr :: l₂) ∧ t'.size = wrap64 (t.size + 1) ∧
        ∀ x, t'.payload x =
          if x = new.addr then some ⟨key, new.rand ^^^ key, new.data⟩ else t.payload x) := by
  obtain ⟨T, hT, rfl⟩ := h.layout
  rcases hT.insertNode h.sorted key added hnew with
    ⟨n, hn, hkey, t', T', hrun, hs, hT', hin, -⟩ |
    ⟨t', T', l₁, l₂, hrun, hl, hT', hin, hlow, hhigh, hsize, hpay, -⟩
  · exact .inl ⟨n, hn, hkey, t', hrun, hs, h.of_sameNodes hs hT' hin⟩
  · have habsent : ∀ x ∈ T.inorder, t.keyOf x ≠ key := by
      intro x hx
      rw [hl, List.mem_append] at hx
      rcases hx with hx | hx
      · exact Nat.ne_of_lt (hlow x hx)
      · exact Nat.ne_of_gt (hhigh x hx)
    have hnewT : new.addr ∉ T.inorder := fun hmem => by
      have hsome := (hT.isSome_iff new.addr).mpr hmem
      simp [hnew] at hsome
    refine .inr ⟨habsent, t', l₁, l₂, hrun, hl, ⟨⟨T', hT', hin⟩, ?_⟩, hsize, hpay⟩
    have hkey : ∀ x ∈ T.inorder, t'.keyOf x = t.keyOf x := by
      intro x hx
      unfold keyOf
      rw [hpay, if_neg (by rintro rfl; exact hnewT hx)]
    have hkeyNew : t'.keyOf new.addr = key := by simp [keyOf, hpay]
    have hold : t'.Sorted (l₁ ++ l₂) := by
      rw [← hl]
      exact h.sorted.imp_of_mem fun hx hy hxy => by rwa [hkey _ hx, hkey _ hy]
    rw [hl] at hkey
    obtain ⟨hs₁, hs₂, hcross⟩ := List.pairwise_append.mp hold
    refine List.pairwise_append.mpr ⟨hs₁, List.pairwise_cons.mpr ⟨fun x hx => ?_, hs₂⟩,
      fun x hx y hy => ?_⟩
    · rw [hkeyNew, hkey x (List.mem_append_right _ hx)]
      exact hhigh x hx
    · rcases List.mem_cons.mp hy with rfl | hy
      · rw [hkeyNew, hkey x (List.mem_append_left _ hx)]
        exact hlow x hx
      · exact hcross x hx y hy

end Insert

/-! ### `tree_FindNode` -/

theorem findNodes_spec (key : Nat) (T : Shape Addr) {father : Ptr} {fuel : Nat}
    (hT : Linked t.links father T) (hsorted : t.Sorted T.inorder) (hfuel : T.size < fuel) :
    ∃ p, findNodes key t fuel T.root = some p ∧
      ∀ x, p = some x ↔ x ∈ T.inorder ∧ t.keyOf x = key := by
  induction T generalizing father fuel with
  | nil =>
    obtain ⟨fuel, rfl⟩ := Nat.exists_eq_succ_of_ne_zero (Nat.ne_of_gt (Nat.zero_lt_of_lt hfuel))
    exact ⟨none, rfl, by simp⟩
  | node l a r ihl ihr =>
    obtain ⟨fuel, rfl⟩ := Nat.exists_eq_succ_of_ne_zero (Nat.ne_of_gt (Nat.zero_lt_of_lt hfuel))
    simp only [Shape.size] at hfuel
    obtain ⟨ha, hl, hr⟩ := hT
    obtain ⟨n, hn, -, hnl, hnr⟩ := node_of_links ha
    have hkey := keyOf_eq hn
    obtain ⟨hsl, hsr, hla, hra⟩ := hsorted.node
    rcases Nat.lt_trichotomy key n.key with hlt | heq | hgt
    · obtain ⟨p, hrun, hp⟩ := ihl hl hsl (show l.size < fuel by omega)
      refine ⟨p, by simp [findNodes, hn, hlt, hnl, hrun], fun x => ?_⟩
      rw [hp x, Shape.inorder_node, List.mem_append, List.mem_cons]
      constructor
      · rintro ⟨hx, hk⟩
        exact ⟨.inl hx, hk⟩
      · rintro ⟨hx | rfl | hx, hk⟩
        · exact ⟨hx, hk⟩
        · omega
        · have := hra x hx
          omega
    · refine ⟨some a, by simp [findNodes, hn, heq], fun x => ?_⟩
      rw [Shape.inorder_node, List.mem_append, List.mem_cons, Option.some.injEq]
      constructor
      · rintro rfl
        exact ⟨.inr (.inl rfl), by omega⟩
      · rintro ⟨hx | rfl | hx, hk⟩
        · have := hla x hx
          omega
        · rfl
        · have := hra x hx
          omega
    · obtain ⟨p, hrun, hp⟩ := ihr hr hsr (show r.size < fuel by omega)
      have hnlt : ¬ key < n.key := by omega
      refine ⟨p, by simp [findNodes, hn, hnlt, hgt, hnr, hrun], fun x => ?_⟩
      rw [hp x, Shape.inorder_node, List.mem_append, List.mem_cons]
      constructor
      · rintro ⟨hx, hk⟩
        exact ⟨.inr (.inr hx), hk⟩
      · rintro ⟨hx | rfl | hx, hk⟩
        · have := hla x hx
          omega
        · omega
        · exact ⟨hx, hk⟩

theorem Represents.findNode {l : List Addr} (h : t.Represents l) (key : Nat) :
    ∃ p, t.findNode key = some p ∧ ∀ x, p = some x ↔ x ∈ l ∧ t.keyOf x = key := by
  obtain ⟨T, hT, rfl⟩ := h.layout
  have hsize : T.size < t.fuel := Layout.size_lt (c := .top) hT
  obtain ⟨p, hrun, hp⟩ := findNodes_spec key T hT.linked h.sorted hsize
  refine ⟨p, ?_, hp⟩
  unfold Tree.findNode
  rw [hT.root, hrun]

/-! ### `tree_Delete` -/

theorem sinkNode_spec {fuel : Nat} {c : Ctx Addr} {l r : Shape Addr} {a : Addr}
    (h : t.Layout (c.plug (.node l a r))) (hfuel : l.size + r.size < fuel) :
    ∃ t' c' l' r', sinkNode fuel t a = some t' ∧ SameNodes t t' ∧
      t'.Layout (Ctx.plug c' (.node l' a r')) ∧ (l' = .nil ∨ r' = .nil) ∧
      (Ctx.plug c' (.node l' a r')).inorder = (c.plug (.node l a r)).inorder ∧
      (Gap t.priorityOf c (.node l a r) → Gap t.priorityOf c' (.node l' a r')) := by
  induction fuel generalizing t c l r with
  | zero => omega
  | succ fuel ih =>
    obtain ⟨n, hn, -, hnl, hnr⟩ := node_of_links h.parts.2.1
    cases l with
    | nil =>
      refine ⟨t, c, .nil, r, ?_, SameNodes.refl t, h, .inl rfl, rfl, id⟩
      simp only [Shape.root_nil] at hnl
      simp [sinkNode, hn, hnl]
    | node ll b lr =>
      cases r with
      | nil =>
        refine ⟨t, c, .node ll b lr, .nil, ?_, SameNodes.refl t, h, .inr rfl, rfl, id⟩
        simp only [Shape.root_nil] at hnr
        simp [sinkNode, hn, hnr]
      | node rl d rr =>
        simp only [Shape.root_node] at hnl hnr
        simp only [Shape.size] at hfuel
        obtain ⟨nb, hnb, -⟩ := node_of_links h.parts.2.2.1.1
        obtain ⟨nd, hnd, -⟩ := node_of_links h.parts.2.2.2.1
        have hpb := priorityOf_eq hnb
        have hpd := priorityOf_eq hnd
        by_cases hlt : nb.internal < nd.internal
        · obtain ⟨t₁, hrot, hs₁, hT₁⟩ :=
            Layout.rotate (s := .left) (x := ll) (a := b) (m := lr) (b := a)
              (r := .node rl d rr) (c := c) h
          obtain ⟨t', c', l', r', hrun, hs', hT', hnil, hin, hgap⟩ :=
            ih (c := .step .right b ll c) (l := lr) (r := .node rl d rr) hT₁
              (by simp only [Shape.size]; omega)
          refine ⟨t', c', l', r', ?_, hs₁.trans hs', hT', hnil, ?_, fun h₀ => ?_⟩
          · simp [sinkNode, hn, hnl, hnr, hnb, hnd, hlt, hrot, hrun]
          · rw [hin]
            simp [Ctx.inorder_plug, Ctx.before, Ctx.after]
          · rw [hs₁.priorityOf] at hgap
            refine hgap (Gap.sink (s := .left) (x := ll) (m := lr) h₀ fun e he => ?_)
            cases he
            omega
        · obtain ⟨t₁, hrot, hs₁, hT₁⟩ :=
            Layout.rotate (s := .right) (x := rr) (a := d) (m := rl) (b := a)
              (r := .node ll b lr) (c := c) h
          obtain ⟨t', c', l', r', hrun, hs', hT', hnil, hin, hgap⟩ :=
            ih (c := .step .left d rr c) (l := .node ll b lr) (r := rl) hT₁
              (by simp only [Shape.size]; omega)
          refine ⟨t', c', l', r', ?_, hs₁.trans hs', hT', hnil, ?_, fun h₀ => ?_⟩
          · simp [sinkNode, hn, hnl, hnr, hnb, hnd, hlt, hrot, hrun]
          · rw [hin]
            simp [Ctx.inorder_plug, Ctx.before, Ctx.after]
          · rw [hs₁.priorityOf] at hgap
            refine hgap (Gap.sink (s := .right) (x := rr) (m := rl) h₀ fun e he => ?_)
            cases he
            omega

theorem Layout.splice {c : Ctx Addr} {l r : Shape Addr} {a : Addr}
    (h : t.Layout (c.plug (.node l a r))) (hnil : l = .nil ∨ r = .nil) :
    ∃ d t', (if l.root.isSome then l.root else r.root) = Shape.root d ∧
      (d = l ∨ d = r) ∧ d.inorder = l.inorder ++ r.inorder ∧
      connect (if t.root = some a then { t with root := d.root } else t) c.holder d.root c.side =
        some t' ∧ SameNodes t t' ∧ t'.root = (c.plug d).root ∧
      LinkedCtx t'.links d.root c ∧ Linked t'.links c.holder d := by
  obtain ⟨hcn, hnode, hdisj⟩ := Ctx.nodup_plug.mp h.nodup
  obtain ⟨hc, ha, hl, hr⟩ := h.parts
  obtain ⟨d, hd, hson, hin, hnodup, hlinked⟩ : ∃ d : Shape Addr,
      (if l.root.isSome then l.root else r.root) = d.root ∧ (d = l ∨ d = r) ∧
      d.inorder = l.inorder ++ r.inorder ∧ d.inorder.Nodup ∧ Linked t.links (some a) d := by
    simp only [Shape.inorder_node, List.nodup_append, List.nodup_cons] at hnode
    rcases hnil with rfl | rfl
    · exact ⟨r, rfl, .inr rfl, by simp, hnode.2.1.2, hr⟩
    · refine ⟨l, ?_, .inl rfl, by simp, hnode.1, hl⟩
      cases l <;> rfl
  have hdmem : ∀ x ∈ d.inorder, x ∈ (Shape.node l a r).inorder := by
    intro x hx
    rw [hin, List.mem_append] at hx
    simp only [Shape.inorder_node, List.mem_append, List.mem_cons]
    tauto
  have hroot : t.root = c.rootOf (some a) := by rw [h.root, Ctx.root_plug, Shape.root_node]
  set t₀ : Tree δ := if t.root = some a then { t with root := d.root } else t with ht₀
  have hlinks₀ : t₀.links = t.links := by
    rw [ht₀]
    split <;> rfl
  have hs₀ : SameNodes t t₀ := by
    rw [ht₀]
    split
    · exact ⟨rfl, rfl, rfl⟩
    · exact SameNodes.refl t
  obtain ⟨t', hrun, hs, hr', hl'⟩ := connect_spec (h.valid_holder.of_sameNodes hs₀)
    ((valid_root hlinked).of_sameNodes hs₀) c.side
  refine ⟨d, t', hd, hson, hin, hrun, hs₀.trans hs, ?_, ?_, ?_⟩
  · rw [hr', Ctx.root_plug]
    cases c with
    | top => simp [ht₀, hroot, Ctx.rootOf]
    | step s b sib c =>
      have hne : c.rootOf (some b) ≠ some a := by
        intro heq
        exact hdisj a (Ctx.rootOf_mem heq) (by simp)
      simp only [ht₀, hroot, Ctx.rootOf, if_neg hne]
  · rw [hl', hlinks₀]
    exact hc.connect hcn fun x hx hroot => hdisj x hx (hdmem x (Shape.mem_of_root hroot))
  · rw [hl', hlinks₀]
    exact hlinked.connect_son hnodup fun x hx hholder =>
      hdisj x (Ctx.holder_mem hholder) (hdmem x hx)

theorem node_erase (t : Tree δ) (a x : Addr) :
    node { t with heap := t.heap.erase a } x = if x = a then none else t.node x := by
  by_cases h : x = a
  · subst h
    simp [node]
  · simp [node, h, Finmap.lookup_erase_ne]

/-- A deletion takes out its node and keeps heap order. -/
theorem Layout.delete {T : Shape Addr} (hT : t.Layout T) {a : Addr} (ha : a ∈ T.inorder) :
    ∃ t' T', t.delete a = some t' ∧ t'.Layout T' ∧ T'.inorder = T.inorder.erase a ∧
      t'.size = t.size ∧ (∀ x, t'.payload x = if x = a then none else t.payload x) ∧
      (T.Heaped t.priorityOf → T'.Heaped t'.priorityOf) := by
  obtain ⟨c, l, r, rfl⟩ := exists_plug ha
  have hsize := hT.size_lt
  simp only [Shape.size] at hsize
  obtain ⟨t₁, c', l', r', hsink, hs₁, hT₁, hnil, hin, hgap⟩ :=
    sinkNode_spec hT (show l.size + r.size < t.fuel by omega)
  obtain ⟨d, t₂, hd, hson, hdin, hconn, hs₂, hroot, hctx, hlinked⟩ := hT₁.splice hnil
  obtain ⟨n, hn, hnf, hnl, hnr⟩ := node_of_links hT₁.parts.2.1
  have htell := hT₁.tell
  have hs := hs₁.trans hs₂
  obtain ⟨hcn, hnn, hdisj⟩ := Ctx.nodup_plug.mp hT₁.nodup
  have hac : a ∉ c'.elems := fun hmem => hdisj a hmem (by simp)
  have had : a ∉ d.inorder := by
    rw [hdin]
    simp only [Shape.inorder_node, List.nodup_append, List.nodup_cons] at hnn
    intro hmem
    rcases List.mem_append.mp hmem with hmem | hmem
    · exact hnn.2.2 a hmem a List.mem_cons_self rfl
    · exact hnn.2.1.1 hmem
  set t' : Tree δ := { t₂ with heap := t₂.heap.erase a } with ht'
  have hnode : ∀ x, t'.node x = if x = a then none else t₂.node x := node_erase t₂ a
  have hlinks : ∀ x, x ≠ a → t'.links x = t₂.links x := fun x hx => by
    unfold Tree.links
    rw [hnode, if_neg hx]
  have herase : (c.plug (.node l a r)).inorder.erase a = (c'.plug d).inorder := by
    rw [← hin]
    exact Ctx.inorder_erase hT₁.nodup hdin
  have hpay : ∀ x, t'.payload x = if x = a then none else t.payload x := by
    intro x
    unfold Tree.payload
    rw [hnode]
    split
    · rfl
    · exact congrFun hs.payload x
  refine ⟨t', c'.plug d, ?_, ⟨hroot, ?_, ?_, fun x => ?_⟩, herase.symm, hs.size, hpay,
    fun hheap => ?_⟩
  · have hroot' : (if n.left.isSome then n.left else n.right) = d.root := by rw [hnl, hnr, hd]
    simp only [Tree.delete, hsink, hn, hroot', Option.bind_eq_bind, Option.bind_some]
    have htell' : Tree.tell (if t₁.root = some a then { t₁ with root := d.root } else t₁) a =
        some c'.side := by
      rw [← htell]
      split <;> rfl
    rw [htell', hnf]
    simp only [Option.bind_some, hconn]
    rfl
  · rw [linked_plug]
    exact ⟨hctx.congr fun x hx => hlinks x (by rintro rfl; exact hac hx),
      hlinked.congr fun x hx => hlinks x (by rintro rfl; exact had hx)⟩
  · rw [← herase]
    exact hT.nodup.erase a
  · rw [← herase, hT.nodup.mem_erase_iff, ← hT.isSome_iff x, hnode]
    by_cases hx : x = a
    · simp [hx]
    · simp [hx, hs.isSome_iff]
  · have hplug := (hgap (gap_of_heaped hheap)).heaped_son (S := d)
      (Shape.mem_sons_join (s := .left).mpr hson)
    apply hplug.congr
    intro x hx
    have hxa : x ≠ a := by
      rw [← herase] at hx
      exact (hT.nodup.mem_erase_iff.mp hx).1
    unfold Tree.priorityOf
    rw [hpay, if_neg hxa]

theorem Represents.delete {l : List Addr} (h : t.Represents l) {a : Addr} (ha : a ∈ l) :
    ∃ t', t.delete a = some t' ∧ t'.Represents (l.erase a) ∧ t'.size = t.size ∧
      ∀ x, t'.payload x = if x = a then none else t.payload x := by
  obtain ⟨T, hT, rfl⟩ := h.layout
  obtain ⟨t', T', hrun, hT', hin, hsize, hpay, -⟩ := hT.delete ha
  refine ⟨t', hrun, ⟨⟨T', hT', hin⟩, ?_⟩, hsize, hpay⟩
  have hsorted : t.Sorted (T.inorder.erase a) := h.sorted.sublist List.erase_sublist
  refine hsorted.imp_of_mem fun {x y} hx hy hxy => ?_
  have hxa := (hT.nodup.mem_erase_iff.mp hx).1
  have hya := (hT.nodup.mem_erase_iff.mp hy).1
  unfold keyOf
  rw [hpay, hpay, if_neg hxa, if_neg hya]
  exact hxy

/-! ### Iteration -/

/-- A list of nodes from the side that comes first. -/
def runFrom : Side → List Addr → List Addr
  | .left, l => l
  | .right, l => l.reverse

theorem map_some_head? {l : List Addr} (h : l ≠ []) : l.head?.map some = some l.head? := by
  obtain ⟨a, l, rfl⟩ := List.exists_cons_of_ne_nil h
  rfl

/-- The nodes on one side of a node, the nearest first. -/
def past : Side → List Addr → List Addr → List Addr
  | .left, l₁, _ => l₁.reverse
  | .right, _, l₂ => l₂

/-- What lies past the hole of a context, going towards a side. -/
def beyond : Side → Ctx Addr → List Addr
  | .left, c => c.before.reverse
  | .right, c => c.after

theorem runFrom_inorder (s : Side) (l r : Shape Addr) (a : Addr) :
    ∃ x y, Shape.node l a r = Shape.join s x a y ∧
      runFrom s (Shape.node l a r).inorder = runFrom s x.inorder ++ a :: runFrom s y.inorder := by
  cases s with
  | left => exact ⟨l, r, rfl, rfl⟩
  | right => exact ⟨r, l, rfl, by simp [runFrom]⟩

theorem runFrom_ne_nil (s : Side) (l r : Shape Addr) (a : Addr) :
    runFrom s (Shape.node l a r).inorder ≠ [] := by
  obtain ⟨x, y, -, hrun⟩ := runFrom_inorder s l r a
  rw [hrun]
  exact List.append_ne_nil_of_right_ne_nil _ (List.cons_ne_nil _ _)

theorem leftmost_eq (t : Tree δ) (fuel : Nat) (a : Addr) :
    t.leftmost fuel a = t.outermost .left fuel a := by
  induction fuel generalizing a with
  | zero => rfl
  | succ fuel ih => simp only [leftmost, outermost, TreeNode.get, ih]

theorem climb_eq (t : Tree δ) (fuel : Nat) (a : Addr) :
    t.climb fuel a = t.climbOut .right fuel a := by
  induction fuel generalizing a with
  | zero => rfl
  | succ fuel ih => simp only [climb, climbOut, ih]

theorem outermost_spec {s : Side} (T : Shape Addr) {a : Addr} {father : Ptr} {fuel : Nat}
    (hroot : T.root = some a) (h : Linked t.links father T) (hfuel : T.size ≤ fuel) :
    t.outermost s fuel a = (runFrom s T.inorder).head? := by
  induction fuel generalizing T a father with
  | zero =>
    cases T with
    | nil => cases hroot
    | node l b r => exact absurd hfuel (Nat.not_succ_le_zero _)
  | succ fuel ih =>
    cases T with
    | nil => cases hroot
    | node l b r =>
      obtain rfl : b = a := by simpa using hroot
      obtain ⟨x, y, hjoin, hrun⟩ := runFrom_inorder s l r b
      have hsize : x.size ≤ fuel := by
        have hlen := congrArg Shape.size hjoin
        cases s <;> simp only [Shape.join, Shape.size] at hlen hfuel <;> omega
      rw [hjoin, linked_join] at h
      obtain ⟨hb, hx, -⟩ := h
      obtain ⟨n, hn, hlinks⟩ := Option.map_eq_some_iff.mp hb
      have hget : n.get s = x.root := by
        rw [TreeNode.get_eq, hlinks]
        cases s <;> rfl
      rw [hrun]
      cases x with
      | nil =>
        simp only [outermost, hn, hget, Shape.root_nil, Option.bind_eq_bind, Option.bind_some]
        cases s <;> rfl
      | node xl d xr =>
        have hhead := runFrom_ne_nil s xl xr d
        simp only [outermost, hn, hget, Shape.root_node, Option.bind_eq_bind, Option.bind_some]
        rw [ih (.node xl d xr) rfl hx hsize, List.head?_append_of_ne_nil _ hhead]

/-- Climbing out of the sons on one side reaches a son of the next node towards that side. -/
theorem climbOut_spec {s : Side} (c : Ctx Addr) {l r : Shape Addr} {a : Addr} {fuel : Nat}
    (h : t.Layout (c.plug (.node l a r))) (hfuel : c.depth < fuel) :
    ∃ b n, t.climbOut s fuel a = some b ∧ t.node b = some n ∧ n.father = (beyond s c).head? := by
  induction c generalizing l r a fuel with
  | top =>
    obtain ⟨fuel, rfl⟩ := Nat.exists_eq_succ_of_ne_zero (Nat.ne_of_gt hfuel)
    obtain ⟨n, hn, hfather, -, -⟩ := node_of_links h.parts.2.1
    simp only [Ctx.holder] at hfather
    refine ⟨a, n, by simp [climbOut, hn, hfather], hn, ?_⟩
    cases s <;> exact hfather
  | step s' b sib c ih =>
    obtain ⟨fuel, rfl⟩ := Nat.exists_eq_succ_of_ne_zero (Nat.ne_of_gt (Nat.zero_lt_of_lt hfuel))
    simp only [Ctx.depth] at hfuel
    obtain ⟨n, hn, hfather, -, -⟩ := node_of_links h.parts.2.1
    have htell := h.tell
    simp only [Ctx.holder] at hfather
    by_cases hs : s' = s
    · subst hs
      obtain ⟨l', r', hlr⟩ := exists_node_of_join s' (.node l a r) sib b
      have h' : t.Layout (c.plug (.node l' b r')) := by
        rw [← hlr]
        exact h
      obtain ⟨d, m, hrun, hm, hmf⟩ := ih h' (show c.depth < fuel by omega)
      refine ⟨d, m, ?_, hm, hmf.trans ?_⟩
      · simp [climbOut, hn, hfather, htell, Ctx.side, hrun]
      · cases s' <;> rfl
    · refine ⟨a, n, ?_, hn, hfather.trans ?_⟩
      · simp [climbOut, hn, hfather, htell, Ctx.side, hs]
      · cases s <;> cases s' <;> simp_all [beyond, Ctx.before, Ctx.after]

/-- The nodes around one of a tree, read off its place in the shape. -/
theorem Layout.around {c : Ctx Addr} {l r : Shape Addr} {a : Addr} {l₁ l₂ : List Addr}
    (h : t.Layout (c.plug (.node l a r))) (hin : (c.plug (.node l a r)).inorder = l₁ ++ a :: l₂) :
    l₁ = c.before ++ l.inorder ∧ l₂ = r.inorder ++ c.after := by
  have heq : (c.before ++ l.inorder) ++ a :: (r.inorder ++ c.after) = l₁ ++ a :: l₂ := by
    rw [← hin, Ctx.inorder_plug]
    simp
  have hnodup := h.nodup
  rw [hin, ← heq] at hnodup
  have hbefore : a ∉ c.before ++ l.inorder := fun hmem =>
    (List.nodup_append.mp hnodup).2.2 a hmem a List.mem_cons_self rfl
  have hafter : a ∉ r.inorder ++ c.after :=
    (List.nodup_cons.mp (List.nodup_append.mp hnodup).2.1).1
  obtain ⟨hl₁, -, hl₂⟩ := (List.append_cons_inj_of_notMem hbefore hafter).mp heq
  exact ⟨hl₁.symm, hl₂.symm⟩

section Iteration

variable {l l₁ l₂ : List Addr} {a : Addr}

theorem Represents.outermost (h : t.Represents l) (s : Side) :
    (match t.root with
      | none => some none
      | some root => (t.outermost s t.fuel root).map some) = some (runFrom s l).head? := by
  obtain ⟨T, hT, rfl⟩ := h.layout
  rw [hT.root]
  cases T with
  | nil => cases s <;> rfl
  | node l a r =>
    have hsize : (Shape.node l a r).size < t.fuel := Layout.size_lt (c := .top) hT
    simp only [Shape.root_node]
    rw [outermost_spec _ rfl hT.linked (Nat.le_of_lt hsize)]
    exact map_some_head? (runFrom_ne_nil s l r a)

theorem Represents.firstNode (h : t.Represents l) : t.firstNode = some l.head? := by
  simp only [Tree.firstNode, leftmost_eq]
  exact h.outermost .left

theorem Represents.lastNode (h : t.Represents l) : t.lastNode = some l.getLast? := by
  rw [← List.head?_reverse]
  exact h.outermost .right

/-- Down to the nearest node on that side, or up to it. -/
theorem Represents.neighbour (h : t.Represents (l₁ ++ a :: l₂)) (s : Side) :
    (do
      let n ← t.node a
      match n.get s with
      | some son => (t.outermost s.flip t.fuel son).map some
      | none => do
        let result ← t.climbOut s t.fuel a
        some (← t.node result).father) = some (past s l₁ l₂).head? := by
  obtain ⟨T, hT, hin⟩ := h.layout
  obtain ⟨c, l, r, rfl⟩ := exists_plug (t := T) (a := a) (by simp [hin])
  obtain ⟨rfl, rfl⟩ := hT.around hin
  obtain ⟨n, hn, hfather, hnl, hnr⟩ := node_of_links hT.parts.2.1
  have hsize := hT.size_lt
  simp only [Shape.size] at hsize
  obtain ⟨son, hget, hlinked, hle, hpast⟩ : ∃ son : Shape Addr, n.get s = son.root ∧
      Linked t.links (some a) son ∧ son.size ≤ t.fuel ∧
      past s (c.before ++ l.inorder) (r.inorder ++ c.after) =
        runFrom s.flip son.inorder ++ beyond s c := by
    cases s with
    | left => exact ⟨l, hnl, hT.parts.2.2.1, by omega, List.reverse_append⟩
    | right => exact ⟨r, hnr, hT.parts.2.2.2, by omega, rfl⟩
  rw [hpast]
  cases son with
  | nil =>
    obtain ⟨b, m, hrun, hm, hmf⟩ := climbOut_spec (s := s) c hT hT.depth_lt
    simp only [hn, hget, Shape.root_nil, hrun, hm, hmf, Option.bind_eq_bind, Option.bind_some]
    cases s <;> rfl
  | node sl b sr =>
    have hne := runFrom_ne_nil s.flip sl sr b
    simp only [hn, hget, Shape.root_node, Option.bind_eq_bind, Option.bind_some]
    rw [outermost_spec _ rfl hlinked hle, List.head?_append_of_ne_nil _ hne, map_some_head? hne]

theorem Represents.nodeNext (h : t.Represents (l₁ ++ a :: l₂)) : t.nodeNext a = some l₂.head? := by
  simp only [Tree.nodeNext, leftmost_eq, climb_eq]
  exact h.neighbour .right

theorem Represents.nodePrevious (h : t.Represents (l₁ ++ a :: l₂)) :
    t.nodePrevious a = some l₁.getLast? := by
  rw [← List.head?_reverse]
  exact h.neighbour .left

end Iteration

end Helos.Tree
