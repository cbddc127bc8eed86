import Helos.Util.Tree

/-!
# The layout of the treap

Every function of `Tree` is followed through the shape its nodes lay out. `Layout` ties a tree to a
shape; a rotation, an insertion and a deletion each carry it to the next shape, and none of them
touches the key, the priority or the data of a node that stays.
-/

namespace Helos

open LinkedTree

variable {δ : Type}

@[simp] theorem TreeNode.links_left (n : TreeNode δ) : n.links.left = n.left := rfl
@[simp] theorem TreeNode.links_right (n : TreeNode δ) : n.links.right = n.right := rfl
@[simp] theorem TreeNode.links_father (n : TreeNode δ) : n.links.father = n.father := rfl

theorem TreeNode.get_eq (n : TreeNode δ) (type : ConnectType) : n.get type = n.links.child type := by
  cases type <;> rfl

theorem TreeNode.links_set (n : TreeNode δ) (type : ConnectType) (p : Ptr) :
    (n.set type p).links = n.links.setChild type p := by
  cases type <;> rfl

@[simp] theorem TreeNode.payload_set (n : TreeNode δ) (type : ConnectType) (p : Ptr) :
    (n.set type p).payload = n.payload := by
  cases type <;> rfl

namespace Tree

def links (t : Tree δ) (a : Addr) : Option (Links Addr) := (t.node a).map TreeNode.links

def payload (t : Tree δ) (a : Addr) : Option (Payload δ) := (t.node a).map TreeNode.payload

structure Layout (t : Tree δ) (T : Shape Addr) : Prop where
  root : t.root = T.root
  linked : Linked t.links none T
  nodup : T.inorder.Nodup
  isSome_iff : ∀ a, (t.node a).isSome ↔ a ∈ T.inorder

/-- Two trees with the same nodes, keys, priorities and data, linked in their own ways. -/
structure SameNodes (t t' : Tree δ) : Prop where
  payload : t'.payload = t.payload
  size : t'.size = t.size
  keys : t'.heap.keys = t.heap.keys

theorem SameNodes.refl (t : Tree δ) : SameNodes t t := ⟨rfl, rfl, rfl⟩

theorem SameNodes.trans {t₁ t₂ t₃ : Tree δ} (h : SameNodes t₁ t₂) (h' : SameNodes t₂ t₃) :
    SameNodes t₁ t₃ :=
  ⟨h'.payload.trans h.payload, h'.size.trans h.size, h'.keys.trans h.keys⟩

theorem SameNodes.isSome_iff {t t' : Tree δ} (h : SameNodes t t') (a : Addr) :
    (t'.node a).isSome ↔ (t.node a).isSome := by
  have ha := congrFun h.payload a
  unfold Tree.payload at ha
  cases hn : t.node a <;> cases hn' : t'.node a <;> simp_all

theorem SameNodes.fuel {t t' : Tree δ} (h : SameNodes t t') : t'.fuel = t.fuel := by
  unfold Tree.fuel
  rw [h.keys]

/-! ### Reading and writing one node -/

theorem mem_keys_iff (t : Tree δ) (a : Addr) : a ∈ t.heap.keys ↔ (t.node a).isSome := by
  rw [Finmap.mem_keys, node, Finmap.lookup_isSome]

theorem modify_eq_some {t : Tree δ} {a : Addr} {n : TreeNode δ} (h : t.node a = some n)
    (f : TreeNode δ → TreeNode δ) :
    t.modify a f = some { t with heap := t.heap.insert a (f n) } := by
  simp [modify, h]

theorem node_insert (t : Tree δ) (r : Ptr) (k : Nat) (a x : Addr) (n : TreeNode δ) :
    node { root := r, size := k, heap := t.heap.insert a n } x =
      if x = a then some n else t.node x := by
  by_cases h : x = a
  · subst h
    simp [node]
  · simp [node, h, Finmap.lookup_insert_of_ne]

theorem modify_spec {t : Tree δ} {a : Addr} (h : (t.node a).isSome)
    {f : TreeNode δ → TreeNode δ} (hf : ∀ n, (f n).payload = n.payload) :
    ∃ t', t.modify a f = some t' ∧ SameNodes t t' ∧ t'.root = t.root ∧
      ∀ x, t'.node x = if x = a then (t.node x).map f else t.node x := by
  obtain ⟨n, hn⟩ := Option.isSome_iff_exists.mp h
  have hnode : ∀ x, node { t with heap := t.heap.insert a (f n) } x =
      if x = a then (t.node x).map f else t.node x := by
    intro x
    rw [node_insert]
    split
    · next hx => rw [hx, hn, Option.map_some]
    · rfl
  refine ⟨_, modify_eq_some hn f, ⟨?_, rfl, ?_⟩, rfl, hnode⟩
  · funext x
    unfold payload
    rw [hnode]
    split
    · next hx => simp [hx, hn, hf]
    · rfl
  · ext x
    rw [mem_keys_iff, mem_keys_iff, hnode]
    split
    · next hx => simp [hx, hn]
    · rfl

/-! ### `connect` -/

def Valid (t : Tree δ) (p : Ptr) : Prop := ∀ a, p = some a → (t.node a).isSome

theorem valid_some {t : Tree δ} {a : Addr} : t.Valid (some a) ↔ (t.node a).isSome := by
  constructor
  · exact fun h => h a rfl
  · rintro h b hb
    cases hb
    exact h

theorem Valid.of_sameNodes {t t' : Tree δ} {p : Ptr} (h : t.Valid p) (hs : SameNodes t t') :
    t'.Valid p :=
  fun a ha => (hs.isSome_iff a).mpr (h a ha)

theorem connect_spec {t : Tree δ} {father son : Ptr} (hf : t.Valid father) (hs : t.Valid son)
    (type : ConnectType) :
    ∃ t', t.connect father son type = some t' ∧ SameNodes t t' ∧ t'.root = t.root ∧
      t'.links = LinkedTree.connect t.links father son type := by
  obtain ⟨t₁, h₁, hsame₁, hroot₁, hnode₁⟩ : ∃ t₁,
      t.setFather son father = some t₁ ∧ SameNodes t t₁ ∧ t₁.root = t.root ∧
      ∀ x, t₁.node x =
        if son = some x then (t.node x).map fun n => { n with father := father } else t.node x := by
    cases son with
    | none => exact ⟨t, rfl, SameNodes.refl t, rfl, fun x => by simp⟩
    | some s =>
      obtain ⟨t₁, h₁, hsame, hroot, hnode⟩ := modify_spec (t := t) (hs s rfl)
        (f := fun n => { n with father := father }) (fun _ => rfl)
      refine ⟨t₁, h₁, hsame, hroot, fun x => ?_⟩
      rw [hnode x]
      simp only [Option.some.injEq, eq_comm]
  obtain ⟨t₂, h₂, hsame₂, hroot₂, hnode₂⟩ : ∃ t₂,
      t₁.setSon father type son = some t₂ ∧ SameNodes t₁ t₂ ∧ t₂.root = t₁.root ∧
      ∀ x, t₂.node x =
        if father = some x then (t₁.node x).map fun n => n.set type son else t₁.node x := by
    cases father with
    | none => exact ⟨t₁, rfl, SameNodes.refl t₁, rfl, fun x => by simp⟩
    | some f =>
      obtain ⟨t₂, h₂, hsame, hroot, hnode⟩ := modify_spec (t := t₁)
        ((hf.of_sameNodes hsame₁) f rfl) (f := fun n => n.set type son) (fun n => by simp)
      refine ⟨t₂, h₂, hsame, hroot, fun x => ?_⟩
      rw [hnode x]
      simp only [Option.some.injEq, eq_comm]
  refine ⟨t₂, ?_, hsame₁.trans hsame₂, hroot₂.trans hroot₁, ?_⟩
  · simp [connect, h₁, h₂]
  · funext x
    rw [connect_apply]
    unfold links
    rw [hnode₂, hnode₁]
    cases type <;> cases hx : t.node x <;> by_cases hfx : father = some x <;>
      by_cases hsx : son = some x <;>
      simp [hfx, hsx, TreeNode.links, TreeNode.set, Links.setChild]

/-! ### `tell` -/

section Layout

variable {t : Tree δ} {T : Shape Addr}

theorem node_of_links {a : Addr} {f l r : Ptr} (h : t.links a = some ⟨f, l, r⟩) :
    ∃ n, t.node a = some n ∧ n.father = f ∧ n.left = l ∧ n.right = r := by
  unfold links at h
  obtain ⟨n, hn, hlinks⟩ := Option.map_eq_some_iff.mp h
  cases hlinks
  exact ⟨n, hn, rfl, rfl, rfl⟩

theorem Layout.length_eq (h : t.Layout T) : T.inorder.length = t.heap.keys.card := by
  rw [← List.toFinset_card_of_nodup h.nodup]
  congr 1
  ext a
  rw [List.mem_toFinset, mem_keys_iff, h.isSome_iff]

theorem Layout.parts {c : Ctx Addr} (h : t.Layout (c.plug T)) :
    LinkedCtx t.links T.root c ∧ Linked t.links c.holder T :=
  linked_plug.mp h.linked

theorem valid_root {f : Ptr} (h : Linked t.links f T) : t.Valid T.root := by
  intro y hy
  have hsome := h.isSome (Shape.mem_of_root hy)
  simpa [links] using hsome

theorem Layout.valid_holder {c : Ctx Addr} (h : t.Layout (c.plug T)) : t.Valid c.holder := by
  intro y hy
  rw [h.isSome_iff]
  exact Ctx.mem_plug.mpr (.inl (Ctx.holder_mem hy))

theorem Layout.depth_lt {c : Ctx Addr} (h : t.Layout (c.plug T)) : c.depth < t.fuel := by
  have hlen := h.length_eq
  rw [Ctx.inorder_plug] at hlen
  have hdepth := c.depth_le_length
  simp only [Ctx.elems, List.length_append] at hlen hdepth
  unfold fuel
  omega

theorem Layout.size_lt {c : Ctx Addr} (h : t.Layout (c.plug T)) : T.size < t.fuel := by
  have hlen := h.length_eq
  rw [Ctx.inorder_plug] at hlen
  simp only [List.length_append, Shape.length_inorder] at hlen
  unfold fuel
  omega

theorem Layout.tell {c : Ctx Addr} {l r : Shape Addr} {a : Addr}
    (h : t.Layout (c.plug (.node l a r))) : t.tell a = some c.side := by
  obtain ⟨hc, ha, -, -⟩ := h.parts
  obtain ⟨n, hn, hfather, -, -⟩ := node_of_links ha
  cases c with
  | top =>
    simp only [Ctx.holder] at hfather
    simp [Tree.tell, hn, hfather, Ctx.side]
  | step s b sib c =>
    simp only [Ctx.holder] at hfather
    have hb := hc.1
    have hdisj := (Ctx.nodup_plug.mp h.nodup).2.2
    have hab : sib.root ≠ some a := fun hroot =>
      hdisj a (Ctx.mem_elems_step.mpr (.inr (.inl (Shape.mem_of_root hroot)))) (by simp)
    cases s <;>
      · obtain ⟨m, hm, -, hl, -⟩ := node_of_links hb
        simp [Tree.tell, hn, hfather, hm, hl, Ctx.side, hab]

/-! ### `rotate` -/

theorem Layout.rotate {c : Ctx Addr} {s : Side} {a b : Addr} {x m r : Shape Addr}
    (h : t.Layout (c.plug (Shape.join s (Shape.join s x a m) b r))) :
    ∃ t', t.rotate a = some t' ∧ SameNodes t t' ∧
      t'.Layout (c.plug (Shape.join s x a (Shape.join s m b r))) := by
  have htellA : t.tell a = some s := by
    have h' : t.Layout ((Ctx.step s b r c).plug (Shape.join s x a m)) := h
    cases s <;> exact h'.tell
  have htellB : t.tell b = some c.side := by
    cases s <;> exact h.tell
  obtain ⟨hc, ht⟩ := h.parts
  rw [Shape.root_join] at hc
  have hlayout := linked_rotate hc ht h.nodup
  obtain ⟨hb, hasub, -⟩ := linked_join.mp ht
  obtain ⟨ha, -, hm⟩ := linked_join.mp hasub
  obtain ⟨na, hna, hnaL⟩ := Option.map_eq_some_iff.mp ha
  obtain ⟨nb, hnb, hnbL⟩ := Option.map_eq_some_iff.mp hb
  have hnaF : na.father = some b := by
    rw [← TreeNode.links_father, hnaL, Links.father_of]
  have hnaM : na.get s.flip = m.root := by
    rw [TreeNode.get_eq, hnaL, Links.child_flip_of]
  have hnbF : nb.father = c.holder := by
    rw [← TreeNode.links_father, hnbL, Links.father_of]
  -- the pointers the three connections follow
  have hva : t.Valid (some a) := valid_some.mpr (by simp [hna])
  have hvb : t.Valid (some b) := valid_some.mpr (by simp [hnb])
  obtain ⟨t₁, h₁, hs₁, hr₁, hl₁⟩ := connect_spec h.valid_holder hva c.side
  obtain ⟨t₂, h₂, hs₂, hr₂, hl₂⟩ :=
    connect_spec (hva.of_sameNodes hs₁) (hvb.of_sameNodes hs₁) s.flip
  have hs₁₂ := hs₁.trans hs₂
  obtain ⟨t₃, h₃, hs₃, hr₃, hl₃⟩ :=
    connect_spec (hvb.of_sameNodes hs₁₂) ((valid_root hm).of_sameNodes hs₁₂) s
  have hs := hs₁₂.trans hs₃
  have hlinks : t₃.links = LinkedTree.rotate t.links c s a b m := by
    rw [hl₃, hl₂, hl₁]
    rfl
  have hlinked : Linked t₃.links none (c.plug (Shape.join s x a (Shape.join s m b r))) := by
    rw [linked_plug, hlinks, Shape.root_join]
    exact hlayout
  have hnodup : (c.plug (Shape.join s x a (Shape.join s m b r))).inorder =
      (c.plug (Shape.join s (Shape.join s x a m) b r)).inorder := by
    rw [Ctx.inorder_plug, Ctx.inorder_plug, Shape.inorder_rotate]
  have hna₃ : ∃ n₃, t₃.node a = some n₃ ∧ n₃.father = c.holder := by
    obtain ⟨n₃, hn₃, hn₃L⟩ := Option.map_eq_some_iff.mp (linked_join.mp (linked_plug.mp hlinked).2).1
    exact ⟨n₃, hn₃, by rw [← TreeNode.links_father, hn₃L, Links.father_of]⟩
  obtain ⟨n₃, hn₃, hn₃F⟩ := hna₃
  have hroot : t.root = c.rootOf (some b) := by
    rw [h.root, Ctx.root_plug, Shape.root_join]
  have hrun : t.rotate a =
      if n₃.father = none then some { t₃ with root := some a } else some t₃ := by
    simp only [Tree.rotate, hna, hnaF, htellA, htellB, hnb, hnbF, ConnectType.invert, hnaM,
      Option.bind_eq_bind, Option.bind_some, h₁, h₂, h₃, hn₃]
  cases c with
  | top =>
    refine ⟨{ t₃ with root := some a }, ?_, ⟨hs.payload, hs.size, hs.keys⟩, ⟨?_, hlinked, ?_, ?_⟩⟩
    · rw [hrun, hn₃F]
      rfl
    · simp [Ctx.plug]
    · rw [hnodup]
      exact h.nodup
    · intro y
      rw [hnodup, ← h.isSome_iff y]
      exact hs.isSome_iff y
  | step s' d sib c =>
    refine ⟨t₃, ?_, hs, ⟨?_, hlinked, ?_, ?_⟩⟩
    · rw [hrun, hn₃F]
      rfl
    · rw [hr₃, hr₂, hr₁, hroot, Ctx.root_plug]
      rfl
    · rw [hnodup]
      exact h.nodup
    · intro y
      rw [hnodup, ← h.isSome_iff y]
      exact hs.isSome_iff y

end Layout

end Tree

end Helos
