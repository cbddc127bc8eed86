import Helos.Util.TreeOrder

/-!
# The treap as a sorted list of entries

For a program that uses a treap as a table, a tree is the list of its entries in the order of their
keys. Each function is a change of that list up to permutation, the order being forced by the keys.
-/

namespace Helos

variable {δ : Type}

structure Entry (δ : Type) where
  node : Addr
  key : Nat
  data : δ

def Entry.modify (a : Addr) (f : δ → δ) (e : Entry δ) : Entry δ :=
  if e.node = a then { e with data := f e.data } else e

@[simp] theorem Entry.node_modify (a : Addr) (f : δ → δ) (e : Entry δ) :
    (e.modify a f).node = e.node := by
  unfold Entry.modify
  split <;> rfl

@[simp] theorem Entry.key_modify (a : Addr) (f : δ → δ) (e : Entry δ) :
    (e.modify a f).key = e.key := by
  unfold Entry.modify
  split <;> rfl

theorem Entry.modify_of_ne {a : Addr} {e : Entry δ} (h : e.node ≠ a) (f : δ → δ) :
    e.modify a f = e := if_neg h

theorem Entry.data_modify_self {a : Addr} {e : Entry δ} (h : e.node = a) (f : δ → δ) :
    (e.modify a f).data = f e.data := by
  unfold Entry.modify
  rw [if_pos h]

/-- What the change keeps of the data, it keeps in every entry. -/
theorem Entry.data_modify_kept {β : Type} {g : δ → β} {f : δ → δ} (h : ∀ d, g (f d) = g d) (a : Addr)
    (e : Entry δ) : g (e.modify a f).data = g e.data := by
  unfold Entry.modify
  split
  · exact h e.data
  · rfl

namespace Tree

structure Lists (t : Tree δ) (es : List (Entry δ)) : Prop where
  represents : t.Represents (es.map Entry.node)
  payload : ∀ e ∈ es, ∃ i, t.payload e.node = some ⟨e.key, i, e.data⟩

theorem lists_create : (create : Tree δ).Lists [] := ⟨represents_create, by simp⟩

section Lists

variable {t : Tree δ} {es : List (Entry δ)}

theorem Lists.read (h : t.Lists es) {e : Entry δ} (he : e ∈ es) :
    ∃ n, t.node e.node = some n ∧ n.key = e.key ∧ n.data = e.data := by
  obtain ⟨i, hi⟩ := h.payload e he
  obtain ⟨n, hn, hpay⟩ := Option.map_eq_some_iff.mp hi
  have hkey := congrArg Payload.key hpay
  have hdata := congrArg Payload.data hpay
  exact ⟨n, hn, hkey, hdata⟩

theorem Lists.keyOf (h : t.Lists es) {e : Entry δ} (he : e ∈ es) : t.keyOf e.node = e.key := by
  obtain ⟨n, hn, hkey, -⟩ := h.read he
  rw [keyOf_eq hn, hkey]

theorem Lists.sorted (h : t.Lists es) : es.Pairwise fun e e' => e.key < e'.key := by
  have hsorted := List.pairwise_map.mp h.represents.sorted
  exact hsorted.imp_of_mem fun he he' hlt => by rwa [h.keyOf he, h.keyOf he'] at hlt

theorem Lists.nodup_key (h : t.Lists es) : (es.map Entry.key).Nodup :=
  List.pairwise_map.mpr (h.sorted.imp Nat.ne_of_lt)

theorem Lists.eq_of_node (h : t.Lists es) {e e' : Entry δ} (he : e ∈ es) (he' : e' ∈ es)
    (hnode : e.node = e'.node) : e = e' :=
  List.inj_on_of_nodup_map h.represents.nodup he he' hnode

theorem Lists.exists_entry (h : t.Lists es) {a : Addr} {n : TreeNode δ} (hn : t.node a = some n) :
    ∃ e ∈ es, e.node = a ∧ e.key = n.key ∧ e.data = n.data := by
  have hmem : a ∈ es.map Entry.node := (h.represents.isSome_iff a).mp (by simp [hn])
  obtain ⟨e, he, rfl⟩ := List.mem_map.mp hmem
  obtain ⟨n', hn', hkey, hdata⟩ := h.read he
  obtain rfl := Option.some.inj (hn.symm.trans hn')
  exact ⟨e, he, rfl, hkey.symm, hdata.symm⟩

theorem Lists.not_mem_of_fresh (h : t.Lists es) {a : Addr} (ha : t.node a = none) :
    ∀ e ∈ es, e.node ≠ a := by
  intro e he heq
  obtain ⟨n, hn, -, -⟩ := h.read he
  rw [heq, ha] at hn
  cases hn

theorem Lists.node_eq_none (h : t.Lists es) {a : Addr} (ha : ∀ e ∈ es, e.node ≠ a) :
    t.node a = none := by
  rw [← Option.not_isSome_iff_eq_none, h.represents.isSome_iff]
  intro hmem
  obtain ⟨e, he, heq⟩ := List.mem_map.mp hmem
  exact ha e he heq

theorem Lists.fuel_eq (h : t.Lists es) : t.fuel = es.length + 1 := by
  obtain ⟨T, hT, hin⟩ := h.represents.layout
  have hlen := hT.length_eq
  rw [hin, List.length_map] at hlen
  unfold Tree.fuel
  rw [hlen]

/-! ### The functions of the treap on entries -/

theorem Lists.insertNode (h : t.Lists es) (key : Nat) (added : AddedArg) {new : Fresh δ}
    (hnew : t.node new.addr = none) :
    (∃ e ∈ es, e.key = key ∧ ∃ t', t.insertNode key added new = some (t', e.node, false) ∧
      t'.Lists es) ∨
    ((∀ e ∈ es, e.key ≠ key) ∧
      ∃ t' es', t.insertNode key added new = some (t', new.addr, true) ∧
        es'.Perm (⟨new.addr, key, new.data⟩ :: es) ∧ t'.Lists es') := by
  rcases h.represents.insertNode key added hnew with
    ⟨a, ha, hkey, t', hrun, hs, hrep⟩ | ⟨habsent, t', l₁, l₂, hrun, hsplit, hrep, -, hpay⟩
  · obtain ⟨e, he, rfl⟩ := List.mem_map.mp ha
    refine .inl ⟨e, he, by rw [← h.keyOf he, hkey], t', hrun, hrep, fun e' he' => ?_⟩
    rw [hs.payload]
    exact h.payload e' he'
  · obtain ⟨es₁, es₂, rfl, rfl, rfl⟩ := List.map_eq_append_iff.mp hsplit
    refine .inr ⟨fun e he hkey => ?_, t', es₁ ++ ⟨new.addr, key, new.data⟩ :: es₂, hrun,
      List.perm_middle, ⟨by simpa using hrep, fun e he => ?_⟩⟩
    · exact habsent e.node (List.mem_map_of_mem he) (by rw [h.keyOf he, hkey])
    · rw [hpay]
      rcases List.mem_cons.mp (List.perm_middle.subset he) with rfl | he
      · exact ⟨new.rand ^^^ key, by simp⟩
      · rw [if_neg (h.not_mem_of_fresh hnew e he)]
        exact h.payload e he

theorem Lists.delete (h : t.Lists es) {e : Entry δ} (he : e ∈ es) :
    ∃ t' es', t.delete e.node = some t' ∧ es.Perm (e :: es') ∧ t'.Lists es' := by
  obtain ⟨es₁, es₂, rfl⟩ := List.append_of_mem he
  obtain ⟨t', hrun, hrep, -, hpay⟩ := h.represents.delete (List.mem_map_of_mem he)
  have hnodup : ((es₁ ++ e :: es₂).map Entry.node).Nodup := h.represents.nodup
  have hout : e.node ∉ (es₁ ++ es₂).map Entry.node := by
    have hperm := (List.perm_middle.map Entry.node).nodup_iff.mp hnodup
    exact (List.nodup_cons.mp hperm).1
  have hout₁ : e.node ∉ es₁.map Entry.node := fun hmem => hout (by simp_all)
  have herase : ((es₁ ++ e :: es₂).map Entry.node).erase e.node = (es₁ ++ es₂).map Entry.node := by
    rw [List.map_append, List.map_cons, List.erase_append_right _ hout₁, List.erase_cons_head,
      List.map_append]
  refine ⟨t', es₁ ++ es₂, hrun, List.perm_middle, ⟨herase ▸ hrep, fun e' he' => ?_⟩⟩
  have hne : e'.node ≠ e.node := fun heq => hout (heq ▸ List.mem_map_of_mem he')
  rw [hpay, if_neg hne]
  exact h.payload e' (List.perm_middle.symm.subset (List.mem_cons_of_mem e he'))

theorem Represents.modifyData {l : List Addr} (h : t.Represents l) {a : Addr} (ha : a ∈ l)
    (f : δ → δ) :
    ∃ t', t.modifyData a f = some t' ∧ t'.Represents l ∧
      ∀ x, t'.node x = if x = a then (t.node x).map fun n => { n with data := f n.data }
        else t.node x := by
  obtain ⟨n, hn⟩ := h.exists_node ha
  have hnode : ∀ x, Tree.node { t with heap := t.heap.insert a { n with data := f n.data } } x =
      if x = a then (t.node x).map fun n => { n with data := f n.data } else t.node x := by
    intro x
    rw [node_insert]
    split
    · next hx => rw [hx, hn, Option.map_some]
    · rfl
  refine ⟨_, modify_eq_some hn _, ?_, hnode⟩
  obtain ⟨T, hT, rfl⟩ := h.layout
  have hlinks : links { t with heap := t.heap.insert a { n with data := f n.data } } = t.links := by
    funext x
    unfold links
    rw [hnode]
    split
    · rw [Option.map_map]
      rfl
    · rfl
  have hkeyOf : Tree.keyOf { t with heap := t.heap.insert a { n with data := f n.data } } =
      t.keyOf := by
    funext x
    unfold Tree.keyOf Tree.payload
    rw [hnode]
    split
    · rw [Option.map_map, Option.map_map, Option.map_map]
      rfl
    · rfl
  refine ⟨⟨T, ⟨hT.root, ?_, hT.nodup, fun x => ?_⟩, rfl⟩, ?_⟩
  · rw [hlinks]
    exact hT.linked
  · rw [← hT.isSome_iff x, hnode]
    split <;> simp
  · unfold Sorted
    rw [hkeyOf]
    exact h.sorted

theorem Lists.modifyData (h : t.Lists es) {a : Addr} (ha : a ∈ es.map Entry.node) (f : δ → δ) :
    ∃ t', t.modifyData a f = some t' ∧ t'.Lists (es.map (Entry.modify a f)) := by
  obtain ⟨t', hrun, hrep, hnode⟩ := h.represents.modifyData ha f
  have hnodes : (es.map (Entry.modify a f)).map Entry.node = es.map Entry.node := by
    rw [List.map_map]
    exact List.map_congr_left fun e _ => Entry.node_modify a f e
  refine ⟨t', hrun, hnodes ▸ hrep, fun e' he' => ?_⟩
  obtain ⟨e, he, rfl⟩ := List.mem_map.mp he'
  obtain ⟨i, hi⟩ := h.payload e he
  obtain ⟨n, hn, hpay⟩ := Option.map_eq_some_iff.mp hi
  refine ⟨i, ?_⟩
  unfold Tree.payload
  rw [Entry.node_modify, Entry.key_modify, hnode]
  by_cases heq : e.node = a
  · rw [if_pos heq, hn, Entry.data_modify_self heq]
    simp only [TreeNode.payload, Payload.mk.injEq] at hpay
    simp [TreeNode.payload, hpay]
  · rw [if_neg heq, Entry.modify_of_ne heq, hn, Option.map_some, hpay]

/-- The same for one entry, the others set apart. -/
theorem Lists.modifyEntry (h : t.Lists es) {e : Entry δ} (he : e ∈ es) (f : δ → δ) :
    ∃ t' es' rest, t.modifyData e.node f = some t' ∧ t'.Lists es' ∧ es.Perm (e :: rest) ∧
      es'.Perm (⟨e.node, e.key, f e.data⟩ :: rest) := by
  obtain ⟨t', hrun, hlists⟩ := h.modifyData (List.mem_map_of_mem he) f
  obtain ⟨es₁, es₂, rfl⟩ := List.append_of_mem he
  have hnodup : ((e :: (es₁ ++ es₂)).map Entry.node).Nodup :=
    (List.perm_middle.map Entry.node).nodup_iff.mp h.represents.nodup
  have hrest : (es₁ ++ es₂).map (Entry.modify e.node f) = es₁ ++ es₂ := by
    conv_rhs => rw [← List.map_id (es₁ ++ es₂)]
    refine List.map_congr_left fun x hx => Entry.modify_of_ne (fun heq => ?_) f
    exact (List.nodup_cons.mp hnodup).1 (heq ▸ List.mem_map_of_mem hx)
  refine ⟨t', _, es₁ ++ es₂, hrun, hlists, List.perm_middle, ?_⟩
  have hmiddle : (es₁ ++ e :: es₂).Perm (e :: (es₁ ++ es₂)) := List.perm_middle
  have hperm := hmiddle.map (Entry.modify e.node f)
  rw [List.map_cons, hrest] at hperm
  simpa [Entry.modify] using hperm

theorem Lists.firstNode (h : t.Lists es) : t.firstNode = some (es.head?.map Entry.node) := by
  rw [h.represents.firstNode, List.head?_map]

theorem Lists.nodeNext {es₁ es₂ : List (Entry δ)} {e : Entry δ} (h : t.Lists (es₁ ++ e :: es₂)) :
    t.nodeNext e.node = some (es₂.head?.map Entry.node) := by
  have hrep : t.Represents (es₁.map Entry.node ++ e.node :: es₂.map Entry.node) := by
    simpa using h.represents
  rw [hrep.nodeNext, List.head?_map]

theorem Lists.findNode (h : t.Lists es) {e : Entry δ} (he : e ∈ es) :
    t.findNode e.key = some (some e.node) := by
  obtain ⟨p, hrun, hp⟩ := h.represents.findNode e.key
  rw [hrun, (hp e.node).mpr ⟨List.mem_map_of_mem he, h.keyOf he⟩]

theorem Lists.findNode_eq_none (h : t.Lists es) {key : Nat} (hkey : ∀ e ∈ es, e.key ≠ key) :
    t.findNode key = some none := by
  obtain ⟨p, hrun, hp⟩ := h.represents.findNode key
  cases p with
  | none => exact hrun
  | some a =>
    obtain ⟨hmem, hk⟩ := (hp a).mp rfl
    obtain ⟨e, he, rfl⟩ := List.mem_map.mp hmem
    exact absurd ((h.keyOf he).symm.trans hk) (hkey e he)

end Lists

end Tree

end Helos
