import Helos.Theory.Run
import Helos.Util.TreeOrder

/-!
# The treap is an ordered map

The abstract side is the map from each key to the node inserted for it. A run of insertions and
deletions, with whatever blocks and random numbers, never gets stuck, keeps a search tree, and
agrees with the map at every lookup.
-/

namespace Helos.Tree

variable {δ : Type}

inductive MapOp (δ : Type) where
  | insert (key : Nat) (new : Fresh δ)
  | delete (node : Addr)

def step (t : Tree δ) : MapOp δ → Option (Tree δ)
  | .insert key new => (t.insertNode key .pointer new).map Prod.fst
  | .delete node => t.delete node

/-- The nodes inserted for each key and not deleted since. -/
abbrev NodeMap := Nat → Option Addr

namespace MapOp

/-- A block from `kMalloc` is not in use, and a node to delete is in the tree. -/
def Valid (m : NodeMap) : MapOp δ → Prop
  | .insert _ new => ∀ k, m k ≠ some new.addr
  | .delete node => ∃ k, m k = some node

def apply (m : NodeMap) : MapOp δ → NodeMap
  | .insert key new => if m key = none then Function.update m key (some new.addr) else m
  | .delete node => fun k => if m k = some node then none else m k

/-- The one node an operation may create or destroy. -/
def target (m : NodeMap) : MapOp δ → Option Addr
  | .insert key new => if m key = none then some new.addr else none
  | .delete node => some node

end MapOp

def ValidOps : NodeMap → List (MapOp δ) → Prop
  | _, [] => True
  | m, op :: ops => op.Valid m ∧ ValidOps (op.apply m) ops

def mapAfter (ops : List (MapOp δ)) : NodeMap := ops.foldl MapOp.apply fun _ => none

/-- The tree holds exactly the nodes of the map, each under its key. -/
def Refines (t : Tree δ) (m : NodeMap) : Prop :=
  ∃ l, t.Represents l ∧ ∀ k a, m k = some a ↔ a ∈ l ∧ t.keyOf a = k

theorem refines_create : (create : Tree δ).Refines fun _ => none :=
  ⟨[], represents_create, by simp⟩

section Step

variable {t : Tree δ} {m : NodeMap}

theorem Refines.findNode (h : t.Refines m) (key : Nat) : t.findNode key = some (m key) := by
  obtain ⟨l, hl, hm⟩ := h
  obtain ⟨p, hp, hfind⟩ := hl.findNode key
  rw [hp, Option.some.injEq]
  ext a
  rw [hm key a, ← hfind a]

theorem Refines.node_eq_none (h : t.Refines m) {a : Addr} (ha : ∀ k, m k ≠ some a) :
    t.node a = none := by
  obtain ⟨l, hl, hm⟩ := h
  rw [← Option.not_isSome_iff_eq_none, hl.isSome_iff]
  exact fun hmem => ha _ ((hm _ a).mpr ⟨hmem, rfl⟩)

theorem Refines.insertNode (h : t.Refines m) (key : Nat) (added : AddedArg) {new : Fresh δ}
    (hnew : ∀ k, m k ≠ some new.addr) :
    ∃ t', t.insertNode key added new = some (t', (m key).getD new.addr, (m key).isNone) ∧
      t'.Refines (MapOp.apply m (.insert key new)) ∧
      (m key = none → t'.payload new.addr = some ⟨key, new.rand ^^^ key, new.data⟩) ∧
      ∀ x, MapOp.target m (.insert key new) ≠ some x → t'.payload x = t.payload x := by
  have hfresh := h.node_eq_none hnew
  obtain ⟨l, hl, hm⟩ := h
  rcases hl.insertNode key added hfresh with
    ⟨n, hn, hkey, t', hrun, hs, hl'⟩ | ⟨habsent, t', l₁, l₂, hrun, rfl, hl', -, hpay⟩
  · have hmn : m key = some n := (hm key n).mpr ⟨hn, hkey⟩
    refine ⟨t', by simp [hmn, hrun], ⟨l, hl', fun k a => ?_⟩, by simp [hmn], fun x _ => ?_⟩
    · rw [hs.keyOf, ← hm k a]
      simp [MapOp.apply, hmn]
    · rw [hs.payload]
  · have hmn : m key = none := by
      by_contra hne
      obtain ⟨a, ha⟩ := Option.ne_none_iff_exists'.mp hne
      obtain ⟨hmem, hkey⟩ := (hm key a).mp ha
      exact habsent a hmem hkey
    refine ⟨t', by simp [hmn, hrun], ⟨_, hl', fun k a => ?_⟩, fun _ => by simp [hpay],
      fun x hx => ?_⟩
    · have hkey : a ≠ new.addr → t'.keyOf a = t.keyOf a := fun hne => by
        unfold keyOf
        rw [hpay, if_neg hne]
      have hkeyNew : t'.keyOf new.addr = key := by simp [keyOf, hpay]
      simp only [MapOp.apply, hmn, if_true, Function.update_apply, List.mem_append, List.mem_cons]
      by_cases hk : k = key
      · subst hk
        simp only [if_true, Option.some.injEq]
        constructor
        · rintro rfl
          exact ⟨.inr (.inl rfl), hkeyNew⟩
        · rintro ⟨hmem, hkeyA⟩
          by_contra hne
          have hne' : a ≠ new.addr := fun heq => hne heq.symm
          refine habsent a ?_ (by rw [← hkey hne', hkeyA])
          rw [List.mem_append]
          tauto
      · rw [if_neg hk, hm k a, List.mem_append]
        constructor
        · rintro ⟨hmem, hkeyA⟩
          have hne : a ≠ new.addr := by
            rintro rfl
            exact hnew k ((hm k _).mpr ⟨List.mem_append.mpr hmem, hkeyA⟩)
          exact ⟨by tauto, by rw [hkey hne, hkeyA]⟩
        · rintro ⟨hmem, hkeyA⟩
          have hne : a ≠ new.addr := by
            rintro rfl
            exact hk (by rw [← hkeyA, hkeyNew])
          exact ⟨by tauto, by rw [← hkey hne, hkeyA]⟩
    · rw [hpay, if_neg]
      rintro rfl
      simp [MapOp.target, hmn] at hx

theorem Refines.delete (h : t.Refines m) {node : Addr} {key : Nat} (hnode : m key = some node) :
    ∃ t', t.delete node = some t' ∧ t'.Refines (MapOp.apply m (.delete node : MapOp δ)) ∧
      ∀ x, x ≠ node → t'.payload x = t.payload x := by
  obtain ⟨l, hl, hm⟩ := h
  obtain ⟨t', hrun, hl', -, hpay⟩ := hl.delete ((hm key node).mp hnode).1
  refine ⟨t', hrun, ⟨_, hl', fun k a => ?_⟩, fun x hx => by rw [hpay, if_neg hx]⟩
  rw [hl.nodup.mem_erase_iff]
  by_cases ha : a = node
  · subst ha
    simp only [MapOp.apply, ne_eq, not_true_eq_false, false_and, iff_false]
    split <;> simp_all
  · have hkey : t'.keyOf a = t.keyOf a := by
      unfold keyOf
      rw [hpay, if_neg ha]
    rw [hkey, and_assoc, ← hm k a]
    simp only [MapOp.apply]
    split
    · next hk => simp [hk, eq_comm]
    · simp [ha]

theorem Refines.step (h : t.Refines m) {op : MapOp δ} (hop : op.Valid m) :
    ∃ t', t.step op = some t' ∧ t'.Refines (op.apply m) := by
  cases op with
  | insert key new =>
    obtain ⟨t', hrun, hm', -, -⟩ := h.insertNode key .pointer hop
    exact ⟨t', by simp [Tree.step, hrun], hm'⟩
  | delete node =>
    obtain ⟨key, hkey⟩ := hop
    obtain ⟨t', hrun, hm', -⟩ := h.delete hkey
    exact ⟨t', hrun, hm'⟩

theorem Refines.exec (h : t.Refines m) {ops : List (MapOp δ)} (hops : ValidOps m ops) :
    ∃ t', Run.exec Tree.step t ops = some t' ∧ t'.Refines (ops.foldl MapOp.apply m) := by
  induction ops generalizing t m with
  | nil => exact ⟨t, rfl, h⟩
  | cons op ops ih =>
    obtain ⟨t₁, h₁, hm₁⟩ := h.step hops.1
    obtain ⟨t', hrun, hm'⟩ := ih hm₁ hops.2
    exact ⟨t', by rw [Run.exec_cons, h₁, Option.bind_some, hrun], hm'⟩

end Step

/-- The root has no father, and the father of every son is the node it hangs from. -/
structure ConsistentLinks (t : Tree δ) : Prop where
  root : ∀ a, t.root = some a → ∃ n, t.node a = some n ∧ n.father = none
  son : ∀ a n type b, t.node a = some n → n.get type = some b →
    ∃ m, t.node b = some m ∧ m.father = some a

theorem Represents.consistentLinks {t : Tree δ} {l : List Addr} (h : t.Represents l) :
    t.ConsistentLinks := by
  obtain ⟨T, hT, rfl⟩ := h.layout
  have hread : ∀ b father, (∃ m, t.links b = some m ∧ m.father = father) →
      ∃ m, t.node b = some m ∧ m.father = father := by
    intro b father hb
    obtain ⟨m, hm, hfather⟩ := hb
    obtain ⟨n, hn, rfl⟩ := Option.map_eq_some_iff.mp hm
    exact ⟨n, hn, hfather⟩
  constructor
  · intro a ha
    rw [hT.root] at ha
    exact hread a none (hT.linked.father_root ha)
  · intro a n type b hn hb
    have hmem : a ∈ T.inorder := (hT.isSome_iff a).mp (by simp [hn])
    rw [TreeNode.get_eq] at hb
    exact hread b (some a) (hT.linked.father_child hmem (by simp [links, hn]) hb)

/-- **The treap is an ordered map.** After any run the links form a search tree on the keys and
`tree_FindNode` agrees with the run's own map; any further operation succeeds, reports whether the
key was absent, and leaves the key and the data of all other nodes alone. -/
theorem treap_refines_map (ops : List (MapOp δ)) (hops : ValidOps (fun _ => none) ops) :
    ∃ t, Run.exec step create ops = some t ∧ (∃ l, t.Represents l) ∧ t.ConsistentLinks ∧
      (∀ key, t.findNode key = some (mapAfter ops key)) ∧
      (∀ key (new : Fresh δ), (∀ k, mapAfter ops k ≠ some new.addr) →
        ∃ t' node added, t.insertNode key .pointer new = some (t', node, added) ∧
          (added = true ↔ mapAfter ops key = none) ∧
          node = (mapAfter ops key).getD new.addr ∧ (t'.payload node).map Payload.key = some key ∧
          ∀ x, (mapAfter ops key = none → x ≠ new.addr) → t'.payload x = t.payload x) ∧
      ∀ key node, mapAfter ops key = some node →
        ∃ t', t.delete node = some t' ∧ ∀ x, x ≠ node → t'.payload x = t.payload x := by
  obtain ⟨t, hrun, hm⟩ := refines_create.exec hops
  change t.Refines (mapAfter ops) at hm
  refine ⟨t, hrun, ⟨_, hm.choose_spec.1⟩, hm.choose_spec.1.consistentLinks, hm.findNode,
    fun key new hnew => ?_, fun key node hnode => ?_⟩
  · obtain ⟨t', hins, -, hnewPay, hpay⟩ := hm.insertNode key .pointer hnew
    have hframe : ∀ x, (mapAfter ops key = none → x ≠ new.addr) → t'.payload x = t.payload x := by
      intro x hx
      refine hpay x ?_
      simp only [MapOp.target]
      split
      · next hnone => simpa [eq_comm] using hx hnone
      · simp
    refine ⟨t', _, _, hins, Option.isNone_iff_eq_none, rfl, ?_, hframe⟩
    cases hkey : mapAfter ops key with
    | none => simp [hnewPay hkey]
    | some a =>
      obtain ⟨l, hl, hl'⟩ := hm
      obtain ⟨hmem, hk⟩ := (hl' key a).mp hkey
      obtain ⟨n, hn⟩ := hl.exists_node hmem
      rw [Option.getD_some, hframe a (by simp [hkey]), payload, hn]
      rw [keyOf_eq hn] at hk
      simp [TreeNode.payload, hk]
  · obtain ⟨t', hdel, -, hpay⟩ := hm.delete hnode
    exact ⟨t', hdel, hpay⟩

theorem treap_refines_map_three :
    ∃ t : Tree Unit,
      Run.exec step create [.insert 5 ⟨1, (), 7⟩, .insert 3 ⟨2, (), 9⟩, .delete 1] = some t ∧
        t.ConsistentLinks ∧ t.findNode 3 = some (some 2) ∧ t.findNode 5 = some none := by
  have hops : ValidOps (fun _ => none)
      [.insert 5 ⟨1, (), 7⟩, .insert 3 ⟨2, (), 9⟩, (.delete 1 : MapOp Unit)] := by
    refine ⟨by simp [MapOp.Valid], ?_, ⟨5, ?_⟩, trivial⟩
    · simp [MapOp.Valid, MapOp.apply, Function.update_apply]
    · simp [MapOp.apply]
  obtain ⟨t, hrun, -, hlinks, hfind, -⟩ := treap_refines_map _ hops
  refine ⟨t, hrun, hlinks, ?_, ?_⟩
  · rw [hfind]
    simp [mapAfter, MapOp.apply, Function.update_apply]
  · rw [hfind]
    simp [mapAfter, MapOp.apply, Function.update_apply]

end Helos.Tree
