import Helos.Util.TreeMap

/-!
# Iterating over the treap

`tree_FirstNode` and `tree_Node_Next` go through the nodes in the order of their keys,
`tree_LastNode` and `tree_Node_Previous` go back. What a run of insertions and deletions leaves is
iterated in full both ways, whatever was passed for `added`.
-/

namespace Helos.Tree

variable {δ : Type}

inductive TreeCall (δ : Type) where
  | insert (key : Nat) (added : AddedArg) (new : Fresh δ)
  | delete (node : Addr)

def TreeCall.op : TreeCall δ → MapOp δ
  | .insert key _ new => .insert key new
  | .delete node => .delete node

def call (t : Tree δ) : TreeCall δ → Option (Tree δ)
  | .insert key added new => (t.insertNode key added new).map Prod.fst
  | .delete node => t.delete node

/-- `while (i) { ...; i = tree_Node_Next(i); }`, with the nodes that `i` was. -/
def follow (next : Addr → Option Ptr) : Nat → Ptr → Option (List Addr)
  | 0, _ => none
  | _ + 1, none => some []
  | fuel + 1, some i => do
    let rest ← follow next fuel (← next i)
    some (i :: rest)

/-- The two loops, which a tree with its number of turns does not outlast. -/
def forwards (t : Tree δ) : Option (List Addr) := do
  follow t.nodeNext t.fuel (← t.firstNode)

def backwards (t : Tree δ) : Option (List Addr) := do
  follow t.nodePrevious t.fuel (← t.lastNode)

theorem follow_eq {next : Addr → Option Ptr} {l : List Addr} {fuel : Nat}
    (hnext : ∀ l₁ a l₂, l = l₁ ++ a :: l₂ → next a = some l₂.head?) (hfuel : l.length < fuel) :
    follow next fuel l.head? = some l := by
  induction l generalizing fuel with
  | nil =>
    obtain ⟨fuel, rfl⟩ := Nat.exists_eq_succ_of_ne_zero (Nat.ne_of_gt hfuel)
    rfl
  | cons a l ih =>
    obtain ⟨fuel, rfl⟩ := Nat.exists_eq_succ_of_ne_zero (Nat.ne_of_gt (Nat.zero_lt_of_lt hfuel))
    have hrest := ih (fun l₁ b l₂ hl => hnext (a :: l₁) b l₂ (congrArg (a :: ·) hl))
      (Nat.lt_of_succ_lt_succ hfuel)
    simp only [follow, List.head?_cons, hnext [] a l rfl, hrest, Option.bind_eq_bind,
      Option.bind_some]

section Represents

variable {t : Tree δ} {l : List Addr}

theorem Represents.length_lt (h : t.Represents l) : l.length < t.fuel := by
  obtain ⟨T, hT, rfl⟩ := h.layout
  have hsize : T.size < t.fuel := Layout.size_lt (c := .top) hT
  rwa [LinkedTree.Shape.length_inorder]

theorem Represents.forwards (h : t.Represents l) : t.forwards = some l := by
  have hloop : follow t.nodeNext t.fuel l.head? = some l :=
    follow_eq (fun l₁ a l₂ hl => Represents.nodeNext (hl ▸ h)) h.length_lt
  simp only [Tree.forwards, h.firstNode, hloop, Option.bind_eq_bind, Option.bind_some]

theorem Represents.backwards (h : t.Represents l) : t.backwards = some l.reverse := by
  have hprevious : ∀ l₁ a l₂, l.reverse = l₁ ++ a :: l₂ → t.nodePrevious a = some l₂.head? := by
    intro l₁ a l₂ hl
    have hl' : l = l₂.reverse ++ a :: l₁.reverse := by
      rw [← List.reverse_reverse l, hl]
      simp
    rw [← List.getLast?_reverse]
    exact Represents.nodePrevious (hl' ▸ h)
  have hloop : follow t.nodePrevious t.fuel l.reverse.head? = some l.reverse :=
    follow_eq hprevious (by rw [List.length_reverse]; exact h.length_lt)
  rw [List.head?_reverse] at hloop
  simp only [Tree.backwards, h.lastNode, hloop, Option.bind_eq_bind, Option.bind_some]

theorem Represents.previous_next (h : t.Represents l) {a b : Addr} (ha : a ∈ l)
    (hnext : t.nodeNext a = some (some b)) : t.nodePrevious b = some (some a) := by
  obtain ⟨l₁, l₂, rfl⟩ := List.append_of_mem ha
  rw [h.nodeNext, Option.some.injEq] at hnext
  obtain ⟨l₃, rfl⟩ := List.head?_eq_some_iff.mp hnext
  rw [List.append_cons] at h
  rw [h.nodePrevious, List.getLast?_append]
  rfl

end Represents

theorem Refines.call {t : Tree δ} {m : NodeMap} (h : t.Refines m) {c : TreeCall δ}
    (hc : c.op.Valid m) : ∃ t', t.call c = some t' ∧ t'.Refines (c.op.apply m) := by
  cases c with
  | insert key added new =>
    obtain ⟨t', hrun, hm', -, -⟩ := h.insertNode key added hc
    exact ⟨t', by simp [Tree.call, hrun], hm'⟩
  | delete node =>
    obtain ⟨key, hkey⟩ := hc
    obtain ⟨t', hrun, hm', -⟩ := h.delete hkey
    exact ⟨t', hrun, hm'⟩

theorem Refines.calls {t : Tree δ} {m : NodeMap} (h : t.Refines m) {calls : List (TreeCall δ)}
    (hcalls : ValidOps m (calls.map TreeCall.op)) :
    ∃ t', Run.exec Tree.call t calls = some t' ∧
      t'.Refines ((calls.map TreeCall.op).foldl MapOp.apply m) := by
  induction calls generalizing t m with
  | nil => exact ⟨t, rfl, h⟩
  | cons c calls ih =>
    obtain ⟨t₁, h₁, hm₁⟩ := h.call hcalls.1
    obtain ⟨t', hrun, hm'⟩ := ih hm₁ hcalls.2
    exact ⟨t', by rw [Run.exec_cons, h₁, Option.bind_some, hrun], hm'⟩

/-- **Iteration is complete and reversible.** The nodes are those of the map the run leaves. -/
theorem iteration_complete (calls : List (TreeCall δ))
    (hcalls : ValidOps (fun _ => none) (calls.map TreeCall.op)) :
    ∃ t nodes, Run.exec call create calls = some t ∧
      (∀ a, (t.node a).isSome ↔ a ∈ nodes) ∧
      (∀ a, a ∈ nodes ↔ ∃ key, mapAfter (calls.map TreeCall.op) key = some a) ∧
      nodes.Nodup ∧ (nodes.map t.keyOf).Pairwise (· < ·) ∧
      t.forwards = some nodes ∧ t.lastNode = some nodes.getLast? ∧
      t.backwards = some nodes.reverse ∧
      ∀ a b, a ∈ nodes → t.nodeNext a = some (some b) → t.nodePrevious b = some (some a) := by
  obtain ⟨t, hrun, l, hl, hm⟩ := refines_create.calls hcalls
  refine ⟨t, l, hrun, hl.isSome_iff, fun a => ?_, hl.nodup, List.pairwise_map.mpr hl.sorted,
    hl.forwards, hl.lastNode, hl.backwards, fun a b ha hnext => hl.previous_next ha hnext⟩
  constructor
  · exact fun ha => ⟨t.keyOf a, (hm _ a).mpr ⟨ha, rfl⟩⟩
  · rintro ⟨key, hkey⟩
    exact ((hm key a).mp hkey).1

theorem iteration_complete_two :
    ∃ t : Tree Unit, Run.exec call create
        [.insert 5 .pointer ⟨1, (), 7⟩, .insert 3 (.null false) ⟨2, (), 9⟩] = some t ∧
      ∃ nodes, t.forwards = some nodes ∧ t.backwards = some nodes.reverse ∧ nodes.Nodup := by
  have hcalls : ValidOps (fun _ => none)
      ([.insert 5 .pointer ⟨1, (), 7⟩, .insert 3 (.null false) ⟨2, (), 9⟩].map
        (TreeCall.op (δ := Unit))) := by
    refine ⟨by simp [TreeCall.op, MapOp.Valid], ?_, trivial⟩
    simp [TreeCall.op, MapOp.Valid, MapOp.apply, Function.update_apply]
  obtain ⟨t, nodes, hrun, -, -, hnodup, -, hforwards, -, hbackwards, -⟩ :=
    iteration_complete _ hcalls
  exact ⟨t, hrun, nodes, hforwards, hbackwards, hnodup⟩

end Helos.Tree
