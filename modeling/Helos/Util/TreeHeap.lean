import Helos.Util.TreeIteration

/-!
# Heap order of the treap

A random number decides how far an added node is rotated up, and a deleted node is rotated down until
it can be spliced out; both leave every node with a priority not below its father's. An insertion
asks `*added` whether it has a node to adjust, also when `added` is NULL: such a call reads address 0,
and where that byte is zero the new node stays where it was hung.
-/

namespace Helos.Tree

open LinkedTree

variable {δ : Type}

def HeapOrdered (t : Tree δ) : Prop :=
  ∀ a n f m, t.node a = some n → n.father = some f → t.node f = some m → m.internal ≤ n.internal

theorem heapOrdered_create : (create : Tree δ).HeapOrdered := by
  intro a n f m ha
  simp [node, create] at ha

section Heap

variable {t : Tree δ} {m : NodeMap}

theorem HeapOrdered.heaped (h : t.HeapOrdered) {father : Ptr} {T : Shape Addr}
    (hT : Linked t.links father T) : T.Heaped t.priorityOf := by
  induction T generalizing father with
  | nil => trivial
  | node l a r ihl ihr =>
    obtain ⟨ha, hl, hr⟩ := hT
    obtain ⟨n, hn, -⟩ := Option.map_eq_some_iff.mp ha
    have hson : ∀ S : Shape Addr, Linked t.links (some a) S →
        S.RootAbove t.priorityOf (t.priorityOf a) := by
      intro S hS b hb
      obtain ⟨links, hlinks, hfather⟩ := hS.father_root hb
      obtain ⟨k, hk, rfl⟩ := Option.map_eq_some_iff.mp hlinks
      rw [priorityOf_eq hn, priorityOf_eq hk]
      exact h b k a n hk hfather hn
    exact ⟨hson l hl, hson r hr, ihl hl, ihr hr⟩

theorem Layout.heapOrdered_iff {T : Shape Addr} (h : t.Layout T) :
    t.HeapOrdered ↔ T.Heaped t.priorityOf := by
  refine ⟨fun hheap => hheap.heaped h.linked, fun hheap a n f k hn hf hk => ?_⟩
  obtain ⟨c, l, r, rfl⟩ := exists_plug ((h.isSome_iff a).mp (by simp [hn]))
  obtain ⟨n', hn', hfather, -⟩ := node_of_links h.parts.2.1
  cases hn.symm.trans hn'
  have hle := (heaped_plug.mp hheap).2.2 f (hfather.symm.trans hf) a rfl
  rwa [priorityOf_eq hn, priorityOf_eq hk] at hle

/-- An insertion that adjusts what it adds. -/
theorem HeapOrdered.insertNode (h : t.HeapOrdered) {l : List Addr} (hl : t.Represents l)
    {key : Nat} {added : AddedArg} (hadded : added.read true = true) {new : Fresh δ}
    (hnew : t.node new.addr = none) {t' : Tree δ} {node : Addr} {isNew : Bool}
    (hrun : t.insertNode key added new = some (t', node, isNew)) : t'.HeapOrdered := by
  obtain ⟨T, hT, rfl⟩ := hl.layout
  have hheap := hT.heapOrdered_iff.mp h
  rcases hT.insertNode hl.sorted key added hnew with
    ⟨_, -, -, t₁, T', hrun', -, hT', -, hkept⟩ |
    ⟨t₁, T', -, -, hrun', -, hT', -, -, -, -, -, hkept⟩
  · cases hrun.symm.trans hrun'
    exact hT'.heapOrdered_iff.mpr (hkept hheap)
  · cases hrun.symm.trans hrun'
    exact hT'.heapOrdered_iff.mpr (hkept hadded hheap)

theorem HeapOrdered.delete (h : t.HeapOrdered) {l : List Addr} (hl : t.Represents l) {a : Addr}
    (ha : a ∈ l) {t' : Tree δ} (hrun : t.delete a = some t') : t'.HeapOrdered := by
  obtain ⟨T, hT, rfl⟩ := hl.layout
  obtain ⟨t₁, T', hrun', hT', -, -, -, hkept⟩ := hT.delete ha
  cases hrun.symm.trans hrun'
  exact hT'.heapOrdered_iff.mpr (hkept (hT.heapOrdered_iff.mp h))

/-- Whether an insertion with this argument adjusts the node it adds. -/
def TreeCall.adjusts : TreeCall δ → Bool
  | .insert _ added _ => added.read true
  | .delete _ => true

theorem HeapOrdered.call (h : t.HeapOrdered) (hm : t.Refines m) {c : TreeCall δ}
    (hc : c.op.Valid m) (hadjusts : c.adjusts = true) {t' : Tree δ} (hrun : t.call c = some t') :
    t'.HeapOrdered := by
  obtain ⟨l, hl, hlm⟩ := id hm
  cases c with
  | insert key added new =>
    obtain ⟨⟨t₁, node, isNew⟩, hins, rfl⟩ := Option.map_eq_some_iff.mp hrun
    exact h.insertNode hl hadjusts (hm.node_eq_none hc) hins
  | delete node =>
    obtain ⟨key, hkey⟩ := hc
    exact h.delete hl ((hlm key node).mp hkey).1 hrun

end Heap

/-! ### NULL for `added` -/

def TreeCall.passesNull : TreeCall δ → Bool
  | .insert _ (.null _) _ => true
  | _ => false

/-- The call, undefined when it reads through NULL: `tree_InsertNode` reads `*added` every time. -/
def safeCall (t : Tree δ) (c : TreeCall δ) : Option (Tree δ) :=
  if c.passesNull then none else t.call c

/-- No call of the run reads through NULL, and every tree on the way is in heap order. -/
structure TreapSound (calls : List (TreeCall δ)) : Prop where
  defined : ∃ t, Run.exec safeCall create calls = some t
  ordered : Run.Always safeCall HeapOrdered create calls

theorem TreeCall.adjusts_of_passesNull {c : TreeCall δ} (h : c.passesNull = false) :
    c.adjusts = true := by
  cases c with
  | delete node => rfl
  | insert key added new =>
    cases added with
    | pointer => rfl
    | null byteAtZero => cases h

theorem Refines.safeCalls {t : Tree δ} {m : NodeMap} (h : t.Refines m) (hheap : t.HeapOrdered)
    {calls : List (TreeCall δ)} (hcalls : ValidOps m (calls.map TreeCall.op))
    (hnull : ∀ c ∈ calls, c.passesNull = false) :
    (∃ t', Run.exec safeCall t calls = some t') ∧ Run.Always safeCall HeapOrdered t calls := by
  induction calls generalizing t m with
  | nil => exact ⟨⟨t, rfl⟩, hheap⟩
  | cons c calls ih =>
    rw [List.forall_mem_cons] at hnull
    obtain ⟨t₁, hrun, hm₁⟩ := h.call hcalls.1
    have hsafe : t.safeCall c = some t₁ := by rw [safeCall, hnull.1, ← hrun]; rfl
    have hheap₁ := hheap.call h hcalls.1 (TreeCall.adjusts_of_passesNull hnull.1) hrun
    obtain ⟨⟨t', hrest⟩, halways⟩ := ih hm₁ hheap₁ hcalls.2 hnull.2
    refine ⟨⟨t', by rw [Run.exec_cons, hsafe, Option.bind_some, hrest]⟩, hheap, fun t₂ h₂ => ?_⟩
    cases hsafe.symm.trans h₂
    exact halways

theorem not_passesNull_of_exec {t t' : Tree δ} {calls : List (TreeCall δ)}
    (h : Run.exec safeCall t calls = some t') : ∀ c ∈ calls, c.passesNull = false := by
  induction calls generalizing t with
  | nil => exact fun c hc => absurd hc List.not_mem_nil
  | cons c calls ih =>
    rw [Run.exec_cons] at h
    obtain ⟨t₁, h₁, hrest⟩ := Option.bind_eq_some_iff.mp h
    refine List.forall_mem_cons.mpr ⟨?_, ih hrest⟩
    by_contra hnull
    rw [Bool.not_eq_false] at hnull
    rw [safeCall, hnull] at h₁
    cases h₁

/-- The run is sound exactly when no insertion is given NULL for `added`. -/
theorem treapSound_iff (calls : List (TreeCall δ))
    (hcalls : ValidOps (fun _ => none) (calls.map TreeCall.op)) :
    TreapSound calls ↔ ∀ key zero new, .insert key (.null zero) new ∉ calls := by
  have hiff : (∀ key zero new, .insert key (.null zero) new ∉ calls) ↔
      ∀ c ∈ calls, c.passesNull = false := by
    constructor
    · intro h c hc
      cases c with
      | delete node => rfl
      | insert key added new =>
        cases added with
        | pointer => rfl
        | null zero => exact absurd hc (h key zero new)
    · intro h key zero new hmem
      cases h _ hmem
  rw [hiff]
  constructor
  · rintro ⟨⟨t, hrun⟩, -⟩
    exact not_passesNull_of_exec hrun
  · intro hnull
    obtain ⟨hdefined, hordered⟩ := refines_create.safeCalls heapOrdered_create hcalls hnull
    exact ⟨hdefined, hordered⟩

theorem treapSound_iff_two :
    TreapSound [.insert 5 .pointer ⟨1, (), 0⟩, .insert 3 .pointer ⟨2, (), 3⟩] ↔
      ∀ key zero new, TreeCall.insert key (.null zero) new ∉
        [TreeCall.insert 5 .pointer ⟨1, (), 0⟩, .insert 3 .pointer ⟨2, (), 3⟩] := by
  refine treapSound_iff _ ⟨by simp [TreeCall.op, MapOp.Valid], ?_, trivial⟩
  simp [TreeCall.op, MapOp.Valid, MapOp.apply, Function.update_apply]

/-- The second insertion is given NULL, as `smp_thread_Start` does: it reads address 0, and when the
byte there is zero the new node has priority 0 below a father of priority 5. -/
theorem not_treapSound_null :
    ¬ TreapSound [.insert 5 .pointer ⟨1, (), 0⟩, .insert 3 (.null false) ⟨2, (), 3⟩] ∧
      (Run.exec call create
          [.insert 5 .pointer ⟨1, (), 0⟩, .insert 3 (.null false) ⟨2, (), 3⟩]).map
          (fun t => ((t.node 2).map fun n => (n.father, n.internal),
            (t.node 1).map fun n => n.internal)) =
        some (some (some 1, 0), some 5) := by
  refine ⟨fun h => ?_, by decide⟩
  obtain ⟨t, hrun⟩ := h.defined
  have hnull := not_passesNull_of_exec hrun (.insert 3 (.null false) ⟨2, (), 3⟩) (by simp)
  cases hnull

/-- What the calls leave when address 0 may be read: heap order holds as long as a nonzero byte is
read there. -/
theorem heapOrdered_of_adjusts (calls : List (TreeCall δ))
    (hcalls : ValidOps (fun _ => none) (calls.map TreeCall.op))
    (hadjusts : ∀ c ∈ calls, c.adjusts = true) :
    ∃ t, Run.exec call create calls = some t ∧ t.HeapOrdered := by
  suffices hgen : ∀ (t : Tree δ) (m : NodeMap), t.Refines m → t.HeapOrdered →
      ValidOps m (calls.map TreeCall.op) → ∃ t', Run.exec call t calls = some t' ∧ t'.HeapOrdered from
    hgen create _ refines_create heapOrdered_create hcalls
  clear hcalls
  induction calls with
  | nil => exact fun t m _ hheap _ => ⟨t, rfl, hheap⟩
  | cons c calls ih =>
    intro t m hm hheap hcalls
    rw [List.forall_mem_cons] at hadjusts
    obtain ⟨t₁, hrun, hm₁⟩ := hm.call hcalls.1
    obtain ⟨t', hrest, hheap'⟩ :=
      ih hadjusts.2 t₁ _ hm₁ (hheap.call hm hcalls.1 hadjusts.1 hrun) hcalls.2
    exact ⟨t', by rw [Run.exec_cons, hrun, Option.bind_some, hrest], hheap'⟩

end Helos.Tree
