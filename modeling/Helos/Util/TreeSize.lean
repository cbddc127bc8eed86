import Helos.Util.TreeIteration
import Mathlib.Data.Set.Card
import Mathlib.Order.Interval.Finset.Nat

/-!
# The size of the tree

An insertion that adds a node adds one to `size`. `tree_Delete` does not take one off, so `size` counts the
nodes that there ever were.
-/

namespace Helos.Tree

open LinkedTree

variable {δ : Type}

/-- The nodes that are reachable from the root. -/
def reachable (t : Tree δ) : Set Addr := {a | Reaches t.links t.root a}

def SizeCounts (t : Tree δ) : Prop := t.size = t.reachable.ncard

/-- A block from `kMalloc` is not at NULL. -/
def IsBlock (a : Addr) : Prop := 0 < a ∧ a < 2 ^ 64

def TreeCall.Allocates : TreeCall δ → Prop
  | .insert _ _ new => IsBlock new.addr
  | .delete _ => True

def TreeCall.Inserts : TreeCall δ → Prop
  | .insert _ _ _ => True
  | .delete _ => False

theorem length_lt_of_blocks {l : List Addr} (hnodup : l.Nodup) (hblocks : ∀ a ∈ l, IsBlock a) :
    l.length < 2 ^ 64 := by
  have hsubset : l.toFinset ⊆ Finset.Ico 1 (2 ^ 64) := by
    intro a ha
    exact Finset.mem_Ico.mpr (hblocks a (List.mem_toFinset.mp ha))
  have hcard := Finset.card_le_card hsubset
  rw [List.toFinset_card_of_nodup hnodup, Nat.card_Ico] at hcard
  omega

section Step

variable {t t' : Tree δ} {l : List Addr} {m : NodeMap}

theorem Represents.ncard_reachable (h : t.Represents l) : t.reachable.ncard = l.length := by
  obtain ⟨T, hT, rfl⟩ := h.layout
  have hset : t.reachable = (T.inorder.toFinset : Set Addr) := by
    ext a
    rw [Finset.mem_coe, List.mem_toFinset, ← hT.linked.reaches_iff, ← hT.root]
    rfl
  rw [hset, Set.ncard_coe_finset, List.toFinset_card_of_nodup hT.nodup]

theorem SizeCounts.insertNode (h : t.SizeCounts) (hl : t.Represents l) (hblocks : ∀ a ∈ l, IsBlock a)
    {key : Nat} {added : AddedArg} {new : Fresh δ} (hnew : t.node new.addr = none)
    (hblock : IsBlock new.addr) {node : Addr} {isNew : Bool}
    (hrun : t.insertNode key added new = some (t', node, isNew)) : t'.SizeCounts := by
  unfold SizeCounts at h ⊢
  rw [hl.ncard_reachable] at h
  rcases hl.insertNode key added hnew with
    ⟨n, -, -, t₁, hrun', hs, hl'⟩ | ⟨-, t₁, l₁, l₂, hrun', rfl, hl', hsize, -⟩
  · cases hrun.symm.trans hrun'
    rw [hl'.ncard_reachable, hs.size, h]
  · cases hrun.symm.trans hrun'
    have hlt : (l₁ ++ new.addr :: l₂).length < 2 ^ 64 := by
      apply length_lt_of_blocks hl'.nodup
      intro a ha
      rcases List.mem_append.mp ha with ha | ha
      · exact hblocks a (List.mem_append_left _ ha)
      · rcases List.mem_cons.mp ha with rfl | ha
        · exact hblock
        · exact hblocks a (List.mem_append_right _ ha)
    have hlength : (l₁ ++ new.addr :: l₂).length = (l₁ ++ l₂).length + 1 := by
      rw [List.length_append, List.length_cons, List.length_append]
      omega
    rw [hl'.ncard_reachable, hsize, h, ← hlength]
    exact Nat.mod_eq_of_lt hlt

/-- The node is gone, and still counted. -/
theorem SizeCounts.not_delete (h : t.SizeCounts) (hl : t.Represents l) {a : Addr} (ha : a ∈ l)
    (hrun : t.delete a = some t') : ¬ t'.SizeCounts := by
  unfold SizeCounts at h ⊢
  obtain ⟨t₁, hrun', hl', hsize, -⟩ := hl.delete ha
  cases hrun.symm.trans hrun'
  have hpos := List.length_pos_of_mem ha
  rw [hl'.ncard_reachable, hsize, h, hl.ncard_reachable, List.length_erase_of_mem ha]
  omega

/-- The nodes of the map are blocks. -/
def Blocks (m : NodeMap) : Prop := ∀ key a, m key = some a → IsBlock a

theorem blocks_empty : Blocks fun _ => none := fun _ _ h => absurd h (by simp)

theorem Blocks.apply {c : TreeCall δ} (h : Blocks m) (hc : c.Allocates) : Blocks (c.op.apply m) := by
  intro key a ha
  cases c with
  | insert k added new =>
    simp only [TreeCall.op, MapOp.apply] at ha
    split at ha
    · rw [Function.update_apply] at ha
      split at ha
      · cases ha
        exact hc
      · exact h key a ha
    · exact h key a ha
  | delete node =>
    simp only [TreeCall.op, MapOp.apply] at ha
    split at ha
    · cases ha
    · exact h key a ha

theorem Refines.blocks (h : t.Refines m) (hm : Blocks m) :
    ∃ l, t.Represents l ∧ (∀ a ∈ l, IsBlock a) ∧ ∀ a, a ∈ l ↔ ∃ key, m key = some a := by
  obtain ⟨l, hl, hlm⟩ := h
  have hmem (a : Addr) : a ∈ l ↔ ∃ key, m key = some a :=
    ⟨fun ha => ⟨t.keyOf a, (hlm _ a).mpr ⟨ha, rfl⟩⟩, fun ⟨key, hkey⟩ => ((hlm key a).mp hkey).1⟩
  refine ⟨l, hl, fun a ha => ?_, hmem⟩
  obtain ⟨key, hkey⟩ := (hmem a).mp ha
  exact hm key a hkey

/-- One call. -/
theorem Refines.sizeCounts_iff (h : t.Refines m) (hm : Blocks m) (hsize : t.SizeCounts) {c : TreeCall δ}
    (hvalid : c.op.Valid m) (hc : c.Allocates) (hrun : t.call c = some t') : t'.SizeCounts ↔ c.Inserts := by
  obtain ⟨l, hl, hblocks, hmem⟩ := h.blocks hm
  cases c with
  | insert key added new =>
    obtain ⟨⟨t₁, node, isNew⟩, hins, rfl⟩ := Option.map_eq_some_iff.mp hrun
    exact iff_of_true (hsize.insertNode hl hblocks (h.node_eq_none hvalid) hc hins) trivial
  | delete node => exact iff_of_false (hsize.not_delete hl ((hmem node).mpr hvalid) hrun) id

theorem Refines.always_sizeCounts_iff (h : t.Refines m) (hm : Blocks m) (hsize : t.SizeCounts)
    {calls : List (TreeCall δ)} (hvalid : ValidOps m (calls.map TreeCall.op))
    (hcalls : ∀ c ∈ calls, c.Allocates) :
    Run.Always Tree.call SizeCounts t calls ↔ ∀ c ∈ calls, c.Inserts := by
  induction calls generalizing t m with
  | nil => exact iff_of_true hsize (List.forall_mem_nil _)
  | cons c calls ih =>
    rw [List.forall_mem_cons] at hcalls ⊢
    obtain ⟨t₁, hrun, hm₁⟩ := h.call hvalid.1
    have hfirst := h.sizeCounts_iff hm hsize hvalid.1 hcalls.1 hrun
    have hrest (hsize₁ : t₁.SizeCounts) := ih hm₁ (hm.apply hcalls.1) hsize₁ hvalid.2 hcalls.2
    constructor
    · rintro ⟨-, halways⟩
      have halways₁ := halways t₁ hrun
      exact ⟨hfirst.mp halways₁.head, (hrest halways₁.head).mp halways₁⟩
    · rintro ⟨hinserts, hinserts'⟩
      have hsize₁ := hfirst.mpr hinserts
      refine ⟨hsize, fun t₂ h₂ => ?_⟩
      cases hrun.symm.trans h₂
      exact (hrest hsize₁).mpr hinserts'

end Step

theorem sizeCounts_create : (create : Tree δ).SizeCounts := by
  have hl : (create : Tree δ).Represents [] := represents_create
  exact hl.ncard_reachable.symm

/-- **The size** is the number of nodes throughout a run exactly when nothing is deleted in it. -/
theorem size_counts_iff (calls : List (TreeCall δ))
    (hvalid : ValidOps (fun _ => none) (calls.map TreeCall.op)) (hcalls : ∀ c ∈ calls, c.Allocates) :
    (∃ t, Run.exec call create calls = some t) ∧ Run.Always call SizeCounts create calls ↔
      ∀ node, .delete node ∉ calls := by
  obtain ⟨t, hrun, -⟩ := (refines_create (δ := δ)).calls hvalid
  rw [and_iff_right ⟨t, hrun⟩, refines_create.always_sizeCounts_iff blocks_empty sizeCounts_create hvalid hcalls]
  constructor
  · intro h node hmem
    exact h _ hmem
  · intro h c hc
    cases c with
    | insert key added new => trivial
    | delete node => exact h node hc

theorem size_counts_two :
    (∃ t : Tree Unit, Run.exec call create
        [.insert 5 .pointer ⟨1, (), 7⟩, .insert 3 .pointer ⟨2, (), 9⟩] = some t) ∧
      Run.Always call SizeCounts (create : Tree Unit)
        [.insert 5 .pointer ⟨1, (), 7⟩, .insert 3 .pointer ⟨2, (), 9⟩] := by
  refine (size_counts_iff _ ?_ ?_).mpr (by simp)
  · refine ⟨by simp [TreeCall.op, MapOp.Valid], ?_, trivial⟩
    simp [TreeCall.op, MapOp.Valid, MapOp.apply, Function.update_apply]
  · simp [TreeCall.Allocates, IsBlock]

/-- One node is added and deleted. -/
theorem deleted_node_counted : ¬ ((∃ t : Tree Unit, Run.exec call create
        [.insert 5 .pointer ⟨1, (), 7⟩, .delete 1] = some t) ∧
      Run.Always call SizeCounts (create : Tree Unit) [.insert 5 .pointer ⟨1, (), 7⟩, .delete 1]) := by
  have hvalid : ValidOps (fun _ => none)
      ([.insert 5 .pointer ⟨1, (), 7⟩, .delete 1].map (TreeCall.op (δ := Unit))) := by
    exact ⟨by simp [TreeCall.op, MapOp.Valid], ⟨5, rfl⟩, trivial⟩
  rintro ⟨-, halways⟩
  have hinserts := ((refines_create (δ := Unit)).always_sizeCounts_iff blocks_empty sizeCounts_create hvalid
    (by simp [TreeCall.Allocates, IsBlock])).mp halways
  exact hinserts (.delete 1) (by simp)

end Helos.Tree
