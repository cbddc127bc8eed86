import Helos.Theory.LinkedTree
import Mathlib.Data.Finmap

/-!
# The treap

The pointer program of `util/tree.c` and `util/tree_internal.h`, on a heap of nodes. A pointer is an
address or NULL, a function is undefined (`none`) when it follows a pointer that is not in the heap,
and a loop that has made more turns than there are nodes has not terminated.

The typed field `data` stands for the `objectSize` bytes behind a node, so `objectSize`, which only
sizes the allocation, is left out. What `kMalloc` and `random_Rand` return, and the bytes a fresh
block holds, are arguments.
-/

namespace Helos

/-- The address of a block of kernel memory. -/
abbrev Addr := Nat

/-- A pointer; NULL is `none`. -/
abbrev Ptr := Option Addr

def wrap64 (n : Nat) : Nat := n % 2 ^ 64

structure TreeNode (δ : Type) where
  key : Nat
  left : Ptr
  right : Ptr
  father : Ptr
  internal : Nat
  data : δ
deriving DecidableEq

structure Tree (δ : Type) where
  root : Ptr
  size : Nat
  heap : Finmap fun _ : Addr => TreeNode δ

/-- The sons `__tree_Left` and `__tree_Right`. -/
abbrev ConnectType := LinkedTree.Side

/-- `__tree_ConnectType_Invert` -/
abbrev ConnectType.invert : ConnectType → ConnectType := LinkedTree.Side.flip

/-- `__tree_Get` -/
def TreeNode.get {δ : Type} (father : TreeNode δ) : ConnectType → Ptr
  | .left => father.left
  | .right => father.right

def TreeNode.set {δ : Type} (father : TreeNode δ) : ConnectType → Ptr → TreeNode δ
  | .left, son => { father with left := son }
  | .right, son => { father with right := son }

structure Payload (δ : Type) where
  key : Nat
  internal : Nat
  data : δ

def TreeNode.links {δ : Type} (n : TreeNode δ) : LinkedTree.Links Addr :=
  ⟨n.father, n.left, n.right⟩

def TreeNode.payload {δ : Type} (n : TreeNode δ) : Payload δ := ⟨n.key, n.internal, n.data⟩

/-- The `bool *added` of the insertions. Reading through NULL yields the byte at address 0, which
the boot-time identity mapping of physical memory makes readable. -/
inductive AddedArg where
  | pointer
  | null (byteAtZero : Bool)

def AddedArg.read (isNew : Bool) : AddedArg → Bool
  | .pointer => isNew
  | .null byteAtZero => byteAtZero

namespace Tree

variable {δ : Type}

def create : Tree δ := { root := none, size := 0, heap := ∅ }

def node (t : Tree δ) (a : Addr) : Option (TreeNode δ) := t.heap.lookup a

/-- An assignment to fields of the node at `a`. -/
def modify (t : Tree δ) (a : Addr) (f : TreeNode δ → TreeNode δ) : Option (Tree δ) := do
  let n ← t.node a
  some { t with heap := t.heap.insert a (f n) }

/-- An assignment to the object of the node at `a`. -/
def modifyData (t : Tree δ) (a : Addr) (f : δ → δ) : Option (Tree δ) :=
  t.modify a fun n => { n with data := f n.data }

/-- The fuel of every loop below: one turn for each node, and one to leave. -/
def fuel (t : Tree δ) : Nat := t.heap.keys.card + 1

/-! ### `tree_internal.h` -/

def tell (t : Tree δ) (son : Addr) : Option ConnectType := do
  let s ← t.node son
  match s.father with
  | none => some .left
  | some f => do
    let father ← t.node f
    if father.left = some son then some .left else some .right

def setFather (t : Tree δ) (son father : Ptr) : Option (Tree δ) :=
  match son with
  | none => some t
  | some s => t.modify s fun n => { n with father := father }

def setSon (t : Tree δ) (father : Ptr) (type : ConnectType) (son : Ptr) : Option (Tree δ) :=
  match father with
  | none => some t
  | some f => t.modify f fun n => n.set type son

def connect (t : Tree δ) (father son : Ptr) (type : ConnectType) : Option (Tree δ) := do
  let t ← t.setFather son father
  t.setSon father type son

def rotate (t : Tree δ) (node : Addr) : Option (Tree δ) := do
  let n ← t.node node
  match n.father with
  | none => some t
  | some f => do
    let type ← t.tell node
    let b := n.get type.invert
    let father ← t.node f
    let t ← t.connect father.father (some node) (← t.tell f)
    let t ← t.connect (some node) (some f) type.invert
    let t ← t.connect (some f) b type
    let n ← t.node node
    if n.father = none then some { t with root := some node } else some t

def treapAdjust : Nat → Tree δ → Addr → Option (Tree δ)
  | 0, _, _ => none
  | fuel + 1, t, node => do
    let n ← t.node node
    match n.father with
    | none => some t
    | some f => do
      let father ← t.node f
      if father.internal > n.internal then treapAdjust fuel (← t.rotate node) node else some t

/-! ### `tree.c` -/

/-- `__tree_NewNode`, the block at `a` holding `data` at first. -/
def newNode (t : Tree δ) (key : Nat) (father : Ptr) (internal : Nat) (a : Addr) (data : δ) :
    Tree δ :=
  { t with
    size := wrap64 (t.size + 1)
    heap := t.heap.insert a { key, left := none, right := none, father, internal, data } }

/-- What an insertion gets from outside: the block, the bytes in it and the random number. -/
structure Fresh (δ : Type) where
  addr : Addr
  data : δ
  rand : Nat

/-- `__tree_InsertNodes`, with the tree, the value returned, `*result` and whether a node was
added. -/
def insertNodes (key : Nat) (new : Fresh δ) :
    Nat → Tree δ → Ptr → Ptr → Option (Tree δ × Ptr × Addr × Bool)
  | 0, _, _, _ => none
  | _ + 1, t, none, father =>
    some (t.newNode key father (new.rand ^^^ key) new.addr new.data, some new.addr, new.addr, true)
  | fuel + 1, t, some node, _ => do
    let n ← t.node node
    if key < n.key then
      let (t, left, result, added) ← insertNodes key new fuel t n.left (some node)
      let t ← t.modify node fun n => { n with left := left }
      some (t, some node, result, added)
    else if key > n.key then
      let (t, right, result, added) ← insertNodes key new fuel t n.right (some node)
      let t ← t.modify node fun n => { n with right := right }
      some (t, some node, result, added)
    else
      some (t, some node, node, false)

/-- `if (*added) __tree_treap_Adjust(result, &t->root);` -/
def adjustIf (added : Bool) (t : Tree δ) (result : Addr) : Option (Tree δ) :=
  if added then treapAdjust t.fuel t result else some t

/-- `tree_InsertNode`, with the node and whether it was added. -/
def insertNode (t : Tree δ) (key : Nat) (added : AddedArg) (new : Fresh δ) :
    Option (Tree δ × Addr × Bool) := do
  let (t, root, result, isNew) ← insertNodes key new t.fuel t t.root none
  let t ← adjustIf (added.read isNew) { t with root := root } result
  some (t, result, isNew)

def findNodes (key : Nat) (t : Tree δ) : Nat → Ptr → Option Ptr
  | 0, _ => none
  | _ + 1, none => some none
  | fuel + 1, some node => do
    let n ← t.node node
    if key < n.key then findNodes key t fuel n.left
    else if key > n.key then findNodes key t fuel n.right
    else some (some node)

def findNode (t : Tree δ) (key : Nat) : Option Ptr := findNodes key t t.fuel t.root

/-- The loop of `tree_Delete`: rotates sons up over `node` until it has at most one. -/
def sinkNode : Nat → Tree δ → Addr → Option (Tree δ)
  | 0, _, _ => none
  | fuel + 1, t, node => do
    let n ← t.node node
    match n.left, n.right with
    | some l, some r => do
      let left ← t.node l
      let right ← t.node r
      if left.internal < right.internal then sinkNode fuel (← t.rotate l) node
      else sinkNode fuel (← t.rotate r) node
    | _, _ => some t

def delete (t : Tree δ) (node : Addr) : Option (Tree δ) := do
  let t ← sinkNode t.fuel t node
  let n ← t.node node
  let son := if n.left.isSome then n.left else n.right
  let t := if t.root = some node then { t with root := son } else t
  let t ← t.connect n.father son (← t.tell node)
  some { t with heap := t.heap.erase node }

/-- `while (result->left) result = result->left;` -/
def leftmost (t : Tree δ) : Nat → Addr → Option Addr
  | 0, _ => none
  | fuel + 1, result => do
    let n ← t.node result
    match n.left with
    | none => some result
    | some l => leftmost t fuel l

def firstNode (t : Tree δ) : Option Ptr :=
  match t.root with
  | none => some none
  | some root => (t.leftmost t.fuel root).map some

/-- `while (result->father && __tree_Tell(result) == __tree_Right) result = result->father;` -/
def climb (t : Tree δ) : Nat → Addr → Option Addr
  | 0, _ => none
  | fuel + 1, result => do
    let n ← t.node result
    match n.father with
    | none => some result
    | some f => if (← t.tell result) = .right then climb t fuel f else some result

def nodeNext (t : Tree δ) (node : Addr) : Option Ptr := do
  let n ← t.node node
  match n.right with
  | some right => (t.leftmost t.fuel right).map some
  | none => do
    let result ← t.climb t.fuel node
    some (← t.node result).father

/-- `while (result->right) result = result->right;`, or the same on the left. -/
def outermost (type : ConnectType) (t : Tree δ) : Nat → Addr → Option Addr
  | 0, _ => none
  | fuel + 1, result => do
    let n ← t.node result
    match n.get type with
    | none => some result
    | some son => outermost type t fuel son

def lastNode (t : Tree δ) : Option Ptr :=
  match t.root with
  | none => some none
  | some root => (t.outermost .right t.fuel root).map some

/-- `while (result->father && __tree_Tell(result) == type) result = result->father;` -/
def climbOut (type : ConnectType) (t : Tree δ) : Nat → Addr → Option Addr
  | 0, _ => none
  | fuel + 1, result => do
    let n ← t.node result
    match n.father with
    | none => some result
    | some f => if (← t.tell result) = type then climbOut type t fuel f else some result

def nodePrevious (t : Tree δ) (node : Addr) : Option Ptr := do
  let n ← t.node node
  match n.left with
  | some left => (t.outermost .right t.fuel left).map some
  | none => do
    let result ← t.climbOut .left t.fuel node
    some (← t.node result).father

end Tree

end Helos
