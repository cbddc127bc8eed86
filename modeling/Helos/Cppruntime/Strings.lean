import Helos.Runtime.Utf8
import Helos.Theory.Run
import Mathlib.Logic.Function.Basic

/-!
# Strings

`cppruntime/string.hpp`: the objects of class `String` that are alive, and the heap blocks their
characters are in. A pointer to characters is NULL, the address of the `end` member of an object, or
a block. Every block that `new` returns and every pointer passed to `delete[]` is written down;
following a pointer to nothing is undefined (`none`). `new` is taken to succeed.
-/

namespace Helos

inductive CharPtr where
  | null
  | endOf (object : Nat)
  | block (a : Nat)
deriving DecidableEq

structure StringObject where
  endChar : UInt8
  str : CharPtr
  size : Nat
deriving DecidableEq

/-- What `new` returns, and what the memory holds until it is written. -/
structure NewBlock where
  addr : Nat
  junk : Nat → UInt8

structure StringStore where
  objects : Nat → Option StringObject
  heap : Nat → Option (List UInt8)
  allocated : List Nat
  deleted : List CharPtr

namespace StringStore

def empty : StringStore := ⟨fun _ => none, fun _ => none, [], []⟩

def setObject (s : StringStore) (o : Nat) (object : StringObject) : StringStore :=
  { s with objects := Function.update s.objects o (some object) }

/-- `new char[n]` -/
def newChars (s : StringStore) (b : NewBlock) (n : Nat) : StringStore :=
  { s with
    heap := Function.update s.heap b.addr (some ((List.range n).map b.junk))
    allocated := b.addr :: s.allocated }

/-- `delete[] p`. What is no block leaves the heap as it is. -/
def deleteChars (s : StringStore) (p : CharPtr) : StringStore :=
  { s with
    heap :=
      match p with
      | .block a => Function.update s.heap a none
      | _ => s.heap
    deleted := p :: s.deleted }

/-- The characters from a pointer on. -/
def contents (s : StringStore) : CharPtr → Option (List UInt8)
  | .null => none
  | .endOf o => (s.objects o).map fun object => [object.endChar]
  | .block a => s.heap a

def read (s : StringStore) (p : CharPtr) (n : Nat) : Option (List UInt8) := do
  let bytes ← s.contents p
  if n ≤ bytes.length then some (bytes.take n) else none

/-- Only blocks are written to. -/
def write (s : StringStore) (p : CharPtr) (offset : Nat) (bytes : List UInt8) : Option StringStore :=
  match p with
  | .block a => do
    let old ← s.heap a
    if offset + bytes.length ≤ old.length then
      let new := old.take offset ++ bytes ++ old.drop (offset + bytes.length)
      some { s with heap := Function.update s.heap a (some new) }
    else none
  | _ => none

/-! ### Constructors -/

/-- `String()` -/
def construct (s : StringStore) (o : Nat) : StringStore := s.setObject o ⟨0, .endOf o, 0⟩

/-- `String(const char *cstr)`, of the characters before the NUL. -/
def constructCString (s : StringStore) (o : Nat) (cstr : List UInt8) (b : NewBlock) :
    Option StringStore :=
  let size := cstr.length
  let s := (s.newChars b (size + 1)).setObject o ⟨0, .block b.addr, size⟩
  s.write (.block b.addr) 0 (cstr ++ [0])

/-- `String(const char *cstr, uintptr_t csize)` -/
def constructSized (s : StringStore) (o : Nat) (cstr : List UInt8) (b : NewBlock) :
    Option StringStore := do
  let size := cstr.length
  let s := (s.newChars b (size + 1)).setObject o ⟨0, .block b.addr, size⟩
  let s ← s.write (.block b.addr) 0 cstr
  s.write (.block b.addr) size [0]

/-- `String(uint32_t unicode)` -/
def constructUnicode (s : StringStore) (o : Nat) (unicode : UInt32) (b : NewBlock) :
    Option StringStore := do
  let (size, buf) := utf8Encode unicode
  let s := (s.newChars b (size + 1)).setObject o ⟨0, .block b.addr, size⟩
  let s ← s.write (.block b.addr) 0 (buf.take size)
  s.write (.block b.addr) size [0]

/-- `String(const String &other)` -/
def constructCopy (s : StringStore) (o other : Nat) (b : NewBlock) : Option StringStore := do
  let source ← s.objects other
  let s := (s.newChars b (source.size + 1)).setObject o ⟨0, .block b.addr, source.size⟩
  let bytes ← s.read source.str (source.size + 1)
  s.write (.block b.addr) 0 bytes

/-- `move.size = 0; move.str = &move.end;` -/
def reset (s : StringStore) (o : Nat) : Option StringStore := do
  let object ← s.objects o
  some (s.setObject o { object with str := .endOf o, size := 0 })

/-- `String(String &&move)` -/
def constructMove (s : StringStore) (o move : Nat) : Option StringStore := do
  let source ← s.objects move
  (s.setObject o ⟨0, source.str, source.size⟩).reset move

/-! ### The destructor, assignments, swap and `Substring` -/

/-- `if (str && str != &end) delete[] str;` -/
def releaseStr (s : StringStore) (o : Nat) (object : StringObject) : StringStore :=
  if object.str = .null ∨ object.str = .endOf o then s else s.deleteChars object.str

def destruct (s : StringStore) (o : Nat) : Option StringStore := do
  let object ← s.objects o
  let s := s.releaseStr o object
  some { s with objects := Function.update s.objects o none }

/-- `operator=(const String &other)`. By the time the characters are read, `other` has the new block
if it is the string itself. -/
def assignCopy (s : StringStore) (o other : Nat) (b : NewBlock) : Option StringStore := do
  let object ← s.objects o
  let s := s.releaseStr o object
  let source ← s.objects other
  let size := source.size
  let s := (s.newChars b (size + 1)).setObject o { object with str := .block b.addr, size }
  let source ← s.objects other
  let bytes ← s.read source.str (size + 1)
  s.write (.block b.addr) 0 bytes

/-- `operator=(String &&move)` -/
def assignMove (s : StringStore) (o move : Nat) : Option StringStore := do
  let object ← s.objects o
  let s := s.releaseStr o object
  let source ← s.objects move
  (s.setObject o { object with str := source.str, size := source.size }).reset move

def swap (s : StringStore) (o other : Nat) : Option StringStore := do
  let object ← s.objects o
  let source ← s.objects other
  let s := s.setObject o { object with str := source.str, size := source.size }
  let source ← s.objects other
  some (s.setObject other { source with str := object.str, size := object.size })

/-- The result of `Substring`, constructed at `o`. The arguments are not checked; `beyond` is what lies
behind the characters of `other`. -/
def substring (s : StringStore) (o other offset count : Nat) (b : NewBlock) (beyond : Nat → UInt8) :
    Option StringStore := do
  let source ← s.objects other
  let s := s.construct o
  let s := (s.newChars b (count + 1)).setObject o ⟨0, .block b.addr, count⟩
  let bytes ← s.contents source.str
  let s ← s.write (.block b.addr) 0
    ((List.range count).map fun i => (bytes[offset + i]?).getD (beyond i))
  s.write (.block b.addr) count [0]

end StringStore

inductive StringOp where
  | construct (o : Nat)
  | constructCString (o : Nat) (cstr : List UInt8) (b : NewBlock)
  | constructSized (o : Nat) (cstr : List UInt8) (b : NewBlock)
  | constructUnicode (o : Nat) (unicode : UInt32) (b : NewBlock)
  | constructCopy (o other : Nat) (b : NewBlock)
  | constructMove (o move : Nat)
  | destruct (o : Nat)
  | assignCopy (o other : Nat) (b : NewBlock)
  | assignMove (o move : Nat)
  | swap (o other : Nat)
  | substring (o other offset count : Nat) (b : NewBlock) (beyond : Nat → UInt8)

namespace StringStore

def step (s : StringStore) : StringOp → Option StringStore
  | .construct o => some (s.construct o)
  | .constructCString o cstr b => s.constructCString o cstr b
  | .constructSized o cstr b => s.constructSized o cstr b
  | .constructUnicode o unicode b => s.constructUnicode o unicode b
  | .constructCopy o other b => s.constructCopy o other b
  | .constructMove o move => s.constructMove o move
  | .destruct o => s.destruct o
  | .assignCopy o other b => s.assignCopy o other b
  | .assignMove o move => s.assignMove o move
  | .swap o other => s.swap o other
  | .substring o other offset count b beyond => s.substring o other offset count b beyond

end StringStore

namespace StringOp

/-- The object a call constructs. -/
def constructs : StringOp → Option Nat
  | construct o => some o
  | constructCString o _ _ => some o
  | constructSized o _ _ => some o
  | constructUnicode o _ _ => some o
  | constructCopy o _ _ => some o
  | constructMove o _ => some o
  | substring o _ _ _ _ _ => some o
  | _ => none

/-- The objects a call is made on. -/
def operands : StringOp → List Nat
  | constructCopy _ other _ => [other]
  | constructMove _ move => [move]
  | destruct o => [o]
  | assignCopy o other _ => [o, other]
  | assignMove o move => [o, move]
  | swap o other => [o, other]
  | substring _ other _ _ _ _ => [other]
  | _ => []

def newBlock : StringOp → Option NewBlock
  | constructCString _ _ b => some b
  | constructSized _ _ b => some b
  | constructUnicode _ _ b => some b
  | constructCopy _ _ b => some b
  | assignCopy _ _ b => some b
  | substring _ _ _ _ b _ => some b
  | _ => none

/-- The heap at the time of `new`; an assignment has released the old block, and may get it again. -/
def heapAtNew (s : StringStore) : StringOp → Nat → Option (List UInt8)
  | assignCopy o _ _ => ((s.objects o).elim s (s.releaseStr o)).heap
  | _ => s.heap

/-- What C++ asks of a call: objects are constructed where there is none and used while they live. And
`new` returns a block that is not in use. -/
structure Valid (s : StringStore) (op : StringOp) : Prop where
  storage : ∀ o, op.constructs = some o → s.objects o = none
  alive : ∀ o ∈ op.operands, (s.objects o).isSome
  fresh : ∀ b, op.newBlock = some b → op.heapAtNew s b.addr = none

end StringOp

end Helos
