import Helos.Driver.Keys
import Helos.Theory.BitWords
import Helos.Theory.LittleEndian
import Helos.Util.Queue

/-!
# The input source

`driver/input/input.c`: the masks of pressed keys and buttons, the cursor, and the events for the
queue of the consumer. Switching interrupts off and on, and waking the consumer, change nothing here
and are left out.
-/

namespace Helos

/-- `input_Event`; the position of a constructor is its `Type`. -/
inductive InputEvent where
  | mouseMoved (x y : Int)
  | mouseButtonPressed (button : MouseButton) (x y : Int)
  | mouseButtonReleased (button : MouseButton) (x y : Int)
  | keyPressed (key : Key) (control shift alt super : Bool)
  | keyReleased (key : Key) (control shift alt super : Bool)
deriving DecidableEq

namespace InputEvent

/-- An `int` in memory. -/
def intBytes (n : Int) : List UInt8 := LittleEndian.encode 4 (n % 2 ^ 32).toNat

def boolBytes (bs : List Bool) : List UInt8 := bs.map fun b => if b then 1 else 0

/-- `sizeof(input_Event)` -/
def sizeof : Nat := 16

/-- The event in memory: the type and the union of the three structures. -/
def bytes : InputEvent → List UInt8
  | mouseMoved x y => intBytes 0 ++ intBytes x ++ intBytes y ++ intBytes 0
  | mouseButtonPressed button x y => intBytes 1 ++ intBytes button.code ++ intBytes x ++ intBytes y
  | mouseButtonReleased button x y => intBytes 2 ++ intBytes button.code ++ intBytes x ++ intBytes y
  | keyPressed key control shift alt super =>
    intBytes 3 ++ intBytes key.code ++ boolBytes [control, shift, alt, super] ++ intBytes 0
  | keyReleased key control shift alt super =>
    intBytes 4 ++ intBytes key.code ++ boolBytes [control, shift, alt, super] ++ intBytes 0

theorem length_bytes (e : InputEvent) : e.bytes.length = sizeof := by
  cases e <;> simp [bytes, intBytes, boolBytes, sizeof]

end InputEvent

structure Input where
  cursorX : Int
  cursorY : Int
  desktopWidth : Int
  desktopHeight : Int
  keyMask : List (BitVec 64)
  mouseMask : List (BitVec 64)
  /-- `input_EventQueue`, which may be NULL. -/
  eventQueue : Option Queue
deriving DecidableEq

/-- `intminmax` -/
def intminmax (x min max : Int) : Int := if x < min then min else if x > max then max else x

namespace Input

/-- The masks are zero when the kernel is loaded. -/
def boot (cursorX cursorY desktopWidth desktopHeight : Int) (eventQueue : Option Queue) : Input :=
  { cursorX, cursorY, desktopWidth, desktopHeight
    keyMask := List.replicate (keyCount / 64 + 1) 0
    mouseMask := List.replicate (mouseButtonCount / 64 + 1) 0
    eventQueue }

/-- `1ull << key % 64` -/
def keyBit (key : Key) : BitVec 64 := 1#64 <<< (key.code % 64)

/-- `1ull << key & 64`, where the shift binds more tightly. -/
def mouseBit (button : MouseButton) : BitVec 64 := 1#64 <<< button.code &&& 64#64

def keyPressed (s : Input) (key : Key) : Bool :=
  BitWords.test s.keyMask (key.code / 64) (keyBit key)

def mousePressed (s : Input) (button : MouseButton) : Bool :=
  BitWords.test s.mouseMask (button.code / 64) (mouseBit button)

def flagControl (s : Input) : Bool := s.keyPressed .lControl || s.keyPressed .rControl
def flagShift (s : Input) : Bool := s.keyPressed .lShift || s.keyPressed .rShift
def flagAlt (s : Input) : Bool := s.keyPressed .lAlt || s.keyPressed .rAlt

/-- Whether there is a queue with room for an event. -/
def hasRoom (s : Input) : Bool :=
  match s.eventQueue with
  | none => false
  | some q => decide (InputEvent.sizeof ≤ q.space)

/-- `queue_Push(input_EventQueue, &e, sizeof(e))` when there is a queue, with the event if the queue
takes it. -/
def queueEvent (s : Input) (e : InputEvent) : Option (Input × Option InputEvent) :=
  match s.eventQueue with
  | none => some (s, none)
  | some q => do
    let q' ← q.push e.bytes
    some ({ s with eventQueue := some q' }, if s.hasRoom then some e else none)

theorem queueEvent_cursor {s next : Input} {e : InputEvent} {queued : Option InputEvent}
    (h : s.queueEvent e = some (next, queued)) :
    next.cursorX = s.cursorX ∧ next.cursorY = s.cursorY := by
  unfold queueEvent at h
  split at h
  · obtain ⟨rfl, -⟩ := Prod.ext_iff.mp (Option.some.inj h)
    exact ⟨rfl, rfl⟩
  · obtain ⟨q, -, h⟩ := Option.bind_eq_some_iff.mp h
    obtain ⟨rfl, -⟩ := Prod.ext_iff.mp (Option.some.inj h)
    exact ⟨rfl, rfl⟩

/-! The members of an initializer that are not named, as `Super` here, are zero. -/

/-- `input_source_PressKey` -/
def pressKey (s : Input) (key : Key) : Option (Input × Option InputEvent) :=
  let s := { s with keyMask := BitWords.set s.keyMask (key.code / 64) (keyBit key) }
  s.queueEvent (.keyPressed key s.flagControl s.flagShift s.flagAlt false)

def releaseKey (s : Input) (key : Key) : Option (Input × Option InputEvent) :=
  let s := { s with keyMask := BitWords.clear s.keyMask (key.code / 64) (keyBit key) }
  s.queueEvent (.keyReleased key s.flagControl s.flagShift s.flagAlt false)

def pressMouse (s : Input) (button : MouseButton) : Option (Input × Option InputEvent) :=
  let s := { s with mouseMask := BitWords.set s.mouseMask (button.code / 64) (mouseBit button) }
  s.queueEvent (.mouseButtonPressed button s.cursorX s.cursorY)

def releaseMouse (s : Input) (button : MouseButton) : Option (Input × Option InputEvent) :=
  let s := { s with mouseMask := BitWords.clear s.mouseMask (button.code / 64) (mouseBit button) }
  s.queueEvent (.mouseButtonReleased button s.cursorX s.cursorY)

def positionMouse (s : Input) (x y : Int) : Option (Input × Option InputEvent) :=
  let s := { s with
    cursorX := intminmax x 0 s.desktopWidth
    cursorY := intminmax y 0 s.desktopHeight }
  s.queueEvent (.mouseMoved s.cursorX s.cursorY)

def moveMouse (s : Input) (x y : Int) : Option (Input × Option InputEvent) :=
  s.positionMouse (s.cursorX + x) (s.cursorY + y)

/-- The consumer takes bytes out of the queue. -/
def drain (s : Input) (size : Nat) : Option (Input × Option InputEvent) :=
  match s.eventQueue with
  | none => some (s, none)
  | some q => do
    let (q, _, _) ← q.pop size
    some ({ s with eventQueue := some q }, none)

inductive Call where
  | pressKey (key : Key)
  | releaseKey (key : Key)
  | pressMouse (button : MouseButton)
  | releaseMouse (button : MouseButton)
  | moveMouse (x y : Int)
  | positionMouse (x y : Int)
  | drain (size : Nat)
deriving DecidableEq

/-- The state after a call, and the event it queued. -/
def step (s : Input) : Call → Option (Input × Option InputEvent)
  | .pressKey key => s.pressKey key
  | .releaseKey key => s.releaseKey key
  | .pressMouse button => s.pressMouse button
  | .releaseMouse button => s.releaseMouse button
  | .moveMouse x y => s.moveMouse x y
  | .positionMouse x y => s.positionMouse x y
  | .drain size => s.drain size

end Input

end Helos
