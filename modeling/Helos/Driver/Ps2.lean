import Helos.Driver.Keys
import Helos.Util.Queue

/-!
# The keyboard interrupt

The keyboard half of `driver/irq/pic/ps2/ps2.c`. Each interrupt puts one byte into the queue and
tries to take one scan code out of it. The event the decoder fills in lives on the stack, so the
handler takes what is there before as an argument.
-/

namespace Helos

/-- The value of an `input_Key`; `none` is `input_Key_Unknown`. -/
def keyValue : Option Key → Int
  | none => -1
  | some key => key.code

/-- The fields of an `input_Event` that the decoder sets. -/
structure ScanEvent where
  type : Int
  key : Int
deriving DecidableEq

/-- A call of `input_source_PressKey` or `input_source_ReleaseKey`. -/
inductive KeyCall where
  | press (key : Int)
  | release (key : Int)
deriving DecidableEq

namespace Ps2

/-- `PIC_PS2_QUEUESIZE_KEYBOARD` -/
def queueSizeKeyboard : Nat := 64

/-- `input_EventType_KeyPressed` and `input_EventType_KeyReleased` -/
def typeKeyPressed : Int := 3

def typeKeyReleased : Int := 4

/-- `__pic_ps2_KeyScancode1` -/
def keyScancode1 : List (Option Key) :=
  [none, some .escape, some .num1, some .num2, some .num3, some .num4, some .num5, some .num6,
    some .num7, some .num8, some .num9, some .num0, some .hyphen, some .equal, some .backspace,
    some .tab, some .q, some .w, some .e, some .r, some .t, some .y, some .u, some .i, some .o,
    some .p, some .lBracket, some .rBracket, some .enter, some .lControl, some .a, some .s, some .d,
    some .f, some .g, some .h, some .j, some .k, some .l, some .semicolon, some .quote, some .tilde,
    some .lShift, some .backslash, some .z, some .x, some .c, some .v, some .b, some .n, some .m,
    some .comma, some .period, some .slash, some .rShift, some .multiply, some .lAlt, some .space,
    some .capsLock, some .f1, some .f2, some .f3, some .f4, some .f5, some .f6, some .f7, some .f8,
    some .f9, some .f10, some .numLock, some .scrollLock, some .numpad7, some .numpad8,
    some .numpad9, some .subtract, some .numpad4, some .numpad5, some .numpad6, some .add,
    some .numpad1, some .numpad2, some .numpad3, some .numpad0, some .period, none, none, none,
    some .f11, some .f12]

/-- The make codes in the `switch` on the byte after `0xe0`; its break codes are these plus `0x80`. -/
def extendedScancode : List (UInt8 × Key) :=
  [(0x1c, .enter), (0x1d, .rControl), (0x35, .divide), (0x38, .rAlt), (0x47, .home), (0x48, .up),
    (0x49, .pageUp), (0x4b, .left), (0x4d, .right), (0x4f, .endKey), (0x50, .down),
    (0x51, .pageDown), (0x52, .insert), (0x53, .delete)]

/-- The `switch`; a byte without a case leaves the event alone. -/
def decodeExtended (byte1 : UInt8) (event : ScanEvent) : ScanEvent :=
  match extendedScancode.lookup byte1 with
  | some key => { type := typeKeyPressed, key := key.code }
  | none =>
    match extendedScancode.lookup (byte1 - 0x80) with
    | some key => { type := typeKeyReleased, key := key.code }
    | none => event

/-- `__pic_ps2_DecodeKeyScancode1`; true means that the event is to be looked at. -/
def decodeKeyScancode1 (q : Queue) (event : ScanEvent) : Option (Queue × ScanEvent × Bool) := do
  let byte0 ← q.frontByte
  if byte0 = 0xfa then do -- ACK
    let (q, _) ← q.popByte
    some (q, event, false)
  else if 0x01 ≤ byte0 ∧ byte0 ≤ 0x58 then do
    let (q, _) ← q.popByte
    let key ← keyScancode1[byte0.toNat]?
    some (q, { type := typeKeyPressed, key := keyValue key }, true)
  else if 0x81 ≤ byte0 ∧ byte0 ≤ 0xd8 then do
    let (q, _) ← q.popByte
    let key ← keyScancode1[byte0.toNat - 0x80]?
    some (q, { type := typeKeyReleased, key := keyValue key }, true)
  else if byte0 = 0xe0 then
    if q.length < 2 then some (q, event, false)
    else do
      let (q, _) ← q.popByte
      let (q, byte1) ← q.popByte
      let event := decodeExtended byte1 { event with type := keyValue none }
      some (q, event, decide (event.key ≠ keyValue none))
  else if byte0 = 0xe1 then
    if q.length < 3 then some (q, event, false)
    else do
      let (q, _) ← q.popByte
      let (q, _) ← q.popByte
      let (q, _) ← q.popByte
      some (q, event, false)
  else some (q, event, false)

/-- What the handler does with the event. -/
def dispatch (e : ScanEvent) : Option KeyCall :=
  if e.type = typeKeyPressed then some (.press e.key)
  else if e.type = typeKeyReleased then some (.release e.key)
  else none

/-- `pic_ps2_IRQHandlerK`, for a byte from the port and what the stack holds. -/
def irqHandlerK (q : Queue) (interrupt : UInt8 × ScanEvent) : Option (Queue × Option KeyCall) := do
  let q ← q.pushByte interrupt.1
  let (q, e, decoded) ← decodeKeyScancode1 q interrupt.2
  some (q, if decoded then dispatch e else none)

/-- The queue that `pic_ps2_Init` sets up. -/
def initQueue (buffer : {buffer : List UInt8 // buffer.length = queueSizeKeyboard}) : Queue :=
  Queue.initBuffered buffer.val

end Ps2

end Helos
