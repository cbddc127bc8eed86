import Mathlib.Tactic.Common

/-!
# Keys and mouse buttons

The enumerations of `driver/input/consts.h`. `input_Key_Unknown` is not a `Key`: where the source may
have it, the model has an `Option Key`.
-/

namespace Helos

inductive Key where
  | a | b | c | d | e | f | g | h | i | j | k | l | m
  | n | o | p | q | r | s | t | u | v | w | x | y | z
  | num0 | num1 | num2 | num3 | num4 | num5 | num6 | num7 | num8 | num9
  | escape
  | lControl | lShift | lAlt | lSuper
  | rControl | rShift | rAlt | rSuper
  | menu
  | lBracket | rBracket | semicolon | comma | period | quote | slash | backslash | tilde | equal
  | hyphen
  | space | enter | backspace | tab
  | pageUp | pageDown | endKey | home | insert | delete
  | add | subtract | multiply | divide
  | left | right | up | down
  | numpad0 | numpad1 | numpad2 | numpad3 | numpad4 | numpad5 | numpad6 | numpad7 | numpad8 | numpad9
  | f1 | f2 | f3 | f4 | f5 | f6 | f7 | f8 | f9 | f10 | f11 | f12 | f13 | f14 | f15
  | pause | capsLock | numLock | scrollLock
deriving DecidableEq

inductive MouseButton where
  | left | right | middle | button4 | button5
deriving DecidableEq

/-- `input_Key_Count` and `input_MouseButton_Count` -/
def keyCount : Nat := 104

def mouseButtonCount : Nat := 5

/-- The value of the enumerator. -/
def Key.code (key : Key) : Nat := key.ctorIdx

def MouseButton.code (button : MouseButton) : Nat := button.ctorIdx

theorem Key.code_lt (key : Key) : key.code < keyCount := by
  cases key <;> decide

theorem Key.code_injective : Function.Injective Key.code := by
  intro key key' h
  calc
    key = Key.ofNat key.ctorIdx := (Key.ofNat_ctorIdx key).symm
    _ = key' := by rw [show key.ctorIdx = key'.ctorIdx from h, Key.ofNat_ctorIdx]

theorem MouseButton.code_lt (button : MouseButton) : button.code < mouseButtonCount := by
  cases button <;> decide

end Helos
