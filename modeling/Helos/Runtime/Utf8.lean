import Mathlib.Tactic.Common

/-!
# UTF-8

`runtime/unicode.c`. A buffer is the list of the bytes from the pointer on, code points are 32-bit
words.
-/

namespace Helos

def unicodeError : UInt32 := 0xfffd
def unicodeMax : UInt32 := 0x10ffff

def utf8ContinuationMin : UInt8 := 0xc0
def utf8OverlongLeader2 : UInt8 := 0xc1
def utf8InvalidLeaderMin : UInt8 := 0xf5
def utf8InvalidLeaderMax : UInt8 := 0xff

/-! ### Decoding -/

/-- The table of trailing bytes, by the first byte of a sequence. -/
def trailing : List Nat :=
  List.replicate 192 0 ++ List.replicate 32 1 ++ List.replicate 16 2 ++ List.replicate 8 3 ++
    List.replicate 4 4 ++ List.replicate 4 5

def offsets : List UInt32 := [0x00000000, 0x00003080, 0x000E2080, 0x03C82080, 0xFA082080, 0x82082080]

/-- The switch that falls through from `case trailingBytes` to `case 0`. -/
def readBytes : Nat → List UInt8 → UInt32 → UInt32
  | 0, utf8, output => output + (utf8.headD 0).toUInt32
  | trailingBytes + 1, utf8, output =>
    readBytes trailingBytes utf8.tail ((output + (utf8.headD 0).toUInt32) <<< 6)

/-- The bytes advanced, and what is stored unless `codepoint` is null. -/
def utf8Decode (utf8 : List UInt8) (length : Nat) : Nat × UInt32 :=
  let first := utf8.headD 0
  let trailingBytes := trailing.getD first.toNat 0
  if (utf8ContinuationMin ≤ first ∧ first ≤ utf8OverlongLeader2) ∨
      (utf8InvalidLeaderMin ≤ first ∧ first ≤ utf8InvalidLeaderMax) ∨ length < trailingBytes + 1 then
    (1, unicodeError)
  else (trailingBytes + 1, readBytes trailingBytes utf8 0 - offsets.getD trailingBytes 0)

theorem utf8Decode_pos (utf8 : List UInt8) (length : Nat) : 0 < (utf8Decode utf8 length).1 := by
  unfold utf8Decode
  dsimp only
  split
  · exact Nat.one_pos
  · exact Nat.succ_pos _

/-- `for (i = 0; i < len; i += utf8_Decode(str + i, len - i, …))`, from `i` on: the code points, and
`i` at the end. -/
def decodeAll (utf8 : List UInt8) (i : Nat) : List UInt32 × Nat :=
  if i < utf8.length then
    let decoded := utf8Decode (utf8.drop i) (utf8.length - i)
    let rest := decodeAll utf8 (i + decoded.1)
    (decoded.2 :: rest.1, rest.2)
  else ([], i)
termination_by utf8.length - i
decreasing_by
  have hpos := utf8Decode_pos (utf8.drop i) (utf8.length - i)
  omega

/-! ### Encoding -/

def utf8EncodeLength (codepoint : UInt32) : Nat :=
  if codepoint ≤ 0x007f then 1
  else if codepoint ≤ 0x07ff then 2
  else if codepoint ≤ 0xffff then 3
  else if codepoint ≤ 0x10ffff then 4
  else 0

def firstBytes : List UInt8 := [0x00, 0x00, 0xC0, 0xE0, 0xF0, 0xF8, 0xFC]

/-- The switch that falls through from `case len` to `case 1`, with the bytes written so far. -/
def writeBytes (firstByte : UInt8) : Nat → UInt32 → List UInt8 → List UInt8
  | 0, _, written => written
  | 1, codepoint, written => (codepoint ||| firstByte.toUInt32).toUInt8 :: written
  | len + 2, codepoint, written =>
    writeBytes firstByte (len + 1) (codepoint >>> 6) (((codepoint ||| 0x80) &&& 0xBF).toUInt8 :: written)

/-- An invalid code point is substituted. -/
def substitute (codepoint : UInt32) : UInt32 := if codepoint > unicodeMax then unicodeError else codepoint

/-- The number of bytes, and the bytes written. -/
def utf8Encode (codepoint : UInt32) : Nat × List UInt8 :=
  let codepoint := substitute codepoint
  let len := utf8EncodeLength codepoint
  (len, writeBytes (firstBytes.getD len 0) len codepoint [])

def encodeAll (codepoints : List UInt32) : List UInt8 := codepoints.flatMap fun c => (utf8Encode c).2

end Helos
