import Helos.Memory.KernelMapping
import Helos.Runtime.Utf8Codec
import Helos.Theory.Run

/-!
# The conversion buffer of the console

`runtime/stdio.c`. Text is converted to UTF-16 in a buffer that grows by doubling its recorded size. The
block that is then allocated has room for what the call needs, not for the recorded size.
-/

namespace Helos

/-- The buffer of the globals, or a block from `kMalloc`; how many elements there are. -/
structure ConsoleBuffer where
  bufSize : Int
  count : Nat
  contents : Nat → UInt16

inductive ConsoleFunction where
  | writeConsole | writeConsoleASCII | error | errorASCII
deriving DecidableEq

/-- The bytes before the NUL, whether there is a frame buffer by then, and what `kMalloc` returns if asked. -/
structure ConsoleCall where
  function : ConsoleFunction
  str : List UInt8
  framebuffer : Bool
  block : Option (Nat → UInt16)

namespace ConsoleBuffer

/-- `while (bufSize < size) bufSize *= 2`. An overflow is undefined, and 0 is doubled forever. -/
def doubled (bufSize size : Int) : Option Int :=
  if bufSize < size then
    if 0 < bufSize ∧ bufSize * 2 < 2 ^ 31 then doubled (bufSize * 2) size else none
  else some bufSize
termination_by (size - bufSize).toNat

/-- `__io_WriteConsole_ResizeBuffer`. The null pointer has room for nothing. -/
def resizeBuffer (block : Option (Nat → UInt16)) (s : ConsoleBuffer) (size : Int) : Option ConsoleBuffer :=
  if s.bufSize < size then
    (doubled s.bufSize size).map fun bufSize =>
      match block with
      | some contents => { bufSize, count := size.toNat, contents }
      | none => { s with bufSize, count := 0 }
  else some s

/-- `__io_WriteConsole_buffer[j] = c`. A write outside of the buffer is undefined. -/
def store (s : ConsoleBuffer) (j : Nat) (c : UInt16) : Option ConsoleBuffer :=
  if j < s.count then some { s with contents := Function.update s.contents j c } else none

def storeFrom (s : ConsoleBuffer) : Nat → List UInt16 → Option ConsoleBuffer
  | _, [] => some s
  | j, c :: cs => (s.store j c).bind fun s => s.storeFrom (j + 1) cs

/-- The code points of the bytes that `len`, an `int`, counts. -/
def codepoints (str : List UInt8) : List UInt32 := (decodeAll (str.take (toInt str.length).toNat) 0).1

/-- The text is put into a buffer that was resized for it. An overflow of the size is undefined. -/
def convert (block : Option (Nat → UInt16)) (s : ConsoleBuffer) (size : Int) (text : List UInt16) :
    Option ConsoleBuffer :=
  if size < 2 ^ 31 then (s.resizeBuffer block size).bind fun s => s.storeFrom 0 text else none

/-- `__io_WriteConsoleUTF8` -/
def writeConsoleUTF8 (block : Option (Nat → UInt16)) (s : ConsoleBuffer) (str : List UInt8) :
    Option ConsoleBuffer :=
  s.convert block ((codepoints str).length + 1) ((codepoints str).map UInt32.toUInt16 ++ [0])

def ofChar (c : UInt8) : UInt16 := c.toInt8.toInt16.toUInt16

/-- `__io_WriteConsoleASCII`. With a frame buffer nothing is converted. -/
def writeConsoleASCII (block : Option (Nat → UInt16)) (framebuffer : Bool) (s : ConsoleBuffer)
    (str : List UInt8) : Option ConsoleBuffer :=
  if framebuffer then some s
  else
    let size := toInt str.length + 1
    s.convert block size (((str ++ [0]).take size.toNat).map ofChar)

/-- A call. `quiet` is the flag `HELOS_RUNTIME_QUIET`. -/
def step (quiet : Bool) (s : ConsoleBuffer) (c : ConsoleCall) : Option ConsoleBuffer :=
  match c.function with
  | .writeConsole => if quiet then some s else s.writeConsoleUTF8 c.block c.str
  | .writeConsoleASCII => if quiet then some s else s.writeConsoleASCII c.block c.framebuffer c.str
  | .error => s.writeConsoleUTF8 c.block c.str
  | .errorASCII => s.writeConsoleASCII c.block c.framebuffer c.str

def boot : ConsoleBuffer where
  bufSize := 512
  count := 512
  contents := fun _ => 0

variable {s s' : ConsoleBuffer} {size : Int} {text : List UInt16} {block : Option (Nat → UInt16)}

/-! ### Growth -/

theorem doubled_reaches {bufSize : Int} (hpos : 0 < bufSize) {k : Nat} (hlt : bufSize * 2 ^ k < 2 ^ 31) :
    doubled bufSize (bufSize * 2 ^ k) = some (bufSize * 2 ^ k) := by
  induction k generalizing bufSize with
  | zero =>
    rw [pow_zero, Int.mul_one, doubled, if_neg (Int.lt_irrefl _)]
  | succ k ih =>
    have hstep : bufSize * 2 ^ (k + 1) = bufSize * 2 * 2 ^ k := by rw [pow_succ', Int.mul_assoc]
    have hpow : (0 : Int) < 2 ^ k := Int.pow_pos (by decide)
    have hle : bufSize * 2 ≤ bufSize * 2 * 2 ^ k := by
      calc bufSize * 2 = bufSize * 2 * 1 := (Int.mul_one _).symm
        _ ≤ bufSize * 2 * 2 ^ k := Int.mul_le_mul_of_nonneg_left hpow (by omega)
    rw [hstep] at hlt ⊢
    rw [doubled, if_pos (by omega), if_pos ⟨hpos, by omega⟩]
    exact ih (by omega) hlt

theorem storeFrom_eq {j : Nat} (h : s.storeFrom j text = some s') :
    s'.bufSize = s.bufSize ∧ s'.count = s.count ∧ (text ≠ [] → j + text.length ≤ s.count) := by
  induction text generalizing s j with
  | nil =>
    obtain rfl := Option.some.inj h
    exact ⟨rfl, rfl, fun hne => absurd rfl hne⟩
  | cons c text ih =>
    obtain ⟨s₁, hstore, hrest⟩ := Option.bind_eq_some_iff.mp h
    obtain ⟨hlt, heq⟩ := Option.ite_none_right_eq_some.mp hstore
    obtain rfl := Option.some.inj heq
    obtain ⟨hsize, hcount, hinside⟩ := ih hrest
    refine ⟨hsize, hcount, fun _ => ?_⟩
    cases text with
    | nil => exact hlt
    | cons c' text =>
      have hle := hinside (List.cons_ne_nil _ _)
      simp only [List.length_cons] at hle ⊢
      omega

theorem exists_storeFrom {j : Nat} (h : j + text.length ≤ s.count) :
    ∃ s', s.storeFrom j text = some s' := by
  induction text generalizing s j with
  | nil => exact ⟨s, rfl⟩
  | cons c text ih =>
    rw [List.length_cons] at h
    obtain ⟨s', hrest⟩ := ih (s := { s with contents := Function.update s.contents j c }) (j := j + 1)
      (by simp only; omega)
    exact ⟨s', Option.bind_eq_some_iff.mpr ⟨_, if_pos (by omega), hrest⟩⟩

/-! ### Calls -/

def Enough (s : ConsoleBuffer) : Prop := s.bufSize ≤ s.count

structure Invariant (s : ConsoleBuffer) : Prop where
  size_eq : s.bufSize = s.count
  pos : 0 < s.bufSize
  lt : s.bufSize < 2 ^ 31

/-- The text fits, or doubling arrives at just the size that is needed and there is a block. -/
def Suits (s : ConsoleBuffer) (block : Option (Nat → UInt16)) (size : Int) : Prop :=
  size ≤ s.bufSize ∨ size < 2 ^ 31 ∧ (∃ k : Nat, size = s.bufSize * 2 ^ k) ∧ block.isSome

theorem Invariant.convert (h : Invariant s) (hlength : text.length = size.toNat)
    (hsuits : s.Suits block size) : ∃ s', s.convert block size text = some s' ∧ Invariant s' := by
  have heq := h.size_eq
  have hpos := h.pos
  have hlt := h.lt
  obtain ⟨s₁, hresize, hinvariant, hroom⟩ : ∃ s₁, s.resizeBuffer block size = some s₁ ∧ Invariant s₁ ∧
      size ≤ s₁.count := by
    unfold resizeBuffer
    by_cases hfits : s.bufSize < size
    · obtain hle | ⟨hsize, ⟨k, rfl⟩, hblock⟩ := hsuits
      · exact absurd hle (Int.not_le.mpr hfits)
      obtain ⟨contents, rfl⟩ := Option.isSome_iff_exists.mp hblock
      rw [if_pos hfits, doubled_reaches hpos hsize]
      exact ⟨_, rfl, ⟨by simp only; omega, by simp only; omega, hsize⟩, by simp only; omega⟩
    · rw [if_neg hfits]
      exact ⟨s, rfl, h, by omega⟩
  obtain ⟨s', hstore⟩ : ∃ s', s₁.storeFrom 0 text = some s' := exists_storeFrom (by omega)
  obtain ⟨hsize', hcount', -⟩ := storeFrom_eq hstore
  refine ⟨s', ?_, hsize' ▸ hcount' ▸ hinvariant.size_eq, hsize' ▸ hinvariant.pos, hsize' ▸ hinvariant.lt⟩
  have hint : size < 2 ^ 31 := by
    obtain hle | ⟨hsize, -⟩ := hsuits
    · omega
    · exact hsize
  unfold ConsoleBuffer.convert
  rw [if_pos hint, hresize, Option.bind_some, hstore]

theorem grown (h : s.convert block size text = some s') (hlength : text.length = size.toNat)
    (hlarge : s.bufSize < size) (hpos : 0 < size) :
    doubled s.bufSize size = some s'.bufSize ∧ (s'.count : Int) = size ∧ block.isSome := by
  obtain ⟨-, hrun⟩ := Option.ite_none_right_eq_some.mp h
  obtain ⟨s₁, hresize, hstore⟩ := Option.bind_eq_some_iff.mp hrun
  obtain ⟨hsize', hcount', hinside⟩ := storeFrom_eq hstore
  unfold resizeBuffer at hresize
  rw [if_pos hlarge] at hresize
  obtain ⟨bufSize', hdoubled, hs₁⟩ := Option.map_eq_some_iff.mp hresize
  rw [hsize', hcount']
  cases block with
  | none =>
    obtain rfl := hs₁
    have hroom := hinside (List.ne_nil_of_length_pos (by omega))
    simp only at hroom
    omega
  | some contents =>
    obtain rfl := hs₁
    exact ⟨hdoubled, by simp only; omega, rfl⟩

theorem kept (h : s.convert block size text = some s') (hlength : text.length = size.toNat)
    (hsmall : size ≤ s.bufSize) (hpos : 0 < size) : size ≤ s.count := by
  obtain ⟨-, hrun⟩ := Option.ite_none_right_eq_some.mp h
  obtain ⟨s₁, hresize, hstore⟩ := Option.bind_eq_some_iff.mp hrun
  obtain ⟨-, -, hinside⟩ := storeFrom_eq hstore
  unfold resizeBuffer at hresize
  rw [if_neg (Int.not_lt.mpr hsmall)] at hresize
  obtain rfl := Option.some.inj hresize
  have hroom := hinside (List.ne_nil_of_length_pos (by omega))
  omega

end ConsoleBuffer

open ConsoleBuffer

namespace ConsoleBuffer

variable {s s' : ConsoleBuffer} {c : ConsoleCall}

end ConsoleBuffer

end Helos
