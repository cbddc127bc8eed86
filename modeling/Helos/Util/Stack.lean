import Helos.Theory.Lifo
import Helos.Theory.Refinement
import Mathlib.Order.Nat

/-!
# The byte stack

`util/stack.c`. The pointer `top` is an offset from `data`, and a function is undefined (`none`) when it
reads or writes outside the buffer, or moves `top` below `data`. What the calls print is left out.
-/

namespace Helos

structure Stack where
  data : List UInt8
  size : Nat
  top : Nat
deriving DecidableEq

namespace Stack

/-- `stack_InitBuffered`, on a buffer of `size` bytes. -/
def initBuffered (buffer : List UInt8) : Stack :=
  { data := buffer, size := buffer.length, top := buffer.length }

def lower (s : Stack) (n : Nat) : Option Stack :=
  if n ≤ s.top then some { s with top := s.top - n } else none

/-- `memcpy` to the place that `top` points to, and from there -/
def write (s : Stack) (bytes : List UInt8) : Option Stack :=
  if s.top + bytes.length ≤ s.data.length then
    some { s with data := s.data.take s.top ++ bytes ++ s.data.drop (s.top + bytes.length) }
  else none

def read (s : Stack) (n : Nat) : Option (List UInt8) :=
  if s.top + n ≤ s.data.length then some ((s.data.drop s.top).take n) else none

def empty (s : Stack) : Bool := s.top = s.size

/-- `stack_Size` and `stack_Space` -/
def length (s : Stack) : Nat := s.size - s.top

def space (s : Stack) : Nat := s.top

def pushByte (s : Stack) (b : UInt8) : Option Stack :=
  if s.top ≤ 0 then some s -- full
  else do
    let s ← s.lower 1
    s.write [b]

def popByte (s : Stack) : Option (Stack × UInt8) :=
  if s.top = s.size then some (s, 0)
  else do
    let b ← s.data[s.top]?
    some ({ s with top := s.top + 1 }, b)

def push (s : Stack) (buffer : List UInt8) : Option Stack :=
  if s.space < buffer.length then some s
  else do
    let s ← s.lower buffer.length
    s.write buffer

/-- What `stack_Pop` returns, and the bytes it writes to the caller's buffer. -/
def pop (s : Stack) (size : Nat) : Option (Stack × Nat × List UInt8) :=
  if s.length < size then some (s, 0, [])
  else do
    let bytes ← s.read size
    some ({ s with top := s.top + size }, size, bytes)

def topByte (s : Stack) : Option UInt8 := if s.empty then some 0 else s.data[s.top]?

/-- `stack_Top` -/
def topBytes (s : Stack) (size : Nat) : Option (Nat × List UInt8) :=
  if s.length < size then some (0, [])
  else do
    let bytes ← s.read size
    some (size, bytes)

def clear (s : Stack) : Stack := { s with top := s.size }

def step (s : Stack) : Lifo.Call UInt8 → Option (Stack × Lifo.Reply UInt8)
  | .pushOne b => do
    let s ← s.pushByte b
    some (s, .done)
  | .popOne => do
    let (s, b) ← s.popByte
    some (s, .one b)
  | .topOne => do
    let b ← s.topByte
    some (s, .one b)
  | .push buffer => do
    let s ← s.push buffer
    some (s, .done)
  | .pop size => do
    let (s, n, bytes) ← s.pop size
    some (s, .many n bytes)
  | .top size => do
    let (n, bytes) ← s.topBytes size
    some (s, .many n bytes)
  | .clear => some (s.clear, .done)

/-! ### The contents of a stack -/

/-- The bytes on the stack, from the top on. -/
structure Contains (s : Stack) (xs : List UInt8) : Prop where
  size : s.data.length = s.size
  top : s.top ≤ s.size
  holds : s.data.drop s.top = xs

variable {s : Stack} {xs : List UInt8}

theorem contains_initBuffered (buffer : List UInt8) : (initBuffered buffer).Contains [] :=
  ⟨rfl, le_rfl, List.drop_length⟩

theorem Contains.length_eq (h : s.Contains xs) : xs.length = s.size - s.top := by
  rw [← h.holds, List.length_drop, h.size]

theorem Contains.space_eq (h : s.Contains xs) : s.size - xs.length = s.top := by
  have hlen := h.length_eq
  have htop := h.top
  omega

/-- Both ways of pushing lower `top` by the length of what they write there. -/
theorem lower_write (h : s.Contains xs) {bytes : List UInt8} (hroom : bytes.length ≤ s.top) :
    ∃ s', (s.lower bytes.length >>= fun s => s.write bytes) = some s' ∧
      s'.Contains (bytes ++ xs) ∧ s'.size = s.size ∧ s'.top = s.top - bytes.length := by
  have htop := h.top
  have hsize := h.size
  have hend : s.top - bytes.length + bytes.length = s.top := Nat.sub_add_cancel hroom
  have htake : (s.data.take (s.top - bytes.length)).length = s.top - bytes.length := by
    rw [List.length_take]
    omega
  refine ⟨{ s with
    data := s.data.take (s.top - bytes.length) ++ bytes ++ s.data.drop s.top
    top := s.top - bytes.length }, ?_, ⟨?_, (Nat.sub_le _ _).trans htop, ?_⟩, rfl, rfl⟩
  · have hfits : s.top ≤ s.data.length := htop.trans hsize.ge
    simp only [lower, if_pos hroom, Option.bind_eq_bind, Option.bind_some, write, hend, if_pos hfits]
  · rw [List.length_append, List.length_append, htake, List.length_drop]
    dsimp only
    omega
  · rw [List.append_assoc, List.drop_left' htake, h.holds]

theorem read_eq (h : s.Contains xs) {n : Nat} (hn : n ≤ xs.length) : s.read n = some (xs.take n) := by
  have hlen := h.length_eq
  have hfits : s.top + n ≤ s.data.length := by
    rw [h.size]
    have htop := h.top
    omega
  rw [read, if_pos hfits, h.holds]

theorem Contains.raise (h : s.Contains xs) {n : Nat} (hn : n ≤ xs.length) :
    Contains { s with top := s.top + n } (xs.drop n) := by
  have hlen := h.length_eq
  refine ⟨h.size, ?_, ?_⟩
  · have htop := h.top
    dsimp only
    omega
  · rw [← h.holds, List.drop_drop]

/-! ### The calls -/

theorem pushByte_full (h : s.Contains xs) (hfull : s.size ≤ xs.length) (b : UInt8) :
    s.pushByte b = some s := by
  have hlen := h.length_eq
  have htop := h.top
  exact if_pos (by omega)

theorem pushByte_room (h : s.Contains xs) (hroom : xs.length < s.size) (b : UInt8) :
    ∃ s', s.pushByte b = some s' ∧ s'.Contains (b :: xs) ∧ s'.size = s.size := by
  have hlen := h.length_eq
  have hpos : 0 < s.top := by omega
  have hone : [b].length ≤ s.top := hpos
  obtain ⟨s', hs', hcontains, hsize, -⟩ := lower_write h hone
  exact ⟨s', (if_neg (Nat.not_le.mpr hpos)).trans hs', hcontains, hsize⟩

theorem popByte_nil (h : s.Contains []) : s.popByte = some (s, 0) ∧ s.topByte = some 0 := by
  have hlen := h.length_eq
  have htop := h.top
  have heq : s.top = s.size := by
    rw [List.length_nil] at hlen
    omega
  exact ⟨if_pos heq, if_pos (decide_eq_true heq)⟩

theorem popByte_cons {b : UInt8} (h : s.Contains (b :: xs)) :
    s.popByte = some ({ s with top := s.top + 1 }, b) ∧ s.topByte = some b := by
  have hlen := h.length_eq
  have hne : s.top ≠ s.size := by
    rw [List.length_cons] at hlen
    omega
  have hb : s.data[s.top]? = some b := by
    rw [← Nat.add_zero s.top, ← List.getElem?_drop, h.holds]
    rfl
  constructor
  · simp only [popByte, if_neg hne, hb, Option.bind_eq_bind, Option.bind_some]
  · rw [topByte, empty, if_neg (by simpa using hne), hb]

theorem push_full (h : s.Contains xs) {buffer : List UInt8} (hfull : s.size - xs.length < buffer.length) :
    s.push buffer = some s := by
  rw [h.space_eq] at hfull
  exact if_pos hfull

theorem push_room (h : s.Contains xs) {buffer : List UInt8} (hroom : buffer.length ≤ s.space) :
    ∃ s', s.push buffer = some s' ∧ s'.Contains (buffer ++ xs) ∧ s'.size = s.size ∧
      s'.top = s.top - buffer.length := by
  rw [push, if_neg (Nat.not_lt.mpr hroom)]
  exact lower_write h hroom

theorem pop_short (h : s.Contains xs) {n : Nat} (hn : xs.length < n) :
    s.pop n = some (s, 0, []) ∧ s.topBytes n = some (0, []) := by
  rw [h.length_eq] at hn
  exact ⟨if_pos hn, if_pos hn⟩

theorem pop_enough (h : s.Contains xs) {n : Nat} (hn : n ≤ xs.length) :
    s.pop n = some ({ s with top := s.top + n }, n, xs.take n) ∧ s.topBytes n = some (n, xs.take n) := by
  have henough : ¬ s.length < n := by
    rw [length, ← h.length_eq]
    exact Nat.not_lt.mpr hn
  constructor
  · simp only [pop, if_neg henough, read_eq h hn, Option.bind_eq_bind, Option.bind_some]
  · simp only [topBytes, if_neg henough, read_eq h hn, Option.bind_eq_bind, Option.bind_some]

/-- One call on a stack and on the bytes it contains. -/
theorem step_refines (h : s.Contains xs) (c : Lifo.Call UInt8) :
    ∃ s', s.step c = some (s', (Lifo.step s.size 0 xs c).2) ∧
      s'.Contains (Lifo.step s.size 0 xs c).1 ∧ s'.size = s.size := by
  cases c with
  | pushOne b =>
    rcases Nat.lt_or_ge xs.length s.size with hroom | hfull
    · obtain ⟨s', hs', hcontains, hsize⟩ := pushByte_room h hroom b
      rw [Lifo.step_pushOne_room hroom, step, hs']
      exact ⟨s', rfl, hcontains, hsize⟩
    · rw [Lifo.step_pushOne_full hfull, step, pushByte_full h hfull]
      exact ⟨s, rfl, h, rfl⟩
  | popOne =>
    cases xs with
    | nil =>
      rw [step, (popByte_nil h).1]
      exact ⟨s, rfl, h, rfl⟩
    | cons b xs =>
      rw [step, (popByte_cons h).1]
      exact ⟨_, rfl, h.raise (Nat.le_add_left _ _), rfl⟩
  | topOne =>
    cases xs with
    | nil =>
      rw [step, (popByte_nil h).2]
      exact ⟨s, rfl, h, rfl⟩
    | cons b xs =>
      rw [step, (popByte_cons h).2]
      exact ⟨s, rfl, h, rfl⟩
  | push buffer =>
    rcases Nat.lt_or_ge (s.size - xs.length) buffer.length with hfull | hroom
    · rw [Lifo.step_push_full hfull, step, push_full h hfull]
      exact ⟨s, rfl, h, rfl⟩
    · obtain ⟨s', hs', hcontains, hsize, -⟩ := push_room h (h.space_eq ▸ hroom)
      rw [Lifo.step_push_room hroom, step, hs']
      exact ⟨s', rfl, hcontains, hsize⟩
  | pop size =>
    rcases Nat.lt_or_ge xs.length size with hshort | henough
    · rw [Lifo.step_pop_short hshort, step, (pop_short h hshort).1]
      exact ⟨s, rfl, h, rfl⟩
    · rw [Lifo.step_pop_enough henough, step, (pop_enough h henough).1]
      exact ⟨_, rfl, h.raise henough, rfl⟩
  | top size =>
    rcases Nat.lt_or_ge xs.length size with hshort | henough
    · rw [Lifo.step_top_short hshort, step, (pop_short h hshort).2]
      exact ⟨s, rfl, h, rfl⟩
    · rw [Lifo.step_top_enough henough, step, (pop_enough h henough).2]
      exact ⟨s, rfl, h, rfl⟩
  | clear => exact ⟨s.clear, rfl, ⟨h.size, le_rfl, List.drop_eq_nil_of_le h.size.le⟩, rfl⟩

/-- What was pushed last comes back first, and what was there before is there again. -/
theorem push_pop (h : s.Contains xs) {block : List UInt8} (hroom : block.length ≤ s.space) :
    ∃ s' s'', s.push block = some s' ∧ s'.Contains (block ++ xs) ∧
      s'.pop block.length = some (s'', block.length, block) ∧ s''.Contains xs ∧ s''.top = s.top := by
  obtain ⟨s', hpush, hcontains, -, htop⟩ := push_room h hroom
  have hle : block.length ≤ (block ++ xs).length := by
    rw [List.length_append]
    exact Nat.le_add_right _ _
  have hpop := (pop_enough hcontains hle).1
  have hback := hcontains.raise hle
  rw [List.take_left] at hpop
  rw [List.drop_left] at hback
  refine ⟨s', _, hpush, hcontains, hpop, hback, ?_⟩
  dsimp only
  rw [htop]
  exact Nat.sub_add_cancel hroom

/-- After any calls on an empty stack, every call has been answered as by a bounded stack of bytes, and
a block goes on or comes off as a whole or not at all. -/
theorem refines_lifo (buffer : List UInt8) (calls : List (Lifo.Call UInt8)) :
    ∃ s xs,
      Refinement.run step (initBuffered buffer) calls =
        some (s, (Refinement.replies (Lifo.step buffer.length 0) [] calls).2) ∧
      xs = (Refinement.replies (Lifo.step buffer.length 0) [] calls).1 ∧
      s.Contains xs ∧ s.length = xs.length ∧ s.length + s.space = buffer.length ∧
      (∀ block : List UInt8, s.space < block.length → s.push block = some s) ∧
      (∀ block : List UInt8, block.length ≤ s.space →
        ∃ s' s'', s.push block = some s' ∧ s'.Contains (block ++ xs) ∧
          s'.pop block.length = some (s'', block.length, block) ∧ s''.Contains xs ∧
          s''.top = s.top) ∧
      (∀ size, s.length < size → s.pop size = some (s, 0, []) ∧ s.topBytes size = some (0, [])) ∧
      ∀ size, size ≤ s.length →
        (∃ s', s.pop size = some (s', size, xs.take size) ∧ s'.Contains (xs.drop size)) ∧
          s.topBytes size = some (size, xs.take size) := by
  have hinit : (initBuffered buffer).Contains [] ∧ (initBuffered buffer).size = buffer.length :=
    ⟨contains_initBuffered buffer, rfl⟩
  have hstep : ∀ (s : Stack) (xs : List UInt8) (c : Lifo.Call UInt8),
      s.Contains xs ∧ s.size = buffer.length →
        ∃ s', s.step c = some (s', (Lifo.step buffer.length 0 xs c).2) ∧
          s'.Contains (Lifo.step buffer.length 0 xs c).1 ∧ s'.size = buffer.length := by
    intro s xs c h
    rw [← h.2]
    exact step_refines h.1 c
  obtain ⟨s, hrun, hcontains, hsize⟩ := Refinement.run_refines hstep hinit calls
  have hlength := hcontains.length_eq
  refine ⟨s, _, hrun, rfl, hcontains, hlength.symm, ?_, fun block hfull => if_pos hfull,
    fun block hroom => push_pop hcontains hroom, ?_, ?_⟩
  · rw [length, space, Nat.sub_add_cancel hcontains.top, hsize]
  · intro size hshort
    exact ⟨if_pos hshort, if_pos hshort⟩
  · intro size henough
    have hn := henough.trans_eq hlength.symm
    exact ⟨⟨_, (pop_enough hcontains hn).1, hcontains.raise hn⟩, (pop_enough hcontains hn).2⟩

end Stack

end Helos
