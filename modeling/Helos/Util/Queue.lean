import Helos.Theory.Ring

/-!
# The byte queue

`util/queue.c`. The pointers `begin` and `end` are offsets from `data`, and a function is undefined
(`none`) when it reads or writes past the buffer. The calls that only print are left out.
-/

namespace Helos

structure Queue where
  data : List UInt8
  size : Nat
  beginAt : Nat
  endAt : Nat
  count : Nat
deriving DecidableEq

namespace Queue

/-- `queue_InitBuffered`, on a buffer of `size` bytes. -/
def initBuffered (buffer : List UInt8) : Queue :=
  { data := buffer, size := buffer.length, beginAt := 0, endAt := 0, count := 0 }

def store (q : Queue) (i : Nat) (b : UInt8) : Option Queue :=
  if i < q.data.length then some { q with data := q.data.set i b } else none

def pushByte (q : Queue) (b : UInt8) : Option Queue :=
  if q.count = q.size then some q -- no more space
  else do
    let q ← { q with count := q.count + 1 }.store q.endAt b
    let endAt := q.endAt + 1
    some { q with endAt := if endAt = q.size then 0 else endAt }

def popByte (q : Queue) : Option (Queue × UInt8) :=
  if q.count = 0 then some (q, 0)
  else do
    let data ← q.data[q.beginAt]?
    let beginAt := q.beginAt + 1
    some
      ({ q with count := q.count - 1, beginAt := if beginAt = q.size then 0 else beginAt }, data)

/-- `queue_Size` and `queue_Space` -/
def length (q : Queue) : Nat := q.count

def space (q : Queue) : Nat := q.size - q.count

def push (q : Queue) (buffer : List UInt8) : Option Queue :=
  if q.space < buffer.length then some q else buffer.foldlM pushByte q

/-- The loop of `queue_Pop`. -/
def popBytes (q : Queue) : Nat → Option (Queue × List UInt8)
  | 0 => some (q, [])
  | size + 1 => do
    let (q, b) ← q.popByte
    let (q, bytes) ← q.popBytes size
    some (q, b :: bytes)

/-- What `queue_Pop` returns, and the bytes it writes to the caller's buffer. -/
def pop (q : Queue) (size : Nat) : Option (Queue × Nat × List UInt8) :=
  if q.length < size then some (q, 0, [])
  else do
    let (q, bytes) ← q.popBytes size
    some (q, size, bytes)

def frontByte (q : Queue) : Option UInt8 := if q.count = 0 then some 0 else q.data[q.beginAt]?

def step (q : Queue) : Fifo.Call UInt8 → Option (Queue × Fifo.Reply UInt8)
  | .pushOne b => do
    let q ← q.pushByte b
    some (q, .done)
  | .popOne => do
    let (q, b) ← q.popByte
    some (q, .one b)
  | .push buffer => do
    let q ← q.push buffer
    some (q, .done)
  | .pop size => do
    let (q, n, bytes) ← q.pop size
    some (q, .many n bytes)
  | .front => do
    let b ← q.frontByte
    some (q, .one b)

/-! ### The contents of a queue -/

/-- The bytes in the queue, oldest first. An empty buffer has nowhere to point to. -/
structure Contains (q : Queue) (xs : List UInt8) : Prop where
  size : q.data.length = q.size
  count : q.count = xs.length
  holds : Ring.Holds q.data q.beginAt xs
  beginAt : 0 < q.size → q.beginAt < q.size
  endAt : 0 < q.size → q.endAt = (q.beginAt + xs.length) % q.size

variable {q : Queue} {xs : List UInt8} {b : UInt8}

theorem contains_initBuffered (buffer : List UInt8) : (initBuffered buffer).Contains [] :=
  ⟨rfl, rfl, Ring.holds_nil _ _, id, fun h => (Nat.mod_eq_of_lt h).symm⟩

theorem Contains.le_size (h : q.Contains xs) : xs.length ≤ q.size := h.size ▸ h.holds.fits

theorem Contains.space_eq (h : q.Contains xs) : q.space = q.size - xs.length := by
  rw [space, h.count]

theorem Contains.unique {ys : List UInt8} (h : q.Contains xs) (h' : q.Contains ys) : xs = ys := by
  apply List.ext_getElem (h.count.symm.trans h'.count)
  intro i hi hi'
  exact Option.some.inj ((h.holds.cell i hi).symm.trans (h'.holds.cell i hi'))

theorem pushByte_full (h : q.Contains xs) (hfull : xs.length = q.size) (b : UInt8) :
    q.pushByte b = some q :=
  if_pos (h.count.trans hfull)

theorem pushByte_room (h : q.Contains xs) (hroom : xs.length < q.size) (b : UInt8) :
    ∃ q', q.pushByte b = some q' ∧ q'.Contains (xs ++ [b]) ∧ q'.size = q.size := by
  have hpos : 0 < q.size := Nat.zero_lt_of_lt hroom
  have hend : q.endAt < q.size := h.endAt hpos ▸ Nat.mod_lt _ hpos
  have hnext := Ring.next_eq_mod hend
  unfold Ring.next at hnext
  have hcount : q.count ≠ q.size := by
    have hlen := h.count
    omega
  refine ⟨{ q with
    data := q.data.set q.endAt b
    count := q.count + 1
    endAt := if q.endAt + 1 = q.size then 0 else q.endAt + 1 }, ?_, ⟨?_, ?_, ?_, h.beginAt, ?_⟩, rfl⟩
  · simp only [pushByte, if_neg hcount, store, h.size, if_pos hend, Option.bind_eq_bind,
      Option.bind_some]
  · simpa using h.size
  · simpa using h.count
  · have hpush := h.holds.push (h.size ▸ hroom) b
    rwa [h.size, ← h.endAt hpos] at hpush
  · intro _
    calc
      (if q.endAt + 1 = q.size then 0 else q.endAt + 1) = (q.endAt + 1) % q.size := hnext
      _ = (q.beginAt + (xs ++ [b]).length) % q.size := by
        rw [h.endAt hpos, Nat.mod_add_mod, List.length_append, List.length_singleton, Nat.add_assoc]

theorem popByte_nil (h : q.Contains []) : q.popByte = some (q, 0) := if_pos h.count

theorem popByte_cons (h : q.Contains (b :: xs)) :
    ∃ q', q.popByte = some (q', b) ∧ q'.Contains xs ∧ q'.size = q.size := by
  have hpos : 0 < q.size := Nat.lt_of_lt_of_le (Nat.zero_lt_succ _) h.le_size
  have hbegin := h.beginAt hpos
  have hnext := Ring.next_eq_mod hbegin
  unfold Ring.next at hnext
  have hcount : q.count ≠ 0 := h.count ▸ Nat.succ_ne_zero _
  have hfront : q.data[q.beginAt]? = some b := by
    have hcell := h.holds.front
    rwa [h.size, Nat.mod_eq_of_lt hbegin] at hcell
  refine ⟨{ q with
    count := q.count - 1
    beginAt := if q.beginAt + 1 = q.size then 0 else q.beginAt + 1 }, ?_,
    ⟨h.size, ?_, ?_, fun _ => ?_, fun _ => ?_⟩, rfl⟩
  · simp only [popByte, if_neg hcount, hfront, Option.bind_eq_bind, Option.bind_some]
  · simp [h.count]
  · have hpop := h.holds.pop
    rw [h.size, ← hnext] at hpop
    exact hpop
  · exact Ring.next_lt hbegin
  · simp only [hnext, Nat.mod_add_mod, h.endAt hpos, List.length_cons]
    rw [Nat.add_assoc, Nat.add_comm 1]

theorem frontByte_eq (h : q.Contains xs) : q.frontByte = some (xs.headD 0) := by
  cases xs with
  | nil => exact if_pos h.count
  | cons b xs =>
    have hpos : 0 < q.size := Nat.lt_of_lt_of_le (Nat.zero_lt_succ _) h.le_size
    have hcell := h.holds.front
    rw [h.size, Nat.mod_eq_of_lt (h.beginAt hpos)] at hcell
    rw [frontByte, if_neg (h.count ▸ Nat.succ_ne_zero _), hcell, List.headD_cons]

theorem pushBytes_room (h : q.Contains xs) (buffer : List UInt8)
    (hroom : xs.length + buffer.length ≤ q.size) :
    ∃ q', buffer.foldlM pushByte q = some q' ∧ q'.Contains (xs ++ buffer) ∧ q'.size = q.size := by
  induction buffer generalizing q xs with
  | nil => exact ⟨q, rfl, (List.append_nil xs).symm ▸ h, rfl⟩
  | cons b buffer ih =>
    rw [List.length_cons] at hroom
    obtain ⟨q₁, h₁, hcontains, hsize⟩ := pushByte_room h (by omega) b
    obtain ⟨q', hrest, hcontains', hsize'⟩ := ih hcontains (by
      rw [List.length_append, List.length_singleton, hsize]
      omega)
    refine ⟨q', ?_, ?_, hsize'.trans hsize⟩
    · rw [List.foldlM_cons, h₁]
      exact hrest
    · rwa [List.append_assoc, List.singleton_append] at hcontains'

theorem popBytes_eq (h : q.Contains xs) {size : Nat} (hsize : size ≤ xs.length) :
    ∃ q', q.popBytes size = some (q', xs.take size) ∧ q'.Contains (xs.drop size) ∧
      q'.size = q.size := by
  induction size generalizing q xs with
  | zero => exact ⟨q, rfl, h, rfl⟩
  | succ size ih =>
    cases xs with
    | nil => exact absurd hsize (Nat.not_succ_le_zero _)
    | cons b xs =>
      obtain ⟨q₁, h₁, hcontains, hsize₁⟩ := popByte_cons h
      obtain ⟨q', hrest, hcontains', hsize'⟩ := ih hcontains (Nat.le_of_succ_le_succ hsize)
      refine ⟨q', ?_, hcontains', hsize'.trans hsize₁⟩
      simp only [popBytes, h₁, hrest, Option.bind_eq_bind, Option.bind_some, List.take_succ_cons]

/-- One call on a queue and on the bytes it contains. -/
theorem step_refines (h : q.Contains xs) (c : Fifo.Call UInt8) :
    ∃ q', q.step c = some (q', (Fifo.step q.size 0 xs c).2) ∧
      q'.Contains (Fifo.step q.size 0 xs c).1 ∧ q'.size = q.size := by
  have hspace := h.space_eq
  cases c with
  | pushOne b =>
    by_cases hfull : xs.length = q.size
    · exact ⟨q, by simp [step, Fifo.step, pushByte_full h hfull], by simpa [Fifo.step, hfull] using h,
        rfl⟩
    · obtain ⟨q', h₁, hcontains, hsize⟩ := pushByte_room h (Nat.lt_of_le_of_ne h.le_size hfull) b
      exact ⟨q', by simp [step, Fifo.step, h₁], by simpa [Fifo.step, hfull] using hcontains, hsize⟩
  | popOne =>
    cases xs with
    | nil => exact ⟨q, by simp [step, Fifo.step, popByte_nil h], h, rfl⟩
    | cons b xs =>
      obtain ⟨q', h₁, hcontains, hsize⟩ := popByte_cons h
      exact ⟨q', by simp [step, Fifo.step, h₁], hcontains, hsize⟩
  | push buffer =>
    by_cases hroom : q.size - xs.length < buffer.length
    · exact ⟨q, by simp [step, Fifo.step, push, hspace, hroom], by simpa [Fifo.step, hroom] using h,
        rfl⟩
    · have hle := h.le_size
      obtain ⟨q', h₁, hcontains, hsize⟩ := pushBytes_room h buffer (by omega)
      refine ⟨q', ?_, by simpa [Fifo.step, hroom] using hcontains, hsize⟩
      simp [step, Fifo.step, push, hspace, hroom, h₁]
  | pop size =>
    by_cases hfew : xs.length < size
    · exact ⟨q, by simp [step, Fifo.step, pop, length, h.count, hfew],
        by simpa [Fifo.step, hfew] using h, rfl⟩
    · obtain ⟨q', h₁, hcontains, hsize⟩ := popBytes_eq h (Nat.le_of_not_lt hfew)
      refine ⟨q', ?_, by simpa [Fifo.step, hfew] using hcontains, hsize⟩
      simp [step, Fifo.step, pop, length, h.count, hfew, h₁]
  | front => exact ⟨q, by simp [step, Fifo.step, frontByte_eq h], h, rfl⟩

/-- From an empty queue on, the replies are those of a bounded queue of as many places as the buffer
has bytes, and what was taken in is what was given out followed by what is still there. -/
theorem refines_fifo (buffer : List UInt8) (calls : List (Fifo.Call UInt8)) :
    ∃ q xs,
      Refinement.run step (initBuffered buffer) calls =
        some (q, (Refinement.replies (Fifo.step buffer.length 0) [] calls).2) ∧
      xs = (Refinement.replies (Fifo.step buffer.length 0) [] calls).1 ∧
      q.Contains xs ∧ q.length = xs.length ∧ q.space = buffer.length - xs.length ∧
      Fifo.allAccepted buffer.length 0 [] calls = Fifo.allTaken buffer.length 0 [] calls ++ xs := by
  have hinit : (initBuffered buffer).Contains [] ∧ (initBuffered buffer).size = buffer.length :=
    ⟨contains_initBuffered buffer, rfl⟩
  have hstep : ∀ (q : Queue) (xs : List UInt8) (c : Fifo.Call UInt8),
      q.Contains xs ∧ q.size = buffer.length →
        ∃ q', q.step c = some (q', (Fifo.step buffer.length 0 xs c).2) ∧
          q'.Contains (Fifo.step buffer.length 0 xs c).1 ∧ q'.size = buffer.length := by
    intro q xs c h
    rw [← h.2]
    exact step_refines h.1 c
  obtain ⟨q, hrun, hcontains, hsize⟩ := Refinement.run_refines hstep hinit calls
  refine ⟨q, _, hrun, rfl, hcontains, hcontains.count, ?_, ?_⟩
  · rw [hcontains.space_eq, hsize]
  · exact Fifo.run_conserves buffer.length 0 [] calls

end Queue

end Helos
