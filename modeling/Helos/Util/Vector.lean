import Helos.Memory.KernelMapping
import Helos.Theory.Cells

/-!
# The vector

`util/vector.c`, down to its bytes. A vector knows where its buffer is and what is in it; `kMalloc`
does not fail, and what it returns holds stale bytes. Stores and loads outside the buffer are
undefined, and so is a call of `vector_Resize` whose loop does not end.
-/

namespace Helos

/-- What `kMalloc` returns. -/
structure Block where
  address : Addr
  stale : Nat → UInt8

def Block.bytes (new : Block) (size : Nat) : List UInt8 := Cells.read new.stale 0 size

/-- `vector_Vector`; `buffer` is what `data` points to. -/
structure Vector where
  data : Addr
  buffer : List UInt8
  size : Nat
  cap : Nat
  objectSize : Nat

namespace Vector

/-- `memcpy` or `memset` into a buffer. -/
def store (buffer : List UInt8) (offset : Nat) (bytes : List UInt8) : Option (List UInt8) :=
  if offset + bytes.length ≤ buffer.length then
    some (buffer.take offset ++ bytes ++ buffer.drop (offset + bytes.length))
  else none

def create (objectSize : Nat) (new : Block) : Vector where
  data := new.address
  buffer := new.bytes objectSize
  size := 0
  cap := objectSize
  objectSize := objectSize

def rebuffer (vec : Vector) (newcap : Nat) (new : Block) : Option Vector :=
  if vec.size ≤ vec.buffer.length then do
    let buffer ← store (new.bytes newcap) 0 (vec.buffer.take vec.size)
    some { vec with data := new.address, buffer, cap := newcap }
  else none

/-- `while (newcap < newsize) newcap *= 2;` -/
def growCap (newsize : Nat) : Nat → Nat → Option Nat
  | 0, _ => none
  | fuel + 1, newcap =>
    if newcap < newsize then growCap newsize fuel (wrap64 (newcap * 2)) else some newcap

/-- After 64 turns the capacity is 0 and stays so. -/
def growFuel : Nat := 65

def resize (vec : Vector) (size : Nat) (new : Block) : Option Vector := do
  let newsize := wrap64 (size * vec.objectSize)
  let vec ←
    if newsize > vec.cap then do
      let newcap ← growCap newsize growFuel vec.cap
      vec.rebuffer newcap new
    else some vec
  some { vec with size := newsize }

/-- `vector_Size` -/
def count (vec : Vector) : Nat := vec.size / vec.objectSize

/-- What `vector_Append` copies: bytes at a pointer that is not in the buffer, or zeroes. -/
def source : Option (Nat → UInt8) → Nat → List UInt8
  | some data, n => Cells.read data 0 n
  | none, n => List.replicate n 0

def append (vec : Vector) (data : Option (Nat → UInt8)) (n : Nat) (new : Block) : Option Vector := do
  let vec ← vec.resize (wrap64 (vec.count + n)) new
  let addsize := wrap64 (vec.objectSize * n)
  let oldsize := wrap64 (vec.size + (2 ^ 64 - addsize))
  let buffer ← store vec.buffer oldsize (source data addsize)
  some { vec with buffer }

/-- It returns where the object is. -/
def push (vec : Vector) (data : Option (Nat → UInt8)) (new : Block) : Option (Vector × Addr) := do
  let vec ← vec.append data 1 new
  some (vec, wrap64 (vec.data + vec.size + (2 ^ 64 - vec.objectSize)))

def clear (vec : Vector) : Vector := { vec with size := 0 }

/-- `vector_ShrinkBuffer` -/
def shrinkBuffer (vec : Vector) (new : Block) : Option Vector :=
  if vec.size ≠ vec.cap then vec.rebuffer vec.size new else some vec

/-- `vector_Reserve` -/
def reserve (vec : Vector) (cap : Nat) (new : Block) : Option Vector :=
  let newcap := wrap64 (vec.objectSize * cap)
  if newcap > vec.cap then vec.rebuffer newcap new else some vec

/-- `vector_At` -/
def address (vec : Vector) (i : Nat) : Addr := wrap64 (vec.data + wrap64 (vec.objectSize * i))

/-- The object at `vector_At(vec, i)`. -/
def load (vec : Vector) (i : Nat) : Option (List UInt8) :=
  let offset := wrap64 (vec.objectSize * i)
  if offset + vec.objectSize ≤ vec.buffer.length then
    some ((vec.buffer.drop offset).take vec.objectSize)
  else none

/-! ### The objects of a vector -/

/-- The vector holds these objects, one after the other. -/
structure Holds (vec : Vector) (objects : List (List UInt8)) : Prop where
  width : ∀ x ∈ objects, x.length = vec.objectSize
  size : vec.size = vec.objectSize * objects.length
  allocated : vec.buffer.length = vec.cap
  fits : vec.size ≤ vec.cap
  contents : vec.buffer.take vec.size = objects.flatten

variable {vec : Vector} {objects : List (List UInt8)}

theorem length_bytes (new : Block) (n : Nat) : (new.bytes n).length = n := Cells.length_read _ _ _

theorem create_holds (objectSize : Nat) (new : Block) : (create objectSize new).Holds [] where
  width := by simp
  size := rfl
  allocated := length_bytes new objectSize
  fits := Nat.zero_le _
  contents := rfl

theorem Holds.clear (h : vec.Holds objects) : vec.clear.Holds [] where
  width := by simp
  size := rfl
  allocated := h.allocated
  fits := Nat.zero_le _
  contents := rfl

theorem Holds.count_eq (h : vec.Holds objects) (hpos : 0 < vec.objectSize) :
    vec.count = objects.length := by
  rw [count, h.size, Nat.mul_div_cancel_left _ hpos]

/-- The objects have one width, so `n` of them take `n` times as many bytes. -/
theorem Holds.sum_take (h : vec.Holds objects) {n : Nat} (hn : n ≤ objects.length) :
    ((objects.map List.length).take n).sum = vec.objectSize * n := by
  rw [List.map_congr_left h.width, List.map_const', List.take_replicate, Nat.min_eq_left hn,
    List.sum_replicate_nat, Nat.mul_comm]

theorem store_eq (buffer : List UInt8) (offset : Nat) (bytes : List UInt8)
    (h : offset + bytes.length ≤ buffer.length) :
    store buffer offset bytes =
      some (buffer.take offset ++ bytes ++ buffer.drop (offset + bytes.length)) := if_pos h

theorem rebuffer_holds (new : Block) (h : vec.Holds objects) {newcap : Nat} (hcap : vec.size ≤ newcap) :
    ∃ vec', vec.rebuffer newcap new = some vec' ∧ vec'.Holds objects ∧
      vec'.objectSize = vec.objectSize ∧ vec'.cap = newcap := by
  have hle : vec.size ≤ vec.buffer.length := h.fits.trans_eq h.allocated.symm
  have hlength : (vec.buffer.take vec.size).length = vec.size := List.length_take_of_le hle
  have hstore := store_eq (new.bytes newcap) 0 (vec.buffer.take vec.size)
    (by rw [hlength, length_bytes, Nat.zero_add]; exact hcap)
  have heq : vec.rebuffer newcap new =
      some { vec with
        data := new.address
        buffer := (new.bytes newcap).take 0 ++ vec.buffer.take vec.size ++
          (new.bytes newcap).drop (0 + (vec.buffer.take vec.size).length)
        cap := newcap } := by
    rw [rebuffer, if_pos hle, hstore]
    rfl
  refine ⟨_, heq, ⟨h.width, h.size, ?_, hcap, ?_⟩, rfl, rfl⟩
  · simp [hlength, length_bytes, Nat.add_sub_cancel' hcap]
  · rw [List.take_zero, List.nil_append, List.take_left' hlength, h.contents]

/-- Doubling reaches a size of up to 2^63 before it leaves 64 bits. -/
theorem growCap_eq (fuel : Nat) {newsize newcap : Nat} (hsize : newsize ≤ 2 ^ 63) (hpos : 0 < newcap)
    (hfuel : newsize ≤ newcap * 2 ^ fuel) :
    ∃ cap, growCap newsize (fuel + 1) newcap = some cap ∧ newsize ≤ cap ∧ newcap ≤ cap := by
  induction fuel generalizing newcap with
  | zero =>
    rw [Nat.pow_zero, Nat.mul_one] at hfuel
    exact ⟨newcap, if_neg (Nat.not_lt.mpr hfuel), hfuel, Nat.le_refl _⟩
  | succ fuel ih =>
    by_cases hlt : newcap < newsize
    · have hwrap : wrap64 (newcap * 2) = newcap * 2 := wrap64_of_lt (by omega)
      obtain ⟨cap, heq, hge, hle⟩ := ih (Nat.mul_pos hpos Nat.two_pos)
        (by rwa [Nat.mul_assoc, ← Nat.pow_succ'])
      refine ⟨cap, ?_, hge, by omega⟩
      rw [growCap, if_pos hlt, hwrap, heq]
    · exact ⟨newcap, if_neg hlt, Nat.le_of_not_lt hlt, Nat.le_refl _⟩

/-- A size that fits 64 bits and is not above the number of objects needs no new buffer. -/
theorem resize_shrink (new : Block) (h : vec.Holds objects) {n : Nat} (hn : n ≤ objects.length)
    (hsize : vec.size < 2 ^ 64) :
    vec.resize n new = some { vec with size := vec.objectSize * n } := by
  have hle : vec.objectSize * n ≤ vec.size := by
    rw [h.size]
    exact Nat.mul_le_mul_left _ hn
  have hnewsize : wrap64 (n * vec.objectSize) = vec.objectSize * n := by
    rw [Nat.mul_comm]
    exact wrap64_of_lt (Nat.lt_of_le_of_lt hle hsize)
  have hcap : ¬ vec.objectSize * n > vec.cap := Nat.not_lt.mpr (hle.trans h.fits)
  simp only [resize, hnewsize, if_neg hcap, Option.bind_eq_bind, Option.bind_some]

theorem Holds.take (h : vec.Holds objects) {n : Nat} (hn : n ≤ objects.length) :
    Holds { vec with size := vec.objectSize * n } (objects.take n) := by
  have hle : vec.objectSize * n ≤ vec.size := by
    rw [h.size]
    exact Nat.mul_le_mul_left _ hn
  refine ⟨fun x hx => h.width x (List.mem_of_mem_take hx), ?_, h.allocated, hle.trans h.fits, ?_⟩
  · rw [List.length_take_of_le hn]
  · calc
      vec.buffer.take (vec.objectSize * n) = objects.flatten.take (vec.objectSize * n) := by
        rw [← h.contents, List.take_take, Nat.min_eq_left hle]
      _ = (objects.take n).flatten := by
        rw [← h.sum_take hn, List.take_sum_flatten]

theorem Holds.load_eq (h : vec.Holds objects) (hsize : vec.size < 2 ^ 64) {i : Nat}
    (hi : i < objects.length) : vec.load i = some objects[i] := by
  have hend : vec.objectSize * (i + 1) ≤ vec.size := by
    rw [h.size]
    exact Nat.mul_le_mul_left _ hi
  have hoffset : wrap64 (vec.objectSize * i) = vec.objectSize * i :=
    wrap64_of_lt (Nat.lt_of_le_of_lt (Nat.mul_le_mul_left _ (Nat.le_succ i))
      (Nat.lt_of_le_of_lt hend hsize))
  have hinside : vec.objectSize * i + vec.objectSize ≤ vec.buffer.length := by
    rw [h.allocated, ← Nat.mul_succ]
    exact hend.trans h.fits
  have hobject : (vec.buffer.drop (vec.objectSize * i)).take vec.objectSize = objects[i] := by
    rw [← List.drop_take_succ_flatten_eq_getElem objects i hi, h.sum_take hi,
      h.sum_take (Nat.le_of_lt hi), ← h.contents, List.take_take, Nat.min_eq_left hend,
      List.drop_take, ← Nat.mul_sub, Nat.add_sub_cancel_left, Nat.mul_one]
  simp only [load, hoffset, if_pos hinside, hobject]

/-- A size of up to 2^63 bytes, which needs no new buffer or grows one that is not empty. The old objects
stay, also in a new buffer, and there is room for the others. -/
theorem resize_room (new : Block) (h : vec.Holds objects) {n : Nat}
    (hsize : vec.objectSize * n ≤ 2 ^ 63) (hroom : vec.objectSize * n ≤ vec.cap ∨ 0 < vec.cap) :
    ∃ vec' : Vector, vec.resize n new = some { vec' with size := vec.objectSize * n } ∧
      vec'.Holds objects ∧ vec'.objectSize = vec.objectSize ∧ vec.objectSize * n ≤ vec'.cap ∧
      vec.cap ≤ vec'.cap := by
  have hnewsize : wrap64 (n * vec.objectSize) = vec.objectSize * n := by
    rw [Nat.mul_comm]
    exact wrap64_of_lt (by omega)
  by_cases hlarge : vec.objectSize * n > vec.cap
  · have hcap : 0 < vec.cap := hroom.resolve_left (Nat.not_le_of_lt hlarge)
    obtain ⟨newcap, hgrow, hge, hle⟩ := growCap_eq 64 hsize hcap (by omega)
    obtain ⟨vec', hrebuffer, hholds, hobject, hcap'⟩ :=
      rebuffer_holds new h (h.fits.trans hle)
    refine ⟨vec', ?_, hholds, hobject, hge.trans_eq hcap'.symm, hle.trans_eq hcap'.symm⟩
    simp only [resize, hnewsize, if_pos hlarge, growFuel, hgrow, hrebuffer, Option.bind_eq_bind,
      Option.bind_some]
  · refine ⟨vec, ?_, h, rfl, Nat.le_of_not_lt hlarge, Nat.le_refl _⟩
    simp only [resize, hnewsize, if_neg hlarge, Option.bind_eq_bind, Option.bind_some]

theorem length_flatten_of_width {width : Nat} (h : ∀ x ∈ objects, x.length = width) :
    objects.flatten.length = width * objects.length := by
  rw [List.length_flatten, List.map_congr_left h, List.map_const', List.sum_replicate_nat,
    Nat.mul_comm]

/-- Objects stored behind the others. -/
theorem Holds.stored (h : vec.Holds objects) {added : List (List UInt8)}
    (hwidth : ∀ x ∈ added, x.length = vec.objectSize)
    (hroom : vec.objectSize * (objects.length + added.length) ≤ vec.cap) :
    Holds
      { vec with
        size := vec.objectSize * (objects.length + added.length)
        buffer := vec.buffer.take vec.size ++ added.flatten ++
          vec.buffer.drop (vec.size + added.flatten.length) }
      (objects ++ added) := by
  have hlength := length_flatten_of_width hwidth
  have hend : vec.objectSize * (objects.length + added.length) =
      vec.size + added.flatten.length := by
    rw [hlength, h.size, Nat.mul_add]
  have hstored : (vec.buffer.take vec.size ++ added.flatten).length =
      vec.size + added.flatten.length := by
    rw [List.length_append, List.length_take_of_le (h.fits.trans_eq h.allocated.symm)]
  refine ⟨?_, ?_, ?_, hroom, ?_⟩
  · rw [List.forall_mem_append]
    exact ⟨h.width, hwidth⟩
  · rw [List.length_append]
  · rw [List.length_append, hstored, List.length_drop, h.allocated]
    exact Nat.add_sub_cancel' (hend ▸ hroom)
  · rw [hend, List.take_left' hstored, h.contents, List.flatten_append]

theorem append_room (new : Block) (h : vec.Holds objects)
    (hpos : 0 < vec.objectSize) {data : Option (Nat → UInt8)} {added : List (List UInt8)}
    (hwidth : ∀ x ∈ added, x.length = vec.objectSize)
    (hdata : source data (vec.objectSize * added.length) = added.flatten)
    (hsize : vec.objectSize * (objects.length + added.length) ≤ 2 ^ 63)
    (hroom : vec.objectSize * (objects.length + added.length) ≤ vec.cap ∨ 0 < vec.cap) :
    ∃ vec', vec.append data added.length new = some vec' ∧ vec'.Holds (objects ++ added) ∧
      vec'.objectSize = vec.objectSize ∧ vec.cap ≤ vec'.cap := by
  obtain ⟨vec', hresize, hholds, hobject, hroom, hcap'⟩ := resize_room new h hsize hroom
  rw [← hobject] at hwidth hdata hroom hsize hresize
  have hend : vec'.objectSize * (objects.length + added.length) =
      vec'.size + vec'.objectSize * added.length := by
    rw [Nat.mul_add, hholds.size]
  have hcount : wrap64 (vec.count + added.length) = objects.length + added.length := by
    rw [h.count_eq hpos]
    have hle := Nat.le_mul_of_pos_left (objects.length + added.length) (hobject ▸ hpos)
    exact wrap64_of_lt (by omega)
  have haddsize : wrap64 (vec'.objectSize * added.length) = vec'.objectSize * added.length :=
    wrap64_of_lt (by omega)
  have holdsize : wrap64 (vec'.objectSize * (objects.length + added.length) +
      (2 ^ 64 - vec'.objectSize * added.length)) = vec'.size := by
    rw [hend, wrap64]
    omega
  have hstore : vec'.size + added.flatten.length ≤ vec'.buffer.length := by
    rw [length_flatten_of_width hwidth, ← hend, hholds.allocated]
    exact hroom
  have hstored := hholds.stored hwidth hroom
  refine ⟨_, ?_, hstored, hobject, hcap'⟩
  simp only [append, hcount, hresize, haddsize, holdsize, hdata, store_eq _ _ _ hstore,
    Option.bind_eq_bind, Option.bind_some]

theorem append_eq (new : Block) (h : vec.Holds objects) (hcap : 0 < vec.cap)
    (hpos : 0 < vec.objectSize) {data : Option (Nat → UInt8)} {added : List (List UInt8)}
    (hwidth : ∀ x ∈ added, x.length = vec.objectSize)
    (hdata : source data (vec.objectSize * added.length) = added.flatten)
    (hsize : vec.objectSize * (objects.length + added.length) ≤ 2 ^ 63) :
    ∃ vec', vec.append data added.length new = some vec' ∧ vec'.Holds (objects ++ added) ∧
      vec'.objectSize = vec.objectSize ∧ 0 < vec'.cap := by
  obtain ⟨vec', happend, hholds, hobject, hcap'⟩ :=
    append_room new h hpos hwidth hdata hsize (.inr hcap)
  exact ⟨vec', happend, hholds, hobject, Nat.lt_of_lt_of_le hcap hcap'⟩

theorem push_eq (new : Block) (h : vec.Holds objects) (hcap : 0 < vec.cap)
    (hpos : 0 < vec.objectSize) (data : Nat → UInt8)
    (hsize : vec.objectSize * (objects.length + 1) ≤ 2 ^ 63) :
    ∃ vec' address, vec.push (some data) new = some (vec', address) ∧
      vec'.Holds (objects ++ [Cells.read data 0 vec.objectSize]) ∧
      vec'.objectSize = vec.objectSize ∧ 0 < vec'.cap := by
  have hwidth : ∀ x ∈ [Cells.read data 0 vec.objectSize], x.length = vec.objectSize := by
    simp
  have hdata : source (some data) (vec.objectSize * 1) =
      [Cells.read data 0 vec.objectSize].flatten := by
    simp [source]
  obtain ⟨vec', happend, hholds, hobject, hcap'⟩ := append_eq new h hcap hpos hwidth hdata hsize
  have hpush : vec.push (some data) new =
      some (vec', wrap64 (vec'.data + vec'.size + (2 ^ 64 - vec'.objectSize))) := by
    rw [List.length_singleton] at happend
    rw [push, happend]
    rfl
  exact ⟨vec', _, hpush, hholds, hobject, hcap'⟩

end Vector

end Helos
