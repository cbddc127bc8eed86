import Helos.Theory.Refinement
import Helos.Theory.Run
import Helos.Util.Vector

/-!
# The vector as a list

Whatever calls are made of a vector, it holds the list that the same operations make of an empty one, as
long as the calls return. The loop that grows the buffer doubles the capacity that there is: it ends for
every size as long as no empty vector is shrunk, and for none afterwards.
-/

namespace Helos.Vector

inductive Call
  | push (data : Option (Nat → UInt8))
  | append (data : Option (Nat → UInt8)) (n : Nat)
  | resize (size : Nat)
  | clear
  | reserve (cap : Nat)
  | shrinkBuffer

/-- A call, with what `kMalloc` returns if it is called. The answer is that of `vector_Push`. -/
def step (vec : Vector) : Call × Block → Option (Vector × Option Addr)
  | (.push data, new) => (vec.push data new).map fun (vec, address) => (vec, some address)
  | (.append data n, new) => (vec.append data n new).map fun vec => (vec, none)
  | (.resize size, new) => (vec.resize size new).map fun vec => (vec, none)
  | (.clear, _) => some (vec.clear, none)
  | (.reserve cap, new) => (vec.reserve cap new).map fun vec => (vec, none)
  | (.shrinkBuffer, new) => (vec.shrinkBuffer new).map fun vec => (vec, none)

def next (vec : Vector) (c : Call × Block) : Option Vector := (vec.step c).map Prod.fst

/-! ### Lists -/

/-- The `i`-th object at a pointer given by the caller, which is all zeroes at `NULL`. -/
def given (width : Nat) (data : Option (Nat → UInt8)) (i : Nat) : List UInt8 :=
  match data with
  | some data => Cells.read data (width * i) width
  | none => List.replicate width 0

/-- What a call makes of a list. It is left open what the objects are that `vector_Resize` adds. -/
def ListStep (width : Nat) (objects : List (List UInt8)) : Call → List (List UInt8) → Prop
  | .push data, objects' => objects' = objects ++ [given width data 0]
  | .append data n, objects' => objects' = objects ++ (List.range n).map (given width data)
  | .resize n, objects' => objects'.length = n ∧ objects'.take objects.length = objects.take n
  | .clear, objects' => objects' = []
  | .reserve _, objects' => objects' = objects
  | .shrinkBuffer, objects' => objects' = objects

/-- `vector_Push` returns where the last object is. -/
def Answers (vec : Vector) (objects : List (List UInt8)) : Call → Option Addr → Prop
  | .push _, answer => answer = some (vec.address (objects.length - 1))
  | _, answer => answer = none

structure Represents (vec : Vector) (objects : List (List UInt8)) : Prop where
  whole : vec.objectSize ∣ vec.size
  fits : vec.size ≤ vec.cap
  allocated : vec.cap = vec.buffer.length
  count : vec.count = objects.length
  elements : ∀ i (hi : i < objects.length), vec.load i = some objects[i]

/-! ### Calls that return -/

def Call.resized (count : Nat) : Call → Option Nat
  | .push _ => some (wrap64 (count + 1))
  | .append _ n => some (wrap64 (count + n))
  | .resize size => some size
  | _ => none

/-- The loop of `vector_Resize` is the one thing that may not end. -/
def Returns (vec : Vector) (c : Call) : Prop :=
  ∀ size ∈ c.resized vec.count,
    ∃ fuel newcap, growCap (wrap64 (size * vec.objectSize)) fuel vec.cap = some newcap

def Call.requested (count : Nat) : Call → Nat
  | .push _ => count + 1
  | .append _ n => count + n
  | .resize size => size
  | .reserve cap => cap
  | _ => 0

/-- The size in bytes of what is asked for stays below 2^63. -/
def Small (vec : Vector) (c : Call) : Prop := vec.objectSize * c.requested vec.count < 2 ^ 63

instance (vec : Vector) (c : Call) : Decidable (vec.Small c) := inferInstanceAs (Decidable (_ < _))

variable {vec vec' : Vector} {objects : List (List UInt8)} {c : Call} {n width newsize newcap fuel : Nat}

theorem growCap_zero (h : 0 < newsize) (fuel : Nat) : growCap newsize fuel 0 = none := by
  induction fuel with
  | zero => rfl
  | succ fuel ih => exact (if_pos h).trans ih

theorem growCap_ge {cap : Nat} (h : growCap newsize fuel cap = some newcap) : newsize ≤ newcap := by
  induction fuel generalizing cap with
  | zero => cases h
  | succ fuel ih =>
    rw [growCap] at h
    split at h
    · exact ih h
    · next hge => exact Option.some.inj h ▸ Nat.le_of_not_lt hge

/-- The loop ends when it is not needed, or has something to double. -/
theorem room_of_growCap {cap : Nat} (h : growCap newsize fuel cap = some newcap) :
    newsize ≤ cap ∨ 0 < cap := by
  by_contra hnot
  rw [not_or, Nat.not_le, Nat.not_lt, Nat.le_zero] at hnot
  obtain ⟨hlt, rfl⟩ := hnot
  rw [growCap_zero hlt] at h
  cases h

theorem Returns.room (h : vec.Returns c) {size : Nat} (hsize : size ∈ c.resized vec.count)
    (hsmall : vec.objectSize * size < 2 ^ 64) : vec.objectSize * size ≤ vec.cap ∨ 0 < vec.cap := by
  obtain ⟨fuel, newcap, hgrow⟩ := h size hsize
  rw [Nat.mul_comm, wrap64_of_lt hsmall] at hgrow
  exact room_of_growCap hgrow

/-! ### Objects -/

theorem length_given (width : Nat) (data : Option (Nat → UInt8)) (i : Nat) :
    (given width data i).length = width := by
  cases data <;> simp [given]

theorem flatten_given (width : Nat) (data : Option (Nat → UInt8)) (n : Nat) :
    ((List.range n).map (given width data)).flatten = source data (width * n) := by
  cases data with
  | some data =>
    rw [source, Cells.read_mul]
    simp only [Nat.zero_add]
    rfl
  | none =>
    change ((List.range n).map fun _ => List.replicate width 0).flatten = List.replicate _ 0
    rw [List.map_const', List.length_range, List.flatten_replicate_replicate, Nat.mul_comm]

theorem exists_objects {bytes : List UInt8} (h : bytes.length = width * n) :
    ∃ objects : List (List UInt8), objects.length = n ∧ (∀ x ∈ objects, x.length = width) ∧
      objects.flatten = bytes := by
  refine ⟨(List.range n).map fun j => Cells.read (fun i => bytes.getD i 0) (0 + width * j) width,
    by simp, by simp, ?_⟩
  rw [← Cells.read_mul, ← h, Cells.read_getD]

theorem Holds.extend (h : vec.Holds objects) (hn : objects.length ≤ n)
    (hcap : vec.objectSize * n ≤ vec.cap) :
    ∃ objects' : List (List UInt8), objects'.length = n ∧ objects'.take objects.length = objects ∧
      Holds { vec with size := vec.objectSize * n } objects' := by
  obtain ⟨k, rfl⟩ := Nat.exists_eq_add_of_le hn
  have hend : vec.size + vec.objectSize * k ≤ vec.buffer.length := by
    rw [h.size, ← Nat.mul_add, h.allocated]
    exact hcap
  have hlength : ((vec.buffer.drop vec.size).take (vec.objectSize * k)).length =
      vec.objectSize * k := by
    rw [List.length_take, List.length_drop]
    omega
  obtain ⟨added, hadded, hwidth, hflatten⟩ := exists_objects hlength
  have hstored := h.stored hwidth (hadded.symm ▸ hcap)
  have hsame : vec.buffer.take vec.size ++ added.flatten ++
      vec.buffer.drop (vec.size + added.flatten.length) = vec.buffer := by
    rw [hflatten, hlength, List.append_assoc, ← List.drop_drop, List.take_append_drop,
      List.take_append_drop]
  rw [hsame, hadded] at hstored
  exact ⟨objects ++ added, by rw [List.length_append, hadded], List.take_left' rfl, hstored⟩

/-! ### Every call -/

/-- The vector holds the list, and its size is a machine number. -/
structure Kept (width : Nat) (vec : Vector) (objects : List (List UInt8)) : Prop where
  holds : vec.Holds objects
  objectSize : vec.objectSize = width
  small : vec.size < 2 ^ 63

theorem Kept.represents (h : vec.Kept width objects) (hpos : 0 < width) : vec.Represents objects where
  whole := ⟨objects.length, h.holds.size⟩
  fits := h.holds.fits
  allocated := h.holds.allocated.symm
  count := h.holds.count_eq (h.objectSize.symm ▸ hpos)
  elements _ hi := h.holds.load_eq (Nat.lt_trans h.small (by decide)) hi

theorem kept_of_holds (h : vec.Holds objects) (hwidth : vec.objectSize = width)
    (hsmall : width * objects.length < 2 ^ 63) : vec.Kept width objects :=
  ⟨h, hwidth, by rwa [h.size, hwidth]⟩

section Calls

variable (h : vec.Kept width objects) (hpos : 0 < width) (new : Block)

include h

theorem Kept.count (hpos : 0 < width) : vec.count = objects.length :=
  h.holds.count_eq (h.objectSize.symm ▸ hpos)

include hpos

theorem Kept.append (data : Option (Nat → UInt8)) (n : Nat) (hsmall : width * (objects.length + n) < 2 ^ 63)
    (hroom : width * (objects.length + n) ≤ vec.cap ∨ 0 < vec.cap) :
    ∃ vec', vec.append data n new = some vec' ∧
      vec'.Kept width (objects ++ (List.range n).map (given width data)) := by
  obtain ⟨rfl⟩ := h.objectSize
  have hlength : ((List.range n).map (given vec.objectSize data)).length = n := by simp
  have hwidth : ∀ x ∈ (List.range n).map (given vec.objectSize data), x.length = vec.objectSize := by
    intro x hx
    obtain ⟨i, -, rfl⟩ := List.mem_map.mp hx
    exact length_given _ _ _
  have hdata : source data (vec.objectSize * ((List.range n).map (given vec.objectSize data)).length) =
      ((List.range n).map (given vec.objectSize data)).flatten := by
    rw [hlength, flatten_given]
  have happend := append_room new h.holds hpos hwidth hdata
  rw [hlength] at happend
  obtain ⟨vec', heq, hholds, hobject, -⟩ := happend (Nat.le_of_lt hsmall) hroom
  refine ⟨vec', heq, kept_of_holds hholds hobject ?_⟩
  rwa [List.length_append, hlength]

/-- A full length is at least one, so the last object starts an object before the end. -/
theorem Kept.push (data : Option (Nat → UInt8)) (hsmall : width * (objects.length + 1) < 2 ^ 63)
    (hroom : width * (objects.length + 1) ≤ vec.cap ∨ 0 < vec.cap) :
    ∃ vec' objects', vec.push data new = some (vec', vec'.address objects.length) ∧
      objects' = objects ++ [given width data 0] ∧ vec'.Kept width objects' := by
  obtain ⟨vec', happend, hkept⟩ := h.append hpos new data 1 hsmall hroom
  have hsize : vec'.size = width * objects.length + width := by
    rw [hkept.holds.size, hkept.objectSize]
    simp [Nat.mul_add]
  have haddress : wrap64 (vec'.data + vec'.size + (2 ^ 64 - vec'.objectSize)) =
      vec'.address objects.length := by
    rw [address, hkept.objectSize, hsize]
    rw [Nat.mul_succ] at hsmall
    unfold wrap64
    omega
  refine ⟨vec', _, ?_, rfl, hkept⟩
  rw [Vector.push, happend]
  exact congrArg (fun a => some (vec', a)) haddress

theorem Kept.resize (n : Nat) (hsmall : width * n < 2 ^ 63)
    (hroom : width * n ≤ vec.cap ∨ 0 < vec.cap) :
    ∃ vec' objects', vec.resize n new = some vec' ∧ objects'.length = n ∧
      objects'.take objects.length = objects.take n ∧ vec'.Kept width objects' := by
  obtain ⟨rfl⟩ := h.objectSize
  obtain ⟨vec', heq, hholds, hobject, hcap, -⟩ :=
    resize_room new h.holds (Nat.le_of_lt hsmall) hroom
  rw [← hobject] at hsmall hcap heq ⊢
  rcases Nat.le_total n objects.length with hle | hge
  · have hlength : (objects.take n).length = n := List.length_take_of_le hle
    refine ⟨_, objects.take n, heq, hlength, ?_, kept_of_holds (hholds.take hle) rfl ?_⟩
    · rw [List.take_take, Nat.min_eq_right hle]
    · rwa [hlength]
  · obtain ⟨objects', hlength, htake, hholds'⟩ := hholds.extend hge hcap
    refine ⟨_, objects', heq, hlength, ?_, kept_of_holds hholds' rfl ?_⟩
    · rw [htake, List.take_of_length_le hge]
    · rwa [hlength]

omit hpos in
theorem Kept.rebuffer {cap : Nat} (hcap : vec.size ≤ cap) :
    ∃ vec', vec.rebuffer cap new = some vec' ∧ vec'.Kept width objects := by
  obtain ⟨vec', heq, hholds, hobject, -⟩ := rebuffer_holds new h.holds hcap
  refine ⟨vec', heq, hholds, hobject.trans h.objectSize, ?_⟩
  rw [hholds.size, hobject, ← h.holds.size]
  exact h.small

omit hpos in
theorem Kept.reserve (cap : Nat) (hsmall : width * cap < 2 ^ 63) :
    ∃ vec', vec.reserve cap new = some vec' ∧ vec'.Kept width objects := by
  unfold Vector.reserve
  rw [h.objectSize, wrap64_of_lt (Nat.lt_trans hsmall (by decide))]
  by_cases hlarge : width * cap > vec.cap
  · rw [if_pos hlarge]
    exact h.rebuffer new (h.holds.fits.trans (Nat.le_of_lt hlarge))
  · rw [if_neg hlarge]
    exact ⟨vec, rfl, h⟩

omit hpos in
theorem Kept.shrinkBuffer : ∃ vec', vec.shrinkBuffer new = some vec' ∧ vec'.Kept width objects := by
  unfold Vector.shrinkBuffer
  by_cases hsame : vec.size ≠ vec.cap
  · rw [if_pos hsame]
    exact h.rebuffer new (Nat.le_refl _)
  · rw [if_neg hsame]
    exact ⟨vec, rfl, h⟩

end Calls

theorem Kept.step (h : vec.Kept width objects) (hpos : 0 < width) (hsmall : vec.Small c)
    (hreturns : vec.Returns c) (new : Block) :
    ∃ vec' answer objects', vec.step (c, new) = some (vec', answer) ∧
      (ListStep width objects c objects' ∧ Answers vec' objects' c answer) ∧
      vec'.Kept width objects' := by
  have hcount := h.count hpos
  unfold Small at hsmall
  rw [hcount, h.objectSize] at hsmall
  have hroom (size : Nat) (hresized : wrap64 size ∈ c.resized objects.length)
      (hsize : width * size < 2 ^ 63) : width * size ≤ vec.cap ∨ 0 < vec.cap := by
    have hle := Nat.le_mul_of_pos_left size hpos
    have hlt : size < 2 ^ 64 := by omega
    have hmem : size ∈ c.resized vec.count := by rwa [hcount, ← wrap64_of_lt hlt]
    have hthere := hreturns.room hmem
    rw [h.objectSize] at hthere
    exact hthere (by omega)
  cases c with
  | push data =>
    obtain ⟨vec', objects', heq, rfl, hkept⟩ := h.push hpos new data hsmall (hroom _ rfl hsmall)
    refine ⟨vec', _, _, by rw [Vector.step, heq]; rfl, ⟨rfl, ?_⟩, hkept⟩
    rw [Answers, List.length_append, List.length_singleton, Nat.add_sub_cancel]
  | append data n =>
    obtain ⟨vec', heq, hkept⟩ := h.append hpos new data n hsmall (hroom _ rfl hsmall)
    exact ⟨vec', none, _, by rw [Vector.step, heq]; rfl, ⟨rfl, rfl⟩, hkept⟩
  | resize n =>
    have hlt : n < 2 ^ 64 := by
      have hle := Nat.le_mul_of_pos_left n hpos
      change width * n < 2 ^ 63 at hsmall
      omega
    have hresized : wrap64 n ∈ (Call.resize n).resized objects.length := by
      rw [wrap64_of_lt hlt]
      rfl
    obtain ⟨vec', objects', heq, hlength, htake, hkept⟩ :=
      h.resize hpos new n hsmall (hroom n hresized hsmall)
    exact ⟨vec', none, objects', by rw [Vector.step, heq]; rfl, ⟨⟨hlength, htake⟩, rfl⟩, hkept⟩
  | clear =>
    refine ⟨_, none, [], rfl, ⟨rfl, rfl⟩, h.holds.clear, h.objectSize, ?_⟩
    exact Nat.two_pow_pos 63
  | reserve cap =>
    obtain ⟨vec', heq, hkept⟩ := h.reserve new cap hsmall
    exact ⟨vec', none, _, by rw [Vector.step, heq]; rfl, ⟨rfl, rfl⟩, hkept⟩
  | shrinkBuffer =>
    obtain ⟨vec', heq, hkept⟩ := h.shrinkBuffer new
    exact ⟨vec', none, _, by rw [Vector.step, heq]; rfl, ⟨rfl, rfl⟩, hkept⟩

/-- **The vector refines a list.** In every run of calls that return, every call is defined and does
to the list what it says, and every state represents the list. -/
theorem refines_list {objectSize : Nat} (hpos : 0 < objectSize) (new : Block)
    (calls : List (Call × Block))
    (hcalls : Refinement.Throughout step (fun vec c => vec.Small c.1 ∧ vec.Returns c.1)
      (create objectSize new) calls) :
    Refinement.Simulates step Represents
      (fun objects c objects' vec' answer =>
        ListStep objectSize objects c.1 objects' ∧ Answers vec' objects' c.1 answer)
      (create objectSize new) [] calls := by
  refine Refinement.simulates_of_throughout (I := Kept objectSize) ?_ ?_ ?_ hcalls
  · rintro vec objects ⟨c, new⟩ hkept ⟨hsmall, hreturns⟩
    exact hkept.step hpos hsmall hreturns new
  · exact fun vec objects hkept => hkept.represents hpos
  · exact kept_of_holds (create_holds objectSize new) rfl (Nat.two_pow_pos 63)

def staleBlock : Block := ⟨0x1000, fun _ => 7⟩

theorem refines_list_shrunk :
    Refinement.Simulates step Represents
      (fun objects c objects' vec' answer =>
        ListStep 2 objects c.1 objects' ∧ Answers vec' objects' c.1 answer)
      (create 2 staleBlock) []
      [(.push none, staleBlock), (.shrinkBuffer, staleBlock), (.append none 2, staleBlock)] := by
  apply refines_list (by decide) staleBlock
  refine ⟨⟨by decide, fun size hsize => ?_⟩, fun vec₁ answer₁ h₁ => ⟨⟨?_, ?_⟩, fun vec₂ answer₂ h₂ =>
    ⟨⟨?_, fun size hsize => ?_⟩, fun _ _ _ => trivial⟩⟩⟩
  · obtain rfl := Option.some.inj hsize
    exact ⟨1, 2, by decide⟩
  · obtain ⟨rfl, rfl⟩ := Prod.mk.inj (Option.some.inj h₁)
    decide
  · intro size hsize
    cases hsize
  · obtain ⟨rfl, rfl⟩ := Prod.mk.inj (Option.some.inj h₁)
    obtain ⟨rfl, rfl⟩ := Prod.mk.inj (Option.some.inj h₂)
    decide
  · obtain ⟨rfl, rfl⟩ := Prod.mk.inj (Option.some.inj h₁)
    obtain ⟨rfl, rfl⟩ := Prod.mk.inj (Option.some.inj h₂)
    obtain rfl := Option.some.inj hsize
    exact ⟨3, 8, by decide⟩

/-! ### Growth -/

/-- For every size asked for, of up to 2^63 bytes, the loop of `vector_Resize` ends with room for it. -/
def GrowthEnds (vec : Vector) : Prop :=
  ∀ size, vec.objectSize * size ≤ 2 ^ 63 →
    ∃ fuel newcap, growCap (wrap64 (size * vec.objectSize)) fuel vec.cap = some newcap ∧
      wrap64 (size * vec.objectSize) ≤ newcap

/-- No empty vector is shrunk. -/
def ShrinksObjects (vec : Vector) : Call → Prop
  | .shrinkBuffer => vec.size ≠ 0
  | _ => True

theorem growthEnds_of_cap_pos (h : 0 < vec.cap) : vec.GrowthEnds := by
  intro size hsize
  rw [Nat.mul_comm, wrap64_of_lt (by omega)]
  obtain ⟨cap, hgrow, hge, -⟩ := growCap_eq 64 hsize h (by omega)
  exact ⟨65, cap, hgrow, hge⟩

/-- Objects of more than 2^63 bytes are never asked for. -/
theorem growthEnds_of_large (h : 2 ^ 63 < vec.objectSize) : vec.GrowthEnds := by
  intro size hsize
  have hzero : size = 0 := by
    by_contra hne
    have hle := Nat.le_mul_of_pos_right vec.objectSize (Nat.pos_of_ne_zero hne)
    omega
  rw [hzero, Nat.zero_mul]
  exact ⟨1, vec.cap, if_neg (Nat.not_lt_zero _), Nat.zero_le _⟩

theorem not_growthEnds (hcap : vec.cap = 0) (hpos : 0 < vec.objectSize)
    (hsmall : vec.objectSize ≤ 2 ^ 63) : ¬ vec.GrowthEnds := by
  intro h
  obtain ⟨fuel, newcap, hgrow, -⟩ := h 1 (by rwa [Nat.mul_one])
  rw [hcap, Nat.one_mul, wrap64_of_lt (by omega), growCap_zero hpos] at hgrow
  cases hgrow

/-! ### The capacity after a call -/

section Capacity

variable {new : Block}

theorem rebuffer_cap {cap : Nat} (h : vec.rebuffer cap new = some vec') :
    vec'.cap = cap ∧ vec'.objectSize = vec.objectSize := by
  obtain ⟨-, hrun⟩ := Option.ite_none_right_eq_some.mp h
  obtain ⟨buffer, -, hvec⟩ := Option.bind_eq_some_iff.mp hrun
  obtain rfl := Option.some.inj hvec
  exact ⟨rfl, rfl⟩

theorem resize_cap (h : vec.resize n new = some vec') :
    vec.cap ≤ vec'.cap ∧ vec'.objectSize = vec.objectSize := by
  simp only [resize, Option.bind_eq_bind] at h
  split at h
  · next hlarge =>
    obtain ⟨newcap, hgrow, hrest⟩ := Option.bind_eq_some_iff.mp h
    obtain ⟨grown, hrebuffer, hvec⟩ := Option.bind_eq_some_iff.mp hrest
    obtain rfl := Option.some.inj hvec
    obtain ⟨hcap, hobject⟩ := rebuffer_cap hrebuffer
    have hge := growCap_ge hgrow
    refine ⟨?_, hobject⟩
    simp only [hcap]
    omega
  · obtain rfl := Option.some.inj h
    exact ⟨Nat.le_refl _, rfl⟩

theorem append_cap {data : Option (Nat → UInt8)} (h : vec.append data n new = some vec') :
    vec.cap ≤ vec'.cap ∧ vec'.objectSize = vec.objectSize := by
  obtain ⟨resized, hresized, hrest⟩ := Option.bind_eq_some_iff.mp h
  obtain ⟨buffer, -, hvec⟩ := Option.bind_eq_some_iff.mp hrest
  obtain rfl := Option.some.inj hvec
  have hcap := resize_cap hresized
  exact hcap

theorem reserve_cap {cap : Nat} (h : vec.reserve cap new = some vec') :
    vec.cap ≤ vec'.cap ∧ vec'.objectSize = vec.objectSize := by
  simp only [reserve] at h
  split at h
  · next hlarge =>
    obtain ⟨hcap, hobject⟩ := rebuffer_cap h
    exact ⟨hcap ▸ Nat.le_of_lt hlarge, hobject⟩
  · obtain rfl := Option.some.inj h
    exact ⟨Nat.le_refl _, rfl⟩

theorem shrinkBuffer_cap (h : vec.shrinkBuffer new = some vec') :
    vec'.cap = vec.size ∧ vec'.objectSize = vec.objectSize := by
  unfold shrinkBuffer at h
  split at h
  · exact rebuffer_cap h
  · next hsame =>
    obtain rfl := Option.some.inj h
    exact ⟨(not_not.mp hsame).symm, rfl⟩

theorem next_shrinkBuffer (h : vec.next (.shrinkBuffer, new) = some vec') :
    vec'.cap = vec.size ∧ vec'.objectSize = vec.objectSize := by
  obtain ⟨⟨_, answer⟩, hstep, rfl⟩ := Option.map_eq_some_iff.mp h
  obtain ⟨after, hshrink, heq⟩ := Option.map_eq_some_iff.mp hstep
  obtain ⟨rfl, -⟩ := Prod.mk.inj heq
  exact shrinkBuffer_cap hshrink

theorem next_cap (h : vec.next (c, new) = some vec') :
    (vec.cap ≤ vec'.cap ∨ c = .shrinkBuffer ∧ vec'.cap = vec.size) ∧
      vec'.objectSize = vec.objectSize := by
  obtain ⟨⟨_, answer⟩, hstep, hfirst⟩ := Option.map_eq_some_iff.mp h
  obtain rfl : _ = vec' := hfirst
  cases c with
  | push data =>
    obtain ⟨⟨after, address⟩, hpush, heq⟩ := Option.map_eq_some_iff.mp hstep
    obtain ⟨rfl, -⟩ := Prod.mk.inj heq
    obtain ⟨appended, happend, hvec⟩ := Option.bind_eq_some_iff.mp hpush
    obtain ⟨rfl, -⟩ := Prod.mk.inj (Option.some.inj hvec)
    exact ⟨.inl (append_cap happend).1, (append_cap happend).2⟩
  | append data n =>
    obtain ⟨after, happend, heq⟩ := Option.map_eq_some_iff.mp hstep
    obtain ⟨rfl, -⟩ := Prod.mk.inj heq
    exact ⟨.inl (append_cap happend).1, (append_cap happend).2⟩
  | resize n =>
    obtain ⟨after, hresize, heq⟩ := Option.map_eq_some_iff.mp hstep
    obtain ⟨rfl, -⟩ := Prod.mk.inj heq
    exact ⟨.inl (resize_cap hresize).1, (resize_cap hresize).2⟩
  | clear =>
    obtain ⟨rfl, -⟩ := Prod.mk.inj (Option.some.inj hstep)
    exact ⟨.inl (Nat.le_refl _), rfl⟩
  | reserve cap =>
    obtain ⟨after, hreserve, heq⟩ := Option.map_eq_some_iff.mp hstep
    obtain ⟨rfl, -⟩ := Prod.mk.inj heq
    exact ⟨.inl (reserve_cap hreserve).1, (reserve_cap hreserve).2⟩
  | shrinkBuffer => exact ⟨.inr ⟨rfl, (next_shrinkBuffer h).1⟩, (next_shrinkBuffer h).2⟩

end Capacity

/-- **Growth ends** throughout a run exactly when no empty vector is shrunk in it, or no object of that
size can be asked for. -/
theorem growth_ends_iff {objectSize : Nat} (hpos : 0 < objectSize) (new : Block)
    (calls : List (Call × Block)) :
    Run.Always next GrowthEnds (create objectSize new) calls ↔
      2 ^ 63 < objectSize ∨
        Run.EachStep next (fun vec c => vec.ShrinksObjects c.1) (create objectSize new) calls := by
  by_cases hlarge : 2 ^ 63 < objectSize
  · refine iff_of_true ?_ (.inl hlarge)
    have hsteps : Run.EachStep next (fun _ _ => True) (create objectSize new) calls :=
      .of_forall fun _ _ => trivial
    refine Run.always_of_eachStep (I := fun vec => vec.objectSize = objectSize) ?_ ?_ rfl hsteps
    · rintro vec ⟨c, new⟩ vec' hobject hnext -
      exact (next_cap hnext).2.trans hobject
    · intro vec hobject
      exact growthEnds_of_large (hobject ▸ hlarge)
  · rw [or_iff_right hlarge]
    refine Run.always_iff_eachStep (I := fun vec => 0 < vec.cap ∧ vec.objectSize = objectSize)
      ?_ ?_ ?_ ⟨hpos, rfl⟩
    · rintro vec ⟨c, new⟩ vec' ⟨hcap, hobject⟩ hnext hshrinks
      obtain ⟨hafter, hobject'⟩ := next_cap hnext
      refine ⟨?_, hobject'.trans hobject⟩
      rcases hafter with hle | ⟨rfl, hsize⟩
      · exact Nat.lt_of_lt_of_le hcap hle
      · exact hsize ▸ Nat.pos_of_ne_zero hshrinks
    · exact fun vec hvec => growthEnds_of_cap_pos hvec.1
    · rintro vec ⟨c, new⟩ vec' ⟨-, hobject⟩ hnext hshrinks
      cases c with
      | shrinkBuffer =>
        obtain ⟨hcap, hobject'⟩ := next_shrinkBuffer hnext
        have hempty : vec.size = 0 := not_not.mp hshrinks
        refine not_growthEnds (hcap.trans hempty) ?_ ?_
        · rwa [hobject', hobject]
        · rw [hobject', hobject]
          exact Nat.le_of_not_lt hlarge
      | _ => exact absurd trivial hshrinks

theorem growth_ends_pushed :
    Run.Always next GrowthEnds (create 1 staleBlock)
      [(.push none, staleBlock), (.shrinkBuffer, staleBlock)] := by
  refine (growth_ends_iff (by decide) staleBlock _).mpr
    (.inr fun vec hpush => ⟨trivial, fun _ _ => ⟨?_, trivial⟩⟩)
  obtain rfl := Option.some.inj hpush
  exact Nat.one_ne_zero

theorem empty_vector_shrunk :
    ¬ Run.Always next GrowthEnds (create 1 staleBlock) [(.shrinkBuffer, staleBlock)] := by
  rintro ⟨-, hnext⟩
  obtain ⟨fuel, newcap, hgrow, -⟩ := hnext _ rfl 1 (by decide)
  have hnone : growCap 1 fuel 0 = some newcap := hgrow
  rw [growCap_zero Nat.one_pos] at hnone
  cases hnone

end Helos.Vector
