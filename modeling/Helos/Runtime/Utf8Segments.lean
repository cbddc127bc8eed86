import Helos.Runtime.ConsoleBuffer
import Helos.Theory.Loops

/-!
# Stepping through text

The loops over `utf8_Decode`: the two passes of `__io_WriteConsoleUTF8` in `runtime/stdio.c` and
`String::UnicodeIterator` in `cppruntime/string.hpp`. Here the decoder is undefined (`none`) when it reads
at or beyond the end of the text. No position passes the end, so no counter is too narrow for one.
-/

namespace Helos

/-- The switch that falls through, on the bytes from `i` on. -/
def readWithin (str : List UInt8) : Nat → Nat → UInt32 → Option UInt32
  | 0, i, output => do
    let b ← str[i]?
    some (output + b.toUInt32)
  | trailingBytes + 1, i, output => do
    let b ← str[i]?
    readWithin str trailingBytes (i + 1) ((output + b.toUInt32) <<< 6)

/-- `utf8_Decode(str + i, len, …)`: what it returns, and what it stores where the pointer is not null. -/
def decodeWithin (str : List UInt8) (i len : Nat) (stores : Bool) : Option (Nat × Option UInt32) := do
  let first ← str[i]?
  let trailingBytes := trailing.getD first.toNat 0
  if (utf8ContinuationMin ≤ first ∧ first ≤ utf8OverlongLeader2) ∨
      (utf8InvalidLeaderMin ≤ first ∧ first ≤ utf8InvalidLeaderMax) ∨ len < trailingBytes + 1 then
    some (1, if stores then some unicodeError else none)
  else if stores then do
    let output ← readWithin str trailingBytes i 0
    some (trailingBytes + 1, some (output - offsets.getD trailingBytes 0))
  else some (trailingBytes + 1, none)

variable {str : List UInt8} {i : Nat}

theorem getElem?_eq_headD (hi : i < str.length) : str[i]? = some ((str.drop i).headD 0) := by
  rw [List.getElem?_eq_getElem hi, List.drop_eq_getElem_cons hi, List.headD_cons]

theorem readWithin_eq {trailingBytes : Nat} (h : i + trailingBytes < str.length) (output : UInt32) :
    readWithin str trailingBytes i output = some (readBytes trailingBytes (str.drop i) output) := by
  induction trailingBytes generalizing i output with
  | zero =>
    have hlast : i < str.length := h
    rw [readWithin, getElem?_eq_headD hlast]
    rfl
  | succ trailingBytes ih =>
    have hfirst : i < str.length := by omega
    have hrest : i + 1 + trailingBytes < str.length := by omega
    rw [readWithin, getElem?_eq_headD hfirst]
    change readWithin str trailingBytes (i + 1) _ = _
    rw [ih hrest, readBytes, List.tail_drop]

/-- Inside of the text the decoder is defined, and it does not step out of it. -/
theorem decodeWithin_eq {len : Nat} (hlen : 0 < len) (hend : i + len ≤ str.length) (stores : Bool) :
    decodeWithin str i len stores =
      some ((utf8Decode (str.drop i) len).1,
        if stores then some (utf8Decode (str.drop i) len).2 else none) ∧
      (utf8Decode (str.drop i) len).1 ≤ len := by
  have hfirst : i < str.length := by omega
  unfold decodeWithin
  rw [getElem?_eq_headD hfirst]
  simp only [Option.bind_eq_bind, Option.bind_some]
  by_cases hrefused : Refused (str.drop i) len
  · rw [if_pos ((refused_iff _ _).mp hrefused), utf8Decode_refused hrefused]
    exact ⟨rfl, hlen⟩
  · have hguard := mt (refused_iff _ _).mpr hrefused
    have hshort : trailingBytes (str.drop i) < len := by
      unfold Refused at hrefused
      omega
    rw [if_neg hguard, utf8Decode_read hrefused]
    refine ⟨?_, hshort⟩
    cases stores with
    | false => rfl
    | true =>
      have hread := readWithin_eq (i := i) (show i + trailingBytes (str.drop i) < str.length by omega) 0
      unfold trailingBytes at hread
      rw [if_pos rfl, hread]
      rfl

/-! ### The passes of the console -/

/-- The first pass, and where it has been. -/
structure CountPass where
  i : Nat
  size : Nat
  visited : List Nat

/-- The second pass. `j` is the length of what it has stored. -/
structure StorePass where
  i : Nat
  buffer : List UInt16
  visited : List Nat

def CountPass.Inside (str : List UInt8) (p : CountPass) : Prop := p.i < str.length

def StorePass.Inside (str : List UInt8) (p : StorePass) : Prop := p.i < str.length

instance (str : List UInt8) : DecidablePred (CountPass.Inside str) := fun _ => Nat.decLt _ _

instance (str : List UInt8) : DecidablePred (StorePass.Inside str) := fun _ => Nat.decLt _ _

def CountPass.turn (str : List UInt8) (p : CountPass) : Option CountPass := do
  let (adv, _) ← decodeWithin str p.i (str.length - p.i) false
  some { i := p.i + adv, size := p.size + 1, visited := p.visited ++ [p.i] }

def StorePass.turn (str : List UInt8) (p : StorePass) : Option StorePass := do
  let (adv, stored) ← decodeWithin str p.i (str.length - p.i) true
  let codepoint ← stored
  some { i := p.i + adv, buffer := p.buffer ++ [codepoint.toUInt16], visited := p.visited ++ [p.i] }

def countPass (str : List UInt8) (fuel : Nat) : Option CountPass :=
  Loops.whileDo (CountPass.Inside str) (CountPass.turn str) fuel ⟨0, 0, []⟩

def storePass (str : List UInt8) (fuel : Nat) : Option StorePass :=
  Loops.whileDo (StorePass.Inside str) (StorePass.turn str) fuel ⟨0, [], []⟩

/-! ### The iterator of the string class -/

structure UnicodeIterator where
  i : Nat
  cur : UInt32
  adv : Nat

namespace UnicodeIterator

def decode (parent : List UInt8) (i : Nat) : Option UnicodeIterator := do
  let (adv, stored) ← decodeWithin parent i (parent.length - i) true
  let cur ← stored
  some { i, cur, adv }

/-- The constructor -/
def start (parent : List UInt8) : Option UnicodeIterator := decode parent 0

/-- `operator++`, of either form -/
def increment (parent : List UInt8) (it : UnicodeIterator) : Option UnicodeIterator :=
  if it.i + it.adv < parent.length then decode parent (it.i + it.adv)
  else some { it with i := it.i + it.adv }

def atEnd (parent : List UInt8) (it : UnicodeIterator) : Bool := parent.length ≤ it.i

end UnicodeIterator

/-- `for (UnicodeIterator i(str); !i.End(); i++)`, with the code points and the positions it comes to. -/
structure Traversal where
  it : UnicodeIterator
  codes : List UInt32
  visited : List Nat

def Traversal.Continues (str : List UInt8) (t : Traversal) : Prop := t.it.atEnd str = false

instance (str : List UInt8) : DecidablePred (Traversal.Continues str) :=
  fun _ => inferInstanceAs (Decidable (_ = _))

def Traversal.turn (str : List UInt8) (t : Traversal) : Option Traversal := do
  let it ← t.it.increment str
  some { it, codes := t.codes ++ [t.it.cur], visited := t.visited ++ [t.it.i] }

def traverse (str : List UInt8) (fuel : Nat) : Option Traversal := do
  let it ← UnicodeIterator.start str
  Loops.whileDo (Traversal.Continues str) (Traversal.turn str) fuel ⟨it, [], []⟩

/-! ### Progress -/

/-- Where the sequences start, from `i` on. -/
def positions (str : List UInt8) (i : Nat) : List Nat :=
  if i < str.length then i :: positions str (i + (utf8Decode (str.drop i) (str.length - i)).1) else []
termination_by str.length - i
decreasing_by
  have hpos := utf8Decode_pos (str.drop i) (str.length - i)
  omega

/-- The position after the one that starts at `i`. -/
def nextPosition (str : List UInt8) (i : Nat) : Nat := i + (utf8Decode (str.drop i) (str.length - i)).1

theorem decodeWithin_rest (hi : i < str.length) (stores : Bool) :
    decodeWithin str i (str.length - i) stores =
      some ((utf8Decode (str.drop i) (str.length - i)).1,
        if stores then some (utf8Decode (str.drop i) (str.length - i)).2 else none) :=
  (decodeWithin_eq (Nat.sub_pos_of_lt hi) (by omega) stores).1

theorem nextPosition_le (hi : i < str.length) : nextPosition str i ≤ str.length := by
  have hle := (decodeWithin_eq (Nat.sub_pos_of_lt hi) (show i + (str.length - i) ≤ str.length by omega) true).2
  unfold nextPosition
  omega

theorem positions_of_lt (hi : i < str.length) :
    positions str i = i :: positions str (nextPosition str i) := by
  rw [positions, if_pos hi, nextPosition]

theorem positions_end : positions str str.length = [] := by
  rw [positions, if_neg (Nat.lt_irrefl _)]

theorem decodeAll_of_lt (hi : i < str.length) :
    decodeAll str i = ((utf8Decode (str.drop i) (str.length - i)).2 :: (decodeAll str (nextPosition str i)).1,
      (decodeAll str (nextPosition str i)).2) := by
  rw [decodeAll, if_pos hi, nextPosition]

theorem decodeAll_end : decodeAll str str.length = ([], str.length) := by
  rw [decodeAll, if_neg (Nat.lt_irrefl _)]

/-- Positions come after one another and the last step arrives at the end. -/
theorem position_induction {P : (i : Nat) → i ≤ str.length → Prop} (hend : P str.length (Nat.le_refl _))
    (hnext : ∀ i (hi : i < str.length), P (nextPosition str i) (nextPosition_le hi) → P i hi.le)
    (i : Nat) (hi : i ≤ str.length) : P i hi := by
  induction hk : str.length - i using Nat.strong_induction_on generalizing i with
  | _ k ih =>
    rcases Nat.lt_or_eq_of_le hi with hlt | rfl
    · have hpos := utf8Decode_pos (str.drop i) (str.length - i)
      refine hnext i hlt (ih (str.length - nextPosition str i) ?_ _ (nextPosition_le hlt) rfl)
      unfold nextPosition
      omega
    · exact hend

theorem length_positions (hi : i ≤ str.length) :
    (positions str i).length = (decodeAll str i).1.length ∧ (decodeAll str i).2 = str.length := by
  induction i, hi using position_induction with
  | hend =>
    rw [positions_end, decodeAll_end]
    exact ⟨rfl, rfl⟩
  | hnext i hi ih =>
    rw [positions_of_lt hi, decodeAll_of_lt hi, List.length_cons, List.length_cons, ih.1]
    exact ⟨rfl, ih.2⟩

theorem countPass_from (hi : i ≤ str.length) (size : Nat) (visited : List Nat) :
    Loops.whileDo (CountPass.Inside str) (CountPass.turn str) ((positions str i).length + 1)
      ⟨i, size, visited⟩ =
        some ⟨str.length, size + (positions str i).length, visited ++ positions str i⟩ := by
  induction i, hi using position_induction generalizing size visited with
  | hend =>
    have hstop : ¬ CountPass.Inside str ⟨str.length, size, visited⟩ := Nat.lt_irrefl _
    rw [positions_end, Loops.whileDo_end hstop, List.append_nil]
    rfl
  | hnext i hi ih =>
    have hmore : CountPass.Inside str ⟨i, size, visited⟩ := hi
    rw [positions_of_lt hi, List.length_cons, Loops.whileDo_turn hmore, CountPass.turn, decodeWithin_rest hi]
    simp only [Option.bind_eq_bind, Option.bind_some]
    rw [← nextPosition, ih, List.append_assoc, Nat.add_assoc, Nat.add_comm 1]
    rfl

theorem storePass_from (hi : i ≤ str.length) (buffer : List UInt16) (visited : List Nat) :
    Loops.whileDo (StorePass.Inside str) (StorePass.turn str) ((positions str i).length + 1)
      ⟨i, buffer, visited⟩ =
        some ⟨str.length, buffer ++ (decodeAll str i).1.map UInt32.toUInt16, visited ++ positions str i⟩ := by
  induction i, hi using position_induction generalizing buffer visited with
  | hend =>
    have hstop : ¬ StorePass.Inside str ⟨str.length, buffer, visited⟩ := Nat.lt_irrefl _
    rw [positions_end, Loops.whileDo_end hstop, decodeAll_end, List.append_nil, List.map_nil,
      List.append_nil]
  | hnext i hi ih =>
    have hmore : StorePass.Inside str ⟨i, buffer, visited⟩ := hi
    rw [positions_of_lt hi, List.length_cons, Loops.whileDo_turn hmore, StorePass.turn, decodeWithin_rest hi,
      decodeAll_of_lt hi]
    simp only [Option.bind_eq_bind, Option.bind_some, if_true]
    rw [← nextPosition, ih, List.append_assoc, List.append_assoc]
    rfl

theorem iterator_decode (hi : i < str.length) :
    UnicodeIterator.decode str i = some
      { i
        cur := (utf8Decode (str.drop i) (str.length - i)).2
        adv := (utf8Decode (str.drop i) (str.length - i)).1 } := by
  rw [UnicodeIterator.decode, decodeWithin_rest hi]
  rfl

/-- A loop over an iterator that has just been set to a position. -/
theorem traverse_from (hi : i ≤ str.length) {it : UnicodeIterator} (hit : it.i = i)
    (hdecode : i < str.length → UnicodeIterator.decode str i = some it) (codes : List UInt32)
    (visited : List Nat) :
    ∃ last : UnicodeIterator, last.i = str.length ∧
      Loops.whileDo (Traversal.Continues str) (Traversal.turn str) ((positions str i).length + 1)
        ⟨it, codes, visited⟩ =
          some ⟨last, codes ++ (decodeAll str i).1, visited ++ positions str i⟩ := by
  induction i, hi using position_induction generalizing it codes visited with
  | hend =>
    have hstop : ¬ Traversal.Continues str ⟨it, codes, visited⟩ := by
      unfold Traversal.Continues UnicodeIterator.atEnd
      simp [hit]
    refine ⟨it, hit, ?_⟩
    rw [positions_end, Loops.whileDo_end hstop, decodeAll_end, List.append_nil, List.append_nil]
  | hnext i hi ih =>
    obtain rfl := Option.some.inj ((iterator_decode hi).symm.trans (hdecode hi))
    have hmore : Traversal.Continues str ⟨⟨i, (utf8Decode (str.drop i) (str.length - i)).2,
        (utf8Decode (str.drop i) (str.length - i)).1⟩, codes, visited⟩ :=
      decide_eq_false (Nat.not_le.mpr hi)
    obtain ⟨next, hnext, hnextDecode, hincrement⟩ : ∃ next : UnicodeIterator, next.i = nextPosition str i ∧
        (nextPosition str i < str.length →
          UnicodeIterator.decode str (nextPosition str i) = some next) ∧
        UnicodeIterator.increment str ⟨i, (utf8Decode (str.drop i) (str.length - i)).2,
          (utf8Decode (str.drop i) (str.length - i)).1⟩ = some next := by
      unfold UnicodeIterator.increment
      rw [← nextPosition]
      by_cases hinside : nextPosition str i < str.length
      · rw [if_pos hinside, iterator_decode hinside]
        exact ⟨_, rfl, fun _ => rfl, rfl⟩
      · rw [if_neg hinside]
        exact ⟨_, rfl, fun h => absurd h hinside, rfl⟩
    obtain ⟨last, hlast, hrest⟩ := ih hnext hnextDecode
      (codes ++ [(utf8Decode (str.drop i) (str.length - i)).2]) (visited ++ [i])
    refine ⟨last, hlast, ?_⟩
    rw [positions_of_lt hi, List.length_cons, Loops.whileDo_turn hmore, Traversal.turn]
    simp only [hincrement, Option.bind_eq_bind, Option.bind_some]
    rw [hrest, decodeAll_of_lt hi, List.append_assoc, List.append_assoc]
    rfl

theorem passes_agree (str : List UInt8) :
    countPass str ((positions str 0).length + 1) =
      some ⟨str.length, (positions str 0).length, positions str 0⟩ ∧
    storePass str ((positions str 0).length + 1) =
      some ⟨str.length, (decodeAll str 0).1.map UInt32.toUInt16, positions str 0⟩ ∧
    ((decodeAll str 0).1.map UInt32.toUInt16).length = (positions str 0).length := by
  have hzero := Nat.zero_le str.length
  refine ⟨?_, storePass_from hzero [] [], ?_⟩
  · have hcount := countPass_from hzero 0 []
    rwa [Nat.zero_add, List.nil_append] at hcount
  · rw [List.length_map, (length_positions hzero).1]

/-- **Segmentation.** Every step moves on and none reads or moves past the end; the two passes and the
iterator come to the same positions and then to the end, with as many elements stored as were counted. So
it is with the bytes that the `int` of the console counts, however many there are. -/
theorem segmentation (h : 1 ≤ str.length) :
    (∀ i, i < str.length → ∀ stores, ∃ adv stored,
      decodeWithin str i (str.length - i) stores = some (adv, stored) ∧ 1 ≤ adv ∧ i + adv ≤ str.length) ∧
    (∃ (visited : List Nat) (buffer : List UInt16) (last : UnicodeIterator),
      countPass str (visited.length + 1) = some ⟨str.length, visited.length, visited⟩ ∧
      storePass str (visited.length + 1) = some ⟨str.length, buffer, visited⟩ ∧
      buffer.length = visited.length ∧
      traverse str (visited.length + 1) = some ⟨last, (decodeAll str 0).1, visited⟩ ∧
      last.i = str.length) ∧
    ∃ fuel p q,
      countPass (str.take (toInt str.length).toNat) fuel = some p ∧
      storePass (str.take (toInt str.length).toNat) fuel = some q ∧
      q.visited = p.visited ∧ q.buffer.length = p.size ∧ p.size = (ConsoleBuffer.codepoints str).length := by
  refine ⟨?_, ?_, ?_⟩
  · intro i hi stores
    refine ⟨_, _, decodeWithin_rest hi stores, utf8Decode_pos _ _, ?_⟩
    exact nextPosition_le hi
  · obtain ⟨hcount, hstore, hlength⟩ := passes_agree str
    obtain ⟨last, hlast, htraverse⟩ := traverse_from (Nat.zero_le str.length) rfl
      (fun _ => iterator_decode h) [] []
    refine ⟨positions str 0, _, last, hcount, hstore, hlength, ?_, hlast⟩
    rw [traverse, UnicodeIterator.start, iterator_decode h]
    exact htraverse
  · obtain ⟨hcount, hstore, hlength⟩ := passes_agree (str.take (toInt str.length).toNat)
    refine ⟨_, _, _, hcount, hstore, rfl, hlength, ?_⟩
    rw [ConsoleBuffer.codepoints, (length_positions (Nat.zero_le _)).1]

/-- A leader cut off by the end, after a continuation byte without a leader. -/
theorem segmentation_malformed :
    ∃ (visited : List Nat) (buffer : List UInt16),
      storePass [0x80, 0xe2, 0x82] (visited.length + 1) = some ⟨3, buffer, visited⟩ ∧
      buffer.length = visited.length := by
  obtain ⟨-, ⟨visited, buffer, -, -, hstore, hlength, -⟩, -⟩ :=
    @segmentation [0x80, 0xe2, 0x82] (by decide)
  exact ⟨visited, buffer, hstore, hlength⟩

end Helos
