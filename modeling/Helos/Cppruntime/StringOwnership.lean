import Helos.Cppruntime.Strings
import Helos.Theory.Owners

/-!
# Who owns the characters of a string

Each live string should be empty in its own `end` or own a block, no two the same one. Copying and
destroying keep this. Moving out of a string and swapping do not, when one of the strings is empty in
its `end`: the pointer is carried over to an object it does not belong to. A string assigned to itself
reads the block it has just got.
-/

namespace Helos

/-- The block a pointer points to. -/
def CharPtr.address : CharPtr → Option Nat
  | block a => some a
  | _ => none

namespace StringStore

/-- The string is empty in its own `end`, or has a block with room for its characters and a NUL. -/
def Backed (s : StringStore) (o : Nat) (object : StringObject) : Prop :=
  (object.str = .endOf o ∧ object.size = 0) ∨
    ∃ a bytes, object.str = .block a ∧ s.heap a = some bytes ∧ bytes.length = object.size + 1 ∧
      bytes[object.size]? = some 0

/-- What is asked of every state: a block that is not in use any more has been deleted exactly as
often as it was allocated, and one in use has an owner that will delete it. -/
structure Owned (s : StringStore) : Prop where
  backed : ∀ o object, s.objects o = some object → s.Backed o object
  unique : ∀ o o' object object' a, s.objects o = some object → s.objects o' = some object' →
    object.str = .block a → object'.str = .block a → o = o'
  held : ∀ a, (s.heap a).isSome → ∃ o object, s.objects o = some object ∧ object.str = .block a
  once : ∀ a, s.allocated.count a = s.deleted.count (.block a) + if (s.heap a).isSome then 1 else 0
  onlyBlocks : ∀ p ∈ s.deleted, ∃ a, p = .block a

/-- A string that has never had a block, or was moved out of. -/
def Inline (s : StringStore) (o : Nat) : Prop :=
  ∃ object, s.objects o = some object ∧ object.str = .endOf o

def sizeOf (s : StringStore) (o : Nat) : Nat := ((s.objects o).map StringObject.size).getD 0

/-- Calls that leave every pointer with its object. -/
def Safe (s : StringStore) : StringOp → Prop
  | .constructMove _ move => ¬ s.Inline move
  | .assignMove o move => o = move ∨ ¬ s.Inline move
  | .swap o other => o = other ∨ (¬ s.Inline o ∧ ¬ s.Inline other)
  | .assignCopy o other b => o = other → b.junk (s.sizeOf o) = 0
  | _ => True

/-! ### The invariant -/

def books (s : StringStore) : Owners Nat Nat where
  holds o := (s.objects o).bind fun object => object.str.address
  live a := (s.heap a).isSome
  allocated := s.allocated
  released := s.deleted.filterMap CharPtr.address

structure Kept (s : StringStore) : Prop where
  backed : ∀ o object, s.objects o = some object → s.Backed o object
  endChar : ∀ o object, s.objects o = some object → object.endChar = 0
  books : s.books.Sound
  onlyBlocks : ∀ p ∈ s.deleted, ∃ a, p = .block a

variable {s : StringStore} {o o' : Nat} {object : StringObject}

theorem holds_eq_some {a : Nat} :
    s.books.holds o = some a ↔ ∃ object, s.objects o = some object ∧ object.str = .block a := by
  simp only [StringStore.books, Option.bind_eq_some_iff]
  apply exists_congr
  intro object
  apply and_congr_right
  intro _
  cases object.str <;> simp [CharPtr.address]

theorem count_released (s : StringStore) (a : Nat) :
    s.books.released.count a = s.deleted.count (.block a) := by
  simp only [StringStore.books]
  induction s.deleted with
  | nil => rfl
  | cons p ps ih => cases p <;> simp [CharPtr.address, List.filterMap_cons, List.count_cons, ih]

theorem Kept.owned (h : s.Kept) : s.Owned where
  backed := h.backed
  unique o o' object object' a ho ho' hp hp' :=
    h.books.unique o o' a (holds_eq_some.mpr ⟨object, ho, hp⟩) (holds_eq_some.mpr ⟨object', ho', hp'⟩)
  held a ha := by
    obtain ⟨o, ho⟩ := (h.books.live_iff a).mp ha
    exact ⟨o, holds_eq_some.mp ho⟩
  once a := by
    rw [← count_released]
    exact h.books.once a
  onlyBlocks := h.onlyBlocks

/-- An object's characters, when other blocks than its own change. -/
theorem Backed.congr {t : StringStore} (h : s.Backed o object)
    (hheap : ∀ a, object.str = .block a → t.heap a = s.heap a) : t.Backed o object := by
  rcases h with hinline | ⟨a, bytes, hstr, hbytes, hrest⟩
  · exact .inl hinline
  · exact .inr ⟨a, bytes, hstr, (hheap a hstr).trans hbytes, hrest⟩

/-! ### Giving an object a new block -/

/-- The store once `o` has a new block with these characters. -/
def filled (s : StringStore) (o a size : Nat) (bytes : List UInt8) : StringStore where
  objects := Function.update s.objects o (some ⟨0, .block a, size⟩)
  heap := Function.update s.heap a (some bytes)
  allocated := a :: s.allocated
  deleted := s.deleted

theorem write_filled (s : StringStore) (o a size : Nat) {old : List UInt8} {offset : Nat}
    {bytes : List UInt8} (hfit : offset + bytes.length ≤ old.length) :
    (s.filled o a size old).write (.block a) offset bytes =
      some (s.filled o a size (old.take offset ++ bytes ++ old.drop (offset + bytes.length))) := by
  simp only [write, filled, Function.update_self, Option.bind_eq_bind, Option.bind_some, if_pos hfit,
    Function.update_idem]

def junkBytes (b : NewBlock) (n : Nat) : List UInt8 := (List.range n).map b.junk

theorem length_junkBytes (b : NewBlock) (n : Nat) : (junkBytes b n).length = n := by
  simp [junkBytes]

theorem newChars_setObject (s : StringStore) (o size : Nat) (b : NewBlock) :
    (s.newChars b (size + 1)).setObject o ⟨0, .block b.addr, size⟩ =
      s.filled o b.addr size (junkBytes b (size + 1)) := rfl

theorem write_all (s : StringStore) (o size : Nat) (b : NewBlock) {bytes : List UInt8}
    (hbytes : bytes.length = size + 1) :
    (s.filled o b.addr size (junkBytes b (size + 1))).write (.block b.addr) 0 bytes =
      some (s.filled o b.addr size bytes) := by
  have hlength := length_junkBytes b (size + 1)
  rw [write_filled s o b.addr size (by omega), List.drop_eq_nil_of_le (by omega)]
  simp

/-- Fewer characters, and a NUL behind the last. -/
theorem write_terminated (s : StringStore) (o size : Nat) (b : NewBlock) (bytes : List UInt8)
    (hbytes : bytes.length ≤ size) :
    ∃ content, ((s.filled o b.addr size (junkBytes b (size + 1))).write (.block b.addr) 0 bytes).bind
        (fun s => s.write (.block b.addr) size [0]) = some (s.filled o b.addr size content) ∧
      content.length = size + 1 ∧ content[size]? = some 0 := by
  have hjunk := length_junkBytes b (size + 1)
  have hlength : ((junkBytes b (size + 1)).take 0 ++ bytes ++
      (junkBytes b (size + 1)).drop (0 + bytes.length)).length = size + 1 := by
    simp only [List.length_append, List.length_take, List.length_drop, hjunk]
    omega
  rw [write_filled s o b.addr size (by omega), Option.bind_some,
    write_filled s o b.addr size (by rw [hlength]; exact Nat.le_refl _)]
  generalize (junkBytes b (size + 1)).take 0 ++ bytes ++
    (junkBytes b (size + 1)).drop (0 + bytes.length) = old at *
  refine ⟨_, rfl, ?_, ?_⟩
  · simp [hlength]
  · simp [hlength]

theorem Kept.filled (h : s.Kept) (ho : s.objects o = none) {a size : Nat} {bytes : List UInt8}
    (ha : s.heap a = none) (hlength : bytes.length = size + 1) (hnul : bytes[size]? = some 0) :
    (s.filled o a size bytes).Kept := by
  have hbooks : (s.filled o a size bytes).books = s.books.acquire o a := by
    refine Owners.ext (funext fun k => ?_) (funext fun x => ?_) rfl rfl
    · by_cases hk : k = o
      · subst hk
        simp [StringStore.books, StringStore.filled, Owners.acquire, CharPtr.address]
      · simp [StringStore.books, StringStore.filled, Owners.acquire, Function.update_of_ne hk]
    · by_cases hx : x = a
      · subst hx
        simp [StringStore.books, StringStore.filled, Owners.acquire]
      · simp [StringStore.books, StringStore.filled, Owners.acquire, Function.update_of_ne hx]
  refine ⟨fun k object hk => ?_, fun k object hk => ?_, ?_, h.onlyBlocks⟩
  · simp only [StringStore.filled, Function.update_apply] at hk
    split at hk
    · cases hk
      exact .inr ⟨a, bytes, rfl, Function.update_self .., hlength, hnul⟩
    · refine (h.backed k object hk).congr fun x hx => Function.update_of_ne ?_ _ _
      rintro rfl
      have hlive := h.books.live_of_holds (holds_eq_some.mpr ⟨object, hk, hx⟩)
      simp [StringStore.books, ha] at hlive
  · simp only [StringStore.filled, Function.update_apply] at hk
    split at hk
    · cases hk
      rfl
    · exact h.endChar k object hk
  · rw [hbooks]
    refine h.books.acquire ?_ ?_
    · simp [StringStore.books, ho]
    · simp [StringStore.books, ha]

/-! ### Empty strings, and strings that go away -/

theorem Kept.construct (h : s.Kept) (ho : s.objects o = none) : (s.construct o).Kept := by
  have hbooks : (s.construct o).books = s.books := by
    refine Owners.ext (funext fun k => ?_) rfl rfl rfl
    by_cases hk : k = o
    · subst hk
      simp [StringStore.books, StringStore.construct, setObject, CharPtr.address, ho]
    · simp [StringStore.books, StringStore.construct, setObject, Function.update_of_ne hk]
  refine ⟨fun k object hk => ?_, fun k object hk => ?_, hbooks ▸ h.books, h.onlyBlocks⟩
  · simp only [StringStore.construct, setObject, Function.update_apply] at hk
    split at hk
    · next heq =>
      cases hk
      exact .inl ⟨congrArg CharPtr.endOf heq.symm, rfl⟩
    · exact h.backed k object hk
  · simp only [StringStore.construct, setObject, Function.update_apply] at hk
    split at hk
    · cases hk
      rfl
    · exact h.endChar k object hk

/-- The store once the string at `o` is gone, with what it owned. -/
def gone (s : StringStore) (o : Nat) (object : StringObject) : StringStore :=
  { s.releaseStr o object with objects := Function.update s.objects o none }

theorem objects_releaseStr (s : StringStore) (o : Nat) (object : StringObject) :
    (s.releaseStr o object).objects = s.objects := by
  unfold releaseStr
  split <;> rfl

theorem destruct_eq (ho : s.objects o = some object) : s.destruct o = some (s.gone o object) := by
  simp only [destruct, ho, gone, objects_releaseStr, Option.bind_eq_bind, Option.bind_some]

theorem releaseStr_inline (hstr : object.str = .endOf o) : s.releaseStr o object = s :=
  if_pos (.inr hstr)

theorem releaseStr_block {a : Nat} (hstr : object.str = .block a) :
    s.releaseStr o object = s.deleteChars (.block a) := by
  simp [releaseStr, hstr]

/-- Nothing is deleted where there are no characters of its own. -/
theorem gone_inline (ho : s.objects o = some object) (hstr : object.str = .endOf o) :
    (s.gone o object).books = s.books ∧ (s.gone o object).heap = s.heap ∧
      (s.gone o object).deleted = s.deleted := by
  rw [StringStore.gone, releaseStr_inline hstr]
  refine ⟨Owners.ext (funext fun k => ?_) rfl rfl rfl, rfl, rfl⟩
  by_cases hk : k = o
  · subst hk
    simp [StringStore.books, ho, hstr, CharPtr.address]
  · simp [StringStore.books, Function.update_of_ne hk]

theorem gone_block {a : Nat} (ho : s.objects o = some object) (hstr : object.str = .block a) :
    (s.gone o object).books = s.books.release o ∧
      (s.gone o object).heap = Function.update s.heap a none ∧
      (s.gone o object).deleted = .block a :: s.deleted := by
  have hholds : s.books.holds o = some a := holds_eq_some.mpr ⟨object, ho, hstr⟩
  rw [StringStore.gone, releaseStr_block hstr, Owners.release_some hholds]
  refine ⟨Owners.ext (funext fun k => ?_) (funext fun x => ?_) rfl rfl, rfl, rfl⟩
  · by_cases hk : k = o
    · subst hk
      simp [StringStore.books]
    · simp [StringStore.books, Function.update_of_ne hk]
  · by_cases hx : x = a
    · subst hx
      simp [StringStore.books, deleteChars]
    · simp [StringStore.books, deleteChars, Function.update_of_ne hx]

theorem Kept.gone (h : s.Kept) (ho : s.objects o = some object) : (s.gone o object).Kept := by
  have hobjects : ∀ k object', (s.gone o object).objects k = some object' →
      k ≠ o ∧ s.objects k = some object' := by
    intro k object' hk
    simp only [StringStore.gone, Function.update_apply] at hk
    split at hk
    · cases hk
    · exact ⟨‹_›, hk⟩
  rcases h.backed o object ho with ⟨hstr, -⟩ | ⟨a, bytes, hstr, -⟩
  · obtain ⟨hbooks, hheap, hdeleted⟩ := gone_inline ho hstr
    refine ⟨fun k object' hk => ?_, fun k object' hk => h.endChar k object' (hobjects k object' hk).2,
      hbooks ▸ h.books, hdeleted ▸ h.onlyBlocks⟩
    exact (h.backed k object' (hobjects k object' hk).2).congr fun x _ => congrFun hheap x
  · obtain ⟨hbooks, hheap, hdeleted⟩ := gone_block ho hstr
    refine ⟨fun k object' hk => ?_, fun k object' hk => h.endChar k object' (hobjects k object' hk).2,
      hbooks ▸ h.books.release o, ?_⟩
    · obtain ⟨hne, hk'⟩ := hobjects k object' hk
      refine (h.backed k object' hk').congr fun x hx => ?_
      rw [hheap]
      refine Function.update_of_ne ?_ _ _
      rintro rfl
      exact hne (h.books.unique k o x (holds_eq_some.mpr ⟨object', hk', hx⟩)
        (holds_eq_some.mpr ⟨object, ho, hstr⟩))
    · rw [hdeleted]
      exact List.forall_mem_cons.mpr ⟨⟨a, rfl⟩, h.onlyBlocks⟩

/-! ### Strings that change hands -/

/-- The store once the characters of `move` belong to the new object `o`. -/
def moved (s : StringStore) (o move : Nat) (source : StringObject) : StringStore :=
  { s with
    objects := Function.update (Function.update s.objects o (some ⟨0, source.str, source.size⟩)) move
      (some { source with str := .endOf move, size := 0 }) }

theorem Kept.moved (h : s.Kept) {move a : Nat} {source : StringObject} (ho : s.objects o = none)
    (hmove : s.objects move = some source) (hstr : source.str = .block a) :
    (s.moved o move source).Kept := by
  have hne : o ≠ move := by
    rintro rfl
    cases ho.symm.trans hmove
  have hholds : s.books.holds o = none := by simp [StringStore.books, ho]
  have hbooks : (s.moved o move source).books = s.books.transfer move o := by
    refine Owners.ext (funext fun k => ?_) rfl rfl rfl
    by_cases hk : k = move
    · subst hk
      simp [StringStore.books, StringStore.moved, Owners.transfer, CharPtr.address,
        Function.update_of_ne hne.symm]
    · by_cases hk' : k = o
      · subst hk'
        simp [StringStore.books, StringStore.moved, Owners.transfer, hmove, Function.update_of_ne hk]
      · simp [StringStore.books, StringStore.moved, Owners.transfer, Function.update_of_ne hk,
          Function.update_of_ne hk']
  have hobjects : ∀ k object, (s.moved o move source).objects k = some object →
      (k = move ∧ object = { source with str := .endOf move, size := 0 }) ∨
      (k = o ∧ object = ⟨0, source.str, source.size⟩) ∨ s.objects k = some object := by
    intro k object hk
    simp only [StringStore.moved, Function.update_apply] at hk
    split at hk
    · exact .inl ⟨‹_›, (Option.some.inj hk).symm⟩
    · split at hk
      · exact .inr (.inl ⟨‹_›, (Option.some.inj hk).symm⟩)
      · exact .inr (.inr hk)
  refine ⟨fun k object hk => ?_, fun k object hk => ?_, hbooks ▸ h.books.transfer hholds,
    h.onlyBlocks⟩
  · rcases hobjects k object hk with ⟨rfl, rfl⟩ | ⟨rfl, rfl⟩ | hk
    · exact .inl ⟨rfl, rfl⟩
    · rcases h.backed move source hmove with ⟨hinline, -⟩ | hblock
      · cases hstr.symm.trans hinline
      · exact .inr hblock
    · exact h.backed k object hk
  · rcases hobjects k object hk with ⟨rfl, rfl⟩ | ⟨rfl, rfl⟩ | hk
    · exact h.endChar k source hmove
    · rfl
    · exact h.endChar k object hk

def swapped (s : StringStore) (o other : Nat) (object source : StringObject) : StringStore :=
  { s with
    objects := Function.update
      (Function.update s.objects o (some { object with str := source.str, size := source.size })) other
      (some { source with str := object.str, size := object.size }) }

theorem Kept.swapped (h : s.Kept) {other a a' : Nat} {source : StringObject}
    (ho : s.objects o = some object) (hother : s.objects other = some source)
    (hstr : object.str = .block a) (hstr' : source.str = .block a') :
    (s.swapped o other object source).Kept := by
  have hbooks : (s.swapped o other object source).books = s.books.exchange o other := by
    refine Owners.ext (funext fun k => ?_) rfl rfl rfl
    by_cases hk : k = other
    · subst hk
      simp [StringStore.books, StringStore.swapped, Owners.exchange, ho]
    · by_cases hk' : k = o
      · subst hk'
        simp [StringStore.books, StringStore.swapped, Owners.exchange, hother, Function.update_of_ne hk]
      · simp [StringStore.books, StringStore.swapped, Owners.exchange, Function.update_of_ne hk,
          Function.update_of_ne hk']
  have hblock : ∀ k object' a, s.objects k = some object' → object'.str = .block a →
      ∀ k' c, s.Backed k' ⟨c, object'.str, object'.size⟩ := by
    intro k object' a hk ha k' c
    rcases h.backed k object' hk with ⟨hinline, -⟩ | hblock
    · cases ha.symm.trans hinline
    · exact .inr hblock
  have hobjects : ∀ k object', (s.swapped o other object source).objects k = some object' →
      object' = { source with str := object.str, size := object.size } ∨
      object' = { object with str := source.str, size := source.size } ∨ s.objects k = some object' := by
    intro k object' hk
    simp only [StringStore.swapped, Function.update_apply] at hk
    split at hk
    · exact .inl (Option.some.inj hk).symm
    · split at hk
      · exact .inr (.inl (Option.some.inj hk).symm)
      · exact .inr (.inr hk)
  refine ⟨fun k object' hk => ?_, fun k object' hk => ?_, hbooks ▸ h.books.exchange o other,
    h.onlyBlocks⟩
  · rcases hobjects k object' hk with rfl | rfl | hk
    · exact hblock o object a ho hstr k _
    · exact hblock other source a' hother hstr' k _
    · exact h.backed k object' hk
  · rcases hobjects k object' hk with rfl | rfl | hk
    · exact h.endChar other source hother
    · exact h.endChar o object ho
    · exact h.endChar k object' hk

/-! ### One call -/

section Step

variable {other : Nat} {source : StringObject} {b : NewBlock}

theorem Kept.contents (h : s.Kept) (hother : s.objects other = some source) :
    ∃ bytes, s.contents source.str = some bytes ∧ bytes.length = source.size + 1 ∧
      bytes[source.size]? = some 0 := by
  rcases h.backed other source hother with ⟨hstr, hsize⟩ | ⟨a, bytes, hstr, hbytes, hrest⟩
  · have hend := h.endChar other source hother
    exact ⟨[0], by simp [StringStore.contents, hstr, hother, hend], by simp [hsize], by simp [hsize]⟩
  · exact ⟨bytes, by rw [hstr]; exact hbytes, hrest⟩

theorem read_eq {p : CharPtr} {bytes : List UInt8} {n : Nat} (h : s.contents p = some bytes)
    (hlength : bytes.length = n) : s.read p n = some bytes := by
  subst hlength
  simp only [read, h, Option.bind_eq_bind, Option.bind_some, Nat.le_refl, if_true, List.take_length]

/-- The characters of other strings are where they were. -/
theorem Kept.contents_filled (h : s.Kept) (hother : s.objects other = some source) (hne : other ≠ o)
    {a : Nat} (ha : s.heap a = none) (size : Nat) (junk : List UInt8) :
    (s.filled o a size junk).contents source.str = s.contents source.str := by
  rcases h.backed other source hother with ⟨hstr, -⟩ | ⟨a', bytes, hstr, hbytes, -⟩
  · simp [StringStore.contents, hstr, StringStore.filled, Function.update_of_ne hne]
  · have hne' : a' ≠ a := by
      rintro rfl
      cases ha.symm.trans hbytes
    simp [StringStore.contents, hstr, StringStore.filled, Function.update_of_ne hne']

theorem constructCString_eq (s : StringStore) (o : Nat) (cstr : List UInt8) (b : NewBlock) :
    s.constructCString o cstr b = some (s.filled o b.addr cstr.length (cstr ++ [0])) :=
  write_all s o cstr.length b List.length_append

theorem constructSized_eq (s : StringStore) (o : Nat) (cstr : List UInt8) (b : NewBlock) :
    ∃ content, s.constructSized o cstr b = some (s.filled o b.addr cstr.length content) ∧
      content.length = cstr.length + 1 ∧ content[cstr.length]? = some 0 :=
  write_terminated s o cstr.length b cstr (Nat.le_refl _)

theorem constructUnicode_eq (s : StringStore) (o : Nat) (unicode : UInt32) (b : NewBlock) :
    ∃ size content, s.constructUnicode o unicode b = some (s.filled o b.addr size content) ∧
      content.length = size + 1 ∧ content[size]? = some 0 :=
  ⟨(utf8Encode unicode).1, write_terminated s o _ b _ (List.length_take_le _ _)⟩

theorem Kept.constructCopy_eq (h : s.Kept) (ho : s.objects o = none)
    (hother : s.objects other = some source) (hb : s.heap b.addr = none) :
    ∃ bytes, s.constructCopy o other b = some (s.filled o b.addr source.size bytes) ∧
      bytes.length = source.size + 1 ∧ bytes[source.size]? = some 0 := by
  have hne : other ≠ o := by
    rintro rfl
    cases ho.symm.trans hother
  obtain ⟨bytes, hcontents, hlength, hnul⟩ := h.contents hother
  refine ⟨bytes, ?_, hlength, hnul⟩
  have hread : (s.filled o b.addr source.size (junkBytes b (source.size + 1))).read source.str
      (source.size + 1) = some bytes :=
    read_eq ((h.contents_filled hother hne hb _ _).trans hcontents) hlength
  simp only [constructCopy, hother, newChars_setObject, hread, write_all s o source.size b hlength,
    Option.bind_eq_bind, Option.bind_some]

theorem Kept.substring_eq (h : s.Kept) (ho : s.objects o = none)
    (hother : s.objects other = some source) (hb : s.heap b.addr = none) (offset count : Nat)
    (beyond : Nat → UInt8) :
    ∃ content, s.substring o other offset count b beyond =
        some (s.filled o b.addr count content) ∧
      content.length = count + 1 ∧ content[count]? = some 0 := by
  have hne : other ≠ o := by
    rintro rfl
    cases ho.symm.trans hother
  obtain ⟨bytes, hcontents, -⟩ := h.contents hother
  have hstore : ((s.construct o).newChars b (count + 1)).setObject o ⟨0, .block b.addr, count⟩ =
      s.filled o b.addr count (junkBytes b (count + 1)) := by
    simp [StringStore.construct, setObject, newChars, StringStore.filled, junkBytes]
  have hread := h.contents_filled hother hne hb count (junkBytes b (count + 1))
  obtain ⟨content, hwrite, hrest⟩ := write_terminated s o count b
    ((List.range count).map fun i => (bytes[offset + i]?).getD (beyond i)) (by simp)
  refine ⟨content, ?_, hrest⟩
  simp only [substring, hother, hstore, hread, hcontents, Option.bind_eq_bind, Option.bind_some]
  exact hwrite

theorem constructMove_eq (ho : s.objects o = none) {move : Nat} (hmove : s.objects move = some source) :
    s.constructMove o move = some (s.moved o move source) := by
  have hne : move ≠ o := by
    rintro rfl
    cases ho.symm.trans hmove
  simp only [constructMove, reset, hmove, setObject, moved, Function.update_of_ne hne,
    Option.bind_eq_bind, Option.bind_some]

/-- Assigning is destroying and constructing again. -/
theorem assignCopy_eq (ho : s.objects o = some object) (hend : object.endChar = 0) (hne : o ≠ other)
    (b : NewBlock) : s.assignCopy o other b = (s.gone o object).constructCopy o other b := by
  cases hother : s.objects other with
  | none =>
    simp only [assignCopy, constructCopy, ho, gone, objects_releaseStr, hother,
      Function.update_of_ne hne.symm, Option.bind_eq_bind, Option.bind_some, Option.bind_none]
  | some source =>
    simp only [assignCopy, constructCopy, ho, gone, objects_releaseStr, hother,
      Function.update_of_ne hne.symm, Option.bind_eq_bind, Option.bind_some, newChars, setObject,
      Function.update_idem, hend]

theorem assignCopy_self (ho : s.objects o = some object) (hend : object.endChar = 0) (b : NewBlock) :
    s.assignCopy o o b =
      some ((s.gone o object).filled o b.addr object.size (junkBytes b (object.size + 1))) := by
  have hlength := length_junkBytes b (object.size + 1)
  have hstore : ((s.releaseStr o object).newChars b (object.size + 1)).setObject o
      { object with str := .block b.addr, size := object.size } =
        (s.gone o object).filled o b.addr object.size (junkBytes b (object.size + 1)) := by
    simp [gone, newChars, setObject, filled, junkBytes, objects_releaseStr, hend]
  have hobject : ((s.gone o object).filled o b.addr object.size
      (junkBytes b (object.size + 1))).objects o = some ⟨0, .block b.addr, object.size⟩ :=
    Function.update_self ..
  have hread : ((s.gone o object).filled o b.addr object.size
      (junkBytes b (object.size + 1))).read (.block b.addr) (object.size + 1) =
        some (junkBytes b (object.size + 1)) :=
    read_eq (Function.update_self ..) hlength
  simp only [assignCopy, ho, objects_releaseStr, hstore, hobject, hread, Option.bind_eq_bind,
    Option.bind_some]
  exact write_all _ o object.size b hlength

theorem assignMove_eq (ho : s.objects o = some object) (hend : object.endChar = 0) {move : Nat}
    (hne : o ≠ move) : s.assignMove o move = (s.gone o object).constructMove o move := by
  simp only [assignMove, constructMove, ho, gone, objects_releaseStr, Function.update_of_ne hne.symm,
    Option.bind_eq_bind, Option.bind_some, setObject, Function.update_idem, hend]

theorem assignMove_self (ho : s.objects o = some object) (hend : object.endChar = 0) :
    s.assignMove o o = some ((s.gone o object).construct o) := by
  simp [assignMove, reset, ho, objects_releaseStr, setObject, gone, construct, hend]

theorem swap_eq (ho : s.objects o = some object) (hother : s.objects other = some source)
    (hne : o ≠ other) : s.swap o other = some (s.swapped o other object source) := by
  simp only [swap, ho, hother, setObject, swapped, Function.update_of_ne hne.symm,
    Option.bind_eq_bind, Option.bind_some]

theorem swap_self (ho : s.objects o = some object) : s.swap o o = some s := by
  have hset : s.setObject o object = s := by
    unfold setObject
    rw [← ho, Function.update_eq_self]
  calc
    s.swap o o = ((s.setObject o object).objects o).bind fun source =>
        some ((s.setObject o object).setObject o
          { source with str := object.str, size := object.size }) := by
      simp only [swap, ho, Option.bind_eq_bind, Option.bind_some]
    _ = some s := by
      rw [hset, ho]
      exact congrArg some hset

theorem Kept.block_of_not_inline (h : s.Kept) (ho : s.objects o = some object)
    (hinline : ¬ s.Inline o) : ∃ a, object.str = .block a := by
  rcases h.backed o object ho with ⟨hstr, -⟩ | ⟨a, -, hstr, -⟩
  · exact absurd ⟨object, ho, hstr⟩ hinline
  · exact ⟨a, hstr⟩

theorem objects_gone_self (s : StringStore) (o : Nat) (object : StringObject) :
    (s.gone o object).objects o = none :=
  Function.update_self ..

theorem objects_gone_of_ne (object : StringObject) {k : Nat} (hne : k ≠ o) :
    (s.gone o object).objects k = s.objects k :=
  Function.update_of_ne hne _ _

theorem Kept.assignCopy (h : s.Kept) (ho : s.objects o = some object)
    (hother : s.objects other = some source) {b : NewBlock}
    (hfresh : (s.gone o object).heap b.addr = none) (hsafe : s.Safe (.assignCopy o other b)) :
    ∃ s', s.assignCopy o other b = some s' ∧ s'.Kept := by
  have hend := h.endChar o object ho
  have hgone := h.gone ho
  have hnone := objects_gone_self s o object
  by_cases heq : o = other
  · subst heq
    have hjunk : (junkBytes b (object.size + 1))[object.size]? = some 0 := by
      have hzero := hsafe rfl
      simp only [sizeOf, ho, Option.map_some, Option.getD_some] at hzero
      simp [junkBytes, hzero]
    exact ⟨_, assignCopy_self ho hend b, hgone.filled hnone hfresh (length_junkBytes _ _) hjunk⟩
  · obtain ⟨bytes, hrun, hlength, hnul⟩ := hgone.constructCopy_eq hnone
      ((objects_gone_of_ne object (Ne.symm heq)).trans hother) hfresh
    exact ⟨_, (assignCopy_eq ho hend heq b).trans hrun, hgone.filled hnone hfresh hlength hnul⟩

theorem Kept.assignMove (h : s.Kept) {move : Nat} (ho : s.objects o = some object)
    (hmove : s.objects move = some source) (hsafe : s.Safe (.assignMove o move)) :
    ∃ s', s.assignMove o move = some s' ∧ s'.Kept := by
  have hend := h.endChar o object ho
  have hgone := h.gone ho
  have hnone := objects_gone_self s o object
  by_cases heq : o = move
  · subst heq
    exact ⟨_, assignMove_self ho hend, hgone.construct hnone⟩
  · obtain ⟨a, hstr⟩ := h.block_of_not_inline hmove (hsafe.resolve_left heq)
    have hmove' := (objects_gone_of_ne (s := s) object (Ne.symm heq)).trans hmove
    exact ⟨_, (assignMove_eq ho hend heq).trans (constructMove_eq hnone hmove'),
      hgone.moved hnone hmove' hstr⟩

theorem Kept.swap (h : s.Kept) (ho : s.objects o = some object)
    (hother : s.objects other = some source) (hsafe : s.Safe (.swap o other)) :
    ∃ s', s.swap o other = some s' ∧ s'.Kept := by
  by_cases heq : o = other
  · subst heq
    exact ⟨s, swap_self ho, h⟩
  · obtain ⟨hinline, hinline'⟩ := hsafe.resolve_left heq
    obtain ⟨a, hstr⟩ := h.block_of_not_inline ho hinline
    obtain ⟨a', hstr'⟩ := h.block_of_not_inline hother hinline'
    exact ⟨_, swap_eq ho hother heq, h.swapped ho hother hstr hstr'⟩

/-- A safe call is defined, and every string still owns its characters. -/
theorem Kept.step (h : s.Kept) {op : StringOp} (hv : op.Valid s) (hsafe : s.Safe op) :
    ∃ s', s.step op = some s' ∧ s'.Kept := by
  have halive : ∀ k ∈ op.operands, ∃ object, s.objects k = some object := fun k hk =>
    Option.isSome_iff_exists.mp (hv.alive k hk)
  cases op with
  | construct o => exact ⟨_, rfl, h.construct (hv.storage o rfl)⟩
  | constructCString o cstr b =>
    exact ⟨_, constructCString_eq s o cstr b,
      h.filled (hv.storage o rfl) (hv.fresh b rfl) List.length_append (by simp)⟩
  | constructSized o cstr b =>
    obtain ⟨content, hrun, hlength, hnul⟩ := constructSized_eq s o cstr b
    exact ⟨_, hrun, h.filled (hv.storage o rfl) (hv.fresh b rfl) hlength hnul⟩
  | constructUnicode o unicode b =>
    obtain ⟨size, content, hrun, hlength, hnul⟩ := constructUnicode_eq s o unicode b
    exact ⟨_, hrun, h.filled (hv.storage o rfl) (hv.fresh b rfl) hlength hnul⟩
  | constructCopy o other b =>
    obtain ⟨source, hother⟩ := halive other (by simp [StringOp.operands])
    obtain ⟨bytes, hrun, hlength, hnul⟩ :=
      h.constructCopy_eq (hv.storage o rfl) hother (hv.fresh b rfl)
    exact ⟨_, hrun, h.filled (hv.storage o rfl) (hv.fresh b rfl) hlength hnul⟩
  | constructMove o move =>
    obtain ⟨source, hmove⟩ := halive move (by simp [StringOp.operands])
    obtain ⟨a, hstr⟩ := h.block_of_not_inline hmove hsafe
    exact ⟨_, constructMove_eq (hv.storage o rfl) hmove, h.moved (hv.storage o rfl) hmove hstr⟩
  | destruct o =>
    obtain ⟨object, ho⟩ := halive o (by simp [StringOp.operands])
    exact ⟨_, destruct_eq ho, h.gone ho⟩
  | assignCopy o other b =>
    obtain ⟨object, ho⟩ := halive o (by simp [StringOp.operands])
    obtain ⟨source, hother⟩ := halive other (by simp [StringOp.operands])
    have hfresh : (s.gone o object).heap b.addr = none := by
      have hb := hv.fresh b rfl
      simp only [StringOp.heapAtNew, ho, Option.elim_some] at hb
      exact hb
    exact h.assignCopy ho hother hfresh hsafe
  | assignMove o move =>
    obtain ⟨object, ho⟩ := halive o (by simp [StringOp.operands])
    obtain ⟨source, hmove⟩ := halive move (by simp [StringOp.operands])
    exact h.assignMove ho hmove hsafe
  | swap o other =>
    obtain ⟨object, ho⟩ := halive o (by simp [StringOp.operands])
    obtain ⟨source, hother⟩ := halive other (by simp [StringOp.operands])
    exact h.swap ho hother hsafe
  | substring o other offset count b beyond =>
    obtain ⟨source, hother⟩ := halive other (by simp [StringOp.operands])
    obtain ⟨content, hrun, hlength, hnul⟩ :=
      h.substring_eq (hv.storage o rfl) hother (hv.fresh b rfl) offset count beyond
    exact ⟨_, hrun, h.filled (hv.storage o rfl) (hv.fresh b rfl) hlength hnul⟩

end Step

/-! ### Runs -/

/-- `m->where = runtime::String(where, len);`, as `Mount` does: the temporary has a block. -/
theorem assign_temporary_safe (h : s.Kept) {temporary : Nat} (ho : s.objects o = some object)
    (ht : s.objects temporary = none) (cstr : List UInt8) {b : NewBlock}
    (hb : s.heap b.addr = none) :
    ∃ s', Run.exec step s
      [.constructSized temporary cstr b, .assignMove o temporary, .destruct temporary] = some s' ∧
        s'.Kept := by
  have hne : o ≠ temporary := by
    rintro rfl
    cases ht.symm.trans ho
  obtain ⟨content, hrun, hlength, hnul⟩ := constructSized_eq s temporary cstr b
  have h₁ := h.filled ht hb hlength hnul
  have htemporary : (s.filled temporary b.addr cstr.length content).objects temporary =
      some ⟨0, .block b.addr, cstr.length⟩ := Function.update_self ..
  have ho₁ : (s.filled temporary b.addr cstr.length content).objects o = some object :=
    (Function.update_of_ne hne _ _).trans ho
  have hgone := h₁.gone ho₁
  have hmove := (objects_gone_of_ne (s := s.filled temporary b.addr cstr.length content)
    object (Ne.symm hne)).trans htemporary
  have hassign := (assignMove_eq ho₁ (h.endChar o object ho) hne).trans
    (constructMove_eq (objects_gone_self _ o object) hmove)
  have h₂ := hgone.moved (objects_gone_self _ o object) hmove rfl
  have hempty := Function.update_self temporary
    (some (⟨0, .endOf temporary, 0⟩ : StringObject))
    (Function.update ((s.filled temporary b.addr cstr.length content).gone o object).objects o
      (some ⟨0, .block b.addr, cstr.length⟩))
  refine ⟨_, ?_, h₂.gone hempty⟩
  simp only [Run.exec_cons, step, hrun, hassign, Option.bind_some, Run.exec_nil]
  rw [destruct_eq hempty, Option.bind_some]

end StringStore

end Helos
