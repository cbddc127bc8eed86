import Helos.Smp.Sync
import Helos.Theory.LittleEndian
import Helos.Util.Vector

/-!
# Conditions and their vectors

The functions of `smp/condiction.c`, with `c->threads` as the vector of pointers that it is in memory.
They do what the same functions do on lists of threads, as long as the pointers fit the vector.
-/

namespace Helos

/-- The field `wait` of each thread and the field `threads` of each condition. -/
structure Conditions where
  wait : Addr → Option Waiting
  threads : Addr → Vector

def sizeofPointer : Nat := 8

/-- The field `threads` that `smp_Condition_Create` leaves. -/
def createThreads (vector : Block) : Vector := Vector.create sizeofPointer vector

namespace Conditions

/-- `t->wait->object` -/
def object (s : Conditions) (t : Addr) : Ptr := (s.wait t).bind Waiting.object

/-- The bytes of `t`, at `&t`. -/
def pointerBytes (t : Addr) : List UInt8 := LittleEndian.encode sizeofPointer t

/-- `*(__smp_Thread **)vector_At(c->threads, i)` -/
def threadAt (s : Conditions) (c : Addr) (i : Nat) : Option Addr :=
  ((s.threads c).load i).map LittleEndian.decode

def modifyWait (s : Conditions) (t : Addr) (f : Waiting → Waiting) : Option Conditions := do
  let wait ← s.wait t
  some { s with wait := Function.update s.wait t (some (f wait)) }

/-- `smp_Condition_Wait`, up to its yield. It writes every field of the record. -/
def conditionWait (s : Conditions) (t c : Addr) (new : Block) : Option Conditions := do
  let wait : Waiting := { type := .condiction, object := some c, data := 0, timeout := 0 }
  let (threads, _) ← (s.threads c).push (some fun i => (pointerBytes t).getD i 0) new
  some
    { wait := Function.update s.wait t (some wait)
      threads := Function.update s.threads c threads }

def notifyOne (s : Conditions) (c : Addr) (data : Nat) (new : Block) :
    Option (Conditions × Bool) :=
  let size := (s.threads c).count
  if size = 0 then some (s, false)
  else do
    let last ← s.threadAt c (size - 1)
    let s ← s.modifyWait last fun wait => { wait with object := none, data := data }
    let threads ← (s.threads c).resize (size - 1) new
    some ({ s with threads := Function.update s.threads c threads }, true)

/-- The loop of `smp_Condition_NotifyAll`, with `n` threads left. -/
def notifyEach (c : Addr) (data : Nat) : Nat → Nat → Conditions → Option Conditions
  | 0, _, s => some s
  | n + 1, i, s => do
    let t ← s.threadAt c i
    let s ← s.modifyWait t fun wait => { wait with object := none, data := data }
    notifyEach c data n (i + 1) s

def notifyAll (s : Conditions) (c : Addr) (data : Nat) : Option (Conditions × Nat) :=
  let size := (s.threads c).count
  if size = 0 then some (s, size)
  else do
    let s ← notifyEach c data size 0 s
    some ({ s with threads := Function.update s.threads c (s.threads c).clear }, 1)

/-! ### Vectors of pointers -/

/-- The vector holds these pointers, and can hold more. -/
structure Holds (vec : Vector) (ts : List Addr) : Prop where
  objects : vec.Holds (ts.map pointerBytes)
  objectSize : vec.objectSize = sizeofPointer
  cap : 0 < vec.cap
  pointers : ∀ t ∈ ts, t < 2 ^ 64
  fits : ts.length ≤ 2 ^ 60

variable {vec : Vector} {ts : List Addr} {t : Addr}

theorem decode_pointerBytes (h : t < 2 ^ 64) : LittleEndian.decode (pointerBytes t) = t := by
  rw [pointerBytes, LittleEndian.decode_encode]
  exact Nat.mod_eq_of_lt h

theorem read_pointerBytes (t : Addr) :
    Cells.read (fun i => (pointerBytes t).getD i 0) 0 sizeofPointer = pointerBytes t := by
  have hlength : (pointerBytes t).length = sizeofPointer := LittleEndian.length_encode _ _
  rw [← hlength, Cells.read_getD]

theorem Holds.size_eq (h : Holds vec ts) : vec.size = 8 * ts.length := by
  rw [h.objects.size, h.objectSize, List.length_map]
  rfl

theorem Holds.size_lt (h : Holds vec ts) : vec.size < 2 ^ 64 := by
  have hfits := h.fits
  rw [h.size_eq]
  omega

theorem Holds.count_eq (h : Holds vec ts) : vec.count = ts.length := by
  have hpos : 0 < vec.objectSize := by
    rw [h.objectSize]
    decide
  rw [h.objects.count_eq hpos, List.length_map]

theorem createThreads_holds (vector : Block) : Holds (createThreads vector) [] where
  objects := Vector.create_holds sizeofPointer vector
  objectSize := rfl
  cap := Nat.lt_of_sub_eq_succ rfl
  pointers := by simp
  fits := Nat.zero_le _

theorem Holds.clear (h : Holds vec ts) : Holds vec.clear [] where
  objects := h.objects.clear
  objectSize := h.objectSize
  cap := h.cap
  pointers := by simp
  fits := Nat.zero_le _

theorem Holds.load_eq (h : Holds vec ts) {i : Nat} (hi : i < ts.length) :
    (vec.load i).map LittleEndian.decode = some ts[i] := by
  have hload := h.objects.load_eq h.size_lt (by rwa [List.length_map])
  rw [hload, Option.map_some, List.getElem_map,
    decode_pointerBytes (h.pointers _ (List.getElem_mem hi))]

theorem Holds.push (h : Holds vec ts) (new : Block) (ht : t < 2 ^ 64)
    (hfits : ts.length + 1 ≤ 2 ^ 60) :
    ∃ vec' address, vec.push (some fun i => (pointerBytes t).getD i 0) new = some (vec', address) ∧
      Holds vec' (ts ++ [t]) := by
  have hsize : vec.objectSize * ((ts.map pointerBytes).length + 1) ≤ 2 ^ 63 := by
    rw [h.objectSize, List.length_map, sizeofPointer]
    omega
  have hpos : 0 < vec.objectSize := by
    rw [h.objectSize]
    decide
  obtain ⟨vec', address, hpush, hobjects, hobjectSize, hcap⟩ :=
    Vector.push_eq new h.objects h.cap hpos (fun i => (pointerBytes t).getD i 0) hsize
  rw [h.objectSize] at hobjects hobjectSize
  rw [read_pointerBytes] at hobjects
  refine ⟨vec', address, hpush, ?_, hobjectSize, hcap, ?_, ?_⟩
  · rwa [List.map_append]
  · rw [List.forall_mem_append, List.forall_mem_singleton]
    exact ⟨h.pointers, ht⟩
  · rwa [List.length_append]

theorem Holds.dropLast (h : Holds vec ts) (new : Block) :
    ∃ vec', vec.resize (ts.length - 1) new = some vec' ∧ Holds vec' ts.dropLast := by
  have hle : ts.length - 1 ≤ (ts.map pointerBytes).length := by
    rw [List.length_map]
    exact Nat.sub_le _ _
  refine ⟨_, Vector.resize_shrink new h.objects hle h.size_lt, ?_, h.objectSize, h.cap,
    fun t ht => h.pointers t (List.mem_of_mem_dropLast ht), ?_⟩
  · rw [List.dropLast_eq_take, List.map_take]
    exact h.objects.take hle
  · rw [List.length_dropLast]
    exact (Nat.sub_le _ _).trans h.fits

/-! ### The same on lists -/

/-- The state keeps, for these conditions, what the lists of `Sync` say. -/
structure Refines (conditions : Set Addr) (s : Conditions) (a : Sync) : Prop where
  wait : s.wait = a.wait
  threads : ∀ c ∈ conditions, Holds (s.threads c) (a.condition c).threads

variable {conditions : Set Addr} {s : Conditions} {a a' : Sync} {c : Addr} {data : Nat}

theorem Refines.setThreads (h : Refines conditions s a) (c : Addr) (hholds : Holds vec ts) :
    Refines conditions { s with threads := Function.update s.threads c vec }
      { a with condition := Function.update a.condition c ⟨ts⟩ } := by
  refine ⟨h.wait, fun c' hc' => ?_⟩
  show Holds (Function.update s.threads c vec c') (Function.update a.condition c ⟨ts⟩ c').threads
  by_cases heq : c' = c
  · subst heq
    rwa [Function.update_self, Function.update_self]
  · rw [Function.update_of_ne heq, Function.update_of_ne heq]
    exact h.threads c' hc'

theorem Refines.setWait (h : Refines conditions s a) (t : Addr) (w : Option Waiting) :
    Refines conditions { s with wait := Function.update s.wait t w }
      { a with wait := Function.update a.wait t w } where
  wait := congrArg (fun wait => Function.update wait t w) h.wait
  threads := h.threads

theorem conditionWait_refines (h : Refines conditions s a) (hc : c ∈ conditions) (ht : t < 2 ^ 64)
    (hfits : (a.condition c).threads.length + 1 ≤ 2 ^ 60) (new : Block) :
    ∃ s', s.conditionWait t c new = some s' ∧ Refines conditions s' (a.conditionWait t c) := by
  obtain ⟨vec', address, hpush, hholds⟩ := (h.threads c hc).push new ht hfits
  refine ⟨_, ?_, (h.setWait t (some ⟨some c, 0, 0, .condiction⟩)).setThreads c hholds⟩
  rw [conditionWait, hpush]
  rfl

theorem modifyWait_refines (h : Refines conditions s a) {f : Waiting → Waiting}
    (hmodify : a.modifyWait t f = some a') :
    ∃ s', s.modifyWait t f = some s' ∧ s'.threads = s.threads ∧ Refines conditions s' a' := by
  obtain ⟨w, hw, rfl⟩ := Sync.modifyWait_eq_some hmodify
  refine ⟨{ s with wait := Function.update s.wait t (some (f w)) }, ?_, rfl, h.setWait t (some (f w))⟩
  rw [modifyWait, h.wait, hw]
  rfl

theorem threadAt_refines (h : Refines conditions s a) (hc : c ∈ conditions) {i : Nat}
    (hi : i < (a.condition c).threads.length) :
    s.threadAt c i = some (a.condition c).threads[i] := (h.threads c hc).load_eq hi

theorem notifyOne_refines (h : Refines conditions s a) (hc : c ∈ conditions) {woken : Bool}
    (hnotify : a.notifyOne c data = some (a', woken)) (new : Block) :
    ∃ s', s.notifyOne c data new = some (s', woken) ∧ Refines conditions s' a' := by
  have hcount := (h.threads c hc).count_eq
  rw [Sync.notifyOne] at hnotify
  cases hlast : (a.condition c).threads.getLast? with
  | none =>
    rw [hlast] at hnotify
    obtain ⟨rfl, rfl⟩ := Prod.mk.inj (Option.some.inj hnotify)
    rw [List.getLast?_eq_none_iff] at hlast
    rw [hlast, List.length_nil] at hcount
    exact ⟨s, if_pos hcount, h⟩
  | some last =>
    rw [hlast] at hnotify
    obtain ⟨a₁, hmodify, hrest⟩ := Option.bind_eq_some_iff.mp hnotify
    obtain ⟨rfl, rfl⟩ := Prod.mk.inj (Option.some.inj hrest)
    obtain ⟨s₁, hmodify', hthreads, h₁⟩ := modifyWait_refines h hmodify
    obtain ⟨w, -, rfl⟩ := Sync.modifyWait_eq_some hmodify
    have hpos : 0 < (a.condition c).threads.length := by
      apply List.length_pos_of_mem
      exact List.mem_of_getLast? hlast
    have hat : s.threadAt c ((a.condition c).threads.length - 1) = some last := by
      rw [threadAt_refines h hc (Nat.sub_lt hpos Nat.one_pos), ← hlast, List.getLast?_eq_getElem?,
        List.getElem?_eq_getElem]
    obtain ⟨vec, hresize, hholds⟩ := (h₁.threads c hc).dropLast new
    refine ⟨_, ?_, h₁.setThreads c hholds⟩
    simp only [notifyOne, hcount, if_neg (Nat.ne_of_gt hpos), hat, hmodify', hresize,
      Option.bind_eq_bind, Option.bind_some]

theorem notifyEach_refines (h : Refines conditions s a) (hc : c ∈ conditions) {i : Nat}
    (hi : (a.condition c).threads.drop i = ts) (hnotify : Sync.notifyEach data ts a = some a') :
    ∃ s', notifyEach c data ts.length i s = some s' ∧ s'.threads = s.threads ∧
      Refines conditions s' a' := by
  induction ts generalizing s a i with
  | nil =>
    cases hnotify
    exact ⟨s, rfl, rfl, h⟩
  | cons t ts ih =>
    obtain ⟨a₁, hmodify, hrest⟩ := Option.bind_eq_some_iff.mp hnotify
    obtain ⟨s₁, hmodify', hthreads, h₁⟩ := modifyWait_refines h hmodify
    obtain ⟨w, -, rfl⟩ := Sync.modifyWait_eq_some hmodify
    have hlt : i < (a.condition c).threads.length := by
      apply Nat.lt_of_not_le
      intro hle
      rw [List.drop_eq_nil_of_le hle] at hi
      cases hi
    rw [List.drop_eq_getElem_cons hlt, List.cons.injEq] at hi
    have hat : s.threadAt c i = some t := hi.1 ▸ threadAt_refines h hc hlt
    obtain ⟨s', heach, hthreads', h'⟩ := ih h₁ hi.2 hrest
    refine ⟨s', ?_, hthreads'.trans hthreads, h'⟩
    simp only [List.length_cons, notifyEach, hat, hmodify', heach, Option.bind_eq_bind,
      Option.bind_some]

theorem notifyAll_refines (h : Refines conditions s a) (hc : c ∈ conditions) {count : Nat}
    (hnotify : a.notifyAll c data = some (a', count)) :
    ∃ s', s.notifyAll c data = some (s', count) ∧ Refines conditions s' a' := by
  have hcount := (h.threads c hc).count_eq
  rw [Sync.notifyAll] at hnotify
  by_cases hempty : (a.condition c).threads = []
  · rw [if_pos hempty] at hnotify
    obtain ⟨rfl, rfl⟩ := Prod.mk.inj (Option.some.inj hnotify)
    rw [hempty, List.length_nil] at hcount
    refine ⟨s, ?_, h⟩
    rw [notifyAll, if_pos hcount, hcount]
  · rw [if_neg hempty] at hnotify
    obtain ⟨a₁, heach, hrest⟩ := Option.bind_eq_some_iff.mp hnotify
    obtain ⟨rfl, rfl⟩ := Prod.mk.inj (Option.some.inj hrest)
    obtain ⟨s₁, heach', -, h₁⟩ := notifyEach_refines (i := 0) h hc List.drop_zero heach
    have hne : (s.threads c).count ≠ 0 := by
      rw [hcount]
      exact fun h => hempty (List.length_eq_zero_iff.mp h)
    refine ⟨{ s₁ with threads := Function.update s₁.threads c (s₁.threads c).clear }, ?_,
      h₁.setThreads c (h₁.threads c hc).clear⟩
    rw [← hcount] at heach'
    simp only [notifyAll, if_neg hne, heach', Option.bind_eq_bind, Option.bind_some]

end Conditions

end Helos
