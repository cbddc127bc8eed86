import Helos.Smp.Sync
import Helos.Theory.Run
import Helos.Util.Queue

/-!
# Serial input

The interrupt handler of a serial port puts bytes into a queue, and `kThreader_SerialReader` of
`kmain.c` takes them out. The reader does not switch interrupts off: the handler may run between any
two of its accesses to `count`. The other members it uses, `begin` and the bytes there, the handler
leaves alone.

There are two ways to lose order. A byte that arrives while the reader is between the two halves of
`q->count--` is not counted, and a byte that arrives in a full queue after `count` went down and
before `begin` is read takes the place of the byte that is being popped. And a byte that arrives after
`queue_Empty` and before `smp_Condition_Wait` wakes nobody.
-/

namespace Helos

namespace Serial

/-- Where the reader is. -/
inductive Place where
  | beforeWait
  | waiting
  /-- Before the `queue_Empty` of its loop. -/
  | testing
  /-- In `queue_PopByte`, before it tests `count`. -/
  | checking
  | loading
  /-- `q->count--` has read this number and not stored yet. -/
  | storing (count : Nat)
  | taking
deriving DecidableEq

inductive Action where
  /-- An interrupt, and what `inb(port->port)` returns while the line status has bit 0. -/
  | interrupt (bytes : List UInt8)
  | read
deriving DecidableEq

/-- The buffer and the condition of a port, the reader, and a history: the bytes that the queue took
and those that the reader printed. -/
structure Port where
  buffer : Queue
  sync : Sync
  place : Place
  accepted : List UInt8
  delivered : List UInt8

section Setup

-- the thread that reads, and `port->cond`
variable (reader cond : Addr)

/-- After `pic_serial_InitInput` and the start of the reader. -/
def initInput (buffer : List UInt8) (now : Nat) : Port :=
  { buffer := Queue.initBuffered buffer
    sync := { now, wait := fun _ => none, mutex := fun _ => ⟨0, []⟩, condition := fun _ => ⟨[]⟩ }
    place := .beforeWait
    accepted := []
    delivered := [] }

/-- The body of the loop of `__pic_serial_IRQHandler`. -/
def receive (s : Port) (b : UInt8) : Option Port := do
  let buffer ← s.buffer.pushByte b
  let (sync, _) ← s.sync.notifyAll cond 0
  let accepted := if s.buffer.count = s.buffer.size then s.accepted else s.accepted ++ [b]
  some { s with buffer, sync, accepted }

def irqHandler (s : Port) (bytes : List UInt8) : Option Port := bytes.foldlM (receive cond) s

/-- The next access of the reader to what it shares with the handler. While it waits it does not run. -/
def goOn (s : Port) : Option Port :=
  match s.place with
  | .beforeWait => some { s with sync := s.sync.conditionWait reader cond, place := .waiting }
  | .waiting => some (if s.sync.isWaiting reader then s else { s with place := .testing })
  | .testing => some { s with place := if s.buffer.count = 0 then .beforeWait else .checking }
  | .checking =>
    if s.buffer.count = 0 then some { s with place := .testing, delivered := s.delivered ++ [0] }
    else some { s with place := .loading }
  | .loading => some { s with place := .storing s.buffer.count }
  | .storing count =>
    some { s with buffer := { s.buffer with count := count - 1 }, place := .taking }
  | .taking => do
    let data ← s.buffer.data[s.buffer.beginAt]?
    let beginAt := s.buffer.beginAt + 1
    some { s with
      buffer := { s.buffer with beginAt := if beginAt = s.buffer.size then 0 else beginAt }
      place := .testing
      delivered := s.delivered ++ [data] }

def step (s : Port) : Action → Option Port
  | .interrupt bytes => irqHandler cond s bytes
  | .read => goOn reader cond s

end Setup

/-! ### What the reader has in front of it -/

/-- The queue as it is for the reader: `count` is what it goes on with, and the byte that it is
popping has not left. -/
def ahead (s : Port) : Queue :=
  match s.place with
  | .storing count => { s.buffer with count }
  | .taking => { s.buffer with count := s.buffer.count + 1 }
  | _ => s.buffer

/-- The bytes from `begin` on, around the end of the buffer. -/
def bytesFrom (q : Queue) : List UInt8 :=
  (List.range q.count).map fun i => q.data.getD ((q.beginAt + i) % q.size) 0

/-- What the reader printed and what it still pops are the bytes that were accepted, in this order, and
no two of them are in one place. -/
structure InOrder (s : Port) : Prop where
  bytes : s.delivered ++ bytesFrom (ahead s) = s.accepted
  fits : (ahead s).count ≤ s.buffer.size

/-- No byte is accepted between the two halves of `q->count--`, and none that fills the queue before
the byte at `begin` is read. -/
def Undisturbed (s : Port) : Action → Prop
  | .interrupt bytes =>
    match s.place with
    | .storing _ => bytes = [] ∨ s.buffer.count = s.buffer.size
    | .taking => bytes = [] ∨ s.buffer.count + bytes.length < s.buffer.size
    | _ => True
  | .read => True

/-- The reader is on its way to the wait or in it. -/
def Asleep (reader : Addr) (s : Port) : Prop :=
  s.place = .beforeWait ∨ s.place = .waiting ∧ s.sync.isWaiting reader = true

/-- The reader does not sleep beside bytes. -/
def Awake (reader : Addr) (s : Port) : Prop := Asleep reader s → s.buffer.count = 0

/-- No byte arrives after the last `queue_Empty` and before the thread is in the vector. -/
def NotBetween (s : Port) : Action → Prop
  | .interrupt bytes => s.place = .beforeWait → bytes = [] ∨ s.buffer.size = 0
  | .read => True

/-! ### The handler -/

section Handler

variable {reader cond : Addr} {s s' : Port} {b : UInt8} {bytes : List UInt8}

/-- Everything that an iteration of the handler does. -/
structure Received (cond : Addr) (s s' : Port) (b : UInt8) : Prop where
  buffer : s.buffer.pushByte b = some s'.buffer
  sync : ∃ n, s.sync.notifyAll cond 0 = some (s'.sync, n)
  place : s'.place = s.place
  accepted : s'.accepted = if s.buffer.count = s.buffer.size then s.accepted else s.accepted ++ [b]
  delivered : s'.delivered = s.delivered

theorem receive_cases (h : receive cond s b = some s') : Received cond s s' b := by
  obtain ⟨buffer, hbuffer, h⟩ := Option.bind_eq_some_iff.mp h
  obtain ⟨⟨sync, n⟩, hsync, h⟩ := Option.bind_eq_some_iff.mp h
  obtain rfl := Option.some.inj h
  exact ⟨hbuffer, ⟨n, hsync⟩, rfl, rfl, rfl⟩

theorem pushByte_count {q q' : Queue} (h : q.pushByte b = some q') :
    q'.count = (if q.count = q.size then q.count else q.count + 1) ∧ q'.size = q.size ∧
      q'.beginAt = q.beginAt := by
  unfold Queue.pushByte at h
  split at h
  · next hfull =>
    obtain rfl := Option.some.inj h
    exact ⟨(if_pos hfull).symm, rfl, rfl⟩
  · next hroom =>
    obtain ⟨q₁, hstore, h⟩ := Option.bind_eq_some_iff.mp h
    obtain ⟨-, hq₁⟩ := Option.ite_none_right_eq_some.mp hstore
    obtain rfl := Option.some.inj hq₁
    obtain rfl := Option.some.inj h
    exact ⟨(if_neg hroom).symm, rfl, rfl⟩

/-- How many bytes an interrupt adds. -/
structure Counted (s s' : Port) (n : Nat) : Prop where
  count : s'.buffer.count = min s.buffer.size (s.buffer.count + n)
  accepted : s'.accepted.length + s.buffer.count = s.accepted.length + s'.buffer.count
  size : s'.buffer.size = s.buffer.size
  place : s'.place = s.place
  delivered : s'.delivered = s.delivered

theorem receive_counted (hcount : s.buffer.count ≤ s.buffer.size) (h : receive cond s b = some s') :
    Counted s s' 1 := by
  obtain ⟨hbuffer, -, hplace, haccepted, hdelivered⟩ := receive_cases h
  obtain ⟨hpushed, hsize, -⟩ := pushByte_count hbuffer
  by_cases hfull : s.buffer.count = s.buffer.size
  · rw [if_pos hfull] at hpushed haccepted
    refine ⟨?_, ?_, hsize, hplace, hdelivered⟩
    · omega
    · rw [haccepted, hpushed]
  · rw [if_neg hfull] at hpushed haccepted
    refine ⟨?_, ?_, hsize, hplace, hdelivered⟩
    · omega
    · rw [haccepted, hpushed, List.length_append, List.length_singleton]
      omega

theorem irqHandler_counted (hcount : s.buffer.count ≤ s.buffer.size)
    (h : irqHandler cond s bytes = some s') : Counted s s' bytes.length := by
  induction bytes generalizing s with
  | nil =>
    obtain rfl := Option.some.inj h
    exact ⟨(Nat.min_eq_right hcount).symm, rfl, rfl, rfl, rfl⟩
  | cons b bytes ih =>
    unfold irqHandler at h ih
    rw [List.foldlM_cons] at h
    obtain ⟨s₁, h₁, h⟩ := Option.bind_eq_some_iff.mp h
    have hfirst := receive_counted hcount h₁
    have hle : s₁.buffer.count ≤ s₁.buffer.size := by
      rw [hfirst.count, hfirst.size]
      exact Nat.min_le_left _ _
    have hrest := ih hle h
    refine ⟨?_, ?_, hrest.size.trans hfirst.size, hrest.place.trans hfirst.place,
      hrest.delivered.trans hfirst.delivered⟩
    · rw [hrest.count, hfirst.count, hfirst.size, List.length_cons]
      omega
    · have haccepted := hfirst.accepted
      have haccepted' := hrest.accepted
      omega

end Handler

/-! ### The thread and its condition -/

/-- The reader is in the vector and not notified, or it is not in the vector and not waiting. -/
def Registered (reader cond : Addr) (s : Port) : Prop :=
  s.place = .waiting ∧ (s.sync.condition cond).threads = [reader] ∧
    s.sync.wait reader = some ⟨some cond, 0, 0, .condiction⟩

def Unregistered (reader cond : Addr) (s : Port) : Prop :=
  (s.sync.condition cond).threads = [] ∧ s.sync.isWaiting reader = false

section Thread

variable {reader cond : Addr} {s : Port}

theorem Registered.isWaiting (h : Registered reader cond s) : s.sync.isWaiting reader = true := by
  simp [Sync.isWaiting, Helos.isWaiting, h.2.2]

theorem Registered.notifyAll (h : Registered reader cond s) :
    ∃ sync, s.sync.notifyAll cond 0 = some (sync, 1) ∧ (sync.condition cond).threads = [] ∧
      sync.isWaiting reader = false := by
  obtain ⟨-, hthreads, hwait⟩ := h
  have hrun : s.sync.notifyAll cond 0 = some
      ({ s.sync with
        wait := Function.update s.sync.wait reader (some ⟨none, 0, 0, .condiction⟩)
        condition := Function.update s.sync.condition cond ⟨[]⟩ }, 1) := by
    simp [Sync.notifyAll, Sync.notifyEach, Sync.modifyWait, hthreads, hwait]
  refine ⟨_, hrun, ?_, ?_⟩
  · simp
  · simp [Sync.isWaiting, Helos.isWaiting]

theorem Unregistered.notifyAll (h : Unregistered reader cond s) :
    s.sync.notifyAll cond 0 = some (s.sync, 0) := if_pos h.1

end Thread

/-! ### The members of the queue -/

def Place.popping : Place → Bool
  | .checking | .loading | .storing _ | .taking => true
  | _ => false

/-- Both ends are in the buffer, if there is one. -/
structure InBuffer (q : Queue) : Prop where
  data : q.data.length = q.size
  beginAt : 0 < q.size → q.beginAt < q.size
  endAt : 0 < q.size → q.endAt < q.size
  count : q.count ≤ q.size

structure WellFormed (reader cond : Addr) (s : Port) : Prop where
  buffer : InBuffer s.buffer
  stored : ∀ n, s.place = .storing n → n ≤ s.buffer.size
  popping : s.place.popping = true → 0 < s.buffer.size
  thread : Registered reader cond s ∨ Unregistered reader cond s

theorem InBuffer.pushByte {q : Queue} (h : InBuffer q) (b : UInt8) :
    ∃ q', q.pushByte b = some q' ∧ InBuffer q' ∧ q'.size = q.size := by
  by_cases hfull : q.count = q.size
  · exact ⟨q, if_pos hfull, h, rfl⟩
  · have hle := h.count
    have hpos : 0 < q.size := by omega
    have hend := h.endAt hpos
    refine ⟨{ q with
      data := q.data.set q.endAt b
      count := q.count + 1
      endAt := Ring.next q.size q.endAt }, ?_, ⟨?_, h.beginAt, fun _ => Ring.next_lt hend, ?_⟩, rfl⟩
    · simp only [Queue.pushByte, if_neg hfull, Queue.store, h.data, if_pos hend, Option.bind_eq_bind,
        Option.bind_some, Ring.next]
    · rw [List.length_set]
      exact h.data
    · simp only
      omega

section WellFormed

variable {reader cond : Addr} {s s' : Port}

theorem wellFormed_initInput (reader cond : Addr) (buffer : List UInt8) (now : Nat) :
    WellFormed reader cond (initInput buffer now) where
  buffer := ⟨rfl, id, id, Nat.zero_le _⟩
  stored := nofun
  popping := nofun
  thread := .inr ⟨rfl, rfl⟩

theorem WellFormed.receive (h : WellFormed reader cond s) (b : UInt8) :
    ∃ s', receive cond s b = some s' ∧ WellFormed reader cond s' ∧ Unregistered reader cond s' := by
  obtain ⟨q, hpush, hbuffer, hsize⟩ := h.buffer.pushByte b
  have hnotify : ∃ sync n, s.sync.notifyAll cond 0 = some (sync, n) ∧
      (sync.condition cond).threads = [] ∧ sync.isWaiting reader = false := by
    rcases h.thread with hthread | hthread
    · obtain ⟨sync, hrun, hout⟩ := hthread.notifyAll
      exact ⟨sync, 1, hrun, hout⟩
    · exact ⟨s.sync, 0, hthread.notifyAll, hthread⟩
  obtain ⟨sync, n, hrun, hout⟩ := hnotify
  refine ⟨{ s with
    buffer := q
    sync
    accepted := if s.buffer.count = s.buffer.size then s.accepted else s.accepted ++ [b] }, ?_,
    ⟨hbuffer, fun n hn => ?_, fun hplace => ?_, .inr hout⟩, hout⟩
  · simp only [Serial.receive, hpush, hrun, Option.bind_eq_bind, Option.bind_some]
  · rw [hsize]
    exact h.stored n hn
  · rw [hsize]
    exact h.popping hplace

theorem WellFormed.irqHandler (h : WellFormed reader cond s) (bytes : List UInt8) :
    ∃ s', irqHandler cond s bytes = some s' ∧ WellFormed reader cond s' ∧
      (bytes ≠ [] → Unregistered reader cond s') := by
  induction bytes generalizing s with
  | nil => exact ⟨s, rfl, h, fun hne => absurd rfl hne⟩
  | cons b bytes ih =>
    obtain ⟨s₁, h₁, hwf, hout⟩ := h.receive b
    obtain ⟨s', hrest, hwf', hout'⟩ := ih hwf
    refine ⟨s', ?_, hwf', fun _ => ?_⟩
    · unfold Serial.irqHandler at hrest ⊢
      rw [List.foldlM_cons, h₁]
      exact hrest
    · by_cases hnil : bytes = []
      · subst hnil
        obtain rfl := Option.some.inj hrest
        exact hout
      · exact hout' hnil

theorem WellFormed.goOn (h : WellFormed reader cond s) :
    ∃ s', goOn reader cond s = some s' ∧ WellFormed reader cond s' := by
  have hcount := h.buffer.count
  have hout (hplace : s.place ≠ .waiting) : Unregistered reader cond s :=
    h.thread.resolve_left fun hin => hplace hin.1
  cases hplace : s.place with
  | beforeWait =>
    have hthreads := (hout (by simp [hplace])).1
    simp only [Serial.goOn, hplace]
    refine ⟨_, rfl, h.buffer, nofun, nofun, .inl ⟨rfl, ?_, ?_⟩⟩
    · simp [Sync.conditionWait, hthreads]
    · simp [Sync.conditionWait]
  | waiting =>
    simp only [Serial.goOn, hplace]
    by_cases hwaiting : s.sync.isWaiting reader = true
    · rw [if_pos hwaiting]
      exact ⟨s, rfl, h⟩
    · have hthread := h.thread.resolve_left fun hin => hwaiting hin.isWaiting
      rw [if_neg hwaiting]
      exact ⟨_, rfl, h.buffer, nofun, nofun, .inr hthread⟩
  | testing =>
    have hthread := hout (by simp [hplace])
    simp only [Serial.goOn, hplace]
    by_cases hempty : s.buffer.count = 0
    · rw [if_pos hempty]
      exact ⟨_, rfl, h.buffer, nofun, nofun, .inr hthread⟩
    · rw [if_neg hempty]
      exact ⟨_, rfl, h.buffer, nofun, fun _ => by simp only; omega, .inr hthread⟩
  | checking =>
    have hthread := hout (by simp [hplace])
    have hpos := h.popping (by simp [hplace, Place.popping])
    simp only [Serial.goOn, hplace]
    by_cases hempty : s.buffer.count = 0
    · rw [if_pos hempty]
      exact ⟨_, rfl, h.buffer, nofun, nofun, .inr hthread⟩
    · rw [if_neg hempty]
      exact ⟨_, rfl, h.buffer, nofun, fun _ => hpos, .inr hthread⟩
  | loading =>
    have hthread := hout (by simp [hplace])
    have hpos := h.popping (by simp [hplace, Place.popping])
    simp only [Serial.goOn, hplace]
    refine ⟨_, rfl, h.buffer, fun n hn => ?_, fun _ => hpos, .inr hthread⟩
    obtain rfl := Place.storing.inj hn
    exact hcount
  | storing n =>
    have hthread := hout (by simp [hplace])
    have hpos := h.popping (by simp [hplace, Place.popping])
    have hstored := h.stored n hplace
    simp only [Serial.goOn, hplace]
    refine ⟨_, rfl, ⟨h.buffer.data, h.buffer.beginAt, h.buffer.endAt, ?_⟩, nofun, fun _ => hpos,
      .inr hthread⟩
    simp only
    omega
  | taking =>
    have hthread := hout (by simp [hplace])
    have hbegin := h.buffer.beginAt (h.popping (by simp [hplace, Place.popping]))
    have hdata := List.getElem?_eq_getElem (h.buffer.data ▸ hbegin)
    simp only [Serial.goOn, hplace, hdata, Option.bind_eq_bind, Option.bind_some]
    exact ⟨_, rfl, ⟨h.buffer.data, fun _ => Ring.next_lt hbegin, h.buffer.endAt, hcount⟩, nofun, nofun,
      .inr hthread⟩

theorem WellFormed.step (h : WellFormed reader cond s) (action : Action) :
    ∃ s', step reader cond s action = some s' ∧ WellFormed reader cond s' := by
  cases action with
  | interrupt bytes =>
    obtain ⟨s', hrun, hwf, -⟩ := h.irqHandler bytes
    exact ⟨s', hrun, hwf⟩
  | read => exact h.goOn

end WellFormed

/-! ### Order -/

theorem bytesFrom_eq {q : Queue} {xs : List UInt8} (h : q.Contains xs) : bytesFrom q = xs := by
  unfold bytesFrom
  apply List.ext_getElem
  · rw [List.length_map, List.length_range, h.count]
  · intro i hi hi'
    have hcell := h.holds.cell i hi'
    rw [h.size] at hcell
    rw [List.getElem_map, List.getElem_range, List.getD_eq_getElem?_getD, hcell, Option.getD_some]

theorem length_bytesFrom (q : Queue) : (bytesFrom q).length = q.count := by
  unfold bytesFrom
  rw [List.length_map, List.length_range]

/-- Where the reader is, no byte that is accepted does harm. -/
def Admits (s : Port) : Prop :=
  match s.place with
  | .storing _ => s.buffer.count = s.buffer.size
  | .taking => s.buffer.count + 1 < s.buffer.size
  | _ => True

structure Kept (reader cond : Addr) (s : Port) : Prop where
  wellFormed : WellFormed reader cond s
  holds : ∃ xs, (ahead s).Contains xs ∧ s.delivered ++ xs = s.accepted
  loaded : ∀ n, s.place = .storing n → n = s.buffer.count
  popping : s.place.popping = true → 0 < (ahead s).count

section Order

variable {reader cond : Addr} {s s' : Port} {b : UInt8} {bytes : List UInt8}

theorem ahead_congr (hplace : s'.place = s.place) (hbuffer : s'.buffer = s.buffer) :
    ahead s' = ahead s := by
  unfold ahead
  rw [hplace, hbuffer]

theorem kept_initInput (reader cond : Addr) (buffer : List UInt8) (now : Nat) :
    Kept reader cond (initInput buffer now) where
  wellFormed := wellFormed_initInput reader cond buffer now
  holds := ⟨[], Queue.contains_initBuffered buffer, rfl⟩
  loaded := nofun
  popping := nofun

theorem size_ahead (s : Port) : (ahead s).size = s.buffer.size := by
  unfold ahead
  split <;> rfl

theorem Kept.inOrder (h : Kept reader cond s) : InOrder s := by
  obtain ⟨xs, hxs, hbytes⟩ := h.holds
  refine ⟨?_, ?_⟩
  · rw [bytesFrom_eq hxs]
    exact hbytes
  · rw [← size_ahead, hxs.count]
    exact hxs.le_size

/-- A push, seen by a reader for which there are `k` more bytes than `count` says. -/
theorem pushByte_ahead {q : Queue} {k : Nat} {xs : List UInt8}
    (h : Queue.Contains { q with count := q.count + k } xs) (hroom : xs.length < q.size) (b : UInt8) :
    ∃ q', q.pushByte b = some q' ∧ Queue.Contains { q' with count := q'.count + k } (xs ++ [b]) := by
  have hpos : 0 < q.size := Nat.zero_lt_of_lt hroom
  have hcount := h.count
  simp only at hcount
  have hend : q.endAt < q.data.length := by
    have hsize := h.size
    have hend := h.endAt hpos
    simp only at hsize hend
    rw [hsize, hend]
    exact Nat.mod_lt _ hpos
  have hlag : q.count + k ≠ q.size := by omega
  have hroom' : q.count ≠ q.size := by omega
  obtain ⟨q₁, hpush, hcontains, -⟩ := Queue.pushByte_room h hroom b
  simp only [Queue.pushByte, if_neg hlag, Queue.store, if_pos hend, Option.bind_eq_bind,
    Option.bind_some] at hpush
  obtain rfl := Option.some.inj hpush
  refine ⟨_, by simp only [Queue.pushByte, if_neg hroom', Queue.store, if_pos hend,
    Option.bind_eq_bind, Option.bind_some]; rfl, ?_⟩
  simp only [Nat.add_right_comm q.count 1 k]
  exact hcontains

theorem Kept.receive (h : Kept reader cond s) (hadmits : Admits s) (hrun : receive cond s b = some s') :
    Kept reader cond s' := by
  obtain ⟨s₁, hrun₁, hwf, -⟩ := h.wellFormed.receive b
  obtain rfl := Option.some.inj (hrun₁.symm.trans hrun)
  obtain ⟨hbuffer, -, hplace, haccepted, hdelivered⟩ := receive_cases hrun
  obtain ⟨xs, hxs, hbytes⟩ := h.holds
  by_cases hfull : s.buffer.count = s.buffer.size
  · have hsame : s₁.buffer = s.buffer := by
      rw [Queue.pushByte, if_pos hfull] at hbuffer
      exact (Option.some.inj hbuffer).symm
    rw [if_pos hfull] at haccepted
    have hahead := ahead_congr hplace hsame
    refine ⟨hwf, ⟨xs, hahead ▸ hxs, ?_⟩, fun n hn => ?_, fun hpopping => ?_⟩
    · rw [hdelivered, haccepted]
      exact hbytes
    · rw [hsame]
      exact h.loaded n (hplace ▸ hn)
    · rw [hahead]
      exact h.popping (hplace ▸ hpopping)
  · rw [if_neg hfull] at haccepted
    have hcount := h.wellFormed.buffer.count
    have hnot (n : Nat) : s.place ≠ .storing n := by
      intro hn
      unfold Admits at hadmits
      rw [hn] at hadmits
      exact hfull hadmits
    obtain ⟨k, hahead, hahead', hroom⟩ : ∃ k, (ahead s = { s.buffer with count := s.buffer.count + k }) ∧
        (ahead s₁ = { s₁.buffer with count := s₁.buffer.count + k }) ∧
        s.buffer.count + k < s.buffer.size := by
      unfold ahead
      rw [hplace]
      unfold Admits at hadmits
      cases hs : s.place with
      | storing n => exact absurd hs (hnot n)
      | taking =>
        rw [hs] at hadmits
        exact ⟨1, rfl, rfl, hadmits⟩
      | _ => exact ⟨0, rfl, rfl, by omega⟩
    rw [hahead] at hxs
    have hlength := hxs.count
    simp only at hlength
    obtain ⟨q', hpush, hcontains⟩ := pushByte_ahead hxs (by omega) b
    obtain rfl := Option.some.inj (hbuffer.symm.trans hpush)
    refine ⟨hwf, ⟨xs ++ [b], hahead' ▸ hcontains, ?_⟩, fun n hn => ?_, fun _ => ?_⟩
    · rw [hdelivered, haccepted, ← List.append_assoc, hbytes]
    · exact absurd (hplace ▸ hn) (hnot n)
    · rw [hahead', hcontains.count, List.length_append, List.length_singleton]
      exact Nat.succ_pos _

theorem Kept.irqHandler (h : Kept reader cond s) (hgood : Undisturbed s (.interrupt bytes))
    (hrun : irqHandler cond s bytes = some s') : Kept reader cond s' := by
  induction bytes generalizing s with
  | nil =>
    obtain rfl := Option.some.inj hrun
    exact h
  | cons b bytes ih =>
    unfold Serial.irqHandler at hrun ih
    rw [List.foldlM_cons] at hrun
    obtain ⟨s₁, h₁, hrest⟩ := Option.bind_eq_some_iff.mp hrun
    have hcounted := receive_counted h.wellFormed.buffer.count h₁
    have hcount := hcounted.count
    have hsize := hcounted.size
    -- what the rest of the bytes needs, `count` being one higher
    have hboth : Admits s ∧ Undisturbed s₁ (.interrupt bytes) := by
      unfold Undisturbed at hgood ⊢
      unfold Admits
      rw [hcounted.place]
      cases hplace : s.place with
      | storing n =>
        rw [hplace] at hgood
        have hfull := hgood.resolve_left (List.cons_ne_nil _ _)
        simp only at hfull ⊢
        exact ⟨hfull, .inr (by omega)⟩
      | taking =>
        rw [hplace] at hgood
        have hroom := hgood.resolve_left (List.cons_ne_nil _ _)
        simp only [List.length_cons] at hroom ⊢
        exact ⟨by omega, .inr (by omega)⟩
      | _ => exact ⟨trivial, trivial⟩
    exact ih (h.receive hboth.1 h₁) hboth.2 hrest

theorem Kept.goOn (h : Kept reader cond s) (hrun : goOn reader cond s = some s') :
    Kept reader cond s' := by
  obtain ⟨s₁, hrun₁, hwf⟩ := h.wellFormed.goOn
  obtain rfl := Option.some.inj (hrun₁.symm.trans hrun)
  obtain ⟨xs, hxs, hbytes⟩ := h.holds
  have hpopping := h.popping
  unfold ahead at hxs hpopping
  cases hplace : s.place with
  | beforeWait =>
    simp only [Serial.goOn, hplace] at hrun hxs
    obtain rfl := Option.some.inj hrun
    exact ⟨hwf, ⟨xs, hxs, hbytes⟩, nofun, nofun⟩
  | waiting =>
    simp only [Serial.goOn, hplace] at hrun hxs
    obtain rfl := Option.some.inj hrun
    by_cases hwaiting : s.sync.isWaiting reader = true
    · rw [if_pos hwaiting]
      exact h
    · rw [if_neg hwaiting] at hwf ⊢
      exact ⟨hwf, ⟨xs, hxs, hbytes⟩, nofun, nofun⟩
  | testing =>
    simp only [Serial.goOn, hplace] at hrun hxs
    obtain rfl := Option.some.inj hrun
    by_cases hempty : s.buffer.count = 0
    · rw [if_pos hempty] at hwf ⊢
      exact ⟨hwf, ⟨xs, hxs, hbytes⟩, nofun, nofun⟩
    · rw [if_neg hempty] at hwf ⊢
      exact ⟨hwf, ⟨xs, hxs, hbytes⟩, nofun, fun _ => Nat.pos_of_ne_zero hempty⟩
  | checking =>
    simp only [hplace] at hpopping hxs
    have hpos := hpopping rfl
    simp only [Serial.goOn, hplace, if_neg (Nat.ne_of_gt hpos)] at hrun
    obtain rfl := Option.some.inj hrun
    exact ⟨hwf, ⟨xs, hxs, hbytes⟩, nofun, fun _ => hpos⟩
  | loading =>
    simp only [hplace] at hpopping hxs
    simp only [Serial.goOn, hplace] at hrun
    obtain rfl := Option.some.inj hrun
    exact ⟨hwf, ⟨xs, hxs, hbytes⟩, fun n hn => (Place.storing.inj hn).symm, fun _ => hpopping rfl⟩
  | storing n =>
    have hloaded := h.loaded n hplace
    simp only [hplace] at hpopping hxs
    have hpos := hpopping rfl
    simp only [Serial.goOn, hplace] at hrun
    obtain rfl := Option.some.inj hrun
    have hback : n - 1 + 1 = n := Nat.sub_add_cancel hpos
    refine ⟨hwf, ⟨xs, ?_, hbytes⟩, nofun, fun _ => Nat.succ_pos _⟩
    simp only [ahead, hback]
    exact hxs
  | taking =>
    simp only [hplace] at hxs
    cases xs with
    | nil => exact absurd hxs.count (Nat.succ_ne_zero _)
    | cons b rest =>
      obtain ⟨q', hpop, hrest, -⟩ := Queue.popByte_cons hxs
      simp only [Queue.popByte, Nat.succ_ne_zero, if_false, Nat.add_sub_cancel] at hpop
      obtain ⟨data, hdata, hpop⟩ := Option.bind_eq_some_iff.mp hpop
      obtain ⟨rfl, rfl⟩ := Prod.mk.inj (Option.some.inj hpop)
      simp only [Serial.goOn, hplace, hdata, Option.bind_eq_bind, Option.bind_some] at hrun
      obtain rfl := Option.some.inj hrun
      refine ⟨hwf, ⟨rest, hrest, ?_⟩, fun n hn => (by cases hn), fun hpop => (by cases hpop)⟩
      rw [List.append_assoc]
      exact hbytes

theorem Kept.step {action : Action} (h : Kept reader cond s) (hgood : Undisturbed s action)
    (hrun : step reader cond s action = some s') : Kept reader cond s' := by
  cases action with
  | interrupt bytes => exact h.irqHandler hgood hrun
  | read => exact h.goOn hrun

/-- Too many bytes, or too few, are in front of the reader after a disturbance. -/
theorem Kept.not_inOrder {action : Action} (h : Kept reader cond s) (hbad : ¬ Undisturbed s action)
    (hrun : Serial.step reader cond s action = some s') : ¬ InOrder s' := by
  cases action with
  | read => exact absurd trivial hbad
  | interrupt bytes =>
    obtain ⟨hcount, haccepted, hsize, hplace, hdelivered⟩ :=
      irqHandler_counted h.wellFormed.buffer.count hrun
    have hlength := congrArg List.length h.inOrder.bytes
    rw [List.length_append, length_bytesFrom] at hlength
    rintro ⟨hbytes, hfits⟩
    have hlength' := congrArg List.length hbytes
    rw [List.length_append, length_bytesFrom, hdelivered] at hlength'
    unfold ahead at hlength hlength' hfits
    unfold Undisturbed at hbad
    rw [hplace] at hlength' hfits
    cases hs : s.place with
    | storing n =>
      simp only [hs, not_or] at hbad hlength hlength'
      have hpos := List.length_pos_iff.mpr hbad.1
      have hle := h.wellFormed.buffer.count
      omega
    | taking =>
      simp only [hs, not_or] at hbad hfits
      omega
    | _ => simp [hs] at hbad

theorem inOrder_iff (buffer : List UInt8) (now : Nat) (actions : List Action) :
    Run.Always (step reader cond) InOrder (initInput buffer now) actions ↔
      Run.EachStep (step reader cond) Undisturbed (initInput buffer now) actions :=
  Run.always_iff_eachStep (fun _ _ _ h hrun hgood => h.step hgood hrun) (fun _ h => h.inOrder)
    (fun _ _ _ h hrun hbad => h.not_inOrder hbad hrun) (kept_initInput reader cond buffer now)

end Order

/-- **Serial input stays in order** exactly when no byte comes at one of the two wrong moments, and the
accesses to the buffer are inside it in any case. -/
theorem serial_in_order_iff (reader cond : Addr) (buffer : List UInt8) (now : Nat)
    (actions : List Action) :
    (∃ s', Run.exec (step reader cond) (initInput buffer now) actions = some s') ∧
      (Run.Always (step reader cond) InOrder (initInput buffer now) actions ↔
        Run.EachStep (step reader cond) Undisturbed (initInput buffer now) actions) := by
  obtain ⟨s', hrun, -⟩ := Run.exec_defined (fun _ action h => h.step action)
    (wellFormed_initInput reader cond buffer now) actions
  exact ⟨⟨s', hrun⟩, inOrder_iff buffer now actions⟩

/-- In a buffer of one byte the second byte takes the place of the first, and is printed twice. -/
example : (Run.exec (step 1 2) (initInput [0] 0)
    (List.replicate 2 .read ++ [.interrupt [7]] ++ List.replicate 5 .read ++ [.interrupt [8]] ++
      List.replicate 6 .read)).map Port.delivered = some [8, 8] := by
  decide

/-! ### Sleep -/

section Sleep

variable {reader cond : Addr} {s s' : Port} {action : Action}

theorem awake_of_place (hbefore : s.place ≠ .beforeWait) (hwait : s.place ≠ .waiting) :
    Awake reader s := by
  rintro (hplace | ⟨hplace, -⟩)
  · exact absurd hplace hbefore
  · exact absurd hplace hwait

theorem Awake.step (hwf : WellFormed reader cond s) (h : Awake reader s) (hgood : NotBetween s action)
    (hrun : Serial.step reader cond s action = some s') : Awake reader s' := by
  cases action with
  | interrupt bytes =>
    obtain ⟨s₁, hrun₁, -, hout⟩ := hwf.irqHandler bytes
    obtain rfl := Option.some.inj (hrun₁.symm.trans hrun)
    have hcounted := irqHandler_counted hwf.buffer.count hrun
    rintro (hplace | ⟨hplace, hwaiting⟩)
    · have hbefore : s.place = .beforeWait := hcounted.place.symm.trans hplace
      rw [hcounted.count, h (.inl hbefore)]
      rcases hgood hbefore with hnil | hsize
      · simp [hnil]
      · simp [hsize]
    · have hnil : bytes = [] := by
        by_contra hne
        rw [(hout hne).2] at hwaiting
        cases hwaiting
      subst hnil
      obtain rfl := Option.some.inj hrun
      exact h (.inr ⟨hplace, hwaiting⟩)
  | read =>
    change goOn reader cond s = some s' at hrun
    cases hplace : s.place with
    | beforeWait =>
      simp only [goOn, hplace] at hrun
      obtain rfl := Option.some.inj hrun
      exact fun _ => h (.inl hplace)
    | waiting =>
      simp only [goOn, hplace] at hrun
      obtain rfl := Option.some.inj hrun
      by_cases hwaiting : s.sync.isWaiting reader = true
      · rw [if_pos hwaiting]
        exact h
      · rw [if_neg hwaiting]
        exact awake_of_place nofun nofun
    | testing =>
      simp only [goOn, hplace] at hrun
      obtain rfl := Option.some.inj hrun
      by_cases hempty : s.buffer.count = 0
      · exact fun _ => hempty
      · rw [if_neg hempty]
        exact awake_of_place nofun nofun
    | checking =>
      simp only [goOn, hplace] at hrun
      by_cases hempty : s.buffer.count = 0
      · rw [if_pos hempty] at hrun
        obtain rfl := Option.some.inj hrun
        exact fun _ => hempty
      · rw [if_neg hempty] at hrun
        obtain rfl := Option.some.inj hrun
        exact awake_of_place nofun nofun
    | loading =>
      simp only [goOn, hplace] at hrun
      obtain rfl := Option.some.inj hrun
      exact awake_of_place nofun nofun
    | storing n =>
      simp only [goOn, hplace] at hrun
      obtain rfl := Option.some.inj hrun
      exact awake_of_place nofun nofun
    | taking =>
      simp only [goOn, hplace] at hrun
      obtain ⟨data, -, hrun⟩ := Option.bind_eq_some_iff.mp hrun
      obtain rfl := Option.some.inj hrun
      exact awake_of_place nofun nofun

theorem Awake.not_awake (hwf : WellFormed reader cond s) (h : Awake reader s)
    (hbad : ¬ NotBetween s action) (hrun : Serial.step reader cond s action = some s') :
    ¬ Awake reader s' := by
  cases action with
  | read => exact absurd trivial hbad
  | interrupt bytes =>
    have hcounted := irqHandler_counted hwf.buffer.count hrun
    simp only [NotBetween, not_forall, not_or] at hbad
    obtain ⟨hplace, hnil, hsize⟩ := hbad
    have hempty := h (.inl hplace)
    have hpos := List.length_pos_iff.mpr hnil
    intro hawake
    have hempty' := hawake (.inl (hcounted.place.trans hplace))
    have hcount := hcounted.count
    omega

end Sleep

/-- **The serial reader never sleeps beside bytes** exactly when no byte comes before its first
registration with the condition, or between the end of its loop and the next one. A queue of size 0 takes
no bytes, so there they may come. -/
theorem serial_awake_iff (reader cond : Addr) (buffer : List UInt8) (now : Nat)
    (actions : List Action) :
    Run.Always (step reader cond) (Awake reader) (initInput buffer now) actions ↔
      Run.EachStep (step reader cond) NotBetween (initInput buffer now) actions := by
  have hgood : ∀ s action s', WellFormed reader cond s ∧ Awake reader s →
      step reader cond s action = some s' → NotBetween s action →
      WellFormed reader cond s' ∧ Awake reader s' := by
    rintro s action s' ⟨hwf, h⟩ hrun hbetween
    obtain ⟨s₁, hrun₁, hwf'⟩ := hwf.step action
    obtain rfl := Option.some.inj (hrun₁.symm.trans hrun)
    exact ⟨hwf', h.step hwf hbetween hrun⟩
  exact Run.always_iff_eachStep hgood (fun _ h => h.2)
    (fun _ _ _ h hrun hbad => h.2.not_awake h.1 hbad hrun)
    ⟨wellFormed_initInput reader cond buffer now, fun _ => rfl⟩

end Serial

end Helos
