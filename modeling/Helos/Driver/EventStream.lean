import Helos.Driver.Input
import Helos.Theory.Framing

/-!
# The stream of input events

The calls of the input source, interleaved with the loop in which `kMain` takes the events out of the
queue. A call fills in its event with interrupts as they are and switches them off only to push it, so
that calls can interrupt each other between the two; `kMain` switches them off to look at the queue
and to pop from it. The queue holds bytes; the specification below it is a queue of 32 events.
-/

namespace Helos

/-- The functions of `source.h`. -/
inductive SourceCall where
  | pressKey (key : Key)
  | releaseKey (key : Key)
  | pressMouse (button : MouseButton)
  | releaseMouse (button : MouseButton)
  | moveMouse (x y : Int)
  | positionMouse (x y : Int)
  | setDesktopSize (x y : Int)
deriving DecidableEq

namespace SourceCall

open Input

/-- A call up to the push: the state it leaves, and its event. -/
def prepare (s : Input) : SourceCall → Input × Option InputEvent
  | pressKey key =>
    let s := { s with keyMask := BitWords.set s.keyMask (key.code / 64) (keyBit key) }
    (s, some (.keyPressed key s.flagControl s.flagShift s.flagAlt false))
  | releaseKey key =>
    let s := { s with keyMask := BitWords.clear s.keyMask (key.code / 64) (keyBit key) }
    (s, some (.keyReleased key s.flagControl s.flagShift s.flagAlt false))
  | pressMouse button =>
    let s := { s with mouseMask := BitWords.set s.mouseMask (button.code / 64) (mouseBit button) }
    (s, some (.mouseButtonPressed button s.cursorX s.cursorY))
  | releaseMouse button =>
    let s := { s with mouseMask := BitWords.clear s.mouseMask (button.code / 64) (mouseBit button) }
    (s, some (.mouseButtonReleased button s.cursorX s.cursorY))
  | moveMouse x y =>
    let s := { s with
      cursorX := intminmax (s.cursorX + x) 0 s.desktopWidth
      cursorY := intminmax (s.cursorY + y) 0 s.desktopHeight }
    (s, some (.mouseMoved s.cursorX s.cursorY))
  | positionMouse x y =>
    let s := { s with
      cursorX := intminmax x 0 s.desktopWidth
      cursorY := intminmax y 0 s.desktopHeight }
    (s, some (.mouseMoved s.cursorX s.cursorY))
  | setDesktopSize x y =>
    ({ s with
      desktopWidth := x
      desktopHeight := y
      cursorX := intminmax s.cursorX 0 x
      cursorY := intminmax s.cursorY 0 y }, none)

def call : SourceCall → Option Call
  | pressKey key => some (.pressKey key)
  | releaseKey key => some (.releaseKey key)
  | pressMouse button => some (.pressMouse button)
  | releaseMouse button => some (.releaseMouse button)
  | moveMouse x y => some (.moveMouse x y)
  | positionMouse x y => some (.positionMouse x y)
  | setDesktopSize _ _ => none

/-- A call that nothing interrupts. -/
theorem step_eq_queueEvent {c : SourceCall} {c' : Call} (hc : c.call = some c') (s : Input) :
    ∃ e, (c.prepare s).2 = some e ∧ s.step c' = (c.prepare s).1.queueEvent e := by
  cases c <;> cases hc <;> exact ⟨_, rfl, rfl⟩

/-- What a call prepares does not depend on the queue. -/
theorem prepare_setQueue (c : SourceCall) (s : Input) (q : Option Queue) :
    c.prepare { s with eventQueue := q } =
      ({ (c.prepare s).1 with eventQueue := q }, (c.prepare s).2) := by
  cases c <;> rfl

end SourceCall

/-- Where `kMain` is in its loop. -/
inductive DrainPlace where
  | waiting
  | testing
  | popping
  | handling
deriving DecidableEq

/-- Interrupts are off from the test of the loop to the pop. -/
def DrainPlace.masked : DrainPlace → Bool
  | testing => true
  | popping => true
  | _ => false

/-- A call starts, one of the calls that have started pushes its event and returns, or `kMain` goes
on. -/
inductive EventAction where
  | start (c : SourceCall)
  | push (i : Nat)
  | tick
deriving DecidableEq

/-- An event that was offered to the queue, and whether it was taken; or what `queue_Pop` wrote. -/
inductive EventReply where
  | quiet
  | offered (e : InputEvent) (taken : Bool)
  | popped (bytes : List UInt8)
deriving DecidableEq

structure EventMachine where
  input : Input
  /-- The events of the calls that have started and not pushed. -/
  started : List InputEvent
  place : DrainPlace
deriving DecidableEq

namespace EventMachine

/-- An iteration of the outer loop of `kMain` starts in `smp_Condition_Wait`, which may return at any
time. With a NULL queue the test would be undefined. -/
def tick (m : EventMachine) : Option (EventMachine × EventReply) :=
  match m.place with
  | .waiting => some ({ m with place := .testing }, .quiet)
  | .testing => do
    let q ← m.input.eventQueue
    some ({ m with place := if 0 < q.length then .popping else .waiting }, .quiet)
  | .popping => do
    let q ← m.input.eventQueue
    let (q, _, bytes) ← q.pop InputEvent.sizeof
    some ({ m with input := { m.input with eventQueue := some q }, place := .handling },
      .popped bytes)
  | .handling => some ({ m with place := .testing }, .quiet)

/-- While interrupts are off no call starts or goes on. -/
def step (m : EventMachine) : EventAction → Option (EventMachine × EventReply)
  | .start c =>
    if m.place.masked then some (m, .quiet)
    else some ({ m with
      input := (c.prepare m.input).1
      started := (c.prepare m.input).2.toList ++ m.started }, .quiet)
  | .push i =>
    if m.place.masked then some (m, .quiet)
    else
      match m.started[i]? with
      | none => some (m, .quiet)
      | some e => do
        let (input, queued) ← m.input.queueEvent e
        some ({ m with input, started := m.started.eraseIdx i }, .offered e queued.isSome)
  | .tick => m.tick

/-- `kMain` after `queue_InitBuffered` on `buffer`. -/
def boot (s : Input) (buffer : List UInt8) : EventMachine :=
  { input := { s with eventQueue := some (Queue.initBuffered buffer) }
    started := []
    place := .waiting }

end EventMachine

/-! ### The specification -/

/-- `sizeof(input_Event) * 32` bytes are room for this many events. -/
def eventCapacity : Nat := 32

/-- The same machine with a queue of whole events. -/
structure EventDesk where
  input : Input
  started : List InputEvent
  place : DrainPlace
  events : List InputEvent

namespace EventDesk

def tick (t : EventDesk) : EventDesk × EventReply :=
  match t.place with
  | .waiting => ({ t with place := .testing }, .quiet)
  | .testing => ({ t with place := if 0 < t.events.length then .popping else .waiting }, .quiet)
  | .popping =>
    ({ t with events := t.events.tail, place := .handling },
      .popped (t.events.head?.elim [] InputEvent.bytes))
  | .handling => ({ t with place := .testing }, .quiet)

def step (t : EventDesk) : EventAction → EventDesk × EventReply
  | .start c =>
    if t.place.masked then (t, .quiet)
    else ({ t with
      input := (c.prepare t.input).1
      started := (c.prepare t.input).2.toList ++ t.started }, .quiet)
  | .push i =>
    if t.place.masked then (t, .quiet)
    else
      match t.started[i]? with
      | none => (t, .quiet)
      | some e =>
        ({ t with
          events := if t.events.length < eventCapacity then t.events ++ [e] else t.events
          started := t.started.eraseIdx i }, .offered e (t.events.length < eventCapacity))
  | .tick => t.tick

def boot (s : Input) : EventDesk :=
  { input := { s with eventQueue := none }, started := [], place := .waiting, events := [] }

end EventDesk

/-! ### The events of a run -/

namespace EventReply

def offeredEvent : EventReply → Option InputEvent
  | offered e _ => some e
  | _ => none

def takenEvent : EventReply → Option InputEvent
  | offered e true => some e
  | _ => none

def poppedBytes : EventReply → Option (List UInt8)
  | popped bytes => some bytes
  | _ => none

end EventReply

/-- The events passed to `queue_Push`, in this order; those that the queue took; and what came out. -/
def offeredEvents (os : List EventReply) : List InputEvent := os.filterMap EventReply.offeredEvent
def takenEvents (os : List EventReply) : List InputEvent := os.filterMap EventReply.takenEvent
def poppedEvents (os : List EventReply) : List (List UInt8) := os.filterMap EventReply.poppedBytes

/-! ### The machine follows the specification -/

def InputEvent.framing : Framing InputEvent UInt8 where
  encode := InputEvent.bytes
  width := InputEvent.sizeof
  pos := by decide
  length_encode := InputEvent.length_bytes

/-- The bytes of the queue are those of the events, one after the other. -/
structure Queue.Streams (q : Queue) (events : List InputEvent) : Prop where
  contains : q.Contains (InputEvent.framing.frames events)
  size : q.size = InputEvent.sizeof * eventCapacity

namespace Queue.Streams

variable {q : Queue} {events : List InputEvent}

theorem length_eq (h : q.Streams events) : q.length = InputEvent.sizeof * events.length :=
  h.contains.count.trans (InputEvent.framing.length_frames events)

theorem room_iff (h : q.Streams events) :
    InputEvent.sizeof ≤ q.space ↔ events.length < eventCapacity := by
  have hroom := InputEvent.framing.no_room_iff (n := eventCapacity) events
  have hspace : q.space =
      InputEvent.framing.width * eventCapacity - (InputEvent.framing.frames events).length := by
    rw [h.contains.space_eq, h.size]
    rfl
  rw [hspace]
  exact Nat.not_lt.symm.trans ((not_congr hroom).trans Nat.not_le)

theorem push (h : q.Streams events) (e : InputEvent) :
    ∃ q', q.push e.bytes = some q' ∧
      q'.Streams (if events.length < eventCapacity then events ++ [e] else events) := by
  obtain ⟨q', hpush, hcontains, hsize⟩ := Queue.step_refines h.contains (.push e.bytes)
  have hframe : Fifo.step (InputEvent.sizeof * eventCapacity) 0 (InputEvent.framing.frames events)
      (.push e.bytes) = (InputEvent.framing.frames
        (if events.length < eventCapacity then events ++ [e] else events), .done) :=
    InputEvent.framing.step_push 0 e events
  rw [h.size, hframe] at hpush hcontains
  refine ⟨q', ?_, hcontains, hsize.trans h.size⟩
  obtain ⟨q₁, h₁, heq⟩ := Option.bind_eq_some_iff.mp hpush
  exact h₁.trans (congrArg some (Prod.mk.inj (Option.some.inj heq)).1)

theorem pop_nil (h : q.Streams []) : q.pop InputEvent.sizeof = some (q, 0, []) :=
  if_pos (by rw [h.length_eq]; decide)

theorem pop_cons {e : InputEvent} (h : q.Streams (e :: events)) :
    ∃ q', q.pop InputEvent.sizeof = some (q', InputEvent.sizeof, e.bytes) ∧ q'.Streams events := by
  obtain ⟨q', hpop, hcontains, hsize⟩ := Queue.step_refines h.contains (.pop InputEvent.sizeof)
  have hframe : Fifo.step (InputEvent.sizeof * eventCapacity) 0
      (InputEvent.framing.frames (e :: events)) (.pop InputEvent.sizeof) =
        (InputEvent.framing.frames events, .many InputEvent.sizeof e.bytes) :=
    InputEvent.framing.step_pop_cons 0 e events
  rw [h.size, hframe] at hpop hcontains
  refine ⟨q', ?_, hcontains, hsize.trans h.size⟩
  obtain ⟨⟨q₁, n, bytes⟩, h₁, heq⟩ := Option.bind_eq_some_iff.mp hpop
  cases heq
  exact h₁

end Queue.Streams

structure EventMachine.Follows (m : EventMachine) (t : EventDesk) : Prop where
  started : m.started = t.started
  place : m.place = t.place
  queue : ∃ q, m.input = { t.input with eventQueue := some q } ∧ q.Streams t.events

namespace EventMachine.Follows

variable {m : EventMachine} {t : EventDesk}

theorem boot (s : Input) {buffer : List UInt8}
    (hbuffer : buffer.length = InputEvent.sizeof * eventCapacity) :
    (EventMachine.boot s buffer).Follows (EventDesk.boot s) :=
  ⟨rfl, rfl, _, rfl, Queue.contains_initBuffered buffer, hbuffer⟩

theorem queueEvent (h : m.Follows t) (e : InputEvent) :
    ∃ q', m.input.queueEvent e = some ({ t.input with eventQueue := some q' },
        if t.events.length < eventCapacity then some e else none) ∧
      q'.Streams (if t.events.length < eventCapacity then t.events ++ [e] else t.events) := by
  obtain ⟨q, hinput, hstreams⟩ := h.queue
  obtain ⟨q', hpush, hstreams'⟩ := hstreams.push e
  refine ⟨q', ?_, hstreams'⟩
  simp only [Input.queueEvent, Input.hasRoom, hinput, hpush, hstreams.room_iff, decide_eq_true_eq,
    Option.bind_eq_bind, Option.bind_some]

theorem tick (h : m.Follows t) :
    ∃ m', m.tick = some (m', t.tick.2) ∧ m'.Follows t.tick.1 := by
  obtain ⟨q, hinput, hstreams⟩ := h.queue
  have hplace := h.place
  cases ht : t.place with
  | waiting =>
    refine ⟨{ m with place := .testing }, ?_, ?_⟩
    · simp [EventMachine.tick, EventDesk.tick, hplace, ht]
    · simp only [EventDesk.tick, ht]
      exact ⟨h.started, rfl, h.queue⟩
  | testing =>
    have hlength : 0 < q.length ↔ 0 < t.events.length := by
      rw [hstreams.length_eq, Nat.mul_pos_iff_of_pos_left (by decide)]
    refine ⟨{ m with place := if 0 < t.events.length then .popping else .waiting }, ?_, ?_⟩
    · simp [EventMachine.tick, EventDesk.tick, hplace, ht, hinput, hlength]
    · simp only [EventDesk.tick, ht]
      exact ⟨h.started, rfl, h.queue⟩
  | popping =>
    cases hevents : t.events with
    | nil =>
      rw [hevents] at hstreams
      refine ⟨{ m with place := .handling }, ?_, ?_⟩
      · simp [EventMachine.tick, EventDesk.tick, hplace, ht, hinput, hevents, hstreams.pop_nil]
      · simp only [EventDesk.tick, ht, hevents]
        exact ⟨h.started, rfl, q, hinput, hstreams⟩
    | cons e rest =>
      rw [hevents] at hstreams
      obtain ⟨q', hpop, hstreams'⟩ := hstreams.pop_cons
      refine ⟨{ m with input := { m.input with eventQueue := some q' }, place := .handling }, ?_, ?_⟩
      · simp [EventMachine.tick, EventDesk.tick, hplace, ht, hinput, hevents, hpop]
      · simp only [EventDesk.tick, ht, hevents]
        exact ⟨h.started, rfl, q', by rw [hinput], hstreams'⟩
  | handling =>
    refine ⟨{ m with place := .testing }, ?_, ?_⟩
    · simp [EventMachine.tick, EventDesk.tick, hplace, ht]
    · simp only [EventDesk.tick, ht]
      exact ⟨h.started, rfl, h.queue⟩

theorem step (h : m.Follows t) (a : EventAction) :
    ∃ m', m.step a = some (m', (t.step a).2) ∧ m'.Follows (t.step a).1 := by
  cases a with
  | tick => exact h.tick
  | start c =>
    by_cases hmasked : t.place.masked = true
    · exact ⟨m, by simp [EventMachine.step, EventDesk.step, h.place, hmasked],
        by simpa [EventDesk.step, hmasked] using h⟩
    · obtain ⟨q, hinput, hstreams⟩ := h.queue
      have hprepare : c.prepare m.input =
          ({ (c.prepare t.input).1 with eventQueue := some q }, (c.prepare t.input).2) := by
        rw [hinput, c.prepare_setQueue]
      refine ⟨{ m with
        input := (c.prepare m.input).1
        started := (c.prepare m.input).2.toList ++ m.started }, ?_, ?_⟩
      · simp [EventMachine.step, EventDesk.step, h.place, hmasked]
      · simp only [EventDesk.step, if_neg hmasked, hprepare]
        exact ⟨by rw [h.started], h.place, q, rfl, hstreams⟩
  | push i =>
    by_cases hmasked : t.place.masked = true
    · exact ⟨m, by simp [EventMachine.step, EventDesk.step, h.place, hmasked],
        by simpa [EventDesk.step, hmasked] using h⟩
    · cases he : t.started[i]? with
      | none =>
        exact ⟨m, by simp [EventMachine.step, EventDesk.step, h.started, hmasked, h.place, he],
          by simpa [EventDesk.step, hmasked, he] using h⟩
      | some e =>
        obtain ⟨q', hqueue, hstreams⟩ := h.queueEvent e
        refine ⟨{ m with
          input := { t.input with eventQueue := some q' }
          started := m.started.eraseIdx i }, ?_, ?_⟩
        · by_cases hroom : t.events.length < eventCapacity <;>
            simp [EventMachine.step, EventDesk.step, h.started, hmasked, h.place, he, hqueue, hroom]
        · simp only [EventDesk.step, if_neg hmasked, he]
          exact ⟨by rw [h.started], h.place, q', rfl, hstreams⟩

theorem run (h : m.Follows t) (actions : List EventAction) :
    ∃ m', Refinement.run EventMachine.step m actions =
        some (m', (Refinement.replies EventDesk.step t actions).2) ∧
      m'.Follows (Refinement.replies EventDesk.step t actions).1 :=
  Refinement.run_refines (R := EventMachine.Follows) (fun _ _ a h => h.step a) h actions

end EventMachine.Follows

/-! ### What was offered, taken and popped -/

/-- The replies of a run, when the desk is left in this state. -/
structure EventDesk.Delivers (os : List EventReply) (t : EventDesk) : Prop where
  room : t.events.length ≤ eventCapacity
  popping : t.place = .popping → t.events ≠ []
  order : ∃ out, poppedEvents os = out.map InputEvent.bytes ∧ takenEvents os = out ++ t.events
  refused : ∀ pre e taken post, os = pre ++ .offered e taken :: post →
    (taken = true ↔ (takenEvents pre).length < (poppedEvents pre).length + eventCapacity)

theorem takenEvents_sublist (os : List EventReply) :
    (takenEvents os).Sublist (offeredEvents os) := by
  induction os with
  | nil => exact List.Sublist.slnil
  | cons o os ih =>
    cases o with
    | quiet => exact ih
    | popped bytes => exact ih
    | offered e taken =>
      cases taken with
      | false => exact ih.cons e
      | true => exact ih.cons_cons e

namespace EventDesk

variable {os : List EventReply} {t : EventDesk}

theorem takenEvents_concat (os : List EventReply) (o : EventReply) :
    takenEvents (os ++ [o]) = takenEvents os ++ o.takenEvent.toList := by
  cases h : o.takenEvent <;> simp [takenEvents, h]

theorem poppedEvents_concat (os : List EventReply) (o : EventReply) :
    poppedEvents (os ++ [o]) = poppedEvents os ++ o.poppedBytes.toList := by
  cases h : o.poppedBytes <;> simp [poppedEvents, h]

/-- Only the last reply is new. -/
theorem refused_concat {o : EventReply}
    (h : ∀ pre e taken post, os = pre ++ .offered e taken :: post →
      (taken = true ↔ (takenEvents pre).length < (poppedEvents pre).length + eventCapacity))
    (ho : ∀ e taken, o = .offered e taken →
      (taken = true ↔ (takenEvents os).length < (poppedEvents os).length + eventCapacity))
    (pre : List EventReply) (e : InputEvent) (taken : Bool) (post : List EventReply)
    (heq : os ++ [o] = pre ++ .offered e taken :: post) :
    taken = true ↔ (takenEvents pre).length < (poppedEvents pre).length + eventCapacity := by
  cases hpost : post.getLast? with
  | none =>
    rw [List.getLast?_eq_none_iff.mp hpost] at heq
    obtain ⟨rfl, hlast⟩ := List.append_inj' heq rfl
    exact ho e taken (List.cons.inj hlast).1
  | some last =>
    obtain ⟨post', rfl⟩ := List.getLast?_eq_some_iff.mp hpost
    rw [← List.cons_append, ← List.append_assoc] at heq
    exact h pre e taken post' (List.append_inj' heq rfl).1

theorem Delivers.quiet (h : t.Delivers os) {t' : EventDesk} (hevents : t'.events = t.events)
    (hpopping : t'.place = .popping → t.events ≠ []) : t'.Delivers (os ++ [.quiet]) where
  room := hevents ▸ h.room
  popping := hevents ▸ hpopping
  order := by
    obtain ⟨out, hpopped, htaken⟩ := h.order
    refine ⟨out, ?_, ?_⟩
    · rw [poppedEvents_concat, hpopped]
      exact List.append_nil _
    · rw [takenEvents_concat, htaken, hevents]
      exact List.append_nil _
  refused := refused_concat h.refused fun e taken ho => by cases ho

theorem Delivers.waiting_length (h : t.Delivers os) :
    (takenEvents os).length = (poppedEvents os).length + t.events.length := by
  obtain ⟨out, hpopped, htaken⟩ := h.order
  rw [htaken, hpopped, List.length_append, List.length_map]

theorem Delivers.offered (h : t.Delivers os) (e : InputEvent) {started : List InputEvent}
    (hplace : t.place ≠ .popping) :
    Delivers (os ++ [.offered e (t.events.length < eventCapacity)])
      { t with
        events := if t.events.length < eventCapacity then t.events ++ [e] else t.events
        started } := by
  have hrefused := refused_concat (o := .offered e (t.events.length < eventCapacity)) h.refused
    fun e' taken ho => by
      have hlength := h.waiting_length
      cases ho
      rw [decide_eq_true_eq]
      omega
  obtain ⟨out, hpopped, htaken⟩ := h.order
  by_cases hroom : t.events.length < eventCapacity
  · rw [if_pos hroom]
    refine ⟨?_, fun hp => absurd hp hplace, ⟨out, ?_, ?_⟩, hrefused⟩
    · rw [List.length_append]
      exact hroom
    · rw [poppedEvents_concat, hpopped]
      exact List.append_nil _
    · rw [takenEvents_concat, htaken, decide_eq_true hroom]
      exact List.append_assoc ..
  · rw [if_neg hroom]
    refine ⟨h.room, fun hp => absurd hp hplace, ⟨out, ?_, ?_⟩, hrefused⟩
    · rw [poppedEvents_concat, hpopped]
      exact List.append_nil _
    · rw [takenEvents_concat, htaken, decide_eq_false hroom]
      exact List.append_nil _

theorem Delivers.popped (h : t.Delivers os) {e : InputEvent} {rest : List InputEvent}
    (hevents : t.events = e :: rest) :
    Delivers (os ++ [.popped e.bytes]) { t with events := rest, place := .handling } where
  room := by
    have hroom := h.room
    rw [hevents] at hroom
    exact (Nat.le_succ _).trans hroom
  popping hp := by cases hp
  order := by
    obtain ⟨out, hpopped, htaken⟩ := h.order
    refine ⟨out ++ [e], ?_, ?_⟩
    · rw [poppedEvents_concat, hpopped, List.map_append]
      rfl
    · rw [takenEvents_concat, htaken, hevents, List.append_assoc, List.append_assoc]
      exact congrArg (out ++ ·) (List.append_nil _)
  refused := refused_concat h.refused fun e taken ho => by cases ho

theorem Delivers.step (h : t.Delivers os) (a : EventAction) :
    (t.step a).1.Delivers (os ++ [(t.step a).2]) := by
  cases a with
  | start c =>
    simp only [EventDesk.step]
    split
    · exact h.quiet rfl h.popping
    · exact h.quiet rfl h.popping
  | push i =>
    simp only [EventDesk.step]
    split
    · exact h.quiet rfl h.popping
    · split
      · exact h.quiet rfl h.popping
      · apply h.offered _
        intro hp
        simp_all [DrainPlace.masked]
  | tick =>
    simp only [EventDesk.step, tick]
    split
    · exact h.quiet rfl fun hp => by cases hp
    · refine h.quiet rfl fun hp => ?_
      rw [← List.length_pos_iff]
      by_contra hempty
      rw [if_neg hempty] at hp
      cases hp
    · obtain ⟨e, rest, hevents⟩ := List.exists_cons_of_ne_nil (h.popping ‹_›)
      simp only [hevents]
      exact h.popped hevents
    · exact h.quiet rfl fun hp => by cases hp

theorem delivers_run (s : Input) (actions : List EventAction) :
    (Refinement.replies step (boot s) actions).1.Delivers
      (Refinement.replies step (boot s) actions).2 := by
  have hboot : (boot s).Delivers [] :=
    ⟨Nat.zero_le _, by simp [boot], ⟨[], rfl, rfl⟩, by simp⟩
  exact Refinement.replies_history (fun os t a h => h.step a) hboot actions

/-- Undisturbed, the loop pops all events that wait and ends. -/
theorem drains (t : EventDesk) (ht : t.place = .testing) :
    ∃ os, Refinement.replies step t (List.replicate (3 * t.events.length + 1) .tick) =
      ({ t with events := [], place := .waiting }, os) ∧
      poppedEvents os = t.events.map InputEvent.bytes := by
  obtain ⟨input, started, place, events⟩ := t
  cases ht
  induction events with
  | nil => exact ⟨[.quiet], rfl, rfl⟩
  | cons e rest ih =>
    obtain ⟨os, hrest, hpopped⟩ := ih
    have hcount : 3 * (rest.length + 1) + 1 = 3 * rest.length + 1 + 1 + 1 + 1 := by omega
    refine ⟨.quiet :: .popped e.bytes :: .quiet :: os, ?_, ?_⟩
    · simp only [List.length_cons, hcount, List.replicate_succ (n := _ + 1), Refinement.replies_cons,
        step, tick, Nat.zero_lt_succ, if_true, List.tail_cons, List.head?_cons, Option.elim_some,
        hrest]
    · exact congrArg (e.bytes :: ·) hpopped

end EventDesk

/-- In every interleaving the queue holds whole events; what came out are the events that the queue
took, byte for byte and in order, and it refused exactly those it had no room for as a whole. Where
`kMain` finds the queue not empty the next event comes out, and undisturbed its loop ends. -/
theorem EventMachine.events_never_torn (s : Input) (buffer : List UInt8)
    (hbuffer : buffer.length = 32 * InputEvent.sizeof) (actions : List EventAction) :
    ∃ m q os out waiting,
      Refinement.run step (boot s buffer) actions = some (m, os) ∧
      m.input.eventQueue = some q ∧
      q.length = InputEvent.sizeof * waiting.length ∧
      q.Contains (waiting.flatMap InputEvent.bytes) ∧
      poppedEvents os = out.map InputEvent.bytes ∧
      takenEvents os = out ++ waiting ∧
      (takenEvents os).Sublist (offeredEvents os) ∧
      (∀ pre e taken post, os = pre ++ .offered e taken :: post →
        (taken = true ↔ (takenEvents pre).length < (poppedEvents pre).length + 32)) ∧
      (m.place = .testing → 0 < q.length →
        ∃ m' q' e, waiting.head? = some e ∧
          Refinement.run step m [.tick, .tick] = some (m', [.quiet, .popped e.bytes]) ∧
          m'.place = .handling ∧ m'.input.eventQueue = some q' ∧
          q'.length + InputEvent.sizeof = q.length) ∧
      (m.place = .testing →
        ∃ m' os', Refinement.run step m (List.replicate (3 * waiting.length + 1) .tick) =
            some (m', os') ∧
          m'.place = .waiting ∧ poppedEvents os' = waiting.map InputEvent.bytes) := by
  obtain ⟨m, hrun, hfollows⟩ := (Follows.boot s (hbuffer.trans (Nat.mul_comm _ _))).run actions
  have hdelivers := EventDesk.delivers_run s actions
  generalize Refinement.replies EventDesk.step (EventDesk.boot s) actions = r at *
  obtain ⟨t, os⟩ := r
  dsimp only at hrun hfollows hdelivers
  obtain ⟨q, hinput, hstreams⟩ := hfollows.queue
  obtain ⟨out, hpopped, htaken⟩ := hdelivers.order
  refine ⟨m, q, os, out, t.events, hrun, by rw [hinput], hstreams.length_eq, hstreams.contains,
    hpopped, htaken, takenEvents_sublist os, hdelivers.refused, fun hplace hlength => ?_,
    fun hplace => ?_⟩
  · rw [hfollows.place] at hplace
    rw [hstreams.length_eq] at hlength
    obtain ⟨e, rest, hevents⟩ := List.exists_cons_of_length_pos (Nat.pos_of_mul_pos_left hlength)
    obtain ⟨m', hrun', hfollows'⟩ := hfollows.run [.tick, .tick]
    obtain ⟨q', hinput', hstreams'⟩ := hfollows'.queue
    have hticks : Refinement.replies EventDesk.step t [.tick, .tick] =
        ({ t with events := rest, place := .handling }, [.quiet, .popped e.bytes]) := by
      simp [EventDesk.step, EventDesk.tick, hplace, hevents]
    rw [hticks] at hrun' hfollows' hstreams'
    refine ⟨m', q', e, by rw [hevents]; rfl, hrun', hfollows'.place, by rw [hinput'], ?_⟩
    rw [hstreams'.length_eq, hstreams.length_eq, hevents]
    rfl
  · rw [hfollows.place] at hplace
    obtain ⟨os', hticks, hall⟩ := t.drains hplace
    obtain ⟨m', hrun', hfollows'⟩ :=
      hfollows.run (List.replicate (3 * t.events.length + 1) .tick)
    rw [hticks] at hrun' hfollows'
    exact ⟨m', os', hrun', hfollows'.place, hall⟩

/-- Two keys and a pop: the second event stays in the queue. -/
theorem EventMachine.events_never_torn_two_keys :
    ∃ m q os out waiting,
      Refinement.run step (boot (.boot 0 0 640 480 none) (List.replicate 512 0))
        [.start (.pressKey .a), .push 0, .start (.releaseKey .a), .push 0, .tick, .tick, .tick] =
          some (m, os) ∧
      m.input.eventQueue = some q ∧ q.length = InputEvent.sizeof * waiting.length ∧
      poppedEvents os = out.map InputEvent.bytes ∧ takenEvents os = out ++ waiting := by
  obtain ⟨m, q, os, out, waiting, hrun, hqueue, hlength, -, hpopped, htaken, -⟩ :=
    EventMachine.events_never_torn (.boot 0 0 640 480 none) (List.replicate 512 0)
      List.length_replicate
      [.start (.pressKey .a), .push 0, .start (.releaseKey .a), .push 0, .tick, .tick, .tick]
  exact ⟨m, q, os, out, waiting, hrun, hqueue, hlength, hpopped, htaken⟩

end Helos
