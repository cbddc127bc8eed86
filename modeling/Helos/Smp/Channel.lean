import Helos.Theory.Loops
import Helos.Util.Queue

/-!
# Sending over a channel

`smp_Channel_Send` of `smp/channel.c`. The queue is filled with interrupts disabled; after that, and after
everything that is done next, other threads run and change the channel. What is done is written down in
order: a thread that waits on `c->send` goes on when it has been notified.
-/

namespace Helos

/-- The queue is null for a channel without a buffer. -/
structure Channel where
  queue : Option Queue
  buffer : List UInt8
  objSize : Nat

/-- What a sender does: `fill` leaves the queue as it says, `copy` leaves `c->buffer`. -/
inductive SendAction where
  | fill (queue : Queue)
  | notifyAll
  | yield
  | wait
  | copy (buffer : List UInt8)
  | notifyOne (data : Nat)
deriving DecidableEq

namespace Channel

/-- `smp_Channel_Create`, with the blocks that `kMalloc` returns for `c->buffer` and for the queue. -/
def create (objectSize bufferSize : Nat) (buffer block : List UInt8) : Channel :=
  { queue := if bufferSize ≠ 0 then some (Queue.initBuffered block) else none
    buffer
    objSize := objectSize }

/-- The `objSize` bytes from `data + i * objSize` on. A read past the data is undefined. -/
def object (data : List UInt8) (objSize i : Nat) : Option (List UInt8) :=
  if i * objSize + objSize ≤ data.length then some ((data.drop (i * objSize)).take objSize) else none

/-- `i++` of an `int` -/
def increment (i : Nat) : Option Nat := if i + 1 < 2 ^ 31 then some (i + 1) else none

structure Filling where
  i : Nat
  queue : Queue

def Filling.More (count : Nat) (f : Filling) : Prop := f.i < count ∧ f.queue.space ≠ 0

instance (count : Nat) : DecidablePred (Filling.More count) :=
  fun _ => inferInstanceAs (Decidable (_ ∧ _))

def Filling.turn (data : List UInt8) (objSize : Nat) (f : Filling) : Option Filling := do
  let i ← increment f.i
  let bytes ← object data objSize f.i
  let queue ← f.queue.push bytes
  some ⟨i, queue⟩

structure Sending where
  i : Nat
  channel : Channel
  actions : List SendAction

/-- The other threads run after it. -/
def Sending.act (others : Nat → Channel → Channel) (s : Sending) (action : SendAction) : Sending :=
  { s with channel := others s.actions.length s.channel, actions := s.actions ++ [action] }

/-- `memcpy` to `c->buffer` -/
def copy (buffer bytes : List UInt8) : Option (List UInt8) :=
  if bytes.length ≤ buffer.length then some (bytes ++ buffer.drop bytes.length) else none

def Sending.Leftover (count : Nat) (s : Sending) : Prop := s.i < count

instance (count : Nat) : DecidablePred (Sending.Leftover count) := fun _ => Nat.decLt _ _

def Sending.turn (others : Nat → Channel → Channel) (data : List UInt8) (s : Sending) :
    Option Sending := do
  let s := s.act others .wait
  let bytes ← object data s.channel.objSize s.i
  let buffer ← copy s.channel.buffer bytes
  let s := { s with channel := { s.channel with buffer } }
  let s := ((s.act others (.copy buffer)).act others (.notifyOne 1)).act others .yield
  let i ← increment s.i
  some { s with i }

def fillFirst (others : Nat → Channel → Channel) (c : Channel) (data : List UInt8) (count fuel : Nat) :
    Option Sending :=
  match c.queue with
  | none => some ⟨0, c, []⟩
  | some queue => do
    let f ← Loops.whileDo (Filling.More count) (Filling.turn data c.objSize) fuel ⟨0, queue⟩
    let s : Sending := ⟨f.i, { c with queue := some f.queue }, []⟩
    some (((s.act others (.fill f.queue)).act others .notifyAll).act others .yield)

/-- `smp_Channel_Send`. What it returns was read off before the leftovers. -/
def send (others : Nat → Channel → Channel) (c : Channel) (data : List UInt8) (count fuel : Nat) :
    Option (Sending × Nat) := do
  let s ← fillFirst others c data count fuel
  let sent := s.i
  let s ← Loops.whileDo (Sending.Leftover count) (Sending.turn others data) fuel s
  some (s, sent)

/-! ### Filling the queue -/

/-- A channel with a buffer of some objects, of which some are in use. -/
structure Buffered (c : Channel) (queue : Queue) (xs : List UInt8) (bufferSize filled : Nat) : Prop where
  queue_eq : c.queue = some queue
  objSize_pos : 0 < c.objSize
  buffer : c.buffer.length = c.objSize
  size : queue.size = c.objSize * bufferSize
  contains : queue.Contains xs
  filled : xs.length = c.objSize * filled

theorem create_buffered {objectSize bufferSize : Nat} {buffer block : List UInt8} (hpos : 0 < objectSize)
    (hbufferSize : 0 < bufferSize) (hbuffer : buffer.length = objectSize)
    (hblock : block.length = objectSize * bufferSize) :
    Buffered (create objectSize bufferSize buffer block) (Queue.initBuffered block) [] bufferSize 0 where
  queue_eq := if_pos (Nat.ne_of_gt hbufferSize)
  objSize_pos := hpos
  buffer := hbuffer
  size := hblock
  contains := Queue.contains_initBuffered block
  filled := rfl

variable {others : Nat → Channel → Channel} {c : Channel} {queue queue' : Queue} {xs data : List UInt8}
  {bufferSize filled objSize count fuel i n : Nat}

def objectAt (data : List UInt8) (objSize i : Nat) : List UInt8 := (data.drop (i * objSize)).take objSize

theorem object_eq (hdata : data.length = count * objSize) (hi : i < count) :
    object data objSize i = some (objectAt data objSize i) ∧ (objectAt data objSize i).length = objSize := by
  have hend : i * objSize + objSize ≤ data.length := by
    rw [hdata, ← Nat.succ_mul]
    exact Nat.mul_le_mul_right objSize hi
  refine ⟨if_pos hend, ?_⟩
  rw [objectAt, List.length_take, List.length_drop]
  omega

theorem space_eq (h : queue.Contains xs) (hsize : queue.size = objSize * bufferSize)
    (hfilled : xs.length = objSize * filled) : queue.space = objSize * (bufferSize - filled) := by
  rw [h.space_eq, hsize, hfilled, Nat.mul_sub]

/-- An object that is pushed while there is room at all has room as a whole. -/
theorem push_object (h : queue.Contains xs) (hsize : queue.size = objSize * bufferSize)
    (hfilled : xs.length = objSize * filled) (hroom : queue.space ≠ 0) {bytes : List UInt8}
    (hbytes : bytes.length = objSize) :
    ∃ queue', queue.push bytes = some queue' ∧ queue'.Contains (xs ++ bytes) ∧
      queue'.size = queue.size ∧ (xs ++ bytes).length = objSize * (filled + 1) ∧ filled < bufferSize := by
  have hspace := space_eq h hsize hfilled
  have hlt : filled < bufferSize := by
    by_contra hfull
    rw [Nat.sub_eq_zero_of_le (Nat.not_lt.mp hfull), Nat.mul_zero] at hspace
    exact hroom hspace
  have hle : objSize * (filled + 1) ≤ objSize * bufferSize := Nat.mul_le_mul_left _ hlt
  rw [Nat.mul_succ] at hle
  obtain ⟨queue', hpush, hcontains, hsize'⟩ := Queue.pushBytes_room h bytes (by omega)
  have hfits : ¬ queue.space < bytes.length := by
    have hcount := h.space_eq
    omega
  refine ⟨queue', (if_neg hfits).trans hpush, hcontains, hsize', ?_, hlt⟩
  rw [List.length_append, hfilled, hbytes, Nat.mul_succ]

theorem fill_spec (h : queue.Contains xs) (hsize : queue.size = objSize * bufferSize)
    (hfilled : xs.length = objSize * filled) (hpos : 0 < objSize) (hcount : count < 2 ^ 31)
    (hdata : data.length = count * objSize) (hi : i ≤ count)
    (hn : n = min (count - i) (bufferSize - filled)) (hfuel : n < fuel) :
    ∃ queue', Loops.whileDo (Filling.More count) (Filling.turn data objSize) fuel ⟨i, queue⟩ =
        some ⟨i + n, queue'⟩ ∧
      queue'.Contains (xs ++ (data.drop (i * objSize)).take (n * objSize)) := by
  induction n generalizing queue xs filled i fuel with
  | zero =>
    obtain ⟨fuel, rfl⟩ := Nat.exists_eq_succ_of_ne_zero (Nat.ne_of_gt hfuel)
    have hstop : ¬ Filling.More count ⟨i, queue⟩ := by
      rintro ⟨hlt, hroom⟩
      have hfull : bufferSize - filled = 0 := by
        dsimp only at hlt
        omega
      rw [space_eq h hsize hfilled, hfull, Nat.mul_zero] at hroom
      exact hroom rfl
    refine ⟨queue, Loops.whileDo_end hstop, ?_⟩
    rwa [Nat.zero_mul, List.take_zero, List.append_nil]
  | succ n ih =>
    obtain ⟨fuel, rfl⟩ := Nat.exists_eq_succ_of_ne_zero (show fuel ≠ 0 by omega)
    have hlt : i < count := by omega
    have hroom : queue.space ≠ 0 := by
      have hfree : 0 < bufferSize - filled := by omega
      rw [space_eq h hsize hfilled]
      exact Nat.ne_of_gt (Nat.mul_pos hpos hfree)
    have hmore : Filling.More count ⟨i, queue⟩ := ⟨hlt, hroom⟩
    obtain ⟨hobject, hlength⟩ := object_eq hdata hlt
    obtain ⟨queue₁, hpush, hcontains, hsize₁, hfilled₁, -⟩ := push_object h hsize hfilled hroom hlength
    have hincrement : increment i = some (i + 1) := if_pos (by omega)
    obtain ⟨queue', hrest, hcontains'⟩ := ih hcontains (hsize₁.trans hsize) hfilled₁ hlt (by omega)
      (Nat.lt_of_succ_lt_succ hfuel)
    refine ⟨queue', ?_, ?_⟩
    · rw [Loops.whileDo_turn hmore, Filling.turn]
      simp only [hincrement, hobject, hpush, Option.bind_eq_bind, Option.bind_some]
      rw [hrest, show i.succ + n = i + (n + 1) by omega]
    · rwa [List.append_assoc, objectAt, Nat.succ_mul, ← List.drop_drop, ← List.take_add, Nat.add_comm,
        ← Nat.succ_mul] at hcontains'

theorem length_of_object {bytes : List UInt8} (h : object data objSize i = some bytes) :
    bytes.length = objSize := by
  obtain ⟨hend, hbytes⟩ := Option.ite_none_right_eq_some.mp h
  rw [← Option.some.inj hbytes, List.length_take, List.length_drop]
  omega

/-- However long the loop runs, the queue takes no more objects than it has room for, and an `int` counts
them. -/
theorem fill_le (h : Buffered c queue xs bufferSize filled) {f : Filling}
    (hrun : Loops.whileDo (Filling.More count) (Filling.turn data c.objSize) fuel ⟨0, queue⟩ = some f) :
    f.i ≤ bufferSize - filled ∧ f.i < 2 ^ 31 := by
  let I : Filling → Prop := fun f =>
    (∃ ys, f.queue.Contains ys ∧ ys.length = c.objSize * (filled + f.i)) ∧
      f.queue.size = c.objSize * bufferSize ∧ filled + f.i ≤ bufferSize ∧ f.i < 2 ^ 31
  have hstart : I ⟨0, queue⟩ := by
    refine ⟨⟨xs, h.contains, h.filled⟩, h.size, ?_, Nat.two_pow_pos 31⟩
    have hle := h.contains.le_size
    rw [h.filled, h.size] at hle
    exact Nat.le_of_mul_le_mul_left hle h.objSize_pos
  have hturn : ∀ f f', I f → Filling.More count f → Filling.turn data c.objSize f = some f' → I f' := by
    rintro f f' ⟨⟨ys, hcontains, hlength⟩, hsize, hle, -⟩ ⟨-, hroom⟩ hf'
    obtain ⟨i, hi, hrest⟩ := Option.bind_eq_some_iff.mp hf'
    obtain ⟨hint, heq⟩ := Option.ite_none_right_eq_some.mp hi
    obtain rfl := Option.some.inj heq
    obtain ⟨bytes, hobject, hrest⟩ := Option.bind_eq_some_iff.mp hrest
    obtain ⟨queue₁, hpush, hqueue₁, hsize₁, hlength₁, hlt⟩ :=
      push_object hcontains hsize hlength hroom (length_of_object hobject)
    rw [hpush] at hrest
    obtain rfl := Option.some.inj hrest
    exact ⟨⟨_, hqueue₁, hlength₁⟩, hsize₁.trans hsize, hlt, hint⟩
  obtain ⟨-, -, hle, hint⟩ := Loops.whileDo_invariant (I := I) hturn hstart hrun
  exact ⟨by omega, hint⟩

/-! ### Handing over the leftovers -/

/-- The other threads do not destroy the channel. -/
def Undisturbed (others : Nat → Channel → Channel) : Prop :=
  ∀ k c, (others k c).objSize = c.objSize ∧ (others k c).buffer.length = c.buffer.length

/-- Object `i` is handed over once. -/
def offer (data : List UInt8) (objSize i : Nat) : List SendAction :=
  [.wait, .copy (objectAt data objSize i), .notifyOne 1, .yield]

/-- An object as large as the buffer replaces what is in it. -/
theorem copy_eq {buffer bytes : List UInt8} (h : bytes.length = buffer.length) :
    copy buffer bytes = some bytes := by
  rw [copy, if_pos h.le, h, List.drop_length, List.append_nil]

/-- The channel is there, with a buffer for one object. -/
structure Sending.Ready (objSize : Nat) (s : Sending) : Prop where
  sized : s.channel.objSize = objSize
  buffer : s.channel.buffer.length = objSize

theorem Sending.Ready.act {s : Sending} (h : s.Ready objSize) (hothers : Undisturbed others)
    (action : SendAction) : (s.act others action).Ready objSize where
  sized := (hothers _ _).1.trans h.sized
  buffer := (hothers _ _).2.trans h.buffer

theorem turn_eq (hothers : Undisturbed others) {s : Sending} (h : s.Ready objSize)
    (hdata : data.length = count * objSize) (hi : s.i < count) (hcount : count < 2 ^ 31) :
    ∃ s', s.turn others data = some s' ∧ s'.Ready objSize ∧ s'.i = s.i + 1 ∧
      s'.actions = s.actions ++ offer data objSize s.i := by
  obtain ⟨hobject, hlength⟩ := object_eq hdata hi
  have hwait := h.act hothers .wait
  generalize hs₁ : s.act others .wait = s₁ at hwait
  have hi₁ : s₁.i = s.i := hs₁ ▸ rfl
  have hactions₁ : s₁.actions = s.actions ++ [.wait] := hs₁ ▸ rfl
  have hobject₁ : object data s₁.channel.objSize s₁.i = some (objectAt data objSize s.i) := by
    rw [hwait.sized, hi₁, hobject]
  have hcopy : copy s₁.channel.buffer (objectAt data objSize s.i) = some (objectAt data objSize s.i) :=
    copy_eq (hlength.trans hwait.buffer.symm)
  have hcopied : Sending.Ready objSize
      { s₁ with channel := { s₁.channel with buffer := objectAt data objSize s.i } } :=
    ⟨hwait.sized, hlength⟩
  have hdone := ((hcopied.act hothers (.copy (objectAt data objSize s.i))).act hothers
    (.notifyOne 1)).act hothers .yield
  have hincrement : increment s₁.i = some (s.i + 1) := by
    rw [increment, hi₁, if_pos (by omega)]
  unfold Sending.turn
  simp only [hs₁, hobject₁, hcopy, Option.bind_eq_bind, Option.bind_some]
  refine ⟨_, Option.bind_eq_some_iff.mpr ⟨s.i + 1, hincrement, rfl⟩, ⟨hdone.sized, hdone.buffer⟩, rfl, ?_⟩
  simp only [Sending.act, hactions₁, offer, List.append_assoc, List.cons_append, List.nil_append]

theorem leftovers_spec (hothers : Undisturbed others) {s : Sending} (h : s.Ready objSize)
    (hdata : data.length = count * objSize) (hcount : count < 2 ^ 31) (hn : s.i + n = count)
    (hfuel : n < fuel) :
    ∃ s', Loops.whileDo (Sending.Leftover count) (Sending.turn others data) fuel s = some s' ∧
      s'.actions = s.actions ++ (List.range' s.i n).flatMap (offer data objSize) := by
  induction n generalizing s fuel with
  | zero =>
    obtain ⟨fuel, rfl⟩ := Nat.exists_eq_succ_of_ne_zero (Nat.ne_of_gt hfuel)
    have hstop : ¬ Sending.Leftover count s := by
      unfold Sending.Leftover
      omega
    refine ⟨s, Loops.whileDo_end hstop, ?_⟩
    rw [List.range'_zero, List.flatMap_nil, List.append_nil]
  | succ n ih =>
    obtain ⟨fuel, rfl⟩ := Nat.exists_eq_succ_of_ne_zero (show fuel ≠ 0 by omega)
    have hmore : Sending.Leftover count s := by
      unfold Sending.Leftover
      omega
    obtain ⟨s₁, hturn, hready, hi, hactions⟩ := turn_eq hothers h hdata hmore hcount
    have hn₁ : s₁.i + n = count := by omega
    obtain ⟨s', hrest, hactions'⟩ := ih hready hn₁ (Nat.lt_of_succ_lt_succ hfuel)
    refine ⟨s', ?_, ?_⟩
    · rw [Loops.whileDo_turn hmore, hturn, Option.bind_some, hrest]
    · rw [hactions', hactions, hi, List.range'_succ, List.flatMap_cons, List.append_assoc]

/-! ### The contract -/

/-- The first `n` objects are in the queue behind what was there, each of the others is handed over once
and in order, and the number of objects sent is returned. -/
def Sends (c : Channel) (xs data : List UInt8) (n count : Nat) (s : Sending) : Prop :=
  ∃ queue, queue.Contains (xs ++ data.take (n * c.objSize)) ∧
    s.actions = [.fill queue, .notifyAll, .yield] ++
      (List.range' n (count - n)).flatMap (offer data c.objSize)

/-- What `smp_Channel_Send` does short of 2^31 objects: it returns how many went into the queue. -/
theorem send_spec (hothers : Undisturbed others) (h : Buffered c queue xs bufferSize filled)
    (hdata : data.length = count * c.objSize) (hcount : count < 2 ^ 31)
    (hn : n = min count (bufferSize - filled)) :
    ∃ s, send others c data count (count + 1) = some (s, n) ∧ Sends c xs data n count s := by
  have hle : n ≤ count := hn ▸ Nat.min_le_left _ _
  obtain ⟨queue', hfill, hcontains⟩ := fill_spec h.contains h.size h.filled h.objSize_pos hcount hdata
    (Nat.zero_le count) hn (Nat.lt_succ_of_le hle)
  rw [Nat.zero_add] at hfill
  rw [Nat.zero_mul, List.drop_zero] at hcontains
  have hready : Sending.Ready c.objSize ⟨n, { c with queue := some queue' }, []⟩ := ⟨rfl, h.buffer⟩
  have hready' := ((hready.act hothers (.fill queue')).act hothers .notifyAll).act hothers .yield
  have hleftover : n + (count - n) = count := Nat.add_sub_of_le hle
  obtain ⟨s, hrest, hactions⟩ := leftovers_spec hothers hready' hdata hcount hleftover
    (Nat.lt_succ_of_le (Nat.sub_le count n))
  refine ⟨s, ?_, queue', hcontains, hactions⟩
  rw [send, fillFirst, h.queue_eq]
  simp only [hfill, Option.bind_eq_bind, Option.bind_some]
  rw [hrest]
  rfl

/-- It never returns more than went into the queue. -/
theorem sent_le (h : Buffered c queue xs bufferSize filled) {s : Sending} {sent : Nat}
    (hsend : send others c data count fuel = some (s, sent)) :
    sent ≤ bufferSize - filled ∧ sent < 2 ^ 31 := by
  obtain ⟨s₁, hfirst, hrest⟩ := Option.bind_eq_some_iff.mp hsend
  obtain ⟨s₂, -, heq⟩ := Option.bind_eq_some_iff.mp hrest
  have hsent : s₁.i = sent := congrArg Prod.snd (Option.some.inj heq)
  rw [fillFirst, h.queue_eq] at hfirst
  obtain ⟨f, hfill, hf⟩ := Option.bind_eq_some_iff.mp hfirst
  have hi : f.i = s₁.i := congrArg Sending.i (Option.some.inj hf)
  rw [← hsent, ← hi]
  exact fill_le h hfill

/-- **The contract of `smp_Channel_Send`** is kept exactly when all the objects go into the queue and an
`int` can count them. -/
theorem send_keeps_contract_iff (hothers : Undisturbed others) (h : Buffered c queue xs bufferSize filled)
    (hdata : data.length = count * c.objSize) :
    (∃ fuel s, send others c data count fuel = some (s, count) ∧
        Sends c xs data (min count (queue.space / c.objSize)) count s) ↔
      count ≤ queue.space / c.objSize ∧ count < 2 ^ 31 := by
  have hfree : queue.space / c.objSize = bufferSize - filled := by
    rw [space_eq h.contains h.size h.filled, Nat.mul_div_cancel_left _ h.objSize_pos]
  rw [hfree]
  constructor
  · rintro ⟨fuel, s, hsend, -⟩
    exact sent_le h hsend
  · rintro ⟨hroom, hcount⟩
    obtain ⟨s, hsend, hsends⟩ := send_spec hothers h hdata hcount rfl
    rw [Nat.min_eq_left hroom] at hsend hsends ⊢
    exact ⟨count + 1, s, hsend, hsends⟩

theorem sends_into_free_queue :
    ∃ fuel s, send (fun _ c => c) (create 1 2 [0] [0, 0]) [7] 1 fuel = some (s, 1) ∧
      Sends (create 1 2 [0] [0, 0]) [] [7] 1 1 s :=
  (send_keeps_contract_iff (fun _ _ => ⟨rfl, rfl⟩)
    (create_buffered (by decide) (by decide) rfl rfl) rfl).mpr ⟨by decide, by decide⟩

/-- Two objects are sent, one through the queue and one handed over, and 1 is returned. -/
theorem leftover_not_counted :
    (∃ s, send (fun _ c => c) (create 1 1 [0] [0]) [7, 8] 2 3 = some (s, 1) ∧
      Sends (create 1 1 [0] [0]) [] [7, 8] 1 2 s) ∧
    ¬ ∃ fuel s, send (fun _ c => c) (create 1 1 [0] [0]) [7, 8] 2 fuel = some (s, 2) := by
  have hbuffered : Buffered (create 1 1 [0] [0]) (Queue.initBuffered [0]) [] 1 0 :=
    create_buffered (by decide) (by decide) rfl rfl
  refine ⟨send_spec (fun _ _ => ⟨rfl, rfl⟩) hbuffered rfl (by decide) rfl, ?_⟩
  rintro ⟨fuel, s, hsend⟩
  exact absurd (sent_le hbuffered hsend).1 (by decide)

end Channel

end Helos
