import Helos.Driver.Input
import Helos.Theory.Run
import Mathlib.Data.List.Induction

/-!
# What the input source reports

After a run of calls a key or button should be reported as pressed when the last call about it was a
press, and the flags of a queued key event should be the modifier keys of that moment. The mask of a
mouse button is always zero and the Super flag is never set, so this holds of the runs that have no
use for either.
-/

namespace Helos

structure ModifierFlags where
  control : Bool
  shift : Bool
  alt : Bool
  super : Bool

def InputEvent.flags : InputEvent → Option ModifierFlags
  | keyPressed _ control shift alt super => some ⟨control, shift, alt, super⟩
  | keyReleased _ control shift alt super => some ⟨control, shift, alt, super⟩
  | _ => none

namespace Input

/-! ### The specification -/

/-- Whether a call about this key is a press. -/
def Call.onKey (key : Key) : Call → Option Bool
  | .pressKey key' => if key' = key then some true else none
  | .releaseKey key' => if key' = key then some false else none
  | _ => none

def Call.onButton (button : MouseButton) : Call → Option Bool
  | .pressMouse b => if b = button then some true else none
  | .releaseMouse b => if b = button then some false else none
  | _ => none

def Call.isKey : Call → Bool
  | .pressKey _ => true
  | .releaseKey _ => true
  | _ => false

/-- The last call about the key is a press. -/
def keyHeld (calls : List Call) (key : Key) : Bool :=
  Refinement.latest (Call.onKey key) false calls

def buttonHeld (calls : List Call) (button : MouseButton) : Bool :=
  Refinement.latest (Call.onButton button) false calls

/-- The modifier keys that are reported as pressed. -/
def modifiers (s : Input) : ModifierFlags :=
  { control := s.keyPressed .lControl || s.keyPressed .rControl
    shift := s.keyPressed .lShift || s.keyPressed .rShift
    alt := s.keyPressed .lAlt || s.keyPressed .rAlt
    super := s.keyPressed .lSuper || s.keyPressed .rSuper }

def after (s : Input) (calls : List Call) : Option Input :=
  Run.exec (fun s c => (s.step c).map Prod.fst) s calls

/-- What is asked of a run of calls. -/
structure Tracks (s₀ : Input) (calls : List Call) : Prop where
  reports : ∃ s, s₀.after calls = some s ∧ (∀ key, s.keyPressed key = keyHeld calls key) ∧
    ∀ button, s.mousePressed button = buttonHeld calls button
  others : ∀ pre c post s s' e, calls = pre ++ c :: post → s₀.after pre = some s →
    s.step c = some (s', e) →
      (∀ key, c.onKey key = none → s'.keyPressed key = s.keyPressed key) ∧
      ∀ button, c.onButton button = none → s'.mousePressed button = s.mousePressed button
  flags : ∀ pre c post s s' e f, calls = pre ++ c :: post → s₀.after pre = some s →
    s.step c = some (s', some e) → e.flags = some f → f = s'.modifiers

/-- No button is left pressed, and no key event is queued while a Super key is down. -/
structure Expressible (s₀ : Input) (calls : List Call) : Prop where
  buttons : ∀ button, buttonHeld calls button = false
  super : ∀ pre c post s, calls = pre ++ c :: post → s₀.after pre = some s → c.isKey = true →
    s.hasRoom = true →
      keyHeld (pre ++ [c]) .lSuper = false ∧ keyHeld (pre ++ [c]) .rSuper = false

/-! ### One call -/

/-- The event queue holds bytes, and there is a word for every key. -/
structure Sound (s : Input) : Prop where
  queue : ∀ q, s.eventQueue = some q → ∃ bytes, q.Contains bytes
  words : s.keyMask.length = keyCount / 64 + 1

theorem Sound.word (h : Sound s) (key : Key) : key.code / 64 < s.keyMask.length := by
  have hcode := key.code_lt
  rw [h.words]
  exact Nat.lt_succ_of_le (Nat.div_le_div_right (Nat.le_of_lt hcode))

theorem keyPressed_eq_member (s : Input) (key : Key) :
    s.keyPressed key = BitWords.member s.keyMask key.code :=
  BitWords.test_bit (by decide) _ _

theorem mouseBit_eq_zero (button : MouseButton) : mouseBit button = 0 := by
  cases button <;> decide

theorem mousePressed_eq_false (s : Input) (button : MouseButton) : s.mousePressed button = false := by
  rw [mousePressed, mouseBit_eq_zero, BitWords.test_zero]

variable {s s' : Input} {e : Option InputEvent}

theorem keyPressed_set (h : s.Sound) (key key' : Key) (hs' : s'.keyMask =
    BitWords.set s.keyMask (key.code / 64) (keyBit key)) :
    s'.keyPressed key' = (decide (key = key') || s.keyPressed key') := by
  rw [keyPressed_eq_member, hs', keyBit, BitWords.member_set (by decide) (h.word key),
    keyPressed_eq_member, decide_eq_decide.mpr (Key.code_injective.eq_iff.trans eq_comm)]

theorem keyPressed_clear (h : s.Sound) (key key' : Key) (hs' : s'.keyMask =
    BitWords.clear s.keyMask (key.code / 64) (keyBit key)) :
    s'.keyPressed key' = (!decide (key = key') && s.keyPressed key') := by
  rw [keyPressed_eq_member, hs', keyBit, BitWords.member_clear (by decide) (h.word key),
    keyPressed_eq_member, decide_eq_decide.mpr (Key.code_injective.eq_iff.trans eq_comm)]

theorem queueEvent_eq (h : s.Sound) (event : InputEvent) :
    ∃ queue, s.queueEvent event =
        some ({ s with eventQueue := queue }, if s.hasRoom then some event else none) ∧
      Sound { s with eventQueue := queue } := by
  cases hqueue : s.eventQueue with
  | none =>
    refine ⟨none, ?_, ⟨by simp, h.words⟩⟩
    simp only [queueEvent, hasRoom, hqueue, Bool.false_eq_true, if_false]
    rw [← hqueue]
  | some q =>
    obtain ⟨bytes, hq⟩ := h.queue q hqueue
    obtain ⟨q', hstep, hcontains, -⟩ := Queue.step_refines hq (.push event.bytes)
    obtain ⟨q'', hpush, heq⟩ := Option.bind_eq_some_iff.mp hstep
    obtain rfl : q'' = q' := congrArg Prod.fst (Option.some.inj heq)
    refine ⟨some q'', ?_, ⟨fun q₁ hq₁ => ⟨_, Option.some.inj hq₁ ▸ hcontains⟩, h.words⟩⟩
    simp only [queueEvent, hqueue, hpush, Option.bind_eq_bind, Option.bind_some]

/-- What a call does to a sound state. -/
structure Stepped (s : Input) (c : Call) (s' : Input) (e : Option InputEvent) : Prop where
  sound : s'.Sound
  keys : ∀ key, s'.keyPressed key = (c.onKey key).getD (s.keyPressed key)
  queued : c.isKey = true → s.hasRoom = true → ∃ event f, e = some event ∧ event.flags = some f
  flags : ∀ event f, e = some event → event.flags = some f →
    c.isKey = true ∧ s.hasRoom = true ∧ f = { s'.modifiers with super := false }

/-- The two calls that queue a key event. -/
theorem stepped_key {c : Call} {event : InputEvent} (h : s'.Sound) (hc : c.isKey = true)
    (hroom : s'.hasRoom = s.hasRoom)
    (hkeys : ∀ key, s'.keyPressed key = (c.onKey key).getD (s.keyPressed key))
    (hflags : event.flags = some { s'.modifiers with super := false }) :
    ∃ s₁ e, s'.queueEvent event = some (s₁, e) ∧ Stepped s c s₁ e := by
  obtain ⟨queue, hrun, hsound⟩ := queueEvent_eq h event
  refine ⟨_, _, hrun, hsound, hkeys, fun _ hr => ⟨event, _, ?_, hflags⟩, fun event' f he hf => ?_⟩
  · rw [hroom, if_pos hr]
  · rw [hroom] at he
    split at he
    · next hr =>
      obtain rfl := Option.some.inj he
      exact ⟨hc, hr, (Option.some.inj (hflags.symm.trans hf)).symm⟩
    · cases he

/-- The calls that queue another event. -/
theorem stepped_other {c : Call} {event : InputEvent} (h : s'.Sound) (hc : c.isKey = false)
    (hon : ∀ key, c.onKey key = none) (hkeys : s'.keyMask = s.keyMask) (hflags : event.flags = none) :
    ∃ s₁ e, s'.queueEvent event = some (s₁, e) ∧ Stepped s c s₁ e := by
  obtain ⟨queue, hrun, hsound⟩ := queueEvent_eq h event
  refine ⟨_, _, hrun, hsound, fun key => ?_, fun h => ?_, fun event' f he hf => ?_⟩
  · rw [hon key, Option.getD_none, keyPressed_eq_member, keyPressed_eq_member, hkeys]
  · exact absurd h (hc ▸ Bool.false_ne_true)
  · split at he
    · obtain rfl := Option.some.inj he
      rw [hflags] at hf
      cases hf
    · cases he

theorem step_stepped (h : s.Sound) (c : Call) : ∃ s' e, s.step c = some (s', e) ∧ Stepped s c s' e := by
  cases c with
  | pressKey key =>
    refine stepped_key ⟨h.queue, (BitWords.length_set _ _ _).trans h.words⟩ rfl rfl (fun key' => ?_) rfl
    rw [keyPressed_set h key key' rfl, Call.onKey]
    by_cases heq : key = key' <;> simp [heq]
  | releaseKey key =>
    refine stepped_key ⟨h.queue, (BitWords.length_clear _ _ _).trans h.words⟩ rfl rfl
      (fun key' => ?_) rfl
    rw [keyPressed_clear h key key' rfl, Call.onKey]
    by_cases heq : key = key' <;> simp [heq]
  | pressMouse button => exact stepped_other ⟨h.queue, h.words⟩ rfl (fun _ => rfl) rfl rfl
  | releaseMouse button => exact stepped_other ⟨h.queue, h.words⟩ rfl (fun _ => rfl) rfl rfl
  | moveMouse x y => exact stepped_other ⟨h.queue, h.words⟩ rfl (fun _ => rfl) rfl rfl
  | positionMouse x y => exact stepped_other ⟨h.queue, h.words⟩ rfl (fun _ => rfl) rfl rfl
  | drain size =>
    cases hqueue : s.eventQueue with
    | none =>
      refine ⟨s, none, by simp only [step, drain, hqueue], h, fun _ => rfl, ?_, ?_⟩
      · exact fun hc => absurd hc Bool.false_ne_true
      · exact fun _ _ he => absurd he (by simp)
    | some q =>
      obtain ⟨bytes, hq⟩ := h.queue q hqueue
      obtain ⟨q', hstep, hcontains, -⟩ := Queue.step_refines hq (.pop size)
      obtain ⟨⟨q'', n, popped⟩, hpop, heq⟩ := Option.bind_eq_some_iff.mp hstep
      obtain rfl : q'' = q' := congrArg Prod.fst (Option.some.inj heq)
      refine ⟨{ s with eventQueue := some q'' }, none, ?_,
        ⟨fun q₁ hq₁ => ⟨_, Option.some.inj hq₁ ▸ hcontains⟩, h.words⟩, fun _ => rfl, ?_, ?_⟩
      · simp only [step, drain, hqueue, hpop, Option.bind_eq_bind, Option.bind_some]
      · exact fun hc => absurd hc Bool.false_ne_true
      · exact fun _ _ he => absurd he (by simp)

/-! ### Runs -/

theorem after_concat (s : Input) (calls : List Call) (c : Call) :
    s.after (calls ++ [c]) = (s.after calls).bind fun s => (s.step c).map Prod.fst := by
  rw [after, Run.exec_append]
  apply Option.bind_congr
  intro s₁ _
  rw [Run.exec_cons]
  exact Option.bind_fun_some _

/-- Every run from a sound state in which no key is down has an end, where the keys are reported as
they should be. -/
theorem after_eq (h : s.Sound) (hup : ∀ key, s.keyPressed key = false) (calls : List Call) :
    ∃ s', s.after calls = some s' ∧ s'.Sound ∧ ∀ key, s'.keyPressed key = keyHeld calls key := by
  induction calls using List.reverseRecOn with
  | nil => exact ⟨s, rfl, h, hup⟩
  | append_singleton calls c ih =>
    obtain ⟨s₁, hrun, hsound, hkeys⟩ := ih
    obtain ⟨s', e, hstep, hstepped⟩ := step_stepped hsound c
    refine ⟨s', ?_, hstepped.sound, fun key => ?_⟩
    · rw [after_concat, hrun, Option.bind_some, hstep, Option.map_some]
    · rw [hstepped.keys, hkeys, keyHeld, keyHeld, Refinement.latest_concat]

section Exact

variable {s₀ : Input} (hsound : s₀.Sound) (hup : ∀ key, s₀.keyPressed key = false)
include hsound hup

/-- Any call of a run, with the keys that are reported after it. -/
theorem after_step {pre : List Call} {s : Input} (hs : s₀.after pre = some s) (c : Call) :
    ∃ s' e, s.step c = some (s', e) ∧ Stepped s c s' e ∧
      ∀ key, s'.keyPressed key = keyHeld (pre ++ [c]) key := by
  obtain ⟨s₁, hrun, h₁, hkeys⟩ := after_eq hsound hup pre
  obtain rfl := Option.some.inj (hs.symm.trans hrun)
  obtain ⟨s', e, hstep, hstepped⟩ := step_stepped h₁ c
  refine ⟨s', e, hstep, hstepped, fun key => ?_⟩
  rw [hstepped.keys, hkeys, keyHeld, keyHeld, Refinement.latest_concat]

theorem Tracks.expressible {calls : List Call} (h : Tracks s₀ calls) : Expressible s₀ calls := by
  refine ⟨fun button => ?_, fun pre c post s hcalls hs hc hroom => ?_⟩
  · obtain ⟨s, -, -, hbuttons⟩ := h.reports
    exact (hbuttons button).symm.trans (mousePressed_eq_false s button)
  · obtain ⟨s', e, hstep, hstepped, hkeys⟩ := after_step hsound hup hs c
    obtain ⟨event, f, rfl, hf⟩ := hstepped.queued hc hroom
    have hmodifiers := h.flags pre c post s s' event f hcalls hs hstep hf
    obtain ⟨-, -, hclear⟩ := hstepped.flags event f rfl hf
    have hsuper : s'.modifiers.super = false := by
      rw [← hmodifiers, hclear]
    rw [← hkeys, ← hkeys]
    exact Bool.or_eq_false_iff.mp hsuper

theorem Expressible.tracks {calls : List Call} (h : Expressible s₀ calls) : Tracks s₀ calls := by
  obtain ⟨s, hrun, -, hkeys⟩ := after_eq hsound hup calls
  refine ⟨⟨s, hrun, hkeys, fun button => ?_⟩, fun pre c post s s' e hcalls hs hstep => ?_,
    fun pre c post s s' e f hcalls hs hstep hf => ?_⟩
  · rw [mousePressed_eq_false, h.buttons]
  · obtain ⟨s₁, e₁, hstep₁, hstepped, -⟩ := after_step hsound hup hs c
    obtain ⟨rfl, rfl⟩ := Prod.mk.inj (Option.some.inj (hstep.symm.trans hstep₁))
    refine ⟨fun key hkey => ?_, fun button _ => ?_⟩
    · rw [hstepped.keys, hkey, Option.getD_none]
    · rw [mousePressed_eq_false, mousePressed_eq_false]
  · obtain ⟨s₁, e₁, hstep₁, hstepped, hkeys₁⟩ := after_step hsound hup hs c
    obtain ⟨rfl, rfl⟩ := Prod.mk.inj (Option.some.inj (hstep.symm.trans hstep₁))
    obtain ⟨hc, hroom, rfl⟩ := hstepped.flags e f rfl hf
    obtain ⟨hl, hr⟩ := h.super pre c post s hcalls hs hc hroom
    rw [← hkeys₁] at hl hr
    simp only [modifiers, hl, hr, Bool.or_self]

end Exact

theorem boot_sound (cursorX cursorY desktopWidth desktopHeight : Int)
    (queue : Option {q : Queue // ∃ bytes, q.Contains bytes}) :
    (boot cursorX cursorY desktopWidth desktopHeight (queue.map Subtype.val)).Sound := by
  refine ⟨fun q hq => ?_, List.length_replicate⟩
  obtain ⟨q', -, rfl⟩ := Option.map_eq_some_iff.mp hq
  exact q'.property

/-- A run is reported as it should be exactly when it has no use for what is never reported. -/
theorem tracks_iff (cursorX cursorY desktopWidth desktopHeight : Int)
    (queue : Option {q : Queue // ∃ bytes, q.Contains bytes}) (calls : List Call) :
    Tracks (boot cursorX cursorY desktopWidth desktopHeight (queue.map Subtype.val)) calls ↔
      Expressible (boot cursorX cursorY desktopWidth desktopHeight (queue.map Subtype.val)) calls := by
  have hsound := boot_sound cursorX cursorY desktopWidth desktopHeight queue
  have hup : ∀ key, (boot cursorX cursorY desktopWidth desktopHeight
      (queue.map Subtype.val)).keyPressed key = false := fun key =>
    (keyPressed_eq_member _ key).trans (BitWords.member_replicate_zero _ _)
  exact ⟨Tracks.expressible hsound hup, Expressible.tracks hsound hup⟩

/-- A button that was pressed, and the event of a pressed Super key. -/
theorem button_and_super_lost :
    ¬ Tracks (boot 0 0 1024 768 none) [.pressMouse .left] ∧
      ¬ Tracks (boot 0 0 1024 768 (some (Queue.initBuffered (List.replicate 64 0))))
        [.pressKey .lSuper] := by
  constructor
  · intro h
    obtain ⟨s, -, -, hbuttons⟩ := h.reports
    have hleft := (mousePressed_eq_false s .left).symm.trans (hbuttons .left)
    exact absurd hleft (by decide)
  · intro h
    have hflags := h.flags [] (.pressKey .lSuper) [] _ _ _ ⟨false, false, false, false⟩ rfl rfl
      (show step _ (.pressKey .lSuper) = some (_, some (.keyPressed .lSuper false false false false))
        from rfl) rfl
    exact absurd (congrArg ModifierFlags.super hflags) (by decide)

end Input

end Helos
