import Helos.Util.Tree
import Mathlib.Logic.Function.Basic

/-!
# Mutexes and conditions

The bodies of `smp/mutex.c` and `smp/condiction.c`. Each runs with interrupts disabled and so in one
step. A function that yields is split in two: what it does before `smp_thread_Yield`, and the
`t->wait->data` it returns afterwards. Threads, mutexes and conditions are named by their addresses,
and a vector of threads is the list of its elements.
-/

namespace Helos

inductive WaitingType where
  | condiction
  | mutex
deriving DecidableEq

structure Waiting where
  object : Ptr
  data : Nat
  timeout : Nat
  type : WaitingType
deriving DecidableEq

def isWaiting (now : Nat) : Option Waiting → Bool
  | none => false
  | some wait => wait.object.isSome && (wait.timeout == 0 || decide (wait.timeout > now))

structure Mutex where
  locked : Nat
  waiting : List Addr

structure Condition where
  threads : List Addr

/-- `__smp_Now`, the field `wait` of each thread, the mutexes and the conditions. -/
structure Sync where
  now : Nat
  wait : Addr → Option Waiting
  mutex : Addr → Mutex
  condition : Addr → Condition

namespace Sync

/-- An assignment to fields of `t->wait`. -/
def modifyWait (s : Sync) (t : Addr) (f : Waiting → Waiting) : Option Sync := do
  let wait ← s.wait t
  some { s with wait := Function.update s.wait t (some (f wait)) }

/-- The value a blocked function returns when its thread goes on. -/
def waitData (s : Sync) (t : Addr) : Option Nat := (s.wait t).map Waiting.data

def isWaiting (s : Sync) (t : Addr) : Bool := Helos.isWaiting s.now (s.wait t)

def tick (s : Sync) : Sync := { s with now := wrap64 (s.now + 1) }

/-! ### `mutex.c` -/

/-- `smp_Mutex_LockTimeout`; false means that the thread goes on to yield. -/
def lockTimeout (s : Sync) (t mutex : Addr) (timeout : Nat) : Sync × Bool :=
  let m := s.mutex mutex
  if m.locked = 0 then
    ({ s with mutex := Function.update s.mutex mutex { m with locked := 1 } }, true)
  else
    let wait : Waiting :=
      { type := .mutex
        object := some mutex
        data := 0
        timeout := if timeout ≠ 0 then wrap64 (s.now + timeout) else 0 }
    ({ s with
        wait := Function.update s.wait t (some wait)
        mutex := Function.update s.mutex mutex { m with waiting := m.waiting ++ [t] } }, false)

def lock (s : Sync) (t mutex : Addr) : Sync × Bool := s.lockTimeout t mutex 0

def tryLock (s : Sync) (mutex : Addr) : Sync × Bool :=
  let m := s.mutex mutex
  if m.locked = 0 then
    ({ s with mutex := Function.update s.mutex mutex { m with locked := 1 } }, true)
  else (s, false)

/-- The assertion fails on a mutex that is not locked. -/
def unlock (s : Sync) (mutex : Addr) : Option Sync :=
  let m := s.mutex mutex
  if m.locked = 0 then none
  else
    match m.waiting.getLast? with
    | some waiting => do
      let s ← s.modifyWait waiting fun wait =>
        { wait with object := none, data := 1, timeout := 0 }
      let m := { m with waiting := m.waiting.dropLast }
      some { s with mutex := Function.update s.mutex mutex m }
    | none => some { s with mutex := Function.update s.mutex mutex { m with locked := 0 } }

/-! ### `condiction.c` -/

/-- `smp_Condition_Wait`, up to its yield. -/
def conditionWait (s : Sync) (t c : Addr) : Sync :=
  let wait : Waiting := { type := .condiction, object := some c, data := 0, timeout := 0 }
  { s with
    wait := Function.update s.wait t (some wait)
    condition := Function.update s.condition c ⟨(s.condition c).threads ++ [t]⟩ }

def notifyOne (s : Sync) (c : Addr) (data : Nat) : Option (Sync × Bool) :=
  match (s.condition c).threads.getLast? with
  | none => some (s, false)
  | some last => do
    let s ← s.modifyWait last fun wait => { wait with object := none, data := data }
    let threads := (s.condition c).threads.dropLast
    some ({ s with condition := Function.update s.condition c ⟨threads⟩ }, true)

/-- The loop of `smp_Condition_NotifyAll`. -/
def notifyEach (data : Nat) : List Addr → Sync → Option Sync
  | [], s => some s
  | t :: threads, s => do
    let s ← s.modifyWait t fun wait => { wait with object := none, data := data }
    notifyEach data threads s

/-- It returns 1, not the number of threads, when there are any. -/
def notifyAll (s : Sync) (c : Addr) (data : Nat) : Option (Sync × Nat) :=
  if (s.condition c).threads = [] then some (s, 0)
  else do
    let s ← notifyEach data (s.condition c).threads s
    some ({ s with condition := Function.update s.condition c ⟨[]⟩ }, 1)

/-! ### What a call leaves alone -/

section Frame

variable {s s' : Sync} {t : Addr} {f : Waiting → Waiting}

theorem modifyWait_eq_some (h : s.modifyWait t f = some s') :
    ∃ w, s.wait t = some w ∧ s' = { s with wait := Function.update s.wait t (some (f w)) } := by
  obtain ⟨w, hw, hs'⟩ := Option.bind_eq_some_iff.mp h
  exact ⟨w, hw, (Option.some.inj hs').symm⟩

/-- The thread at the end of the vector is taken from it, and its wait ends. -/
theorem unlock_of_getLast?_some {mutex waiting : Addr}
    (hlast : (s.mutex mutex).waiting.getLast? = some waiting) (h : s.unlock mutex = some s') :
    ∃ w : Waiting, s' =
      { s with
        wait := Function.update s.wait waiting
          (some { w with object := none, data := 1, timeout := 0 })
        mutex := Function.update s.mutex mutex
          { s.mutex mutex with waiting := (s.mutex mutex).waiting.dropLast } } := by
  simp only [unlock, hlast] at h
  split at h
  · cases h
  · obtain ⟨s₁, hmodify, hs'⟩ := Option.bind_eq_some_iff.mp h
    obtain ⟨w, -, rfl⟩ := modifyWait_eq_some hmodify
    exact ⟨w, (Option.some.inj hs').symm⟩

theorem unlock_of_getLast?_none {mutex : Addr}
    (hlast : (s.mutex mutex).waiting.getLast? = none) (h : s.unlock mutex = some s') :
    s' = { s with mutex := Function.update s.mutex mutex { s.mutex mutex with locked := 0 } } := by
  simp only [unlock, hlast] at h
  split at h
  · cases h
  · exact (Option.some.inj h).symm

theorem notifyEach_frame {data : Nat} {threads : List Addr}
    (h : notifyEach data threads s = some s') :
    s'.now = s.now ∧ s'.mutex = s.mutex ∧ s'.condition = s.condition ∧
      ∀ x, x ∉ threads → s'.wait x = s.wait x := by
  induction threads generalizing s with
  | nil =>
    cases h
    simp
  | cons t threads ih =>
    obtain ⟨s₁, h₁, hrest⟩ := Option.bind_eq_some_iff.mp h
    obtain ⟨w, -, rfl⟩ := modifyWait_eq_some h₁
    obtain ⟨hnow, hmutex, hcondition, hwait⟩ := ih hrest
    refine ⟨hnow, hmutex, hcondition, fun x hx => ?_⟩
    rw [List.mem_cons, not_or] at hx
    exact (hwait x hx.2).trans (Function.update_of_ne hx.1 _ _)

end Frame

end Sync

end Helos
