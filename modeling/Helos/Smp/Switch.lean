import Helos.Smp.Thread

/-!
# The context switch

`__smp_Switch` of `smp/kthread_switch.c`. The interrupt handler has stored the registers of the
interrupted context in `__smp_IntSwitch_LastState` before the call and loads them from there after.
-/

namespace Helos.Scheduler

open Helos.Tree (Fresh)

/-- The time since the previous call goes to the metrics. -/
def countTicks (s : Scheduler) : Option Scheduler :=
  let deltaTick := wrap64 (s.sync.now + (2 ^ 64 - s.prevTime))
  let s' := { s with prevTime := s.sync.now }
  match s.current with
  | none => some { s' with tickIdling := wrap64 (s.tickIdling + deltaTick) }
  | some t => do
    let th ← s.thread t
    if th.state.cs = gdtExecRing3Selector then
      some { s' with tickUserspace := wrap64 (s.tickUserspace + deltaTick) }
    else some { s' with tickKernel := wrap64 (s.tickKernel + deltaTick) }

/-- The new priority of the current thread. -/
def priority (s : Scheduler) : Option Nat :=
  match s.current with
  | none => some (2 ^ 64 - 1)
  | some t => do
    let th ← s.thread t
    some (wrap64 (th.nice + if th.lastTick > s.sync.now then th.lastTick else s.sync.now))

def ready (s : Scheduler) (t : Addr) : Option Bool := do
  let th ← s.thread t
  some (decide (th.sleepUntil ≤ s.sync.now) && !s.sync.isWaiting t)

/-- `NODE_POINTER` -/
def nodePointer (s : Scheduler) (node : Addr) : Option Addr :=
  (s.threadsWaiting.node node).map TreeNode.data

def firstReady (s : Scheduler) : Nat → Ptr → Option Ptr
  | 0, _ => none
  | _ + 1, none => some none
  | fuel + 1, some first => do
    if ← s.ready (← s.nodePointer first) then some (some first)
    else s.firstReady fuel (← s.threadsWaiting.nodeNext first)

/-- Whether the current thread is still the first. -/
def keepsCurrent (s : Scheduler) (first : Ptr) (priority : Nat) : Option Bool :=
  match first with
  | none => some false
  | some first => do
    let ready ← s.ready (← s.nodePointer first)
    let n ← s.threadsWaiting.node first
    some (ready && decide (n.key > priority))

/-- `while (!ok) node = tree_InsertNode(__smp_ThreadsWaiting, priority++, &ok);` -/
def insertFree (new : Fresh Addr) : Nat → Tree Addr → Nat → Option (Tree Addr × Addr)
  | 0, _, _ => none
  | fuel + 1, tree, priority => do
    let (tree, node, ok) ← tree.insertNode priority .pointer new
    if ok then some (tree, node) else insertFree new fuel tree (wrap64 (priority + 1))

def saveCurrent (s : Scheduler) (priority : Nat) (new : Fresh Addr) : Option Scheduler :=
  match s.current with
  | none => some s
  | some t => do
    let s ← s.modifyThread t fun th => { th with lastTick := s.sync.now, state := s.lastState }
    let (threadsWaiting, node) ← insertFree new s.threadsWaiting.fuel s.threadsWaiting priority
    let threadsWaiting ← threadsWaiting.modifyData node fun _ => t
    some { s with threadsWaiting }

def loadFirst (image : Image) (s : Scheduler) (first : Ptr) : Option Scheduler :=
  match first with
  | none =>
    let rflags := s.lastState.rflags ||| 1 <<< 9
    some
      { s with
        lastState := { s.lastState with rip := image.switchIdle, rflags }
        current := none }
  | some first => do
    let t ← s.nodePointer first
    let th ← s.thread t
    let threadsWaiting ← s.threadsWaiting.delete first
    some { s with lastState := th.state, current := some t, threadsWaiting }

/-- `__smp_Switch`, with the value it returns. -/
def switch (image : Image) (s : Scheduler) (new : Fresh Addr) : Option (Scheduler × Nat) := do
  let s ← s.countTicks
  let priority ← s.priority
  let first ← s.firstReady s.threadsWaiting.fuel (← s.threadsWaiting.firstNode)
  if ← s.keepsCurrent first priority then some (s, 0)
  else do
    let s ← s.saveCurrent priority new
    let s ← s.loadFirst image first
    some (s, 1)

end Helos.Scheduler
