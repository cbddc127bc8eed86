import Helos.Memory.KernelMapping
import Helos.Smp.Sync

/-!
# Threads

The data of `smp/internal.c` and the functions of `smp/kthread.c`. A thread is the object of a node
of `__smp_Threads`, and a pointer to it is the address of that node; its field `wait` is kept in
`Sync`. The functions take the blocks `kMalloc` returns, with what is in them, as arguments.

`smp_thread_Sleep` ends before its yield and `__smp_thread_Cleanup` before its own; the interrupt a
yield raises is a step of its own.
-/

namespace Helos

open Helos.Tree (Fresh)

/-- Addresses the linker fixes: `__smp_thread_EntryPoint` and `__smp_Switch_Idle`. -/
structure Image where
  entryPoint : Nat
  switchIdle : Nat

def gdtDataSelector : Nat := 0x08

def gdtExecSelector : Nat := 0x10

def gdtExecRing3Selector : Nat := 0x23

def nicenessDefault : Nat := 80

structure ThreadState where
  (rax rbx rcx rdx : Nat)
  (rsi rdi rbp rsp : Nat)
  (r8 r9 r10 r11 : Nat)
  (r12 r13 r14 r15 : Nat)
  (rflags rip ss cs : Nat)

structure Arguments where
  (a b c d e f : Nat)

structure Thread where
  id : Nat
  nice : Nat
  lastTick : Nat
  sleepUntil : Nat
  state : ThreadState
  stackframe : Nat

structure Scheduler where
  sync : Sync
  current : Ptr
  idallo : Nat
  threads : Tree Thread
  threadsWaiting : Tree Addr
  stackPool : Tree Unit
  prevTime : Nat
  tickIdling : Nat
  tickUserspace : Nat
  tickKernel : Nat
  lastState : ThreadState
  kernelMappingBottom : Nat

namespace Scheduler

def thread (s : Scheduler) (t : Addr) : Option Thread := (s.threads.node t).map TreeNode.data

/-- An assignment to fields of `*t`. -/
def modifyThread (s : Scheduler) (t : Addr) (f : Thread → Thread) : Option Scheduler := do
  let threads ← s.threads.modifyData t f
  some { s with threads }

/-! ### `smp_thread_Init` -/

/-- `waitBlock` is what the wait record holds, and `bottom` is `memory_KernelMappingBottom`. -/
def init (block : Fresh Thread) (waitBlock : Waiting) (byteAtZero : Bool) (lastState : ThreadState)
    (bottom : Nat) : Option Scheduler := do
  let id := 1
  let (threads, t, _) ← Tree.create.insertNode id (.null byteAtZero) block
  let threads ← threads.modifyData t fun th =>
    { th with nice := nicenessDefault, id := id, lastTick := 1, sleepUntil := 0 }
  some
    { sync :=
        { now := 1
          wait := Function.update (fun _ => none) t (some waitBlock)
          mutex := fun _ => ⟨0, []⟩
          condition := fun _ => ⟨[]⟩ }
      current := some t
      idallo := id
      threads
      threadsWaiting := Tree.create
      stackPool := Tree.create
      prevTime := 0
      tickIdling := 0
      tickUserspace := 0
      tickKernel := 0
      lastState
      kernelMappingBottom := bottom }

/-! ### `smp_thread_Start` -/

/-- The stack of a new thread: its top, and the page that `paging_map_PageAllocated` maps for it. -/
def takeStack (s : Scheduler) : Option (Scheduler × Nat × Option Nat) := do
  match ← s.stackPool.firstNode with
  | some spare => do
    let n ← s.stackPool.node spare
    let stackPool ← s.stackPool.delete spare
    some ({ s with stackPool }, wrap64 (n.key + 4096), none)
  | none =>
    let newstack := allocateKernelMapping s.kernelMappingBottom 4096 4096
    some ({ s with kernelMappingBottom := newstack }, wrap64 (newstack + 4096), some newstack)

end Scheduler

def ThreadState.arguments (state : ThreadState) : Option Arguments → ThreadState
  | none => state
  | some args =>
    { state with
      rdi := args.a, rsi := args.b, rdx := args.c, rcx := args.d, r8 := args.e, r9 := args.f }

/-- The assignments of `smp_thread_Start` to the new thread, which had `th` in its block. -/
def Thread.start (image : Image) (entry : Nat) (args : Option Arguments) (nice id now stack : Nat)
    (th : Thread) : Thread :=
  let state :=
    { th.state with
      cs := gdtExecSelector, ss := gdtDataSelector, rip := image.entryPoint, rax := entry }
  { nice
    id
    lastTick := now
    sleepUntil := 0
    state := { state.arguments args with rsp := stack }
    stackframe := stack }

/-- What `smp_thread_Start` is called with. -/
structure StartCall where
  entry : Nat
  args : Option Arguments
  nice : Nat

/-- What `smp_thread_Start` gets from `kMalloc` and reads at address 0. -/
structure StartBlocks where
  thread : Fresh Thread
  wait : Waiting
  ready : Fresh Addr
  byteAtZero : Bool
  byteAtZero' : Bool

namespace Scheduler

/-- It returns the new thread, and the page it has mapped for a stack. Counting the identifiers past
`INT_MAX` is undefined. -/
def start (image : Image) (s : Scheduler) (call : StartCall) (blocks : StartBlocks) :
    Option (Scheduler × Addr × Option Nat) := do
  let id := s.idallo + 1
  if id < 2 ^ 31 then do
    let (threads, t, _) ← s.threads.insertNode id (.null blocks.byteAtZero) blocks.thread
    let s := { s with idallo := id, threads }
    let (s, stack, page) ← s.takeStack
    let nice := call.nice % 2 ^ 32
    let s ← s.modifyThread t (Thread.start image call.entry call.args nice id s.sync.now stack)
    let s := { s with
      sync := { s.sync with wait := Function.update s.sync.wait t (some blocks.wait) } }
    let th ← s.thread t
    -- `tree_Insert` returns the object of an existing node when the key is in use
    let (threadsWaiting, node, _) ←
      s.threadsWaiting.insertNode (wrap64 (th.lastTick + th.nice)) (.null blocks.byteAtZero')
        blocks.ready
    let threadsWaiting ← threadsWaiting.modifyData node fun _ => t
    some ({ s with threadsWaiting }, t, page)
  else none

/-! ### `__smp_thread_Cleanup` -/

/-- `stackframe` is read from the block of the thread after `tree_Delete` has freed it. -/
def cleanup (s : Scheduler) (pool : Fresh Unit) (byteAtZero : Bool) : Option Scheduler := do
  let t ← s.current
  let th ← s.thread t
  let node ← (← s.threads.findNode th.id)
  let threads ← s.threads.delete node
  let (stackPool, _, _) ← s.stackPool.insertNode th.stackframe (.null byteAtZero) pool
  some
    { s with
      sync := { s.sync with wait := Function.update s.sync.wait t none }
      current := none
      threads
      stackPool }

/-! ### `smp_thread_Nice` and `smp_thread_Sleep` -/

/-- An `int` as a key of `__smp_Threads`. -/
def idKey (id : Int) : Nat := (id % 2 ^ 64).toNat

def nice (s : Scheduler) (id newnice : Int) : Option (Scheduler × Int) := do
  match ← s.threads.findNode (idKey id) with
  | none => some (s, -1)
  | some t => do
    let th ← s.thread t
    if newnice < 0 then some (s, toInt th.nice)
    else do
      let s ← s.modifyThread t fun th => { th with nice := newnice.toNat % 2 ^ 32 }
      some (s, toInt th.nice)

def sleep (s : Scheduler) (ticks : Int) : Option Scheduler := do
  let t ← s.current
  s.modifyThread t fun th =>
    { th with sleepUntil := ((s.sync.now + ticks) % 2 ^ 64).toNat }

end Scheduler

end Helos
