import Helos.Smp.ThreadSpec
import Helos.Theory.Run

/-!
# Runs of the scheduler

A `Machine` is the scheduler with a history beside it: the threads that were started and have not
exited, the stacks they were given, the pages mapped for stacks, and the context each thread was
last stopped in. An event is one call of a function of the scheduler, of a mutex or of a condition
by the current thread, or a tick. `Sound` holds after any run from the state `smp_thread_Init`
leaves.
-/

namespace Helos

open Helos.Tree (Fresh)

structure Machine where
  sched : Scheduler
  live : List Addr
  /-- The initial `rsp` of the threads made by `smp_thread_Start`. -/
  stackTops : List (Addr × Nat)
  pages : List Nat
  context : Addr → ThreadState

inductive Event where
  | switch (regs : ThreadState) (new : Fresh Addr)
  | start (call : StartCall) (blocks : StartBlocks)
  | cleanup (pool : Fresh Unit) (byteAtZero : Bool)
  | nice (id newnice : Int)
  | sleep (ticks : Int)
  | tick
  | lock (mutex : Addr)
  | lockTimeout (mutex : Addr) (timeout : Nat)
  | tryLock (mutex : Addr)
  | unlock (mutex : Addr)
  | wait (condition : Addr)
  | notifyOne (condition : Addr) (data : Nat)
  | notifyAll (condition : Addr) (data : Nat)

namespace Machine

open Scheduler

def boot (block : Fresh Thread) (waitBlock : Waiting) (zero : Bool) (lastState : ThreadState)
    (bottom : Nat) : Option Machine := do
  let sched ← init block waitBlock zero lastState bottom
  some
    { sched, live := sched.current.toList, stackTops := [], pages := [], context := fun _ => lastState }

def setSync (m : Machine) (sync : Sync) : Machine := { m with sched := { m.sched with sync } }

/-- The interrupt handler stores the registers before it calls `__smp_Switch`. -/
def interrupted (m : Machine) (regs : ThreadState) : Scheduler := { m.sched with lastState := regs }

/-- The current thread is switched out with these registers. -/
def stopped (m : Machine) (regs : ThreadState) : Addr → ThreadState :=
  match m.sched.current with
  | none => m.context
  | some t => Function.update m.context t regs

/-- Blocks from `kMalloc` are not in use, and only threads made by `smp_thread_Start` run into
`__smp_thread_Cleanup`. -/
def step (image : Image) (m : Machine) : Event → Option Machine
  | .switch regs new =>
    if m.sched.threadsWaiting.node new.addr = none then do
      let (sched, ret) ← (m.interrupted regs).switch image new
      some { m with sched, context := if ret = 0 then m.context else m.stopped regs }
    else none
  | .start call blocks =>
    if m.sched.threads.node blocks.thread.addr = none ∧
        m.sched.threadsWaiting.node blocks.ready.addr = none then do
      let (sched, t, page) ← m.sched.start image call blocks
      let th ← sched.thread t
      some
        { sched
          live := t :: m.live
          stackTops := (t, th.state.rsp) :: m.stackTops
          pages := page.toList ++ m.pages
          context := Function.update m.context t th.state }
    else none
  | .cleanup pool zero => do
    let t ← m.sched.current
    if m.sched.stackPool.node pool.addr = none ∧ t ∈ m.stackTops.map Prod.fst then do
      let sched ← m.sched.cleanup pool zero
      some
        { m with
          sched
          live := m.live.erase t
          stackTops := m.stackTops.filter fun k => k.1 ≠ t }
    else none
  | .nice id newnice => do
    let (sched, _) ← m.sched.nice id newnice
    some { m with sched }
  | .sleep ticks => do
    let sched ← m.sched.sleep ticks
    some { m with sched }
  | .tick => some (m.setSync m.sched.sync.tick)
  | .lock mutex => do
    let t ← m.sched.current
    some (m.setSync (m.sched.sync.lock t mutex).1)
  | .lockTimeout mutex timeout => do
    let t ← m.sched.current
    some (m.setSync (m.sched.sync.lockTimeout t mutex timeout).1)
  | .tryLock mutex => some (m.setSync (m.sched.sync.tryLock mutex).1)
  | .unlock mutex => do
    let sync ← m.sched.sync.unlock mutex
    some (m.setSync sync)
  | .wait condition => do
    let t ← m.sched.current
    some (m.setSync (m.sched.sync.conditionWait t condition))
  | .notifyOne condition data => do
    let (sync, _) ← m.sched.sync.notifyOne condition data
    some (m.setSync sync)
  | .notifyAll condition data => do
    let (sync, _) ← m.sched.sync.notifyAll condition data
    some (m.setSync sync)

/-! ### What an event does -/

def IsQuiet : Event → Prop
  | .switch _ _ | .start _ _ | .cleanup _ _ => False
  | _ => True

structure QuietStep (m m' : Machine) (ts ts' : List (Entry Thread)) (ws : List (Entry Addr))
    (ps : List (Entry Unit)) : Prop where
  wellFormed : m'.sched.WellFormed ts' ws ps
  same : ∃ g : Entry Thread → Entry Thread, ts' = ts.map g ∧ ∀ e, (g e).node = e.node ∧
    (g e).data.state = e.data.state ∧ (g e).data.stackframe = e.data.stackframe
  current : m'.sched.current = m.sched.current
  kernelMappingBottom : m'.sched.kernelMappingBottom = m.sched.kernelMappingBottom
  live : m'.live = m.live
  stackTops : m'.stackTops = m.stackTops
  pages : m'.pages = m.pages
  context : m'.context = m.context

section Step

variable {image : Image} {m m' : Machine} {ts : List (Entry Thread)} {ws : List (Entry Addr)}
  {ps : List (Entry Unit)}

theorem quietStep_setSync (h : m.sched.WellFormed ts ws ps) (sync : Sync) :
    QuietStep m (m.setSync sync) ts ts ws ps := by
  refine ⟨⟨h.threads, h.waiting, h.pool, h.idallo, h.ids, h.keys, h.known, h.distinct⟩,
    ⟨id, (List.map_id ts).symm, fun _ => ⟨rfl, rfl, rfl⟩⟩, rfl, rfl, rfl, rfl, rfl, rfl⟩

theorem quietStep_modify {t : Addr} {f : Thread → Thread} {threads : Tree Thread}
    (h : Scheduler.WellFormed { m.sched with threads } (ts.map (Entry.modify t f)) ws ps)
    (hf : ∀ th, (f th).state = th.state ∧ (f th).stackframe = th.stackframe) :
    QuietStep m { m with sched := { m.sched with threads } } ts (ts.map (Entry.modify t f)) ws ps := by
  refine ⟨h, ⟨_, rfl, fun e => ⟨Entry.node_modify t f e, ?_, ?_⟩⟩, rfl, rfl, rfl, rfl, rfl, rfl⟩
  · exact Entry.data_modify_kept (g := Thread.state) (fun th => (hf th).1) t e
  · exact Entry.data_modify_kept (g := Thread.stackframe) (fun th => (hf th).2) t e

theorem step_quiet (h : m.sched.WellFormed ts ws ps) {event : Event}
    (hstep : m.step image event = some m') (hquiet : IsQuiet event) :
    ∃ ts', QuietStep m m' ts ts' ws ps := by
  cases event with
  | switch => exact hquiet.elim
  | start => exact hquiet.elim
  | cleanup => exact hquiet.elim
  | nice id newnice =>
    obtain ⟨⟨sched, old⟩, hrun, hm'⟩ := Option.bind_eq_some_iff.mp hstep
    obtain rfl := Option.some.inj hm'
    rcases h.nice hrun with rfl | ⟨t, nice, threads, rfl, hwf⟩
    · exact ⟨ts, quietStep_setSync h m.sched.sync⟩
    · exact ⟨_, quietStep_modify hwf fun _ => ⟨rfl, rfl⟩⟩
  | sleep ticks =>
    obtain ⟨sched, hrun, hm'⟩ := Option.bind_eq_some_iff.mp hstep
    obtain rfl := Option.some.inj hm'
    obtain ⟨t, sleepUntil, threads, -, rfl, hwf⟩ := h.sleep hrun
    exact ⟨_, quietStep_modify hwf fun _ => ⟨rfl, rfl⟩⟩
  | tick => exact ⟨ts, Option.some.inj hstep ▸ quietStep_setSync h _⟩
  | lock mutex =>
    obtain ⟨t, -, hm'⟩ := Option.bind_eq_some_iff.mp hstep
    exact ⟨ts, Option.some.inj hm' ▸ quietStep_setSync h _⟩
  | lockTimeout mutex timeout =>
    obtain ⟨t, -, hm'⟩ := Option.bind_eq_some_iff.mp hstep
    exact ⟨ts, Option.some.inj hm' ▸ quietStep_setSync h _⟩
  | tryLock mutex => exact ⟨ts, Option.some.inj hstep ▸ quietStep_setSync h _⟩
  | unlock mutex =>
    obtain ⟨sync, -, hm'⟩ := Option.bind_eq_some_iff.mp hstep
    exact ⟨ts, Option.some.inj hm' ▸ quietStep_setSync h _⟩
  | wait condition =>
    obtain ⟨t, -, hm'⟩ := Option.bind_eq_some_iff.mp hstep
    exact ⟨ts, Option.some.inj hm' ▸ quietStep_setSync h _⟩
  | notifyOne condition data =>
    obtain ⟨⟨sync, found⟩, -, hm'⟩ := Option.bind_eq_some_iff.mp hstep
    exact ⟨ts, Option.some.inj hm' ▸ quietStep_setSync h _⟩
  | notifyAll condition data =>
    obtain ⟨⟨sync, count⟩, -, hm'⟩ := Option.bind_eq_some_iff.mp hstep
    exact ⟨ts, Option.some.inj hm' ▸ quietStep_setSync h _⟩

theorem interrupted_wellFormed (h : m.sched.WellFormed ts ws ps) (regs : ThreadState) :
    (m.interrupted regs).WellFormed ts ws ps :=
  ⟨h.threads, h.waiting, h.pool, h.idallo, h.ids, h.keys, h.known, h.distinct⟩

/-- The history a context switch leaves. -/
structure SwitchStep (image : Image) (m m' : Machine) (regs : ThreadState)
    (ts : List (Entry Thread)) (ws : List (Entry Addr)) (p : Nat) : Prop where
  frame : SwitchFrame (m.interrupted regs) m'.sched
  outcome : (Kept (m.interrupted regs) m'.sched ws p ∧ m'.context = m.context) ∨
    ∃ ws', Switched image (m.interrupted regs) m'.sched ts ws ws' p ∧ m'.context = m.stopped regs
  live : m'.live = m.live
  stackTops : m'.stackTops = m.stackTops
  pages : m'.pages = m.pages

theorem step_switch (h : m.sched.WellFormed ts ws ps) {regs : ThreadState} {new : Fresh Addr}
    (hstep : m.step image (.switch regs new) = some m') :
    ∃ p, SwitchStep image m m' regs ts ws p := by
  simp only [step] at hstep
  split at hstep
  · next hnew =>
    obtain ⟨sched, ret, p, hrun, -, hframe, houtcome⟩ :=
      (interrupted_wellFormed h regs).switch image hnew
    simp only [hrun, Option.bind_eq_bind, Option.bind_some] at hstep
    obtain rfl := Option.some.inj hstep
    rcases houtcome with ⟨rfl, hkept⟩ | ⟨rfl, ws', hswitched⟩
    · exact ⟨p, hframe, .inl ⟨hkept, rfl⟩, rfl, rfl, rfl⟩
    · exact ⟨p, hframe, .inr ⟨ws', hswitched, rfl⟩, rfl, rfl, rfl⟩
  · cases hstep

/-- A start, and what it adds to the history. -/
structure StartStep (image : Image) (m m' : Machine) (call : StartCall) (blocks : StartBlocks)
    (page : Option Nat) (stack : Nat) (ts ts' : List (Entry Thread)) (ws ws' : List (Entry Addr))
    (ps ps' : List (Entry Unit)) : Prop where
  fresh : ∀ e ∈ ts, e.node ≠ blocks.thread.addr
  wellFormed : m'.sched.WellFormed ts' ws' ps'
  started : Started image m.sched m'.sched call blocks page stack ts ts' ws ws' ps ps'
  live : m'.live = blocks.thread.addr :: m.live
  stackTops : m'.stackTops = (blocks.thread.addr, stack) :: m.stackTops
  pages : m'.pages = page.toList ++ m.pages
  context : m'.context = Function.update m.context blocks.thread.addr
    (blocks.thread.data.start image call.entry call.args (call.nice % 2 ^ 32) (m.sched.idallo + 1)
      m.sched.sync.now stack).state

theorem step_start (h : m.sched.WellFormed ts ws ps) {call : StartCall} {blocks : StartBlocks}
    (hstep : m.step image (.start call blocks) = some m') :
    ∃ page stack ts' ws' ps', StartStep image m m' call blocks page stack ts ts' ws ws' ps ps' := by
  simp only [step] at hstep
  split at hstep
  · next hfresh =>
    obtain ⟨⟨sched, t, page⟩, hrun, hrest⟩ := Option.bind_eq_some_iff.mp hstep
    obtain ⟨th, hth, hm'⟩ := Option.bind_eq_some_iff.mp hrest
    obtain rfl := Option.some.inj hm'
    obtain ⟨rfl, ts', ws', ps', stack, hwf, hstarted⟩ := h.start image hfresh.1 hfresh.2 hrun
    have hthread := hwf.thread_eq (hstarted.threads.symm.subset List.mem_cons_self)
    obtain rfl := Option.some.inj (hthread.symm.trans hth)
    exact ⟨page, stack, ts', ws', ps', h.threads.not_mem_of_fresh hfresh.1, hwf, hstarted, rfl, rfl,
      rfl, rfl⟩
  · cases hstep

structure CleanupStep (m m' : Machine) (e : Entry Thread) (ts ts' : List (Entry Thread))
    (ws : List (Entry Addr)) (ps ps' : List (Entry Unit)) : Prop where
  running : m.sched.current = some e.node
  started : e.node ∈ m.stackTops.map Prod.fst
  threads : ts.Perm (e :: ts')
  wellFormed : m'.sched.WellFormed ts' ws ps'
  current : m'.sched.current = none
  kernelMappingBottom : m'.sched.kernelMappingBottom = m.sched.kernelMappingBottom
  pool : ∀ x ∈ ps', x.key = e.data.stackframe ∨ ∃ y ∈ ps, x.key = y.key
  live : m'.live = m.live.erase e.node
  stackTops : m'.stackTops = m.stackTops.filter fun k => k.1 ≠ e.node
  pages : m'.pages = m.pages
  context : m'.context = m.context

theorem step_cleanup (h : m.sched.WellFormed ts ws ps) {pool : Fresh Unit} {zero : Bool}
    (hstep : m.step image (.cleanup pool zero) = some m') :
    ∃ e ts' ps', CleanupStep m m' e ts ts' ws ps ps' := by
  obtain ⟨t, ht, hrest⟩ := Option.bind_eq_some_iff.mp hstep
  split at hrest
  · next hcall =>
    obtain ⟨sched, hrun, hm'⟩ := Option.bind_eq_some_iff.mp hrest
    obtain rfl := Option.some.inj hm'
    obtain ⟨e, ts', ps', hcurrent, hperm, hwf, hnone, hbottom, hpool⟩ := h.cleanup hcall.1 hrun
    obtain rfl := Option.some.inj (ht.symm.trans hcurrent)
    exact ⟨e, ts', ps', hcurrent, hcall.2, hperm, hwf, hnone, hbottom, hpool, rfl, rfl, rfl, rfl⟩
  · cases hrest

end Step

end Machine

end Helos
