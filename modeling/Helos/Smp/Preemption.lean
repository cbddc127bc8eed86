import Helos.Smp.Bypass
import Helos.Smp.ContextSwitch

/-!
# Preemption

The scheduler under the assembly that calls it. Threads compute, yield and are interrupted by the clock
at any instruction. Every interrupt is a tick, a context switch or both to the scheduler, and a thread
goes on just where it was interrupted, whatever runs in between. A yield that is preempted in front of
its own interrupt makes up for the tick it took.
-/

namespace Helos

open Assembly
open Helos.Tree (Fresh)

/-- A context as it is stored in its fields. -/
def ThreadState.wrap (s : ThreadState) : ThreadState where
  rax := wrap64 s.rax
  rbx := wrap64 s.rbx
  rcx := wrap64 s.rcx
  rdx := wrap64 s.rdx
  rsi := wrap64 s.rsi
  rdi := wrap64 s.rdi
  rbp := wrap64 s.rbp
  rsp := wrap64 s.rsp
  r8 := wrap64 s.r8
  r9 := wrap64 s.r9
  r10 := wrap64 s.r10
  r11 := wrap64 s.r11
  r12 := wrap64 s.r12
  r13 := wrap64 s.r13
  r14 := wrap64 s.r14
  r15 := wrap64 s.r15
  rflags := wrap64 s.rflags
  rip := wrap64 s.rip
  ss := s.ss % 2 ^ 16
  cs := s.cs % 2 ^ 16

namespace Machine

open Scheduler

/-! ### Where a thread stands -/

section Standing

variable {image : Image} {m m' : Machine} {regs : ThreadState} {t : Addr}

/-- The context of a thread when these are the registers. -/
def standing (m : Machine) (regs : ThreadState) (t : Addr) : ThreadState :=
  if m.sched.current = some t then regs else (m.context t).wrap

theorem standing_current (h : m.sched.current = some t) : m.standing regs t = regs := if_pos h

theorem standing_other (h : m.sched.current ≠ some t) : m.standing regs t = (m.context t).wrap := if_neg h

theorem Reachable.exec {events : List Event} (h : Reachable image m)
    (hrun : Run.exec (step image) m events = some m') : Reachable image m' := by
  obtain ⟨block, waitBlock, zero, lastState, bottom, before, m₀, hboot, hbefore⟩ := h
  refine ⟨block, waitBlock, zero, lastState, bottom, before ++ events, m₀, hboot, ?_⟩
  rw [Run.exec_append, hbefore, Option.bind_some, hrun]

theorem Sound.mem_live {ts : List (Entry Thread)} {ws : List (Entry Addr)} {ps : List (Entry Unit)}
    (h : Sound m ts ws ps) (ht : m.sched.current = some t) : t ∈ m.live := by
  have hplaced : t ∈ m.sched.placed ws := List.mem_append_left _ (by simp [ht])
  exact h.live.symm.subset (h.wellFormed.known t hplaced)

theorem Sound.nodup_live {ts : List (Entry Thread)} {ws : List (Entry Addr)} {ps : List (Entry Unit)}
    (h : Sound m ts ws ps) : m.live.Nodup :=
  h.live.nodup_iff.mpr h.wellFormed.threads.represents.nodup

/-- A context switch is defined, and it is only with the idle loop that no thread is installed. -/
theorem Sound.switch_standing {ts : List (Entry Thread)} {ws : List (Entry Addr)} {ps : List (Entry Unit)}
    (image : Image) (h : Sound m ts ws ps) {new : Fresh Addr} (hregs : regs.wrap = regs)
    (hnew : m.sched.threadsWaiting.node new.addr = none) :
    ∃ m', m.step image (.switch regs new) = some m' ∧ m'.live = m.live ∧
      (∀ t, m'.standing m'.sched.lastState.wrap t = m.standing regs t) ∧
      (m'.sched.current = none → m'.sched.lastState.rip = image.switchIdle) := by
  have hwf := interrupted_wellFormed h.wellFormed regs
  obtain ⟨s', ret, p, hrun, hp, hframe, houtcome⟩ := hwf.switch image hnew
  refine ⟨{ m with sched := s', context := if ret = 0 then m.context else m.stopped regs }, ?_, rfl, ?_, ?_⟩
  · simp [Machine.step, hnew, hrun]
  · intro t
    rcases houtcome with ⟨rfl, hk⟩ | ⟨rfl, ws', hs⟩
    · have hcurrent : s'.current = m.sched.current := hk.current
      have hlast : s'.lastState = regs := hk.lastState
      change (if s'.current = some t then s'.lastState.wrap else (if 0 = 0 then m.context else m.stopped regs) t |>.wrap) = _
      rw [hcurrent, hlast, hregs, if_pos rfl]
      rfl
    · simp only [standing, Nat.one_ne_zero, if_false]
      by_cases hinstalled : s'.current = some t
      · obtain ⟨e, he, rfl⟩ := Option.map_eq_some_iff.mp (hs.current.symm.trans hinstalled)
        obtain ⟨hmem, -⟩ := hwf.firstEntry_mem he
        obtain ⟨x, hx, hnode, hthread⟩ := hwf.exists_thread (hwf.mem_placed hmem)
        have hqueued : x.node ∈ ws.map Entry.data := hnode ▸ List.mem_map_of_mem hmem
        have hother : m.sched.current ≠ some e.data := hwf.ne_current hmem
        rw [if_pos hinstalled, if_neg hother, hs.loaded e x.data he hthread, ← hnode, h.context x hx hqueued]
      · rw [if_neg hinstalled]
        cases hcurrent : m.sched.current with
        | none =>
          rw [stopped_none hcurrent, if_neg (by simp)]
        | some t' =>
          rw [stopped_some hcurrent]
          by_cases htt : t' = t
          · rw [htt, Function.update_self, if_pos rfl, hregs]
          · rw [Function.update_of_ne (Ne.symm htt), if_neg fun hsome => htt (Option.some.inj hsome)]
  · intro hidle
    rcases houtcome with ⟨-, hk⟩ | ⟨-, ws', hs⟩
    · -- with no current thread the priority is the greatest key
      obtain ⟨e, he, hlt⟩ := hk.behind
      have hcurrent : (m.interrupted regs).current = none := hk.current ▸ hidle
      simp only [priority, hcurrent, Option.some.injEq] at hp
      have hkey := hwf.keys e (hwf.firstEntry_mem he).1
      omega
    · have hnone : (m.interrupted regs).firstEntry ws = none :=
        Option.map_eq_none_iff.mp (hs.current.symm.trans hidle)
      rw [hs.idle hnone]
      rfl

/-! ### Threads in front of an instruction -/

/-- The threads that are not running and go on at `y`. -/
def stoppedAt (m : Machine) (y : Nat) : Nat :=
  m.live.countP fun t => decide (m.sched.current ≠ some t ∧ (m.context t).wrap.rip = y)

theorem Sound.countP_standing {ts : List (Entry Thread)} {ws : List (Entry Addr)} {ps : List (Entry Unit)}
    (h : Sound m ts ws ps) (regs : ThreadState) (y : Nat) :
    m.live.countP (fun t => decide ((m.standing regs t).rip = y)) =
      m.stoppedAt y + if m.sched.current ≠ none ∧ regs.rip = y then 1 else 0 := by
  unfold stoppedAt
  cases hcurrent : m.sched.current with
  | none =>
    rw [if_neg fun hne => hne.1 rfl, Nat.add_zero]
    refine List.countP_congr fun t _ => ?_
    simp [standing, hcurrent]
  | some t =>
    have hperm := List.perm_cons_erase (h.mem_live hcurrent)
    have hrest : ∀ u ∈ m.live.erase t, t ≠ u := fun u hu htu =>
      h.nodup_live.not_mem_erase (htu ▸ hu)
    have herased : (m.live.erase t).countP (fun u => decide ((m.standing regs u).rip = y)) =
        (m.live.erase t).countP fun u => decide (some t ≠ some u ∧ (m.context u).wrap.rip = y) := by
      refine List.countP_congr fun u hu => ?_
      simp [standing, hcurrent, hrest u hu]
    rw [hperm.countP_eq, hperm.countP_eq, List.countP_cons, List.countP_cons, herased]
    simp [standing, hcurrent]

theorem now_boot {block : Fresh Thread} {waitBlock : Waiting} {zero : Bool} {lastState : ThreadState}
    {bottom : Nat} (h : boot block waitBlock zero lastState bottom = some m) : m.sched.sync.now = 1 := by
  obtain ⟨sched, hinit, hm⟩ := Option.bind_eq_some_iff.mp h
  obtain ⟨⟨threads, t, isNew⟩, -, hrest⟩ := Option.bind_eq_some_iff.mp hinit
  obtain ⟨threads', -, hsched⟩ := Option.bind_eq_some_iff.mp hrest
  rw [← Option.some.inj hm, ← Option.some.inj hsched]

theorem now_switch {ts : List (Entry Thread)} {ws : List (Entry Addr)} {ps : List (Entry Unit)}
    (h : m.sched.WellFormed ts ws ps) {new : Fresh Addr} (hstep : m.step image (.switch regs new) = some m') :
    m'.sched.sync.now = m.sched.sync.now :=
  (now_step h hstep).resolve_right fun htick => Event.noConfusion htick.1

/-- A switch leaves every thread where it was. Registers that belong to no thread are dropped. -/
theorem Sound.switch_stoppedAt {ts : List (Entry Thread)} {ws : List (Entry Addr)} {ps : List (Entry Unit)}
    (h : Sound m ts ws ps) {new : Fresh Addr} (hregs : regs.wrap = regs) {y : Nat}
    (hidle : wrap64 image.switchIdle ≠ y) (hstep : m.step image (.switch regs new) = some m')
    (hnew : m.sched.threadsWaiting.node new.addr = none) :
    m'.stoppedAt y + (if m'.sched.lastState.wrap.rip = y then 1 else 0) +
        (if m.sched.current = none ∧ regs.rip = y then 1 else 0) =
      m.stoppedAt y + if regs.rip = y then 1 else 0 := by
  obtain ⟨m₁, hstep₁, hlive, hstanding, hnone⟩ := h.switch_standing image hregs hnew
  obtain rfl := Option.some.inj (hstep₁.symm.trans hstep)
  obtain ⟨ts', ws', ps', h'⟩ := h.step hstep
  have hbefore := h.countP_standing regs y
  have hafter := h'.countP_standing m₁.sched.lastState.wrap y
  simp only [hlive, hstanding] at hafter
  rw [hbefore] at hafter
  have hlast : m₁.sched.current = none → m₁.sched.lastState.wrap.rip ≠ y := fun hcurrent => by
    change wrap64 m₁.sched.lastState.rip ≠ y
    rw [hnone hcurrent]
    exact hidle
  by_cases hc : m.sched.current = none <;> by_cases hr : regs.rip = y <;>
    by_cases hc' : m₁.sched.current = none <;> by_cases hr' : m₁.sched.lastState.wrap.rip = y <;>
    simp [hc, hr, hc', hr'] at hafter hlast ⊢ <;> omega

/-- The calls of a thread: a tick and a switch are left to the interrupt. -/
def IsCall : Event → Prop
  | .switch _ _ | .tick => False
  | _ => True

/-- What a call of the current thread leaves of the threads. -/
structure CallStep (image : Image) (m m' : Machine) : Prop where
  now : m'.sched.sync.now = m.sched.sync.now
  others : ∀ t ∈ m.live, m.sched.current ≠ some t →
    t ∈ m'.live ∧ m'.sched.current ≠ some t ∧ m'.context t = m.context t
  stoppedAt : ∀ y, wrap64 image.entryPoint ≠ y → m'.stoppedAt y = m.stoppedAt y

theorem Sound.call {ts : List (Entry Thread)} {ws : List (Entry Addr)} {ps : List (Entry Unit)}
    (h : Sound m ts ws ps) {event : Event} (hcall : IsCall event) (hstep : m.step image event = some m') :
    CallStep image m m' := by
  have hnow : m'.sched.sync.now = m.sched.sync.now := by
    rcases now_step h.wellFormed hstep with hnow | ⟨rfl, -⟩
    · exact hnow
    · exact hcall.elim
  cases event with
  | switch => exact hcall.elim
  | tick => exact hcall.elim
  | start call blocks =>
    obtain ⟨page, stack, ts', ws', ps', hstart⟩ := step_start h.wellFormed hstep
    have hcurrent := hstart.started.current
    have hfresh : blocks.thread.addr ∉ m.live := fun hmem => by
      obtain ⟨e, he, hnode⟩ := List.mem_map.mp (h.live.subset hmem)
      exact hstart.fresh e he hnode
    have hcontext : ∀ t ∈ m.live, m'.context t = m.context t := fun t ht => by
      have hne : t ≠ blocks.thread.addr := fun heq => hfresh (heq ▸ ht)
      rw [hstart.context, Function.update_of_ne hne]
    refine ⟨hnow, fun t ht hne => ?_, fun y hy => ?_⟩
    · rw [hstart.live, hcurrent]
      exact ⟨List.mem_cons_of_mem _ ht, hne, hcontext t ht⟩
    · have hnew : (m'.context blocks.thread.addr).wrap.rip ≠ y := by
        rw [hstart.context, Function.update_self]
        cases call.args <;> exact hy
      rw [stoppedAt, hstart.live, List.countP_cons, if_neg (by simp [hnew]), Nat.add_zero, hcurrent]
      exact List.countP_congr fun t ht => by rw [hcontext t ht]
  | cleanup pool zero =>
    obtain ⟨e, ts', ps', hcleanup⟩ := step_cleanup h.wellFormed hstep
    have hother : ∀ t ∈ m.live.erase e.node, e.node ≠ t := fun t ht heq =>
      h.nodup_live.not_mem_erase (heq ▸ ht)
    refine ⟨hnow, fun t ht hne => ?_, fun y _ => ?_⟩
    · rw [hcleanup.live, hcleanup.current, hcleanup.context]
      have hte : t ≠ e.node := fun heq => hne (heq ▸ hcleanup.running)
      exact ⟨(List.mem_erase_of_ne hte).mpr ht, nofun, rfl⟩
    · have hperm := List.perm_cons_erase (h.mem_live hcleanup.running)
      rw [stoppedAt, stoppedAt, hperm.countP_eq, List.countP_cons, hcleanup.live, hcleanup.current,
        hcleanup.context, hcleanup.running]
      rw [if_neg (by simp), Nat.add_zero]
      refine List.countP_congr fun t ht => ?_
      simp [hother t ht]
  | _ =>
    obtain ⟨ts', hquiet⟩ := step_quiet h.wellFormed hstep trivial
    refine ⟨hnow, fun t ht hne => ?_, fun y _ => ?_⟩
    · rw [hquiet.live, hquiet.current, hquiet.context]
      exact ⟨ht, hne, rfl⟩
    · rw [Machine.stoppedAt, Machine.stoppedAt, hquiet.live, hquiet.current, hquiet.context]

end Standing

end Machine

namespace IntSwitch

/-! ### The kernel -/

/-- The state of the functions in C: the scheduler, and the block `kMalloc` gives next. -/
structure Foreign where
  machine : Machine
  block : Fresh Addr

/-- The scheduler with its clock, which the assembly advances. -/
def machine (sym : Symbols) (cpu : Cpu Foreign) : Machine :=
  cpu.foreign.machine.setSync { cpu.foreign.machine.sched.sync with now := ticks sym cpu.memory }

/-- `__smp_Switch` returns to the assembly. -/
structure SwitchReturned (sym : Symbols) (m m' : Cpu Foreign) (machine' : Machine) : Prop where
  rsp : m'.reg .rsp = m.reg .rsp
  machine : m'.foreign.machine = machine'
  lastState : stored m'.memory sym.lastState = machine'.sched.lastState.wrap
  fields : ∀ f ∈ sym.fields.tail, ∀ i ∈ f.cells, m'.memory i = m.memory i

/-- A kernel that is linked with its functions in C. The places of a yield are apart, and neither a new
thread nor the idle loop starts in the middle of one. -/
structure Compiled (image : Image) extends Link Foreign where
  switch : ∀ m machine', (machine toLink.sym m).step image
      (.switch (stored m.memory toLink.sym.lastState) m.foreign.block) = some machine' →
    ∃ m', toLink.foreign .smp_Switch m = some m' ∧ SwitchReturned toLink.sym m m' machine'
  yield_ne : toLink.entry .yield ≠ toLink.addressOf [.int 0x28, .ret]
  ret_ne : toLink.addressOf [.ret] ≠ toLink.addressOf [.int 0x28, .ret]
  ret_ne_yield : toLink.addressOf [.ret] ≠ toLink.entry .yield
  entryPoint_ne : wrap64 image.entryPoint ≠ (toLink.addressOf [.int 0x28, .ret]).toNat
  switchIdle_ne : wrap64 image.switchIdle ≠ (toLink.addressOf [.int 0x28, .ret]).toNat
  switchIdle_ne_yield : wrap64 image.switchIdle ≠ (toLink.entry .yield).toNat

/-- `timers` counts the interrupts of the clock. -/
structure Kernel where
  cpu : Cpu Foreign
  rip : Qword
  timers : Nat

section Kernel

variable {image : Image} (link : Compiled image)

/-- In front of the interrupt of `smp_thread_Yield`. -/
def Compiled.yieldInt : Qword := link.addressOf [.int 0x28, .ret]

/-- The handler of the clock's line is entered, and returns. -/
def Interrupt (cpu : Cpu Foreign) (rip : Qword) (cpu' : Cpu Foreign) (rip' : Qword) : Prop :=
  ∃ s, deliver link.env cpu rip 0x28 = some s ∧ Runs link.env s (cpu', .returned rip')

/-- The processor can be interrupted: there is room on the stack, and `kMalloc` does not give out a block
that is in use. -/
structure Ready (cpu : Cpu Foreign) : Prop where
  stack : StackApart link.sym cpu
  fresh : (machine link.sym cpu).sched.threadsWaiting.node cpu.foreign.block.addr = none

/-- Instructions of a thread, or of a handler of another interrupt, with at most one call. When there is no
current thread, only one that has exited comes to a yield, and `__smp_thread_EntryPoint` has turned its
interrupts off. -/
structure Computes (cpu cpu' : Cpu Foreign) (rip' : Qword) : Prop where
  scheduler : machine link.sym cpu' = machine link.sym cpu ∨
    ∃ event, Machine.IsCall event ∧ (machine link.sym cpu).step image event = some (machine link.sym cpu')
  fields : ∀ f ∈ link.sym.fields, ∀ i ∈ f.cells, cpu'.memory i = cpu.memory i
  exits : (IntSwitch.machine link.sym cpu').sched.current = none → rip' = link.entry .yield → cpu'.interrupts = false

inductive Move where
  | compute
  | pause
  | yield
  | timer

inductive Step : Move → Kernel → Kernel → Prop where
  | compute {k : Kernel} {cpu' : Cpu Foreign} {rip' : Qword} (hcomputes : Computes link k.cpu cpu' rip')
      (hfrom : k.rip ≠ link.yieldInt) (hto : rip' ≠ link.yieldInt) :
      Step .compute k { k with cpu := cpu', rip := rip' }
  | pause {k : Kernel} (hat : k.rip = link.entry .yield) :
      Step .pause k
        { k with
          cpu := Op.effect link.env k.cpu (.storeImm .byte (absolute link.sym.pauseTicker) 1)
          rip := link.yieldInt }
  | yield {k : Kernel} {cpu' : Cpu Foreign} {rip' : Qword} (hat : k.rip = link.yieldInt)
      (hready : Ready link k.cpu) (hint : Interrupt link k.cpu (link.addressOf [.ret]) cpu' rip') :
      Step .yield k { k with cpu := cpu', rip := rip' }
  | timer {k : Kernel} {cpu' : Cpu Foreign} {rip' : Qword} (henabled : k.cpu.interrupts = true)
      (hready : Ready link k.cpu) (hint : Interrupt link k.cpu k.rip cpu' rip') :
      Step .timer k ⟨cpu', rip', k.timers + 1⟩

/-- What `smp_thread_Init` leaves, with the clock set up. -/
structure Initial (k : Kernel) : Prop where
  boot : ∃ block waitBlock zero lastState bottom,
    Machine.boot block waitBlock zero lastState bottom = some (machine link.sym k.cpu)
  wired : Wired link.toLink k.cpu.memory
  paused : paused link.sym k.cpu.memory = 0
  rip : k.rip ≠ link.yieldInt
  timers : k.timers = 0

def Reachable (k : Kernel) : Prop :=
  ∃ k₀, Initial link k₀ ∧ Relation.ReflTransGen (fun k k' => ∃ move, Step link move k k') k₀ k

end Kernel

/-! ### Interrupts, as the scheduler sees them -/

section Interrupts

variable {image : Image} {link : Compiled image} {cpu cpu' : Cpu Foreign} {rip rip' : Qword}

instance (sym : Symbols) (m : Cpu Foreign) : Decidable (Switches sym m) :=
  inferInstanceAs (Decidable (_ ∨ _))

/-- What an interrupt is to the scheduler. -/
def events (sym : Symbols) (cpu : Cpu Foreign) (rip : Qword) : List Event :=
  (if paused sym cpu.memory = 0 then [.tick] else []) ++
    if Switches sym cpu then [.switch (context cpu rip) cpu.foreign.block] else []

/-- The interrupt at this place has been handled. -/
structure Handled (link : Compiled image) (cpu : Cpu Foreign) (rip : Qword) (cpu' : Cpu Foreign)
    (rip' : Qword) : Prop where
  run : Run.exec (Machine.step image) (machine link.sym cpu) (events link.sym cpu rip) =
    some (machine link.sym cpu')
  resumed : context cpu' rip' =
    if Switches link.sym cpu then (machine link.sym cpu').sched.lastState.wrap else context cpu rip
  wired : Wired link.toLink cpu'.memory
  paused : paused link.sym cpu'.memory = 0
  ticks : ticks link.sym cpu'.memory = nextTicks link.sym cpu

theorem machine_now (sym : Symbols) (cpu : Cpu Foreign) :
    (machine sym cpu).sched.sync.now = ticks sym cpu.memory := rfl

/-- The same functions in C with the same clock. -/
theorem machine_congr {sym : Symbols} (hforeign : cpu'.foreign = cpu.foreign)
    (hticks : ticks sym cpu'.memory = ticks sym cpu.memory) : machine sym cpu' = machine sym cpu := by
  rw [machine, machine, hforeign, hticks]

/-- The clock is advanced as a tick has it. -/
theorem machine_tick {sym : Symbols} (hforeign : cpu'.foreign = cpu.foreign)
    (hticks : ticks sym cpu'.memory = (ticks sym cpu.memory + 1) % 2 ^ 64) :
    (machine sym cpu).setSync (machine sym cpu).sched.sync.tick = machine sym cpu' := by
  simp only [machine, Machine.setSync, Sync.tick, hforeign, hticks, wrap64]

/-- The fields of the handlers keep their cells through an interrupt up to the call of the scheduler. -/
theorem SameElsewhere.fields {m₀ : Cpu Foreign} {memory : Nat → UInt8} (hstack : StackApart link.sym m₀)
    (h : SameElsewhere link.sym m₀ memory) :
    ∀ f ∈ link.sym.fields.drop 3, ∀ i ∈ f.cells, memory i = m₀.memory i := by
  intro f hf i hi
  have hapart := link.apart
  have hsplit : link.sym.fields = [lastStateField link.sym, ⟨link.sym.pauseTicker, 1⟩, ⟨link.sym.now, 8⟩] ++
      link.sym.fields.drop 3 := rfl
  rw [hsplit] at hapart
  have hcross := (List.pairwise_append.mp hapart).2.2
  have hmem : f ∈ link.sym.fields := List.mem_of_mem_drop hf
  refine h i (Set.disjoint_left.mp (hstack.apart f hmem) hi) ?_ ?_ ?_
  · exact Set.disjoint_right.mp (hcross _ (by simp) f hf) hi
  · exact Set.disjoint_right.mp (hcross ⟨link.sym.now, 8⟩ (by simp) f hf) hi
  · exact Set.disjoint_right.mp (hcross ⟨link.sym.pauseTicker, 1⟩ (by simp) f hf) hi

/-- An interrupt that does not call the scheduler is a tick to it. -/
theorem handled_returns (hwired : Wired link.toLink cpu.memory) (hready : Ready link cpu)
    (hreturns : ¬ Switches link.sym cpu) (rip : Qword) :
    ∃ cpu', Interrupt link cpu rip cpu' rip ∧ Handled link cpu rip cpu' rip := by
  obtain ⟨s, cpu', hdeliver, hrun, hcontext, hforeign, -, hmemory, hpaused, hticks⟩ :=
    interrupt_returns ⟨hwired, hready.stack⟩ hreturns rip
  have hcounts : paused link.sym cpu.memory = 0 := not_not.mp (not_or.mp hreturns).1
  have hadvanced : ticks link.sym cpu'.memory = (ticks link.sym cpu.memory + 1) % 2 ^ 64 :=
    hticks.trans (if_pos hcounts)
  refine ⟨cpu', ⟨s, hdeliver, hrun⟩, ⟨?_, ?_, hwired.congr (hmemory.fields hready.stack), hpaused, hticks⟩⟩
  · rw [events, if_pos hcounts, if_neg hreturns, List.append_nil, Run.exec_cons, ← machine_tick hforeign hadvanced]
    rfl
  · rw [if_neg hreturns, hcontext]

theorem context_wrap (m : Cpu Foreign) (rip : Qword) : (context m rip).wrap = context m rip := by
  have hreg : ∀ v : Qword, wrap64 v.toNat = v.toNat := fun v => Nat.mod_eq_of_lt v.isLt
  have hsegment : ∀ v : BitVec 16, v.toNat % 2 ^ 16 = v.toNat := fun v => Nat.mod_eq_of_lt v.isLt
  simp only [ThreadState.wrap, context, hreg, hsegment]

/-- A tick touches the clock alone. -/
structure SameThreads (m m' : Machine) : Prop where
  live : m'.live = m.live
  current : m'.sched.current = m.sched.current
  context : m'.context = m.context
  waiting : m'.sched.threadsWaiting = m.sched.threadsWaiting

theorem SameThreads.standing {m m' : Machine} (h : SameThreads m m') (regs : ThreadState) (t : Addr) :
    m'.standing regs t = m.standing regs t := by
  rw [Machine.standing, Machine.standing, h.current, h.context]

theorem SameThreads.fresh {m : Machine} (h : SameThreads (machine link.sym cpu) m) (hready : Ready link cpu) :
    m.sched.threadsWaiting.node cpu.foreign.block.addr = none := by
  rw [h.waiting]
  exact hready.fresh

theorem SameThreads.stoppedAt {m m' : Machine} (h : SameThreads m m') (y : Nat) :
    m'.stoppedAt y = m.stoppedAt y := by
  rw [Machine.stoppedAt, Machine.stoppedAt, h.live, h.current, h.context]

theorem sameThreads_ticks {m m' : Machine} {p : Prop} [Decidable p]
    (h : Run.exec (Machine.step image) m (if p then [.tick] else []) = some m') : SameThreads m m' := by
  by_cases hp : p
  · rw [if_pos hp] at h
    obtain rfl := Option.some.inj h
    exact ⟨rfl, rfl, rfl, rfl⟩
  · rw [if_neg hp] at h
    obtain rfl := Option.some.inj h
    exact ⟨rfl, rfl, rfl, rfl⟩

/-- The ticks that an interrupt is to the scheduler, up to the call. -/
theorem exec_ticks {m₁ : Cpu Foreign} (hforeign : m₁.foreign = cpu.foreign)
    (hticks : ticks link.sym m₁.memory = nextTicks link.sym cpu) :
    Run.exec (Machine.step image) (machine link.sym cpu)
      (if paused link.sym cpu.memory = 0 then [.tick] else []) = some (machine link.sym m₁) := by
  by_cases hpaused : paused link.sym cpu.memory = 0
  · rw [nextTicks, if_pos hpaused] at hticks
    rw [if_pos hpaused, Run.exec_cons, ← machine_tick hforeign hticks]
    rfl
  · rw [nextTicks, if_neg hpaused] at hticks
    rw [if_neg hpaused, Run.exec_nil, machine_congr hforeign hticks]

/-- An interrupt that calls the scheduler is a context switch to it, after the tick. -/
theorem handled_switches (hmachine : (machine link.sym cpu).Reachable image)
    (hwired : Wired link.toLink cpu.memory) (hready : Ready link cpu) (hswitches : Switches link.sym cpu)
    (rip : Qword) : ∃ cpu' rip', Interrupt link cpu rip cpu' rip' ∧ Handled link cpu rip cpu' rip' := by
  have hinstalled : Installed link.toLink cpu := ⟨hwired, hready.stack⟩
  obtain ⟨s, m₁, hdeliver, hrun, hcalls, hticks⟩ := interrupt_calls hinstalled hswitches rip
  have hexec := exec_ticks hcalls.foreign hticks
  obtain ⟨ts, ws, ps, hsound⟩ := (hmachine.exec hexec).sound
  have hnew := (sameThreads_ticks hexec).fresh hready
  obtain ⟨machine', hswitch, -⟩ := hsound.switch_standing image (context_wrap cpu rip) hnew
  obtain ⟨m₂, hcall, hreturned⟩ := link.switch m₁ machine' (by
    rw [hcalls.stored, hcalls.foreign]
    exact hswitch)
  obtain ⟨cpu', rip', hresume, hcontext, hforeign, -, hmemory⟩ :=
    switch_resumes hinstalled hcalls hcall hreturned.rsp
  have hkept : ∀ f ∈ link.sym.fields.tail, ∀ i ∈ f.cells, cpu'.memory i = m₁.memory i := fun f hf i hi =>
    (hmemory i (Set.disjoint_left.mp (hready.stack.apart f (List.mem_of_mem_tail hf)) hi)).trans
      (hreturned.fields f hf i hi)
  have hticks' : ticks link.sym cpu'.memory = ticks link.sym m₁.memory :=
    Fields.value_congr fun i hi => hkept ⟨link.sym.now, 8⟩ (by simp [Symbols.fields]) i hi
  have hpaused' : paused link.sym cpu'.memory = paused link.sym m₁.memory :=
    Fields.value_congr fun i hi => hkept ⟨link.sym.pauseTicker, 1⟩ (by simp [Symbols.fields]) i hi
  have hmachine' : machine link.sym cpu' = machine' := by
    have hnow : machine'.sched.sync.now = ticks link.sym m₁.memory :=
      (Machine.now_switch hsound.wellFormed hswitch).trans (machine_now link.sym m₁)
    rw [machine, hforeign, hreturned.machine, hticks', ← hnow]
    rfl
  refine ⟨cpu', rip', ⟨s, hdeliver, hrun.trans hresume⟩, ⟨?_, ?_, ?_, hpaused'.trans hcalls.paused,
    hticks'.trans hticks⟩⟩
  · rw [events, Run.exec_append, hexec, Option.bind_some, if_pos hswitches, Run.exec_cons, hswitch, hmachine']
    rfl
  · rw [if_pos hswitches, hcontext, hreturned.lastState, hmachine']
  · refine (hwired.congr (hcalls.memory.fields hready.stack)).congr fun f hf i hi => ?_
    have hlater : f ∈ link.sym.fields.tail.drop 2 := hf
    exact hkept f (List.mem_of_mem_drop hlater) i hi

/-- **Interrupts refine the scheduler.** The handler of the clock's line returns in every state that can
be reached, and it has done to the scheduler and to the registers what the events say. -/
theorem interrupt_handled (hmachine : (machine link.sym cpu).Reachable image)
    (hwired : Wired link.toLink cpu.memory) (hready : Ready link cpu) (rip : Qword) :
    ∃ cpu' rip', Interrupt link cpu rip cpu' rip' ∧ Handled link cpu rip cpu' rip' := by
  by_cases hswitches : Switches link.sym cpu
  · exact handled_switches hmachine hwired hready hswitches rip
  · obtain ⟨cpu', hint, hhandled⟩ := handled_returns hwired hready hswitches rip
    exact ⟨cpu', rip, hint, hhandled⟩

theorem Interrupt.unique {cpu'' : Cpu Foreign} {rip'' : Qword} (h : Interrupt link cpu rip cpu' rip')
    (h' : Interrupt link cpu rip cpu'' rip'') : cpu'' = cpu' ∧ rip'' = rip' := by
  obtain ⟨s, hdeliver, hrun⟩ := h
  obtain ⟨s', hdeliver', hrun'⟩ := h'
  obtain rfl := Option.some.inj (hdeliver.symm.trans hdeliver')
  have hsame := Runs.unique hrun hrun' rfl rfl
  simp only [Prod.mk.injEq, Control.returned.injEq] at hsame
  exact ⟨hsame.1.symm, hsame.2.symm⟩

theorem Interrupt.handled (hmachine : (machine link.sym cpu).Reachable image)
    (hwired : Wired link.toLink cpu.memory) (hready : Ready link cpu)
    (h : Interrupt link cpu rip cpu' rip') : Handled link cpu rip cpu' rip' := by
  obtain ⟨cpu₁, rip₁, hint, hhandled⟩ := interrupt_handled hmachine hwired hready rip
  obtain ⟨rfl, rfl⟩ := hint.unique h
  exact hhandled

/-- The ticks of an interrupt, and the switch after them if there is one. -/
theorem Handled.split (h : Handled link cpu rip cpu' rip') (hmachine : (machine link.sym cpu).Reachable image) :
    ∃ m₁, m₁.Reachable image ∧ SameThreads (machine link.sym cpu) m₁ ∧
      (if Switches link.sym cpu then
        m₁.step image (.switch (context cpu rip) cpu.foreign.block) = some (machine link.sym cpu')
      else m₁ = machine link.sym cpu') := by
  have hexec := h.run
  rw [events, Run.exec_append] at hexec
  obtain ⟨m₁, hticks, hrest⟩ := Option.bind_eq_some_iff.mp hexec
  refine ⟨m₁, hmachine.exec hticks, sameThreads_ticks hticks, ?_⟩
  by_cases hswitches : Switches link.sym cpu
  · rw [if_pos hswitches, Run.exec_cons] at hrest
    obtain ⟨m₂, hstep, hrest⟩ := Option.bind_eq_some_iff.mp hrest
    rw [if_pos hswitches, hstep, ← Option.some.inj hrest]
  · rw [if_neg hswitches] at hrest
    rw [if_neg hswitches, Option.some.inj hrest]

/-- **No thread is moved by an interrupt.** Each that was stopped stands where it stood, and the one that
was interrupted stands at the interrupt. -/
theorem Handled.standing (h : Handled link cpu rip cpu' rip') (hready : Ready link cpu)
    (hmachine : (machine link.sym cpu).Reachable image) :
    (machine link.sym cpu').live = (machine link.sym cpu).live ∧
      ∀ t, (machine link.sym cpu').standing (context cpu' rip') t =
        (machine link.sym cpu).standing (context cpu rip) t := by
  obtain ⟨m₁, hreach, hsame, hrest⟩ := h.split hmachine
  have hcontext := h.resumed
  by_cases hswitches : Switches link.sym cpu
  · rw [if_pos hswitches] at hrest hcontext
    obtain ⟨ts, ws, ps, hsound⟩ := hreach.sound
    obtain ⟨m₂, hstep, hlive, hstanding, -⟩ := hsound.switch_standing image (context_wrap cpu rip)
      (hsame.fresh hready)
    obtain rfl := Option.some.inj (hstep.symm.trans hrest)
    refine ⟨hlive.trans hsame.live, fun t => ?_⟩
    rw [hcontext, hstanding, hsame.standing]
  · rw [if_neg hswitches] at hrest hcontext
    subst hrest
    exact ⟨hsame.live, fun t => by rw [hcontext, hsame.standing]⟩

/-- The threads in front of the interrupt of a yield, with the one that runs. Only registers that belong to
no thread are dropped. -/
theorem Handled.stoppedAt (h : Handled link cpu rip cpu' rip') (hready : Ready link cpu)
    (hmachine : (machine link.sym cpu).Reachable image) :
    (machine link.sym cpu').stoppedAt link.yieldInt.toNat + (if rip' = link.yieldInt then 1 else 0) +
        (if Switches link.sym cpu ∧ (machine link.sym cpu).sched.current = none ∧ rip = link.yieldInt then 1
          else 0) =
      (machine link.sym cpu).stoppedAt link.yieldInt.toNat + if rip = link.yieldInt then 1 else 0 := by
  obtain ⟨m₁, hreach, hsame, hrest⟩ := h.split hmachine
  have hcontext := h.resumed
  have hrip : ∀ (m : Cpu Foreign) (rip : Qword),
      (context m rip).rip = link.yieldInt.toNat ↔ rip = link.yieldInt :=
    fun _ _ => BitVec.toNat_inj
  by_cases hswitches : Switches link.sym cpu
  · rw [if_pos hswitches] at hrest hcontext
    obtain ⟨ts, ws, ps, hsound⟩ := hreach.sound
    have hidle : wrap64 image.switchIdle ≠ link.yieldInt.toNat := link.switchIdle_ne
    have hcount := hsound.switch_stoppedAt (context_wrap cpu rip) hidle hrest (hsame.fresh hready)
    rw [← hcontext, hsame.stoppedAt, hsame.current] at hcount
    simp only [hrip] at hcount
    simpa only [hswitches, true_and] using hcount
  · rw [if_neg hswitches] at hrest hcontext
    subst hrest
    have hrip' : rip' = rip := BitVec.eq_of_toNat_eq (congrArg ThreadState.rip hcontext)
    simp only [hsame.stoppedAt, hrip', hswitches, false_and, if_false, Nat.add_zero]

/-- Without a current thread the processor is where it was, or in the idle loop. -/
theorem Handled.idle {y : Qword} (h : Handled link cpu rip cpu' rip') (hready : Ready link cpu)
    (hmachine : (machine link.sym cpu).Reachable image) (hy : wrap64 image.switchIdle ≠ y.toNat)
    (hidle : (machine link.sym cpu').sched.current = none) (hrip : rip' = y) :
    ¬ Switches link.sym cpu ∧ (machine link.sym cpu).sched.current = none ∧ rip = y := by
  obtain ⟨m₁, hreach, hsame, hrest⟩ := h.split hmachine
  have hcontext := h.resumed
  by_cases hswitches : Switches link.sym cpu
  · rw [if_pos hswitches] at hrest hcontext
    obtain ⟨ts, ws, ps, hsound⟩ := hreach.sound
    obtain ⟨m₂, hstep, -, -, hnone⟩ := hsound.switch_standing image (context_wrap cpu rip)
      (hsame.fresh hready)
    obtain rfl := Option.some.inj (hstep.symm.trans hrest)
    have hresumed : rip'.toNat = wrap64 image.switchIdle := by
      rw [← hnone hidle]
      exact congrArg ThreadState.rip hcontext
    exact absurd (hresumed.symm.trans (congrArg BitVec.toNat hrip)) hy
  · rw [if_neg hswitches] at hrest hcontext
    subst hrest
    have hrip' : rip' = rip := BitVec.eq_of_toNat_eq (congrArg ThreadState.rip hcontext)
    exact ⟨hswitches, hsame.current ▸ hidle, hrip' ▸ hrip⟩

end Interrupts

/-! ### Runs of the kernel -/

section Runs

variable {image : Image} {link : Compiled image} {k k' : Kernel} {move : Move} {t : Addr}

/-- The context in which a thread stands. -/
def standing (link : Compiled image) (k : Kernel) (t : Addr) : ThreadState :=
  (machine link.sym k.cpu).standing (context k.cpu k.rip) t

/-- The yields that have not come to their interrupt: of threads that were stopped in between, and the
one that is being made. -/
def yielding (link : Compiled image) (k : Kernel) : Nat :=
  (machine link.sym k.cpu).stoppedAt link.yieldInt.toNat + if k.rip = link.yieldInt then 1 else 0

structure Sound (link : Compiled image) (k : Kernel) : Prop where
  reachable : (machine link.sym k.cpu).Reachable image
  wired : Wired link.toLink k.cpu.memory
  paused_le : paused link.sym k.cpu.memory ≤ 1
  pausing : paused link.sym k.cpu.memory ≠ 0 → k.rip = link.yieldInt
  exiting : (machine link.sym k.cpu).sched.current = none → k.rip = link.entry .yield ∨ k.rip = link.yieldInt →
    k.cpu.interrupts = false
  account : (ticks link.sym k.cpu.memory + yielding link k) % 2 ^ 64 =
    (1 + k.timers + paused link.sym k.cpu.memory) % 2 ^ 64

theorem Sound.init (h : Initial link k) : Sound link k := by
  obtain ⟨block, waitBlock, zero, lastState, bottom, hboot⟩ := h.boot
  obtain ⟨e, hsound, hcurrent, -⟩ := Machine.sound_boot hboot
  have hlive : (machine link.sym k.cpu).live = [e.node] := List.perm_singleton.mp hsound.live
  have hnow : ticks link.sym k.cpu.memory = 1 := (machine_now link.sym k.cpu).symm.trans (Machine.now_boot hboot)
  have hyielding : yielding link k = 0 := by
    rw [yielding, if_neg h.rip, Machine.stoppedAt, hlive, List.countP_cons, hcurrent]
    simp
  refine ⟨⟨block, waitBlock, zero, lastState, bottom, [], _, hboot, rfl⟩, h.wired, ?_, ?_, ?_, ?_⟩
  · rw [h.paused]
    exact Nat.zero_le 1
  · exact fun hne => absurd h.paused hne
  · rw [hcurrent]
    exact nofun
  · rw [hnow, hyielding, h.timers, h.paused]

theorem Computes.value {cpu cpu' : Cpu Foreign} {rip' : Qword} (h : Computes link cpu cpu' rip') {f : Fields.Field}
    (hf : f ∈ link.sym.fields) : Fields.value cpu'.memory f = Fields.value cpu.memory f :=
  Fields.value_congr fun i hi => h.fields f hf i hi

/-- What a computation leaves of the threads. -/
theorem Computes.call {cpu cpu' : Cpu Foreign} {rip' : Qword} (h : Computes link cpu cpu' rip')
    (hmachine : (machine link.sym cpu).Reachable image) :
    (machine link.sym cpu').Reachable image ∧
      Machine.CallStep image (machine link.sym cpu) (machine link.sym cpu') := by
  rcases h.scheduler with hsame | ⟨event, hcall, hstep⟩
  · rw [hsame]
    exact ⟨hmachine, rfl, fun t ht hne => ⟨ht, hne, rfl⟩, fun _ _ => rfl⟩
  · obtain ⟨ts, ws, ps, hsound⟩ := hmachine.sound
    have hrun : Run.exec (Machine.step image) (machine link.sym cpu) [event] = some (machine link.sym cpu') := by
      rw [Run.exec_cons, hstep]
      rfl
    exact ⟨hmachine.exec hrun, hsound.call hcall hstep⟩

theorem Sound.compute {cpu' : Cpu Foreign} {rip' : Qword} (h : Sound link k) (hcomputes : Computes link k.cpu cpu' rip')
    (hfrom : k.rip ≠ link.yieldInt) (hto : rip' ≠ link.yieldInt) :
    Sound link { k with cpu := cpu', rip := rip' } := by
  obtain ⟨hmachine, hcall⟩ := hcomputes.call h.reachable
  have hpaused : paused link.sym cpu'.memory = paused link.sym k.cpu.memory :=
    hcomputes.value (by simp [Symbols.fields])
  have hticks : ticks link.sym cpu'.memory = ticks link.sym k.cpu.memory :=
    hcomputes.value (by simp [Symbols.fields])
  have hentry : wrap64 image.entryPoint ≠ link.yieldInt.toNat := link.entryPoint_ne
  have hyielding : yielding link { k with cpu := cpu', rip := rip' } = yielding link k := by
    rw [yielding, yielding, if_neg hto, if_neg hfrom, hcall.stoppedAt _ hentry]
  have hzero : paused link.sym k.cpu.memory = 0 := by
    by_contra hne
    exact hfrom (h.pausing hne)
  refine ⟨hmachine, h.wired.congr fun f hf => hcomputes.fields f (List.mem_of_mem_drop hf), ?_, ?_, ?_, ?_⟩
  · rw [hpaused]
    exact h.paused_le
  · exact fun hne => absurd (hpaused.trans hzero) hne
  · exact fun hidle hrip => hcomputes.exits hidle (hrip.resolve_right hto)
  · rw [hticks, hyielding, hpaused]
    exact h.account

/-- The ticker is paused. -/
theorem machine_pause (link : Compiled image) (cpu : Cpu Foreign) :
    machine link.sym (Op.effect link.env cpu (.storeImm .byte (absolute link.sym.pauseTicker) 1)) =
      machine link.sym cpu :=
  machine_congr rfl (Fields.value_set_apart (variables_apart link.toLink).2.2)

theorem Sound.pause (h : Sound link k) (hat : k.rip = link.entry .yield) :
    Sound link
      { k with
        cpu := Op.effect link.env k.cpu (.storeImm .byte (absolute link.sym.pauseTicker) 1)
        rip := link.yieldInt } := by
  have hfrom : k.rip ≠ link.yieldInt := hat ▸ link.yield_ne
  have hmachine := machine_pause link k.cpu
  obtain ⟨cpu', hcpu'⟩ : ∃ cpu', cpu' = Op.effect link.env k.cpu
      (.storeImm .byte (absolute link.sym.pauseTicker) 1) := ⟨_, rfl⟩
  rw [← hcpu'] at hmachine ⊢
  have hmemory : cpu'.memory = Fields.set k.cpu.memory ⟨link.sym.pauseTicker, 1⟩ 1 := by
    rw [hcpu']
    rfl
  have hpaused : paused link.sym cpu'.memory = 1 := by
    rw [hmemory]
    exact Fields.value_set _ _ _
  have hticks : ticks link.sym cpu'.memory = ticks link.sym k.cpu.memory :=
    congrArg (fun m : Machine => m.sched.sync.now) hmachine
  have hzero : paused link.sym k.cpu.memory = 0 := by
    by_contra hne
    exact hfrom (h.pausing hne)
  have hyielding : yielding link { k with cpu := cpu', rip := link.yieldInt } = yielding link k + 1 := by
    rw [yielding, yielding, if_neg hfrom, hmachine, if_pos rfl]
  have hapart : ∀ f ∈ link.sym.fields.drop 3, Disjoint (Fields.Field.cells ⟨link.sym.pauseTicker, 1⟩) f.cells := by
    have hall := link.apart
    rw [Symbols.fields, List.pairwise_cons, List.pairwise_cons] at hall
    exact fun f hf => hall.2.1 f (List.mem_cons_of_mem _ hf)
  refine ⟨?_, h.wired.congr fun f hf i hi => ?_, hpaused.le, fun _ => rfl, ?_, ?_⟩
  · rw [hmachine]
    exact h.reachable
  · rw [hmemory]
    exact Fields.set_outside (Set.disjoint_right.mp (hapart f hf) hi)
  · intro hidle _
    have hoff : cpu'.interrupts = k.cpu.interrupts := by
      rw [hcpu']
      rfl
    rw [hoff]
    exact h.exiting (by rwa [hmachine] at hidle) (.inl hat)
  · have haccount := h.account
    rw [hzero] at haccount
    rw [hticks, hyielding, hpaused]
    dsimp only
    omega

theorem Sound.yield {cpu' : Cpu Foreign} {rip' : Qword} (h : Sound link k) (hat : k.rip = link.yieldInt)
    (hready : Ready link k.cpu) (hint : Interrupt link k.cpu (link.addressOf [.ret]) cpu' rip') :
    Sound link { k with cpu := cpu', rip := rip' } := by
  have hhandled := hint.handled h.reachable h.wired hready
  have hret : link.addressOf [.ret] ≠ link.yieldInt := link.ret_ne
  have hyielding : yielding link { k with cpu := cpu', rip := rip' } + 1 = yielding link k := by
    have hcount := hhandled.stoppedAt hready h.reachable
    simp only [hret, and_false, if_false, Nat.add_zero] at hcount
    rw [yielding, yielding, if_pos hat, ← hcount]
  refine ⟨h.reachable.exec hhandled.run, hhandled.wired, ?_, ?_, ?_, ?_⟩
  · rw [hhandled.paused]
    exact Nat.zero_le 1
  · exact fun hne => absurd hhandled.paused hne
  · rintro hidle (hrip | hrip)
    · exact absurd (hhandled.idle hready h.reachable link.switchIdle_ne_yield hidle hrip).2.2 link.ret_ne_yield
    · exact absurd (hhandled.idle hready h.reachable link.switchIdle_ne hidle hrip).2.2 hret
  · -- a yield that was preempted is counted as a tick
    have haccount := h.account
    have hle := h.paused_le
    rw [hhandled.ticks, hhandled.paused, nextTicks]
    split <;> dsimp only <;> omega

/-- A thread that has exited is not interrupted in its yield. -/
theorem Sound.running (h : Sound link k) (henabled : k.cpu.interrupts = true)
    (hidle : (machine link.sym k.cpu).sched.current = none) :
    ¬ (k.rip = link.entry .yield ∨ k.rip = link.yieldInt) := fun hrip =>
  Bool.false_ne_true ((h.exiting hidle hrip).symm.trans henabled)

/-- A timer interrupt moves no yield. -/
theorem Sound.yielding_timer {cpu' : Cpu Foreign} {rip' : Qword} (h : Sound link k)
    (henabled : k.cpu.interrupts = true) (hready : Ready link k.cpu) (hint : Interrupt link k.cpu k.rip cpu' rip') :
    yielding link ⟨cpu', rip', k.timers + 1⟩ = yielding link k := by
  have hcount := (hint.handled h.reachable h.wired hready).stoppedAt hready h.reachable
  have hkept : ¬ (Switches link.sym k.cpu ∧ (machine link.sym k.cpu).sched.current = none ∧ k.rip = link.yieldInt) :=
    fun hdropped => h.running henabled hdropped.2.1 (.inr hdropped.2.2)
  rwa [if_neg hkept, Nat.add_zero] at hcount

theorem Sound.timer {cpu' : Cpu Foreign} {rip' : Qword} (h : Sound link k) (henabled : k.cpu.interrupts = true)
    (hready : Ready link k.cpu) (hint : Interrupt link k.cpu k.rip cpu' rip') :
    Sound link ⟨cpu', rip', k.timers + 1⟩ := by
  have hhandled := hint.handled h.reachable h.wired hready
  have hyielding := h.yielding_timer henabled hready hint
  refine ⟨h.reachable.exec hhandled.run, hhandled.wired, ?_, ?_, ?_, ?_⟩
  · rw [hhandled.paused]
    exact Nat.zero_le 1
  · exact fun hne => absurd hhandled.paused hne
  · rintro hidle (hrip | hrip)
    · obtain ⟨-, hidle', hrip'⟩ := hhandled.idle hready h.reachable link.switchIdle_ne_yield hidle hrip
      exact absurd (.inl hrip') (h.running henabled hidle')
    · obtain ⟨-, hidle', hrip'⟩ := hhandled.idle hready h.reachable link.switchIdle_ne hidle hrip
      exact absurd (.inr hrip') (h.running henabled hidle')
  · have haccount := h.account
    have hle := h.paused_le
    rw [hhandled.ticks, hhandled.paused, nextTicks]
    split <;> dsimp only <;> omega

theorem Sound.step (h : Sound link k) (hstep : Step link move k k') : Sound link k' := by
  cases hstep with
  | compute hcomputes hfrom hto => exact h.compute hcomputes hfrom hto
  | pause hat => exact h.pause hat
  | yield hat hready hint => exact h.yield hat hready hint
  | timer henabled hready hint => exact h.timer henabled hready hint

theorem Reachable.sound (h : Reachable link k) : Sound link k := by
  obtain ⟨k₀, hinit, hrun⟩ := h
  induction hrun with
  | refl => exact .init hinit
  | tail _ hstep ih =>
    obtain ⟨move, hstep⟩ := hstep
    exact ih.step hstep

/-- **The kernel refines the scheduler.** In every state that it can reach, the scheduler is in one that it
can reach by its events, and an interrupt runs to its end and is the events that it should be. -/
theorem kernel_refines (h : Reachable link k) :
    (machine link.sym k.cpu).Reachable image ∧
      ∀ rip, Ready link k.cpu → ∃ cpu' rip', Interrupt link k.cpu rip cpu' rip' ∧
        Run.exec (Machine.step image) (machine link.sym k.cpu) (events link.sym k.cpu rip) =
          some (machine link.sym cpu') ∧
        context cpu' rip' = if Switches link.sym k.cpu then (machine link.sym cpu').sched.lastState.wrap
          else context k.cpu rip := by
  have hsound := h.sound
  refine ⟨hsound.reachable, fun rip hready => ?_⟩
  obtain ⟨cpu', rip', hint, hhandled⟩ := interrupt_handled hsound.reachable hsound.wired hready rip
  exact ⟨cpu', rip', hint, hhandled.run, hhandled.resumed⟩

/-- A step that is not taken by the thread: another one runs, or the clock interrupts. -/
def OtherStep (link : Compiled image) (t : Addr) (k k' : Kernel) : Prop :=
  ∃ move, Step link move k k' ∧ (move = .timer ∨ (machine link.sym k.cpu).sched.current ≠ some t)

theorem standing_step (h : Sound link k) (ht : t ∈ (machine link.sym k.cpu).live) (hstep : OtherStep link t k k') :
    t ∈ (machine link.sym k'.cpu).live ∧ standing link k' t = standing link k t := by
  obtain ⟨move, hstep, hother⟩ := hstep
  cases hstep with
  | compute hcomputes hfrom hto =>
    have hne := hother.resolve_left nofun
    obtain ⟨-, hcall⟩ := hcomputes.call h.reachable
    obtain ⟨hlive, hne', hcontext⟩ := hcall.others t ht hne
    refine ⟨hlive, ?_⟩
    rw [standing, standing, Machine.standing_other hne, Machine.standing_other hne', hcontext]
  | pause hat =>
    have hne := hother.resolve_left nofun
    rw [standing, standing, machine_pause]
    exact ⟨ht, (Machine.standing_other hne).trans (Machine.standing_other hne).symm⟩
  | yield hat hready hint =>
    have hne := hother.resolve_left nofun
    obtain ⟨hlive, hstanding⟩ := (hint.handled h.reachable h.wired hready).standing hready h.reachable
    refine ⟨hlive ▸ ht, (hstanding t).trans ?_⟩
    exact (Machine.standing_other hne).trans (Machine.standing_other hne).symm
  | timer henabled hready hint =>
    obtain ⟨hlive, hstanding⟩ := (hint.handled h.reachable h.wired hready).standing hready h.reachable
    exact ⟨hlive ▸ ht, hstanding t⟩

/-- **Preemption is transparent.** However often the clock interrupts and whatever the other threads do, a
thread that takes no step itself stands where it stood. When it runs again it goes on with the registers,
the flags and the stack pointer that it had at its last instruction. -/
theorem preemption_transparent (h : Reachable link k) (ht : t ∈ (machine link.sym k.cpu).live)
    (hrun : Relation.ReflTransGen (OtherStep link t) k k') :
    t ∈ (machine link.sym k'.cpu).live ∧ standing link k' t = standing link k t ∧
      ((machine link.sym k.cpu).sched.current = some t → (machine link.sym k'.cpu).sched.current = some t →
        context k'.cpu k'.rip = context k.cpu k.rip) := by
  have hstands : Sound link k' ∧ t ∈ (machine link.sym k'.cpu).live ∧ standing link k' t = standing link k t := by
    induction hrun with
    | refl => exact ⟨h.sound, ht, rfl⟩
    | tail _ hstep ih =>
      obtain ⟨hsound, hlive, hstanding⟩ := ih
      obtain ⟨hlive', hstanding'⟩ := standing_step hsound hlive hstep
      obtain ⟨move, hmove, -⟩ := hstep
      exact ⟨hsound.step hmove, hlive', hstanding'.trans hstanding⟩
  obtain ⟨-, hlive, hstanding⟩ := hstands
  refine ⟨hlive, hstanding, fun hcurrent hcurrent' => ?_⟩
  rwa [standing, standing, Machine.standing_current hcurrent, Machine.standing_current hcurrent'] at hstanding

/-- **No tick is lost to a yield**, in any state that can be reached. A timer interrupt between the two
instructions of a yield is taken for it and not counted, and the interrupt of the yield is counted in its
place later. -/
theorem ticks_account (h : Reachable link k) :
    ticks link.sym k.cpu.memory + yielding link k ≡ 1 + k.timers + paused link.sym k.cpu.memory
      [MOD 2 ^ 64] :=
  h.sound.account

end Runs

/-! ### A kernel to run -/

section Blank

theorem slots_wrap_fit (a : Nat) (s : ThreadState) : ∀ x ∈ slots a s.wrap, x.2 < 256 ^ x.1.width := by
  simp only [slots, ThreadState.wrap, List.forall_mem_cons]
  refine ⟨?_, ?_, ?_, ?_, ?_, ?_, ?_, ?_, ?_, ?_, ?_, ?_, ?_, ?_, ?_, ?_, ?_, ?_, ?_, List.forall_mem_nil _⟩
  all_goals exact Nat.mod_lt _ (by decide)

/-- `__smp_Switch`, with the last state stored where the assembly reads it. -/
def runSwitch (image : Image) (m : Cpu Foreign) : Option (Cpu Foreign) := do
  let machine' ← (machine blankSymbols m).step image
    (.switch (stored m.memory blankSymbols.lastState) m.foreign.block)
  let s := machine'.sched.lastState.wrap
  some
    { m with
      memory := Fields.setAll m.memory ((⟨blankSymbols.lastState, 8⟩, s.rax) :: slots blankSymbols.lastState s)
      foreign := { m.foreign with machine := machine' } }

theorem runSwitch_returned {image : Image} {m : Cpu Foreign} {machine' : Machine}
    (h : (machine blankSymbols m).step image (.switch (stored m.memory blankSymbols.lastState) m.foreign.block) =
      some machine') : ∃ m', runSwitch image m = some m' ∧ SwitchReturned blankSymbols m m' machine' := by
  simp only [runSwitch, h, Option.bind_eq_bind, Option.bind_some]
  refine ⟨_, rfl, rfl, rfl, ?_, fun f hf i hi => ?_⟩
  · have hrax : machine'.sched.lastState.wrap.rax < 256 ^ 8 := Nat.mod_lt _ (by decide)
    refine stored_setAll (slots_wrap_fit _ _) ?_
    rw [Fields.value_set]
    exact Nat.mod_eq_of_lt hrax
  · have hapart := (blankLink (σ := Foreign) fun _ _ => none).apart
    rw [Symbols.fields, List.pairwise_cons] at hapart
    have hout : i ∉ (lastStateField blankSymbols).cells := Set.disjoint_right.mp (hapart.1 f hf) hi
    refine Fields.setAll_outside fun x hx hi' => hout ?_
    rcases List.mem_cons.mp hx with rfl | hx
    · exact rax_within blankSymbols hi'
    · exact slots_within hx hi'

def blankCompiled : Compiled Machine.blankImage where
  toLink := blankLink fun l m => if l = .smp_Switch then runSwitch Machine.blankImage m else none
  switch _ _ h := runSwitch_returned h
  yield_ne := by decide
  ret_ne := by decide
  ret_ne_yield := by decide
  entryPoint_ne := by decide
  switchIdle_ne := by decide
  switchIdle_ne_yield := by decide

def blankKernel (m : Machine) : Kernel := ⟨blankCpu 1 ⟨m, ⟨301, 0, 3⟩⟩, 0x5000, 0⟩

theorem blankKernel_machine {m : Machine} (hnow : m.sched.sync.now = 1) :
    machine blankSymbols (blankKernel m).cpu = m := by
  have hticks : ticks blankSymbols (blankMemory 1) = 1 := Fields.value_set _ _ _
  change m.setSync { m.sched.sync with now := ticks blankSymbols (blankMemory 1) } = m
  rw [hticks, ← hnow]
  rfl

theorem blankKernel_initial {m : Machine} (h : Machine.newMachine = some m) :
    Initial blankCompiled (blankKernel m) := by
  have hpaused : paused blankSymbols (blankMemory 1) = 0 := by
    change Fields.value (blankMemory 1) ⟨0x2000, 1⟩ = 0
    decide
  refine ⟨⟨_, _, _, _, _, h.trans (congrArg some (blankKernel_machine (Machine.now_boot h)).symm)⟩,
    blank_wired 1 _, hpaused, ?_, rfl⟩
  change (0x5000 : Qword) ≠ 0x400
  decide

/-- In the middle of a yield: the ticker is paused, and the interrupt comes next. -/
def yieldKernel (m : Machine) : Kernel where
  cpu := Op.effect blankCompiled.env (blankKernel m).cpu (.storeImm .byte (absolute blankSymbols.pauseTicker) 1)
  rip := blankCompiled.yieldInt
  timers := 0

def yieldState : ThreadState := context (blankCpu 1 ()) 0x400

/-- The first thread has started another one, and a switch would install that one. -/
structure OtherWaits (m : Machine) : Prop where
  current : m.sched.current = some 100
  live : m.live = [200, 100]
  now : m.sched.sync.now = 1
  fresh : m.sched.threadsWaiting.node 301 = none
  stoppedAt : m.stoppedAt 0x400 = 0
  switches : ∃ m', m.step Machine.blankImage (.switch yieldState ⟨301, 0, 3⟩) = some m' ∧
    m'.sched.current = some 200

theorem exists_otherWaits : ∃ m₀ m, Machine.newMachine = some m₀ ∧
    m₀.step Machine.blankImage (Machine.startAt 5 200 300) = some m ∧ OtherWaits m := by
  have hread : (Machine.newMachine.bind fun m₀ =>
      (m₀.step Machine.blankImage (Machine.startAt 5 200 300)).bind fun m =>
        (m.step Machine.blankImage (.switch yieldState ⟨301, 0, 3⟩)).map fun m' =>
          ((m.sched.current, m.live), (m.sched.sync.now, m.sched.threadsWaiting.node 301),
            (m.stoppedAt 0x400, m'.sched.current))) =
        some ((some 100, [200, 100]), (1, none), (0, some 200)) := by
    decide
  obtain ⟨m₀, hm₀, hrest⟩ := Option.bind_eq_some_iff.mp hread
  obtain ⟨m, hm, hrest⟩ := Option.bind_eq_some_iff.mp hrest
  obtain ⟨m', hm', hfields⟩ := Option.map_eq_some_iff.mp hrest
  simp only [Prod.mk.injEq] at hfields
  obtain ⟨⟨hcurrent, hlive⟩, ⟨hnow, hfresh⟩, hstopped, hcurrent'⟩ := hfields
  exact ⟨m₀, m, hm₀, hm, hcurrent, hlive, hnow, hfresh, hstopped, m', hm', hcurrent'⟩

theorem yieldKernel_machine {m : Machine} (hnow : m.sched.sync.now = 1) :
    machine blankCompiled.sym (yieldKernel m).cpu = m :=
  (machine_pause blankCompiled _).trans (blankKernel_machine hnow)

theorem yieldKernel_paused (m : Machine) : paused blankCompiled.sym (yieldKernel m).cpu.memory = 1 :=
  Fields.value_set _ _ _

theorem yieldKernel_reachable {m₀ m : Machine} (hm₀ : Machine.newMachine = some m₀)
    (hm : m₀.step Machine.blankImage (Machine.startAt 5 200 300) = some m) (h : OtherWaits m) :
    Reachable blankCompiled (yieldKernel m) := by
  have hcomputes : Computes blankCompiled (blankKernel m₀).cpu (blankKernel m).cpu 0x380 := by
    have hbefore : machine blankCompiled.sym (blankKernel m₀).cpu = m₀ :=
      blankKernel_machine (Machine.now_boot hm₀)
    have hafter : machine blankCompiled.sym (blankKernel m).cpu = m := blankKernel_machine h.now
    refine ⟨.inr ⟨Machine.startAt 5 200 300, trivial, ?_⟩, fun _ _ _ _ => rfl, ?_⟩
    · rwa [hbefore, hafter]
    · rw [hafter, h.current]
      exact nofun
  have hcompute := Step.compute (k := blankKernel m₀) hcomputes (blankKernel_initial hm₀).rip (by decide)
  exact ⟨_, blankKernel_initial hm₀, .tail (.single ⟨_, hcompute⟩) ⟨_, .pause rfl⟩⟩

theorem yieldKernel_ready {m : Machine} (h : OtherWaits m) : Ready blankCompiled (yieldKernel m).cpu := by
  obtain ⟨hroom, hapart⟩ := blankCpu_stackApart 1 (⟨m, ⟨301, 0, 3⟩⟩ : Foreign)
  refine ⟨⟨hroom, hapart⟩, ?_⟩
  rw [yieldKernel_machine h.now]
  exact h.fresh

theorem yieldKernel_interrupts (m : Machine) : (yieldKernel m).cpu.interrupts = true := by
  change (0x202 : Qword).getLsbD 9 = true
  decide

/-- An interrupt there is a switch to the scheduler, and no tick. -/
theorem OtherWaits.handled {m : Machine} (h : OtherWaits m) {cpu' : Cpu Foreign}
    (hrun : Run.exec (Machine.step Machine.blankImage) (machine blankCompiled.sym (yieldKernel m).cpu)
      (events blankCompiled.sym (yieldKernel m).cpu (yieldKernel m).rip) =
        some (machine blankCompiled.sym cpu')) :
    (machine blankCompiled.sym cpu').sched.current = some 200 := by
  have hpaused : paused blankCompiled.sym (yieldKernel m).cpu.memory ≠ 0 := by
    rw [yieldKernel_paused]
    decide
  obtain ⟨m', hm', hcurrent⟩ := h.switches
  have hswitch : m.step Machine.blankImage (.switch (context (yieldKernel m).cpu (yieldKernel m).rip)
      (yieldKernel m).cpu.foreign.block) = some m' := hm'
  rw [events, if_neg hpaused, if_pos (.inl hpaused), yieldKernel_machine h.now, List.nil_append, Run.exec_cons,
    hswitch] at hrun
  rwa [← Option.some.inj hrun]

/-- The yield is preempted. -/
theorem exists_preempted : ∃ m k, OtherWaits m ∧ Reachable blankCompiled (yieldKernel m) ∧
    Step blankCompiled .timer (yieldKernel m) k ∧ (machine blankCompiled.sym k.cpu).sched.current = some 200 ∧
    k.timers = 1 ∧ yielding blankCompiled k = 1 := by
  obtain ⟨m₀, m, hm₀, hm, h⟩ := exists_otherWaits
  have hreach := yieldKernel_reachable hm₀ hm h
  have hsound := hreach.sound
  have hready := yieldKernel_ready h
  have henabled := yieldKernel_interrupts m
  obtain ⟨cpu', rip', hint, hhandled⟩ :=
    interrupt_handled hsound.reachable hsound.wired hready (yieldKernel m).rip
  refine ⟨m, _, h, hreach, .timer henabled hready hint, h.handled hhandled.run, rfl, ?_⟩
  have hat : (yieldKernel m).rip = blankCompiled.yieldInt := rfl
  rw [hsound.yielding_timer henabled hready hint, yielding, yieldKernel_machine h.now, if_pos hat]
  exact congrArg (· + 1) h.stoppedAt

/-- The interrupt hands over to the other thread. -/
theorem kernel_refines_blank :
    ∃ m cpu' rip', Reachable blankCompiled (yieldKernel m) ∧
      Interrupt blankCompiled (yieldKernel m).cpu (yieldKernel m).rip cpu' rip' ∧
      (machine blankCompiled.sym (yieldKernel m).cpu).sched.current = some 100 ∧
      (machine blankCompiled.sym cpu').sched.current = some 200 ∧
      context cpu' rip' = (machine blankCompiled.sym cpu').sched.lastState.wrap := by
  obtain ⟨m₀, m, hm₀, hm, h⟩ := exists_otherWaits
  have hreach := yieldKernel_reachable hm₀ hm h
  obtain ⟨cpu', rip', hint, hrun, hcontext⟩ :=
    (kernel_refines hreach).2 (yieldKernel m).rip (yieldKernel_ready h)
  have hswitches : Switches blankCompiled.sym (yieldKernel m).cpu := by
    left
    rw [yieldKernel_paused]
    decide
  rw [if_pos hswitches] at hcontext
  refine ⟨m, cpu', rip', hreach, hint, ?_, h.handled hrun, hcontext⟩
  rw [yieldKernel_machine h.now]
  exact h.current

/-- The thread that was preempted stands in front of the interrupt of its yield while the other one runs. -/
theorem preemption_transparent_blank :
    ∃ m k, Step blankCompiled .timer (yieldKernel m) k ∧
      (machine blankCompiled.sym k.cpu).sched.current = some 200 ∧
      standing blankCompiled k 100 = context (yieldKernel m).cpu blankCompiled.yieldInt := by
  obtain ⟨m, k, h, hreach, hstep, hcurrent, -⟩ := exists_preempted
  have hmem : 100 ∈ (machine blankCompiled.sym (yieldKernel m).cpu).live := by
    rw [yieldKernel_machine h.now, h.live]
    decide
  have hrunning : (machine blankCompiled.sym (yieldKernel m).cpu).sched.current = some 100 := by
    rw [yieldKernel_machine h.now]
    exact h.current
  exact ⟨m, k, hstep, hcurrent, (preemption_transparent hreach hmem (.single ⟨.timer, hstep, .inl rfl⟩)).2.1.trans
    (Machine.standing_current hrunning)⟩

/-- One timer interrupt, no tick, and a yield that is still to come to its interrupt. -/
theorem ticks_account_blank :
    ∃ m k, Step blankCompiled .timer (yieldKernel m) k ∧ k.timers = 1 ∧ yielding blankCompiled k = 1 ∧
      ticks blankCompiled.sym k.cpu.memory + yielding blankCompiled k ≡
        1 + k.timers + paused blankCompiled.sym k.cpu.memory [MOD 2 ^ 64] := by
  obtain ⟨m, k, -, ⟨k₀, hinit, hrun⟩, hstep, -, htimers, hyielding⟩ := exists_preempted
  exact ⟨m, k, hstep, htimers, hyielding, ticks_account ⟨k₀, hinit, hrun.tail ⟨_, hstep⟩⟩⟩

end Blank

end IntSwitch

end Helos
