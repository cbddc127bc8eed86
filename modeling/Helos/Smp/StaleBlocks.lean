import Helos.Smp.ThreadSpec
import Helos.Smp.Twins

/-!
# What a new thread takes over from its blocks

`smp_thread_Start` gets the thread and its wait record from `kMalloc`, with the bytes of earlier
objects in them, and does not write all of them. Two runs that differ only in these bytes are the same
exactly when the bytes agree on the registers that are not written, and on when the record blocks the
thread.
-/

namespace Helos

open Helos.Tree (Fresh)

/-- A call of `__smp_Switch`: the ticks before it, the registers of the interrupted context, and what
`kMalloc` returns. -/
structure SwitchCall where
  ticks : Nat
  regs : ThreadState
  new : Fresh Addr

/-- What is in the two blocks. -/
structure Stale where
  thread : Thread
  wait : Waiting

def StartBlocks.holding (blocks : StartBlocks) (stale : Stale) : StartBlocks :=
  { blocks with thread := { blocks.thread with data := stale.thread }, wait := stale.wait }

namespace Scheduler

def interrupt (s : Scheduler) (call : SwitchCall) : Scheduler :=
  { s with sync := Sync.tick^[call.ticks] s.sync, lastState := call.regs }

/-- The current thread and the loaded registers after each call. `kMalloc` does not return a block
that is in use. -/
def trace (image : Image) : Scheduler → List SwitchCall → Option (List (Ptr × ThreadState))
  | _, [] => some []
  | s, call :: calls =>
    if s.threadsWaiting.node call.new.addr = none then do
      let (s, _) ← (s.interrupt call).switch image call.new
      let steps ← trace image s calls
      some ((s.current, s.lastState) :: steps)
    else none

/-- A start and the calls after it: which thread is current after each, and the registers loaded when
the new thread first is. -/
def outcome (image : Image) (s : Scheduler) (call : StartCall) (blocks : StartBlocks)
    (calls : List SwitchCall) : Option (List Ptr × Option ThreadState) := do
  let (s, t, _) ← s.start image call blocks
  let steps ← s.trace image calls
  some (steps.map Prod.fst, (steps.find? fun step => step.1 = some t).map Prod.snd)

/-- No run with arguments tells the two from each other. -/
def Independent (x y : Stale) : Prop :=
  ∀ (image : Image) (s : Scheduler) (ts : List (Entry Thread)) (ws : List (Entry Addr))
    (ps : List (Entry Unit)) (call : StartCall) (blocks : StartBlocks) (calls : List SwitchCall),
    s.WellFormed ts ws ps → s.sync.now < 2 ^ 64 → s.threads.node blocks.thread.addr = none →
    s.threadsWaiting.node blocks.ready.addr = none → call.args ≠ none →
    outcome image s call (blocks.holding x) calls = outcome image s call (blocks.holding y) calls

/-- The registers that `smp_thread_Start` does not write. -/
structure SameRest (x y : ThreadState) : Prop where
  rbx : x.rbx = y.rbx
  rbp : x.rbp = y.rbp
  r10 : x.r10 = y.r10
  r11 : x.r11 = y.r11
  r12 : x.r12 = y.r12
  r13 : x.r13 = y.r13
  r14 : x.r14 = y.r14
  r15 : x.r15 = y.r15
  rflags : x.rflags = y.rflags

/-- The records block a thread at the same ticks. -/
def SameWaits (x y : Waiting) : Prop :=
  ∀ now < 2 ^ 64, Helos.isWaiting now (some x) = Helos.isWaiting now (some y)

/-- The record blocks a thread for good. -/
def Blocks (x : Waiting) : Prop := ∀ now < 2 ^ 64, Helos.isWaiting now (some x) = true

variable {image : Image} {s s₀ : Scheduler} {ts : List (Entry Thread)} {ws : List (Entry Addr)}
  {ps : List (Entry Unit)} {call : StartCall} {blocks : StartBlocks} {stack : Nat}
  {page : Option Nat} {x y : Stale}

/-! ### The start -/

theorem start_congr (image : Image) (stack : Nat) {th th' : Thread}
    (h : SameRest th.state th'.state) {args : Option Arguments} (hargs : args ≠ none)
    (entry nice id now : Nat) :
    th.start image entry args nice id now stack = th'.start image entry args nice id now stack := by
  obtain ⟨args, rfl⟩ := Option.ne_none_iff_exists'.mp hargs
  simp only [Thread.start, ThreadState.arguments, h.rbx, h.rbp, h.r10, h.r11, h.r12, h.r13, h.r14,
    h.r15, h.rflags]

theorem sameRest_of_start {th th' : Thread} {args : Option Arguments} {entry nice id now : Nat}
    (h : (th.start image entry args nice id now stack).state =
      (th'.start image entry args nice id now stack).state) :
    SameRest th.state th'.state := by
  cases args with
  | none =>
    simp only [Thread.start, ThreadState.arguments, ThreadState.mk.injEq, true_and, and_true] at h
    obtain ⟨h₁, -, -, -, -, h₂, -, -, h₃, h₄, h₅, h₆, h₇, h₈, h₉⟩ := h
    exact ⟨h₁, h₂, h₃, h₄, h₅, h₆, h₇, h₈, h₉⟩
  | some args =>
    simp only [Thread.start, ThreadState.arguments, ThreadState.mk.injEq, true_and, and_true] at h
    obtain ⟨h₁, h₂, h₃, h₄, h₅, h₆, h₇, h₈, h₉⟩ := h
    exact ⟨h₁, h₂, h₃, h₄, h₅, h₆, h₇, h₈, h₉⟩

theorem takeStack_alter (s : Scheduler) (id : Nat) (threads : Tree Thread) :
    ({ s with idallo := id, threads } : Scheduler).takeStack =
      s.takeStack.map fun r => ({ r.1 with idallo := id, threads }, r.2) := by
  obtain ⟨sync, current, idallo, threads', threadsWaiting, stackPool⟩ := s
  simp only [takeStack, Option.bind_eq_bind, Option.map_bind]
  apply Option.bind_congr
  intro spare _
  cases spare with
  | none => simp only [Function.comp_apply, Option.map_some]
  | some spare =>
    simp only [Function.comp_apply, Option.map_bind]
    apply Option.bind_congr
    intro n _
    apply Option.bind_congr
    intro pool _
    simp only [Option.map_some]

/-- A table with one entry more has the other threads unchanged. -/
theorem thread_of_perm {tree tree' : Tree Thread} {ts' : List (Entry Thread)} {e : Entry Thread}
    (h : tree.Lists ts) (h' : tree'.Lists ts') (hperm : ts'.Perm (e :: ts)) {u : Addr}
    (hu : u ≠ e.node) :
    (tree'.node u).map TreeNode.data = (tree.node u).map TreeNode.data := by
  cases hn : tree.node u with
  | none =>
    rw [h'.node_eq_none fun x hx heq => ?_]
    rcases List.mem_cons.mp (hperm.subset hx) with rfl | hx
    · exact hu heq.symm
    · exact h.not_mem_of_fresh hn x hx heq
  | some n =>
    obtain ⟨x, hx, rfl, -, hdata⟩ := h.exists_entry hn
    obtain ⟨n', hn', -, hdata'⟩ := h'.read (hperm.symm.subset (List.mem_cons_of_mem e hx))
    rw [hn', Option.map_some, Option.map_some, hdata', hdata]

/-- The start writes the new thread, and whatever else it does it does not look into the blocks. -/
theorem WellFormed.start_eq (image : Image) (blocks : StartBlocks) (h : s.WellFormed ts ws ps)
    (hid : s.idallo + 1 < 2 ^ 31)
    (hthread : s.threads.node blocks.thread.addr = none)
    {stackPool : Tree Unit} {bottom : Nat}
    (hstack : s.takeStack =
      some ({ s with stackPool, kernelMappingBottom := bottom }, stack, page)) {queue₀ queue : Tree Addr} {node : Addr}
    {isNew : Bool}
    (hqueue : s.threadsWaiting.insertNode (s.startKey call) (.null blocks.byteAtZero') blocks.ready =
      some (queue₀, node, isNew))
    (hstore : queue₀.modifyData node (fun _ => blocks.thread.addr) = some queue) :
    ∃ threads, s.start image call blocks = some
        ({ s with
            sync := { s.sync with
              wait := Function.update s.sync.wait blocks.thread.addr (some blocks.wait) }
            idallo := s.idallo + 1
            threads
            threadsWaiting := queue
            stackPool
            kernelMappingBottom := bottom },
          blocks.thread.addr, page) ∧
      ∀ u, (threads.node u).map TreeNode.data =
        if u = blocks.thread.addr then
          some (blocks.thread.data.start image call.entry call.args (call.nice % 2 ^ 32)
            (s.idallo + 1) s.sync.now stack)
        else s.thread u := by
  have habsent : ∀ e ∈ ts, e.key ≠ s.idallo + 1 := by
    intro e he heq
    have hle := (h.ids e he).2
    omega
  rcases h.threads.insertNode (s.idallo + 1) (.null blocks.byteAtZero) hthread with
    ⟨e, he, hkey, -⟩ | ⟨-, threads₁, ts₁, hinsert, hperm₁, hlists₁⟩
  · exact absurd hkey (habsent e he)
  set f := Thread.start image call.entry call.args (call.nice % 2 ^ 32) (s.idallo + 1) s.sync.now
    stack with hf
  have hmem : ⟨blocks.thread.addr, s.idallo + 1, blocks.thread.data⟩ ∈ ts₁ :=
    hperm₁.symm.subset List.mem_cons_self
  have hfound : (threads₁.node blocks.thread.addr).map TreeNode.data = some blocks.thread.data := by
    obtain ⟨n, hn, -, hdata⟩ := hlists₁.read hmem
    exact (congrArg (Option.map TreeNode.data) hn).trans (congrArg some hdata)
  obtain ⟨threads, hmodify, hlookup⟩ := modifyData_some hfound f
  have hnew : (threads.node blocks.thread.addr).map TreeNode.data = some (f blocks.thread.data) := by
    rw [hlookup, if_pos rfl]
  have hkey : wrap64 ((f blocks.thread.data).lastTick + (f blocks.thread.data).nice) =
      s.startKey call := rfl
  have htake := takeStack_alter s (s.idallo + 1) threads₁
  rw [hstack, Option.map_some] at htake
  refine ⟨threads, ?_, fun u => ?_⟩
  · simp only [Scheduler.start, if_pos hid, hinsert, htake, Scheduler.modifyThread, ← hf, hmodify,
      Scheduler.thread, hnew, hkey, hqueue, hstore, Option.bind_eq_bind, Option.bind_some]
  · rw [hlookup]
    split
    · rfl
    · next hu => exact thread_of_perm h.threads hlists₁ hperm₁ hu

theorem WellFormed.current_ne_fresh (h : s.WellFormed ts ws ps) {t : Addr}
    (ht : s.threads.node t = none) : s.current ≠ some t := by
  intro hcurrent
  have hplaced : t ∈ s.placed ws := by simp [placed, hcurrent]
  obtain ⟨e, he, hnode⟩ := List.mem_map.mp (h.known t hplaced)
  exact h.threads.not_mem_of_fresh ht e he hnode

theorem SameWaits.update {w w' : Waiting} (h : SameWaits w w') (wait : Addr → Option Waiting)
    (t : Addr) : ∀ u, ∀ now < 2 ^ 64, Helos.isWaiting now (Function.update wait t (some w') u) =
      Helos.isWaiting now (Function.update wait t (some w) u) := by
  intro u now hlt
  by_cases hu : u = t
  · subst hu
    rw [Function.update_self, Function.update_self, h now hlt]
  · rw [Function.update_of_ne hu, Function.update_of_ne hu]

/-- Two starts, with a block of either content, are twins. -/
theorem start_twins (image : Image) (h : s.WellFormed ts ws ps) (hnow : s.sync.now < 2 ^ 64)
    (hthread : s.threads.node blocks.thread.addr = none)
    (hready : s.threadsWaiting.node blocks.ready.addr = none) (hargs : call.args ≠ none)
    (hwaits : SameWaits x.wait y.wait)
    (hstate : SameRest x.thread.state y.thread.state ∨ Blocks x.wait) :
    Option.Rel
      (fun a b => (∃ asleep, Twins asleep a.1 b.1) ∧ b.2 = a.2 ∧
        ∃ ts ws ps, a.1.WellFormed ts ws ps)
      (s.start image call (blocks.holding x)) (s.start image call (blocks.holding y)) := by
  by_cases hid : s.idallo + 1 < 2 ^ 31
  · obtain ⟨stackPool, bottom, stack, page, ps', hstack, -, -⟩ := takeStack_spec h.pool
    obtain ⟨queue₀, node, isNew, queue, ws', hqueue, hstore, -, -, -⟩ :=
      queueStarted h.waiting (s.startKey call) blocks.byteAtZero' hready blocks.thread.addr
    obtain ⟨threads₁, hstart₁, hlookup₁⟩ :=
      h.start_eq image (blocks.holding x) hid hthread hstack hqueue hstore
    obtain ⟨threads₂, hstart₂, hlookup₂⟩ :=
      h.start_eq image (blocks.holding y) hid hthread hstack hqueue hstore
    have hthread₁ : s.threads.node (blocks.holding x).thread.addr = none := hthread
    have hready₁ : s.threadsWaiting.node (blocks.holding x).ready.addr = none := hready
    obtain ⟨-, ts₁, ws₁, ps₁, -, hwf, -⟩ := h.start image hthread₁ hready₁ hstart₁
    rw [hstart₁, hstart₂]
    refine .some ⟨?_, rfl, ts₁, ws₁, ps₁, hwf⟩
    have hupdate := hwaits.update s.sync.wait blocks.thread.addr
    rcases hstate with hrest | hblocks
    · refine ⟨∅, ⟨_, _, rfl⟩, hnow, hupdate, fun u _ => ?_, by simp, by simp, by simp⟩
      by_cases hu : u = blocks.thread.addr
      · have hwritten := congrArg some (start_congr image stack hrest hargs call.entry
          (call.nice % 2 ^ 32) (s.idallo + 1) s.sync.now)
        exact (hlookup₂ u).trans ((if_pos hu).trans (hwritten.symm.trans
          ((hlookup₁ u).trans (if_pos hu)).symm))
      · exact (hlookup₂ u).trans ((if_neg hu).trans ((hlookup₁ u).trans (if_neg hu)).symm)
    · refine ⟨{blocks.thread.addr}, ⟨_, _, rfl⟩, hnow, hupdate, fun u hu => ?_, fun u hu => ?_,
        fun u hu => ?_, fun u hu => ?_⟩
      · exact (hlookup₂ u).trans ((if_neg hu).trans ((hlookup₁ u).trans (if_neg hu)).symm)
      · have hsome₁ := congrArg Option.isSome ((hlookup₁ u).trans (if_pos hu))
        have hsome₂ := congrArg Option.isSome ((hlookup₂ u).trans (if_pos hu))
        exact ⟨hsome₁, hsome₂⟩
      · intro now hlt
        cases hu
        simp only [StartBlocks.holding, Function.update_self]
        exact hblocks now hlt
      · cases hu
        exact h.current_ne_fresh hthread
  · rw [Scheduler.start, Scheduler.start, if_neg hid, if_neg hid]
    exact .none

/-! ### The runs -/

theorem iterate_tick (sync : Sync) (wait : Addr → Option Waiting) (n : Nat) :
    Sync.tick^[n] { sync with wait } = { Sync.tick^[n] sync with wait } := by
  induction n generalizing sync with
  | zero => rfl
  | succ n ih => exact ih sync.tick

theorem iterate_tick_wait (sync : Sync) (n : Nat) : (Sync.tick^[n] sync).wait = sync.wait := by
  induction n generalizing sync with
  | zero => rfl
  | succ n ih => exact ih sync.tick

theorem iterate_tick_now_lt (sync : Sync) (h : sync.now < 2 ^ 64) (n : Nat) :
    (Sync.tick^[n] sync).now < 2 ^ 64 := by
  induction n generalizing sync with
  | zero => exact h
  | succ n ih => exact ih sync.tick (wrap64_lt _)

theorem WellFormed.interrupt (h : s.WellFormed ts ws ps) (call : SwitchCall) :
    (s.interrupt call).WellFormed ts ws ps :=
  ⟨h.threads, h.waiting, h.pool, h.idallo, h.ids, h.keys, h.known, h.distinct⟩

theorem Twins.interrupt {asleep : Set Addr} {s₁ s₂ : Scheduler} (h : Twins asleep s₁ s₂)
    (call : SwitchCall) : Twins asleep (s₁.interrupt call) (s₂.interrupt call) := by
  have hwait₁ := iterate_tick_wait s₁.sync call.ticks
  have hwait₂ := iterate_tick_wait s₂.sync call.ticks
  refine ⟨?_, iterate_tick_now_lt _ h.now _, ?_, h.same, h.known, ?_, h.stopped⟩
  · obtain ⟨threads, wait, rfl⟩ := h.alike
    refine ⟨threads, wait, ?_⟩
    simp only [Scheduler.interrupt, alter, iterate_tick]
  · simp only [Scheduler.interrupt, hwait₁, hwait₂]
    exact h.waits
  · simp only [Scheduler.interrupt, hwait₁]
    exact h.waiting

theorem WellFormed.switched (h : s.WellFormed ts ws ps) {new : Fresh Addr} {s' : Scheduler} {r : Nat}
    (hnew : s.threadsWaiting.node new.addr = none) (hrun : s.switch image new = some (s', r)) :
    ∃ ts ws ps, s'.WellFormed ts ws ps := by
  obtain ⟨s'', r', p, hrun', -, hframe, houtcome⟩ := h.switch image hnew
  cases hrun.symm.trans hrun'
  rcases houtcome with ⟨-, hkept⟩ | ⟨-, ws', hswitched⟩
  · exact ⟨_, _, _, hkept.wellFormed h hframe⟩
  · exact ⟨_, _, _, hswitched.wellFormed h hframe⟩

/-- Twins go through the same run. -/
theorem Twins.trace_eq {asleep : Set Addr} {s₁ s₂ : Scheduler} (h : Twins asleep s₁ s₂)
    (hwf : s₁.WellFormed ts ws ps) (calls : List SwitchCall) :
    s₂.trace image calls = s₁.trace image calls := by
  induction calls generalizing s₁ s₂ ts ws ps with
  | nil => rfl
  | cons call calls ih =>
    have hwaiting : s₂.threadsWaiting = s₁.threadsWaiting := by
      obtain ⟨threads, wait, rfl⟩ := h.alike
      rfl
    rw [trace, trace, hwaiting]
    split
    · next hnew =>
      have hswitch := (h.interrupt call).switch image (hwf.interrupt call) hnew
      apply bind_eq_of_rel hswitch
      intro a b hrun h
      obtain ⟨htwins, -⟩ := h
      obtain ⟨ts', ws', ps', hwf'⟩ := (hwf.interrupt call).switched hnew hrun
      have hloaded : b.1.lastState = a.1.lastState := by
        obtain ⟨threads, wait, heq⟩ := htwins.alike
        rw [heq]
        rfl
      simp only [ih htwins hwf', htwins.current_eq, hloaded]
    · rfl

theorem outcome_eq (h : s.WellFormed ts ws ps) (hnow : s.sync.now < 2 ^ 64)
    (hthread : s.threads.node blocks.thread.addr = none)
    (hready : s.threadsWaiting.node blocks.ready.addr = none) (hargs : call.args ≠ none)
    (hwaits : SameWaits x.wait y.wait)
    (hstate : SameRest x.thread.state y.thread.state ∨ Blocks x.wait) (calls : List SwitchCall) :
    outcome image s call (blocks.holding x) calls = outcome image s call (blocks.holding y) calls := by
  have hstart := start_twins image h hnow hthread hready hargs hwaits hstate
  refine (bind_eq_of_rel hstart fun a b _ h => ?_).symm
  obtain ⟨⟨asleep, htwins⟩, hb, ts', ws', ps', hwf⟩ := h
  simp only [htwins.trace_eq hwf, hb]

/-! ### The first switch to the new thread -/

/-- Nothing runs, and one thread is queued: it runs unless it is blocked. -/
theorem WellFormed.first_switch (image : Image) (new : Fresh Addr) {node key t : Nat} {th : Thread}
    (h : s.WellFormed ts [⟨node, key, t⟩] ps) (hcurrent : s.current = none)
    (hth : s.thread t = some th) (hsleep : th.sleepUntil = 0)
    (hnew : s.threadsWaiting.node new.addr = none) :
    ∃ s' r, s.switch image new = some (s', r) ∧
      (s.sync.isWaiting t = true → s'.current = none) ∧
      (s.sync.isWaiting t = false → s'.current = some t ∧ s'.lastState = th.state) := by
  obtain ⟨s', r, p, hrun, hpriority, -, houtcome⟩ := h.switch image hnew
  refine ⟨s', r, hrun, ?_⟩
  have hready : s.Ready t ↔ s.sync.isWaiting t = false := by
    simp [Ready, ready, hth, hsleep]
  rcases houtcome with ⟨-, hkept⟩ | ⟨-, ws', hswitched⟩
  · obtain ⟨e, he, hlt⟩ := hkept.behind
    have hkey := h.keys e (h.firstEntry_mem he).1
    rw [priority, hcurrent] at hpriority
    cases hpriority
    omega
  · refine ⟨fun hwaiting => ?_, fun hwaiting => ?_⟩
    · have hfirst : s.firstEntry [⟨node, key, t⟩] = none := by
        simp [firstEntry, hready, hwaiting]
      rw [hswitched.current, hfirst, Option.map_none]
    · have hfirst : s.firstEntry [⟨node, key, t⟩] = some ⟨node, key, t⟩ := by
        simp [firstEntry, hready, hwaiting]
      refine ⟨?_, hswitched.loaded _ th hfirst hth⟩
      rw [hswitched.current, hfirst, Option.map_some]

def zeroState : ThreadState := ⟨0, 0, 0, 0, 0, 0, 0, 0, 0, 0, 0, 0, 0, 0, 0, 0, 0, 0, 0, 0⟩

/-- A scheduler without threads. -/
def empty (now : Nat) : Scheduler where
  sync := ⟨now, fun _ => none, fun _ => ⟨0, []⟩, fun _ => ⟨[]⟩⟩
  current := none
  idallo := 0
  threads := Tree.create
  threadsWaiting := Tree.create
  stackPool := Tree.create
  prevTime := 0
  tickIdling := 0
  tickUserspace := 0
  tickKernel := 0
  lastState := zeroState
  kernelMappingBottom := 2 ^ 40

theorem empty_wellFormed (now : Nat) : (empty now).WellFormed [] [] [] :=
  ⟨Tree.lists_create, Tree.lists_create, Tree.lists_create, by simp [empty], by simp, by simp,
    by simp [placed, empty], by simp [placed, empty]⟩

def someImage : Image := ⟨0x1000, 0x2000⟩

def someCall : StartCall := ⟨0x3000, some ⟨1, 2, 3, 4, 5, 6⟩, 0⟩

def someBlocks : StartBlocks where
  thread := ⟨0x4000, ⟨0, 0, 0, 0, zeroState, 0⟩, 0⟩
  wait := ⟨none, 0, 0, .condiction⟩
  ready := ⟨0x5000, 0, 0⟩
  byteAtZero := false
  byteAtZero' := false

theorem StartQueued.eq_singleton {key t : Nat} (h : StartQueued key t [] ws) :
    ∃ node, ws = [⟨node, key, t⟩] := by
  rcases h with ⟨-, node, hperm⟩ | ⟨e, rest, -, hperm, -⟩
  · exact ⟨node, List.perm_singleton.mp hperm⟩
  · exact absurd hperm.symm (List.cons_ne_nil _ _ ∘ List.perm_nil.mp)

/-- One start and one switch show what is in the blocks. -/
theorem exists_outcome (now : Nat) : ∃ (stack : Nat) (new : Fresh Addr), ∀ x : Stale,
    outcome someImage (empty now) someCall (someBlocks.holding x) [⟨0, zeroState, new⟩] =
      if Helos.isWaiting now (some x.wait) then some ([none], none)
      else some ([some 0x4000], some (x.thread.start someImage someCall.entry someCall.args
        (someCall.nice % 2 ^ 32) 1 now stack).state) := by
  have h := empty_wellFormed now
  have hready : (empty now).threadsWaiting.node someBlocks.ready.addr = none := rfl
  obtain ⟨stackPool, bottom, stack, page, ps', hstack, -, -⟩ := takeStack_spec h.pool
  obtain ⟨queue₀, node, isNew, queue, ws', hqueue, hstore, hlists, hqueued, -⟩ :=
    queueStarted h.waiting ((empty now).startKey someCall) someBlocks.byteAtZero' hready
      someBlocks.thread.addr
  obtain ⟨queued, rfl⟩ := hqueued.eq_singleton
  have hfresh : queue.node (queued + 1) = none := by
    apply hlists.node_eq_none
    simp
  refine ⟨stack, ⟨queued + 1, 0, 0⟩, fun x => ?_⟩
  have hthread : (empty now).threads.node (someBlocks.holding x).thread.addr = none := rfl
  obtain ⟨threads, hstart, hlookup⟩ :=
    h.start_eq someImage (someBlocks.holding x) (show 0 + 1 < 2 ^ 31 by decide) hthread hstack
      hqueue hstore
  have hready' : (empty now).threadsWaiting.node (someBlocks.holding x).ready.addr = none := rfl
  obtain ⟨-, ts', ws'', ps'', stack', hwf, hstarted⟩ := h.start someImage hthread hready' hstart
  obtain ⟨queued', rfl⟩ := hstarted.queued.eq_singleton
  obtain ⟨s', r, hswitch, hblocked, hfree⟩ :=
    (hwf.interrupt ⟨0, zeroState, ⟨queued + 1, 0, 0⟩⟩).first_switch someImage ⟨queued + 1, 0, 0⟩ rfl
      ((hlookup _).trans (if_pos rfl)) rfl hfresh
  have hrecord : Function.update (empty now).sync.wait (someBlocks.holding x).thread.addr
      (some (someBlocks.holding x).wait) (someBlocks.holding x).thread.addr = some x.wait :=
    Function.update_self _ _ _
  simp only [outcome, hstart, trace, hfresh, hswitch, Option.bind_eq_bind, Option.bind_some, if_true]
  cases hwaiting : Helos.isWaiting now (some x.wait) with
  | true =>
    have hcurrent : s'.current = none :=
      hblocked ((congrArg (Helos.isWaiting now) hrecord).trans hwaiting)
    simp [hcurrent]
  | false =>
    obtain ⟨hcurrent, hloaded⟩ :=
      hfree ((congrArg (Helos.isWaiting now) hrecord).trans hwaiting)
    simp [hcurrent, hloaded, StartBlocks.holding, someBlocks, empty]

/-- **What the blocks may hold.** A start does not depend on them exactly when they agree on the
registers it does not write and on when the record blocks, or the record blocks for good. -/
theorem independent_iff (x y : Stale) :
    Independent x y ↔
      SameWaits x.wait y.wait ∧ (SameRest x.thread.state y.thread.state ∨ Blocks x.wait) := by
  constructor
  · intro h
    have hequal : ∀ now < 2 ^ 64,
        Helos.isWaiting now (some x.wait) = Helos.isWaiting now (some y.wait) ∧
          (Helos.isWaiting now (some x.wait) = false →
            SameRest x.thread.state y.thread.state) := by
      intro now hnow
      obtain ⟨stack, new, houtcome⟩ := exists_outcome now
      have heq := h someImage (empty now) [] [] [] someCall someBlocks [⟨0, zeroState, new⟩]
        (empty_wellFormed now) hnow rfl rfl (by simp [someCall])
      rw [houtcome x, houtcome y] at heq
      cases hx : Helos.isWaiting now (some x.wait) with
      | true =>
        cases hy : Helos.isWaiting now (some y.wait) with
        | true => exact ⟨rfl, by simp⟩
        | false => simp [hx, hy] at heq
      | false =>
        cases hy : Helos.isWaiting now (some y.wait) with
        | true => simp [hx, hy] at heq
        | false =>
          simp only [hx, hy, Bool.false_eq_true, if_false, Option.some.injEq, Prod.mk.injEq,
            true_and] at heq
          exact ⟨rfl, fun _ => sameRest_of_start heq⟩
    refine ⟨fun now hnow => (hequal now hnow).1, ?_⟩
    by_cases hblocks : Blocks x.wait
    · exact .inr hblocks
    · obtain ⟨now, hnow, hfree⟩ : ∃ now < 2 ^ 64, Helos.isWaiting now (some x.wait) ≠ true := by
        simpa [Blocks] using hblocks
      exact .inl ((hequal now hnow).2 (by simpa using hfree))
  · rintro ⟨hwaits, hstate⟩ image s ts ws ps call blocks calls h hnow hthread hready hargs
    exact outcome_eq h hnow hthread hready hargs hwaits hstate calls

/-- A block in which an earlier thread was stopped with these flags. -/
def recycled (rflags : Nat) : Stale where
  thread := ⟨7, 80, 1, 0, { zeroState with rflags }, 0x9000⟩
  wait := ⟨none, 0, 0, .condiction⟩

def booted : Option Scheduler :=
  init ⟨0x100, ⟨0, 0, 0, 0, zeroState, 0⟩, 0⟩ ⟨none, 0, 0, .condiction⟩ false zeroState (2 ^ 40)

/-- After `smp_thread_Init` a thread is started with arguments, and the clock interrupts. -/
def firstFlags (x : Stale) : Option Nat := do
  let s ← booted
  let (_, loaded) ← outcome someImage s someCall (someBlocks.holding x)
    [⟨1, zeroState, ⟨0x6000, 0, 0⟩⟩]
  loaded.map ThreadState.rflags

theorem stale_rflags_loaded :
    firstFlags (recycled 0x202) = some 0x202 ∧ firstFlags (recycled 0x2) = some 0x2 ∧
      ¬ Independent (recycled 0x202) (recycled 0x2) := by
  have hfirst : firstFlags (recycled 0x202) = some 0x202 := by decide
  have hsecond : firstFlags (recycled 0x2) = some 0x2 := by decide
  refine ⟨hfirst, hsecond, fun h => ?_⟩
  have hbooted : (booted.all fun s => decide (s.sync.now < 2 ^ 64) &&
      (s.threads.node 0x4000).isNone && (s.threadsWaiting.node 0x5000).isNone) = true := by
    decide
  obtain ⟨s, hs⟩ : ∃ s, booted = some s := Option.isSome_iff_exists.mp (by decide)
  rw [hs, Option.all_some, Bool.and_eq_true, Bool.and_eq_true, decide_eq_true_eq,
    Option.isNone_iff_eq_none, Option.isNone_iff_eq_none] at hbooted
  obtain ⟨e, hwf, -, -⟩ := wellFormed_init hs
  have heq := h someImage s [e] [] [] someCall someBlocks [⟨1, zeroState, ⟨0x6000, 0, 0⟩⟩] hwf
    hbooted.1.1 hbooted.1.2 hbooted.2 (by simp [someCall])
  have hsame : firstFlags (recycled 0x202) = firstFlags (recycled 0x2) := by
    rw [firstFlags, firstFlags, hs]
    exact congrArg (Option.bind · fun o => o.2.map ThreadState.rflags) heq
  rw [hfirst, hsecond] at hsame
  cases hsame

end Scheduler

end Helos
