import Helos.Smp.Machine

/-!
# What holds after any run

The tables stay well formed, the history agrees with them, and every queued thread has its last
context saved. With it the contexts are safe: a thread that `__smp_Switch` installs goes on just
where it was stopped.
-/

namespace Helos.Machine

open Scheduler
open Helos.Tree (Fresh)

structure Sound (m : Machine) (ts : List (Entry Thread)) (ws : List (Entry Addr))
    (ps : List (Entry Unit)) : Prop where
  wellFormed : m.sched.WellFormed ts ws ps
  live : m.live.Perm (ts.map Entry.node)
  context : ∀ e ∈ ts, e.node ∈ ws.map Entry.data → e.data.state = m.context e.node
  stackTops : ∀ k ∈ m.stackTops, k.2 < 2 ^ 64 ∧ ∃ e ∈ ts, e.node = k.1 ∧ e.data.stackframe = k.2
  distinct : (m.stackTops.map Prod.fst).Nodup
  pool : ∀ e ∈ ps, e.key < 2 ^ 64

section Step

variable {image : Image} {m m' : Machine} {ts ts' : List (Entry Thread)}
  {ws ws' : List (Entry Addr)} {ps ps' : List (Entry Unit)}

theorem Sound.quiet (h : Sound m ts ws ps) (hstep : QuietStep m m' ts ts' ws ps) :
    Sound m' ts' ws ps := by
  obtain ⟨g, rfl, hg⟩ := hstep.same
  have hnodes : (ts.map g).map Entry.node = ts.map Entry.node := by
    rw [List.map_map]
    exact List.map_congr_left fun e _ => (hg e).1
  refine ⟨hstep.wellFormed, ?_, fun e he hqueued => ?_, fun k hk => ?_, ?_, h.pool⟩
  · rw [hstep.live, hnodes]
    exact h.live
  · obtain ⟨x, hx, rfl⟩ := List.mem_map.mp he
    obtain ⟨hnode, hstate, -⟩ := hg x
    rw [hnode] at hqueued ⊢
    rw [hstate, hstep.context]
    exact h.context x hx hqueued
  · rw [hstep.stackTops] at hk
    obtain ⟨hlt, e, he, hnode, hstack⟩ := h.stackTops k hk
    obtain ⟨hnode', -, hstack'⟩ := hg e
    exact ⟨hlt, g e, List.mem_map_of_mem he, hnode'.trans hnode, hstack'.trans hstack⟩
  · rw [hstep.stackTops]
    exact h.distinct

theorem stopped_none {regs : ThreadState} (h : m.sched.current = none) :
    m.stopped regs = m.context := by
  unfold stopped
  rw [h]

theorem stopped_some {regs : ThreadState} {t : Addr} (h : m.sched.current = some t) :
    m.stopped regs = Function.update m.context t regs := by
  unfold stopped
  rw [h]

theorem mem_savedThreads_stack {s : Scheduler} {e : Entry Thread} (he : e ∈ ts) :
    ∃ e' ∈ s.savedThreads ts, e'.node = e.node ∧ e'.data.stackframe = e.data.stackframe := by
  unfold savedThreads
  cases s.current with
  | none => exact ⟨e, he, rfl, rfl⟩
  | some t =>
    have hkept := Entry.data_modify_kept (g := Thread.stackframe)
      (f := fun th => { th with lastTick := s.sync.now, state := s.lastState }) (fun _ => rfl) t e
    exact ⟨_, List.mem_map_of_mem he, Entry.node_modify t _ e, hkept⟩

theorem Sound.switched (h : Sound m ts ws ps) {regs : ThreadState} {p : Nat}
    (hframe : SwitchFrame (m.interrupted regs) m'.sched)
    (hs : Switched image (m.interrupted regs) m'.sched ts ws ws' p)
    (hlive : m'.live = m.live) (hstackTops : m'.stackTops = m.stackTops)
    (hcontext : m'.context = m.stopped regs) :
    Sound m' ((m.interrupted regs).savedThreads ts) ws' ps := by
  refine ⟨hs.wellFormed (interrupted_wellFormed h.wellFormed regs) hframe, ?_,
    fun e he hqueued => ?_, fun k hk => ?_, ?_, h.pool⟩
  · rw [hlive, map_node_savedThreads]
    exact h.live
  · have hplaced : e.node ∈ (m.interrupted regs).placed ws :=
      hs.placed.subset (List.mem_append_right _ hqueued)
    rw [hcontext]
    have hcurrent : (m.interrupted regs).current = m.sched.current := rfl
    unfold savedThreads at he
    unfold placed at hplaced
    rw [hcurrent] at he hplaced
    cases hc : m.sched.current with
    | none =>
      simp only [hc, Option.toList_none, List.nil_append] at he hplaced
      rw [stopped_none hc]
      exact h.context e he hplaced
    | some t =>
      simp only [hc] at he hplaced
      rw [stopped_some hc]
      obtain ⟨x, hx, rfl⟩ := List.mem_map.mp he
      by_cases hxt : x.node = t
      · rw [Entry.data_modify_self hxt, Entry.node_modify, hxt, Function.update_self]
        rfl
      · rw [Entry.modify_of_ne hxt] at hplaced ⊢
        rw [Function.update_of_ne hxt]
        exact h.context x hx ((List.mem_cons.mp hplaced).resolve_left hxt)
  · rw [hstackTops] at hk
    obtain ⟨hlt, e, he, hnode, hstack⟩ := h.stackTops k hk
    obtain ⟨e', he', hnode', hstack'⟩ := mem_savedThreads_stack (s := m.interrupted regs) he
    exact ⟨hlt, e', he', hnode'.trans hnode, hstack'.trans hstack⟩
  · rw [hstackTops]
    exact h.distinct

theorem Sound.kept (h : Sound m ts ws ps) {regs : ThreadState} {p : Nat}
    (hstep : SwitchStep image m m' regs ts ws p) (hkept : Kept (m.interrupted regs) m'.sched ws p)
    (hcontext : m'.context = m.context) : Sound m' ts ws ps := by
  refine ⟨hkept.wellFormed (interrupted_wellFormed h.wellFormed regs) hstep.frame, ?_, ?_, ?_, ?_,
    h.pool⟩
  · rw [hstep.live]
    exact h.live
  · rw [hcontext]
    exact h.context
  · rw [hstep.stackTops]
    exact h.stackTops
  · rw [hstep.stackTops]
    exact h.distinct

theorem Sound.switch (h : Sound m ts ws ps) {regs : ThreadState} {p : Nat}
    (hstep : SwitchStep image m m' regs ts ws p) : ∃ ts' ws', Sound m' ts' ws' ps := by
  rcases hstep.outcome with ⟨hkept, hcontext⟩ | ⟨ws', hs, hcontext⟩
  · exact ⟨ts, ws, h.kept hstep hkept hcontext⟩
  · exact ⟨_, ws', h.switched hstep.frame hs hstep.live hstep.stackTops hcontext⟩

theorem stackTaken_lt {bottom bottom' stack : Nat} {page : Option Nat}
    (h : StackTaken bottom bottom' ps ps' stack page) :
    stack < 2 ^ 64 ∧ ∀ e ∈ ps', e ∈ ps := by
  rcases h with ⟨-, hnil, -, -, hstack⟩ | ⟨e, -, hperm, -, -, hstack⟩
  · rw [hstack, hnil]
    exact ⟨wrap64_lt _, fun e he => absurd he List.not_mem_nil⟩
  · rw [hstack]
    exact ⟨wrap64_lt _, fun x hx => hperm.symm.subset (List.mem_cons_of_mem e hx)⟩

theorem Sound.start (h : Sound m ts ws ps) {call : StartCall} {blocks : StartBlocks}
    {page : Option Nat} {stack : Nat}
    (hstep : StartStep image m m' call blocks page stack ts ts' ws ws' ps ps') :
    Sound m' ts' ws' ps' := by
  have hthreads := hstep.started.threads
  obtain ⟨hlt, hpool⟩ := stackTaken_lt hstep.started.stack
  refine ⟨hstep.wellFormed, ?_, fun e he hqueued => ?_, fun k hk => ?_, ?_,
    fun e he => h.pool e (hpool e he)⟩
  · rw [hstep.live]
    exact (h.live.cons _).trans (hthreads.map Entry.node).symm
  · rw [hstep.context]
    rcases List.mem_cons.mp (hthreads.subset he) with rfl | he
    · rw [Function.update_self]
    · rw [Function.update_of_ne (hstep.fresh e he)]
      obtain ⟨lost, rest, hws, hws'⟩ := hstep.started.queued.data
      refine h.context e he (hws.symm.subset (List.mem_append_right lost ?_))
      exact (List.mem_cons.mp (hws'.subset hqueued)).resolve_left (hstep.fresh e he)
  · rw [hstep.stackTops] at hk
    rcases List.mem_cons.mp hk with rfl | hk
    · exact ⟨hlt, _, hthreads.symm.subset List.mem_cons_self, rfl, rfl⟩
    · obtain ⟨hk', e, he, hnode, hstack⟩ := h.stackTops k hk
      exact ⟨hk', e, hthreads.symm.subset (List.mem_cons_of_mem _ he), hnode, hstack⟩
  · rw [hstep.stackTops, List.map_cons]
    refine List.nodup_cons.mpr ⟨fun hmem => ?_, h.distinct⟩
    obtain ⟨k, hk, hfst⟩ := List.mem_map.mp hmem
    obtain ⟨-, e, he, hnode, -⟩ := h.stackTops k hk
    exact hstep.fresh e he (hnode.trans hfst)

theorem Sound.cleanup (h : Sound m ts ws ps) {e : Entry Thread}
    (hstep : CleanupStep m m' e ts ts' ws ps ps') : Sound m' ts' ws ps' := by
  have hthreads := hstep.threads
  have he : e ∈ ts := hthreads.symm.subset List.mem_cons_self
  refine ⟨hstep.wellFormed, ?_, fun x hx hqueued => ?_, fun k hk => ?_, ?_, fun x hx => ?_⟩
  · rw [hstep.live]
    have hperm := (h.live.trans (hthreads.map Entry.node)).erase e.node
    simpa using hperm
  · rw [hstep.context]
    exact h.context x (hthreads.symm.subset (List.mem_cons_of_mem e hx)) hqueued
  · rw [hstep.stackTops] at hk
    obtain ⟨hk, hne⟩ := List.mem_filter.mp hk
    obtain ⟨hlt, x, hx, hnode, hstack⟩ := h.stackTops k hk
    refine ⟨hlt, x, ?_, hnode, hstack⟩
    rcases List.mem_cons.mp (hthreads.subset hx) with rfl | hx'
    · simp [hnode] at hne
    · exact hx'
  · rw [hstep.stackTops]
    exact h.distinct.sublist (List.filter_sublist.map Prod.fst)
  · rcases hstep.pool x hx with hkey | ⟨y, hy, hkey⟩
    · -- the thread that exits was given its stack by `smp_thread_Start`
      obtain ⟨k, hk, hfst⟩ := List.mem_map.mp hstep.started
      obtain ⟨hlt, y, hy, hnode, hstack⟩ := h.stackTops k hk
      obtain rfl := h.wellFormed.threads.eq_of_node hy he (hnode.trans hfst)
      rw [hkey, hstack]
      exact hlt
    · exact hkey ▸ h.pool y hy

/-- **Every step keeps the scheduler sound.** -/
theorem Sound.step (h : Sound m ts ws ps) {event : Event}
    (hstep : m.step image event = some m') : ∃ ts' ws' ps', Sound m' ts' ws' ps' := by
  cases event with
  | switch regs new =>
    obtain ⟨p, hswitch⟩ := step_switch h.wellFormed hstep
    obtain ⟨ts', ws', h'⟩ := h.switch hswitch
    exact ⟨ts', ws', ps, h'⟩
  | start call blocks =>
    obtain ⟨page, stack, ts', ws', ps', hstart⟩ := step_start h.wellFormed hstep
    exact ⟨ts', ws', ps', h.start hstart⟩
  | cleanup pool zero =>
    obtain ⟨e, ts', ps', hcleanup⟩ := step_cleanup h.wellFormed hstep
    exact ⟨ts', ws, ps', h.cleanup hcleanup⟩
  | _ =>
    obtain ⟨ts', hquiet⟩ := step_quiet h.wellFormed hstep trivial
    exact ⟨ts', ws, ps, h.quiet hquiet⟩

end Step

theorem sound_boot {block : Fresh Thread} {waitBlock : Waiting} {zero : Bool}
    {lastState : ThreadState} {bottom : Nat} {m : Machine}
    (hboot : boot block waitBlock zero lastState bottom = some m) :
    ∃ e, Sound m [e] [] [] ∧ m.sched.current = some e.node ∧
      m.sched.kernelMappingBottom = bottom ∧ m.stackTops = [] ∧ m.pages = [] := by
  obtain ⟨sched, hinit, hm⟩ := Option.bind_eq_some_iff.mp hboot
  obtain rfl := Option.some.inj hm
  obtain ⟨e, hwf, hcurrent, hbottom⟩ := wellFormed_init hinit
  refine ⟨e, ⟨hwf, ?_, by simp, by simp, List.nodup_nil, by simp⟩, hcurrent, hbottom, rfl, rfl⟩
  simp [hcurrent]

def Reachable (image : Image) (m : Machine) : Prop :=
  ∃ block waitBlock zero lastState bottom events m₀,
    boot block waitBlock zero lastState bottom = some m₀ ∧
      Run.exec (step image) m₀ events = some m

theorem Reachable.sound {image : Image} {m : Machine} (h : Reachable image m) :
    ∃ ts ws ps, Sound m ts ws ps := by
  obtain ⟨block, waitBlock, zero, lastState, bottom, events, m₀, hboot, hrun⟩ := h
  obtain ⟨e, hsound, -⟩ := sound_boot hboot
  refine Run.exec_invariant (I := fun m => ∃ ts ws ps, Sound m ts ws ps)
    (fun m event m' hm hstep => ?_) ⟨[e], [], [], hsound⟩ hrun
  obtain ⟨ts, ws, ps, hm⟩ := hm
  exact hm.step hstep

/-! ### A machine to run -/

def blankState : ThreadState := ⟨0, 0, 0, 0, 0, 0, 0, 0, 0, 0, 0, 0, 0, 0, 0, 0, 0, 0, 0, 0⟩

def blankThread : Thread := ⟨0, 0, 0, 0, blankState, 0⟩

def blankWait : Waiting := ⟨none, 0, 0, .mutex⟩

def blankImage : Image := ⟨0x1000, 0x2000⟩

def newMachine : Option Machine :=
  boot ⟨100, blankThread, 7⟩ blankWait true blankState kernelMiscMapping

def startAt (nice thread ready : Nat) : Event :=
  .start ⟨0, none, nice⟩
    ⟨⟨thread, blankThread, thread⟩, blankWait, ⟨ready, 0, ready⟩, true, true⟩

def newRun (events : List Event) : Option Machine :=
  newMachine.bind fun m => Run.exec (step blankImage) m events

theorem newRun_reachable {events : List Event} {m : Machine} (h : newRun events = some m) :
    Reachable blankImage m := by
  obtain ⟨m₀, hboot, hrun⟩ := Option.bind_eq_some_iff.mp h
  exact ⟨_, _, _, _, _, events, m₀, hboot, hrun⟩

end Helos.Machine
