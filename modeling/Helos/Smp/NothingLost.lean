import Helos.Smp.Invariant

/-!
# No thread is lost

A thread that was started and has not exited is current or queued, and only one of them.
`__smp_Switch` looks for a free key when it queues a thread. `smp_thread_Start` does not: when the
key of the new thread is in use, `tree_Insert` returns the entry of another thread, whose pointer is
then overwritten. That thread is lost at once, so that no thread is lost in a run exactly when each
start finds its key free.
-/

namespace Helos

open Helos.Tree (Fresh)

def Scheduler.QueuedAt (s : Scheduler) (t a : Addr) : Prop :=
  ∃ n, s.threadsWaiting.node a = some n ∧ n.data = t

namespace Machine

open Scheduler

/-- Every live thread is current, or is in just one node of the queue. -/
def NothingLost (m : Machine) : Prop :=
  ∀ t ∈ m.live,
    (m.sched.current = some t ∧ ∀ a, ¬ m.sched.QueuedAt t a) ∨
      (m.sched.current ≠ some t ∧ ∃! a, m.sched.QueuedAt t a)

/-- No thread is queued under the key of the one to be started. -/
def StartKeyFree (m : Machine) : Event → Prop
  | .start call _ => m.sched.threadsWaiting.findNode (m.sched.startKey call) = some none
  | _ => True

/-- The current thread and the queued ones are all there are. -/
structure Complete (m : Machine) (ts : List (Entry Thread)) (ws : List (Entry Addr))
    (ps : List (Entry Unit)) : Prop where
  sound : Sound m ts ws ps
  placed : (m.sched.placed ws).Perm (ts.map Entry.node)

section Step

variable {image : Image} {m m' : Machine} {ts : List (Entry Thread)}
  {ws : List (Entry Addr)} {ps : List (Entry Unit)}

theorem Sound.queuedAt_iff (h : Sound m ts ws ps) {t a : Addr} :
    m.sched.QueuedAt t a ↔ ∃ e ∈ ws, e.node = a ∧ e.data = t := by
  constructor
  · intro hq
    obtain ⟨n, hn, hdata⟩ := hq
    obtain ⟨e, he, hnode, -, hedata⟩ := h.wellFormed.waiting.exists_entry hn
    exact ⟨e, he, hnode, hedata.trans hdata⟩
  · intro hq
    obtain ⟨e, he, rfl, rfl⟩ := hq
    obtain ⟨n, hn, -, hdata⟩ := h.wellFormed.waiting.read he
    exact ⟨n, hn, hdata⟩

theorem Complete.nothingLost (h : Complete m ts ws ps) : m.NothingLost := by
  intro t ht
  have hwf := h.sound.wellFormed
  have hplaced : t ∈ m.sched.placed ws := h.placed.symm.subset (h.sound.live.subset ht)
  have hnodup : (ws.map Entry.data).Nodup := (List.nodup_append.mp hwf.distinct).2.1
  by_cases hcurrent : m.sched.current = some t
  · refine .inl ⟨hcurrent, fun a ha => ?_⟩
    obtain ⟨e, he, -, rfl⟩ := h.sound.queuedAt_iff.mp ha
    exact hwf.ne_current he hcurrent
  · refine .inr ⟨hcurrent, ?_⟩
    have hqueued : t ∈ ws.map Entry.data := by
      rcases List.mem_append.mp hplaced with hmem | hmem
      · exact absurd (Option.mem_toList.mp hmem) hcurrent
      · exact hmem
    obtain ⟨e, he, rfl⟩ := List.mem_map.mp hqueued
    refine ⟨e.node, h.sound.queuedAt_iff.mpr ⟨e, he, rfl, rfl⟩, fun a ha => ?_⟩
    obtain ⟨x, hx, rfl, hdata⟩ := h.sound.queuedAt_iff.mp ha
    rw [List.inj_on_of_nodup_map hnodup hx he hdata]

theorem startQueued_of_free {key : Nat} {t : Addr} {ws' : List (Entry Addr)}
    (h : StartQueued key t ws ws') {tree : Tree Addr} (htree : tree.Lists ws)
    (hfree : tree.findNode key = some none) : ∃ node, ws'.Perm (⟨node, key, t⟩ :: ws) := by
  rcases h with ⟨-, hnode⟩ | ⟨e, rest, rfl, hws, -⟩
  · exact hnode
  · rw [htree.findNode (hws.symm.subset List.mem_cons_self)] at hfree
    cases hfree

theorem Complete.step (h : Complete m ts ws ps) {event : Event}
    (hstep : m.step image event = some m') (hfree : m.StartKeyFree event) :
    ∃ ts' ws' ps', Complete m' ts' ws' ps' := by
  have hwf := h.sound.wellFormed
  cases event with
  | switch regs new =>
    obtain ⟨p, hswitch⟩ := step_switch hwf hstep
    rcases hswitch.outcome with ⟨hkept, hcontext⟩ | ⟨ws', hs, hcontext⟩
    · refine ⟨ts, ws, ps, h.sound.kept hswitch hkept hcontext, ?_⟩
      rw [Scheduler.placed_of_current hkept.current]
      exact h.placed
    · refine ⟨_, ws', ps,
        h.sound.switched hswitch.frame hs hswitch.live hswitch.stackTops hcontext, ?_⟩
      rw [map_node_savedThreads]
      exact hs.placed.trans h.placed
  | start call blocks =>
    obtain ⟨page, stack, ts', ws', ps', hstart⟩ := step_start hwf hstep
    refine ⟨ts', ws', ps', h.sound.start hstart, ?_⟩
    obtain ⟨node, hws'⟩ := startQueued_of_free hstart.started.queued hwf.waiting hfree
    have hthreads := (hstart.started.threads.map Entry.node).symm
    rw [Scheduler.placed_of_current hstart.started.current]
    have hmiddle : (m.sched.placed ws').Perm (blocks.thread.addr :: m.sched.placed ws) :=
      ((hws'.map Entry.data).append_left m.sched.current.toList).trans List.perm_middle
    exact hmiddle.trans ((h.placed.cons _).trans hthreads)
  | cleanup pool zero =>
    obtain ⟨e, ts', ps', hcleanup⟩ := step_cleanup hwf hstep
    refine ⟨ts', ws, ps', h.sound.cleanup hcleanup, ?_⟩
    have hplaced : m.sched.placed ws = e.node :: ws.map Entry.data := by
      unfold Scheduler.placed
      rw [hcleanup.running]
      rfl
    have hplaced' : m'.sched.placed ws = ws.map Entry.data := by
      unfold Scheduler.placed
      rw [hcleanup.current]
      rfl
    have hperm := h.placed.trans (hcleanup.threads.map Entry.node)
    rw [hplaced] at hperm
    rw [hplaced']
    exact hperm.cons_inv
  | _ =>
    obtain ⟨ts', hquiet⟩ := step_quiet hwf hstep trivial
    refine ⟨ts', ws, ps, h.sound.quiet hquiet, ?_⟩
    obtain ⟨g, rfl, hg⟩ := hquiet.same
    have hnodes : (ts.map g).map Entry.node = ts.map Entry.node := by
      rw [List.map_map]
      exact List.map_congr_left fun e _ => (hg e).1
    rw [Scheduler.placed_of_current hquiet.current, hnodes]
    exact h.placed

/-- The thread whose entry a start takes over is nowhere. -/
theorem Complete.not_nothingLost (h : Complete m ts ws ps) {event : Event}
    (hstep : m.step image event = some m') (htaken : ¬ m.StartKeyFree event) :
    ¬ m'.NothingLost := by
  have hwf := h.sound.wellFormed
  cases event with
  | start call blocks =>
    obtain ⟨page, stack, ts', ws', ps', hstart⟩ := step_start hwf hstep
    have hsound' := h.sound.start hstart
    rcases hstart.started.queued with ⟨habsent, -⟩ | ⟨e, rest, -, hws, hws'⟩
    · exact absurd (hwf.waiting.findNode_eq_none habsent) htaken
    · have he : e ∈ ws := hws.symm.subset List.mem_cons_self
      have hlive : e.data ∈ m.live :=
        h.sound.live.symm.subset (h.placed.subset (hwf.mem_placed he))
      have hold : e.data ≠ blocks.thread.addr := by
        obtain ⟨x, hx, hnode, -⟩ := hwf.exists_thread (hwf.mem_placed he)
        exact hnode ▸ hstart.fresh x hx
      have hout : e.data ∉ ws'.map Entry.data := by
        intro hmem
        rcases List.mem_cons.mp ((hws'.map Entry.data).subset hmem) with heq | hmem
        · exact hold heq
        · have hnodup := (hws.map Entry.data).nodup_iff.mp (List.nodup_append.mp hwf.distinct).2.1
          exact (List.nodup_cons.mp hnodup).1 hmem
      intro hlost
      have hlive' : e.data ∈ m'.live := by
        rw [hstart.live]
        exact List.mem_cons_of_mem _ hlive
      rcases hlost e.data hlive' with ⟨hcurrent, -⟩ | ⟨-, a, ha, -⟩
      · rw [hstart.started.current] at hcurrent
        exact hwf.ne_current he hcurrent
      · obtain ⟨x, hx, -, hdata⟩ := hsound'.queuedAt_iff.mp ha
        exact hout (hdata ▸ List.mem_map_of_mem hx)
  | _ => exact absurd trivial htaken

end Step

/-- **No thread is lost** in a run exactly when each start in it finds its key free. -/
theorem nothingLost_iff (image : Image) {block : Fresh Thread} {waitBlock : Waiting} {zero : Bool}
    {lastState : ThreadState} {bottom : Nat} {m : Machine}
    (hboot : boot block waitBlock zero lastState bottom = some m) (events : List Event) :
    Run.Always (step image) NothingLost m events ↔
      Run.EachStep (step image) StartKeyFree m events := by
  obtain ⟨e, hsound, hcurrent, -⟩ := sound_boot hboot
  refine Run.always_iff_eachStep (I := fun m => ∃ ts ws ps, Complete m ts ws ps)
    (fun m event m' hm hstep hfree => ?_) (fun m hm => ?_) (fun m event m' hm hstep htaken => ?_)
    ⟨[e], [], [], hsound, ?_⟩
  · obtain ⟨ts, ws, ps, hm⟩ := hm
    exact hm.step hstep hfree
  · obtain ⟨ts, ws, ps, hm⟩ := hm
    exact hm.nothingLost
  · obtain ⟨ts, ws, ps, hm⟩ := hm
    exact hm.not_nothingLost hstep htaken
  · unfold Scheduler.placed
    rw [hcurrent]
    simp

/-- Two threads with one niceness are started in the same tick. -/
def collidingStarts : List Event := [startAt 5 200 300, startAt 5 201 301]

theorem first_start_lost :
    ∃ m₀ m, newMachine = some m₀ ∧ Run.exec (step blankImage) m₀ collidingStarts = some m ∧
      ¬ m.NothingLost := by
  have hrun : (newMachine.bind fun m₀ =>
      (Run.exec (step blankImage) m₀ collidingStarts).map fun m => (m.live, m.sched.current,
        m.sched.threadsWaiting.heap.keys, m.sched.nodePointer 300)) =
      some ([201, 200, 100], some 100, {300}, some 201) := by
    decide
  obtain ⟨m₀, hm₀, hrest⟩ := Option.bind_eq_some_iff.mp hrun
  obtain ⟨m, hm, hread⟩ := Option.map_eq_some_iff.mp hrest
  simp only [Prod.mk.injEq] at hread
  obtain ⟨hlive, hcurrent, hkeys, hpointer⟩ := hread
  refine ⟨m₀, m, hm₀, hm, fun hlost => ?_⟩
  rcases hlost 200 (by simp [hlive]) with ⟨hcur, -⟩ | ⟨-, a, ⟨n, hn, hdata⟩, -⟩
  · simp [hcurrent] at hcur
  · -- the only node holds the second thread
    have hmem : a ∈ m.sched.threadsWaiting.heap.keys := by
      rw [Tree.mem_keys_iff, hn]
      rfl
    rw [hkeys, Finset.mem_singleton] at hmem
    subst hmem
    simp [nodePointer, hn, hdata] at hpointer

theorem nothingLost_iff_colliding :
    ∃ m, newMachine = some m ∧ (Run.Always (step blankImage) NothingLost m collidingStarts ↔
      Run.EachStep (step blankImage) StartKeyFree m collidingStarts) := by
  have hsome : newMachine.isSome := by decide
  obtain ⟨m, hm⟩ := Option.isSome_iff_exists.mp hsome
  exact ⟨m, hm, nothingLost_iff blankImage hm collidingStarts⟩

end Machine

end Helos
