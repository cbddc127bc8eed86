import Helos.Smp.Invariant

/-!
# Who runs next

What one call of `__smp_Switch` means for the threads, in any state a run may reach. The search
passes over threads that sleep or wait, but the two ways in which the current thread is treated do
not ask whether it does: it is kept ahead of a later key even when it is blocked, and it is put
aside for the idle loop even when it is the only one that could run. Its context is safe either
way.
-/

namespace Helos

open Helos.Tree (Fresh)

namespace Scheduler

def Waits (s : Scheduler) (key : Nat) (t : Addr) : Prop :=
  ∃ a n, s.threadsWaiting.node a = some n ∧ n.key = key ∧ n.data = t

def CurrentReady (s : Scheduler) : Prop := ∀ t, s.current = some t → s.Ready t

/-- The current thread sleeps or waits, and every thread that may run is queued under a later key
than its new priority. -/
def KeepsBlocked (s : Scheduler) : Prop :=
  (∃ t, s.current = some t ∧ ¬ s.Ready t) ∧ (∃ key u, s.Waits key u ∧ s.Ready u) ∧
    ∀ key u p, s.Waits key u → s.Ready u → s.priority = some p → p < key

def OnlyCurrentReady (s : Scheduler) : Prop :=
  (∃ t, s.current = some t ∧ s.Ready t) ∧ ∀ key u, s.Waits key u → ¬ s.Ready u

def NothingReady (s : Scheduler) : Prop :=
  (∀ t, s.current = some t → ¬ s.Ready t) ∧ ∀ key u, s.Waits key u → ¬ s.Ready u

section Search

variable {s s' : Scheduler} {ts : List (Entry Thread)} {ws : List (Entry Addr)}
  {ps : List (Entry Unit)}

theorem WellFormed.waits_iff (h : s.WellFormed ts ws ps) {key : Nat} {t : Addr} :
    s.Waits key t ↔ ∃ e ∈ ws, e.key = key ∧ e.data = t := by
  constructor
  · intro hw
    obtain ⟨a, n, hn, hkey, hdata⟩ := hw
    obtain ⟨e, he, -, hekey, hedata⟩ := h.waiting.exists_entry hn
    exact ⟨e, he, hekey.trans hkey, hedata.trans hdata⟩
  · intro hw
    obtain ⟨e, he, hkey, hdata⟩ := hw
    obtain ⟨n, hn, hnkey, hndata⟩ := h.waiting.read he
    exact ⟨e.node, n, hn, hnkey.trans hkey, hndata.trans hdata⟩

theorem WellFormed.firstEntry_eq_none (h : s.WellFormed ts ws ps) :
    s.firstEntry ws = none ↔ ∀ key u, s.Waits key u → ¬ s.Ready u := by
  unfold firstEntry
  rw [List.find?_eq_none]
  constructor
  · intro hnone key u hw
    obtain ⟨e, he, -, rfl⟩ := h.waits_iff.mp hw
    simpa using hnone e he
  · intro hnone e he
    simpa using hnone e.key e.data (h.waits_iff.mpr ⟨e, he, rfl, rfl⟩)

/-- The search finds a ready thread with the least key of all ready ones. -/
theorem WellFormed.firstEntry_le (h : s.WellFormed ts ws ps) {e : Entry Addr}
    (he : s.firstEntry ws = some e) {key : Nat} {u : Addr} (hw : s.Waits key u)
    (hu : s.Ready u) : e.key ≤ key := by
  obtain ⟨x, hx, rfl, rfl⟩ := h.waits_iff.mp hw
  obtain ⟨-, ws₁, ws₂, rfl, hbefore⟩ := List.find?_eq_some_iff_append.mp he
  have hsorted := h.waiting.sorted
  rcases List.mem_append.mp hx with hx | hx
  · have hnot := hbefore x hx
    simp [hu] at hnot
  · rcases List.mem_cons.mp hx with rfl | hx
    · exact Nat.le_refl _
    · exact Nat.le_of_lt ((List.pairwise_cons.mp (List.pairwise_append.mp hsorted).2.1).1 x hx)

theorem ready_of_kept {p : Nat} (hframe : SwitchFrame s s') (hk : Kept s s' ws p) (t : Addr) :
    s'.Ready t ↔ s.Ready t := by
  unfold Ready ready thread
  rw [hk.threads, hframe.sync]

theorem WellFormed.ready_of_switched {image : Image} {ws' : List (Entry Addr)} {p : Nat}
    (h : s.WellFormed ts ws ps) (hframe : SwitchFrame s s')
    (hs : Switched image s s' ts ws ws' p) {e : Entry Addr} (he : s.firstEntry ws = some e) :
    s'.Ready e.data := by
  obtain ⟨hmem, hready⟩ := h.firstEntry_mem he
  obtain ⟨x, hx, hnode, hthread⟩ := h.exists_thread (h.mem_placed hmem)
  have hx' := mem_savedThreads (hnode ▸ h.ne_current hmem) hx
  have hthread' := (hs.wellFormed h hframe).thread_eq hx'
  rw [hnode] at hthread'
  exact (ready_congr hframe.sync hthread hthread' rfl).mpr hready

end Search

end Scheduler

namespace Machine

open Scheduler

variable {image : Image} {m : Machine}

/-- **The current thread after a switch.** It may run, unless a blocked thread was ahead of all the
threads that could. -/
theorem currentReady_iff (hm : Reachable image m) (regs : ThreadState) {new : Fresh Addr}
    (hnew : m.sched.threadsWaiting.node new.addr = none) :
    ∃ s' ret, (m.interrupted regs).switch image new = some (s', ret) ∧
      (s'.CurrentReady ↔ ¬ (m.interrupted regs).KeepsBlocked) := by
  obtain ⟨ts, ws, ps, hsound⟩ := hm.sound
  have h := interrupted_wellFormed hsound.wellFormed regs
  obtain ⟨s', ret, p, hrun, hp, hframe, houtcome⟩ := h.switch image hnew
  refine ⟨s', ret, hrun, ?_⟩
  rcases houtcome with ⟨-, hk⟩ | ⟨-, ws', hs⟩
  · obtain ⟨e, he, hlt⟩ := hk.behind
    obtain ⟨hmem, hready⟩ := h.firstEntry_mem he
    constructor
    · intro hcurrent hkeeps
      obtain ⟨⟨t, ht, hnot⟩, -⟩ := hkeeps
      have hready' := hcurrent t (by rw [hk.current, ht])
      exact hnot ((ready_of_kept hframe hk t).mp hready')
    · intro hkeeps t ht
      rw [ready_of_kept hframe hk]
      by_contra hnot
      refine hkeeps ⟨⟨t, hk.current ▸ ht, hnot⟩,
        ⟨e.key, e.data, h.waits_iff.mpr ⟨e, hmem, rfl, rfl⟩, hready⟩, fun key u q hw hu hq => ?_⟩
      obtain rfl := Option.some.inj (hp.symm.trans hq)
      exact Nat.lt_of_lt_of_le hlt (h.firstEntry_le he hw hu)
  · refine iff_of_true (fun t ht => ?_) fun hkeeps => ?_
    · rw [hs.current] at ht
      obtain ⟨e, he, rfl⟩ := Option.map_eq_some_iff.mp ht
      exact h.ready_of_switched hframe hs he
    · obtain ⟨-, ⟨key, u, hw, hu⟩, hbehind⟩ := hkeeps
      cases he : (m.interrupted regs).firstEntry ws with
      | none => exact h.firstEntry_eq_none.mp he key u hw hu
      | some e =>
        obtain ⟨hmem, hready⟩ := h.firstEntry_mem he
        have hlt := hbehind e.key e.data p (h.waits_iff.mpr ⟨e, hmem, rfl, rfl⟩) hready hp
        exact absurd (hs.ahead e he) (Nat.not_le_of_lt hlt)

/-- One thread waits under a late key while the current one goes to sleep. -/
def sleeperRun : Option Machine := newRun [startAt 1000 200 300, .sleep 10]

theorem sleeper_goes_on :
    ∃ m s' ret, Reachable blankImage m ∧ m.sched.threadsWaiting.node 301 = none ∧
      (m.interrupted blankState).switch blankImage ⟨301, 0, 3⟩ = some (s', ret) ∧
      ∃ t, s'.current = some t ∧ ¬ s'.Ready t := by
  have hrun : (sleeperRun.bind fun m =>
      ((m.interrupted blankState).switch blankImage ⟨301, 0, 3⟩).bind fun r =>
        some (m.sched.threadsWaiting.node 301, r.1.current, r.1.ready 100)) =
      some (none, some 100, some false) := by
    decide
  obtain ⟨m, hm, hrest⟩ := Option.bind_eq_some_iff.mp hrun
  obtain ⟨⟨s', ret⟩, hs', hread⟩ := Option.bind_eq_some_iff.mp hrest
  simp only [Option.some.injEq, Prod.mk.injEq] at hread
  refine ⟨m, s', ret, newRun_reachable hm, hread.1, hs', 100, hread.2.1, ?_⟩
  unfold Ready
  rw [hread.2.2]
  decide

theorem currentReady_iff_sleeper :
    ∃ m, sleeperRun = some m ∧
      ∃ s' ret, (m.interrupted blankState).switch blankImage ⟨301, 0, 3⟩ = some (s', ret) ∧
        (s'.CurrentReady ↔ ¬ (m.interrupted blankState).KeepsBlocked) := by
  have hfresh : sleeperRun.map (fun m => m.sched.threadsWaiting.node 301) = some none := by
    decide
  obtain ⟨m, hm, hnew⟩ := Option.map_eq_some_iff.mp hfresh
  exact ⟨m, hm, currentReady_iff (newRun_reachable hm) blankState hnew⟩

/-- **The idle loop.** It is loaded only when nothing can run, unless the current thread is the only
one that can. -/
theorem idle_iff (hm : Reachable image m) (regs : ThreadState) {new : Fresh Addr}
    (hnew : m.sched.threadsWaiting.node new.addr = none) :
    ∃ s' ret, (m.interrupted regs).switch image new = some (s', ret) ∧
      ((s'.current = none → (m.interrupted regs).NothingReady) ↔
        ¬ (m.interrupted regs).OnlyCurrentReady) := by
  obtain ⟨ts, ws, ps, hsound⟩ := hm.sound
  have h := interrupted_wellFormed hsound.wellFormed regs
  obtain ⟨s', ret, p, hrun, hp, hframe, houtcome⟩ := h.switch image hnew
  refine ⟨s', ret, hrun, ?_⟩
  -- the idle loop is loaded when nothing ready is found and the current thread is given up
  cases he : (m.interrupted regs).firstEntry ws with
  | none =>
    have hnone := h.firstEntry_eq_none.mp he
    have hidle : s'.current = none := by
      rcases houtcome with ⟨-, hk⟩ | ⟨-, ws', hs⟩
      · obtain ⟨e, he', -⟩ := hk.behind
        rw [he] at he'
        cases he'
      · rw [hs.current, he]
        rfl
    constructor
    · intro hnothing hready
      obtain ⟨⟨t, ht, htready⟩, -⟩ := hready
      exact (hnothing hidle).1 t ht htready
    · intro hready _
      exact ⟨fun t ht htready => hready ⟨⟨t, ht, htready⟩, hnone⟩, hnone⟩
  | some e =>
    obtain ⟨hmem, hready⟩ := h.firstEntry_mem he
    have hw := h.waits_iff.mpr ⟨e, hmem, rfl, rfl⟩
    refine iff_of_true (fun hidle => ?_) fun honly => honly.2 e.key e.data hw hready
    rcases houtcome with ⟨-, hk⟩ | ⟨-, ws', hs⟩
    · -- with no current thread the priority is the greatest key
      obtain ⟨e', he', hlt⟩ := hk.behind
      rw [hk.current] at hidle
      simp only [priority, hidle, Option.some.injEq] at hp
      have hkey := h.keys e' (h.firstEntry_mem he').1
      omega
    · rw [hs.current, he] at hidle
      cases hidle

theorem lone_thread_idles :
    ∃ m s' ret t, Reachable blankImage m ∧ m.sched.threadsWaiting.node 301 = none ∧
      (m.interrupted blankState).switch blankImage ⟨301, 0, 3⟩ = some (s', ret) ∧
      s'.current = none ∧ (m.interrupted blankState).current = some t ∧
      (m.interrupted blankState).Ready t := by
  have hrun : ((newRun []).bind fun m =>
      ((m.interrupted blankState).switch blankImage ⟨301, 0, 3⟩).bind fun r =>
        some (m.sched.threadsWaiting.node 301, r.1.current, (m.interrupted blankState).current,
          (m.interrupted blankState).ready 100)) =
      some (none, none, some 100, some true) := by
    decide
  obtain ⟨m, hm, hrest⟩ := Option.bind_eq_some_iff.mp hrun
  obtain ⟨⟨s', ret⟩, hs', hread⟩ := Option.bind_eq_some_iff.mp hrest
  simp only [Option.some.injEq, Prod.mk.injEq] at hread
  exact ⟨m, s', ret, 100, newRun_reachable hm, hread.1, hs', hread.2.1, hread.2.2.1, hread.2.2.2⟩

theorem idle_iff_lone_thread :
    ∃ m, newRun [] = some m ∧
      ∃ s' ret, (m.interrupted blankState).switch blankImage ⟨301, 0, 3⟩ = some (s', ret) ∧
        ((s'.current = none → (m.interrupted blankState).NothingReady) ↔
          ¬ (m.interrupted blankState).OnlyCurrentReady) := by
  have hfresh : (newRun []).map (fun m => m.sched.threadsWaiting.node 301) = some none := by
    decide
  obtain ⟨m, hm, hnew⟩ := Option.map_eq_some_iff.mp hfresh
  exact ⟨m, hm, idle_iff (newRun_reachable hm) blankState hnew⟩

/-- **Contexts are preserved.** A switch loads a thread with the context it was stopped in, saves no
other state than that of the thread it stops, and changes nothing when it returns 0. -/
theorem context_preserved (hm : Reachable image m) (regs : ThreadState) {new : Fresh Addr}
    (hnew : m.sched.threadsWaiting.node new.addr = none) :
    ∃ m' ret, m.step image (.switch regs new) = some m' ∧
      (m.interrupted regs).switch image new = some (m'.sched, ret) ∧
      (ret ≠ 0 → ∀ t, m'.sched.current = some t → m'.sched.lastState = m.context t) ∧
      (∀ t th, m.sched.current ≠ some t → m.sched.thread t = some th →
        (m'.sched.thread t).map Thread.state = some th.state) ∧
      (ret = 0 → m'.sched.lastState = regs ∧ m'.sched.current = m.sched.current) := by
  obtain ⟨ts, ws, ps, hsound⟩ := hm.sound
  have h := interrupted_wellFormed hsound.wellFormed regs
  obtain ⟨s', ret, p, hrun, -, hframe, houtcome⟩ := h.switch image hnew
  refine ⟨{ m with sched := s', context := if ret = 0 then m.context else m.stopped regs }, ret, ?_,
    hrun, ?_, ?_, ?_⟩
  · simp [step, hnew, hrun]
  · intro hret t ht
    rcases houtcome with ⟨rfl, -⟩ | ⟨-, ws', hs⟩
    · exact absurd rfl hret
    · rw [hs.current] at ht
      obtain ⟨e, he, rfl⟩ := Option.map_eq_some_iff.mp ht
      obtain ⟨hmem, -⟩ := h.firstEntry_mem he
      obtain ⟨x, hx, hnode, hthread⟩ := h.exists_thread (h.mem_placed hmem)
      have hqueued : x.node ∈ ws.map Entry.data := hnode ▸ List.mem_map_of_mem hmem
      have hstate := hs.loaded e x.data he hthread
      exact hstate.trans (hnode ▸ hsound.context x hx hqueued)
  · intro t th hne hth
    obtain ⟨n, hn, rfl⟩ := Option.map_eq_some_iff.mp hth
    obtain ⟨x, hx, rfl, -, hdata⟩ := h.threads.exists_entry hn
    rcases houtcome with ⟨-, hk⟩ | ⟨-, ws', hs⟩
    · have hthread : s'.thread x.node = some n.data := by
        unfold thread
        rw [hk.threads]
        exact hth
      rw [hthread]
      rfl
    · have hx' := mem_savedThreads (s := m.interrupted regs) hne hx
      rw [(hs.wellFormed h hframe).thread_eq hx', hdata]
      rfl
  · intro hret
    rcases houtcome with ⟨-, hk⟩ | ⟨rfl, -⟩
    · exact ⟨hk.lastState, hk.current⟩
    · cases hret

/-- A started thread is loaded with the state `smp_thread_Start` has written. -/
theorem context_preserved_started :
    ∃ m m' ret, newRun [startAt 5 200 300] = some m ∧
      m.step blankImage (.switch blankState ⟨301, 0, 3⟩) = some m' ∧ ret ≠ 0 ∧
      m'.sched.current = some 200 ∧ m'.sched.lastState = m.context 200 := by
  have hfresh : (newRun [startAt 5 200 300]).map (fun m => m.sched.threadsWaiting.node 301) =
      some none := by
    decide
  obtain ⟨m, hm, hnew⟩ := Option.map_eq_some_iff.mp hfresh
  have hnew' : m.sched.threadsWaiting.node (Fresh.mk (301 : Addr) 0 3).addr = none := hnew
  obtain ⟨m', ret, hstep, hrun, hload, -, -⟩ :=
    context_preserved (newRun_reachable hm) blankState hnew'
  have hread : ((newRun [startAt 5 200 300]).bind fun m =>
      ((m.interrupted blankState).switch blankImage ⟨301, 0, 3⟩).map fun r =>
        (r.2, r.1.current)) = some (1, some 200) := by
    decide
  rw [hm, Option.bind_some, hrun] at hread
  obtain ⟨rfl, hcurrent⟩ : ret = 1 ∧ m'.sched.current = some 200 := by simpa using hread
  exact ⟨m, m', 1, hm, hstep, Nat.one_ne_zero, hcurrent, hload Nat.one_ne_zero 200 hcurrent⟩

end Machine

end Helos
