import Helos.Smp.Schedule

/-!
# Bounded bypass

While a thread sits ready under a key that the clock has passed, keys given out are later than its
own: the current thread goes back behind it, and so does a new one. The search then finds threads
that were ahead of it from the start, each of them once. This rests on 64-bit sums that do not wrap:
a current thread whose new priority wraps stays ahead.
-/

namespace Helos

open Helos.Tree (Fresh)

namespace Machine

open Scheduler

/-- The thread is queued under this key, and could run. -/
def Sits (m : Machine) (u : Addr) (k : Nat) : Prop := m.sched.Waits k u ∧ m.sched.Ready u

/-- The thread is not ahead of the key in the queue. -/
def Behind (m : Machine) (k : Nat) (t : Addr) : Prop := ∀ key, m.sched.Waits key t → k < key

/-- None of the sums of an event that a key is made of reaches 2^64: the clock that ticks, the key of
a new thread, and the new priority of the current one, with a key for each queued thread after it. -/
def KeysFit (m : Machine) : Event → Prop
  | .tick => m.sched.sync.now + 1 < 2 ^ 64
  | .start call _ => m.sched.sync.now + call.nice % 2 ^ 32 < 2 ^ 64
  | .switch _ _ => ∀ t th, m.sched.current = some t → m.sched.thread t = some th →
      th.nice + max th.lastTick m.sched.sync.now + m.sched.threadsWaiting.fuel ≤ 2 ^ 64
  | _ => True

/-- A context switch neither keeps the current thread nor leaves the processor idle. -/
def RunsOn (image : Image) (m : Machine) : Event → Prop
  | .switch regs new => ∃ s' ret, (m.interrupted regs).switch image new = some (s', ret) ∧
      ret ≠ 0 ∧ s'.current ≠ none
  | _ => True

/-- The thread that an event installs as current. -/
def installed (image : Image) (m : Machine) : Event → Ptr
  | .switch regs new =>
    match (m.interrupted regs).switch image new with
    | some (s', ret) => if ret = 0 then none else s'.current
    | none => none
  | _ => none

/-- The threads a run installs, in order. -/
def installations (image : Image) : Machine → List Event → List Addr
  | _, [] => []
  | m, event :: events =>
    match m.step image event with
    | none => []
    | some m' => (installed image m event).toList ++ installations image m' events

/-! ### The clock -/

section Clock

variable {image : Image} {m m' : Machine}

theorem sync_modifyThread {s s' : Scheduler} {t : Addr} {f : Thread → Thread}
    (h : s.modifyThread t f = some s') : s'.sync = s.sync := by
  obtain ⟨threads, -, hs'⟩ := Option.bind_eq_some_iff.mp h
  rw [← Option.some.inj hs']

theorem sync_takeStack {s s' : Scheduler} {stack : Nat} {page : Option Nat}
    (h : s.takeStack = some (s', stack, page)) : s'.sync = s.sync := by
  obtain ⟨spare, -, hrest⟩ := Option.bind_eq_some_iff.mp h
  cases spare with
  | none =>
    simp only [Option.some.injEq, Prod.mk.injEq] at hrest
    rw [← hrest.1]
  | some spare =>
    obtain ⟨n, -, hrest⟩ := Option.bind_eq_some_iff.mp hrest
    obtain ⟨stackPool, -, hrest⟩ := Option.bind_eq_some_iff.mp hrest
    simp only [Option.some.injEq, Prod.mk.injEq] at hrest
    rw [← hrest.1]

theorem now_start {s s' : Scheduler} {call : StartCall} {blocks : StartBlocks} {t : Addr}
    {page : Option Nat} (h : s.start image call blocks = some (s', t, page)) :
    s'.sync.now = s.sync.now := by
  simp only [Scheduler.start] at h
  split at h
  · obtain ⟨⟨threads, t₁, isNew⟩, -, h⟩ := Option.bind_eq_some_iff.mp h
    obtain ⟨⟨s₁, stack, page₁⟩, hstack, h⟩ := Option.bind_eq_some_iff.mp h
    obtain ⟨s₂, hmodify, h⟩ := Option.bind_eq_some_iff.mp h
    obtain ⟨th, -, h⟩ := Option.bind_eq_some_iff.mp h
    obtain ⟨⟨threadsWaiting, node, isNew'⟩, -, h⟩ := Option.bind_eq_some_iff.mp h
    obtain ⟨threadsWaiting', -, h⟩ := Option.bind_eq_some_iff.mp h
    cases h
    have hsync := (sync_modifyThread hmodify).trans (sync_takeStack hstack)
    have hnow : s₂.sync.now = s.sync.now := congrArg Sync.now hsync
    exact hnow
  · cases h

theorem now_cleanup {s s' : Scheduler} {pool : Fresh Unit} {zero : Bool}
    (h : s.cleanup pool zero = some s') : s'.sync.now = s.sync.now := by
  obtain ⟨t, -, h⟩ := Option.bind_eq_some_iff.mp h
  obtain ⟨th, -, h⟩ := Option.bind_eq_some_iff.mp h
  obtain ⟨found, -, h⟩ := Option.bind_eq_some_iff.mp h
  obtain ⟨node, -, h⟩ := Option.bind_eq_some_iff.mp h
  obtain ⟨threads, -, h⟩ := Option.bind_eq_some_iff.mp h
  obtain ⟨⟨stackPool, node', isNew⟩, -, h⟩ := Option.bind_eq_some_iff.mp h
  rw [← Option.some.inj h]

theorem now_nice {s s' : Scheduler} {id newnice old : Int}
    (h : s.nice id newnice = some (s', old)) : s'.sync.now = s.sync.now := by
  obtain ⟨found, -, h⟩ := Option.bind_eq_some_iff.mp h
  cases found with
  | none =>
    cases h
    rfl
  | some t =>
    obtain ⟨th, -, h⟩ := Option.bind_eq_some_iff.mp h
    split at h
    · cases h
      rfl
    · obtain ⟨s₁, hmodify, h⟩ := Option.bind_eq_some_iff.mp h
      cases h
      exact congrArg Sync.now (sync_modifyThread hmodify)

theorem now_lockTimeout (sync : Sync) (t mutex : Addr) (timeout : Nat) :
    (sync.lockTimeout t mutex timeout).1.now = sync.now := by
  simp only [Sync.lockTimeout]
  split <;> rfl

theorem now_tryLock (sync : Sync) (mutex : Addr) : (sync.tryLock mutex).1.now = sync.now := by
  simp only [Sync.tryLock]
  split <;> rfl

theorem now_unlock {sync sync' : Sync} {mutex : Addr} (h : sync.unlock mutex = some sync') :
    sync'.now = sync.now := by
  cases hlast : (sync.mutex mutex).waiting.getLast? with
  | none => rw [Sync.unlock_of_getLast?_none hlast h]
  | some waiting =>
    obtain ⟨w, rfl⟩ := Sync.unlock_of_getLast?_some hlast h
    rfl

theorem now_notifyOne {sync sync' : Sync} {c : Addr} {data : Nat} {found : Bool}
    (h : sync.notifyOne c data = some (sync', found)) : sync'.now = sync.now := by
  unfold Sync.notifyOne at h
  split at h
  · cases h
    rfl
  · obtain ⟨s₁, hmodify, h⟩ := Option.bind_eq_some_iff.mp h
    obtain ⟨w, -, rfl⟩ := Sync.modifyWait_eq_some hmodify
    cases h
    rfl

theorem now_notifyAll {sync sync' : Sync} {c : Addr} {data count : Nat}
    (h : sync.notifyAll c data = some (sync', count)) : sync'.now = sync.now := by
  unfold Sync.notifyAll at h
  split at h
  · cases h
    rfl
  · obtain ⟨s₁, heach, h⟩ := Option.bind_eq_some_iff.mp h
    cases h
    exact (Sync.notifyEach_frame heach).1

/-- Only a tick moves the clock. -/
theorem now_step {ts : List (Entry Thread)} {ws : List (Entry Addr)} {ps : List (Entry Unit)}
    (h : m.sched.WellFormed ts ws ps) {event : Event} (hstep : m.step image event = some m') :
    m'.sched.sync.now = m.sched.sync.now ∨
      event = .tick ∧ m'.sched.sync.now = wrap64 (m.sched.sync.now + 1) := by
  cases event with
  | switch regs new =>
    obtain ⟨p, hswitch⟩ := step_switch h hstep
    exact .inl (congrArg Sync.now hswitch.frame.sync)
  | start call blocks =>
    simp only [step] at hstep
    split at hstep
    · obtain ⟨⟨sched, t, page⟩, hrun, hrest⟩ := Option.bind_eq_some_iff.mp hstep
      obtain ⟨th, -, hm'⟩ := Option.bind_eq_some_iff.mp hrest
      obtain rfl := Option.some.inj hm'
      exact .inl (now_start hrun)
    · cases hstep
  | cleanup pool zero =>
    obtain ⟨t, -, hrest⟩ := Option.bind_eq_some_iff.mp hstep
    split at hrest
    · obtain ⟨sched, hrun, hm'⟩ := Option.bind_eq_some_iff.mp hrest
      obtain rfl := Option.some.inj hm'
      exact .inl (now_cleanup hrun)
    · cases hrest
  | nice id newnice =>
    obtain ⟨⟨sched, old⟩, hrun, hm'⟩ := Option.bind_eq_some_iff.mp hstep
    obtain rfl := Option.some.inj hm'
    exact .inl (now_nice hrun)
  | sleep ticks =>
    obtain ⟨sched, hrun, hm'⟩ := Option.bind_eq_some_iff.mp hstep
    obtain rfl := Option.some.inj hm'
    obtain ⟨t, -, hmodify⟩ := Option.bind_eq_some_iff.mp hrun
    exact .inl (congrArg Sync.now (sync_modifyThread hmodify))
  | tick =>
    obtain rfl := Option.some.inj hstep
    exact .inr ⟨rfl, rfl⟩
  | lock mutex =>
    obtain ⟨t, -, hm'⟩ := Option.bind_eq_some_iff.mp hstep
    obtain rfl := Option.some.inj hm'
    exact .inl (now_lockTimeout m.sched.sync t mutex 0)
  | lockTimeout mutex timeout =>
    obtain ⟨t, -, hm'⟩ := Option.bind_eq_some_iff.mp hstep
    obtain rfl := Option.some.inj hm'
    exact .inl (now_lockTimeout m.sched.sync t mutex timeout)
  | tryLock mutex =>
    obtain rfl := Option.some.inj hstep
    exact .inl (now_tryLock m.sched.sync mutex)
  | unlock mutex =>
    obtain ⟨sync, hrun, hm'⟩ := Option.bind_eq_some_iff.mp hstep
    obtain rfl := Option.some.inj hm'
    exact .inl (now_unlock hrun)
  | wait condition =>
    obtain ⟨t, -, hm'⟩ := Option.bind_eq_some_iff.mp hstep
    obtain rfl := Option.some.inj hm'
    exact .inl rfl
  | notifyOne condition data =>
    obtain ⟨⟨sync, found⟩, hrun, hm'⟩ := Option.bind_eq_some_iff.mp hstep
    obtain rfl := Option.some.inj hm'
    exact .inl (now_notifyOne hrun)
  | notifyAll condition data =>
    obtain ⟨⟨sync, count⟩, hrun, hm'⟩ := Option.bind_eq_some_iff.mp hstep
    obtain rfl := Option.some.inj hm'
    exact .inl (now_notifyAll hrun)

end Clock

/-! ### One step -/

section Step

variable {image : Image} {m m' : Machine} {ts : List (Entry Thread)} {ws : List (Entry Addr)}
  {ps : List (Entry Unit)} {u : Addr} {k : Nat}

theorem behind_iff (h : m.sched.WellFormed ts ws ps) {t : Addr} :
    m.Behind k t ↔ ∀ e ∈ ws, e.data = t → k < e.key := by
  constructor
  · intro hbehind e he hdata
    exact hbehind e.key (h.waits_iff.mpr ⟨e, he, rfl, hdata⟩)
  · intro hbehind key hw
    obtain ⟨e, he, rfl, hdata⟩ := h.waits_iff.mp hw
    exact hbehind e he hdata

/-- The new priority of the current thread is later than a key that the clock has passed, and so are
the keys that are tried after it. -/
theorem lt_requeued {s : Scheduler} {ws : List (Entry Addr)} (hws : s.threadsWaiting.Lists ws)
    {t : Addr} {th : Thread} {p i : Nat} (hcurrent : s.current = some t)
    (hth : s.thread t = some th)
    (hfits : th.nice + max th.lastTick s.sync.now + s.threadsWaiting.fuel ≤ 2 ^ 64)
    (hp : s.priority = some p) (hi : i ≤ ws.length) (hk : k < s.sync.now) :
    k < wrap64 (p + i) := by
  have hmax : (if th.lastTick > s.sync.now then th.lastTick else s.sync.now) =
      max th.lastTick s.sync.now := by
    rw [max_comm, max_def_lt]
  simp only [priority, hcurrent, hth, Option.bind_eq_bind, Option.bind_some, Option.some.injEq,
    hmax] at hp
  have hle : s.sync.now ≤ max th.lastTick s.sync.now := le_max_right _ _
  rw [hws.fuel_eq] at hfits
  rw [wrap64_of_lt (by omega)] at hp
  rw [← hp, wrap64_of_lt (by omega)]
  omega

/-- **A switch past a waiting thread.** It loads a thread that is not behind the key, which then is,
and no thread loses its place behind the key. -/
theorem Sound.switch_past (h : Sound m ts ws ps) (hsits : m.Sits u k)
    (hk : k < m.sched.sync.now) {regs : ThreadState} {new : Fresh Addr}
    (hfits : m.KeysFit (.switch regs new)) (hstep : m.step image (.switch regs new) = some m') :
    ∃ t, (m.interrupted regs).switch image new = some (m'.sched, 1) ∧
      m'.sched.current = some t ∧ ¬ m.Behind k t ∧ m'.Behind k t ∧
      ∀ t, m.Behind k t → m'.Behind k t := by
  simp only [Machine.step] at hstep
  split at hstep
  swap
  · cases hstep
  next hnew =>
  have hwf := interrupted_wellFormed h.wellFormed regs
  obtain ⟨s', r, p, hrun, hp, hframe, houtcome⟩ := hwf.switch_requeues image hnew
  simp only [hrun, Option.bind_eq_bind, Option.bind_some, Option.some.injEq] at hstep
  obtain ⟨hw, hu⟩ := hsits
  -- what the search finds is not behind the key
  obtain ⟨e, he⟩ : ∃ e, (m.interrupted regs).firstEntry ws = some e := by
    rw [← Option.ne_none_iff_exists']
    intro hnone
    exact hwf.firstEntry_eq_none.mp hnone k u hw hu
  have hle : e.key ≤ k := hwf.firstEntry_le he hw hu
  obtain ⟨hmem, -⟩ := hwf.firstEntry_mem he
  have hlater : ∀ t th i, m.sched.current = some t → m.sched.thread t = some th → i ≤ ws.length →
      k < wrap64 (p + i) := fun t th i ht hth hi =>
    lt_requeued hwf.waiting ht hth (hfits t th ht hth) hp hi hk
  have hthread : ∀ t, m.sched.current = some t → ∃ th, m.sched.thread t = some th := by
    intro t ht
    obtain ⟨x, -, -, hx⟩ := h.wellFormed.exists_thread (t := t) (by simp [placed, ht])
    exact ⟨_, hx⟩
  rcases houtcome with ⟨-, hkept⟩ | ⟨rfl, ws', hs, hqueue⟩
  · -- the current thread would have to be ahead of it
    obtain ⟨e', he', hlt⟩ := hkept.behind
    obtain rfl := Option.some.inj (he.symm.trans he')
    cases hcurrent : m.sched.current with
    | none =>
      have hidle : (m.interrupted regs).current = none := hcurrent
      simp only [priority, hidle, Option.some.injEq] at hp
      have hkey := h.wellFormed.keys e hmem
      omega
    | some t =>
      obtain ⟨th, hth⟩ := hthread t hcurrent
      have hpk := hlater t th 0 hcurrent hth (Nat.zero_le _)
      obtain ⟨q, hq, hqlt⟩ := hwf.priority_eq
      obtain rfl := Option.some.inj (hp.symm.trans hq)
      rw [Nat.add_zero, wrap64_of_lt hqlt] at hpk
      omega
  · obtain rfl : s' = m'.sched := congrArg Machine.sched hstep
    have hwf' := hs.wellFormed hwf hframe
    refine ⟨e.data, hrun, by rw [hs.current, he]; rfl, fun hbehind => ?_, ?_, fun t hbehind => ?_⟩
    · have hlt := (behind_iff h.wellFormed).mp hbehind e hmem rfl
      omega
    · refine (behind_iff hwf').mpr fun x hx hdata => ?_
      have hcur := hwf'.ne_current hx
      rw [hdata, hs.current, he] at hcur
      exact absurd rfl hcur
    · refine (behind_iff hwf').mpr fun x hx hdata => ?_
      rcases hqueue x hx with hx | ⟨hcurrent, i, hi, hkey⟩
      · exact (behind_iff h.wellFormed).mp hbehind x hx hdata
      · obtain ⟨th, hth⟩ := hthread x.data hcurrent
        rw [hkey]
        exact hlater x.data th i hcurrent hth hi

/-- **A step past a waiting thread.** -/
theorem Sound.step_past (h : Sound m ts ws ps) (hsits : m.Sits u k) (hk : k < m.sched.sync.now)
    {event : Event} (hfits : m.KeysFit event) (hstep : m.step image event = some m') :
    m.RunsOn image event ∧ k < m'.sched.sync.now ∧ (∀ t, m.Behind k t → m'.Behind k t) ∧
      ∀ t, installed image m event = some t → ¬ m.Behind k t ∧ m'.Behind k t := by
  have hnow : k < m'.sched.sync.now := by
    rcases now_step h.wellFormed hstep with hnow | ⟨rfl, hnow⟩
    · rw [hnow]
      exact hk
    · rw [hnow, wrap64_of_lt hfits]
      exact Nat.lt_succ_of_lt hk
  cases event with
  | switch regs new =>
    obtain ⟨t, hrun, hcurrent, hnot, hbehind, hkeep⟩ := h.switch_past hsits hk hfits hstep
    refine ⟨⟨m'.sched, 1, hrun, Nat.one_ne_zero, by simp [hcurrent]⟩, hnow, hkeep, fun x hx => ?_⟩
    simp only [installed, hrun, Nat.one_ne_zero, if_false, hcurrent, Option.some.injEq] at hx
    exact hx ▸ ⟨hnot, hbehind⟩
  | start call blocks =>
    obtain ⟨page, stack, ts', ws', ps', hstart⟩ := step_start h.wellFormed hstep
    have hsound' := h.start hstart
    refine ⟨trivial, hnow, fun t hbehind => ?_, fun t ht => by cases ht⟩
    have hkey : k < m.sched.startKey call := by
      have hsum : m.sched.sync.now + call.nice % 2 ^ 32 < 2 ^ 64 := hfits
      unfold startKey
      rw [wrap64_of_lt hsum]
      exact Nat.lt_add_right _ hk
    refine (behind_iff hsound'.wellFormed).mpr fun x hx hdata => ?_
    rcases hstart.started.queued with ⟨-, node, hws'⟩ | ⟨e, rest, -, hws, hws'⟩
    · rcases List.mem_cons.mp (hws'.subset hx) with rfl | hx
      · exact hkey
      · exact (behind_iff h.wellFormed).mp hbehind x hx hdata
    · rcases List.mem_cons.mp (hws'.subset hx) with rfl | hx
      · exact hkey
      · exact (behind_iff h.wellFormed).mp hbehind x (hws.symm.subset (List.mem_cons_of_mem e hx)) hdata
  | cleanup pool zero =>
    obtain ⟨e, ts', ps', hcleanup⟩ := step_cleanup h.wellFormed hstep
    have hsound' := h.cleanup hcleanup
    refine ⟨trivial, hnow, fun t hbehind => ?_, fun t ht => by cases ht⟩
    exact (behind_iff hsound'.wellFormed).mpr ((behind_iff h.wellFormed).mp hbehind)
  | _ =>
    obtain ⟨ts', hquiet⟩ := step_quiet h.wellFormed hstep trivial
    have hsound' := h.quiet hquiet
    refine ⟨trivial, hnow, fun t hbehind => ?_, fun t ht => by cases ht⟩
    exact (behind_iff hsound'.wellFormed).mpr ((behind_iff h.wellFormed).mp hbehind)

end Step

/-! ### Runs -/

section Runs

variable {image : Image} {m : Machine} {u : Addr} {k : Nat}

/-- A thread that is behind the key is not installed, and no thread is twice. -/
theorem count_installations {ts : List (Entry Thread)} {ws : List (Entry Addr)}
    {ps : List (Entry Unit)} (h : Sound m ts ws ps) (hk : k < m.sched.sync.now)
    {events : List Event} (hsits : Run.EachStep (step image) (fun m _ => m.Sits u k) m events)
    (hfits : Run.EachStep (step image) KeysFit m events) (t : Addr) :
    Run.EachStep (step image) (RunsOn image) m events ∧
      (installations image m events).count t ≤ 1 ∧
      (m.Behind k t → (installations image m events).count t = 0) := by
  induction events generalizing m ts ws ps with
  | nil => exact ⟨trivial, Nat.zero_le 1, fun _ => rfl⟩
  | cons event events ih =>
    unfold installations
    cases hstep : m.step image event with
    | none =>
      refine ⟨fun m' hm' => ?_, Nat.zero_le 1, fun _ => rfl⟩
      rw [hstep] at hm'
      cases hm'
    | some m' =>
      obtain ⟨hsit, hsits'⟩ := hsits m' hstep
      obtain ⟨hfit, hfits'⟩ := hfits m' hstep
      obtain ⟨hruns, hk', hkeep, hinstalled⟩ := h.step_past hsit hk hfit hstep
      obtain ⟨ts', ws', ps', h'⟩ := h.step hstep
      obtain ⟨hruns', hcount, hbehind⟩ := ih h' hk' hsits' hfits'
      refine ⟨fun m₁ hm₁ => ?_, ?_⟩
      · obtain rfl := Option.some.inj (hstep.symm.trans hm₁)
        exact ⟨hruns, hruns'⟩
      · simp only [List.count_append]
        by_cases ht : installed image m event = some t
        · obtain ⟨hnot, hthen⟩ := hinstalled t ht
          rw [ht, hbehind hthen]
          simp [hnot]
        · have hzero : (installed image m event).toList.count t = 0 :=
            List.count_eq_zero.mpr fun hmem => ht (Option.mem_toList.mp hmem)
          rw [hzero, Nat.zero_add]
          exact ⟨hcount, fun hb => hbehind (hkeep t hb)⟩

/-- **Bounded bypass.** While a thread sits ready under a key that the clock has passed, and no sum
of an event wraps, each call of `__smp_Switch` installs a thread, and each other thread at most
once. -/
theorem bounded_bypass (hm : Reachable image m) (hk : k < m.sched.sync.now) (events : List Event)
    (hsits : Run.EachStep (step image) (fun m _ => m.Sits u k) m events)
    (hfits : Run.EachStep (step image) KeysFit m events) :
    Run.EachStep (step image) (RunsOn image) m events ∧
      ∀ t, t ≠ u → (installations image m events).count t ≤ 1 := by
  obtain ⟨ts, ws, ps, hsound⟩ := hm.sound
  refine ⟨(count_installations hsound hk hsits hfits u).1, fun t _ => ?_⟩
  exact (count_installations hsound hk hsits hfits t).2.1

/-- A new thread waits for one switch. -/
theorem bounded_bypass_started :
    ∃ m, newRun [startAt 0 200 300, .tick] = some m ∧
      Run.EachStep (step blankImage) (RunsOn blankImage) m [.switch blankState ⟨301, 0, 3⟩] ∧
      ∀ t, t ≠ 200 →
        (installations blankImage m [.switch blankState ⟨301, 0, 3⟩]).count t ≤ 1 := by
  have hrun : (newRun [startAt 0 200 300, .tick]).map (fun m =>
      ((m.sched.sync.now, m.sched.ready 200, m.sched.current),
        (m.sched.threadsWaiting.node 300).map fun n => (n.key, n.data))) =
      some ((2, some true, some 100), some (1, 200)) := by
    decide
  have hrun' : (newRun [startAt 0 200 300, .tick]).map (fun m =>
      (m.sched.threadsWaiting.fuel, (m.sched.thread 100).map fun th => (th.nice, th.lastTick))) =
      some (2, some (80, 1)) := by
    decide
  obtain ⟨m, hm, hread⟩ := Option.map_eq_some_iff.mp hrun
  rw [hm, Option.map_some] at hrun'
  simp only [Option.some.injEq, Prod.mk.injEq, Option.map_eq_some_iff] at hread hrun'
  obtain ⟨⟨hnow, hready, hcurrent⟩, n, hn, hkey, hdata⟩ := hread
  obtain ⟨hfuel, th, hth, hnice, hlast⟩ := hrun'
  have hsits : m.Sits 200 1 := ⟨⟨300, n, hn, hkey, hdata⟩, hready⟩
  refine ⟨m, hm, bounded_bypass (newRun_reachable hm) (k := 1) (by omega) _
    (fun m' _ => ⟨hsits, trivial⟩) (fun m' _ => ⟨fun t th' ht hth' => ?_, trivial⟩)⟩
  obtain rfl := Option.some.inj (hcurrent.symm.trans ht)
  obtain rfl := Option.some.inj (hth.symm.trans hth')
  rw [hnice, hlast, hnow, hfuel]
  decide

/-! ### A priority that wraps -/

theorem exec_ticks (m : Machine) (hm : m.sched.sync.now < 2 ^ 64) (n : Nat) :
    Run.exec (step image) m (List.replicate n .tick) =
      some (m.setSync { m.sched.sync with now := wrap64 (m.sched.sync.now + n) }) := by
  induction n generalizing m with
  | zero =>
    rw [Nat.add_zero, wrap64_of_lt hm]
    rfl
  | succ n ih =>
    have hstep : step image m .tick = some (m.setSync m.sched.sync.tick) := rfl
    rw [List.replicate_succ, Run.exec_cons, hstep, Option.bind_some, ih _ (wrap64_lt _)]
    have hsum : wrap64 (wrap64 (m.sched.sync.now + 1) + n) =
        wrap64 (m.sched.sync.now + (n + 1)) := by
      unfold wrap64
      omega
    exact congrArg (fun now => some (m.setSync { m.sched.sync with now })) hsum

/-- A new thread waits until the clock has nearly reached 2^64. -/
def lateRun : List Event := [startAt 1000 200 300] ++ List.replicate (2 ^ 64 - 51) .tick

/-- The new priority of the current thread wraps, and it is kept ahead of the one that waits. -/
theorem kept_when_priority_wraps :
    ∃ m, newRun lateRun = some m ∧ 1001 < m.sched.sync.now ∧
      Run.EachStep (step blankImage) (fun m _ => m.Sits 200 1001) m
        [.switch blankState ⟨301, 0, 3⟩] ∧
      ¬ Run.EachStep (step blankImage) (RunsOn blankImage) m [.switch blankState ⟨301, 0, 3⟩] := by
  have hrun : (newRun [startAt 1000 200 300]).map (fun m => m.sched.sync.now) = some 1 := by
    decide
  have hlast : (newRun [startAt 1000 200 300]).bind (fun m =>
      let m' := m.setSync { m.sched.sync with now := 2 ^ 64 - 50 }
      ((m'.interrupted blankState).switch blankImage ⟨301, 0, 3⟩).map fun r =>
        (m'.sched.threadsWaiting.node 301, r.2,
          (m'.sched.threadsWaiting.node 300).map (fun n => (n.key, n.data)),
          m'.sched.ready 200)) = some (none, 0, some (1001, 200), some true) := by
    decide
  obtain ⟨m₁, hm₁, hnow⟩ := Option.map_eq_some_iff.mp hrun
  rw [hm₁, Option.bind_some] at hlast
  set m : Machine := m₁.setSync { m₁.sched.sync with now := 2 ^ 64 - 50 } with hm
  simp only [Prod.mk.injEq, Option.map_eq_some_iff] at hlast
  obtain ⟨⟨s', ret⟩, hs', hnew, rfl, ⟨n, hn, hkey, hdata⟩, hready⟩ := hlast
  have hlate : newRun lateRun = some m := by
    obtain ⟨m₀, hboot, hstart⟩ := Option.bind_eq_some_iff.mp hm₁
    have hsum : wrap64 (m₁.sched.sync.now + (2 ^ 64 - 51)) = 2 ^ 64 - 50 := by
      rw [hnow]
      decide
    rw [newRun, hboot, Option.bind_some, lateRun, Run.exec_append, hstart, Option.bind_some,
      exec_ticks m₁ (by omega), hsum]
  have hstep : m.step blankImage (.switch blankState ⟨301, 0, 3⟩) =
      some { m with sched := s' } := by
    simp [step, hnew, hs']
  have hsits : m.Sits 200 1001 := ⟨⟨300, n, hn, hkey, hdata⟩, hready⟩
  have hpassed : 1001 < m.sched.sync.now := by
    change 1001 < 2 ^ 64 - 50
    decide
  refine ⟨m, hlate, hpassed, fun _ _ => ⟨hsits, trivial⟩, fun hruns => ?_⟩
  obtain ⟨s₁, ret, hs₁, hret, -⟩ := (hruns _ hstep).1
  obtain ⟨-, rfl⟩ := Prod.mk.inj (Option.some.inj (hs'.symm.trans hs₁))
  exact hret rfl

end Runs

end Machine

end Helos
