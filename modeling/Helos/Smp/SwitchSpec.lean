import Helos.Smp.Switch
import Helos.Util.TreeEntries
import Mathlib.Data.List.Perm.Subperm

/-!
# What a context switch does

`WellFormed` is what the scheduler keeps at all times: its three tables, and a current and queued
threads that are distinct entries of `__smp_Threads`. From there `__smp_Switch` always succeeds. It
looks for the first ready thread in the order of the keys, and either changes nothing but the
metrics, or saves the current thread, queues it, and loads what it has found.
-/

namespace Helos

open Helos.Tree (Fresh)

namespace Scheduler

/-- The current thread and the queued ones. -/
def placed (s : Scheduler) (ws : List (Entry Addr)) : List Addr :=
  s.current.toList ++ ws.map Entry.data

theorem placed_of_current {s s' : Scheduler} (h : s'.current = s.current) (ws : List (Entry Addr)) :
    s'.placed ws = s.placed ws := by
  unfold placed
  rw [h]

structure WellFormed (s : Scheduler) (ts : List (Entry Thread)) (ws : List (Entry Addr))
    (ps : List (Entry Unit)) : Prop where
  threads : s.threads.Lists ts
  waiting : s.threadsWaiting.Lists ws
  pool : s.stackPool.Lists ps
  idallo : s.idallo < 2 ^ 31
  ids : ∀ e ∈ ts, e.data.id = e.key ∧ e.key ≤ s.idallo
  keys : ∀ e ∈ ws, e.key < 2 ^ 64
  known : ∀ t ∈ s.placed ws, t ∈ ts.map Entry.node
  distinct : (s.placed ws).Nodup

def Ready (s : Scheduler) (t : Addr) : Prop := s.ready t = some true

instance (s : Scheduler) (t : Addr) : Decidable (s.Ready t) :=
  inferInstanceAs (Decidable (s.ready t = some true))

/-- The queued thread that is ready and has the least key. -/
def firstEntry (s : Scheduler) (ws : List (Entry Addr)) : Option (Entry Addr) :=
  ws.find? fun e => decide (s.Ready e.data)

def savedThreads (s : Scheduler) (ts : List (Entry Thread)) : List (Entry Thread) :=
  match s.current with
  | none => ts
  | some t =>
    ts.map (Entry.modify t fun th => { th with lastTick := s.sync.now, state := s.lastState })

def idleState (image : Image) (s : Scheduler) : ThreadState :=
  { s.lastState with rip := image.switchIdle, rflags := s.lastState.rflags ||| 1 <<< 9 }

structure SwitchFrame (s s' : Scheduler) : Prop where
  sync : s'.sync = s.sync
  idallo : s'.idallo = s.idallo
  stackPool : s'.stackPool = s.stackPool
  kernelMappingBottom : s'.kernelMappingBottom = s.kernelMappingBottom

section Lookup

variable {s : Scheduler} {ts : List (Entry Thread)} {ws : List (Entry Addr)} {ps : List (Entry Unit)}

theorem WellFormed.mem_placed (_h : s.WellFormed ts ws ps) {e : Entry Addr} (he : e ∈ ws) :
    e.data ∈ s.placed ws :=
  List.mem_append_right _ (List.mem_map_of_mem he)

theorem WellFormed.thread_eq (h : s.WellFormed ts ws ps) {e : Entry Thread} (he : e ∈ ts) :
    s.thread e.node = some e.data := by
  obtain ⟨n, hn, -, hdata⟩ := h.threads.read he
  unfold thread
  rw [hn, Option.map_some, hdata]

theorem WellFormed.exists_thread (h : s.WellFormed ts ws ps) {t : Addr} (ht : t ∈ s.placed ws) :
    ∃ e ∈ ts, e.node = t ∧ s.thread t = some e.data := by
  obtain ⟨e, he, rfl⟩ := List.mem_map.mp (h.known t ht)
  exact ⟨e, he, rfl, h.thread_eq he⟩

theorem WellFormed.nodePointer_eq (h : s.WellFormed ts ws ps) {e : Entry Addr} (he : e ∈ ws) :
    s.nodePointer e.node = some e.data := by
  obtain ⟨n, hn, -, hdata⟩ := h.waiting.read he
  unfold nodePointer
  rw [hn, Option.map_some, hdata]

theorem WellFormed.ready_eq (h : s.WellFormed ts ws ps) {t : Addr} (ht : t ∈ s.placed ws) :
    s.ready t = some (decide (s.Ready t)) := by
  obtain ⟨e, -, -, hthread⟩ := h.exists_thread ht
  obtain ⟨b, hb⟩ : ∃ b, s.ready t = some b := by
    unfold ready
    rw [hthread]
    exact ⟨_, rfl⟩
  rw [hb]
  cases b <;> simp [Ready, hb]

/-- A thread that both tables of two states agree on is as ready in one as in the other. -/
theorem ready_congr {s' : Scheduler} (hsync : s'.sync = s.sync) {t : Addr} {th th' : Thread}
    (hth : s.thread t = some th) (hth' : s'.thread t = some th')
    (hsleep : th'.sleepUntil = th.sleepUntil) : s'.Ready t ↔ s.Ready t := by
  unfold Ready ready
  rw [hth, hth', hsync]
  simp [hsleep]

theorem WellFormed.length_lt (h : s.WellFormed ts ws ps) : ws.length < 2 ^ 64 := by
  have hts : (ts.map Entry.key).length ≤ (List.range (2 ^ 31)).length := by
    refine (h.threads.nodup_key.subperm fun k hk => ?_).length_le
    obtain ⟨e, he, rfl⟩ := List.mem_map.mp hk
    have hid := (h.ids e he).2
    have hlt := h.idallo
    rw [List.mem_range]
    omega
  have hws : (ws.map Entry.data).length ≤ (ts.map Entry.node).length := by
    have hnodup : (ws.map Entry.data).Nodup := (List.nodup_append.mp h.distinct).2.1
    refine (hnodup.subperm fun t ht => ?_).length_le
    exact h.known t (List.mem_append_right _ ht)
  simp only [List.length_map, List.length_range] at hts hws
  omega

end Lookup

/-! ### The search -/

section Search

variable {s : Scheduler} {ts : List (Entry Thread)} {ws : List (Entry Addr)} {ps : List (Entry Unit)}

theorem WellFormed.firstReady (h : s.WellFormed ts ws ps) {ws₁ ws₂ : List (Entry Addr)}
    (hsplit : ws = ws₁ ++ ws₂) {fuel : Nat} (hfuel : ws₂.length < fuel) :
    s.firstReady fuel (ws₂.head?.map Entry.node) = some ((s.firstEntry ws₂).map Entry.node) := by
  induction ws₂ generalizing ws₁ fuel with
  | nil =>
    obtain ⟨fuel, rfl⟩ := Nat.exists_eq_succ_of_ne_zero (Nat.ne_of_gt (Nat.zero_lt_of_lt hfuel))
    rfl
  | cons e ws₂ ih =>
    obtain ⟨fuel, rfl⟩ := Nat.exists_eq_succ_of_ne_zero (Nat.ne_of_gt (Nat.zero_lt_of_lt hfuel))
    have he : e ∈ ws := by simp [hsplit]
    have hnext : s.threadsWaiting.nodeNext e.node = some (ws₂.head?.map Entry.node) :=
      Tree.Lists.nodeNext (hsplit ▸ h.waiting)
    have hsplit' : ws = (ws₁ ++ [e]) ++ ws₂ := by simp [hsplit]
    have hrest := ih hsplit' (show ws₂.length < fuel by simpa using hfuel)
    simp only [List.head?_cons, Option.map_some, Scheduler.firstReady, h.nodePointer_eq he,
      h.ready_eq (h.mem_placed he), Option.bind_eq_bind, Option.bind_some, hnext, hrest]
    by_cases hready : s.Ready e.data
    · simp [firstEntry, hready]
    · simp [firstEntry, hready]

theorem WellFormed.priority_eq (h : s.WellFormed ts ws ps) :
    ∃ p, s.priority = some p ∧ p < 2 ^ 64 := by
  unfold priority
  cases hcurrent : s.current with
  | none => exact ⟨_, rfl, by decide⟩
  | some t =>
    obtain ⟨e, -, -, hthread⟩ := h.exists_thread (t := t) (by simp [placed, hcurrent])
    simp only [hthread, Option.bind_eq_bind, Option.bind_some]
    exact ⟨_, rfl, wrap64_lt _⟩

theorem WellFormed.countTicks_eq (h : s.WellFormed ts ws ps) :
    ∃ prevTime tickIdling tickUserspace tickKernel, s.countTicks = some
      { s with prevTime, tickIdling, tickUserspace, tickKernel } := by
  unfold countTicks
  cases hcurrent : s.current with
  | none => exact ⟨_, _, _, _, rfl⟩
  | some t =>
    obtain ⟨e, -, -, hthread⟩ := h.exists_thread (t := t) (by simp [placed, hcurrent])
    simp only [hthread, Option.bind_eq_bind, Option.bind_some]
    by_cases hcs : e.data.state.cs = gdtExecRing3Selector
    · simp only [if_pos hcs]
      exact ⟨_, _, _, _, rfl⟩
    · simp only [if_neg hcs]
      exact ⟨_, _, _, _, rfl⟩

end Search

/-! ### Queueing the current thread -/

theorem insertFree_spec {tree : Tree Addr} {ws : List (Entry Addr)} {new : Fresh Addr}
    {fuel p : Nat} (h : tree.Lists ws) (hnew : ∀ e ∈ ws, e.node ≠ new.addr)
    (hfree : ∃ i < fuel, ∀ e ∈ ws, e.key ≠ wrap64 (p + i)) (hp : p < 2 ^ 64) :
    ∃ tree' ws' key, insertFree new fuel tree p = some (tree', new.addr) ∧
      (∃ i < fuel, key = wrap64 (p + i)) ∧
      ws'.Perm (⟨new.addr, key, new.data⟩ :: ws) ∧ tree'.Lists ws' := by
  induction fuel generalizing tree p with
  | zero =>
    obtain ⟨i, hi, -⟩ := hfree
    exact absurd hi (Nat.not_lt_zero i)
  | succ fuel ih =>
    rcases h.insertNode p .pointer (h.node_eq_none hnew) with
      ⟨e, he, hkey, t', hrun, hl⟩ | ⟨-, t', ws', hrun, hperm, hl⟩
    · have hfree' : ∃ i < fuel, ∀ e ∈ ws, e.key ≠ wrap64 (wrap64 (p + 1) + i) := by
        obtain ⟨i, hi, hout⟩ := hfree
        cases i with
        | zero =>
          rw [Nat.add_zero, wrap64_of_lt hp] at hout
          exact absurd hkey (hout e he)
        | succ i =>
          refine ⟨i, Nat.lt_of_succ_lt_succ hi, fun e he => ?_⟩
          have heq : wrap64 (wrap64 (p + 1) + i) = wrap64 (p + (i + 1)) := by
            unfold wrap64
            omega
          rw [heq]
          exact hout e he
      obtain ⟨tree', ws', key, hrun', ⟨i, hi, hikey⟩, hspec⟩ := ih hl hfree' (wrap64_lt _)
      refine ⟨tree', ws', key, by simp [insertFree, hrun, hrun'], ⟨i + 1, Nat.succ_lt_succ hi, ?_⟩, hspec⟩
      rw [hikey]
      unfold wrap64
      omega
    · exact ⟨t', ws', p, by simp [insertFree, hrun], ⟨0, Nat.succ_pos _, (wrap64_of_lt hp).symm⟩, hperm,
        hl⟩

/-- One of the next keys is free, there being more of them than queued threads. -/
theorem exists_free_key {ws : List (Entry Addr)} {fuel : Nat} (hlen : ws.length < fuel)
    (hfuel : fuel ≤ 2 ^ 64) (p : Nat) : ∃ i < fuel, ∀ e ∈ ws, e.key ≠ wrap64 (p + i) := by
  by_contra hall
  have htaken : ((List.range fuel).map fun i => wrap64 (p + i)) ⊆ ws.map Entry.key := by
    intro k hk
    obtain ⟨i, hi, rfl⟩ := List.mem_map.mp hk
    by_contra hout
    exact hall ⟨i, List.mem_range.mp hi, fun e he heq => hout (heq ▸ List.mem_map_of_mem he)⟩
  have hnodup : ((List.range fuel).map fun i => wrap64 (p + i)).Nodup := by
    refine List.Nodup.map_on (fun i hi j hj heq => ?_) List.nodup_range
    rw [List.mem_range] at hi hj
    unfold wrap64 at heq
    omega
  have hle := (hnodup.subperm htaken).length_le
  simp only [List.length_map, List.length_range] at hle
  omega

/-- Where the entries of the queue come from: it keeps those it had, and the current thread gets one
under its new priority or one of the next keys. -/
def Requeued (s : Scheduler) (ws ws' : List (Entry Addr)) (p : Nat) : Prop :=
  ∀ e ∈ ws', e ∈ ws ∨ s.current = some e.data ∧ ∃ i ≤ ws.length, e.key = wrap64 (p + i)

theorem WellFormed.saveCurrent {s : Scheduler} {ts : List (Entry Thread)} {ws : List (Entry Addr)}
    {ps : List (Entry Unit)} (h : s.WellFormed ts ws ps) {p : Nat} (hp : p < 2 ^ 64)
    {new : Fresh Addr} (hnew : s.threadsWaiting.node new.addr = none) :
    ∃ s' ws' q, s.saveCurrent p new = some s' ∧ SwitchFrame s s' ∧
      s'.lastState = s.lastState ∧ s'.threads.Lists (s.savedThreads ts) ∧
      s'.threadsWaiting.Lists ws' ∧ s.Requeued ws ws' p ∧ ws'.Perm (q ++ ws) ∧
      q.map Entry.data = s.current.toList := by
  unfold Scheduler.saveCurrent savedThreads Requeued
  cases hcurrent : s.current with
  | none =>
    exact ⟨s, ws, [], rfl, ⟨rfl, rfl, rfl, rfl⟩, rfl, h.threads, h.waiting,
      fun e he => .inl he, List.Perm.refl ws, rfl⟩
  | some t =>
    have ht : t ∈ ts.map Entry.node := h.known t (by simp [placed, hcurrent])
    obtain ⟨threads, hthreads, hlists⟩ := h.threads.modifyData ht fun th =>
      { th with lastTick := s.sync.now, state := s.lastState }
    have hfresh := h.waiting.not_mem_of_fresh hnew
    have hfuel : ws.length < s.threadsWaiting.fuel ∧ s.threadsWaiting.fuel ≤ 2 ^ 64 := by
      have hlen := h.length_lt
      rw [h.waiting.fuel_eq]
      omega
    obtain ⟨tree, ws₁, key, hinsert, ⟨i, hi, hkey⟩, hperm, htree⟩ :=
      insertFree_spec h.waiting hfresh
        (exists_free_key hfuel.1 hfuel.2 p) hp
    have hmem : new.addr ∈ ws₁.map Entry.node :=
      List.mem_map.mpr ⟨_, hperm.symm.subset List.mem_cons_self, rfl⟩
    obtain ⟨tree', htree', hlists'⟩ := htree.modifyData hmem fun _ => t
    -- only the new entry is at the new node
    have hperm' : (ws₁.map (Entry.modify new.addr fun _ => t)).Perm (⟨new.addr, key, t⟩ :: ws) := by
      have hws : ws.map (Entry.modify new.addr fun _ => t) = ws := by
        conv_rhs => rw [← List.map_id ws]
        exact List.map_congr_left fun e he => Entry.modify_of_ne (hfresh e he) _
      have hmap := hperm.map (Entry.modify new.addr fun _ => t)
      rw [List.map_cons, hws] at hmap
      simpa [Entry.modify] using hmap
    refine ⟨{ s with threads, threadsWaiting := tree' }, _, [⟨new.addr, key, t⟩], ?_,
      ⟨rfl, rfl, rfl, rfl⟩, rfl, hlists, hlists', fun e he => ?_, hperm', rfl⟩
    · simp [modifyThread, hthreads, hinsert, htree']
    · rcases List.mem_cons.mp (hperm'.subset he) with rfl | he
      · rw [h.waiting.fuel_eq] at hi
        exact .inr ⟨rfl, i, Nat.le_of_lt_succ hi, hkey⟩
      · exact .inl he

theorem Requeued.key_lt {s : Scheduler} {ts : List (Entry Thread)} {ws ws' : List (Entry Addr)}
    {ps : List (Entry Unit)} {p : Nat} (h : s.WellFormed ts ws ps) (hqueue : s.Requeued ws ws' p)
    {e : Entry Addr} (he : e ∈ ws') : e.key < 2 ^ 64 := by
  rcases hqueue e he with he | ⟨-, i, -, hkey⟩
  · exact h.keys e he
  · rw [hkey]
    exact wrap64_lt _

theorem loadFirst_spec (image : Image) {s : Scheduler} {ws : List (Entry Addr)}
    (hws : s.threadsWaiting.Lists ws) {first : Option (Entry Addr)} {th : Thread}
    (hfirst : ∀ e, first = some e → e ∈ ws ∧ s.thread e.data = some th) :
    ∃ s' ws', s.loadFirst image (first.map Entry.node) = some s' ∧ SwitchFrame s s' ∧
      s'.threads = s.threads ∧ s'.current = first.map Entry.data ∧
      s'.threadsWaiting.Lists ws' ∧ ws.Perm (first.toList ++ ws') ∧
      s'.lastState = if first.isSome then th.state else s.idleState image := by
  cases first with
  | none =>
    exact ⟨_, ws, rfl, ⟨rfl, rfl, rfl, rfl⟩, rfl, rfl, hws, List.Perm.refl ws, rfl⟩
  | some e =>
    obtain ⟨he, hthread⟩ := hfirst e rfl
    obtain ⟨tree, ws', hdelete, hperm, hlists⟩ := hws.delete he
    have hpointer : s.nodePointer e.node = some e.data := by
      obtain ⟨n, hn, -, hdata⟩ := hws.read he
      unfold nodePointer
      rw [hn, Option.map_some, hdata]
    refine ⟨{ s with lastState := th.state, current := some e.data, threadsWaiting := tree }, ws', ?_,
      ⟨rfl, rfl, rfl, rfl⟩, rfl, rfl, hlists, hperm, by simp⟩
    simp [loadFirst, hpointer, hthread, hdelete]

/-! ### The whole call -/

/-- The current thread goes on. -/
structure Kept (s s' : Scheduler) (ws : List (Entry Addr)) (p : Nat) : Prop where
  behind : ∃ e, s.firstEntry ws = some e ∧ p < e.key
  current : s'.current = s.current
  lastState : s'.lastState = s.lastState
  threads : s'.threads = s.threads
  waiting : s'.threadsWaiting = s.threadsWaiting

/-- The current thread is queued, and the first ready one or the idle loop is loaded. -/
structure Switched (image : Image) (s s' : Scheduler) (ts : List (Entry Thread))
    (ws ws' : List (Entry Addr)) (p : Nat) : Prop where
  ahead : ∀ e, s.firstEntry ws = some e → e.key ≤ p
  current : s'.current = (s.firstEntry ws).map Entry.data
  threads : s'.threads.Lists (s.savedThreads ts)
  waiting : s'.threadsWaiting.Lists ws'
  keys : ∀ e ∈ ws', e.key < 2 ^ 64
  placed : (s'.placed ws').Perm (s.placed ws)
  idle : s.firstEntry ws = none → s'.lastState = s.idleState image
  loaded : ∀ e th, s.firstEntry ws = some e → s.thread e.data = some th → s'.lastState = th.state

section Switch

variable {s : Scheduler} {ts : List (Entry Thread)} {ws : List (Entry Addr)} {ps : List (Entry Unit)}

theorem WellFormed.firstEntry_mem (_h : s.WellFormed ts ws ps) {e : Entry Addr}
    (he : s.firstEntry ws = some e) : e ∈ ws ∧ s.Ready e.data := by
  have hready := List.find?_some he
  exact ⟨List.mem_of_find?_eq_some he, of_decide_eq_true hready⟩

theorem WellFormed.ne_current (h : s.WellFormed ts ws ps) {e : Entry Addr} (he : e ∈ ws) :
    s.current ≠ some e.data := by
  intro hcurrent
  have hdisj := (List.nodup_append.mp h.distinct).2.2 e.data (by simp [hcurrent]) e.data
    (List.mem_map_of_mem he)
  exact hdisj rfl

theorem mem_savedThreads {e : Entry Thread} (hne : s.current ≠ some e.node) (he : e ∈ ts) :
    e ∈ s.savedThreads ts := by
  unfold savedThreads
  cases hcurrent : s.current with
  | none => exact he
  | some t =>
    have hnode : e.node ≠ t := fun heq => hne (by rw [hcurrent, heq])
    exact List.mem_map.mpr ⟨e, he, Entry.modify_of_ne hnode _⟩

theorem map_node_savedThreads : (s.savedThreads ts).map Entry.node = ts.map Entry.node := by
  unfold savedThreads
  cases s.current with
  | none => rfl
  | some t =>
    rw [List.map_map]
    exact List.map_congr_left fun e _ => Entry.node_modify t _ e

theorem WellFormed.keepsCurrent_eq (h : s.WellFormed ts ws ps) (p : Nat) :
    s.keepsCurrent ((s.firstEntry ws).map Entry.node) p =
      some (decide (∃ e, s.firstEntry ws = some e ∧ p < e.key)) := by
  cases hentry : s.firstEntry ws with
  | none => simp [keepsCurrent]
  | some e =>
    obtain ⟨he, hready⟩ := h.firstEntry_mem hentry
    have hready' : s.ready e.data = some true := hready
    obtain ⟨n, hn, hkey, -⟩ := h.waiting.read he
    simp [keepsCurrent, h.nodePointer_eq he, hready', hn, hkey]

/-- Saving the current thread leaves the one that is loaded next as it is. -/
theorem WellFormed.exists_loaded {s' : Scheduler} (h : s.WellFormed ts ws ps)
    (hts : s'.threads.Lists (s.savedThreads ts)) :
    ∃ th, ∀ e, s.firstEntry ws = some e → s'.thread e.data = some th ∧ s.thread e.data = some th := by
  cases hentry : s.firstEntry ws with
  | none => exact ⟨⟨0, 0, 0, 0, s.lastState, 0⟩, by simp⟩
  | some e =>
    obtain ⟨he, -⟩ := h.firstEntry_mem hentry
    obtain ⟨x, hx, hnode, hthread⟩ := h.exists_thread (h.mem_placed he)
    refine ⟨x.data, fun e' he' => ?_⟩
    obtain rfl := Option.some.inj he'
    obtain ⟨n, hn, -, hdata⟩ := hts.read (mem_savedThreads (hnode ▸ h.ne_current he) hx)
    refine ⟨?_, hthread⟩
    unfold thread
    rw [← hnode, hn, Option.map_some, hdata]

/-- The context switch, with the keys it leaves in the queue. -/
theorem WellFormed.switch_requeues (image : Image) (h : s.WellFormed ts ws ps) {new : Fresh Addr}
    (hnew : s.threadsWaiting.node new.addr = none) :
    ∃ s' r p, s.switch image new = some (s', r) ∧ s.priority = some p ∧ SwitchFrame s s' ∧
      ((r = 0 ∧ Kept s s' ws p) ∨
        (r = 1 ∧ ∃ ws', Switched image s s' ts ws ws' p ∧ s.Requeued ws ws' p)) := by
  obtain ⟨prevTime, tickIdling, tickUserspace, tickKernel, hcount⟩ := h.countTicks_eq
  obtain ⟨p, hpriority, hp⟩ := h.priority_eq
  set s₀ : Scheduler := { s with prevTime, tickIdling, tickUserspace, tickKernel } with hs₀
  have h₀ : s₀.WellFormed ts ws ps :=
    ⟨h.threads, h.waiting, h.pool, h.idallo, h.ids, h.keys, h.known, h.distinct⟩
  have hpriority₀ : s₀.priority = some p := hpriority
  have hfirst : s₀.firstReady s₀.threadsWaiting.fuel (ws.head?.map Entry.node) =
      some ((s.firstEntry ws).map Entry.node) :=
    h₀.firstReady (List.nil_append ws).symm (by rw [h₀.waiting.fuel_eq]; omega)
  have hkeeps : s₀.keepsCurrent ((s.firstEntry ws).map Entry.node) p =
      some (decide (∃ e, s.firstEntry ws = some e ∧ p < e.key)) := h₀.keepsCurrent_eq p
  by_cases hbehind : ∃ e, s.firstEntry ws = some e ∧ p < e.key
  · refine ⟨s₀, 0, p, ?_, hpriority, ⟨rfl, rfl, rfl, rfl⟩, .inl ⟨rfl, ⟨hbehind, rfl, rfl, rfl, rfl⟩⟩⟩
    simp [Scheduler.switch, hcount, hpriority₀, h₀.waiting.firstNode, hfirst, hkeeps, hbehind]
  · have hahead : ∀ e, s.firstEntry ws = some e → e.key ≤ p := fun e he =>
      Nat.le_of_not_lt fun hlt => hbehind ⟨e, he, hlt⟩
    obtain ⟨s₁, ws₁, q, hsave, hframe₁, hstate₁, hts₁, hws₁, hqueue₁, hperm₁, hq⟩ :=
      h₀.saveCurrent hp hnew
    obtain ⟨th, hth⟩ : ∃ th, ∀ e, s.firstEntry ws = some e →
        s₁.thread e.data = some th ∧ s.thread e.data = some th := h₀.exists_loaded hts₁
    obtain ⟨s', ws', hload, hframe', hthreads', hcurrent', hws', hperm', hstate'⟩ :=
      loadFirst_spec image hws₁ fun e he =>
        ⟨hperm₁.symm.subset (List.mem_append_right q (h.firstEntry_mem he).1), (hth e he).1⟩
    have hmem₁ : ∀ e ∈ ws', e ∈ ws₁ := fun e he => hperm'.symm.subset (List.mem_append_right _ he)
    refine ⟨s', 1, p, ?_, hpriority, ⟨?_, ?_, ?_, ?_⟩, .inr ⟨rfl, ws', ?_, fun e he => ?_⟩⟩
    · simp [Scheduler.switch, hcount, hpriority₀, h₀.waiting.firstNode, hfirst, hkeeps, hbehind,
        hsave, hload]
    · exact hframe'.sync.trans hframe₁.sync
    · exact hframe'.idallo.trans hframe₁.idallo
    · exact hframe'.stackPool.trans hframe₁.stackPool
    · exact hframe'.kernelMappingBottom.trans hframe₁.kernelMappingBottom
    · refine ⟨hahead, hcurrent', by rw [hthreads']; exact hts₁, hws', fun e he => ?_, ?_,
        fun hnone => ?_, fun e th' he hth' => ?_⟩
      · exact hqueue₁.key_lt h₀ (hmem₁ e he)
      · have hleft : s'.placed ws' =
            ((s.firstEntry ws).toList ++ ws').map Entry.data := by
          unfold Scheduler.placed
          rw [hcurrent', List.map_append]
          cases s.firstEntry ws <;> rfl
        have hright : s.placed ws = (q ++ ws).map Entry.data := by
          unfold Scheduler.placed
          rw [List.map_append, hq]
        rw [hleft, hright]
        exact (hperm'.symm.trans hperm₁).map Entry.data
      · rw [hstate', hnone]
        unfold idleState
        rw [hstate₁]
        rfl
      · rw [hstate', he]
        obtain rfl := Option.some.inj ((hth e he).2.symm.trans hth')
        rfl
    · exact hqueue₁ e (hmem₁ e he)

/-- **The context switch.** -/
theorem WellFormed.switch (image : Image) (h : s.WellFormed ts ws ps) {new : Fresh Addr}
    (hnew : s.threadsWaiting.node new.addr = none) :
    ∃ s' r p, s.switch image new = some (s', r) ∧ s.priority = some p ∧ SwitchFrame s s' ∧
      ((r = 0 ∧ Kept s s' ws p) ∨ (r = 1 ∧ ∃ ws', Switched image s s' ts ws ws' p)) := by
  obtain ⟨s', r, p, hrun, hp, hframe, houtcome⟩ := h.switch_requeues image hnew
  refine ⟨s', r, p, hrun, hp, hframe, houtcome.imp_right ?_⟩
  rintro ⟨hr, ws', hs, -⟩
  exact ⟨hr, ws', hs⟩

theorem Switched.wellFormed {image : Image} {s' : Scheduler} {ws' : List (Entry Addr)} {p : Nat}
    (h : s.WellFormed ts ws ps) (hframe : SwitchFrame s s') (hs : Switched image s s' ts ws ws' p) :
    s'.WellFormed (s.savedThreads ts) ws' ps := by
  refine ⟨hs.threads, hs.waiting, hframe.stackPool ▸ h.pool, hframe.idallo ▸ h.idallo,
    fun e he => ?_, hs.keys, fun t ht => ?_, hs.placed.nodup_iff.mpr h.distinct⟩
  · rw [hframe.idallo]
    unfold savedThreads at he
    cases hcurrent : s.current with
    | none =>
      simp only [hcurrent] at he
      exact h.ids e he
    | some t =>
      simp only [hcurrent] at he
      obtain ⟨x, hx, rfl⟩ := List.mem_map.mp he
      obtain ⟨hxid, hxle⟩ := h.ids x hx
      have hkept := Entry.data_modify_kept (g := Thread.id)
        (f := fun th => { th with lastTick := s.sync.now, state := s.lastState }) (fun _ => rfl) t x
      rw [Entry.key_modify]
      exact ⟨hkept.trans hxid, hxle⟩
  · rw [map_node_savedThreads]
    exact h.known t (hs.placed.subset ht)

theorem Kept.wellFormed {s' : Scheduler} {p : Nat} (h : s.WellFormed ts ws ps)
    (hframe : SwitchFrame s s') (hk : Kept s s' ws p) : s'.WellFormed ts ws ps := by
  have hplaced : s'.placed ws = s.placed ws := placed_of_current hk.current ws
  exact ⟨hk.threads ▸ h.threads, hk.waiting ▸ h.waiting, hframe.stackPool ▸ h.pool,
    hframe.idallo ▸ h.idallo, hframe.idallo ▸ h.ids, h.keys, hplaced ▸ h.known,
    hplaced ▸ h.distinct⟩

end Switch

end Scheduler

end Helos
