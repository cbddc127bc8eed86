import Helos.Smp.Sync
import Helos.Theory.Run

/-!
# Mutual exclusion

Any number of threads call the functions of `Sync` in any order. Each thread is running or inside a
call that has blocked it, and goes on once its wait record no longer waits. `holders` and `handed`
record, for each mutex, who has acquired it and to whom `smp_Mutex_Unlock` has passed it.

`smp_Mutex_LockTimeout` leaves its thread in `mutex->waiting` when it times out. A later
`smp_Mutex_Unlock` may then pop a thread that does not wait for the mutex, and the mutex is locked
for good. Exclusion holds up to the first such step, and never after it.
-/

namespace Helos

/-- Where a thread is between two steps. -/
inductive Place where
  | running
  | lock (mutex : Addr)
  | lockTimeout (mutex : Addr)
  | wait (condition : Addr)
deriving DecidableEq

def Place.BlockedOn (place : Place) (mutex : Addr) : Prop :=
  place = .lock mutex ∨ place = .lockTimeout mutex

instance (place : Place) (mutex : Addr) : Decidable (place.BlockedOn mutex) :=
  inferInstanceAs (Decidable (_ ∨ _))

structure Threads where
  sync : Sync
  place : Addr → Place
  holders : Addr → List Addr
  handed : Addr → List Addr

inductive Call where
  | lock (t mutex : Addr)
  | lockTimeout (t mutex : Addr) (timeout : Nat)
  | tryLock (t mutex : Addr)
  | unlock (t mutex : Addr)
  | wait (t condition : Addr)
  | notifyOne (condition : Addr) (data : Nat)
  | notifyAll (condition : Addr) (data : Nat)
  | resume (t : Addr)
  | tick

namespace Threads

def acquire (s : Threads) (t mutex : Addr) : Threads :=
  { s with holders := Function.update s.holders mutex (t :: s.holders mutex) }

def goTo (s : Threads) (t : Addr) (place : Place) : Threads :=
  { s with place := Function.update s.place t place }

/-- The thread that `smp_Mutex_Unlock` takes from the vector is handed the mutex, if it waits for
it. -/
def handOver (s : Threads) (mutex : Addr) : List Addr :=
  match (s.sync.mutex mutex).waiting.getLast? with
  | some waiting =>
    if (s.place waiting).BlockedOn mutex then waiting :: s.handed mutex else s.handed mutex
  | none => s.handed mutex

def leave (s : Threads) (t mutex : Addr) : Threads :=
  { s.goTo t .running with
    handed := Function.update s.handed mutex ((s.handed mutex).erase t) }

/-- The functions are called by running threads, and `smp_Mutex_Unlock` by a holder. `smp_Mutex_Lock`
ignores what `smp_Mutex_LockTimeout` returns. -/
def step (s : Threads) : Call → Option Threads
  | .lock t mutex =>
    if s.place t = .running then
      match s.sync.lock t mutex with
      | (sync, true) => some ({ s with sync }.acquire t mutex)
      | (sync, false) => some ({ s with sync }.goTo t (.lock mutex))
    else none
  | .lockTimeout t mutex timeout =>
    if s.place t = .running then
      match s.sync.lockTimeout t mutex timeout with
      | (sync, true) => some ({ s with sync }.acquire t mutex)
      | (sync, false) => some ({ s with sync }.goTo t (.lockTimeout mutex))
    else none
  | .tryLock t mutex =>
    if s.place t = .running then
      match s.sync.tryLock mutex with
      | (sync, true) => some ({ s with sync }.acquire t mutex)
      | (sync, false) => some { s with sync }
    else none
  | .unlock t mutex =>
    if s.place t = .running ∧ t ∈ s.holders mutex then do
      let sync ← s.sync.unlock mutex
      some
        { s with
          sync
          holders := Function.update s.holders mutex ((s.holders mutex).erase t)
          handed := Function.update s.handed mutex (s.handOver mutex) }
    else none
  | .wait t condition =>
    if s.place t = .running then
      some ({ s with sync := s.sync.conditionWait t condition }.goTo t (.wait condition))
    else none
  | .notifyOne condition data => do
    let (sync, _) ← s.sync.notifyOne condition data
    some { s with sync }
  | .notifyAll condition data => do
    let (sync, _) ← s.sync.notifyAll condition data
    some { s with sync }
  | .resume t =>
    if s.sync.isWaiting t then none
    else
      match s.place t with
      | .running => none
      | .lock mutex => some ((s.leave t mutex).acquire t mutex)
      | .lockTimeout mutex => do
        let data ← s.sync.waitData t
        some (if data ≠ 0 then (s.leave t mutex).acquire t mutex else s.leave t mutex)
      | .wait _ => some (s.goTo t .running)
  | .tick => some { s with sync := s.sync.tick }

/-- New mutexes and conditions, and threads with any wait records. -/
def initial (now : Nat) (wait : Addr → Option Waiting) : Threads :=
  { sync := { now, wait, mutex := fun _ => ⟨0, []⟩, condition := fun _ => ⟨[]⟩ }
    place := fun _ => .running
    holders := fun _ => []
    handed := fun _ => [] }

/-- At most one thread holds a mutex, and it is locked just while one does or is about to. -/
def Exclusive (s : Threads) : Prop :=
  ∀ mutex, (s.holders mutex).length ≤ 1 ∧
    ((s.sync.mutex mutex).locked ≠ 0 ↔ s.holders mutex ≠ [] ∨ s.handed mutex ≠ [])

/-- The thread that `smp_Mutex_Unlock` would wake is still blocked on this mutex. -/
def WaiterPresent (s : Threads) : Call → Prop
  | .unlock _ mutex =>
    ∀ waiting, (s.sync.mutex mutex).waiting.getLast? = some waiting →
      (s.place waiting).BlockedOn mutex
  | _ => True

/-! ### The invariant -/

structure Invariant (s : Threads) : Prop where
  free : ∀ mutex, (s.sync.mutex mutex).locked = 0 → s.holders mutex = [] ∧ s.handed mutex = []
  owned : ∀ mutex, (s.sync.mutex mutex).locked ≠ 0 →
    (s.holders mutex).length + (s.handed mutex).length = 1
  handed : ∀ mutex t, t ∈ s.handed mutex →
    (s.place t).BlockedOn mutex ∧ ∃ w, s.sync.wait t = some w ∧ w.data ≠ 0
  pending : ∀ mutex t, (s.place t).BlockedOn mutex → t ∉ s.handed mutex →
    ∃ w, s.sync.wait t = some w ∧ w.data = 0 ∧
      (s.place t = .lock mutex → w.object.isSome ∧ w.timeout = 0)
  parked : ∀ c, (s.sync.condition c).threads.Nodup ∧
    ∀ t ∈ (s.sync.condition c).threads, s.place t = .wait c ∧
      ∃ w, s.sync.wait t = some w ∧ w.object.isSome ∧ w.timeout = 0

theorem Invariant.exclusive {s : Threads} (h : s.Invariant) : s.Exclusive := by
  intro mutex
  by_cases hlocked : (s.sync.mutex mutex).locked = 0
  · obtain ⟨hholders, hhanded⟩ := h.free mutex hlocked
    simp [hlocked, hholders, hhanded]
  · have howned := h.owned mutex hlocked
    refine ⟨by omega, iff_of_true hlocked ?_⟩
    by_contra hnone
    rw [not_or, not_not, not_not] at hnone
    simp [hnone.1, hnone.2] at howned

theorem invariant_initial (now : Nat) (wait : Addr → Option Waiting) :
    (initial now wait).Invariant := by
  constructor <;> simp [initial, Place.BlockedOn]

section Step

variable {s : Threads} {t mutex : Addr}

theorem not_blockedOn_running (mutex : Addr) : ¬ Place.running.BlockedOn mutex := by
  simp [Place.BlockedOn]

theorem not_blockedOn_wait (c mutex : Addr) : ¬ (Place.wait c).BlockedOn mutex := by
  simp [Place.BlockedOn]

theorem blockedOn_inj {place : Place} {m m' : Addr} (h : place.BlockedOn m)
    (h' : place.BlockedOn m') : m = m' := by
  rcases h with rfl | rfl <;> simpa [Place.BlockedOn] using h'

theorem Invariant.acquire (h : s.Invariant) (hfree : (s.sync.mutex mutex).locked = 0) {m : Mutex}
    (hm : m.locked ≠ 0) :
    Invariant ({ s with
      sync := { s.sync with mutex := Function.update s.sync.mutex mutex m } }.acquire t mutex) := by
  obtain ⟨hholders, hhanded⟩ := h.free mutex hfree
  refine ⟨fun m' hm' => ?_, fun m' hm' => ?_, h.handed, h.pending, h.parked⟩
  · by_cases heq : m' = mutex
    · subst heq
      simp [Threads.acquire, hm] at hm'
    · simp only [Threads.acquire, Function.update_of_ne heq] at hm' ⊢
      exact h.free m' hm'
  · by_cases heq : m' = mutex
    · subst heq
      simp [Threads.acquire, hholders, hhanded]
    · simp only [Threads.acquire, Function.update_of_ne heq] at hm' ⊢
      exact h.owned m' hm'

theorem Invariant.block (h : s.Invariant) (ht : s.place t = .running) {m : Mutex}
    (hm : m.locked = (s.sync.mutex mutex).locked) {place : Place} (hplace : place.BlockedOn mutex)
    {w : Waiting} (hdata : w.data = 0)
    (htimeout : place = .lock mutex → w.object.isSome ∧ w.timeout = 0) :
    Invariant ({ s with
      sync := { s.sync with
        wait := Function.update s.sync.wait t (some w)
        mutex := Function.update s.sync.mutex mutex m } }.goTo t place) := by
  have hlocked : ∀ m', (Function.update s.sync.mutex mutex m m').locked =
      (s.sync.mutex m').locked := by
    intro m'
    rw [Function.update_apply]
    split
    · next heq => rw [hm, heq]
    · rfl
  refine ⟨fun m' hm' => ?_, fun m' hm' => ?_, fun m' x hx => ?_, fun m' x hx hnot => ?_,
    fun c => ⟨(h.parked c).1, fun x hx => ?_⟩⟩
  · exact h.free m' ((hlocked m').symm.trans hm')
  · exact h.owned m' (fun h0 => hm' ((hlocked m').trans h0))
  · obtain ⟨hblocked, hwait⟩ := h.handed m' x hx
    have hne : x ≠ t := by
      intro heq
      rw [heq, ht] at hblocked
      exact not_blockedOn_running m' hblocked
    simpa [goTo, Function.update_of_ne hne] using ⟨hblocked, hwait⟩
  · by_cases hxt : x = t
    · subst hxt
      simp only [goTo, Function.update_self] at hx ⊢
      obtain rfl := blockedOn_inj hplace hx
      exact ⟨w, rfl, hdata, htimeout⟩
    · simp only [goTo, Function.update_of_ne hxt] at hx ⊢
      exact h.pending m' x hx hnot
  · obtain ⟨hplace', hwait⟩ := (h.parked c).2 x hx
    have hne : x ≠ t := by
      intro heq
      rw [heq, ht] at hplace'
      cases hplace'
    simpa [goTo, Function.update_of_ne hne] using ⟨hplace', hwait⟩

theorem Invariant.park (h : s.Invariant) (ht : s.place t = .running) (c : Addr) :
    Invariant ({ s with sync := s.sync.conditionWait t c }.goTo t (.wait c)) := by
  have hout : ∀ c', t ∉ (s.sync.condition c').threads := by
    intro c' hmem
    have hplace := ((h.parked c').2 t hmem).1
    rw [ht] at hplace
    cases hplace
  refine ⟨h.free, h.owned, fun m' x hx => ?_, fun m' x hx hnot => ?_, fun c' => ?_⟩
  · obtain ⟨hblocked, hwait⟩ := h.handed m' x hx
    have hne : x ≠ t := by
      intro heq
      rw [heq, ht] at hblocked
      exact not_blockedOn_running m' hblocked
    simpa [goTo, Sync.conditionWait, Function.update_of_ne hne] using ⟨hblocked, hwait⟩
  · have hne : x ≠ t := by
      intro heq
      simp only [heq, goTo, Function.update_self] at hx
      exact not_blockedOn_wait c m' hx
    simp only [goTo, Sync.conditionWait, Function.update_of_ne hne] at hx ⊢
    exact h.pending m' x hx hnot
  · -- the threads of every condition but `t` stay as they are
    have hold : ∀ x ∈ (s.sync.condition c').threads,
        (Function.update s.place t (.wait c)) x = .wait c' ∧
          ∃ w, (s.sync.conditionWait t c).wait x = some w ∧ w.object.isSome ∧ w.timeout = 0 := by
      intro x hx
      have hne : x ≠ t := fun heq => hout c' (heq ▸ hx)
      simpa [Sync.conditionWait, Function.update_of_ne hne] using (h.parked c').2 x hx
    by_cases heq : c' = c
    · subst heq
      simp only [goTo, Sync.conditionWait, Function.update_self]
      refine ⟨List.nodup_append.mpr ⟨(h.parked c').1, by simp, ?_⟩, fun x hx => ?_⟩
      · intro x hx y hy
        obtain rfl := List.mem_singleton.mp hy
        exact fun heq => hout c' (heq ▸ hx)
      · rcases List.mem_append.mp hx with hx | hx
        · exact hold x hx
        · obtain rfl := List.mem_singleton.mp hx
          simp
    · simp only [goTo, Sync.conditionWait, Function.update_of_ne heq]
      exact ⟨(h.parked c').1, hold⟩

/-- A notification only writes to the records of threads it takes off the condition. -/
theorem Invariant.notify (h : s.Invariant) {c : Addr} {sync : Sync} {l : List Addr}
    (hmutex : sync.mutex = s.sync.mutex)
    (hcondition : sync.condition = Function.update s.sync.condition c ⟨l⟩)
    (hl : l.Sublist (s.sync.condition c).threads)
    (hwait : ∀ x, x ∉ (s.sync.condition c).threads ∨ x ∈ l → sync.wait x = s.sync.wait x) :
    Invariant { s with sync } := by
  have hblocked : ∀ m' x, (s.place x).BlockedOn m' → sync.wait x = s.sync.wait x := by
    intro m' x hx
    refine hwait x (.inl fun hmem => ?_)
    rw [((h.parked c).2 x hmem).1] at hx
    exact not_blockedOn_wait c m' hx
  refine ⟨fun m' hm' => ?_, fun m' hm' => ?_, fun m' x hx => ?_, fun m' x hx hnot => ?_,
    fun c' => ?_⟩
  · rw [hmutex] at hm'
    exact h.free m' hm'
  · rw [hmutex] at hm'
    exact h.owned m' hm'
  · obtain ⟨hplace, hw⟩ := h.handed m' x hx
    rw [hblocked m' x hplace]
    exact ⟨hplace, hw⟩
  · rw [hblocked m' x hx]
    exact h.pending m' x hx hnot
  · simp only [hcondition]
    by_cases heq : c' = c
    · subst heq
      rw [Function.update_self]
      refine ⟨hl.nodup (h.parked c').1, fun x hx => ?_⟩
      rw [hwait x (.inr hx)]
      exact (h.parked c').2 x (hl.subset hx)
    · rw [Function.update_of_ne heq]
      refine ⟨(h.parked c').1, fun x hx => ?_⟩
      have hplace := ((h.parked c').2 x hx).1
      rw [hwait x (.inl fun hmem => ?_)]
      · exact (h.parked c').2 x hx
      · rw [((h.parked c).2 x hmem).1] at hplace
        exact heq (Place.wait.inj hplace).symm

/-- A holder is the only one, and nobody has been handed its mutex. -/
theorem Invariant.holder (h : s.Invariant) (ht : t ∈ s.holders mutex) :
    (s.sync.mutex mutex).locked ≠ 0 ∧ s.holders mutex = [t] ∧ s.handed mutex = [] := by
  have hlocked : (s.sync.mutex mutex).locked ≠ 0 := by
    intro h0
    simp [(h.free mutex h0).1] at ht
  have howned := h.owned mutex hlocked
  have hpos : 0 < (s.holders mutex).length := List.length_pos_of_mem ht
  obtain ⟨x, hx⟩ := List.length_eq_one_iff.mp (show (s.holders mutex).length = 1 by omega)
  have hnil : s.handed mutex = [] := List.length_eq_zero_iff.mp (by omega)
  rw [hx, List.mem_singleton] at ht
  exact ⟨hlocked, by rw [hx, ht], hnil⟩

theorem Invariant.handed_eq (h : s.Invariant) (ht : t ∈ s.handed mutex) :
    (s.sync.mutex mutex).locked ≠ 0 ∧ s.handed mutex = [t] ∧ s.holders mutex = [] := by
  have hlocked : (s.sync.mutex mutex).locked ≠ 0 := by
    intro h0
    simp [(h.free mutex h0).2] at ht
  have howned := h.owned mutex hlocked
  have hpos : 0 < (s.handed mutex).length := List.length_pos_of_mem ht
  obtain ⟨x, hx⟩ := List.length_eq_one_iff.mp (show (s.handed mutex).length = 1 by omega)
  have hnil : s.holders mutex = [] := List.length_eq_zero_iff.mp (by omega)
  rw [hx, List.mem_singleton] at ht
  exact ⟨hlocked, by rw [hx, ht], hnil⟩

theorem Invariant.unlock (h : s.Invariant) (ht : t ∈ s.holders mutex) {m : Mutex}
    (hm : m.locked = 0) :
    Invariant { s with
      sync := { s.sync with mutex := Function.update s.sync.mutex mutex m }
      holders := Function.update s.holders mutex ((s.holders mutex).erase t)
      handed := Function.update s.handed mutex (s.handed mutex) } := by
  obtain ⟨-, hholders, hhanded⟩ := h.holder ht
  rw [Function.update_eq_self]
  refine ⟨fun m' hm' => ?_, fun m' hm' => ?_, h.handed, h.pending, h.parked⟩
  · by_cases heq : m' = mutex
    · subst heq
      simp [hholders, hhanded]
    · simp only [Function.update_of_ne heq] at hm' ⊢
      exact h.free m' hm'
  · by_cases heq : m' = mutex
    · subst heq
      simp [hm] at hm'
    · simp only [Function.update_of_ne heq] at hm' ⊢
      exact h.owned m' hm'

/-- The holder unlocks a mutex and hands it to a thread that is blocked on it. -/
theorem Invariant.handOver (h : s.Invariant) (ht : t ∈ s.holders mutex) {m : Mutex}
    (hm : m.locked ≠ 0) {x : Addr} (hx : (s.place x).BlockedOn mutex) {w : Waiting}
    (hw : w.data ≠ 0) :
    Invariant { s with
      sync := { s.sync with
        wait := Function.update s.sync.wait x (some w)
        mutex := Function.update s.sync.mutex mutex m }
      holders := Function.update s.holders mutex ((s.holders mutex).erase t)
      handed := Function.update s.handed mutex (x :: s.handed mutex) } := by
  obtain ⟨hlocked, hholders, hhanded⟩ := h.holder ht
  refine ⟨fun m' hm' => ?_, fun m' hm' => ?_, fun m' y hy => ?_, fun m' y hy hnot => ?_,
    fun c => ⟨(h.parked c).1, fun y hy => ?_⟩⟩
  · by_cases heq : m' = mutex
    · subst heq
      simp [hm] at hm'
    · simp only [Function.update_of_ne heq] at hm' ⊢
      exact h.free m' hm'
  · by_cases heq : m' = mutex
    · subst heq
      simp [hholders, hhanded]
    · simp only [Function.update_of_ne heq] at hm' ⊢
      exact h.owned m' hm'
  · by_cases heq : m' = mutex
    · subst heq
      obtain rfl : y = x := by simpa [hhanded] using hy
      exact ⟨hx, w, by simp, hw⟩
    · simp only [Function.update_of_ne heq] at hy
      obtain ⟨hblocked, hwait⟩ := h.handed m' y hy
      have hne : y ≠ x := by
        intro hyx
        rw [hyx] at hblocked
        exact heq (blockedOn_inj hblocked hx)
      simpa [Function.update_of_ne hne] using ⟨hblocked, hwait⟩
  · have hne : y ≠ x := by
      intro hyx
      subst hyx
      obtain rfl := blockedOn_inj hx hy
      simp at hnot
    have hnot' : y ∉ s.handed m' := by
      by_cases heq : m' = mutex
      · subst heq
        simp [hhanded]
      · simpa [Function.update_of_ne heq] using hnot
    simp only [Function.update_of_ne hne]
    exact h.pending m' y hy hnot'
  · obtain ⟨hplace, hwait⟩ := (h.parked c).2 y hy
    have hne : y ≠ x := by
      intro hyx
      rw [← hyx, hplace] at hx
      exact not_blockedOn_wait c mutex hx
    simpa [Function.update_of_ne hne] using ⟨hplace, hwait⟩

theorem Invariant.place_goTo (h : s.Invariant) (hout : ∀ c, t ∉ (s.sync.condition c).threads)
    (place : Place) (c : Addr) :
    (s.sync.condition c).threads.Nodup ∧
      ∀ x ∈ (s.sync.condition c).threads, (Function.update s.place t place) x = .wait c ∧
        ∃ w, s.sync.wait x = some w ∧ w.object.isSome ∧ w.timeout = 0 := by
  refine ⟨(h.parked c).1, fun x hx => ?_⟩
  have hne : x ≠ t := fun heq => hout c (heq ▸ hx)
  rw [Function.update_of_ne hne]
  exact (h.parked c).2 x hx

theorem Invariant.not_parked (h : s.Invariant) (ht : (s.place t).BlockedOn mutex) (c : Addr) :
    t ∉ (s.sync.condition c).threads := by
  intro hmem
  rw [((h.parked c).2 t hmem).1] at ht
  exact not_blockedOn_wait c mutex ht

theorem Invariant.resumeHanded (h : s.Invariant) (ht : t ∈ s.handed mutex) :
    Invariant ((s.leave t mutex).acquire t mutex) := by
  obtain ⟨hlocked, hhanded, hholders⟩ := h.handed_eq ht
  have hblocked := (h.handed mutex t ht).1
  refine ⟨fun m' hm' => ?_, fun m' hm' => ?_, fun m' x hx => ?_, fun m' x hx hnot => ?_,
    h.place_goTo (h.not_parked hblocked) .running⟩
  · by_cases heq : m' = mutex
    · subst heq
      exact absurd hm' hlocked
    · simpa [Threads.acquire, leave, goTo, Function.update_of_ne heq] using h.free m' hm'
  · by_cases heq : m' = mutex
    · subst heq
      simp [Threads.acquire, leave, goTo, hhanded, hholders]
    · simpa [Threads.acquire, leave, goTo, Function.update_of_ne heq] using h.owned m' hm'
  · by_cases heq : m' = mutex
    · subst heq
      simp [Threads.acquire, leave, hhanded] at hx
    · simp only [Threads.acquire, leave, goTo, Function.update_of_ne heq] at hx ⊢
      obtain ⟨hx', hwait⟩ := h.handed m' x hx
      have hne : x ≠ t := by
        intro hxt
        rw [hxt] at hx'
        exact heq (blockedOn_inj hx' hblocked)
      rw [Function.update_of_ne hne]
      exact ⟨hx', hwait⟩
  · have hne : x ≠ t := by
      intro hxt
      simp only [hxt, Threads.acquire, leave, goTo, Function.update_self] at hx
      exact not_blockedOn_running m' hx
    simp only [Threads.acquire, leave, goTo, Function.update_of_ne hne] at hx hnot ⊢
    refine h.pending m' x hx fun hmem => hnot ?_
    by_cases heq : m' = mutex
    · subst heq
      rw [hhanded, List.mem_singleton] at hmem
      exact absurd hmem hne
    · rwa [Function.update_of_ne heq]

theorem Invariant.resumeTimedOut (h : s.Invariant) (ht : (s.place t).BlockedOn mutex)
    (hnot : t ∉ s.handed mutex) : Invariant (s.leave t mutex) := by
  have hhanded : (s.leave t mutex).handed = s.handed := by
    simp [leave, goTo, List.erase_of_not_mem hnot]
  refine ⟨fun m' hm' => ?_, fun m' hm' => ?_, fun m' x hx => ?_, fun m' x hx hnot' => ?_,
    h.place_goTo (h.not_parked ht) .running⟩
  · rw [hhanded]
    exact h.free m' hm'
  · rw [hhanded]
    exact h.owned m' hm'
  · rw [hhanded] at hx
    obtain ⟨hx', hwait⟩ := h.handed m' x hx
    have hne : x ≠ t := by
      intro hxt
      rw [hxt] at hx' hx
      obtain rfl := blockedOn_inj hx' ht
      exact hnot hx
    simpa [leave, goTo, Function.update_of_ne hne] using ⟨hx', hwait⟩
  · rw [hhanded] at hnot'
    have hne : x ≠ t := by
      intro hxt
      simp only [hxt, leave, goTo, Function.update_self] at hx
      exact not_blockedOn_running m' hx
    simp only [leave, goTo, Function.update_of_ne hne] at hx ⊢
    exact h.pending m' x hx hnot'

theorem Invariant.resumeWait (h : s.Invariant) {c : Addr} (ht : s.place t = .wait c)
    (hwait : s.sync.isWaiting t = false) : Invariant (s.goTo t .running) := by
  have hout : ∀ c', t ∉ (s.sync.condition c').threads := by
    intro c' hmem
    obtain ⟨-, w, hw, hobject, htimeout⟩ := (h.parked c').2 t hmem
    simp [Sync.isWaiting, isWaiting, hw, hobject, htimeout] at hwait
  have hne : ∀ m' x, (s.place x).BlockedOn m' → x ≠ t := by
    intro m' x hx hxt
    rw [hxt, ht] at hx
    exact not_blockedOn_wait c m' hx
  refine ⟨h.free, h.owned, fun m' x hx => ?_, fun m' x hx hnot => ?_, h.place_goTo hout .running⟩
  · obtain ⟨hx', hwait'⟩ := h.handed m' x hx
    simpa [goTo, Function.update_of_ne (hne m' x hx')] using ⟨hx', hwait'⟩
  · have hxt : x ≠ t := by
      intro hxt
      simp only [hxt, goTo, Function.update_self] at hx
      exact not_blockedOn_running m' hx
    simp only [goTo, Function.update_of_ne hxt] at hx ⊢
    exact h.pending m' x hx hnot

theorem Invariant.lockTimeout (h : s.Invariant) (ht : s.place t = .running) (timeout : Nat)
    {place : Place} (hplace : place.BlockedOn mutex) (htimeout : place = .lock mutex → timeout = 0) :
    match s.sync.lockTimeout t mutex timeout with
    | (sync, true) => Invariant ({ s with sync }.acquire t mutex)
    | (sync, false) => Invariant ({ s with sync }.goTo t place) := by
  unfold Sync.lockTimeout
  simp only
  by_cases hlocked : (s.sync.mutex mutex).locked = 0
  · rw [if_pos hlocked]
    exact h.acquire hlocked (by simp)
  · rw [if_neg hlocked]
    let w : Waiting :=
      ⟨some mutex, 0, if timeout ≠ 0 then wrap64 (s.sync.now + timeout) else 0, .mutex⟩
    let m : Mutex := ⟨(s.sync.mutex mutex).locked, (s.sync.mutex mutex).waiting ++ [t]⟩
    apply h.block (w := w) (m := m) ht rfl hplace rfl
    intro hlock
    simp [w, htimeout hlock]

theorem Invariant.notifyOne (h : s.Invariant) {c : Addr} {data : Nat} {sync : Sync} {found : Bool}
    (hsync : s.sync.notifyOne c data = some (sync, found)) : Invariant { s with sync } := by
  unfold Sync.notifyOne at hsync
  cases hlast : (s.sync.condition c).threads.getLast? with
  | none =>
    simp only [hlast] at hsync
    obtain ⟨rfl, -⟩ := Prod.mk.inj (Option.some.inj hsync)
    exact h
  | some last =>
    simp only [hlast] at hsync
    obtain ⟨sync', hmodify, hsync'⟩ := Option.bind_eq_some_iff.mp hsync
    obtain ⟨w, -, rfl⟩ := Sync.modifyWait_eq_some hmodify
    obtain ⟨rfl, -⟩ := Prod.mk.inj (Option.some.inj hsync')
    have hsplit := List.dropLast_append_getLast? last hlast
    refine h.notify rfl rfl (List.dropLast_sublist _) fun x hx => Function.update_of_ne ?_ _ _
    intro heq
    subst heq
    rcases hx with hx | hx
    · exact hx (List.mem_of_getLast? hlast)
    · have hnodup := (h.parked c).1
      rw [← hsplit, List.nodup_append] at hnodup
      exact hnodup.2.2 x hx x (List.mem_singleton.mpr rfl) rfl

theorem Invariant.notifyAll (h : s.Invariant) {c : Addr} {data count : Nat} {sync : Sync}
    (hsync : s.sync.notifyAll c data = some (sync, count)) : Invariant { s with sync } := by
  unfold Sync.notifyAll at hsync
  split at hsync
  · obtain ⟨rfl, -⟩ := Prod.mk.inj (Option.some.inj hsync)
    exact h
  · obtain ⟨sync', heach, hsync'⟩ := Option.bind_eq_some_iff.mp hsync
    obtain ⟨hnow, hmutex, hcondition, hwait⟩ := Sync.notifyEach_frame heach
    obtain ⟨rfl, -⟩ := Prod.mk.inj (Option.some.inj hsync')
    refine h.notify hmutex (by rw [hcondition]) (List.nil_sublist _) fun x hx => ?_
    exact hwait x (hx.resolve_right List.not_mem_nil)

/-- A wait without a timeout ends only when the mutex is handed over. -/
theorem Invariant.handed_of_lock (h : s.Invariant) (hplace : s.place t = .lock mutex)
    (hwait : s.sync.isWaiting t = false) : t ∈ s.handed mutex := by
  by_contra hnot
  obtain ⟨w, hw, -, hlock⟩ := h.pending mutex t (.inl hplace) hnot
  obtain ⟨hobject, htimeout⟩ := hlock hplace
  simp [Sync.isWaiting, isWaiting, hw, hobject, htimeout] at hwait

/-- The record of a blocked thread tells whether it has been handed the mutex. -/
theorem Invariant.data_ne_zero_iff (h : s.Invariant) (hblocked : (s.place t).BlockedOn mutex)
    {data : Nat} (hdata : s.sync.waitData t = some data) : data ≠ 0 ↔ t ∈ s.handed mutex := by
  unfold Sync.waitData at hdata
  constructor
  · intro hne
    by_contra hnot
    obtain ⟨w, hw, hzero, -⟩ := h.pending mutex t hblocked hnot
    rw [hw, Option.map_some, Option.some.injEq, hzero] at hdata
    exact hne hdata.symm
  · intro hhanded
    obtain ⟨-, w, hw, hne⟩ := h.handed mutex t hhanded
    rw [hw, Option.map_some, Option.some.injEq] at hdata
    exact hdata ▸ hne

theorem Invariant.stepUnlock {s' : Threads} (h : s.Invariant) {t mutex : Addr}
    (hstep : s.step (.unlock t mutex) = some s') (hpresent : s.WaiterPresent (.unlock t mutex)) :
    s'.Invariant := by
  simp only [Threads.step] at hstep
  split at hstep
  · next hcall =>
    have hlocked := (h.holder hcall.2).1
    obtain ⟨sync, hsync, hs'⟩ := Option.bind_eq_some_iff.mp hstep
    obtain rfl := Option.some.inj hs'
    simp only [WaiterPresent] at hpresent
    cases hlast : (s.sync.mutex mutex).waiting.getLast? with
    | none =>
      obtain rfl := Sync.unlock_of_getLast?_none hlast hsync
      simp only [Threads.handOver, hlast]
      exact h.unlock hcall.2 rfl
    | some waiting =>
      have hblocked := hpresent waiting hlast
      obtain ⟨w, rfl⟩ := Sync.unlock_of_getLast?_some hlast hsync
      simp only [Threads.handOver, hlast, if_pos hblocked]
      have hm : (Mutex.mk (s.sync.mutex mutex).locked
          (s.sync.mutex mutex).waiting.dropLast).locked ≠ 0 := hlocked
      have hw : (Waiting.mk none 1 0 w.type).data ≠ 0 := Nat.one_ne_zero
      exact h.handOver hcall.2 hm hblocked hw
  · cases hstep

theorem Invariant.stepResume {s' : Threads} (h : s.Invariant) {t : Addr}
    (hstep : s.step (.resume t) = some s') : s'.Invariant := by
  simp only [Threads.step] at hstep
  split at hstep
  · cases hstep
  · next hwait =>
    rw [Bool.not_eq_true] at hwait
    split at hstep
    · cases hstep
    · next mutex hplace =>
      exact Option.some.inj hstep ▸ h.resumeHanded (h.handed_of_lock hplace hwait)
    · next mutex hplace =>
      have hblocked : (s.place t).BlockedOn mutex := .inr hplace
      obtain ⟨data, hdata, hs'⟩ := Option.bind_eq_some_iff.mp hstep
      have hhanded := h.data_ne_zero_iff hblocked hdata
      by_cases hne : data ≠ 0
      · rw [if_pos hne] at hs'
        exact Option.some.inj hs' ▸ h.resumeHanded (hhanded.mp hne)
      · rw [if_neg hne] at hs'
        exact Option.some.inj hs' ▸ h.resumeTimedOut hblocked (hhanded.not.mp hne)
    · next c hplace => exact Option.some.inj hstep ▸ h.resumeWait hplace hwait

/-- **A step with its waiter present.** -/
theorem Invariant.step {s' : Threads} (h : s.Invariant) {call : Call}
    (hstep : s.step call = some s') (hpresent : s.WaiterPresent call) : s'.Invariant := by
  cases call with
  | lock t mutex =>
    simp only [Threads.step] at hstep
    split at hstep
    · next ht =>
      have hinv := h.lockTimeout ht 0 (.inl rfl : (Place.lock mutex).BlockedOn mutex) fun _ => rfl
      unfold Sync.lock at hstep
      split at hstep
      · next hlock =>
        rw [hlock] at hinv
        exact Option.some.inj hstep ▸ hinv
      · next hlock =>
        rw [hlock] at hinv
        exact Option.some.inj hstep ▸ hinv
    · cases hstep
  | lockTimeout t mutex timeout =>
    simp only [Threads.step] at hstep
    split at hstep
    · next ht =>
      have hinv := h.lockTimeout ht timeout
        (.inr rfl : (Place.lockTimeout mutex).BlockedOn mutex) (by simp)
      split at hstep
      · next hlock =>
        rw [hlock] at hinv
        exact Option.some.inj hstep ▸ hinv
      · next hlock =>
        rw [hlock] at hinv
        exact Option.some.inj hstep ▸ hinv
    · cases hstep
  | tryLock t mutex =>
    simp only [Threads.step, Sync.tryLock] at hstep
    split at hstep
    · by_cases hlocked : (s.sync.mutex mutex).locked = 0
      · simp only [hlocked, if_true] at hstep
        exact Option.some.inj hstep ▸ h.acquire hlocked (by simp)
      · simp only [hlocked, if_false] at hstep
        exact Option.some.inj hstep ▸ h
    · cases hstep
  | unlock t mutex => exact h.stepUnlock hstep hpresent
  | wait t c =>
    simp only [Threads.step] at hstep
    split at hstep
    · next ht => exact Option.some.inj hstep ▸ h.park ht c
    · cases hstep
  | notifyOne c data =>
    obtain ⟨⟨sync, found⟩, hsync, hs'⟩ := Option.bind_eq_some_iff.mp hstep
    exact Option.some.inj hs' ▸ h.notifyOne hsync
  | notifyAll c data =>
    obtain ⟨⟨sync, count⟩, hsync, hs'⟩ := Option.bind_eq_some_iff.mp hstep
    exact Option.some.inj hs' ▸ h.notifyAll hsync
  | resume t => exact h.stepResume hstep
  | tick =>
    obtain rfl := Option.some.inj hstep
    exact ⟨h.free, h.owned, h.handed, h.pending, h.parked⟩

/-- A mutex passed to a thread that is not there stays locked with nobody to unlock it. -/
theorem Invariant.not_exclusive {s' : Threads} (h : s.Invariant) {call : Call}
    (hstep : s.step call = some s') (habsent : ¬ s.WaiterPresent call) : ¬ s'.Exclusive := by
  cases call with
  | unlock t mutex =>
    simp only [Threads.step] at hstep
    split at hstep
    · next hcall =>
      obtain ⟨hlocked, hholders, hhanded⟩ := h.holder hcall.2
      simp only [WaiterPresent, not_forall] at habsent
      obtain ⟨waiting, hlast, hgone⟩ := habsent
      obtain ⟨sync, hsync, hs'⟩ := Option.bind_eq_some_iff.mp hstep
      obtain rfl := Option.some.inj hs'
      obtain ⟨w, rfl⟩ := Sync.unlock_of_getLast?_some hlast hsync
      simp only [Threads.handOver, hlast, if_neg hgone]
      intro hexclusive
      have hmutex := (hexclusive mutex).2
      simp [hlocked, hholders, hhanded] at hmutex
    · cases hstep
  | _ => exact absurd trivial habsent

end Step

/-- **Mutual exclusion.** A run keeps every mutex exclusive throughout exactly when each
`smp_Mutex_Unlock` in it wakes a thread that is still blocked on that mutex, or none. -/
theorem exclusive_iff_waiterPresent (now : Nat) (wait : Addr → Option Waiting)
    (calls : List Call) :
    Run.Always step Exclusive (initial now wait) calls ↔
      Run.EachStep step WaiterPresent (initial now wait) calls :=
  Run.always_iff_eachStep (fun _ _ _ h hstep hpresent => h.step hstep hpresent)
    (fun _ h => h.exclusive) (fun _ _ _ h hstep habsent => h.not_exclusive hstep habsent)
    (invariant_initial now wait)

/-- Thread 1 gives up waiting for mutex 10, thread 0 unlocks it for thread 1 all the same, and
thread 1 goes on out of its wait for mutex 11, which thread 2 holds. -/
def staleWaiterRun : List Call :=
  [.lock 0 10, .lock 2 11, .lockTimeout 1 10 1, .tick, .tick, .resume 1, .lock 1 11, .unlock 0 10,
    .resume 1]

theorem not_exclusive_staleWaiter :
    ∃ s, Run.exec step (initial 1 fun _ => none) staleWaiterRun = some s ∧
      s.holders 11 = [1, 2] ∧ ¬ s.Exclusive := by
  have hsome : ((Run.exec step (initial 1 fun _ => none) staleWaiterRun).map
      fun s => s.holders 11) = some [1, 2] := by
    decide
  obtain ⟨s, hs, hholders⟩ := Option.map_eq_some_iff.mp hsome
  refine ⟨s, hs, hholders, fun hexclusive => ?_⟩
  have hone := (hexclusive 11).1
  simp [hholders] at hone

end Threads

end Helos
