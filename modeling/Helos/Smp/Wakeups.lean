import Helos.Smp.Conditions
import Mathlib.Data.Finset.Card

/-!
# No wake-up is lost

A thread waits on a condition exactly when it is in the vector of the condition. Waiting puts it into
one and waking takes it out of there, in whichever order the threads call.
-/

namespace Helos

/-- `sizeof(__smp_Thread)` -/
def sizeofThread : Nat := 200

/-- Threads are objects in memory, so they do not overlap. -/
structure ThreadObjects where
  addresses : Set Addr
  apart : ∀ t ∈ addresses, ∀ u ∈ addresses, t < u → t + sizeofThread ≤ u
  inside : ∀ t ∈ addresses, t + sizeofThread ≤ 2 ^ 64

/-- There are not so many of them that a vector of pointers leaves 64 bits. -/
theorem ThreadObjects.length_le (threads : ThreadObjects) {ts : List Addr} (hnodup : ts.Nodup)
    (hmem : ∀ t ∈ ts, t ∈ threads.addresses) : ts.length ≤ 2 ^ 60 := by
  have hmaps : ∀ t ∈ ts.toFinset, t / sizeofThread ∈ Finset.range (2 ^ 60) := by
    intro t ht
    have hinside := threads.inside t (hmem t (List.mem_toFinset.mp ht))
    rw [Finset.mem_range, Nat.div_lt_iff_lt_mul (by decide)]
    exact Nat.lt_of_lt_of_le (Nat.lt_of_lt_of_le (Nat.lt_add_of_pos_right (by decide)) hinside)
      (by decide)
  have hdiv : ∀ t ∈ threads.addresses, ∀ u ∈ threads.addresses, t < u →
      t / sizeofThread < u / sizeofThread := by
    intro t ht u hu hlt
    have hle := Nat.div_le_div_right (c := sizeofThread) (threads.apart t ht u hu hlt)
    rw [Nat.add_div_right _ (by decide)] at hle
    exact hle
  have hinj : Set.InjOn (fun t => t / sizeofThread) ts.toFinset := by
    intro t ht u hu heq
    have ht' := hmem t (List.mem_toFinset.mp ht)
    have hu' := hmem u (List.mem_toFinset.mp hu)
    rcases Nat.lt_trichotomy t u with hlt | rfl | hlt
    · exact absurd heq (Nat.ne_of_lt (hdiv t ht' u hu' hlt))
    · rfl
    · exact absurd heq (Nat.ne_of_gt (hdiv u hu' t ht' hlt))
  calc
    ts.length = ts.toFinset.card := (List.toFinset_card_of_nodup hnodup).symm
    _ ≤ (Finset.range (2 ^ 60)).card := Finset.card_le_card_of_injOn _ hmaps hinj
    _ = 2 ^ 60 := Finset.card_range _

namespace Sync

def object (a : Sync) (t : Addr) : Ptr := (a.wait t).bind Waiting.object

/-- The records of the threads and the lists of the conditions say the same. -/
structure Linked (threads conditions : Set Addr) (a : Sync) : Prop where
  nodup : ∀ c ∈ conditions, (a.condition c).threads.Nodup
  members : ∀ c ∈ conditions, ∀ t ∈ (a.condition c).threads, t ∈ threads
  object : ∀ c ∈ conditions, ∀ t ∈ threads, t ∈ (a.condition c).threads ↔ a.object t = some c

variable {threads conditions : Set Addr} {a a' : Sync} {t c : Addr} {data : Nat}

@[simp] theorem object_update_self (a : Sync) (t : Addr) (w : Waiting) :
    object { a with wait := Function.update a.wait t (some w) } t = w.object := by
  simp [object]

theorem object_update_of_ne {u : Addr} (h : u ≠ t) (w : Waiting) :
    object { a with wait := Function.update a.wait t (some w) } u = a.object u := by
  simp [object, Function.update_of_ne h]

theorem exists_wait_of_object (h : a.object t = some c) : ∃ w, a.wait t = some w := by
  obtain ⟨w, hw, -⟩ := Option.bind_eq_some_iff.mp h
  exact ⟨w, hw⟩

theorem Linked.not_mem (h : a.Linked threads conditions) (hc : c ∈ conditions) (ht : t ∈ threads)
    (hobject : a.object t ≠ some c) : t ∉ (a.condition c).threads :=
  fun hmem => hobject ((h.object c hc t ht).mp hmem)

theorem Linked.wait (h : a.Linked threads conditions) (ht : t ∈ threads)
    (hfree : a.object t = none) : (a.conditionWait t c).Linked threads conditions := by
  have hout : ∀ c' ∈ conditions, t ∉ (a.condition c').threads := fun c' hc' =>
    h.not_mem hc' ht (by simp [hfree])
  have hself : (a.conditionWait t c).condition c = ⟨(a.condition c).threads ++ [t]⟩ :=
    Function.update_self _ _ _
  have hother : ∀ c' ≠ c, (a.conditionWait t c).condition c' = a.condition c' := fun c' hne =>
    Function.update_of_ne hne _ _
  have hobject : (a.conditionWait t c).object t = some c := by
    simp [conditionWait, Sync.object]
  have hobjects : ∀ u ≠ t, (a.conditionWait t c).object u = a.object u := fun u hne => by
    simp [conditionWait, Sync.object, Function.update_of_ne hne]
  refine ⟨fun c' hc' => ?_, fun c' hc' u hu => ?_, fun c' hc' u hu => ?_⟩
  · by_cases heq : c' = c
    · subst heq
      rw [hself, List.nodup_append_comm]
      exact List.nodup_cons.mpr ⟨hout c' hc', h.nodup c' hc'⟩
    · rw [hother c' heq]
      exact h.nodup c' hc'
  · by_cases heq : c' = c
    · subst heq
      rw [hself, List.mem_append, List.mem_singleton] at hu
      rcases hu with hu | rfl
      · exact h.members c' hc' u hu
      · exact ht
    · rw [hother c' heq] at hu
      exact h.members c' hc' u hu
  · by_cases hut : u = t
    · subst hut
      rw [hobject, Option.some.injEq]
      by_cases heq : c' = c
      · subst heq
        rw [hself]
        simp
      · rw [hother c' heq]
        exact iff_of_false (hout c' hc') (Ne.symm heq)
    · rw [hobjects u hut, ← h.object c' hc' u hu]
      by_cases heq : c' = c
      · subst heq
        rw [hself, List.mem_append, List.mem_singleton]
        exact or_iff_left hut
      · rw [hother c' heq]

/-- Threads leave a condition: their records are cleared, and the condition keeps the others. -/
theorem Linked.leave (h : a.Linked threads conditions) (left kept : List Addr)
    (hperm : (a.condition c).threads.Perm (kept ++ left)) (hc : c ∈ conditions)
    (hcondition : a'.condition = Function.update a.condition c ⟨kept⟩)
    (hleft : ∀ t ∈ left, a'.object t = none) (hkept : ∀ t, t ∉ left → a'.object t = a.object t) :
    a'.Linked threads conditions := by
  have hself : a'.condition c = ⟨kept⟩ := by
    rw [hcondition, Function.update_self]
  have hother : ∀ c' ≠ c, a'.condition c' = a.condition c' := fun c' hne => by
    rw [hcondition, Function.update_of_ne hne]
  have hnodup := hperm.nodup_iff.mp (h.nodup c hc)
  have hmem : ∀ t, t ∈ (a.condition c).threads ↔ t ∈ kept ∨ t ∈ left := fun t => by
    rw [hperm.mem_iff, List.mem_append]
  refine ⟨fun c' hc' => ?_, fun c' hc' u hu => ?_, fun c' hc' u hu => ?_⟩
  · by_cases heq : c' = c
    · subst heq
      rw [hself]
      exact (List.nodup_append.mp hnodup).1
    · rw [hother c' heq]
      exact h.nodup c' hc'
  · by_cases heq : c' = c
    · subst heq
      rw [hself] at hu
      exact h.members c' hc' u ((hmem u).mpr (.inl hu))
    · rw [hother c' heq] at hu
      exact h.members c' hc' u hu
  · by_cases hleft' : u ∈ left
    · have hobject : a.object u = some c :=
        (h.object c hc u hu).mp ((hmem u).mpr (.inr hleft'))
      rw [hleft u hleft']
      refine iff_of_false (fun hin => ?_) (by simp)
      by_cases heq : c' = c
      · subst heq
        rw [hself] at hin
        exact (List.nodup_append.mp hnodup).2.2 u hin u hleft' rfl
      · rw [hother c' heq, h.object c' hc' u hu, hobject, Option.some.injEq] at hin
        exact heq hin.symm
    · rw [hkept u hleft', ← h.object c' hc' u hu]
      by_cases heq : c' = c
      · subst heq
        rw [hself, hmem]
        exact (or_iff_left hleft').symm
      · rw [hother c' heq]

/-- What waking a thread writes to its record. -/
def notified (data : Nat) (wait : Waiting) : Waiting := { wait with object := none, data := data }

theorem modifyWait_eq {f : Waiting → Waiting} {w : Waiting} (h : a.wait t = some w) :
    a.modifyWait t f = some { a with wait := Function.update a.wait t (some (f w)) } := by
  rw [modifyWait, h]
  rfl

theorem notifyOne_eq {ts : List Addr} {w : Waiting} (hthreads : (a.condition c).threads = ts ++ [t])
    (hw : a.wait t = some w) (data : Nat) :
    a.notifyOne c data =
      some ({ a with
        wait := Function.update a.wait t (some (notified data w))
        condition := Function.update a.condition c ⟨ts⟩ }, true) := by
  have hlast : (a.condition c).threads.getLast? = some t := by rw [hthreads, List.getLast?_concat]
  have hkept : (a.condition c).threads.dropLast = ts := by rw [hthreads, List.dropLast_concat]
  rw [Sync.notifyOne, hlast]
  simp only [modifyWait_eq hw, hkept, Option.bind_eq_bind, Option.bind_some]
  rfl

theorem Linked.exists_wait (h : a.Linked threads conditions) (hc : c ∈ conditions)
    (ht : t ∈ (a.condition c).threads) : ∃ w, a.wait t = some w :=
  exists_wait_of_object ((h.object c hc t (h.members c hc t ht)).mp ht)

theorem Linked.notifyOne (h : a.Linked threads conditions) (hc : c ∈ conditions) (data : Nat)
    (hne : (a.condition c).threads ≠ []) :
    ∃ t ∈ threads, ∃ a', a.notifyOne c data = some (a', true) ∧ a'.Linked threads conditions ∧
      a.object t = some c ∧ a'.object t = none ∧ ∀ u ≠ t, a'.wait u = a.wait u := by
  have hmem := List.getLast_mem hne
  have hsplit := List.dropLast_concat_getLast hne
  generalize (a.condition c).threads.getLast hne = last at hmem hsplit
  have ht := h.members c hc last hmem
  have hobject := (h.object c hc last ht).mp hmem
  obtain ⟨w, hw⟩ := exists_wait_of_object hobject
  have heq := notifyOne_eq hsplit.symm hw data
  have hwoken := object_update_self a last (notified data w)
  refine ⟨last, ht, _, heq, ?_, hobject, hwoken, fun u hu => Function.update_of_ne hu _ _⟩
  refine h.leave [last] (a.condition c).threads.dropLast ?_ hc rfl ?_ fun u hu => ?_
  · rw [hsplit]
  · rw [List.forall_mem_singleton]
    exact hwoken
  · rw [List.mem_singleton] at hu
    exact object_update_of_ne hu (notified data w)

/-- The loop of `smp_Condition_NotifyAll` writes to the record of each thread of the list. -/
theorem notifyEach_eq {ts : List Addr} (h : ∀ t ∈ ts, ∃ w, a.wait t = some w) (data : Nat) :
    ∃ a', notifyEach data ts a = some a' ∧ ∀ t ∈ ts, ∃ w, a'.wait t = some (notified data w) := by
  induction ts generalizing a with
  | nil => exact ⟨a, rfl, by simp⟩
  | cons t ts ih =>
    rw [List.forall_mem_cons] at h
    obtain ⟨⟨w, hw⟩, hrest⟩ := h
    have hmodify := modifyWait_eq (f := notified data) hw
    generalize ha₁ : { a with wait := Function.update a.wait t (some (notified data w)) } = a₁
      at hmodify
    have hwaits : ∀ u ∈ ts, ∃ w, a₁.wait u = some w := by
      intro u hu
      subst ha₁
      by_cases heq : u = t
      · subst heq
        exact ⟨_, Function.update_self _ _ _⟩
      · obtain ⟨w', hw'⟩ := hrest u hu
        exact ⟨w', (Function.update_of_ne heq _ _).trans hw'⟩
    obtain ⟨a', heach, hcleared⟩ := ih hwaits
    refine ⟨a', ?_, ?_⟩
    · rw [notifyEach]
      exact Option.bind_eq_some_iff.mpr ⟨a₁, hmodify, heach⟩
    · rw [List.forall_mem_cons]
      refine ⟨?_, hcleared⟩
      by_cases hmem : t ∈ ts
      · exact hcleared t hmem
      · have hframe := (notifyEach_frame heach).2.2.2 t hmem
        subst ha₁
        exact ⟨w, hframe.trans (Function.update_self _ _ _)⟩

theorem Linked.notifyAll (h : a.Linked threads conditions) (hc : c ∈ conditions) (data : Nat) :
    ∃ a' count, a.notifyAll c data = some (a', count) ∧ a'.Linked threads conditions ∧
      (∀ t ∈ (a.condition c).threads, a'.object t = none) ∧
      ∀ t, t ∉ (a.condition c).threads → a'.wait t = a.wait t := by
  by_cases hempty : (a.condition c).threads = []
  · refine ⟨a, 0, if_pos hempty, h, ?_, fun t _ => rfl⟩
    rw [hempty]
    simp
  · obtain ⟨a₁, heach, hnotified⟩ := notifyEach_eq (fun t ht => h.exists_wait hc ht) data
    obtain ⟨-, -, hcondition, hwait⟩ := notifyEach_frame heach
    have hcleared : ∀ t ∈ (a.condition c).threads, a₁.object t = none := by
      intro t ht
      obtain ⟨w, hw⟩ := hnotified t ht
      rw [Sync.object, hw]
      rfl
    refine ⟨{ a₁ with condition := Function.update a₁.condition c ⟨[]⟩ }, 1, ?_, ?_, hcleared,
      hwait⟩
    · rw [Sync.notifyAll, if_neg hempty]
      exact Option.bind_eq_some_iff.mpr ⟨a₁, heach, rfl⟩
    · refine h.leave (a.condition c).threads [] (List.Perm.refl _) hc ?_ hcleared fun t ht => ?_
      · rw [← hcondition]
      · show (a₁.wait t).bind Waiting.object = (a.wait t).bind Waiting.object
        rw [hwait t ht]

end Sync

/-! ### Runs -/

namespace Conditions

variable {threads : ThreadObjects} {conditions : Set Addr} {s s' : Conditions} {t c : Addr}
  {data : Nat}

/-- `c->threads` -/
def waiters (s : Conditions) (c : Addr) : List Addr :=
  (List.range (s.threads c).count).filterMap (s.threadAt c)

/-- No thread waits, and the conditions are as `smp_Condition_Create` returns them. -/
structure Start (threads : ThreadObjects) (conditions : Set Addr) (s : Conditions) : Prop where
  cleared : ∀ t ∈ threads.addresses, s.object t = none
  created : ∀ c ∈ conditions, ∃ vector, s.threads c = createThreads vector

/-- The states of the runs. A thread calls `smp_Condition_Wait` when it does not wait; to notify,
nothing is asked. -/
inductive Reachable (threads : ThreadObjects) (conditions : Set Addr) : Conditions → Prop where
  | start (s : Conditions) (h : Start threads conditions s) : Reachable threads conditions s
  | wait (s s' : Conditions) (t c : Addr) (new : Block) (h : Reachable threads conditions s)
      (ht : t ∈ threads.addresses) (hc : c ∈ conditions) (hfree : s.object t = none)
      (hcall : s.conditionWait t c new = some s') : Reachable threads conditions s'
  | notifyOne (s s' : Conditions) (c : Addr) (data : Nat) (new : Block) (woken : Bool)
      (h : Reachable threads conditions s) (hc : c ∈ conditions)
      (hcall : s.notifyOne c data new = some (s', woken)) : Reachable threads conditions s'
  | notifyAll (s s' : Conditions) (c : Addr) (data count : Nat)
      (h : Reachable threads conditions s) (hc : c ∈ conditions)
      (hcall : s.notifyAll c data = some (s', count)) : Reachable threads conditions s'

/-- A record has a condition as its object when the thread is in the vector of the condition, there
once and in no other. -/
def Linked (threads : ThreadObjects) (conditions : Set Addr) (s : Conditions) : Prop :=
  ∀ c ∈ conditions, ∀ t ∈ threads.addresses,
    (s.object t = some c ↔ t ∈ s.waiters c) ∧
      (s.object t = some c → (s.waiters c).count t = 1 ∧
        ∀ c' ∈ conditions, c' ≠ c → t ∉ s.waiters c')

/-- The record of the thread has the condition as its object, the thread is behind the others in the
vector of the condition, and no other thread or condition is disturbed. -/
structure Registers (s : Conditions) (t c : Addr) (s' : Conditions) : Prop where
  object : s'.object t = some c
  waiters : s'.waiters c = s.waiters c ++ [t]
  threads : ∀ c' ≠ c, s'.threads c' = s.threads c'
  wait : ∀ u ≠ t, s'.wait u = s.wait u

/-- One thread that waits on the condition is woken when there is one, and no other is disturbed. -/
def WakesOne (threads : ThreadObjects) (s : Conditions) (c : Addr) (s' : Conditions)
    (woken : Bool) : Prop :=
  (woken = true ↔ ∃ t ∈ threads.addresses, s.object t = some c) ∧
    (woken = true → ∃ t ∈ threads.addresses, s.object t = some c ∧ s'.object t = none ∧
      ∀ u ≠ t, s'.wait u = s.wait u) ∧
    (woken = false → s' = s)

/-- Every thread that waits on the condition is woken, and no other is disturbed. -/
def WakesAll (threads : ThreadObjects) (s : Conditions) (c : Addr) (s' : Conditions) : Prop :=
  ∀ t ∈ threads.addresses,
    (s.object t = some c → s'.object t = none) ∧ (s.object t ≠ some c → s'.wait t = s.wait t)

theorem filterMap_range {f : Nat → Option Addr} {ts : List Addr}
    (h : ∀ i (hi : i < ts.length), f i = some ts[i]) :
    (List.range ts.length).filterMap f = ts := by
  induction ts generalizing f with
  | nil => rfl
  | cons t ts ih =>
    have hfirst : f 0 = some t := h 0 (Nat.zero_lt_succ _)
    have hrest : (List.range ts.length).filterMap (f ∘ Nat.succ) = ts :=
      ih fun i hi => h (i + 1) (Nat.succ_lt_succ hi)
    rw [List.length_cons, List.range_succ_eq_map, List.filterMap_cons_some hfirst,
      List.filterMap_map, hrest]

theorem Holds.waiters_eq {ts : List Addr} (h : Holds (s.threads c) ts) : s.waiters c = ts := by
  rw [waiters, h.count_eq]
  exact filterMap_range fun i hi => h.load_eq hi

/-- The invariant: what the lists of `Sync` say of the state links records and lists. -/
def Sound (threads : ThreadObjects) (conditions : Set Addr) (s : Conditions) : Prop :=
  ∃ a, Refines conditions s a ∧ a.Linked threads.addresses conditions

theorem Refines.object_eq {a : Sync} (h : Refines conditions s a) (t : Addr) :
    s.object t = a.object t := by
  rw [object, h.wait]
  rfl

theorem Start.sound (h : Start threads conditions s) : Sound threads conditions s := by
  refine ⟨⟨0, s.wait, fun _ => ⟨0, []⟩, fun _ => ⟨[]⟩⟩, ⟨rfl, fun c hc => ?_⟩, ?_⟩
  · obtain ⟨vector, heq⟩ := h.created c hc
    rw [heq]
    exact createThreads_holds vector
  · refine ⟨fun _ _ => List.nodup_nil, fun _ _ _ ht => absurd ht List.not_mem_nil,
      fun c _ t ht => ?_⟩
    apply iff_of_false List.not_mem_nil
    intro hobject
    have hcleared := h.cleared t ht
    rw [object] at hcleared
    rw [Sync.object, hcleared] at hobject
    cases hobject

theorem Sound.linked (h : Sound threads conditions s) : Linked threads conditions s := by
  obtain ⟨a, hrefines, hlinked⟩ := h
  have hwaiters : ∀ c ∈ conditions, s.waiters c = (a.condition c).threads := fun c hc =>
    (hrefines.threads c hc).waiters_eq
  intro c hc t ht
  rw [hrefines.object_eq, hwaiters c hc, ← hlinked.object c hc t ht]
  refine ⟨Iff.rfl, fun hmem => ⟨List.count_eq_one_of_mem (hlinked.nodup c hc) hmem, ?_⟩⟩
  intro c' hc' hne hmem'
  have hobject := (hlinked.object c hc t ht).mp hmem
  rw [hwaiters c' hc', hlinked.object c' hc' t ht, hobject, Option.some.injEq] at hmem'
  exact hne hmem'.symm

theorem Refines.linked_wait {a : Sync} (h : Refines conditions s a)
    (hlinked : a.Linked threads.addresses conditions) (ht : t ∈ threads.addresses) (hc : c ∈ conditions)
    (hfree : s.object t = none) (new : Block) :
    ∃ s', s.conditionWait t c new = some s' ∧ Refines conditions s' (a.conditionWait t c) ∧
      (a.conditionWait t c).Linked threads.addresses conditions := by
  rw [h.object_eq] at hfree
  have hlinked' := hlinked.wait (c := c) ht hfree
  have hlt : t < 2 ^ 64 :=
    Nat.lt_of_lt_of_le (Nat.lt_add_of_pos_right (by decide)) (threads.inside t ht)
  have hthreads : ((a.conditionWait t c).condition c).threads = (a.condition c).threads ++ [t] :=
    congrArg Condition.threads (Function.update_self _ _ _)
  have hfits : (a.condition c).threads.length + 1 ≤ 2 ^ 60 := by
    have hle := threads.length_le (hlinked'.nodup c hc) (hlinked'.members c hc)
    rwa [hthreads, List.length_append] at hle
  obtain ⟨s', hwait, hrefines'⟩ := conditionWait_refines h hc hlt hfits new
  exact ⟨s', hwait, hrefines', hlinked'⟩

/-- The call writes to the vector of its condition and to the record of its thread only. -/
theorem conditionWait_frame {new : Block} (h : s.conditionWait t c new = some s') :
    (∀ c' ≠ c, s'.threads c' = s.threads c') ∧ ∀ u ≠ t, s'.wait u = s.wait u := by
  obtain ⟨⟨vector, address⟩, -, heq⟩ := Option.bind_eq_some_iff.mp h
  obtain rfl := Option.some.inj heq
  exact ⟨fun c' hne => Function.update_of_ne hne _ _, fun u hne => Function.update_of_ne hne _ _⟩

theorem Sound.conditionWait (h : Sound threads conditions s) (ht : t ∈ threads.addresses)
    (hc : c ∈ conditions) (hfree : s.object t = none) (new : Block) :
    ∃ s', s.conditionWait t c new = some s' ∧ Sound threads conditions s' ∧ Registers s t c s' := by
  obtain ⟨a, hrefines, hlinked⟩ := h
  obtain ⟨s', hwait, hrefines', hlinked'⟩ := hrefines.linked_wait hlinked ht hc hfree new
  obtain ⟨hthreads, hothers⟩ := conditionWait_frame hwait
  have hlist : ((a.conditionWait t c).condition c).threads = (a.condition c).threads ++ [t] :=
    congrArg Condition.threads (Function.update_self _ _ _)
  refine ⟨s', hwait, ⟨_, hrefines', hlinked'⟩, ?_, ?_, hthreads, hothers⟩
  · rw [hrefines'.object_eq, ← hlinked'.object c hc t ht, hlist]
    exact List.mem_append_right _ List.mem_cons_self
  · rw [(hrefines.threads c hc).waiters_eq, (hrefines'.threads c hc).waiters_eq, hlist]

theorem Sound.notifyOne (h : Sound threads conditions s) (hc : c ∈ conditions) (data : Nat)
    (new : Block) :
    ∃ s' woken, s.notifyOne c data new = some (s', woken) ∧ Sound threads conditions s' ∧
      WakesOne threads s c s' woken := by
  obtain ⟨a, hrefines, hlinked⟩ := h
  by_cases hempty : (a.condition c).threads = []
  · have hcount := (hrefines.threads c hc).count_eq
    rw [hempty, List.length_nil] at hcount
    refine ⟨s, false, if_pos hcount, ⟨a, hrefines, hlinked⟩, ?_, by simp, fun _ => rfl⟩
    refine iff_of_false Bool.false_ne_true ?_
    rintro ⟨t, ht, hobject⟩
    rw [hrefines.object_eq, ← hlinked.object c hc t ht, hempty] at hobject
    exact List.not_mem_nil hobject
  · obtain ⟨t, ht, a', hnotify, hlinked', hbefore, hafter, hothers⟩ :=
      hlinked.notifyOne hc data hempty
    obtain ⟨s', hnotify', hrefines'⟩ := notifyOne_refines hrefines hc hnotify new
    rw [← hrefines.object_eq] at hbefore
    rw [← hrefines'.object_eq] at hafter
    rw [← hrefines.wait, ← hrefines'.wait] at hothers
    exact ⟨s', true, hnotify', ⟨a', hrefines', hlinked'⟩, iff_of_true rfl ⟨t, ht, hbefore⟩,
      fun _ => ⟨t, ht, hbefore, hafter, hothers⟩, by simp⟩

theorem Sound.notifyAll (h : Sound threads conditions s) (hc : c ∈ conditions) (data : Nat) :
    ∃ s' count, s.notifyAll c data = some (s', count) ∧ Sound threads conditions s' ∧
      WakesAll threads s c s' := by
  obtain ⟨a, hrefines, hlinked⟩ := h
  obtain ⟨a', count, hnotify, hlinked', hcleared, hothers⟩ := hlinked.notifyAll hc data
  obtain ⟨s', hnotify', hrefines'⟩ := notifyAll_refines hrefines hc hnotify
  refine ⟨s', count, hnotify', ⟨a', hrefines', hlinked'⟩, fun t ht => ?_⟩
  rw [hrefines.object_eq, hrefines'.object_eq, hrefines.wait, hrefines'.wait, ne_eq,
    ← hlinked.object c hc t ht]
  exact ⟨hcleared t, hothers t⟩

theorem Reachable.sound (h : Reachable threads conditions s) : Sound threads conditions s := by
  induction h with
  | start s h => exact h.sound
  | wait s s' t c new _ ht hc hfree hcall ih =>
    obtain ⟨s₁, hcall', hsound, -⟩ := ih.conditionWait ht hc hfree new
    cases hcall'.symm.trans hcall
    exact hsound
  | notifyOne s s' c data new woken _ hc hcall ih =>
    obtain ⟨s₁, woken', hcall', hsound, -⟩ := ih.notifyOne hc data new
    cases hcall'.symm.trans hcall
    exact hsound
  | notifyAll s s' c data count _ hc hcall ih =>
    obtain ⟨s₁, count', hcall', hsound, -⟩ := ih.notifyAll hc data
    cases hcall'.symm.trans hcall
    exact hsound

/-- In every reachable state the links hold, and each call returns and does what it says. -/
theorem no_lost_wakeup (h : Reachable threads conditions s) :
    Linked threads conditions s ∧
      (∀ t ∈ threads.addresses, ∀ c ∈ conditions, s.object t = none → ∀ new,
        ∃ s', s.conditionWait t c new = some s' ∧ Registers s t c s') ∧
      (∀ c ∈ conditions, ∀ data new, ∃ s' woken,
        s.notifyOne c data new = some (s', woken) ∧ WakesOne threads s c s' woken) ∧
      ∀ c ∈ conditions, ∀ data, ∃ s' count,
        s.notifyAll c data = some (s', count) ∧ WakesAll threads s c s' := by
  have hsound := h.sound
  refine ⟨hsound.linked, fun t ht c hc hfree new => ?_, fun c hc data new => ?_,
    fun c hc data => ?_⟩
  · obtain ⟨s', hcall, -, hregisters⟩ := hsound.conditionWait ht hc hfree new
    exact ⟨s', hcall, hregisters⟩
  · obtain ⟨s', woken, hcall, -, hwakes⟩ := hsound.notifyOne hc data new
    exact ⟨s', woken, hcall, hwakes⟩
  · obtain ⟨s', count, hcall, -, hwakes⟩ := hsound.notifyAll hc data
    exact ⟨s', count, hcall, hwakes⟩

/-- Two threads, and a state in which the first is about to wait. -/
def twoThreads : ThreadObjects where
  addresses := {0x1000, 0x1100}
  apart := by simp [sizeofThread]
  inside := by simp [sizeofThread]

def idle : Conditions where
  wait _ := none
  threads _ := createThreads ⟨0x8000, fun _ => 0xcc⟩

theorem idle_start : Start twoThreads {0x100} idle := ⟨fun _ _ => rfl, fun _ _ => ⟨_, rfl⟩⟩

theorem no_lost_wakeup_after_wait :
    ∃ s, idle.conditionWait 0x1000 0x100 ⟨0x9000, fun _ => 0xcc⟩ = some s ∧
      Registers idle 0x1000 0x100 s ∧ Linked twoThreads {0x100} s ∧
      ∃ s', s.notifyOne 0x100 7 ⟨0x9000, fun _ => 0xcc⟩ = some (s', true) ∧
        s'.object 0x1000 = none ∧ s'.wait 0x1100 = s.wait 0x1100 := by
  have hstart : Reachable twoThreads {0x100} idle := .start _ idle_start
  obtain ⟨-, hwaits, -⟩ := no_lost_wakeup hstart
  obtain ⟨s, hcall, hregisters⟩ := hwaits 0x1000 (.inl rfl) 0x100 rfl rfl ⟨0x9000, fun _ => 0xcc⟩
  obtain ⟨hlinked, -, hnotifies, -⟩ :=
    no_lost_wakeup (.wait _ _ _ _ _ hstart (.inl rfl) rfl rfl hcall)
  obtain ⟨s', woken, hnotify, hwoken, hwakes, -⟩ := hnotifies 0x100 rfl 7 ⟨0x9000, fun _ => 0xcc⟩
  obtain rfl : woken = true := hwoken.mpr ⟨0x1000, .inl rfl, hregisters.object⟩
  obtain ⟨t, ht, hbefore, hafter, hothers⟩ := hwakes rfl
  rcases ht with rfl | rfl
  · exact ⟨s, hcall, hregisters, hlinked, s', hnotify, hafter, hothers 0x1100 (by decide)⟩
  · -- the other thread's record is as it was, without a condition
    rw [object, hregisters.wait 0x1100 (by decide)] at hbefore
    cases hbefore

end Conditions

end Helos
