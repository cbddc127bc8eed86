import Helos.Smp.Wakeups
import Helos.Theory.Run

/-!
# The accounts of a condition

`smp/condiction.c` on one condition: every registration by `smp_Condition_Wait` against what is still in
`c->threads` and what `smp_Condition_NotifyOne` and `smp_Condition_NotifyAll` said they woke.
-/

namespace Helos

namespace Conditions

inductive ConditionCall where
  | wait (t : Addr) (new : Block)
  | notifyOne (data : Nat) (new : Block)
  | notifyAll (data : Nat)

/-- What the calls said so far. `answer` is, for a thread that was unblocked and has not waited since, the
data of the notification that took it out of the vector. -/
structure Accounts where
  state : Conditions
  waits : Nat
  wokenOne : Nat
  wokenAll : Nat
  answer : Addr → Option Nat

namespace Accounts

def opened (s : Conditions) : Accounts := ⟨s, 0, 0, 0, fun _ => none⟩

/-- The threads that are not in the vector any more. -/
def answered (a : Accounts) (c : Addr) (s' : Conditions) (data : Nat) : Addr → Option Nat :=
  fun t => if t ∈ a.state.waiters c ∧ t ∉ s'.waiters c then some data else a.answer t

def step (c : Addr) (a : Accounts) : ConditionCall → Option Accounts
  | .wait t new => do
    let s' ← a.state.conditionWait t c new
    some { a with state := s', waits := a.waits + 1, answer := Function.update a.answer t none }
  | .notifyOne data new => do
    let (s', woken) ← a.state.notifyOne c data new
    some { a with
      state := s'
      wokenOne := a.wokenOne + woken.toNat
      answer := a.answered c s' data }
  | .notifyAll data => do
    let (s', count) ← a.state.notifyAll c data
    some { a with
      state := s'
      wokenAll := a.wokenAll + count
      answer := a.answered c s' data }

/-- A thread that waits takes no step. -/
def Valid (threads : ThreadObjects) (a : Accounts) : ConditionCall → Prop
  | .wait t _ => t ∈ threads.addresses ∧ a.state.object t = none
  | _ => True

/-- Every registration is accounted for, and whoever was unblocked has the data of its notification. -/
structure Balanced (c : Addr) (a : Accounts) : Prop where
  total : a.waits = (a.state.threads c).count + a.wokenOne + a.wokenAll
  data : ∀ t data, a.answer t = some data →
    ∃ w, a.state.wait t = some w ∧ w.object = none ∧ w.data = data

/-- `smp_Condition_NotifyAll` is called when at most one thread waits. -/
def FewWaiting (c : Addr) (a : Accounts) : ConditionCall → Prop
  | .notifyAll _ => (a.state.threads c).count ≤ 1
  | _ => True

variable {threads : ThreadObjects} {c t : Addr} {a a' : Accounts} {s s' : Conditions} {b : Sync}
  {data : Nat}

structure Invariant (threads : ThreadObjects) (c : Addr) (a : Accounts) : Prop where
  sound : Sound threads {c} a.state
  balanced : Balanced c a

/-! ### What a call does to the vector and to the records -/

theorem waiters_of (h : Refines {c} s b) : s.waiters c = (b.condition c).threads :=
  (h.threads c rfl).waiters_eq

theorem count_of (h : Refines {c} s b) : (s.threads c).count = (b.condition c).threads.length :=
  (h.threads c rfl).count_eq

/-- Threads leave the vector, with the data of the notification in their records. -/
structure Leaves (c : Addr) (s s' : Conditions) (data : Nat) (left : List Addr) : Prop where
  nodup : (s'.waiters c ++ left).Nodup
  before : s.waiters c = s'.waiters c ++ left
  notified : ∀ t ∈ left, ∃ w, s'.wait t = some (Sync.notified data w)
  others : ∀ t, t ∉ left → s'.wait t = s.wait t

theorem notifyOne_leaves (h : Sound threads {c} s) (data : Nat) (new : Block) :
    ∃ s' woken left, s.notifyOne c data new = some (s', woken) ∧ Sound threads {c} s' ∧
      Leaves c s s' data left ∧ (s.threads c).count = (s'.threads c).count + woken.toNat := by
  obtain ⟨b, hrefines, hlinked⟩ := h
  have hnodup := hlinked.nodup c rfl
  rcases List.eq_nil_or_concat (b.condition c).threads with hempty | ⟨ts, last, hthreads⟩
  · have hcount := count_of hrefines
    rw [hempty, List.length_nil] at hcount
    refine ⟨s, false, [], if_pos hcount, ⟨b, hrefines, hlinked⟩, ⟨?_, ?_, by simp, fun _ _ => rfl⟩, rfl⟩
    · rwa [List.append_nil, waiters_of hrefines]
    · rw [List.append_nil]
  · rw [List.concat_eq_append] at hthreads
    have hne : (b.condition c).threads ≠ [] := by
      rw [hthreads]
      exact List.concat_ne_nil _ _
    have hmem : last ∈ (b.condition c).threads := by
      rw [hthreads]
      exact List.mem_concat_self
    obtain ⟨w, hw⟩ := hlinked.exists_wait rfl hmem
    have heq := Sync.notifyOne_eq hthreads hw data
    obtain ⟨-, -, b', hnotify, hlinked', -⟩ := hlinked.notifyOne rfl data hne
    obtain rfl : _ = b' := congrArg Prod.fst (Option.some.inj (heq.symm.trans hnotify))
    obtain ⟨s', hnotify', hrefines'⟩ := notifyOne_refines hrefines rfl heq new
    have hkept := waiters_of hrefines'
    have hcount := count_of hrefines'
    dsimp only at hkept hcount
    rw [Function.update_self] at hkept hcount
    refine ⟨s', true, [last], hnotify', ⟨_, hrefines', hlinked'⟩, ⟨?_, ?_, ?_, fun t ht => ?_⟩, ?_⟩
    · rwa [hkept, ← hthreads]
    · rw [hkept, waiters_of hrefines, hthreads]
    · rw [List.forall_mem_singleton, hrefines'.wait]
      exact ⟨w, Function.update_self _ _ _⟩
    · rw [List.mem_singleton] at ht
      rw [hrefines'.wait, hrefines.wait]
      exact Function.update_of_ne ht _ _
    · rw [count_of hrefines, hcount, hthreads, List.length_append]
      rfl

/-- It says that it woke one thread when it woke any. -/
theorem notifyAll_leaves (h : Sound threads {c} s) (data : Nat) :
    ∃ s' count left, s.notifyAll c data = some (s', count) ∧ Sound threads {c} s' ∧
      Leaves c s s' data left ∧ (s'.threads c).count = 0 ∧ count = min (s.threads c).count 1 := by
  obtain ⟨b, hrefines, hlinked⟩ := h
  have hnodup := hlinked.nodup c rfl
  have hcount := count_of hrefines
  by_cases hempty : (b.condition c).threads = []
  · rw [hempty, List.length_nil] at hcount
    refine ⟨s, 0, [], ?_, ⟨b, hrefines, hlinked⟩, ⟨?_, ?_, by simp, fun _ _ => rfl⟩, hcount, ?_⟩
    · rw [notifyAll, if_pos hcount, hcount]
    · rwa [List.append_nil, waiters_of hrefines]
    · rw [List.append_nil]
    · rw [hcount]
      rfl
  · obtain ⟨b₁, heach, hnotified⟩ := Sync.notifyEach_eq (fun t ht => hlinked.exists_wait rfl ht) data
    have heq : b.notifyAll c data =
        some ({ b₁ with condition := Function.update b₁.condition c ⟨[]⟩ }, 1) := by
      rw [Sync.notifyAll, if_neg hempty]
      exact Option.bind_eq_some_iff.mpr ⟨b₁, heach, rfl⟩
    obtain ⟨b', count, hnotify, hlinked', -, hothers⟩ := hlinked.notifyAll rfl data
    obtain ⟨rfl, rfl⟩ := Prod.mk.inj (Option.some.inj (heq.symm.trans hnotify))
    obtain ⟨s', hnotify', hrefines'⟩ := notifyAll_refines hrefines rfl heq
    have hkept := waiters_of hrefines'
    have hcount' := count_of hrefines'
    dsimp only at hkept hcount'
    rw [Function.update_self] at hkept hcount'
    refine ⟨s', 1, (b.condition c).threads, hnotify', ⟨_, hrefines', hlinked'⟩,
      ⟨?_, ?_, ?_, fun t ht => ?_⟩, hcount', ?_⟩
    · rwa [hkept, List.nil_append]
    · rw [hkept, waiters_of hrefines, List.nil_append]
    · rw [hrefines'.wait]
      exact hnotified
    · rw [hrefines'.wait, hrefines.wait]
      exact hothers t ht
    · have hpos := List.length_pos_iff.mpr hempty
      omega

theorem Balanced.answered (h : Balanced c a) {left : List Addr} (hleaves : Leaves c a.state s' data left)
    {d : Nat} (hanswer : a.answered c s' data t = some d) :
    ∃ w, s'.wait t = some w ∧ w.object = none ∧ w.data = d := by
  unfold Accounts.answered at hanswer
  by_cases hleft : t ∈ left
  · have hout : t ∉ s'.waiters c := fun hin => (List.nodup_append.mp hleaves.nodup).2.2 t hin t hleft rfl
    have hin : t ∈ a.state.waiters c := by
      rw [hleaves.before]
      exact List.mem_append_right _ hleft
    rw [if_pos ⟨hin, hout⟩, Option.some.injEq] at hanswer
    obtain ⟨w, hw⟩ := hleaves.notified t hleft
    exact ⟨_, hw, rfl, hanswer⟩
  · have hkept : ¬ (t ∈ a.state.waiters c ∧ t ∉ s'.waiters c) := by
      rintro ⟨hin, hout⟩
      rw [hleaves.before, List.mem_append] at hin
      exact hin.elim hout hleft
    rw [if_neg hkept] at hanswer
    rw [hleaves.others t hleft]
    exact h.data t d hanswer

/-! ### Runs -/

theorem Invariant.wait (h : Invariant threads c a) (ht : t ∈ threads.addresses)
    (hfree : a.state.object t = none) (new : Block) :
    ∃ a', step c a (.wait t new) = some a' ∧ Invariant threads c a' := by
  obtain ⟨⟨b, hrefines, hlinked⟩, htotal, hdata⟩ := h
  obtain ⟨s', hwait, hrefines', hlinked'⟩ := hrefines.linked_wait hlinked ht rfl hfree new
  refine ⟨_, Option.bind_eq_some_iff.mpr ⟨s', hwait, rfl⟩, ⟨_, hrefines', hlinked'⟩, ?_, fun u d hu => ?_⟩
  · have hcount := count_of hrefines
    have hcount' := count_of hrefines'
    rw [Sync.conditionWait] at hcount'
    dsimp only at hcount' ⊢
    rw [Function.update_self, List.length_append, List.length_singleton] at hcount'
    omega
  · have hne : u ≠ t := by
      rintro rfl
      dsimp only at hu
      rw [Function.update_self] at hu
      cases hu
    have hsame : s'.wait u = a.state.wait u := by
      rw [hrefines'.wait, hrefines.wait]
      exact Function.update_of_ne hne _ _
    dsimp only at hu ⊢
    rw [Function.update_of_ne hne] at hu
    rw [hsame]
    exact hdata u d hu

theorem Invariant.notifyOne (h : Invariant threads c a) (data : Nat) (new : Block) :
    ∃ a', step c a (.notifyOne data new) = some a' ∧ Invariant threads c a' := by
  obtain ⟨s', woken, left, hnotify, hsound, hleaves, hcount⟩ := notifyOne_leaves h.sound data new
  refine ⟨_, Option.bind_eq_some_iff.mpr ⟨_, hnotify, rfl⟩, hsound, ?_, fun t d ht => ?_⟩
  · have htotal := h.balanced.total
    dsimp only
    omega
  · exact h.balanced.answered hleaves ht

theorem Invariant.notifyAll (h : Invariant threads c a) (data : Nat) :
    ∃ a', step c a (.notifyAll data) = some a' ∧
      ((a.state.threads c).count ≤ 1 → Invariant threads c a') ∧
      (1 < (a.state.threads c).count → ¬ Balanced c a') := by
  obtain ⟨s', count, left, hnotify, hsound, hleaves, hzero, hcount⟩ := notifyAll_leaves h.sound data
  have htotal := h.balanced.total
  refine ⟨_, Option.bind_eq_some_iff.mpr ⟨_, hnotify, rfl⟩, fun hfew => ⟨hsound, ?_, fun t d ht => ?_⟩,
    fun hmany hbalanced => ?_⟩
  · dsimp only
    omega
  · exact h.balanced.answered hleaves ht
  · have htotal' := hbalanced.total
    dsimp only at htotal'
    omega

theorem opened_invariant (h : Start threads {c} s) : Invariant threads c (opened s) := by
  refine ⟨h.sound, ?_, fun t d ht => ?_⟩
  · obtain ⟨vector, hvector⟩ := h.created c rfl
    show 0 = (s.threads c).count + 0 + 0
    rw [hvector, (createThreads_holds vector).count_eq]
    rfl
  · cases ht

/-- **Wake-ups add up** at every point of a run exactly when no broadcast finds more than one thread. -/
theorem balanced_iff (h : Start threads {c} s) (calls : List ConditionCall)
    (hvalid : Run.Admits (step c) (Valid threads) (opened s) calls) :
    (∃ a, Run.exec (step c) (opened s) calls = some a) ∧
        Run.Always (step c) (Balanced c) (opened s) calls ↔
      Run.Admits (step c) (FewWaiting c) (opened s) calls := by
  refine Run.defined_always_iff (I := Invariant threads c) (V := Valid threads) ?_ (fun a h => h.balanced)
    ?_ (opened_invariant h) hvalid
  · intro a call hinvariant hcall hfew
    cases call with
    | wait t new => exact hinvariant.wait hcall.1 hcall.2 new
    | notifyOne data new => exact hinvariant.notifyOne data new
    | notifyAll data =>
      obtain ⟨a', hstep, hgood, -⟩ := hinvariant.notifyAll data
      exact ⟨a', hstep, hgood hfew⟩
  · intro a call a' hinvariant _ hmany hstep
    cases call with
    | wait t new => exact absurd trivial hmany
    | notifyOne data new => exact absurd trivial hmany
    | notifyAll data =>
      obtain ⟨a₁, h₁, -, hbad⟩ := hinvariant.notifyAll data
      obtain rfl := Option.some.inj (h₁.symm.trans hstep)
      exact hbad (Nat.lt_of_not_le hmany)

def stock : Block := ⟨0x9000, fun _ => 0xcc⟩

theorem balanced_wait_notifyOne :
    (∃ a, Run.exec (step 0x100) (opened idle) [.wait 0x1000 stock, .notifyOne 7 stock] = some a) ∧
    Run.Always (step 0x100) (Balanced 0x100) (opened idle) [.wait 0x1000 stock, .notifyOne 7 stock] := by
  have hvalid : Run.Admits (step 0x100) (Valid twoThreads) (opened idle)
      [.wait 0x1000 stock, .notifyOne 7 stock] :=
    ⟨⟨.inl rfl, rfl⟩, fun _ _ => ⟨trivial, fun _ _ => trivial⟩⟩
  have hfew : Run.Admits (step 0x100) (FewWaiting 0x100) (opened idle)
      [.wait 0x1000 stock, .notifyOne 7 stock] :=
    ⟨trivial, fun _ _ => ⟨trivial, fun _ _ => trivial⟩⟩
  exact (balanced_iff idle_start _ hvalid).mpr hfew

/-- Two threads are woken, and one is accounted for. -/
theorem two_woken_one_counted :
    Start twoThreads {0x100} idle ∧
    Run.Admits (step 0x100) (Valid twoThreads) (opened idle)
      [.wait 0x1000 stock, .wait 0x1100 stock, .notifyAll 7] ∧
    ¬ Run.Always (step 0x100) (Balanced 0x100) (opened idle)
      [.wait 0x1000 stock, .wait 0x1100 stock, .notifyAll 7] := by
  refine ⟨idle_start, ⟨⟨.inl rfl, rfl⟩, fun a₁ h₁ => ?_⟩, fun halways => ?_⟩
  · obtain rfl := Option.some.inj h₁
    exact ⟨⟨.inr rfl, rfl⟩, fun _ _ => ⟨trivial, fun _ _ => trivial⟩⟩
  · have hcounts : (Run.exec (step 0x100) (opened idle)
        [.wait 0x1000 stock, .wait 0x1100 stock, .notifyAll 7]).map
          (fun a => (a.waits, (a.state.threads 0x100).count, a.wokenOne, a.wokenAll)) =
        some (2, 0, 0, 1) := by decide
    obtain ⟨a, hrun, hcount⟩ := Option.map_eq_some_iff.mp hcounts
    simp only [Prod.mk.injEq] at hcount
    have htotal := (halways.exec hrun).total
    omega

end Accounts

end Conditions

end Helos
