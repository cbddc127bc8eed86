import Helos.Smp.SwitchSpec
import Mathlib.Data.Option.Basic

/-!
# Two schedulers that switch alike

Two schedulers are twins when they differ only in their tables of threads and in the wait records, and
there only in what does not matter: the records block the same threads at every tick, and the threads
differ only where they are asleep for good. A context switch makes the same choice for both.
-/

namespace Helos.Scheduler

open Helos.Tree (Fresh)

/-- Both computations fail, or both succeed with related results. -/
theorem rel_bind {α β γ δ : Type} {R : α → β → Prop} {S : γ → δ → Prop} {x : Option α}
    {y : Option β} {f : α → Option γ} {g : β → Option δ} (h : Option.Rel R x y)
    (hfg : ∀ a b, x = some a → R a b → Option.Rel S (f a) (g b)) :
    Option.Rel S (x.bind f) (y.bind g) := by
  cases h with
  | none => exact .none
  | some h => exact hfg _ _ rfl h

theorem bind_eq_of_rel {α β γ : Type} {R : α → β → Prop} {x : Option α} {y : Option β}
    {f : α → Option γ} {g : β → Option γ} (h : Option.Rel R x y)
    (hfg : ∀ a b, x = some a → R a b → g b = f a) : y.bind g = x.bind f := by
  cases h with
  | none => rfl
  | some h => exact hfg _ _ rfl h

theorem rel_bind_of_eq {α γ δ : Type} {S : γ → δ → Prop} {x y : Option α} {f : α → Option γ}
    {g : α → Option δ} (h : y = x) (hfg : ∀ a, x = some a → Option.Rel S (f a) (g a)) :
    Option.Rel S (x.bind f) (y.bind g) := by
  subst h
  cases hx : y with
  | none => exact .none
  | some a => exact hfg a hx

def alter (s : Scheduler) (threads : Tree Thread) (wait : Addr → Option Waiting) : Scheduler :=
  { s with threads, sync := { s.sync with wait } }

structure Twins (asleep : Set Addr) (s₁ s₂ : Scheduler) : Prop where
  alike : ∃ threads wait, s₂ = s₁.alter threads wait
  now : s₁.sync.now < 2 ^ 64
  waits : ∀ u, ∀ now < 2 ^ 64, isWaiting now (s₂.sync.wait u) = isWaiting now (s₁.sync.wait u)
  same : ∀ u ∉ asleep, s₂.thread u = s₁.thread u
  known : ∀ u ∈ asleep, (s₁.thread u).isSome ∧ (s₂.thread u).isSome
  waiting : ∀ u ∈ asleep, ∀ now < 2 ^ 64, isWaiting now (s₁.sync.wait u) = true
  stopped : ∀ u ∈ asleep, s₁.current ≠ some u

variable {asleep : Set Addr} {s₁ s₂ : Scheduler} {image : Image} {new : Fresh Addr}

/-- Other fields may change, in both alike. -/
theorem Twins.of_eq (h : Twins asleep s₁ s₂) {s₁' s₂' : Scheduler}
    (halike : ∃ threads wait, s₂' = s₁'.alter threads wait) (hsync₁ : s₁'.sync = s₁.sync)
    (hsync₂ : s₂'.sync = s₂.sync) (hthreads₁ : s₁'.threads = s₁.threads)
    (hthreads₂ : s₂'.threads = s₂.threads) (hcurrent : s₁'.current = s₁.current) :
    Twins asleep s₁' s₂' := by
  have hthread₁ : s₁'.thread = s₁.thread := funext fun u => by rw [thread, thread, hthreads₁]
  have hthread₂ : s₂'.thread = s₂.thread := funext fun u => by rw [thread, thread, hthreads₂]
  refine ⟨halike, ?_, ?_, ?_, ?_, ?_, ?_⟩
  · rw [hsync₁]
    exact h.now
  · rw [hsync₁, hsync₂]
    exact h.waits
  · rw [hthread₁, hthread₂]
    exact h.same
  · rw [hthread₁, hthread₂]
    exact h.known
  · rw [hsync₁]
    exact h.waiting
  · rw [hcurrent]
    exact h.stopped

theorem Twins.ready_eq (h : Twins asleep s₁ s₂) (u : Addr) : s₂.ready u = s₁.ready u := by
  have hwaits := h.waits u s₁.sync.now h.now
  have hsame := h.same u
  have hknown := h.known u
  have hwaiting := h.waiting u
  obtain ⟨threads, wait, rfl⟩ := h.alike
  have hnow : (s₁.alter threads wait).sync.now = s₁.sync.now := rfl
  by_cases hu : u ∈ asleep
  · obtain ⟨hsome₁, hsome₂⟩ := hknown hu
    obtain ⟨th₁, hth₁⟩ := Option.isSome_iff_exists.mp hsome₁
    obtain ⟨th₂, hth₂⟩ := Option.isSome_iff_exists.mp hsome₂
    rw [hwaiting hu _ h.now] at hwaits
    simp [ready, hth₁, hth₂, Sync.isWaiting, hnow, hwaits, hwaiting hu _ h.now]
  · rw [ready, ready, hsame hu, Sync.isWaiting, Sync.isWaiting, hnow, hwaits]

theorem Twins.nodePointer_eq (h : Twins asleep s₁ s₂) (node : Addr) :
    s₂.nodePointer node = s₁.nodePointer node := by
  obtain ⟨threads, wait, rfl⟩ := h.alike
  rfl

theorem Twins.firstReady_eq (h : Twins asleep s₁ s₂) (fuel : Nat) (first : Ptr) :
    s₂.firstReady fuel first = s₁.firstReady fuel first := by
  have hwaiting : s₂.threadsWaiting = s₁.threadsWaiting := by
    obtain ⟨threads, wait, rfl⟩ := h.alike
    rfl
  induction fuel generalizing first with
  | zero => rfl
  | succ fuel ih =>
    cases first with
    | none => rfl
    | some first => simp only [firstReady, h.nodePointer_eq, h.ready_eq, hwaiting, ih]

theorem Twins.awake_of_ready (h : Twins asleep s₁ s₂) {u : Addr} (hready : s₁.Ready u) :
    u ∉ asleep := by
  intro hasleep
  obtain ⟨th, -, hth⟩ := Option.bind_eq_some_iff.mp hready
  have hwaiting := h.waiting u hasleep s₁.sync.now h.now
  simp [Sync.isWaiting, hwaiting] at hth

theorem Twins.keepsCurrent_eq (h : Twins asleep s₁ s₂) (first : Ptr) (priority : Nat) :
    s₂.keepsCurrent first priority = s₁.keepsCurrent first priority := by
  have hwaiting : s₂.threadsWaiting = s₁.threadsWaiting := by
    obtain ⟨threads, wait, rfl⟩ := h.alike
    rfl
  cases first with
  | none => rfl
  | some first => simp only [keepsCurrent, h.nodePointer_eq, h.ready_eq, hwaiting]

theorem Twins.current_eq (h : Twins asleep s₁ s₂) : s₂.current = s₁.current := by
  obtain ⟨threads, wait, rfl⟩ := h.alike
  rfl

theorem Twins.thread_current (h : Twins asleep s₁ s₂) {t : Addr} (ht : s₁.current = some t) :
    s₂.thread t = s₁.thread t := h.same t fun hasleep => h.stopped t hasleep ht

theorem Twins.priority_eq (h : Twins asleep s₁ s₂) : s₂.priority = s₁.priority := by
  have hnow : s₂.sync.now = s₁.sync.now := by
    obtain ⟨threads, wait, rfl⟩ := h.alike
    rfl
  rw [priority, priority, h.current_eq]
  cases hcurrent : s₁.current with
  | none => rfl
  | some t => simp only [h.thread_current hcurrent, hnow]

theorem Twins.countTicks (h : Twins asleep s₁ s₂) :
    Option.Rel (Twins asleep) s₁.countTicks s₂.countTicks := by
  have hthread := fun t => h.thread_current (t := t)
  obtain ⟨threads, wait, rfl⟩ := h.alike
  obtain ⟨sync, current⟩ := s₁
  cases current with
  | none => exact .some (h.of_eq ⟨threads, wait, rfl⟩ rfl rfl rfl rfl rfl)
  | some t =>
    apply rel_bind_of_eq (hthread t rfl)
    intro th _
    split
    · exact .some (h.of_eq ⟨threads, wait, rfl⟩ rfl rfl rfl rfl rfl)
    · exact .some (h.of_eq ⟨threads, wait, rfl⟩ rfl rfl rfl rfl rfl)

theorem modifyThread_none {s : Scheduler} {t : Addr} (h : s.thread t = none)
    (f : Thread → Thread) : s.modifyThread t f = none := by
  rw [thread, Option.map_eq_none_iff] at h
  rw [modifyThread, Tree.modifyData, Tree.modify, h]
  rfl

theorem modifyData_some {δ : Type} {tree : Tree δ} {a : Addr} {d : δ}
    (h : (tree.node a).map TreeNode.data = some d) (f : δ → δ) :
    ∃ tree', tree.modifyData a f = some tree' ∧
      ∀ u, (tree'.node u).map TreeNode.data =
        if u = a then some (f d) else (tree.node u).map TreeNode.data := by
  obtain ⟨n, hn, rfl⟩ := Option.map_eq_some_iff.mp h
  refine ⟨{ tree with heap := tree.heap.insert a { n with data := f n.data } }, ?_, fun u => ?_⟩
  · rw [Tree.modifyData, Tree.modify, hn]
    rfl
  · by_cases hu : u = a
    · subst hu
      rw [if_pos rfl, Tree.node, Finmap.lookup_insert]
      rfl
    · rw [if_neg hu, Tree.node, Finmap.lookup_insert_of_ne _ hu]
      rfl

theorem modifyThread_some {s : Scheduler} {t : Addr} {th : Thread} (h : s.thread t = some th)
    (f : Thread → Thread) :
    ∃ threads, s.modifyThread t f = some { s with threads } ∧
      ∀ u, (threads.node u).map TreeNode.data = if u = t then some (f th) else s.thread u := by
  obtain ⟨threads, hmodify, hlookup⟩ := modifyData_some h f
  refine ⟨threads, ?_, hlookup⟩
  rw [modifyThread, hmodify]
  rfl

/-- What the current thread was loaded with is the same, and so is what is saved of it. -/
theorem Twins.saveCurrent (h : Twins asleep s₁ s₂) (priority : Nat) (new : Fresh Addr) :
    Option.Rel (Twins asleep) (s₁.saveCurrent priority new) (s₂.saveCurrent priority new) := by
  rw [Scheduler.saveCurrent, Scheduler.saveCurrent, h.current_eq]
  cases hcurrent : s₁.current with
  | none => exact .some h
  | some t =>
    have hthread := h.thread_current hcurrent
    cases hth : s₁.thread t with
    | none =>
      rw [hth] at hthread
      simp only [modifyThread_none hth, modifyThread_none hthread]
      exact .none
    | some th =>
      rw [hth] at hthread
      obtain ⟨threads₁, hmodify₁, hlookup₁⟩ := modifyThread_some hth
        fun th => { th with lastTick := s₁.sync.now, state := s₁.lastState }
      obtain ⟨threads₂, hmodify₂, hlookup₂⟩ := modifyThread_some hthread
        fun th => { th with lastTick := s₂.sync.now, state := s₂.lastState }
      have hasleep : t ∉ asleep := fun hu => h.stopped t hu hcurrent
      obtain ⟨threads, wait, rfl⟩ := h.alike
      simp only [hmodify₁, hmodify₂, Option.bind_eq_bind, Option.bind_some]
      apply rel_bind_of_eq rfl
      intro found _
      apply rel_bind_of_eq rfl
      intro threadsWaiting _
      refine .some ⟨⟨threads₂, wait, rfl⟩, h.now, h.waits, fun u hu => ?_, fun u hu => ?_, h.waiting,
        ?_⟩
      · show (threads₂.node u).map TreeNode.data = (threads₁.node u).map TreeNode.data
        rw [hlookup₁, hlookup₂, h.same u hu]
        rfl
      · have hne : u ≠ t := fun heq => hasleep (heq ▸ hu)
        show ((threads₁.node u).map TreeNode.data).isSome ∧
          ((threads₂.node u).map TreeNode.data).isSome
        rw [hlookup₁, hlookup₂, if_neg hne, if_neg hne]
        exact h.known u hu
      · exact h.stopped

theorem Twins.loadFirst (h : Twins asleep s₁ s₂) (image : Image) {first : Ptr}
    (hawake : ∀ node u, first = some node → s₁.nodePointer node = some u → u ∉ asleep) :
    Option.Rel (Twins asleep) (s₁.loadFirst image first) (s₂.loadFirst image first) := by
  cases first with
  | none =>
    obtain ⟨threads, wait, rfl⟩ := h.alike
    refine .some ⟨⟨threads, wait, rfl⟩, h.now, h.waits, h.same, h.known, h.waiting, ?_⟩
    exact fun u _ => Option.some_ne_none u ∘ Eq.symm
  | some node =>
    apply rel_bind_of_eq (h.nodePointer_eq node)
    intro t ht
    have hasleep := hawake node t rfl ht
    apply rel_bind_of_eq (h.same t hasleep)
    intro th _
    obtain ⟨threads, wait, rfl⟩ := h.alike
    apply rel_bind_of_eq rfl
    intro threadsWaiting _
    refine .some ⟨⟨threads, wait, rfl⟩, h.now, h.waits, h.same, h.known, h.waiting, ?_⟩
    intro u hu heq
    cases heq
    exact hasleep hu

theorem loadFirst_current {s s' : Scheduler} {node u : Addr}
    (h : s.loadFirst image (some node) = some s') (hu : s.nodePointer node = some u) :
    s'.current = some u := by
  simp only [Scheduler.loadFirst, hu, Option.bind_eq_bind, Option.bind_some] at h
  obtain ⟨th, -, hrest⟩ := Option.bind_eq_some_iff.mp h
  obtain ⟨threadsWaiting, -, hrest⟩ := Option.bind_eq_some_iff.mp hrest
  cases hrest
  rfl

/-- **Twins switch alike.** -/
theorem Twins.switch (h : Twins asleep s₁ s₂) (image : Image) {ts : List (Entry Thread)}
    {ws : List (Entry Addr)} {ps : List (Entry Unit)} (hwf : s₁.WellFormed ts ws ps)
    (hnew : s₁.threadsWaiting.node new.addr = none) :
    Option.Rel (fun x y => Twins asleep x.1 y.1 ∧ y.2 = x.2) (s₁.switch image new)
      (s₂.switch image new) := by
  apply rel_bind h.countTicks
  intro c₁ c₂ hcount hc
  apply rel_bind_of_eq hc.priority_eq
  intro priority hpriority
  have hwaiting : c₂.threadsWaiting = c₁.threadsWaiting := by
    obtain ⟨threads, wait, rfl⟩ := hc.alike
    rfl
  apply rel_bind_of_eq (by rw [hwaiting])
  intro start hstart
  apply rel_bind_of_eq (by rw [hwaiting, hc.firstReady_eq])
  intro first hfirst
  apply rel_bind_of_eq (hc.keepsCurrent_eq first priority)
  intro keeps hkeeps
  split
  · exact .some ⟨hc, rfl⟩
  · next hgo =>
    apply rel_bind (hc.saveCurrent priority new)
    intro d₁ d₂ hsave hd
    refine rel_bind (hd.loadFirst image ?_) fun e₁ e₂ _ he => .some ⟨he, rfl⟩
    rintro node u rfl hu
    have hswitch : s₁.switch image new = (d₁.loadFirst image (some node)).bind
        fun s => some (s, 1) := by
      simp [Scheduler.switch, hcount, hpriority, hstart, hfirst, hkeeps, hgo, hsave]
    obtain ⟨s', r, p, hrun, -, -, houtcome⟩ := hwf.switch image hnew
    rw [hswitch] at hrun
    obtain ⟨s, hload, heq⟩ := Option.bind_eq_some_iff.mp hrun
    obtain ⟨rfl, rfl⟩ := Prod.mk.inj (Option.some.inj heq)
    rcases houtcome with ⟨hr, -⟩ | ⟨-, ws', hswitched⟩
    · cases hr
    · have hcurrent := hswitched.current.symm.trans (loadFirst_current hload hu)
      obtain ⟨e, hentry, rfl⟩ := Option.map_eq_some_iff.mp hcurrent
      exact h.awake_of_ready (hwf.firstEntry_mem hentry).2

end Helos.Scheduler
