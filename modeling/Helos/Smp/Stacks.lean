import Helos.Smp.Invariant

/-!
# Thread stacks

The field `stackframe` of a thread is documented as the lowest address of its stack and holds the
highest. `__smp_thread_Cleanup` puts it into the pool as it is, and `smp_thread_Start` adds a page to
what it takes from there, so that a stack from the pool lies one page above the one that was given
back. That page may be another thread's, one that was never mapped, or the interrupt table.
-/

namespace Helos

open Helos.Tree (Fresh)

def stackPage (top : Nat) : Nat := wrap64 (top + (2 ^ 64 - 4096))

theorem stackPage_top {page : Nat} (h : page < 2 ^ 64) : stackPage (wrap64 (page + 4096)) = page := by
  unfold stackPage wrap64
  omega

theorem top_stackPage {top : Nat} (h : top < 2 ^ 64) : wrap64 (stackPage top + 4096) = top := by
  unfold stackPage wrap64
  omega

namespace Machine

open Scheduler

/-- The pages below the initial stack pointers of the live threads are apart, mapped for stacks, and
below the static mappings. -/
def StacksApart (m : Machine) : Prop :=
  m.stackTops.Pairwise (fun k k' => stackPage k.2 + 4096 ≤ stackPage k'.2 ∨
    stackPage k'.2 + 4096 ≤ stackPage k.2) ∧
  ∀ k ∈ m.stackTops, stackPage k.2 ∈ m.pages ∧ stackPage k.2 + 4096 ≤ kernelMiscMapping

/-- With an empty pool there is a page left below the bottom of the kernel mappings. Else the first
key of the pool happens to be a page that was mapped for a stack and belongs to no live thread. -/
def StackFits (m : Machine) : Event → Prop
  | .start _ _ =>
    match m.sched.stackPool.firstNode with
    | some (some spare) => ∀ n, m.sched.stackPool.node spare = some n →
        n.key ∈ m.pages ∧ ∀ k ∈ m.stackTops, k.2 ≠ wrap64 (n.key + 4096)
    | _ => 4096 ≤ m.sched.kernelMappingBottom
  | _ => True

/-- The pages mapped for stacks lie between the bottom of the kernel mappings and its end. -/
structure Mapped (m : Machine) : Prop where
  bottom : m.sched.kernelMappingBottom ≤ kernelMiscMapping
  pages : ∀ page ∈ m.pages,
    page % 4096 = 0 ∧ m.sched.kernelMappingBottom ≤ page ∧ page + 4096 ≤ kernelMiscMapping
  apart : m.StacksApart

theorem Mapped.of_eq {m m' : Machine} (h : Mapped m)
    (hbottom : m'.sched.kernelMappingBottom = m.sched.kernelMappingBottom)
    (hpages : m'.pages = m.pages) (htops : m'.stackTops.Sublist m.stackTops) : Mapped m' := by
  refine ⟨hbottom ▸ h.bottom, ?_, h.apart.1.sublist htops, fun k hk => ?_⟩
  · rw [hbottom, hpages]
    exact h.pages
  · rw [hpages]
    exact h.apart.2 k (htops.subset hk)

section Fresh

variable {bottom : Nat}

theorem fresh_page (hbottom : bottom < 2 ^ 64) (hroom : 4096 ≤ bottom) :
    allocateKernelMapping bottom 4096 4096 % 4096 = 0 ∧
      allocateKernelMapping bottom 4096 4096 + 4096 ≤ bottom := by
  have heq : allocateKernelMapping bottom 4096 4096 = bottom - 4096 - (bottom - 4096) % 4096 :=
    allocateKernelMapping_eq (k := 12) hbottom hroom (by decide)
  omega

theorem fresh_page_wraps (hroom : bottom < 4096) :
    allocateKernelMapping bottom 4096 4096 = 2 ^ 64 - 4096 := by
  have heq : allocateKernelMapping bottom 4096 4096 =
      bottom + (2 ^ 64 - 4096) - (bottom + (2 ^ 64 - 4096)) % 4096 :=
    allocateKernelMapping_of_lt (k := 12) hroom (by decide) (by decide)
  omega

end Fresh

section Step

variable {image : Image} {m m' : Machine} {ts ts' : List (Entry Thread)}
  {ws ws' : List (Entry Addr)} {ps ps' : List (Entry Unit)}

theorem Mapped.push (h : Mapped m) {t : Addr} {page bottom : Nat} {pages : List Nat}
    (hpage : page < 2 ^ 64) (hbottom : m'.sched.kernelMappingBottom = bottom)
    (hle : bottom ≤ m.sched.kernelMappingBottom)
    (hpages' : m'.pages = pages ++ m.pages)
    (htops : m'.stackTops = (t, wrap64 (page + 4096)) :: m.stackTops)
    (hnew : ∀ x ∈ pages, x % 4096 = 0 ∧ bottom ≤ x ∧ x + 4096 ≤ kernelMiscMapping)
    (hmem : page ∈ m'.pages)
    (hapart : ∀ k ∈ m.stackTops, page ≠ stackPage k.2) : Mapped m' := by
  have hbounds : ∀ x ∈ m'.pages,
      x % 4096 = 0 ∧ m'.sched.kernelMappingBottom ≤ x ∧ x + 4096 ≤ kernelMiscMapping := by
    intro x hx
    rw [hpages'] at hx
    rw [hbottom]
    rcases List.mem_append.mp hx with hx | hx
    · exact hnew x hx
    · obtain ⟨haligned, hlow, hhigh⟩ := h.pages x hx
      exact ⟨haligned, by omega, hhigh⟩
  have hold : ∀ k ∈ m.stackTops, stackPage k.2 ∈ m'.pages := by
    intro k hk
    rw [hpages']
    exact List.mem_append_right _ (h.apart.2 k hk).1
  refine ⟨?_, hbounds, ?_, fun k hk => ?_⟩
  · have hmisc := h.bottom
    omega
  · rw [htops]
    refine List.pairwise_cons.mpr ⟨fun k hk => ?_, h.apart.1⟩
    simp only [stackPage_top hpage]
    -- two aligned pages are equal or apart
    have haligned := (hbounds page hmem).1
    have haligned' := (hbounds _ (hold k hk)).1
    have hne := hapart k hk
    omega
  · rw [htops] at hk
    rcases List.mem_cons.mp hk with rfl | hk
    · rw [stackPage_top hpage]
      exact ⟨hmem, (hbounds page hmem).2.2⟩
    · exact ⟨hold k hk, (hbounds _ (hold k hk)).2.2⟩

theorem misc_lt : kernelMiscMapping < 2 ^ 64 := by decide

theorem Mapped.start (hsound : Sound m ts ws ps) (h : Mapped m) {call : StartCall}
    {blocks : StartBlocks} {page : Option Nat} {stack : Nat}
    (hstep : StartStep image m m' call blocks page stack ts ts' ws ws' ps ps')
    (hfits : m.StackFits (.start call blocks)) : Mapped m' := by
  have hmisc := misc_lt
  have hbottom := h.bottom
  have hfirst := hsound.wellFormed.pool.firstNode
  simp only [StackFits, hfirst] at hfits
  rcases hstep.started.stack with ⟨rfl, -, hnew, rfl, hstack⟩ | ⟨e, hhead, hperm, hsame, rfl, hstack⟩
  · have hroom : 4096 ≤ m.sched.kernelMappingBottom := hfits
    obtain ⟨haligned, hend⟩ := fresh_page (by omega) hroom
    rw [← hnew] at haligned hend
    refine h.push (show m'.sched.kernelMappingBottom < 2 ^ 64 by omega) rfl (by omega) hstep.pages
      (hstack ▸ hstep.stackTops) (fun x hx => ?_) ?_ fun k hk heq => ?_
    · obtain rfl := List.mem_singleton.mp hx
      exact ⟨haligned, Nat.le_refl _, by omega⟩
    · rw [hstep.pages]
      exact List.mem_append_left _ (List.mem_singleton.mpr rfl)
    · have hlow := (h.pages _ (h.apart.2 k hk).1).2.1
      omega
  · have hmem : e ∈ ps := hperm.symm.subset List.mem_cons_self
    have hkey := hsound.pool e hmem
    obtain ⟨n, hn, hnkey, -⟩ := hsound.wellFormed.pool.read hmem
    rw [hhead, Option.map_some] at hfits
    obtain ⟨hpage, hapart⟩ := hfits n hn
    rw [hnkey] at hpage hapart
    refine h.push hkey hsame (Nat.le_refl _) hstep.pages (hstack ▸ hstep.stackTops)
      (fun x hx => absurd hx List.not_mem_nil) ?_ fun k hk heq => ?_
    · rw [hstep.pages]
      exact List.mem_append_right _ hpage
    · refine hapart k hk ?_
      rw [heq, top_stackPage (hsound.stackTops k hk).1]

theorem Mapped.step (hsound : Sound m ts ws ps) (h : Mapped m) {event : Event}
    (hstep : m.step image event = some m') (hfits : m.StackFits event) : Mapped m' := by
  have hwf := hsound.wellFormed
  cases event with
  | switch regs new =>
    obtain ⟨p, hswitch⟩ := step_switch hwf hstep
    exact h.of_eq hswitch.frame.kernelMappingBottom hswitch.pages
      (hswitch.stackTops ▸ List.Sublist.refl _)
  | start call blocks =>
    obtain ⟨page, stack, ts', ws', ps', hstart⟩ := step_start hwf hstep
    exact h.start hsound hstart hfits
  | cleanup pool zero =>
    obtain ⟨e, ts', ps', hcleanup⟩ := step_cleanup hwf hstep
    exact h.of_eq hcleanup.kernelMappingBottom hcleanup.pages
      (hcleanup.stackTops ▸ List.filter_sublist)
  | _ =>
    obtain ⟨ts', hquiet⟩ := step_quiet hwf hstep trivial
    exact h.of_eq hquiet.kernelMappingBottom hquiet.pages
      (hquiet.stackTops ▸ List.Sublist.refl _)

/-- A start that does not fit breaks the stacks apart at once. -/
theorem Mapped.not_stacksApart (hsound : Sound m ts ws ps) {event : Event}
    (hstep : m.step image event = some m') (hfits : ¬ m.StackFits event) : ¬ m'.StacksApart := by
  cases event with
  | start call blocks =>
    obtain ⟨page, stack, ts', ws', ps', hstart⟩ := step_start hsound.wellFormed hstep
    have hfirst := hsound.wellFormed.pool.firstNode
    simp only [StackFits, hfirst] at hfits
    intro hapart
    obtain ⟨hpair, hall⟩ := hapart
    rw [hstart.stackTops] at hpair hall
    obtain ⟨hmapped, hhigh⟩ := hall _ List.mem_cons_self
    rcases hstart.started.stack with
      ⟨rfl, -, hnew, rfl, hstack⟩ | ⟨e, hhead, hperm, hsame, rfl, hstack⟩
    · have hroom : ¬ 4096 ≤ m.sched.kernelMappingBottom := hfits
      have hwraps := fresh_page_wraps (Nat.lt_of_not_le hroom)
      rw [← hnew] at hwraps
      simp only [hstack, hwraps] at hhigh
      revert hhigh
      decide
    · have hmem : e ∈ ps := hperm.symm.subset List.mem_cons_self
      obtain ⟨n, hn, hnkey, -⟩ := hsound.wellFormed.pool.read hmem
      have hkey := hsound.pool e hmem
      rw [hhead, Option.map_some] at hfits
      have htop : stackPage stack = e.key := by rw [hstack, stackPage_top hkey]
      apply hfits
      intro n' hn'
      obtain rfl := Option.some.inj (hn.symm.trans hn')
      rw [hnkey]
      constructor
      · simp only [htop, hstart.pages, Option.toList_none, List.nil_append] at hmapped
        exact hmapped
      · intro k hk heq
        have hsep := (List.pairwise_cons.mp hpair).1 k hk
        simp only [htop, heq, stackPage_top hkey] at hsep
        omega
  | _ => exact absurd trivial hfits

end Step

/-- **Stacks stay apart** in a run exactly when each start in it finds a stack that fits. -/
theorem stacksApart_iff (image : Image) {block : Fresh Thread} {waitBlock : Waiting} {zero : Bool}
    {lastState : ThreadState} {bottom : Nat} (hbottom : bottom ≤ kernelMiscMapping) {m : Machine}
    (hboot : boot block waitBlock zero lastState bottom = some m) (events : List Event) :
    Run.Always (step image) StacksApart m events ↔
      Run.EachStep (step image) StackFits m events := by
  obtain ⟨e, hsound, -, hbottom', htops, hpages⟩ := sound_boot hboot
  refine Run.always_iff_eachStep (I := fun m => (∃ ts ws ps, Sound m ts ws ps) ∧ Mapped m)
    (fun m event m' hm hstep hfits => ?_) (fun m hm => hm.2.apart)
    (fun m event m' hm hstep hfits => ?_) ⟨⟨[e], [], [], hsound⟩, ?_⟩
  · obtain ⟨⟨ts, ws, ps, hsound⟩, hmapped⟩ := hm
    exact ⟨hsound.step hstep, hmapped.step hsound hstep hfits⟩
  · obtain ⟨⟨ts, ws, ps, hsound⟩, hmapped⟩ := hm
    exact Mapped.not_stacksApart hsound hstep hfits
  · refine ⟨hbottom' ▸ hbottom, ?_, ?_, ?_⟩
    · simp [hpages]
    · simp [htops]
    · simp [htops]

/-- A thread runs and exits, and another one gets its stack. -/
def recycledStack : List Event :=
  [startAt 5 200 300, .switch blankState ⟨301, 0, 3⟩, .cleanup ⟨400, (), 3⟩ true,
    .switch blankState ⟨302, 0, 4⟩, startAt 5 202 303]

/-- The stack of the second thread is the interrupt table. -/
theorem recycled_stack_in_misc :
    ∃ m₀ m, newMachine = some m₀ ∧ Run.exec (step blankImage) m₀ recycledStack = some m ∧
      (∃ k ∈ m.stackTops, stackPage k.2 = kernelMiscMapping) ∧ ¬ m.StacksApart := by
  have hrun : (newMachine.bind fun m₀ =>
      (Run.exec (step blankImage) m₀ recycledStack).map Machine.stackTops) =
      some [(202, kernelMiscMapping + 4096)] := by
    decide
  obtain ⟨m₀, hm₀, hrest⟩ := Option.bind_eq_some_iff.mp hrun
  obtain ⟨m, hm, htops⟩ := Option.map_eq_some_iff.mp hrest
  have hpage : stackPage (kernelMiscMapping + 4096) = kernelMiscMapping := by
    decide
  have hmem : (202, kernelMiscMapping + 4096) ∈ m.stackTops := by simp [htops]
  refine ⟨m₀, m, hm₀, hm, ⟨_, hmem, hpage⟩, fun hapart => ?_⟩
  have hhigh := (hapart.2 _ hmem).2
  simp only [hpage] at hhigh
  omega

theorem stacksApart_iff_recycled :
    ∃ m, newMachine = some m ∧ (Run.Always (step blankImage) StacksApart m recycledStack ↔
      Run.EachStep (step blankImage) StackFits m recycledStack) := by
  have hsome : newMachine.isSome := by decide
  obtain ⟨m, hm⟩ := Option.isSome_iff_exists.mp hsome
  exact ⟨m, hm, stacksApart_iff blankImage (Nat.le_refl _) hm recycledStack⟩

end Machine

end Helos
