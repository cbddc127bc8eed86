import Helos.Smp.SwitchSpec

/-!
# What the calls on threads do

The same for `smp_thread_Init`, `smp_thread_Start`, `__smp_thread_Cleanup` and the calls that change
one field of a thread: each keeps the scheduler well formed, with its tables changed as described.
-/

namespace Helos.Scheduler

open Helos.Tree (Fresh)

variable {s s' : Scheduler} {ts : List (Entry Thread)} {ws : List (Entry Addr)}
  {ps : List (Entry Unit)}

/-! ### Fields of one thread -/

theorem WellFormed.modifyThread (h : s.WellFormed ts ws ps) {t : Addr}
    (ht : t ∈ ts.map Entry.node) {f : Thread → Thread} (hid : ∀ th, (f th).id = th.id) :
    ∃ threads, s.modifyThread t f = some { s with threads } ∧
      WellFormed { s with threads } (ts.map (Entry.modify t f)) ws ps := by
  obtain ⟨threads, hrun, hlists⟩ := h.threads.modifyData ht f
  have hnodes : (ts.map (Entry.modify t f)).map Entry.node = ts.map Entry.node := by
    rw [List.map_map]
    exact List.map_congr_left fun e _ => Entry.node_modify t f e
  refine ⟨threads, by simp [Scheduler.modifyThread, hrun],
    ⟨hlists, h.waiting, h.pool, h.idallo, fun e he => ?_, h.keys, ?_, h.distinct⟩⟩
  · obtain ⟨x, hx, rfl⟩ := List.mem_map.mp he
    obtain ⟨hxid, hxle⟩ := h.ids x hx
    rw [Entry.key_modify]
    exact ⟨(Entry.data_modify_kept (g := Thread.id) hid t x).trans hxid, hxle⟩
  · rw [hnodes]
    exact h.known

theorem WellFormed.sleep (h : s.WellFormed ts ws ps) {ticks : Int}
    (hrun : s.sleep ticks = some s') :
    ∃ t sleepUntil threads, s.current = some t ∧ s' = { s with threads } ∧
      s'.WellFormed (ts.map (Entry.modify t fun th => { th with sleepUntil })) ws ps := by
  obtain ⟨t, hcurrent, hrest⟩ := Option.bind_eq_some_iff.mp hrun
  have ht : t ∈ ts.map Entry.node := h.known t (by simp [placed, hcurrent])
  obtain ⟨threads, hmodify, hwf⟩ := h.modifyThread ht
    (f := fun th => { th with sleepUntil := ((s.sync.now + ticks) % 2 ^ 64).toNat }) fun _ => rfl
  obtain rfl := Option.some.inj (hmodify.symm.trans hrest)
  exact ⟨t, _, threads, hcurrent, rfl, hwf⟩

theorem WellFormed.nice (h : s.WellFormed ts ws ps) {id newnice old : Int}
    (hrun : s.nice id newnice = some (s', old)) :
    s' = s ∨ ∃ t nice threads, s' = { s with threads } ∧
      s'.WellFormed (ts.map (Entry.modify t fun th => { th with nice })) ws ps := by
  unfold Scheduler.nice at hrun
  obtain ⟨p, hfind, hrest⟩ := Option.bind_eq_some_iff.mp hrun
  cases p with
  | none => exact .inl (congrArg Prod.fst (Option.some.inj hrest)).symm
  | some t =>
    obtain ⟨th, hth, hrest⟩ := Option.bind_eq_some_iff.mp hrest
    split at hrest
    · exact .inl (congrArg Prod.fst (Option.some.inj hrest)).symm
    · obtain ⟨n, hn, -⟩ := Option.map_eq_some_iff.mp hth
      obtain ⟨e, he, rfl, -, -⟩ := h.threads.exists_entry hn
      obtain ⟨threads, hmodify, hwf⟩ := h.modifyThread (List.mem_map_of_mem he)
        (f := fun th => { th with nice := newnice.toNat % 2 ^ 32 }) fun _ => rfl
      obtain ⟨s₁, hs₁, hs'⟩ := Option.bind_eq_some_iff.mp hrest
      obtain rfl := Option.some.inj (hmodify.symm.trans hs₁)
      obtain rfl := congrArg Prod.fst (Option.some.inj hs')
      exact .inr ⟨e.node, _, threads, rfl, hwf⟩

/-! ### `smp_thread_Start` -/

/-- Where the stack of a new thread comes from: below the kernel mappings, or the pool's first. -/
def StackTaken (bottom bottom' : Nat) (ps ps' : List (Entry Unit)) (stack : Nat)
    (page : Option Nat) : Prop :=
  (ps = [] ∧ ps' = [] ∧ bottom' = allocateKernelMapping bottom 4096 4096 ∧ page = some bottom' ∧
    stack = wrap64 (bottom' + 4096)) ∨
  ∃ e, ps.head? = some e ∧ ps.Perm (e :: ps') ∧ bottom' = bottom ∧ page = none ∧
    stack = wrap64 (e.key + 4096)

theorem takeStack_spec (h : s.stackPool.Lists ps) :
    ∃ stackPool bottom stack page ps',
      s.takeStack = some ({ s with stackPool, kernelMappingBottom := bottom }, stack, page) ∧
      stackPool.Lists ps' ∧ StackTaken s.kernelMappingBottom bottom ps ps' stack page := by
  unfold takeStack
  rw [h.firstNode]
  cases ps with
  | nil => exact ⟨s.stackPool, _, _, _, [], rfl, h, .inl ⟨rfl, rfl, rfl, rfl, rfl⟩⟩
  | cons e ps =>
    obtain ⟨n, hn, hkey, -⟩ := h.read List.mem_cons_self
    obtain ⟨stackPool, ps', hdelete, hperm, hlists⟩ := h.delete List.mem_cons_self
    refine ⟨stackPool, s.kernelMappingBottom, wrap64 (e.key + 4096), none, ps', ?_, hlists,
      .inr ⟨e, rfl, hperm, rfl, rfl, rfl⟩⟩
    simp [hn, hkey, hdelete]

/-- The key under which `smp_thread_Start` queues the new thread. -/
def startKey (s : Scheduler) (call : StartCall) : Nat :=
  wrap64 (s.sync.now + call.nice % 2 ^ 32)

/-- The new thread has an entry of its own, or takes over the one that has its key. -/
def StartQueued (key : Nat) (t : Addr) (ws ws' : List (Entry Addr)) : Prop :=
  ((∀ e ∈ ws, e.key ≠ key) ∧ ∃ node, ws'.Perm (⟨node, key, t⟩ :: ws)) ∨
  ∃ e rest, e.key = key ∧ ws.Perm (e :: rest) ∧ ws'.Perm (⟨e.node, key, t⟩ :: rest)

structure Started (image : Image) (s s' : Scheduler) (call : StartCall) (blocks : StartBlocks)
    (page : Option Nat) (stack : Nat) (ts ts' : List (Entry Thread)) (ws ws' : List (Entry Addr))
    (ps ps' : List (Entry Unit)) : Prop where
  threads : ts'.Perm (⟨blocks.thread.addr, s.idallo + 1, blocks.thread.data.start image call.entry
    call.args (call.nice % 2 ^ 32) (s.idallo + 1) s.sync.now stack⟩ :: ts)
  queued : StartQueued (s.startKey call) blocks.thread.addr ws ws'
  stack : StackTaken s.kernelMappingBottom s'.kernelMappingBottom ps ps' stack page
  current : s'.current = s.current

theorem StartQueued.data {key : Nat} {t : Addr} {ws' : List (Entry Addr)}
    (h : StartQueued key t ws ws') :
    ∃ lost rest, (ws.map Entry.data).Perm (lost ++ rest) ∧ (ws'.map Entry.data).Perm (t :: rest) := by
  rcases h with ⟨-, node, hperm⟩ | ⟨e, rest, -, hws, hws'⟩
  · exact ⟨[], ws.map Entry.data, List.Perm.refl _, hperm.map Entry.data⟩
  · exact ⟨[e.data], rest.map Entry.data, hws.map Entry.data, hws'.map Entry.data⟩

theorem queueStarted {tree : Tree Addr} (h : tree.Lists ws) (key : Nat) (zero : Bool)
    {new : Fresh Addr} (hnew : tree.node new.addr = none) (t : Addr) :
    ∃ tree₁ node isNew tree' ws', tree.insertNode key (.null zero) new = some (tree₁, node, isNew) ∧
      tree₁.modifyData node (fun _ => t) = some tree' ∧ tree'.Lists ws' ∧
      StartQueued key t ws ws' ∧ ∀ e ∈ ws', e.key = key ∨ ∃ x ∈ ws, e.key = x.key := by
  rcases h.insertNode key (.null zero) hnew with
    ⟨e, he, hkey, tree₁, hrun, hlists⟩ | ⟨habsent, tree₁, ws₁, hrun, hperm, hlists⟩
  · obtain ⟨tree', ws', rest, hmodify, hlists', hws, hws'⟩ := hlists.modifyEntry he fun _ => t
    refine ⟨tree₁, e.node, false, tree', ws', hrun, hmodify, hlists',
      .inr ⟨e, rest, hkey, hws, hkey ▸ hws'⟩, fun x hx => ?_⟩
    rcases List.mem_cons.mp (hws'.subset hx) with rfl | hx
    · exact .inl hkey
    · exact .inr ⟨x, hws.symm.subset (List.mem_cons_of_mem e hx), rfl⟩
  · have hmem : (⟨new.addr, key, new.data⟩ : Entry Addr) ∈ ws₁ :=
      hperm.symm.subset List.mem_cons_self
    obtain ⟨tree', ws', rest, hmodify, hlists', hws, hws'⟩ := hlists.modifyEntry hmem fun _ => t
    have hrest : rest.Perm ws := (hws.symm.trans hperm).cons_inv
    refine ⟨tree₁, new.addr, true, tree', ws', hrun, hmodify, hlists',
      .inl ⟨habsent, new.addr, hws'.trans (hrest.cons _)⟩, fun x hx => ?_⟩
    rcases List.mem_cons.mp (hws'.subset hx) with rfl | hx
    · exact .inl rfl
    · exact .inr ⟨x, hrest.subset hx, rfl⟩

/-- **Starting a thread.** -/
theorem WellFormed.start (image : Image) (h : s.WellFormed ts ws ps) {call : StartCall}
    {blocks : StartBlocks} (hthread : s.threads.node blocks.thread.addr = none)
    (hready : s.threadsWaiting.node blocks.ready.addr = none) {t : Addr} {page : Option Nat}
    (hrun : s.start image call blocks = some (s', t, page)) :
    t = blocks.thread.addr ∧ ∃ ts' ws' ps' stack, s'.WellFormed ts' ws' ps' ∧
      Started image s s' call blocks page stack ts ts' ws ws' ps ps' := by
  unfold Scheduler.start at hrun
  simp only at hrun
  split at hrun
  · next hid =>
    have habsent : ∀ e ∈ ts, e.key ≠ s.idallo + 1 := by
      intro e he heq
      have hle := (h.ids e he).2
      omega
    rcases h.threads.insertNode (s.idallo + 1) (.null blocks.byteAtZero) hthread with
      ⟨e, he, hkey, -⟩ | ⟨-, threads₁, ts₁, hinsert, hperm₁, hlists₁⟩
    · exact absurd hkey (habsent e he)
    obtain ⟨stackPool, bottom, stack, page', ps', hstack, hpool, htaken⟩ :=
      takeStack_spec (s := { s with idallo := s.idallo + 1, threads := threads₁ }) h.pool
    set th := blocks.thread.data.start image call.entry call.args (call.nice % 2 ^ 32)
      (s.idallo + 1) s.sync.now stack with hth
    have hmem : ⟨blocks.thread.addr, s.idallo + 1, blocks.thread.data⟩ ∈ ts₁ :=
      hperm₁.symm.subset List.mem_cons_self
    obtain ⟨threads', ts', rest, hmodify, hlists', hts₁, hts'⟩ := hlists₁.modifyEntry hmem
      (Thread.start image call.entry call.args (call.nice % 2 ^ 32) (s.idallo + 1) s.sync.now stack)
    have hrest : rest.Perm ts := (hts₁.symm.trans hperm₁).cons_inv
    have hperm : ts'.Perm (⟨blocks.thread.addr, s.idallo + 1, th⟩ :: ts) := hts'.trans (hrest.cons _)
    obtain ⟨n, hn, -, hdata⟩ := hlists'.read (hperm.symm.subset List.mem_cons_self)
    obtain ⟨tree₁, node, isNew, tree', ws', htree₁, htree', hws', hqueued, hkeys⟩ :=
      queueStarted h.waiting (s.startKey call) blocks.byteAtZero' hready blocks.thread.addr
    have hkey : wrap64 (th.lastTick + th.nice) = s.startKey call := rfl
    simp only [hinsert, hstack, Scheduler.modifyThread, hmodify, thread, hn, Option.map_some, hdata,
      hkey, htree₁, htree', Option.bind_eq_bind, Option.bind_some] at hrun
    obtain ⟨rfl, rfl, rfl⟩ : _ = s' ∧ blocks.thread.addr = t ∧ page' = page := by
      simpa using hrun
    have hfresh := h.threads.not_mem_of_fresh hthread
    have hout : ∀ u ∈ s.placed ws, u ≠ blocks.thread.addr := by
      intro u hu heq
      obtain ⟨e, he, hnode⟩ := List.mem_map.mp (h.known u hu)
      exact hfresh e he (hnode.trans heq)
    obtain ⟨lost, queue, hws, hqueue⟩ := hqueued.data
    have hkept : ∀ u ∈ s.current.toList ++ queue, u ∈ s.placed ws := by
      intro u hu
      rcases List.mem_append.mp hu with hu | hu
      · exact List.mem_append_left _ hu
      · exact List.mem_append_right _ (hws.symm.subset (List.mem_append_right lost hu))
    have hplaced : (s.current.toList ++ ws'.map Entry.data).Perm
        (blocks.thread.addr :: (s.current.toList ++ queue)) :=
      (hqueue.append_left s.current.toList).trans List.perm_middle
    refine ⟨rfl, ts', ws', ps', stack, ⟨hlists', hws', hpool, hid, fun e he => ?_, fun e he => ?_,
      ?_, ?_⟩, ⟨hperm, hqueued, htaken, rfl⟩⟩
    · rcases List.mem_cons.mp (hperm.subset he) with rfl | he
      · exact ⟨rfl, Nat.le_refl _⟩
      · exact ⟨(h.ids e he).1, Nat.le_succ_of_le (h.ids e he).2⟩
    · rcases hkeys e he with heq | ⟨x, hx, heq⟩
      · exact heq ▸ wrap64_lt _
      · exact heq ▸ h.keys x hx
    · intro u hu
      rcases List.mem_cons.mp (hplaced.subset hu) with rfl | hu
      · exact List.mem_map.mpr ⟨_, hperm.symm.subset List.mem_cons_self, rfl⟩
      · have hnode := h.known u (hkept u hu)
        exact (hperm.map Entry.node).symm.subset (List.mem_cons_of_mem _ hnode)
    · refine hplaced.nodup_iff.mpr (List.nodup_cons.mpr ⟨fun hmem => ?_, ?_⟩)
      · exact hout _ (hkept _ hmem) rfl
      · have hnodup : (s.current.toList ++ (lost ++ queue)).Nodup :=
          (hws.append_left s.current.toList).nodup_iff.mp h.distinct
        exact hnodup.sublist ((List.Sublist.refl _).append (List.sublist_append_right lost queue))
  · cases hrun

/-! ### `__smp_thread_Cleanup` -/

theorem WellFormed.cleanup (h : s.WellFormed ts ws ps) {pool : Fresh Unit} {zero : Bool}
    (hpool : s.stackPool.node pool.addr = none) (hrun : s.cleanup pool zero = some s') :
    ∃ e ts' ps', s.current = some e.node ∧ ts.Perm (e :: ts') ∧ s'.WellFormed ts' ws ps' ∧
      s'.current = none ∧ s'.kernelMappingBottom = s.kernelMappingBottom ∧
      ∀ x ∈ ps', x.key = e.data.stackframe ∨ ∃ y ∈ ps, x.key = y.key := by
  obtain ⟨t, hcurrent, hrun⟩ := Option.bind_eq_some_iff.mp hrun
  obtain ⟨e, he, rfl, hthread⟩ := h.exists_thread (t := t) (by simp [placed, hcurrent])
  have hid := (h.ids e he).1
  obtain ⟨threads, ts', hdelete, hperm, hlists⟩ := h.threads.delete he
  obtain ⟨stackPool, node, isNew, ps', hinsert, hlists', hkeys⟩ :
      ∃ stackPool node isNew ps',
        s.stackPool.insertNode e.data.stackframe (.null zero) pool =
          some (stackPool, node, isNew) ∧ stackPool.Lists ps' ∧
        ∀ x ∈ ps', x.key = e.data.stackframe ∨ ∃ y ∈ ps, x.key = y.key := by
    rcases h.pool.insertNode e.data.stackframe (.null zero) hpool with
      ⟨y, hy, hkey, stackPool, hrun, hlists⟩ | ⟨-, stackPool, ps', hrun, hperm, hlists⟩
    · exact ⟨stackPool, y.node, false, ps, hrun, hlists, fun x hx => .inr ⟨x, hx, rfl⟩⟩
    · refine ⟨stackPool, pool.addr, true, ps', hrun, hlists, fun x hx => ?_⟩
      rcases List.mem_cons.mp (hperm.subset hx) with rfl | hx
      · exact .inl rfl
      · exact .inr ⟨x, hx, rfl⟩
  simp only [hthread, hid, h.threads.findNode he, hdelete, hinsert, Option.bind_eq_bind,
    Option.bind_some] at hrun
  obtain rfl := Option.some.inj hrun
  refine ⟨e, ts', ps', hcurrent, hperm, ⟨hlists, h.waiting, hlists', h.idallo, fun x hx => ?_, h.keys,
    fun u hu => ?_, ?_⟩, rfl, rfl, hkeys⟩
  · exact h.ids x (hperm.symm.subset (List.mem_cons_of_mem e hx))
  · have hu' : u ∈ ws.map Entry.data := hu
    have hnode := h.known u (List.mem_append_right _ hu')
    rcases List.mem_cons.mp ((hperm.map Entry.node).subset hnode) with rfl | hnode
    · obtain ⟨x, hx, hdata⟩ := List.mem_map.mp hu'
      exact absurd (hdata ▸ hcurrent) (h.ne_current hx)
    · exact hnode
  · exact (List.nodup_append.mp h.distinct).2.1

/-! ### `smp_thread_Init` -/

theorem wellFormed_init {block : Fresh Thread} {waitBlock : Waiting} {zero : Bool}
    {lastState : ThreadState} {bottom : Nat}
    (hrun : init block waitBlock zero lastState bottom = some s) :
    ∃ e, s.WellFormed [e] [] [] ∧ s.current = some e.node ∧ s.kernelMappingBottom = bottom := by
  unfold init at hrun
  have hfresh : (Tree.create : Tree Thread).node block.addr = none := rfl
  rcases Tree.lists_create.insertNode 1 (.null zero) hfresh with
    ⟨e, he, -⟩ | ⟨-, threads₁, ts₁, hinsert, hperm₁, hlists₁⟩
  · exact absurd he List.not_mem_nil
  obtain rfl := List.perm_singleton.mp hperm₁
  obtain ⟨threads, hmodify, hlists⟩ := hlists₁.modifyData
    (a := block.addr) (by simp)
    fun th => { th with nice := nicenessDefault, id := 1, lastTick := 1, sleepUntil := 0 }
  simp only [hinsert, hmodify, Option.bind_eq_bind, Option.bind_some] at hrun
  obtain rfl := Option.some.inj hrun
  rw [List.map_singleton] at hlists
  have hid : 1 < 2 ^ 31 := by decide
  refine ⟨_, ⟨hlists, Tree.lists_create, Tree.lists_create, hid, ?_, by simp, ?_, ?_⟩, ?_, rfl⟩
  · simp [Entry.modify]
  · simp [placed, Entry.modify]
  · simp [placed]
  · simp [Entry.modify]

end Helos.Scheduler
