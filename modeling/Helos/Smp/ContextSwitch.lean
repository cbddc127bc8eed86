import Helos.Smp.IntSwitch

/-!
# Storing and loading a context

`__smp_IntSwitch` around its call of `__smp_Switch`. The context that was interrupted is in
`__smp_IntSwitch_LastState` when the call is made, and the one that is there when it returns is resumed.
An interrupt that only advances the clock resumes the context it came from.
-/

namespace Helos.IntSwitch

open Assembly Fields

variable {σ : Type} {link : Link σ} {m m' m₀ : Cpu σ} {rip : Qword}

/-- An `smp_thread_State` in memory -/
def stored (memory : Nat → UInt8) (a : Nat) : ThreadState where
  rax := value memory ⟨a, 8⟩
  rbx := value memory ⟨a + 8, 8⟩
  rcx := value memory ⟨a + 16, 8⟩
  rdx := value memory ⟨a + 24, 8⟩
  rsi := value memory ⟨a + 32, 8⟩
  rdi := value memory ⟨a + 40, 8⟩
  rbp := value memory ⟨a + 48, 8⟩
  rsp := value memory ⟨a + 56, 8⟩
  r8 := value memory ⟨a + 64, 8⟩
  r9 := value memory ⟨a + 72, 8⟩
  r10 := value memory ⟨a + 80, 8⟩
  r11 := value memory ⟨a + 88, 8⟩
  r12 := value memory ⟨a + 96, 8⟩
  r13 := value memory ⟨a + 104, 8⟩
  r14 := value memory ⟨a + 112, 8⟩
  r15 := value memory ⟨a + 120, 8⟩
  rflags := value memory ⟨a + 128, 8⟩
  rip := value memory ⟨a + 136, 8⟩
  ss := value memory ⟨a + 144, 2⟩
  cs := value memory ⟨a + 146, 2⟩

def lastStateField (sym : Symbols) : Field := ⟨sym.lastState, 148⟩

/-- The kernel is in `__smp_IntSwitch`, with the context that it came from in part on the stack. -/
structure Interrupted (link : Link σ) (m₀ : Cpu σ) (rip : Qword) (m : Cpu σ) : Prop where
  reg : ∀ r, r ≠ .rax → r ≠ .rsp → m.reg r = m₀.reg r
  rax : value m.memory ⟨link.sym.lastState, 8⟩ = (m₀.reg .rax).toNat
  rsp : (m.reg .rsp).toNat + 40 = m₀.aligned.toNat
  frame : OnStack m.memory (m.reg .rsp).toNat
    [rip, m₀.cs.setWidth 64, m₀.rflags, m₀.reg .rsp, m₀.ss.setWidth 64]
  apart : Disjoint (lastStateField link.sym).cells (Set.Ico (m.reg .rsp).toNat m₀.aligned.toNat)
  interrupts : m.interrupts = false
  foreign : m.foreign = m₀.foreign

/-- The rest of the context in the order in which it is stored, behind `rax`. -/
def slots (a : Nat) (s : ThreadState) : List (Field × Nat) :=
  [(⟨a + 8, 8⟩, s.rbx), (⟨a + 16, 8⟩, s.rcx), (⟨a + 24, 8⟩, s.rdx), (⟨a + 32, 8⟩, s.rsi),
    (⟨a + 40, 8⟩, s.rdi), (⟨a + 48, 8⟩, s.rbp), (⟨a + 56, 8⟩, s.rsp), (⟨a + 64, 8⟩, s.r8),
    (⟨a + 72, 8⟩, s.r9), (⟨a + 80, 8⟩, s.r10), (⟨a + 88, 8⟩, s.r11), (⟨a + 96, 8⟩, s.r12),
    (⟨a + 104, 8⟩, s.r13), (⟨a + 112, 8⟩, s.r14), (⟨a + 120, 8⟩, s.r15), (⟨a + 128, 8⟩, s.rflags),
    (⟨a + 136, 8⟩, s.rip), (⟨a + 144, 2⟩, s.ss), (⟨a + 146, 2⟩, s.cs)]

theorem slots_consecutive (a : Nat) (s : ThreadState) :
    (slots a s).map Prod.fst = consecutive (a + 8) [8, 8, 8, 8, 8, 8, 8, 8, 8, 8, 8, 8, 8, 8, 8, 8, 8, 2, 2] := rfl

theorem slots_apart (a : Nat) (s : ThreadState) :
    (slots a s).Pairwise fun x y => Disjoint x.1.cells y.1.cells := by
  have h := consecutive_apart (a + 8) [8, 8, 8, 8, 8, 8, 8, 8, 8, 8, 8, 8, 8, 8, 8, 8, 8, 2, 2]
  rw [← slots_consecutive a s] at h
  rwa [List.pairwise_map] at h

theorem slots_fit (a : Nat) (m : Cpu σ) (rip : Qword) :
    ∀ x ∈ slots a (context m rip), x.2 < 256 ^ x.1.width := by
  simp only [slots, context, List.forall_mem_cons]
  refine ⟨?_, ?_, ?_, ?_, ?_, ?_, ?_, ?_, ?_, ?_, ?_, ?_, ?_, ?_, ?_, ?_, ?_, ?_, ?_, List.forall_mem_nil _⟩
  all_goals exact BitVec.isLt _

theorem slots_within {sym : Symbols} {s : ThreadState} {x : Field × Nat} (hx : x ∈ slots sym.lastState s) :
    x.1.cells ⊆ (lastStateField sym).cells := by
  have hmem := slots_consecutive sym.lastState s ▸ List.mem_map_of_mem hx
  have hlow := le_of_mem_consecutive hmem
  have hhigh := le_sum_of_mem_consecutive hmem
  simp only [List.sum_cons, List.sum_nil] at hhigh
  rintro i ⟨hle, hlt⟩
  refine ⟨?_, ?_⟩
  · change sym.lastState ≤ i
    omega
  · change i < sym.lastState + 148
    omega

theorem stored_setAll {memory : Nat → UInt8} {a : Nat} {s : ThreadState}
    (hfit : ∀ x ∈ slots a s, x.2 < 256 ^ x.1.width) (h : value memory ⟨a, 8⟩ = s.rax) :
    stored (setAll memory (slots a s)) a = s := by
  have hread := map_value_setAll (m := memory) (slots_apart a s) hfit
  have hrax : value (setAll memory (slots a s)) ⟨a, 8⟩ = s.rax := by
    refine (value_congr fun i hi => setAll_outside fun x hx hi' => ?_).trans h
    have hfar := le_of_mem_consecutive (slots_consecutive a s ▸ List.mem_map_of_mem hx)
    have hlt : i < a + 8 := hi.2
    have hle : x.1.address ≤ i := hi'.1
    omega
  generalize setAll memory (slots a s) = memory' at hread hrax
  simp only [slots, List.map_cons, List.map_nil, List.cons.injEq] at hread
  obtain ⟨h₁, h₂, h₃, h₄, h₅, h₆, h₇, h₈, h₉, h₁₀, h₁₁, h₁₂, h₁₃, h₁₄, h₁₅, h₁₆, h₁₇, h₁₈, h₁₉, -⟩ := hread
  simp only [stored, hrax, h₁, h₂, h₃, h₄, h₅, h₆, h₇, h₈, h₉, h₁₀, h₁₁, h₁₂, h₁₃, h₁₄, h₁₅, h₁₆, h₁₇, h₁₈, h₁₉]


/-! ### The context is stored -/

/-- Where the frame goes: `rip`, `cs`, `rflags`, `rsp` and `ss` are in these registers in between. -/
def framed (m₀ : Cpu σ) (rip : Qword) : Reg → Qword
  | .rax => rip
  | .rbx => m₀.cs.setWidth 64
  | .rcx => m₀.rflags
  | .rdx => m₀.reg .rsp
  | .rsi => m₀.ss.setWidth 64
  | r => m₀.reg r

def framedRegs : List Reg := [.rax, .rbx, .rcx, .rdx, .rsi]

theorem realcall_eq (h : Interrupted link m₀ rip m) :
    block link.env m (storeScratch link.sym ++ popFrame ++ storeRest link.sym) =
      { m with
        reg := popped framedRegs (framed m₀ rip) m.reg
        memory := setAll m.memory (slots link.sym.lastState (context m₀ rip)) } := by
  let m₁ := block link.env m (storeScratch link.sym)
  have hm₁ : m₁ = { m with memory := setAll m.memory ((slots link.sym.lastState (context m₀ rip)).take 4) } := by
    simp [m₁, storeScratch, slots, Op.effect, context, setAll, h.reg]
  have hframe₁ : OnStack m₁.memory (m₁.reg .rsp).toNat (framedRegs.map (framed m₀ rip) ++ []) := by
    rw [hm₁]
    refine h.frame.congr fun i hi => setAll_outside fun x hx hi' => ?_
    have hstack : i ∈ Set.Ico (m.reg .rsp).toNat m₀.aligned.toNat := ⟨hi.1, h.rsp ▸ hi.2⟩
    exact Set.disjoint_left.mp h.apart (slots_within (List.mem_of_mem_take hx) hi') hstack
  have hroom : (m₁.reg .rsp).toNat + 8 * framedRegs.length < 2 ^ 64 := by
    rw [hm₁]
    exact h.rsp ▸ m₀.aligned.isLt
  have hpop : block link.env m₁ popFrame = { m₁ with reg := popped framedRegs (framed m₀ rip) m₁.reg } :=
    Cpu.block_pop (by decide) hframe₁ hroom
  rw [block_append, block_append]
  change block link.env (block link.env m₁ popFrame) (storeRest link.sym) = _
  rw [hpop, hm₁]
  have hsegment : ∀ v : BitVec 16, v.toNat % 18446744073709551616 = v.toNat := fun v =>
    Nat.mod_eq_of_lt (v.isLt.trans (by decide))
  simp [storeRest, Op.effect, slots, setAll, popped, framedRegs, framed, context, h.reg, hsegment]


/-! ### A context is loaded -/

def frameSlots (a : Nat) : List (Reg × Nat) :=
  [(.rdi, a + 40), (.rbp, a + 48), (.rdx, a + 56), (.r8, a + 64), (.r9, a + 72), (.r10, a + 80),
    (.r11, a + 88), (.r12, a + 96), (.r13, a + 104), (.r14, a + 112), (.r15, a + 120), (.rcx, a + 128),
    (.rax, a + 136)]

def restSlots (a : Nat) : List (Reg × Nat) :=
  [(.rax, a), (.rbx, a + 8), (.rcx, a + 16), (.rdx, a + 24), (.rsi, a + 32)]

/-- The registers from which the frame is pushed. The segments are the low halves of `rsi` and `rbx`. -/
def frameReg (memory : Nat → UInt8) (a : Nat) (reg : Reg → Qword) : Reg → Qword :=
  let reg := loaded (frameSlots a) memory reg
  let reg := Function.update reg .rsi (Width.word.merge (reg .rsi) (value memory ⟨a + 144, 2⟩))
  Function.update reg .rbx (Width.word.merge (reg .rbx) (value memory ⟨a + 146, 2⟩))

theorem loadFrame_eq :
    block link.env m (loadFrame link.sym) =
      { m with reg := frameReg m.memory link.sym.lastState m.reg } := by
  have hloads : block link.env m (loads (frameSlots link.sym.lastState)) = _ :=
    block_loads (by simp [frameSlots])
  have hsplit : loadFrame link.sym = loads (frameSlots link.sym.lastState) ++
      [.load .word .rsi (absolute (link.sym.lastState + 144)),
        .load .word .rbx (absolute (link.sym.lastState + 146))] := rfl
  rw [hsplit, block_append, hloads]
  rfl

theorem loadRest_eq :
    block link.env m (loadRest link.sym) =
      { m with reg := loaded (restSlots link.sym.lastState) m.memory m.reg } := by
  have hnodup : ((restSlots link.sym.lastState).map Prod.fst).Nodup := by simp [restSlots]
  exact block_loads hnodup

/-- The low 16 bits of a register that a segment was loaded into. -/
theorem setWidth_merge_word (old : Qword) {v : Nat} (h : v < 2 ^ 16) :
    ((Width.word.merge old v).setWidth 16).toNat = v := by
  simp only [Width.merge, BitVec.toNat_setWidth, BitVec.toNat_ofNat]
  omega

/-- A word in memory -/
def word (memory : Nat → UInt8) (a : Nat) : Qword := BitVec.ofNat 64 (value memory ⟨a, 8⟩)

theorem toNat_word (memory : Nat → UInt8) (a : Nat) : (word memory a).toNat = value memory ⟨a, 8⟩ :=
  Nat.mod_eq_of_lt (value_lt memory ⟨a, 8⟩)

theorem frameReg_eq (memory : Nat → UInt8) (a : Nat) (reg : Reg → Qword) :
    frameReg memory a reg = fun
      | .rdi => word memory (a + 40)
      | .rbp => word memory (a + 48)
      | .rdx => word memory (a + 56)
      | .r8 => word memory (a + 64)
      | .r9 => word memory (a + 72)
      | .r10 => word memory (a + 80)
      | .r11 => word memory (a + 88)
      | .r12 => word memory (a + 96)
      | .r13 => word memory (a + 104)
      | .r14 => word memory (a + 112)
      | .r15 => word memory (a + 120)
      | .rcx => word memory (a + 128)
      | .rax => word memory (a + 136)
      | .rsi => Width.word.merge (reg .rsi) (value memory ⟨a + 144, 2⟩)
      | .rbx => Width.word.merge (reg .rbx) (value memory ⟨a + 146, 2⟩)
      | .rsp => reg .rsp := by
  funext r
  cases r <;> rfl

theorem loaded_restSlots (memory : Nat → UInt8) (a : Nat) (reg : Reg → Qword) :
    loaded (restSlots a) memory reg = fun
      | .rax => word memory a
      | .rbx => word memory (a + 8)
      | .rcx => word memory (a + 16)
      | .rdx => word memory (a + 24)
      | .rsi => word memory (a + 32)
      | r => reg r := by
  funext r
  cases r <;> rfl

/-- The context that is in memory, once its frame is in registers and the rest is loaded. -/
theorem stored_eq (memory : Nat → UInt8) (a : Nat) (reg : Reg → Qword) (m : Cpu σ) :
    context { m with
      reg := Function.update (loaded (restSlots a) memory (frameReg memory a reg)) .rsp
        (frameReg memory a reg .rdx)
      rflags := frameReg memory a reg .rcx
      cs := (frameReg memory a reg .rbx).setWidth 16
      ss := (frameReg memory a reg .rsi).setWidth 16 } (frameReg memory a reg .rax) = stored memory a := by
  have hss := setWidth_merge_word (reg .rsi) (value_lt memory ⟨a + 144, 2⟩)
  have hcs := setWidth_merge_word (reg .rbx) (value_lt memory ⟨a + 146, 2⟩)
  rw [loaded_restSlots, frameReg_eq]
  simp only [context, stored, Function.update, toNat_word, hss, hcs]
  simp [toNat_word]


/-- What is in the last state is the same where memory is. -/
theorem value_lastState {sym : Symbols} {memory memory' : Nat → UInt8}
    (h : ∀ i ∈ (lastStateField sym).cells, memory' i = memory i) {k w : Nat} (hk : k + w ≤ 148) :
    value memory' ⟨sym.lastState + k, w⟩ = value memory ⟨sym.lastState + k, w⟩ := by
  refine value_congr fun i hi => h i ⟨Nat.le_trans (Nat.le_add_right _ k) hi.1, ?_⟩
  have hlt : i < sym.lastState + k + w := hi.2
  change i < sym.lastState + 148
  omega

theorem loaded_restSlots_congr {sym : Symbols} {memory memory' : Nat → UInt8}
    (h : ∀ i ∈ (lastStateField sym).cells, memory' i = memory i) (reg : Reg → Qword) (rsp rsp' : Qword) :
    Function.update (loaded (restSlots sym.lastState) memory' (Function.update reg .rsp rsp')) .rsp rsp =
      Function.update (loaded (restSlots sym.lastState) memory reg) .rsp rsp := by
  have hword : ∀ k, k + 8 ≤ 148 → word memory' (sym.lastState + k) = word memory (sym.lastState + k) :=
    fun k hk => congrArg (BitVec.ofNat 64) (value_lastState h hk)
  have hfirst : word memory' sym.lastState = word memory sym.lastState := hword 0 (by decide)
  rw [loaded_restSlots, loaded_restSlots]
  simp only [hword, hfirst, Nat.reduceAdd, Nat.reduceLeDiff]
  funext r
  cases r <;> rfl

theorem runs_realswitch (hroom : 40 ≤ (m.reg .rsp).toNat)
    (hapart : Disjoint (lastStateField link.sym).cells
      (Set.Ico ((m.reg .rsp).toNat - 40) (m.reg .rsp).toNat)) :
    ∃ m' rip', Runs link.env (m, .before (realswitch link.sym)) (m', .returned rip') ∧
      context m' rip' = stored m.memory link.sym.lastState ∧ m'.foreign = m.foreign ∧ m'.ports = m.ports ∧
      ∀ i ∉ Set.Ico ((m.reg .rsp).toNat - 40) (m.reg .rsp).toNat, m'.memory i = m.memory i := by
  obtain ⟨m₁, hm₁⟩ : ∃ m₁, m₁ = block link.env m (loadFrame link.sym) := ⟨_, rfl⟩
  obtain ⟨m₂, hm₂⟩ : ∃ m₂, m₂ = block link.env m₁ pushFrame := ⟨_, rfl⟩
  obtain ⟨m₃, hm₃⟩ : ∃ m₃, m₃ = block link.env m₂ (loadRest link.sym) := ⟨_, rfl⟩
  have hrun : block link.env m (loadFrame link.sym ++ pushFrame ++ loadRest link.sym) = m₃ := by
    rw [block_append, block_append, ← hm₁, ← hm₂, ← hm₃]
  rw [loadFrame_eq] at hm₁
  have hreg₁ : m₁.reg = frameReg m.memory link.sym.lastState m.reg := by rw [hm₁]
  have hrsp₁ : m₁.reg .rsp = m.reg .rsp := by rw [hreg₁, frameReg_eq]
  have hpushed : m₁.Pushed m₂ (framedRegs.reverse.map m₁.reg) := by
    have hpush : block link.env m₁ (framedRegs.reverse.map .push) =
        m₁.pushes (framedRegs.reverse.map m₁.reg) := Cpu.block_push (by decide)
    rw [show m₂ = m₁.pushes (framedRegs.reverse.map m₁.reg) from hm₂.trans hpush]
    exact Cpu.pushes_pushed (hrsp₁ ▸ hroom)
  have hrsp₂ : (m₂.reg .rsp).toNat = (m.reg .rsp).toNat - 40 := by
    have h := hpushed.rsp
    rw [hrsp₁] at h
    exact Nat.eq_sub_of_add_eq h
  have hmemory : ∀ i ∉ Set.Ico ((m.reg .rsp).toNat - 40) (m.reg .rsp).toNat, m₂.memory i = m.memory i := by
    intro i hi
    have h := hpushed.memory i (by rwa [hrsp₂, hrsp₁])
    rw [h, hm₁]
  rw [loadRest_eq] at hm₃
  have hreg₃ : m₃.reg = loaded (restSlots link.sym.lastState) m₂.memory m₂.reg := by rw [hm₃]
  have hrsp₃ : m₃.reg .rsp = m₂.reg .rsp := by rw [hreg₃, loaded_restSlots]
  have hframe : OnStack m₃.memory (m₃.reg .rsp).toNat (framedRegs.map m₁.reg) := by
    have h := hpushed.stack
    rw [← List.map_reverse, List.reverse_reverse] at h
    rwa [hrsp₃, hm₃]
  have hleave := Cpu.leave_eq hframe (by rw [hrsp₃, hrsp₂]; have := (m.reg .rsp).isLt; omega)
  refine ⟨m₃.leave.1, m₃.leave.2, (runs_before _).trans ?_, ?_, ?_, ?_, ?_⟩
  · rw [hrun]
    exact runs_iret
  · have hsame : ∀ i ∈ (lastStateField link.sym).cells, m₂.memory i = m.memory i := fun i hi =>
      hmemory i (Set.disjoint_left.mp hapart hi)
    have hreg : Function.update m₃.reg .rsp (m₁.reg .rdx) =
        Function.update (loaded (restSlots link.sym.lastState) m.memory m₁.reg) .rsp (m₁.reg .rdx) := by
      rw [hreg₃, hpushed.reg]
      exact loaded_restSlots_congr hsame _ _ _
    rw [hleave, hreg, hreg₁]
    exact stored_eq m.memory link.sym.lastState m.reg m₃
  · rw [hleave, hm₃]
    exact hpushed.foreign.trans (by rw [hm₁])
  · rw [hleave, hm₃]
    exact hpushed.ports.trans (by rw [hm₁])
  · rw [hleave, hm₃]
    exact hmemory


/-! ### The way there -/

/-- The handlers that the clock's interrupt goes through are installed. -/
structure Wired (link : Link σ) (memory : Nat → UInt8) : Prop where
  gate : gate memory (kernelIdtMapping + 16 * 0x28) = ⟨(link.entry (.intHandler 8)).toNat, 0x10, 0x8e00⟩
  raw : value memory ⟨link.sym.irqHandlerRaw + (8 : Fin 16).val * 8, 8⟩ = (link.entry .rtcIRQ8).toNat
  handler : value memory ⟨link.sym.rtcHandler, 8⟩ = (link.entry .intSwitch).toNat

theorem Wired.congr {memory memory' : Nat → UInt8} (h : Wired link memory)
    (hsame : ∀ f ∈ link.sym.fields.drop 3, ∀ i ∈ f.cells, memory' i = memory i) :
    Wired link memory' := by
  simp only [Symbols.fields, List.drop_succ_cons, List.drop_zero, List.forall_mem_cons] at hsame
  obtain ⟨hraw, hhandler, hidt, -⟩ := hsame
  have hgate : ∀ k w, k + w ≤ 4096 →
      value memory' ⟨kernelIdtMapping + k, w⟩ = value memory ⟨kernelIdtMapping + k, w⟩ := by
    intro k w hkw
    refine value_congr fun i hi => hidt i ⟨Nat.le_trans (Nat.le_add_right _ _) hi.1, ?_⟩
    have hlt : i < kernelIdtMapping + k + w := hi.2
    change i < kernelIdtMapping + 4096
    omega
  refine ⟨?_, ?_, ?_⟩
  · have h₀ := hgate (16 * 0x28) 2 (by decide)
    have h₁ := hgate (16 * 0x28 + 6) 2 (by decide)
    have h₂ := hgate (16 * 0x28 + 8) 4 (by decide)
    have h₃ := hgate (16 * 0x28 + 2) 2 (by decide)
    have h₄ := hgate (16 * 0x28 + 4) 2 (by decide)
    simp only [← Nat.add_assoc] at h₁ h₂ h₃ h₄
    rw [← h.gate, Assembly.gate, Assembly.gate, h₀, h₁, h₂, h₃, h₄]
  · rw [← h.raw]
    refine value_congr fun i hi => hraw i ⟨Nat.le_trans (Nat.le_add_right _ _) hi.1, ?_⟩
    have hlt : i < link.sym.irqHandlerRaw + (8 : Fin 16).val * 8 + 8 := hi.2
    change i < link.sym.irqHandlerRaw + 128
    have hirq : (8 : Fin 16).val = 8 := rfl
    omega
  · rw [← h.handler]
    exact value_congr fun i hi => hhandler i hi

structure Installed (link : Link σ) (m : Cpu σ) : Prop where
  wired : Wired link m.memory
  stack : StackApart link.sym m

/-- What is sent on the way: both controllers and the clock may go on. -/
def onTheWay : List (Nat × UInt8) := [(pic2Command, 0x20), (pic1Command, 0x20), (0x70, 0x0c)]

theorem field_apart {a : Nat} {w : Nat} (h : Installed link m₀) {f : Field} (hf : f ∈ link.sym.fields)
    (hlow : f.address ≤ a) (hhigh : a + w ≤ f.address + f.width) :
    Disjoint (Field.cells ⟨a, w⟩) (stackArea m₀) := by
  refine (h.stack.apart f hf).mono_left ?_
  rintro i ⟨hle, hlt⟩
  exact ⟨Nat.le_trans hlow hle, Nat.lt_of_lt_of_le hlt hhigh⟩

theorem arrives (h : Installed link m₀) (rip : Qword) :
    ∃ s m, deliver link.env m₀ rip 0x28 = some s ∧
      Runs link.env s (m, .before (intSwitch link.sym)) ∧ Arrived m₀ rip m ∧
      m.ports = m₀.ports ++ onTheWay := by
  have hroom := h.stack.room
  have hentered := Cpu.enter_entered (m := m₀) rip 0x10 (by omega)
  obtain ⟨m₁, hm₁⟩ : ∃ m₁, m₁ = m₀.enter rip 0x10 := ⟨_, rfl⟩
  rw [← hm₁] at hentered
  have harrived₁ : Arrived m₀ rip m₁ := arrived_entered hentered
  have hroom₁ : 8 ≤ (m₁.reg .rsp).toNat := by
    have hrsp := harrived₁.rsp
    omega
  have hdeliver : deliver link.env m₀ rip 0x28 = some (m₁, .at (link.entry (.intHandler 8))) := by
    have hgate : gate m₀.memory (link.env.idt + 16 * 0x28) = _ := h.wired.gate
    have hinterrupt : Gate.Interrupt ⟨(link.entry (.intHandler 8)).toNat, 0x10, 0x8e00⟩ := rfl
    rw [deliver, hgate, if_pos hinterrupt, hm₁, BitVec.ofNat_toNat, BitVec.setWidth_eq]
  have hraw : value (m₁.push (m₁.reg .rax)).memory ⟨link.sym.irqHandlerRaw + (8 : Fin 16).val * 8, 8⟩ =
      (link.entry .rtcIRQ8).toNat := by
    refine (value_congr fun i hi => harrived₁.push_outside hroom _ ?_).trans h.wired.raw
    refine Set.disjoint_left.mp (field_apart h (f := ⟨link.sym.irqHandlerRaw, 128⟩) ?_ ?_ ?_) hi
    · simp [Symbols.fields]
    · exact Nat.le_add_right _ _
    · have hirq : (8 : Fin 16).val = 8 := rfl
      dsimp only
      omega
  obtain ⟨m₂, hrun₂, huntouched₂, hmemory₂, hports₂⟩ := runs_inth_raw hroom₁ hraw
  have harrived₂ := harrived₁.through hroom huntouched₂ hmemory₂
  have hhandler : value (m₂.push (m₂.reg .rax)).memory ⟨link.sym.rtcHandler, 8⟩ =
      (link.entry .intSwitch).toNat := by
    refine (value_congr fun i hi => harrived₂.push_outside hroom _ ?_).trans h.wired.handler
    refine Set.disjoint_left.mp (h.stack.apart ⟨link.sym.rtcHandler, 8⟩ ?_) hi
    simp [Symbols.fields]
  have hroom₂ : 8 ≤ (m₂.reg .rsp).toNat := by rwa [huntouched₂.reg]
  obtain ⟨m₃, hrun₃, huntouched₃, hmemory₃, hports₃⟩ := runs_rtcIRQ8 hroom₂ hhandler
  have hfetch : ∀ (m : Cpu σ) (l : Label), text link.sym l ≠ [] →
      Runs link.env (m, .at (link.entry l)) (m, .before (text link.sym l)) := fun m l hl =>
    runs_fetch (link.fetch_entry l hl)
  refine ⟨_, m₃, hdeliver, ?_, harrived₂.through hroom huntouched₃ hmemory₃, ?_⟩
  · have h₁ := (hfetch m₁ (.intHandler 8) (by simp [text, inth, inthTest, before])).trans hrun₂
    have h₂ := (hfetch m₂ .rtcIRQ8 (by simp [text, rtcIRQ8, rtcRead, before])).trans hrun₃
    exact (h₁.trans h₂).trans (hfetch m₃ .intSwitch (by simp [text, intSwitch, testTicker, before]))
  · rw [hports₃, hports₂, hentered.ports, List.append_assoc]
    rfl

/-! ### `__smp_IntSwitch` -/

/-- Memory is the same except for the stack and for the variables of the handler. -/
def SameElsewhere (sym : Symbols) (m₀ : Cpu σ) (memory : Nat → UInt8) : Prop :=
  ∀ i, i ∉ stackArea m₀ → i ∉ (lastStateField sym).cells → i ∉ Field.cells ⟨sym.now, 8⟩ →
    i ∉ Field.cells ⟨sym.pauseTicker, 1⟩ → memory i = m₀.memory i

def paused (sym : Symbols) (memory : Nat → UInt8) : Nat := value memory ⟨sym.pauseTicker, 1⟩

def ticks (sym : Symbols) (memory : Nat → UInt8) : Nat := value memory ⟨sym.now, 8⟩

/-- The processor in front of the call of `__smp_Switch`. -/
structure Calls (link : Link σ) (m₀ : Cpu σ) (rip : Qword) (m : Cpu σ) : Prop where
  stored : stored m.memory link.sym.lastState = context m₀ rip
  rsp : m.reg .rsp = m₀.aligned
  interrupts : m.interrupts = false
  foreign : m.foreign = m₀.foreign
  ports : m.ports = m₀.ports ++ onTheWay
  memory : SameElsewhere link.sym m₀ m.memory
  paused : paused link.sym m.memory = 0

theorem testTicker_eq (hpaused : value (set m.memory ⟨link.sym.lastState, 8⟩ (m.reg .rax).toNat)
      ⟨link.sym.pauseTicker, 1⟩ = paused link.sym m.memory) :
    ∃ m₁, block link.env m (testTicker link.sym) = m₁ ∧ m₁.zero = decide (paused link.sym m.memory = 0) ∧
      m₁.interrupts = false ∧ (∀ r, r ≠ .rax → m₁.reg r = m.reg r) ∧
      m₁.memory = set m.memory ⟨link.sym.lastState, 8⟩ (m.reg .rax).toNat ∧
      m₁.ports = m.ports ∧ m₁.foreign = m.foreign := by
  have hlow : paused link.sym m.memory % 256 = paused link.sym m.memory :=
    Nat.mod_eq_of_lt (value_lt m.memory ⟨link.sym.pauseTicker, 1⟩)
  have hclear : ∀ rflags : Qword, (rflags &&& ~~~0x200).getLsbD 9 = false := fun rflags => by simp
  simp only [testTicker, block_cons, block_nil, Op.effect, address_absolute, Width.bytes_qword, Width.bytes_byte,
    hpaused, Cpu.setReg, Function.update_self, BitVec.and_self, Width.low_merge_byte, hlow]
  refine ⟨_, rfl, Cpu.zero_setZero _ _ _, ?_, fun r hr => Function.update_of_ne hr _ _, rfl, rfl, rfl⟩
  rw [Cpu.interrupts_setZero]
  exact hclear m.rflags

theorem and_three_eq_zero (v : Qword) : v &&& 3#64 = 0 ↔ v.toNat % 4 = 0 := by
  have hmask : (v &&& 3#64).toNat = v.toNat % 4 := by
    rw [BitVec.toNat_and]
    exact Nat.and_two_pow_sub_one_eq_mod v.toNat 2
  rw [← hmask]
  exact ⟨fun h => by rw [h]; rfl, fun h => BitVec.eq_of_toNat_eq h⟩

theorem advance_eq (link : Link σ) (m : Cpu σ) :
    ∃ m₁, block link.env m (advance link.sym) = m₁ ∧
      m₁.zero = decide ((ticks link.sym m.memory + 1) % 4 = 0) ∧ m₁.interrupts = m.interrupts ∧
      (∀ r, r ≠ .rax → m₁.reg r = m.reg r) ∧
      m₁.memory = set m.memory ⟨link.sym.now, 8⟩ (ticks link.sym m.memory + 1) ∧
      m₁.ports = m.ports ∧ m₁.foreign = m.foreign := by
  have hnow := toNat_word m.memory link.sym.now
  have hsum : (word m.memory link.sym.now + 1).toNat = (ticks link.sym m.memory + 1) % 2 ^ 64 := by
    rw [BitVec.toNat_add, hnow]
    rfl
  simp only [advance, block_cons, block_nil, Op.effect, address_absolute, Width.bytes_qword, Cpu.setReg,
    Width.merge_qword, Function.update_self]
  refine ⟨_, rfl, (Cpu.zero_setZero _ _ _).trans (decide_eq_decide.mpr ?_), ?_, fun r hr => ?_, ?_, rfl, rfl⟩
  · simp only [Cpu.reg_setZero, Function.update_self]
    refine (and_three_eq_zero _).trans ?_
    change (word m.memory link.sym.now + 1).toNat % 4 = 0 ↔ _
    rw [hsum]
    omega
  · rw [Cpu.interrupts_setZero]
    exact Cpu.interrupts_setZero _ _ _
  · exact (Function.update_of_ne hr _ _).trans (Function.update_of_ne hr _ _)
  · simp only [Cpu.reg_setZero, Cpu.memory_setZero, Function.update_self]
    refine set_congr ?_
    change (word m.memory link.sym.now + 1).toNat % 2 ^ 64 = _
    rw [hsum, Nat.mod_mod]
    rfl

/-- The variables of the handler that are outside of the last state. -/
theorem variables_apart (link : Link σ) :
    Disjoint (lastStateField link.sym).cells (Field.cells ⟨link.sym.pauseTicker, 1⟩) ∧
      Disjoint (lastStateField link.sym).cells (Field.cells ⟨link.sym.now, 8⟩) ∧
      Disjoint (Field.cells ⟨link.sym.pauseTicker, 1⟩) (Field.cells ⟨link.sym.now, 8⟩) := by
  have h := link.apart
  simp only [Symbols.fields, List.pairwise_cons, List.forall_mem_cons] at h
  exact ⟨h.1.1, h.1.2.1, h.2.1.1⟩

theorem rax_within (sym : Symbols) : Field.cells ⟨sym.lastState, 8⟩ ⊆ (lastStateField sym).cells := by
  rintro i ⟨hle, hlt⟩
  refine ⟨hle, Nat.lt_of_lt_of_le hlt ?_⟩
  change sym.lastState + 8 ≤ sym.lastState + 148
  omega

theorem lastState_apart (h : Installed link m₀) : Disjoint (lastStateField link.sym).cells (stackArea m₀) :=
  h.stack.apart (lastStateField link.sym) (by simp [Symbols.fields, lastStateField])

/-- What is known of memory when a context is about to be stored. -/
structure Prepared (link : Link σ) (m₀ : Cpu σ) (memory : Nat → UInt8) : Prop where
  rax : value memory ⟨link.sym.lastState, 8⟩ = (m₀.reg .rax).toNat
  elsewhere : SameElsewhere link.sym m₀ memory
  paused : paused link.sym memory = 0

theorem calls_of_prepared (h : Installed link m₀) (ha : Arrived m₀ rip m)
    (hports : m.ports = m₀.ports ++ onTheWay) (hreg : ∀ r, r ≠ .rax → m'.reg r = m.reg r)
    (hprepared : Prepared link m₀ m'.memory) (hstack : ∀ i ∈ stackArea m₀, m'.memory i = m.memory i)
    (hinterrupts : m'.interrupts = false) (hforeign : m'.foreign = m.foreign) (hports' : m'.ports = m.ports) :
    ∃ m'', Runs link.env (m', .before (realcall link.sym))
        (m'', .before (.call .smp_Switch :: realswitch link.sym)) ∧
      Calls link m₀ rip m'' ∧ ticks link.sym m''.memory = ticks link.sym m'.memory := by
  have hrsp : m'.reg .rsp = m.reg .rsp := hreg .rsp (by decide)
  have harea : Set.Ico (m'.reg .rsp).toNat m₀.aligned.toNat ⊆ stackArea m₀ := by
    refine Set.Ico_subset_Ico_left ?_
    have hsum := ha.rsp
    rw [hrsp]
    omega
  have hinterrupted : Interrupted link m₀ rip m' := by
    refine ⟨fun r hr hs => (hreg r hr).trans (ha.reg r hs), hprepared.rax, hrsp ▸ ha.rsp, ?_, ?_, hinterrupts,
      hforeign.trans ha.foreign⟩
    · rw [hrsp]
      refine ha.frame.congr fun i hi => hstack i (harea ⟨hrsp ▸ hi.1, ?_⟩)
      have hlt := hi.2
      rwa [← ha.rsp]
    · exact (lastState_apart h).mono_right harea
  have hblock := realcall_eq hinterrupted
  obtain ⟨m'', hm''⟩ : ∃ m'', m'' = block link.env m'
      (storeScratch link.sym ++ popFrame ++ storeRest link.sym) := ⟨_, rfl⟩
  have hrun : Runs link.env (m', .before (realcall link.sym))
      (m'', .before (.call .smp_Switch :: realswitch link.sym)) := by
    rw [hm'']
    exact runs_before _
  rw [hblock] at hm''
  have hoff : ∀ i ∉ (lastStateField link.sym).cells, m''.memory i = m'.memory i := by
    intro i hi
    rw [hm'']
    exact setAll_outside fun x hx hi' => hi (slots_within hx hi')
  obtain ⟨hpause, hnow, -⟩ := variables_apart link
  refine ⟨m'', hrun, ?_, value_congr fun i hi => hoff i (Set.disjoint_right.mp hnow hi)⟩
  refine ⟨?_, ?_, ?_, ?_, ?_, fun i hi₁ hi₂ hi₃ hi₄ => ?_, ?_⟩
  · rw [hm'']
    exact stored_setAll (slots_fit _ _ _) hprepared.rax
  · have hpopped : m''.reg .rsp = m'.reg .rsp + 40 := by
      rw [hm'']
      rfl
    rw [hpopped, hrsp]
    apply BitVec.eq_of_toNat_eq
    have hsum := ha.rsp
    have hlt := m₀.aligned.isLt
    rw [BitVec.toNat_add]
    change ((m.reg .rsp).toNat + 40) % 2 ^ 64 = _
    rw [hsum, Nat.mod_eq_of_lt hlt]
  · rw [hm'']
    exact hinterrupts
  · rw [hm'']
    exact hforeign.trans ha.foreign
  · rw [hm'']
    exact hports'.trans hports
  · rw [hoff i hi₂]
    exact hprepared.elsewhere i hi₁ hi₂ hi₃ hi₄
  · refine (value_congr fun i hi => hoff i (Set.disjoint_right.mp hpause hi)).trans hprepared.paused

/-- Whether the interrupt is one that calls `__smp_Switch`. -/
def Switches (sym : Symbols) (m : Cpu σ) : Prop :=
  paused sym m.memory ≠ 0 ∨ (ticks sym m.memory + 1) % 4 = 0

/-- The clock after an interrupt. A yield does not count. -/
def nextTicks (sym : Symbols) (m : Cpu σ) : Nat :=
  if paused sym m.memory = 0 then (ticks sym m.memory + 1) % 2 ^ 64 else ticks sym m.memory

theorem Arrived.value_eq (h : Installed link m₀) (ha : Arrived m₀ rip m) {f : Field}
    (hf : f ∈ link.sym.fields) : value m.memory f = value m₀.memory f :=
  value_congr fun _ hi => ha.memory _ (Set.disjoint_left.mp (h.stack.apart f hf) hi)

theorem SameElsewhere.set {sym : Symbols} {memory : Nat → UInt8} (h : SameElsewhere sym m₀ memory) {f : Field}
    (hf : f = ⟨sym.lastState, 8⟩ ∨ f = ⟨sym.now, 8⟩ ∨ f = ⟨sym.pauseTicker, 1⟩) (v : Nat) :
    SameElsewhere sym m₀ (set memory f v) := by
  intro i hi₁ hi₂ hi₃ hi₄
  rw [set_outside, h i hi₁ hi₂ hi₃ hi₄]
  rcases hf with rfl | rfl | rfl
  · exact fun hi => hi₂ (rax_within sym hi)
  · exact hi₃
  · exact hi₄

/-- The processor after the ticker was tested. -/
structure Tested (link : Link σ) (m₀ m m₁ : Cpu σ) : Prop where
  zero : m₁.zero = decide (paused link.sym m₀.memory = 0)
  interrupts : m₁.interrupts = false
  reg : ∀ r, r ≠ .rax → m₁.reg r = m.reg r
  rax : value m₁.memory ⟨link.sym.lastState, 8⟩ = (m₀.reg .rax).toNat
  elsewhere : SameElsewhere link.sym m₀ m₁.memory
  stack : ∀ i ∈ stackArea m₀, m₁.memory i = m.memory i
  paused : paused link.sym m₁.memory = paused link.sym m₀.memory
  ticks : ticks link.sym m₁.memory = ticks link.sym m₀.memory
  ports : m₁.ports = m.ports
  foreign : m₁.foreign = m.foreign

theorem tested (h : Installed link m₀) (ha : Arrived m₀ rip m) :
    Tested link m₀ m (block link.env m (testTicker link.sym)) := by
  obtain ⟨hapartPause, hapartNow, -⟩ := variables_apart link
  have hpause : paused link.sym m.memory = paused link.sym m₀.memory :=
    ha.value_eq h (by simp [Symbols.fields])
  have hticks : ticks link.sym m.memory = ticks link.sym m₀.memory :=
    ha.value_eq h (by simp [Symbols.fields])
  have hrax := rax_within link.sym
  obtain ⟨m₁, hblock, hzero, hinterrupts, hreg, hmemory, hports, hforeign⟩ :=
    testTicker_eq (value_set_apart (hapartPause.mono_left hrax))
  rw [hblock]
  refine ⟨hpause ▸ hzero, hinterrupts, hreg, ?_, ?_, fun i hi => ?_, ?_, ?_, hports, hforeign⟩
  · rw [hmemory, value_set, ha.reg .rax (by decide)]
    exact Nat.mod_eq_of_lt (m₀.reg .rax).isLt
  · have hsame : SameElsewhere link.sym m₀ m.memory := fun i hi _ _ _ => ha.memory i hi
    rw [hmemory]
    exact hsame.set (.inl rfl) _
  · rw [hmemory]
    exact set_outside fun hi' => Set.disjoint_left.mp (lastState_apart h) (hrax hi') hi
  · rw [hmemory]
    exact (value_set_apart (hapartPause.mono_left hrax)).trans hpause
  · rw [hmemory]
    exact (value_set_apart (hapartNow.mono_left hrax)).trans hticks

/-- The processor after the clock was advanced. -/
structure Advanced (link : Link σ) (m₀ m m₂ : Cpu σ) : Prop where
  zero : m₂.zero = decide ((ticks link.sym m₀.memory + 1) % 4 = 0)
  interrupts : m₂.interrupts = false
  reg : ∀ r, r ≠ .rax → m₂.reg r = m.reg r
  prepared : Prepared link m₀ m₂.memory
  stack : ∀ i ∈ stackArea m₀, m₂.memory i = m.memory i
  ticks : ticks link.sym m₂.memory = (ticks link.sym m₀.memory + 1) % 2 ^ 64
  ports : m₂.ports = m.ports
  foreign : m₂.foreign = m.foreign

theorem Tested.advanced {m₁ : Cpu σ} (h : Installed link m₀) (ht : Tested link m₀ m m₁)
    (hpaused : IntSwitch.paused link.sym m₀.memory = 0) :
    Advanced link m₀ m (block link.env m₁ (advance link.sym)) := by
  obtain ⟨-, hapartNow, hapart⟩ := variables_apart link
  obtain ⟨m₂, hblock, hzero, hinterrupts, hreg, hmemory, hports, hforeign⟩ := advance_eq link m₁
  rw [ht.ticks] at hzero hmemory
  rw [hblock]
  refine ⟨hzero, hinterrupts.trans ht.interrupts, fun r hr => (hreg r hr).trans (ht.reg r hr), ⟨?_, ?_, ?_⟩,
    fun i hi => ?_, ?_, hports.trans ht.ports, hforeign.trans ht.foreign⟩
  · rw [hmemory, value_set_apart (hapartNow.mono_left (rax_within link.sym)).symm]
    exact ht.rax
  · rw [hmemory]
    exact ht.elsewhere.set (.inr (.inl rfl)) _
  · rw [hmemory]
    exact (value_set_apart hapart.symm).trans (ht.paused.trans hpaused)
  · rw [hmemory]
    have hnow := h.stack.apart ⟨link.sym.now, 8⟩ (by simp [Symbols.fields])
    exact (set_outside fun hi' => Set.disjoint_left.mp hnow hi' hi).trans (ht.stack i hi)
  · rw [hmemory]
    exact value_set _ _ _

/-- An interrupt that calls the scheduler does so with the context it came from. -/
theorem interrupt_calls (h : Installed link m₀) (hswitches : Switches link.sym m₀) (rip : Qword) :
    ∃ s m, deliver link.env m₀ rip 0x28 = some s ∧
      Runs link.env s (m, .before (.call .smp_Switch :: realswitch link.sym)) ∧
      Calls link m₀ rip m ∧ ticks link.sym m.memory = nextTicks link.sym m₀ := by
  obtain ⟨s, m, hdeliver, hrun, ha, hports⟩ := arrives h rip
  have ht := tested h ha
  obtain ⟨m₁, hm₁⟩ : ∃ m₁, m₁ = block link.env m (testTicker link.sym) := ⟨_, rfl⟩
  have hrun₁ := hrun.trans (runs_before _)
  rw [← hm₁] at ht hrun₁
  have hjump := hrun₁.trans runs_jnz
  rw [ht.zero] at hjump
  obtain ⟨hapartPause, hapartNow, hapart⟩ := variables_apart link
  by_cases hpaused : paused link.sym m₀.memory = 0
  · rw [if_pos (decide_eq_true hpaused)] at hjump
    have hadvanced := ht.advanced h hpaused
    obtain ⟨m₂, hm₂⟩ : ∃ m₂, m₂ = block link.env m₁ (advance link.sym) := ⟨_, rfl⟩
    have hrun₂ := hjump.trans (runs_before _)
    rw [← hm₂] at hadvanced hrun₂
    have hjump₂ := hrun₂.trans runs_jz
    have hzero := hswitches.resolve_left (not_not.mpr hpaused)
    rw [hadvanced.zero, if_pos (decide_eq_true hzero)] at hjump₂
    obtain ⟨m₃, hrun₃, hcalls, hticks⟩ := calls_of_prepared h ha hports hadvanced.reg hadvanced.prepared
      hadvanced.stack hadvanced.interrupts hadvanced.foreign hadvanced.ports
    refine ⟨s, m₃, hdeliver, hjump₂.trans hrun₃, hcalls, ?_⟩
    rw [hticks, hadvanced.ticks, nextTicks, if_pos hpaused]
  · rw [if_neg (by simpa using hpaused)] at hjump
    obtain ⟨m₂, hm₂⟩ : ∃ m₂, m₂ = block link.env m₁ [.storeImm .byte (absolute link.sym.pauseTicker) 0] := ⟨_, rfl⟩
    have hrun₂ := hjump.trans (runs_before _)
    rw [← hm₂] at hrun₂
    have hmemory : m₂.memory = set m₁.memory ⟨link.sym.pauseTicker, 1⟩ 0 := by
      rw [hm₂]
      rfl
    have hprepared : Prepared link m₀ m₂.memory := by
      refine ⟨?_, ?_, ?_⟩
      · rw [hmemory, value_set_apart (hapartPause.mono_left (rax_within link.sym)).symm]
        exact ht.rax
      · rw [hmemory]
        exact ht.elsewhere.set (.inr (.inr rfl)) _
      · rw [hmemory]
        exact value_set _ _ _
    have hstack : ∀ i ∈ stackArea m₀, m₂.memory i = m.memory i := by
      intro i hi
      have hpause := h.stack.apart ⟨link.sym.pauseTicker, 1⟩ (by simp [Symbols.fields])
      rw [hmemory]
      exact (set_outside fun hi' => Set.disjoint_left.mp hpause hi' hi).trans (ht.stack i hi)
    have hreg : ∀ r, r ≠ .rax → m₂.reg r = m.reg r := by
      rw [hm₂]
      exact ht.reg
    obtain ⟨m₃, hrun₃, hcalls, hticks⟩ := calls_of_prepared h ha hports hreg hprepared hstack
      (by rw [hm₂]; exact ht.interrupts) (by rw [hm₂]; exact ht.foreign) (by rw [hm₂]; exact ht.ports)
    refine ⟨s, m₃, hdeliver, hrun₂.trans hrun₃, hcalls, ?_⟩
    rw [hticks, hmemory, nextTicks, if_neg hpaused]
    exact (value_set_apart hapart).trans ht.ticks

/-- An interrupt that does not call the scheduler resumes the context it came from. -/
theorem interrupt_returns (h : Installed link m₀) (hreturns : ¬ Switches link.sym m₀) (rip : Qword) :
    ∃ s m, deliver link.env m₀ rip 0x28 = some s ∧ Runs link.env s (m, .returned rip) ∧
      context m rip = context m₀ rip ∧ m.foreign = m₀.foreign ∧ m.ports = m₀.ports ++ onTheWay ∧
      SameElsewhere link.sym m₀ m.memory ∧ paused link.sym m.memory = 0 ∧
      ticks link.sym m.memory = nextTicks link.sym m₀ := by
  obtain ⟨hpaused, hticks⟩ := not_or.mp hreturns
  have hpaused := not_not.mp hpaused
  obtain ⟨s, m, hdeliver, hrun, ha, hports⟩ := arrives h rip
  have ht := tested h ha
  obtain ⟨m₁, hm₁⟩ : ∃ m₁, m₁ = block link.env m (testTicker link.sym) := ⟨_, rfl⟩
  have hrun₁ := hrun.trans (runs_before _)
  rw [← hm₁] at ht hrun₁
  have hjump := hrun₁.trans runs_jnz
  rw [ht.zero, if_pos (decide_eq_true hpaused)] at hjump
  have hadvanced := ht.advanced h hpaused
  obtain ⟨m₂, hm₂⟩ : ∃ m₂, m₂ = block link.env m₁ (advance link.sym) := ⟨_, rfl⟩
  have hrun₂ := hjump.trans (runs_before _)
  rw [← hm₂] at hadvanced hrun₂
  have hjump₂ := hrun₂.trans runs_jz
  rw [hadvanced.zero, if_neg (by simpa using hticks)] at hjump₂
  obtain ⟨m₃, hm₃⟩ : ∃ m₃, m₃ = block link.env m₂ [.load .qword .rax (absolute link.sym.lastState)] := ⟨_, rfl⟩
  have hrun₃ := hjump₂.trans (runs_before _)
  rw [← hm₃] at hrun₃
  have hload : m₃ = { m₂ with reg := Function.update m₂.reg .rax (m₀.reg .rax) } := by
    have hrax : BitVec.ofNat 64 (value m₂.memory ⟨link.sym.lastState, 8⟩) = m₀.reg .rax := by
      rw [hadvanced.prepared.rax, BitVec.ofNat_toNat, BitVec.setWidth_eq]
    simp only [hm₃, block_cons, block_nil, Op.effect, address_absolute, Width.bytes_qword, Width.merge_qword, hrax,
      Cpu.setReg]
  have hreg₃ : m₃.reg = Function.update m₂.reg .rax (m₀.reg .rax) := by rw [hload]
  have hrsp : m₃.reg .rsp = m.reg .rsp := by
    rw [hload]
    exact hadvanced.reg .rsp (by decide)
  have hreg : Function.update m₃.reg .rsp (m₀.reg .rsp) = m₀.reg := by
    funext r
    by_cases hs : r = .rsp
    · rw [hs, Function.update_self]
    · by_cases hr : r = .rax
      · rw [Function.update_of_ne hs, hreg₃, hr, Function.update_self]
      · rw [Function.update_of_ne hs, hreg₃, Function.update_of_ne hr, hadvanced.reg r hr, ha.reg r hs]
  have hframe : OnStack m₃.memory (m₃.reg .rsp).toNat
      [rip, m₀.cs.setWidth 64, m₀.rflags, m₀.reg .rsp, m₀.ss.setWidth 64] := by
    have hroom := h.stack.room
    have hsum := ha.rsp
    have hmemory : m₃.memory = m₂.memory := by rw [hload]
    rw [hrsp, hmemory]
    refine ha.frame.congr fun i hi => hadvanced.stack i ⟨?_, ?_⟩
    · have hle := hi.1
      omega
    · have hlt := hi.2
      rwa [← hsum]
  have hroom : (m₃.reg .rsp).toNat + 40 ≤ 2 ^ 64 := by
    rw [hrsp, ha.rsp]
    exact m₀.aligned.isLt.le
  have hleave := Cpu.leave_eq hframe hroom
  have hiret := hrun₃.trans runs_iret
  rw [hleave, hreg] at hiret
  refine ⟨s, _, hdeliver, hiret, ?_, ?_, ?_, ?_, ?_, ?_⟩
  · simp [context]
  · rw [hload]
    exact hadvanced.foreign.trans ha.foreign
  · rw [hload]
    exact hadvanced.ports.trans hports
  · rw [hload]
    exact hadvanced.prepared.elsewhere
  · rw [hload]
    exact hadvanced.prepared.paused
  · rw [hload]
    exact hadvanced.ticks.trans (if_pos hpaused).symm

/-- When `__smp_Switch` returns, the context that is then in `__smp_IntSwitch_LastState` is resumed. -/
theorem switch_resumes {m₁ m₂ : Cpu σ} (h : Installed link m₀) (hcalls : Calls link m₀ rip m₁)
    (hcall : link.foreign .smp_Switch m₁ = some m₂) (hrsp : m₂.reg .rsp = m₁.reg .rsp) :
    ∃ m rip', Runs link.env (m₁, .before (.call .smp_Switch :: realswitch link.sym)) (m, .returned rip') ∧
      context m rip' = IntSwitch.stored m₂.memory link.sym.lastState ∧ m.foreign = m₂.foreign ∧
      m.ports = m₂.ports ∧ ∀ i ∉ stackArea m₀, m.memory i = m₂.memory i := by
  have hroom := h.stack.room
  have haligned : m₂.reg .rsp = m₀.aligned := hrsp.trans hcalls.rsp
  have harea : Set.Ico ((m₂.reg .rsp).toNat - 40) (m₂.reg .rsp).toNat ⊆ stackArea m₀ := by
    rw [haligned]
    exact Set.Ico_subset_Ico_left (by omega)
  obtain ⟨m, rip', hrun, hcontext, hforeign, hports, hmemory⟩ :=
    runs_realswitch (by rw [haligned]; omega) ((lastState_apart h).mono_right harea)
  exact ⟨m, rip', (runs_call hcall).trans hrun, hcontext, hforeign, hports,
    fun i hi => hmemory i fun hin => hi (harea hin)⟩

/-- **The clock's interrupt.** One that only counts returns to the context it came from. Any other calls
`__smp_Switch` with that context in `__smp_IntSwitch_LastState`, and returns to the context that is there
after the call, with the memory that the call left but for the interrupted stack. -/
theorem clock_interrupt (h : Installed link m₀) (rip : Qword) :
    ∃ s, deliver link.env m₀ rip 0x28 = some s ∧
      (¬ Switches link.sym m₀ → ∃ m, Runs link.env s (m, .returned rip) ∧
        context m rip = context m₀ rip ∧ SameElsewhere link.sym m₀ m.memory ∧
        ticks link.sym m.memory = (ticks link.sym m₀.memory + 1) % 2 ^ 64) ∧
      (Switches link.sym m₀ → ∃ m₁,
        Runs link.env s (m₁, .before (.call .smp_Switch :: realswitch link.sym)) ∧
        IntSwitch.stored m₁.memory link.sym.lastState = context m₀ rip ∧ SameElsewhere link.sym m₀ m₁.memory ∧
        ∀ m₂, link.foreign .smp_Switch m₁ = some m₂ → m₂.reg .rsp = m₁.reg .rsp →
          ∃ m rip', Runs link.env s (m, .returned rip') ∧
            context m rip' = IntSwitch.stored m₂.memory link.sym.lastState ∧
            ∀ i ∉ stackArea m₀, m.memory i = m₂.memory i) := by
  by_cases hswitches : Switches link.sym m₀
  · obtain ⟨s, m₁, hdeliver, hrun, hcalls, -⟩ := interrupt_calls h hswitches rip
    refine ⟨s, hdeliver, absurd hswitches, fun _ => ⟨m₁, hrun, hcalls.stored, hcalls.memory, ?_⟩⟩
    intro m₂ hcall hrsp
    obtain ⟨m, rip', hresume, hcontext, -, -, hmemory⟩ := switch_resumes h hcalls hcall hrsp
    exact ⟨m, rip', hrun.trans hresume, hcontext, hmemory⟩
  · obtain ⟨s, m, hdeliver, hrun, hcontext, -, -, hmemory, -, hticks⟩ := interrupt_returns h hswitches rip
    have hpaused := not_not.mp (not_or.mp hswitches).1
    exact ⟨s, hdeliver, fun _ => ⟨m, hrun, hcontext, hmemory, hticks.trans (if_pos hpaused)⟩,
      fun hcalls => absurd hcalls hswitches⟩

theorem blank_wired (now : Nat) (call : Label → Cpu σ → Option (Cpu σ)) :
    Wired (blankLink call) (blankMemory now) := by
  have htables : Wired (blankLink call) blankTables := by
    refine ⟨?_, ?_, ?_⟩
    · change gate blankTables (kernelIdtMapping + 16 * 0x28) = ⟨0x108, 0x10, 0x8e00⟩
      decide
    · change value blankTables ⟨0x3040, 8⟩ = 0x310
      decide
    · change value blankTables ⟨0x2020, 8⟩ = 0x330
      decide
  refine htables.congr fun f hf i hi => set_outside fun hi' => ?_
  have hapart := (blankLink call).apart
  rw [Symbols.fields, List.pairwise_cons, List.pairwise_cons, List.pairwise_cons] at hapart
  exact Set.disjoint_left.mp (hapart.2.2.1 f hf) hi' hi

theorem blank_installed : Installed (blankLink blankCall) (blankCpu 3 ()) :=
  ⟨blank_wired 3 blankCall, blankCpu_stackApart 3 ()⟩

theorem blank_switches : Switches blankSymbols (blankCpu 3 ()) := by
  right
  change (Fields.value (blankMemory 3) ⟨0x2010, 8⟩ + 1) % 4 = 0
  decide

/-- The fourth tick. -/
theorem clock_interrupt_blank :
    ∃ s m rip', deliver (blankLink blankCall).env (blankCpu 3 ()) 0x5000 0x28 = some s ∧
      Runs (blankLink blankCall).env s (m, .returned rip') ∧ context m rip' = context (blankCpu 3 ()) 0x5000 := by
  obtain ⟨s, hdeliver, -, hswitch⟩ := clock_interrupt blank_installed 0x5000
  obtain ⟨m₁, -, hstored, -, hreturn⟩ := hswitch blank_switches
  obtain ⟨m, rip', hrun, hcontext, -⟩ := hreturn _ rfl (Cpu.setReg_of_ne (by decide) 0)
  exact ⟨s, m, rip', hdeliver, hrun, hcontext.trans hstored⟩

end Helos.IntSwitch
