import Helos.Smp.Thread
import Helos.Theory.Assembly
import Mathlib.Order.Interval.Set.Disjoint

/-!
# The way of a timer interrupt

What runs between the interrupt of the real-time clock and `__smp_Switch`, and back: the entry for the
interrupt controller of `int_handler.asm.S`, the handler of the clock of `rtc/handler.S`, and
`__smp_IntSwitch` of `kthread_switch_asm.S`. `smp_thread_Yield` takes the same way with `int 0x28`.
-/

namespace Helos

open Assembly

namespace IntSwitch

/-- The places that are jumped to or called. -/
inductive Label where
  | intHandler (irq : Fin 16)
  | noraw (irq : Fin 16)
  | irq_pic_IntHandler
  | rtcIRQ8
  | rtcEnd
  | intSwitch
  | noticker
  | realcall
  | smp_Switch
  | switchIdle
  | yield
deriving DecidableEq

def kernelIdtMapping : Nat := 0xFFFFFFFEC0000000

/-- Where the linker put the variables. -/
structure Symbols where
  lastState : Nat
  pauseTicker : Nat
  now : Nat
  irqHandlerRaw : Nat
  rtcHandler : Nat

namespace Symbols

def fields (sym : Symbols) : List Fields.Field :=
  [⟨sym.lastState, 148⟩, ⟨sym.pauseTicker, 1⟩, ⟨sym.now, 8⟩, ⟨sym.irqHandlerRaw, 128⟩,
    ⟨sym.rtcHandler, 8⟩, ⟨kernelIdtMapping, 4096⟩]

end Symbols

/-! ### The text -/

section Text

variable (sym : Symbols)

def absolute (a : Nat) : Address := ⟨none, a⟩

def pic1Command : Nat := 0x20

def pic2Command : Nat := 0xA0

def picCmdEoi : Nat := 0x20

/-- Operations, and the lines after them. -/
def before (os : List Op) (lines : List (Line Label)) : List (Line Label) := os.map Line.op ++ lines

/-- The second half of the macro `inth`, for a line without a raw handler. -/
def noraw (op1 : Fin 16) : List (Line Label) :=
  before
    [ .push .rdi,
      .movImm .qword .rdi op1,
      .push .rsi,
      .push .rdx,
      .push .rcx,
      .push .r8,
      .push .r9,
      .push .r10,
      .push .r11 ] <|
  .call .irq_pic_IntHandler ::
  before
    [ .pop .r11,
      .pop .r10,
      .pop .r9,
      .pop .r8,
      .pop .rcx,
      .pop .rdx,
      .pop .rsi,
      .pop .rdi,
      .pop .rax ]
  [.iret]

/-- The end of interrupt goes to the second controller as well for its lines. -/
def acknowledged (op1 : Fin 16) : List Nat := if op1 ≥ 8 then [pic2Command, pic1Command] else [pic1Command]

def inthTest (op1 : Fin 16) : List Op :=
  [ .push .rax,
    .load .qword .rax (absolute (sym.irqHandlerRaw + op1 * 8)),
    .test .qword .rax .rax ]

def inthEnd (op1 : Fin 16) : List Op :=
  [.movImm .byte .rax picCmdEoi] ++ (acknowledged op1).map .out

/-- The macro `inth` -/
def inth (op1 : Fin 16) : List (Line Label) :=
  before (inthTest sym op1) <|
  .jz (.noraw op1) ::
  before (inthEnd op1 ++ [.pop .rax])
  (.jmpMem (absolute (sym.irqHandlerRaw + op1 * 8)) :: noraw op1)

def rtcRead : List Op :=
  [ .push .rax,
    .movImm .byte .rax 0x0c,
    .out 0x70,
    .input 0x71,
    .load .qword .rax (absolute sym.rtcHandler),
    .test .qword .rax .rax ]

def rtcIRQ8 : List (Line Label) :=
  before (rtcRead sym ++ [.pop .rax])
  [.jz .rtcEnd, .jmpMem (absolute sym.rtcHandler), .iret]

/-- The interrupt frame of the context that is resumed. -/
def loadFrame : List Op :=
  [ .load .qword .rdi (absolute (sym.lastState + 40)),
    .load .qword .rbp (absolute (sym.lastState + 48)),
    .load .qword .rdx (absolute (sym.lastState + 56)),
    .load .qword .r8 (absolute (sym.lastState + 64)),
    .load .qword .r9 (absolute (sym.lastState + 72)),
    .load .qword .r10 (absolute (sym.lastState + 80)),
    .load .qword .r11 (absolute (sym.lastState + 88)),
    .load .qword .r12 (absolute (sym.lastState + 96)),
    .load .qword .r13 (absolute (sym.lastState + 104)),
    .load .qword .r14 (absolute (sym.lastState + 112)),
    .load .qword .r15 (absolute (sym.lastState + 120)),
    .load .qword .rcx (absolute (sym.lastState + 128)),
    .load .qword .rax (absolute (sym.lastState + 136)),
    .load .word .rsi (absolute (sym.lastState + 144)),
    .load .word .rbx (absolute (sym.lastState + 146)) ]

def pushFrame : List Op := [.push .rsi, .push .rdx, .push .rcx, .push .rbx, .push .rax]

def loadRest : List Op :=
  [ .load .qword .rax (absolute sym.lastState),
    .load .qword .rbx (absolute (sym.lastState + 8)),
    .load .qword .rcx (absolute (sym.lastState + 16)),
    .load .qword .rdx (absolute (sym.lastState + 24)),
    .load .qword .rsi (absolute (sym.lastState + 32)) ]

def realswitch : List (Line Label) := before (loadFrame sym ++ pushFrame ++ loadRest sym) [.iret]

def storeScratch : List Op :=
  [ .store .qword (absolute (sym.lastState + 8)) .rbx,
    .store .qword (absolute (sym.lastState + 16)) .rcx,
    .store .qword (absolute (sym.lastState + 24)) .rdx,
    .store .qword (absolute (sym.lastState + 32)) .rsi ]

def popFrame : List Op := [.pop .rax, .pop .rbx, .pop .rcx, .pop .rdx, .pop .rsi]

def storeRest : List Op :=
  [ .store .qword (absolute (sym.lastState + 40)) .rdi,
    .store .qword (absolute (sym.lastState + 48)) .rbp,
    .store .qword (absolute (sym.lastState + 56)) .rdx,
    .store .qword (absolute (sym.lastState + 64)) .r8,
    .store .qword (absolute (sym.lastState + 72)) .r9,
    .store .qword (absolute (sym.lastState + 80)) .r10,
    .store .qword (absolute (sym.lastState + 88)) .r11,
    .store .qword (absolute (sym.lastState + 96)) .r12,
    .store .qword (absolute (sym.lastState + 104)) .r13,
    .store .qword (absolute (sym.lastState + 112)) .r14,
    .store .qword (absolute (sym.lastState + 120)) .r15,
    .store .qword (absolute (sym.lastState + 128)) .rcx,
    .store .qword (absolute (sym.lastState + 136)) .rax,
    .store .word (absolute (sym.lastState + 144)) .rsi,
    .store .word (absolute (sym.lastState + 146)) .rbx ]

def realcall : List (Line Label) :=
  before (storeScratch sym ++ popFrame ++ storeRest sym) (.call .smp_Switch :: realswitch sym)

def noticker : List (Line Label) := before [.storeImm .byte (absolute sym.pauseTicker) 0] (realcall sym)

def testTicker : List Op :=
  [ .cli,
    .store .qword (absolute sym.lastState) .rax,
    .load .byte .rax (absolute sym.pauseTicker),
    .test .byte .rax .rax ]

def advance : List Op :=
  [ .load .qword .rax (absolute sym.now),
    .inc .rax,
    .store .qword (absolute sym.now) .rax,
    .testImm .rax 3 ]

def intSwitch : List (Line Label) :=
  before (testTicker sym) <|
  .jnz .noticker ::
  before (advance sym) (
  .jz .realcall ::
  before [.load .qword .rax (absolute sym.lastState)] (
  .iret ::
  noticker sym))

def yield : List (Line Label) := before [.storeImm .byte (absolute sym.pauseTicker) 1] [.int 0x28, .ret]

/-- The lines from a label on. The labels of functions in C have none. -/
def text : Label → List (Line Label)
  | .intHandler irq => inth sym irq
  | .noraw irq => noraw irq
  | .rtcIRQ8 => rtcIRQ8 sym
  | .rtcEnd => [.iret]
  | .intSwitch => intSwitch sym
  | .noticker => noticker sym
  | .realcall => realcall sym
  | .yield => yield sym
  | .switchIdle | .irq_pic_IntHandler | .smp_Switch => []

end Text

/-- A linked kernel. The variables are apart, and the text is where its labels are. -/
structure Link (σ : Type) where
  sym : Symbols
  apart : sym.fields.Pairwise fun f g => Disjoint f.cells g.cells
  entry : Label → Qword
  fetch : Qword → Option (List (Line Label))
  entry_ne : ∀ l, entry l ≠ 0
  fetch_entry : ∀ l, text sym l ≠ [] → fetch (entry l) = some (text sym l)
  addressOf : List (Line Label) → Qword
  foreign : Label → Cpu σ → Option (Cpu σ)
  status : Cpu σ → Qword
  input : Cpu σ → Nat → UInt8

def Link.env {σ : Type} (link : Link σ) : Env Label σ where
  find := text link.sym
  fetch := link.fetch
  addressOf := link.addressOf
  foreign := link.foreign
  status := link.status
  input := link.input
  idt := kernelIdtMapping

/-! ### Up to the handler -/

section Handlers

variable {σ : Type} {link : Link σ} {m m' : Cpu σ} {irq : Fin 16}

/-- The bytes that end an interrupt. -/
def endOfInterrupt (irq : Fin 16) : List (Nat × UInt8) := (acknowledged irq).map fun port => (port, 0x20)

variable {l : Label} {lines : List (Line Label)} {m₀ : Cpu σ} {rip : Qword}

/-- What a handler leaves of the registers and of the state around it. -/
structure Untouched (m m' : Cpu σ) : Prop where
  reg : m'.reg = m.reg
  ss : m'.ss = m.ss
  cs : m'.cs = m.cs
  interrupts : m'.interrupts = m.interrupts
  foreign : m'.foreign = m.foreign

@[simp] theorem address_absolute (m : Cpu σ) (a : Nat) : m.address (absolute a) = a := rfl

theorem runs_before (os : List Op) : Runs link.env (m, .before (before os lines)) (block link.env m os, .before lines) :=
  runs_block os

theorem Untouched.trans {m'' : Cpu σ} (h : Untouched m m') (h' : Untouched m' m'') : Untouched m m'' :=
  ⟨h'.reg.trans h.reg, h'.ss.trans h.ss, h'.cs.trans h.cs, h'.interrupts.trans h.interrupts,
    h'.foreign.trans h.foreign⟩

theorem toNat_entry_ne (link : Link σ) (l : Label) : (link.entry l).toNat ≠ 0 := fun hzero =>
  link.entry_ne l (BitVec.eq_of_toNat_eq hzero)

/-- `rax` is popped again, whatever else became of the other processor. -/
theorem pop_rax (hroom : 8 ≤ (m.reg .rsp).toNat) (hmemory : m'.memory = (m.push (m.reg .rax)).memory)
    (hreg : ∀ r, r ≠ .rax → m'.reg r = (m.push (m.reg .rax)).reg r) :
    Op.effect link.env m' (.pop .rax) = { m' with reg := m.reg } := by
  have hrsp : m'.reg .rsp = m.reg .rsp - 8 := (hreg .rsp (by decide)).trans (Cpu.push_rsp m _)
  have hstack : OnStack m'.memory (m'.reg .rsp).toNat ([Reg.rax].map m.reg ++ []) := by
    rw [hmemory, hrsp]
    exact Cpu.onStack_push trivial hroom
  have hlow : (m'.reg .rsp).toNat + 8 * [Reg.rax].length < 2 ^ 64 := by
    have hlt := (m.reg .rsp).isLt
    rw [hrsp, toNat_sub_eight hroom, List.length_singleton]
    omega
  have hpop : block link.env m' ([Reg.rax].map .pop) = _ := Cpu.block_pop (by decide) hstack hlow
  refine hpop.trans ?_
  have hrestored : popped [Reg.rax] m.reg m'.reg = m.reg := by
    refine popped_eq (by decide) (fun r hr hs => ?_) ?_
    · exact (hreg r (by simpa using hr)).trans (Function.update_of_ne hs _ _)
    · rw [hrsp]
      exact BitVec.sub_add_cancel _ _
  rw [hrestored]

theorem inthTest_eq {v : Qword} (hraw : Fields.value (m.push (m.reg .rax)).memory
      ⟨link.sym.irqHandlerRaw + irq * 8, 8⟩ = v.toNat) :
    block link.env m (inthTest link.sym irq) = ((m.push (m.reg .rax)).setReg .rax v).setZero
      (link.status ((m.push (m.reg .rax)).setReg .rax v)) (decide (v.toNat = 0)) := by
  simp only [inthTest, block_cons, block_nil, Op.effect, address_absolute, Width.bytes_qword, hraw,
    Width.merge_qword, BitVec.ofNat_toNat, BitVec.setWidth_eq, Width.low_qword, BitVec.and_self, Cpu.setReg,
    Function.update_self, Link.env]

/-- A line with a raw handler ends the interrupt and jumps there. -/
theorem runs_inth_raw {l : Label} (hroom : 8 ≤ (m.reg .rsp).toNat)
    (hraw : Fields.value (m.push (m.reg .rax)).memory ⟨link.sym.irqHandlerRaw + irq * 8, 8⟩ =
      (link.entry l).toNat) :
    ∃ m', Runs link.env (m, .before (inth link.sym irq)) (m', .at (link.entry l)) ∧ Untouched m m' ∧
      m'.memory = (m.push (m.reg .rax)).memory ∧ m'.ports = m.ports ++ endOfInterrupt irq := by
  let m₁ := block link.env m (inthTest link.sym irq)
  have hm₁ : m₁ = _ := inthTest_eq hraw
  have hzero : m₁.zero = false := by
    rw [hm₁, Cpu.zero_setZero]
    exact decide_eq_false (toNat_entry_ne link l)
  let m₂ := block link.env m₁ (inthEnd irq)
  have hm₂ : m₂ = { m₁ with
      reg := Function.update m₁.reg .rax (Width.byte.merge (m₁.reg .rax) picCmdEoi)
      ports := m₁.ports ++ endOfInterrupt irq } := by
    simp [m₂, inthEnd, block_out, Op.effect, Cpu.setReg, endOfInterrupt, picCmdEoi]
  have hmemory₂ : m₂.memory = (m.push (m.reg .rax)).memory := by
    rw [hm₂, hm₁]
    rfl
  have hpop : Op.effect link.env m₂ (.pop .rax) = { m₂ with reg := m.reg } := by
    refine pop_rax hroom hmemory₂ fun r hr => ?_
    rw [hm₂, hm₁]
    simp [Cpu.setZero, Cpu.setReg, hr]
  have hinterrupts₂ : m₂.interrupts = m.interrupts := by
    rw [hm₂]
    exact hm₁ ▸ Cpu.interrupts_setZero _ _ _
  have hblock : block link.env m₁ (inthEnd irq ++ [.pop .rax]) = { m₂ with reg := m.reg } := by
    rw [block_append, block_cons, block_nil, hpop]
  refine ⟨{ m₂ with reg := m.reg }, ?_, ⟨rfl, ?_, ?_, hinterrupts₂, ?_⟩, hmemory₂, ?_⟩
  · have hjump : Runs link.env (m₁, .before (.jz (.noraw irq) :: before (inthEnd irq ++ [.pop .rax])
        (.jmpMem (absolute (link.sym.irqHandlerRaw + irq * 8)) :: noraw irq))) _ := runs_jz
    rw [hzero, if_neg Bool.false_ne_true] at hjump
    refine ((runs_before _).trans hjump).trans ((runs_before _).trans ?_)
    rw [hblock]
    exact runs_jmpMem (by rw [hmemory₂]; exact hraw)
  all_goals simp [hm₂, hm₁, Cpu.setReg, Cpu.setZero, Cpu.push]

/-- `al` is 0x0c when it is sent, and what is received is lost. -/
theorem rtcRead_eq (hhandler : Fields.value (m.push (m.reg .rax)).memory ⟨link.sym.rtcHandler, 8⟩ =
      (link.entry l).toNat) :
    ∃ status, block link.env m (rtcRead link.sym) =
      ({ (m.push (m.reg .rax)).setReg .rax (link.entry l) with ports := m.ports ++ [(0x70, 0x0c)] }).setZero
        status (decide ((link.entry l).toNat = 0)) := by
  refine ⟨link.status { (m.push (m.reg .rax)).setReg .rax (link.entry l) with
    ports := m.ports ++ [(0x70, 0x0c)] }, ?_⟩
  simp only [rtcRead, block_cons, block_nil, Op.effect, address_absolute, Width.bytes_qword,
    Width.merge_qword, BitVec.ofNat_toNat, BitVec.setWidth_eq, Width.low_qword, BitVec.and_self, Cpu.setReg,
    Function.update_self, Function.update_idem, Width.ofNat_merge_byte, hhandler, Link.env]
  rfl

/-- The clock is told to go on, and the handler is jumped to. -/
theorem runs_rtcIRQ8 (hroom : 8 ≤ (m.reg .rsp).toNat)
    (hhandler : Fields.value (m.push (m.reg .rax)).memory ⟨link.sym.rtcHandler, 8⟩ = (link.entry l).toNat) :
    ∃ m', Runs link.env (m, .before (rtcIRQ8 link.sym)) (m', .at (link.entry l)) ∧ Untouched m m' ∧
      m'.memory = (m.push (m.reg .rax)).memory ∧ m'.ports = m.ports ++ [(0x70, 0x0c)] := by
  obtain ⟨status, hblock⟩ := rtcRead_eq hhandler
  generalize hm₁ : block link.env m (rtcRead link.sym) = m₁ at hblock
  have hmemory₁ : m₁.memory = (m.push (m.reg .rax)).memory := by
    rw [hblock]
    rfl
  have hpop : Op.effect link.env m₁ (.pop .rax) = { m₁ with reg := m.reg } := by
    refine pop_rax hroom hmemory₁ fun r hr => ?_
    rw [hblock]
    simp [Cpu.setZero, Cpu.setReg, hr]
  have hzero : ({ m₁ with reg := m.reg } : Cpu σ).zero = false := by
    have h : m₁.zero = false := by
      rw [hblock, Cpu.zero_setZero]
      exact decide_eq_false (toNat_entry_ne link l)
    exact h
  have hinterrupts : ({ m₁ with reg := m.reg } : Cpu σ).interrupts = m.interrupts := by
    have h : m₁.interrupts = m.interrupts := by
      rw [hblock, Cpu.interrupts_setZero]
      rfl
    exact h
  refine ⟨{ m₁ with reg := m.reg }, ?_, ⟨rfl, ?_, ?_, hinterrupts, ?_⟩, hmemory₁, ?_⟩
  · have hjump : Runs link.env ({ m₁ with reg := m.reg }, .before [.jz .rtcEnd,
        .jmpMem (absolute link.sym.rtcHandler), .iret]) _ := runs_jz
    rw [hzero, if_neg Bool.false_ne_true] at hjump
    refine (runs_before _).trans ?_
    rw [block_append, hm₁, block_cons, block_nil, hpop]
    exact hjump.trans (runs_jmpMem (by rw [address_absolute, hmemory₁, hhandler]))
  all_goals
    rw [hblock]
    rfl

/-! ### Interrupted contexts -/

/-- The registers as `smp_thread_State` has them. -/
def context (m : Cpu σ) (rip : Qword) : ThreadState where
  rax := (m.reg .rax).toNat
  rbx := (m.reg .rbx).toNat
  rcx := (m.reg .rcx).toNat
  rdx := (m.reg .rdx).toNat
  rsi := (m.reg .rsi).toNat
  rdi := (m.reg .rdi).toNat
  rbp := (m.reg .rbp).toNat
  rsp := (m.reg .rsp).toNat
  r8 := (m.reg .r8).toNat
  r9 := (m.reg .r9).toNat
  r10 := (m.reg .r10).toNat
  r11 := (m.reg .r11).toNat
  r12 := (m.reg .r12).toNat
  r13 := (m.reg .r13).toNat
  r14 := (m.reg .r14).toNat
  r15 := (m.reg .r15).toNat
  rflags := m.rflags.toNat
  rip := rip.toNat
  ss := m.ss.toNat
  cs := m.cs.toNat

/-- The part of the stack that is used by the handlers of interrupts. -/
def stackArea (m : Cpu σ) : Set Nat := Set.Ico (m.aligned.toNat - 128) m.aligned.toNat

/-- The stack has room for the handlers and is apart from the variables. -/
structure StackApart (sym : Symbols) (m : Cpu σ) : Prop where
  room : 128 ≤ m.aligned.toNat
  apart : ∀ f ∈ sym.fields, Disjoint f.cells (stackArea m)

/-- The processor on the way to a handler: the interrupted context is in the registers and on the stack. -/
structure Arrived (m₀ : Cpu σ) (rip : Qword) (m : Cpu σ) : Prop where
  reg : ∀ r, r ≠ .rsp → m.reg r = m₀.reg r
  rsp : (m.reg .rsp).toNat + 40 = m₀.aligned.toNat
  frame : OnStack m.memory (m.reg .rsp).toNat
    [rip, m₀.cs.setWidth 64, m₀.rflags, m₀.reg .rsp, m₀.ss.setWidth 64]
  memory : ∀ i ∉ stackArea m₀, m.memory i = m₀.memory i
  interrupts : m.interrupts = false
  foreign : m.foreign = m₀.foreign

theorem interrupts_entry (rflags : Qword) : (rflags &&& ~~~entryFlags).getLsbD 9 = false := by
  simp [entryFlags]

theorem Arrived.push_outside (h : Arrived m₀ rip m) (hroom : 128 ≤ m₀.aligned.toNat) (v : Qword) {i : Nat}
    (hi : i ∉ stackArea m₀) : (m.push v).memory i = m₀.memory i := by
  have hrsp := h.rsp
  have hout : i ∉ Set.Ico ((m.reg .rsp).toNat - 8) (m.reg .rsp).toNat := fun hin =>
    hi ⟨by have := hin.1; omega, by have := hin.2; omega⟩
  rw [Cpu.push_memory_outside (by omega) hout]
  exact h.memory i hi

/-- Through a handler that keeps the registers and uses one word of the stack. -/
theorem Arrived.through (h : Arrived m₀ rip m) (hroom : 128 ≤ m₀.aligned.toNat) (huntouched : Untouched m m')
    (hmemory : m'.memory = (m.push (m.reg .rax)).memory) : Arrived m₀ rip m' where
  reg r hr := huntouched.reg ▸ h.reg r hr
  rsp := huntouched.reg ▸ h.rsp
  frame := by
    have hrsp := h.rsp
    rw [huntouched.reg, hmemory]
    refine h.frame.congr fun i hi => Cpu.push_memory_outside (by omega) fun hin => ?_
    exact absurd hin.2 (Nat.not_lt.mpr hi.1)
  memory i hi := by
    rw [hmemory]
    exact h.push_outside hroom _ hi
  interrupts := huntouched.interrupts.trans h.interrupts
  foreign := huntouched.foreign.trans h.foreign

theorem arrived_entered (h : m₀.Entered m rip 0x10) : Arrived m₀ rip m where
  reg r hr := by
    rw [h.reg, Function.update_of_ne hr]
  rsp := h.rsp
  frame := h.frame
  memory i hi := h.memory i fun hin => hi ⟨by have := h.rsp; have := hin.1; omega, hin.2⟩
  interrupts := by
    rw [Cpu.interrupts, h.rflags]
    exact interrupts_entry _
  foreign := h.foreign

/-! ### Device interrupts -/

/-- The line has an entry in the interrupt table and no raw handler. -/
structure Connected (link : Link σ) (irq : Fin 16) (m : Cpu σ) : Prop where
  gate : gate m.memory (kernelIdtMapping + 16 * (0x20 + irq)) =
    ⟨(link.entry (.intHandler irq)).toNat, 0x10, 0x8e00⟩
  raw : Fields.value m.memory ⟨link.sym.irqHandlerRaw + irq * 8, 8⟩ = 0
  stack : StackApart link.sym m

def calleeSaved : List Reg := [.rbx, .rbp, .rsp, .r12, .r13, .r14, .r15]

/-- The registers in the order in which they are popped after the call. -/
def callerSaved : List Reg := [.r11, .r10, .r9, .r8, .rcx, .rdx, .rsi, .rdi, .rax]

/-- A function in C returns: it leaves the stack of its caller up to `top` and the registers that it has
to preserve. -/
structure ReturnsTo (top : Nat) (m m' : Cpu σ) : Prop where
  reg : ∀ r ∈ calleeSaved, m'.reg r = m.reg r
  stack : ∀ i ∈ Set.Ico (m.reg .rsp).toNat top, m'.memory i = m.memory i

/-- The processor in front of the call of `irq_pic_IntHandler`. -/
structure CallsHandler (irq : Fin 16) (m₀ : Cpu σ) (rip : Qword) (m : Cpu σ) : Prop where
  irq : m.reg .rdi = BitVec.ofNat 64 irq
  kept : ∀ r ∉ callerSaved, r ≠ .rsp → m.reg r = m₀.reg r
  rsp : (m.reg .rsp).toNat + 112 = m₀.aligned.toNat
  stack : OnStack m.memory (m.reg .rsp).toNat (callerSaved.map m₀.reg ++
    [rip, m₀.cs.setWidth 64, m₀.rflags, m₀.reg .rsp, m₀.ss.setWidth 64])
  memory : ∀ i ∉ stackArea m₀, m.memory i = m₀.memory i
  interrupts : m.interrupts = false
  foreign : m.foreign = m₀.foreign
  ports : m.ports = m₀.ports

/-- The registers that are pushed after `rdi` was loaded. -/
def pushedLast : List Reg := [.rsi, .rdx, .rcx, .r8, .r9, .r10, .r11]

def afterHandler : List (Line Label) := before (callerSaved.map .pop) [.iret]

/-- The handler has these words on the stack, on top of the frame. -/
structure Stacked (m₀ : Cpu σ) (rip : Qword) (vs : List Qword) (m : Cpu σ) : Prop where
  rsp : (m.reg .rsp).toNat + 40 + 8 * vs.length = m₀.aligned.toNat
  stack : OnStack m.memory (m.reg .rsp).toNat
    (vs ++ [rip, m₀.cs.setWidth 64, m₀.rflags, m₀.reg .rsp, m₀.ss.setWidth 64])
  memory : ∀ i ∉ stackArea m₀, m.memory i = m₀.memory i
  interrupts : m.interrupts = false
  foreign : m.foreign = m₀.foreign
  ports : m.ports = m₀.ports

theorem Stacked.congr {vs : List Qword} (h : Stacked m₀ rip vs m) (hrsp : m'.reg .rsp = m.reg .rsp)
    (hmemory : m'.memory = m.memory) (hinterrupts : m'.interrupts = m.interrupts)
    (hforeign : m'.foreign = m.foreign) (hports : m'.ports = m.ports) : Stacked m₀ rip vs m' := by
  refine ⟨?_, ?_, ?_, hinterrupts.trans h.interrupts, hforeign.trans h.foreign, hports.trans h.ports⟩
  · rw [hrsp]
    exact h.rsp
  · rw [hrsp, hmemory]
    exact h.stack
  · rw [hmemory]
    exact h.memory

theorem Stacked.push {vs : List Qword} (h : Stacked m₀ rip vs m) (hroom : 128 ≤ m₀.aligned.toNat)
    (hlength : vs.length < 11) (v : Qword) : Stacked m₀ rip (v :: vs) (m.push v) := by
  have hsum := h.rsp
  have hlow : 8 ≤ (m.reg .rsp).toNat := by omega
  refine ⟨?_, ?_, fun i hi => ?_, h.interrupts, h.foreign, h.ports⟩
  · rw [Cpu.push_rsp, toNat_sub_eight hlow, List.length_cons]
    omega
  · rw [Cpu.push_rsp]
    exact Cpu.onStack_push h.stack hlow
  · have hout : i ∉ Set.Ico ((m.reg .rsp).toNat - 8) (m.reg .rsp).toNat := fun hin =>
      hi ⟨by have := hin.1; omega, by have := hin.2; omega⟩
    rw [Cpu.push_memory_outside hlow hout]
    exact h.memory i hi

theorem Stacked.pushes {ws vs : List Qword} (h : Stacked m₀ rip vs m) (hroom : 128 ≤ m₀.aligned.toNat)
    (hlength : vs.length + ws.length ≤ 11) : Stacked m₀ rip (ws.reverse ++ vs) (m.pushes ws) := by
  induction ws generalizing m vs with
  | nil => exact h
  | cons w ws ih =>
    rw [List.length_cons] at hlength
    have hpush := h.push hroom (by omega) w
    have hrest := ih hpush (by rw [List.length_cons]; omega)
    rwa [List.reverse_cons, List.append_assoc, List.singleton_append]

theorem device_calls (h : Connected link irq m₀) (rip : Qword) :
    ∃ s m, deliver link.env m₀ rip (0x20 + irq) = some s ∧
      Runs link.env s (m, .before (.call .irq_pic_IntHandler :: afterHandler)) ∧ CallsHandler irq m₀ rip m := by
  have hroom := h.stack.room
  have hentered := Cpu.enter_entered (m := m₀) rip 0x10 (by omega)
  obtain ⟨m₁, hm₁⟩ : ∃ m₁, m₁ = m₀.enter rip 0x10 := ⟨_, rfl⟩
  rw [← hm₁] at hentered
  have harrived := arrived_entered hentered
  have hdeliver : deliver link.env m₀ rip (0x20 + irq) = some (m₁, .at (link.entry (.intHandler irq))) := by
    have hgate : gate m₀.memory (link.env.idt + 16 * (0x20 + irq)) = _ := h.gate
    have hinterrupt : Gate.Interrupt ⟨(link.entry (.intHandler irq)).toNat, 0x10, 0x8e00⟩ := rfl
    rw [deliver, hgate, if_pos hinterrupt, hm₁, BitVec.ofNat_toNat, BitVec.setWidth_eq]
  have hfetch : Runs link.env (m₁, .at (link.entry (.intHandler irq))) (m₁, .before (inth link.sym irq)) :=
    runs_fetch (link.fetch_entry _ (by simp [text, inth, inthTest, before]))
  have hraw : Fields.value (m₁.push (m₁.reg .rax)).memory ⟨link.sym.irqHandlerRaw + irq * 8, 8⟩ =
      (0 : Qword).toNat := by
    refine (Fields.value_congr fun i hi => harrived.push_outside hroom _ ?_).trans h.raw
    have hapart := h.stack.apart ⟨link.sym.irqHandlerRaw, 128⟩ (by simp [Symbols.fields])
    refine Set.disjoint_left.mp hapart ⟨Nat.le_trans (Nat.le_add_right _ _) hi.1, ?_⟩
    have hlt := hi.2
    have hirq := irq.isLt
    dsimp only at hlt ⊢
    omega
  have hstacked₁ : Stacked m₀ rip [] m₁ :=
    ⟨harrived.rsp, harrived.frame, harrived.memory, harrived.interrupts, harrived.foreign, hentered.ports⟩
  obtain ⟨m₂, hm₂⟩ : ∃ m₂, m₂ = block link.env m₁ (inthTest link.sym irq) := ⟨_, rfl⟩
  have hrun₂ := hfetch.trans (runs_before _)
  rw [← hm₂] at hrun₂
  rw [inthTest_eq hraw] at hm₂
  have hreg₂ : ∀ r, r ≠ .rax → m₂.reg r = (m₁.push (m₁.reg .rax)).reg r := fun r hr => by
    rw [hm₂]
    exact Function.update_of_ne hr _ _
  have hstacked₂ : Stacked m₀ rip [m₀.reg .rax] m₂ := by
    have hpush := hstacked₁.push hroom (by decide) (m₁.reg .rax)
    rw [harrived.reg .rax (by decide)] at hpush
    refine hpush.congr (hreg₂ .rsp (by decide)) ?_ ?_ ?_ ?_
    · rw [hm₂, harrived.reg .rax (by decide)]
      rfl
    · rw [hm₂, Cpu.interrupts_setZero]
      rfl
    all_goals
      rw [hm₂]
      rfl
  have hjump := hrun₂.trans runs_jz
  have hzero : m₂.zero = true := by
    rw [hm₂, Cpu.zero_setZero]
    rfl
  rw [hzero, if_pos rfl] at hjump
  obtain ⟨m₃, hm₃⟩ : ∃ m₃, m₃ = block link.env m₂ [.push .rdi, .movImm .qword .rdi irq] := ⟨_, rfl⟩
  have hm₃' : m₃ = (m₂.push (m₂.reg .rdi)).setReg .rdi (BitVec.ofNat 64 irq) := hm₃
  have hkept : ∀ r, r ≠ .rax → r ≠ .rsp → m₂.reg r = m₀.reg r := fun r hr hs =>
    (hreg₂ r hr).trans ((Cpu.push_reg_of_ne hs _).trans (harrived.reg r hs))
  have hstacked₃ : Stacked m₀ rip [m₀.reg .rdi, m₀.reg .rax] m₃ := by
    have hpush := hstacked₂.push hroom (by simp) (m₂.reg .rdi)
    rw [hkept .rdi (by decide) (by decide)] at hpush
    have hrsp : m₃.reg .rsp = (m₂.push (m₀.reg .rdi)).reg .rsp := by
      rw [hm₃', hkept .rdi (by decide) (by decide), Cpu.setReg_of_ne (by decide)]
    refine hpush.congr hrsp ?_ ?_ ?_ ?_
    all_goals
      rw [hm₃', hkept .rdi (by decide) (by decide)]
      rfl
  have hreg₃ : ∀ r, r ≠ .rax → r ≠ .rdi → r ≠ .rsp → m₃.reg r = m₀.reg r := fun r hr hd hs => by
    rw [hm₃', Cpu.setReg_of_ne hd, Cpu.push_reg_of_ne hs, hkept r hr hs]
  have hpushed : block link.env m₃ (pushedLast.map .push) = _ :=
    Cpu.block_push (by decide)
  obtain ⟨m₄, hm₄⟩ : ∃ m₄, m₄ = block link.env m₃ (pushedLast.map .push) :=
    ⟨_, rfl⟩
  have hrun₄ : Runs link.env (m₁, .at (link.entry (.intHandler irq)))
      (m₄, .before (.call .irq_pic_IntHandler :: afterHandler)) := by
    have hblock : Runs link.env (m₂, .before (noraw irq)) (block link.env m₂
        ([.push .rdi, .movImm .qword .rdi irq] ++ pushedLast.map .push),
        .before (.call .irq_pic_IntHandler :: afterHandler)) := runs_block _
    rw [block_append, ← hm₃, ← hm₄] at hblock
    exact hjump.trans hblock
  have hstacked₄ : Stacked m₀ rip (callerSaved.map m₀.reg) m₄ := by
    have hpushes : Stacked m₀ rip _ (m₃.pushes (pushedLast.map m₃.reg)) :=
      hstacked₃.pushes hroom (by simp [pushedLast])
    rw [← hpushed, ← hm₄] at hpushes
    simpa [callerSaved, pushedLast, hreg₃] using hpushes
  have hpushed₄ : m₃.Pushed (m₃.pushes (pushedLast.map m₃.reg)) (pushedLast.map m₃.reg) := by
    refine Cpu.pushes_pushed ?_
    have hsum := hstacked₃.rsp
    simp only [pushedLast, List.length_map, List.length_cons, List.length_nil] at hsum ⊢
    omega
  rw [← hpushed, ← hm₄] at hpushed₄
  refine ⟨_, m₄, hdeliver, hrun₄, ?_, fun r hr hs => ?_, ?_, hstacked₄.stack, hstacked₄.memory,
    hstacked₄.interrupts, hstacked₄.foreign, hstacked₄.ports⟩
  · rw [hpushed₄.reg, hm₃']
    rfl
  · rw [hpushed₄.reg, Function.update_of_ne hs]
    exact hreg₃ r (by rintro rfl; exact hr (by decide)) (by rintro rfl; exact hr (by decide)) hs
  · have hsum := hstacked₄.rsp
    rw [List.length_map] at hsum
    exact (Nat.add_assoc _ 40 72).symm.trans hsum

/-- The context that was interrupted goes on after the function in C has returned. -/
theorem device_returns {m₁ m₂ : Cpu σ} (h : CallsHandler irq m₀ rip m₁)
    (hcall : link.foreign .irq_pic_IntHandler m₁ = some m₂) (hreturns : ReturnsTo m₀.aligned.toNat m₁ m₂) :
    ∃ m, Runs link.env (m₁, .before (.call .irq_pic_IntHandler :: afterHandler)) (m, .returned rip) ∧
      context m rip = context m₀ rip ∧ m.memory = m₂.memory ∧ m.foreign = m₂.foreign ∧ m.ports = m₂.ports := by
  have hrsp : m₂.reg .rsp = m₁.reg .rsp := hreturns.reg .rsp (by decide)
  have hsum := h.rsp
  have hlt := m₀.aligned.isLt
  have hlength : callerSaved.length = 9 := rfl
  have hstack : OnStack m₂.memory (m₂.reg .rsp).toNat (callerSaved.map m₀.reg ++
      [rip, m₀.cs.setWidth 64, m₀.rflags, m₀.reg .rsp, m₀.ss.setWidth 64]) := by
    rw [hrsp]
    refine h.stack.congr fun i hi => hreturns.stack i ⟨hi.1, ?_⟩
    have hlt := hi.2
    rwa [← hsum]
  have hroom : (m₂.reg .rsp).toNat + 8 * callerSaved.length < 2 ^ 64 := by
    rw [hrsp, hlength]
    omega
  obtain ⟨m₃, hm₃⟩ : ∃ m₃, m₃ = block link.env m₂ (callerSaved.map .pop) := ⟨_, rfl⟩
  have hrun : Runs link.env (m₁, .before (.call .irq_pic_IntHandler :: afterHandler)) (m₃, .before [.iret]) := by
    rw [hm₃]
    exact (runs_call hcall).trans (runs_before _)
  rw [Cpu.block_pop (by decide) hstack hroom] at hm₃
  have hreg : m₃.reg = popped callerSaved m₀.reg m₂.reg := by rw [hm₃]
  have hrsp₃ : (m₃.reg .rsp).toNat = (m₁.reg .rsp).toNat + 72 := by
    have hstep : m₃.reg .rsp = m₁.reg .rsp + 72 := by
      rw [hreg, ← hrsp]
      rfl
    rw [hstep, BitVec.toNat_add]
    change ((m₁.reg .rsp).toNat + 72) % 2 ^ 64 = _
    omega
  have hframe : OnStack m₃.memory (m₃.reg .rsp).toNat
      [rip, m₀.cs.setWidth 64, m₀.rflags, m₀.reg .rsp, m₀.ss.setWidth 64] := by
    have hbehind := (onStack_append.mp hstack).2
    rw [List.length_map, hlength, hrsp] at hbehind
    rw [hrsp₃, hm₃]
    exact hbehind
  have hrestored : Function.update m₃.reg .rsp (m₀.reg .rsp) = m₀.reg := by
    funext r
    by_cases hs : r = .rsp
    · rw [hs, Function.update_self]
    · rw [Function.update_of_ne hs, hreg]
      by_cases hr : r ∈ callerSaved
      · exact if_pos hr
      · have hsaved : r ∈ calleeSaved := by
          cases r <;> first | decide | exact absurd (by decide) hr
        refine (if_neg hr).trans ((if_neg hs).trans ?_)
        rw [hreturns.reg r hsaved, h.kept r hr hs]
  have hiret := hrun.trans runs_iret
  rw [Cpu.leave_eq hframe (by omega), hrestored] at hiret
  refine ⟨_, hiret, ?_, ?_, ?_, ?_⟩
  · simp [context]
  all_goals rw [hm₃]

/-- **A device's interrupt** calls `irq_pic_IntHandler` with its line and, whatever that function does with
the registers that it may use, returns to the context it came from. -/
theorem device_interrupt (h : Connected link irq m₀) (rip : Qword) :
    ∃ s m₁, deliver link.env m₀ rip (0x20 + irq) = some s ∧
      Runs link.env s (m₁, .before (.call .irq_pic_IntHandler :: afterHandler)) ∧
      CallsHandler irq m₀ rip m₁ ∧
      ∀ m₂, link.foreign .irq_pic_IntHandler m₁ = some m₂ → ReturnsTo m₀.aligned.toNat m₁ m₂ →
        ∃ m, Runs link.env s (m, .returned rip) ∧ context m rip = context m₀ rip ∧
          m.memory = m₂.memory ∧ m.foreign = m₂.foreign ∧ m.ports = m₂.ports := by
  obtain ⟨s, m₁, hdeliver, hrun, hcalls⟩ := device_calls h rip
  refine ⟨s, m₁, hdeliver, hrun, hcalls, fun m₂ hcall hreturns => ?_⟩
  obtain ⟨m, hresume, hcontext, hrest⟩ := device_returns hcalls hcall hreturns
  exact ⟨m, hrun.trans hresume, hcontext, hrest⟩

/-! ### A link to run -/

def blankSymbols : Symbols := ⟨0x1000, 0x2000, 0x2010, 0x3000, 0x2020⟩

def blankEntry : Label → Qword
  | .intHandler irq => BitVec.ofNat 64 (0x100 + irq)
  | .noraw irq => BitVec.ofNat 64 (0x200 + irq)
  | .irq_pic_IntHandler => 0x300
  | .rtcIRQ8 => 0x310
  | .rtcEnd => 0x320
  | .intSwitch => 0x330
  | .noticker => 0x340
  | .realcall => 0x350
  | .smp_Switch => 0x360
  | .switchIdle => 0x370
  | .yield => 0x380

def labels : List Label :=
  (List.finRange 16).map .intHandler ++ (List.finRange 16).map .noraw ++
    [.irq_pic_IntHandler, .rtcIRQ8, .rtcEnd, .intSwitch, .noticker, .realcall, .smp_Switch, .switchIdle, .yield]

def blankFetch (rip : Qword) : Option (List (Line Label)) :=
  (labels.find? fun l => blankEntry l = rip).map (text blankSymbols)

theorem find_blankEntry (l : Label) : labels.find? (fun l' => blankEntry l' = blankEntry l) = some l := by
  cases l with
  | intHandler irq =>
    revert irq
    decide
  | noraw irq =>
    revert irq
    decide
  | _ => decide

def blankLink (call : Label → Cpu σ → Option (Cpu σ)) : Link σ where
  sym := blankSymbols
  apart := by
    simp only [Symbols.fields, blankSymbols, kernelIdtMapping, List.pairwise_cons, List.forall_mem_cons]
    simp only [Fields.Field.cells, Set.Ico_disjoint_Ico]
    decide
  entry := blankEntry
  fetch := blankFetch
  entry_ne l := by
    cases l with
    | intHandler irq =>
      revert irq
      decide
    | noraw irq =>
      revert irq
      decide
    | _ => decide
  fetch_entry l _ := by rw [blankFetch, find_blankEntry, Option.map_some]
  addressOf lines := if lines.length = 1 then 0x402 else 0x400
  foreign := call
  status _ := 0
  input _ _ := 0

/-- The second line has its entry, and the clock's line its handlers. -/
def blankTables : Nat → UInt8 :=
  Fields.setAll (fun _ => 0)
    [(⟨kernelIdtMapping + 16 * 0x21, 2⟩, 0x101), (⟨kernelIdtMapping + 16 * 0x21 + 2, 2⟩, 0x10),
      (⟨kernelIdtMapping + 16 * 0x21 + 4, 2⟩, 0x8e00), (⟨kernelIdtMapping + 16 * 0x28, 2⟩, 0x108),
      (⟨kernelIdtMapping + 16 * 0x28 + 2, 2⟩, 0x10), (⟨kernelIdtMapping + 16 * 0x28 + 4, 2⟩, 0x8e00),
      (⟨blankSymbols.irqHandlerRaw + 8 * 8, 8⟩, 0x310), (⟨blankSymbols.rtcHandler, 8⟩, 0x330)]

def blankMemory (now : Nat) : Nat → UInt8 := Fields.set blankTables ⟨blankSymbols.now, 8⟩ now

def blankCpu (now : Nat) (s : σ) : Cpu σ where
  reg _ := 0x8000
  rflags := 0x202
  ss := 0x10
  cs := 0x08
  memory := blankMemory now
  ports := []
  foreign := s

theorem blankCpu_aligned (now : Nat) (s : σ) : (blankCpu now s).aligned.toNat = 0x8000 := by
  change (0x8000 &&& ~~~0xf : Qword).toNat = 0x8000
  decide

theorem blankCpu_stackApart (now : Nat) (s : σ) : StackApart blankSymbols (blankCpu now s) := by
  constructor
  · rw [blankCpu_aligned]
    decide
  · simp only [Symbols.fields, blankSymbols, kernelIdtMapping, List.forall_mem_cons, Fields.Field.cells, stackArea,
      blankCpu_aligned, Set.Ico_disjoint_Ico]
    decide

/-- `irq_pic_IntHandler` for the second line, without a handler, and `__smp_Switch` that keeps the current
thread. Both leave something in `rax`. -/
def blankCall : Label → Cpu σ → Option (Cpu σ)
  | .irq_pic_IntHandler, m => some { m.setReg .rax 0x20 with ports := m.ports ++ [(pic1Command, 0x20)] }
  | .smp_Switch, m => some (m.setReg .rax 0)
  | _, _ => none

theorem blank_connected : Connected (blankLink blankCall) 1 (blankCpu 3 ()) := by
  refine ⟨?_, ?_, blankCpu_stackApart 3 ()⟩
  · change gate (blankMemory 3) (kernelIdtMapping + 16 * 0x21) = ⟨0x101, 0x10, 0x8e00⟩
    decide
  · change Fields.value (blankMemory 3) ⟨0x3008, 8⟩ = 0
    decide

theorem device_interrupt_blank :
    ∃ s m, deliver (blankLink blankCall).env (blankCpu 3 ()) 0x5000 0x21 = some s ∧
      Runs (blankLink blankCall).env s (m, .returned 0x5000) ∧
      context m 0x5000 = context (blankCpu 3 ()) 0x5000 ∧ m.ports = [(pic1Command, 0x20)] := by
  obtain ⟨s, m₁, hdeliver, -, hcalls, hreturn⟩ := device_interrupt blank_connected 0x5000
  obtain ⟨m, hrun, hcontext, -, -, hports⟩ := hreturn _ rfl ⟨by simp [calleeSaved, Cpu.setReg], fun _ _ => rfl⟩
  refine ⟨s, m, hdeliver, hrun, hcontext, hports.trans ?_⟩
  change m₁.ports ++ _ = _
  rw [hcalls.ports]
  rfl

end Handlers

end IntSwitch

end Helos
