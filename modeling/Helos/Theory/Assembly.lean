import Helos.Theory.Fields
import Mathlib.Data.BitVec
import Mathlib.Logic.Relation

/-!
# Assembly

A part of x86-64, as far as interrupt handlers of one processor go: registers and flags, memory by the
byte, ports, a stack, and gates through which an interrupt is delivered. A program is a list of lines,
and control is in front of some lines or at an address. Functions in another language are
called by name and work on the same processor and on a state of their own.

Of the arithmetic flags only the zero flag is followed; what becomes of the others is open.
-/

namespace Assembly

open Fields

inductive Reg where
  | rax | rbx | rcx | rdx | rsi | rdi | rbp | rsp
  | r8 | r9 | r10 | r11 | r12 | r13 | r14 | r15
deriving DecidableEq

abbrev Qword := BitVec 64

inductive Width where
  | byte | word | dword | qword
deriving DecidableEq

def Width.bytes : Width → Nat
  | .byte => 1
  | .word => 2
  | .dword => 4
  | .qword => 8

/-- What a register holds after a part of it was written. -/
def Width.merge : Width → Qword → Nat → Qword
  | .byte, old, v => BitVec.ofNat 64 (old.toNat / 2 ^ 8 * 2 ^ 8 + v % 2 ^ 8)
  | .word, old, v => BitVec.ofNat 64 (old.toNat / 2 ^ 16 * 2 ^ 16 + v % 2 ^ 16)
  | .dword, _, v => BitVec.ofNat 64 (v % 2 ^ 32)
  | .qword, _, v => BitVec.ofNat 64 v

/-- `[base + offset]` -/
structure Address where
  base : Option Reg
  offset : Nat
deriving DecidableEq

/-- The instructions that leave control with the next line. `out` sends `al` and `input` receives it. -/
inductive Op where
  | mov (d s : Reg)
  | movImm (w : Width) (d : Reg) (v : Nat)
  | load (w : Width) (d : Reg) (a : Address)
  | store (w : Width) (a : Address) (s : Reg)
  | storeImm (w : Width) (a : Address) (v : Nat)
  | lea (d : Reg) (a : Address)
  | inc (d : Reg)
  | add (d s : Reg)
  | xor (d s : Reg)
  | shl (d : Reg) (k : Nat)
  | shr (d : Reg) (k : Nat)
  | test (w : Width) (a b : Reg)
  | testImm (a : Reg) (v : Nat)
  | push (s : Reg)
  | pop (d : Reg)
  | out (port : Nat)
  | input (port : Nat)
  | cli
  | sti
deriving DecidableEq

inductive Line (ι : Type) where
  | op (o : Op)
  | jz (l : ι)
  | jnz (l : ι)
  | jmp (l : ι)
  /-- `jmp qword [a]` -/
  | jmpMem (a : Address)
  | call (l : ι)
  | int (vector : Nat)
  | ret
  | iret

/-- `ports` are the bytes that were sent, and `foreign` is the state of the other languages. -/
structure Cpu (σ : Type) where
  reg : Reg → Qword
  rflags : Qword
  ss : BitVec 16
  cs : BitVec 16
  memory : Nat → UInt8
  ports : List (Nat × UInt8)
  foreign : σ

/-- What a program is linked with: where its labels are, what is at an address and at which address a
line is, the functions of the other languages, from the push of their return address to its pop, the
arithmetic flags an operation leaves and the bytes the ports give. -/
structure Env (ι σ : Type) where
  find : ι → List (Line ι)
  fetch : Qword → Option (List (Line ι))
  addressOf : List (Line ι) → Qword
  foreign : ι → Cpu σ → Option (Cpu σ)
  status : Cpu σ → Qword
  input : Cpu σ → Nat → UInt8
  idt : Nat

/-- Once an interrupt has returned, the program that was interrupted goes on at `rip`. -/
inductive Control (ι : Type) where
  | before (lines : List (Line ι))
  | at (rip : Qword)
  | returned (rip : Qword)

variable {ι σ : Type}

namespace Cpu

def address (m : Cpu σ) (a : Address) : Nat :=
  match a.base with
  | none => a.offset
  | some r => (m.reg r + BitVec.ofNat 64 a.offset).toNat

def setReg (m : Cpu σ) (r : Reg) (v : Qword) : Cpu σ := { m with reg := Function.update m.reg r v }

/-- The zero flag -/
def zero (m : Cpu σ) : Bool := m.rflags.getLsbD 6

/-- The interrupt flag -/
def interrupts (m : Cpu σ) : Bool := m.rflags.getLsbD 9

/-- The carry, parity, adjust, zero, sign and overflow flags -/
def arithmetic : Qword := 0x8d5

def setZero (status : Qword) (m : Cpu σ) (zero : Bool) : Cpu σ :=
  { m with
    rflags := (m.rflags &&& ~~~arithmetic) ||| (status &&& arithmetic &&& ~~~0x40) |||
      (if zero then 0x40 else 0) }

def push (m : Cpu σ) (v : Qword) : Cpu σ :=
  let rsp := m.reg .rsp - 8
  { m with reg := Function.update m.reg .rsp rsp, memory := set m.memory ⟨rsp.toNat, 8⟩ v.toNat }

def pushes (m : Cpu σ) (vs : List Qword) : Cpu σ := vs.foldl push m

/-- The top of the stack -/
def top (m : Cpu σ) : Qword := BitVec.ofNat 64 (value m.memory ⟨(m.reg .rsp).toNat, 8⟩)

def dropTop (m : Cpu σ) : Cpu σ := m.setReg .rsp (m.reg .rsp + 8)

end Cpu

/-- The low `w` bytes of a word -/
def Width.low (w : Width) (v : Qword) : Nat := v.toNat % 256 ^ w.bytes

def Op.effect (env : Env ι σ) (m : Cpu σ) : Op → Cpu σ
  | .mov d s => m.setReg d (m.reg s)
  | .movImm w d v => m.setReg d (w.merge (m.reg d) v)
  | .load w d a => m.setReg d (w.merge (m.reg d) (value m.memory ⟨m.address a, w.bytes⟩))
  | .store w a s => { m with memory := set m.memory ⟨m.address a, w.bytes⟩ (m.reg s).toNat }
  | .storeImm w a v => { m with memory := set m.memory ⟨m.address a, w.bytes⟩ v }
  | .lea d a => m.setReg d (BitVec.ofNat 64 (m.address a))
  | .inc d => (m.setReg d (m.reg d + 1)).setZero (env.status m) (decide (m.reg d + 1 = 0))
  | .add d s =>
    (m.setReg d (m.reg d + m.reg s)).setZero (env.status m) (decide (m.reg d + m.reg s = 0))
  | .xor d s =>
    (m.setReg d (m.reg d ^^^ m.reg s)).setZero (env.status m) (decide (m.reg d ^^^ m.reg s = 0))
  | .shl d k => (m.setReg d (m.reg d <<< k)).setZero (env.status m) (decide (m.reg d <<< k = 0))
  | .shr d k => (m.setReg d (m.reg d >>> k)).setZero (env.status m) (decide (m.reg d >>> k = 0))
  | .test w a b => m.setZero (env.status m) (decide (w.low (m.reg a &&& m.reg b) = 0))
  | .testImm a v => m.setZero (env.status m) (decide (m.reg a &&& BitVec.ofNat 64 v = 0))
  | .push s => m.push (m.reg s)
  | .pop d => m.dropTop.setReg d m.top
  | .out port => { m with ports := m.ports ++ [(port, UInt8.ofNat (m.reg .rax).toNat)] }
  | .input port => m.setReg .rax (Width.byte.merge (m.reg .rax) (env.input m port).toNat)
  | .cli => { m with rflags := m.rflags &&& ~~~0x200 }
  | .sti => { m with rflags := m.rflags ||| 0x200 }

/-! ### Interrupts -/

/-- An entry of the interrupt descriptor table. -/
structure Gate where
  offset : Nat
  selector : Nat
  attributes : Nat
deriving DecidableEq

/-- The offset is in three parts. -/
def gate (memory : Nat → UInt8) (a : Nat) : Gate where
  offset := value memory ⟨a, 2⟩ + 2 ^ 16 * value memory ⟨a + 6, 2⟩ + 2 ^ 32 * value memory ⟨a + 8, 4⟩
  selector := value memory ⟨a + 2, 2⟩
  attributes := value memory ⟨a + 4, 2⟩

/-- An interrupt gate that is present, for ring 0, with no stack of its own. -/
def Gate.Interrupt (g : Gate) : Prop := g.attributes = 0x8e00

instance (g : Gate) : Decidable g.Interrupt := inferInstanceAs (Decidable (_ = _))

/-- The trap, interrupt, nested task and resume flags -/
def entryFlags : Qword := 0x14300

/-- Where the stack of an interrupt starts. -/
def Cpu.aligned (m : Cpu σ) : Qword := m.reg .rsp &&& ~~~0xf

theorem Cpu.aligned_le (m : Cpu σ) : m.aligned.toNat ≤ (m.reg .rsp).toNat := by
  rw [aligned, BitVec.toNat_and]
  exact Nat.and_le_left

/-- What an interrupt pushes: from the top on `rip`, `cs`, `rflags`, `rsp` and `ss`. -/
def Cpu.enter (m : Cpu σ) (rip : Qword) (selector : Nat) : Cpu σ :=
  let pushed := (m.setReg .rsp m.aligned).pushes
    [m.ss.setWidth 64, m.reg .rsp, m.rflags, m.cs.setWidth 64, rip]
  { pushed with rflags := m.rflags &&& ~~~entryFlags, cs := BitVec.ofNat 16 selector }

/-- Delivery of an interrupt. A gate of another kind is not followed. -/
def deliver (env : Env ι σ) (m : Cpu σ) (rip : Qword) (vector : Nat) : Option (Cpu σ × Control ι) :=
  let g := gate m.memory (env.idt + 16 * vector)
  if g.Interrupt then some (m.enter rip g.selector, .at (BitVec.ofNat 64 g.offset)) else none

def Cpu.leave (m : Cpu σ) : Cpu σ × Qword :=
  let m₁ := m.dropTop
  let m₂ := m₁.dropTop
  let m₃ := m₂.dropTop
  let m₄ := m₃.dropTop
  ({ m₄.setReg .rsp m₃.top with
      rflags := m₂.top
      cs := m₁.top.setWidth 16
      ss := m₄.top.setWidth 16 }, m.top)

/-! ### Execution -/

def step (env : Env ι σ) : Cpu σ × Control ι → Option (Cpu σ × Control ι)
  | (m, .at rip) => do
    let lines ← env.fetch rip
    some (m, .before lines)
  | (_, .returned _) | (_, .before []) => none
  | (m, .before (line :: lines)) =>
    match line with
    | .op o => some (o.effect env m, .before lines)
    | .jz l => some (m, .before (if m.zero then env.find l else lines))
    | .jnz l => some (m, .before (if m.zero then lines else env.find l))
    | .jmp l => some (m, .before (env.find l))
    | .jmpMem a => some (m, .at (BitVec.ofNat 64 (value m.memory ⟨m.address a, 8⟩)))
    | .call l => do
      let m ← env.foreign l m
      some (m, .before lines)
    | .int vector => deliver env m (env.addressOf lines) vector
    | .ret => some (m.dropTop, .at m.top)
    | .iret => some (m.leave.1, .returned m.leave.2)

def Step (env : Env ι σ) (s t : Cpu σ × Control ι) : Prop := step env s = some t

def Runs (env : Env ι σ) : Cpu σ × Control ι → Cpu σ × Control ι → Prop :=
  Relation.ReflTransGen (Step env)

/-- A block of operations, one after the other. -/
def block (env : Env ι σ) (m : Cpu σ) (os : List Op) : Cpu σ := os.foldl (Op.effect env) m

variable {env : Env ι σ} {m : Cpu σ} {s t u : Cpu σ × Control ι} {lines : List (Line ι)}

theorem Runs.cons (h : step env s = some t) (hrest : Runs env t u) : Runs env s u :=
  Relation.ReflTransGen.head h hrest

theorem Runs.trans (h : Runs env s t) (hrest : Runs env t u) : Runs env s u :=
  Relation.ReflTransGen.trans h hrest

/-- A run that cannot go on is the only one. -/
theorem Runs.unique (h : Runs env s t) (h' : Runs env s u) (ht : step env t = none) (hu : step env u = none) :
    t = u := by
  induction h using Relation.ReflTransGen.head_induction_on with
  | refl =>
    rcases Relation.ReflTransGen.cases_head h' with rfl | ⟨s₁, hstep, -⟩
    · rfl
    · exact absurd (ht.symm.trans hstep) nofun
  | head hstep _ ih =>
    rcases Relation.ReflTransGen.cases_head h' with rfl | ⟨s₁, hstep', hrest⟩
    · exact absurd (hu.symm.trans hstep) nofun
    · obtain rfl := Option.some.inj (hstep.symm.trans hstep')
      exact ih hrest

theorem Runs.single (h : step env s = some t) : Runs env s t := Relation.ReflTransGen.single h

theorem runs_fetch {rip : Qword} (h : env.fetch rip = some lines) : Runs env (m, .at rip) (m, .before lines) :=
  Runs.single (by simp only [step, h, Option.bind_eq_bind, Option.bind_some])

theorem runs_jz {l : ι} :
    Runs env (m, .before (.jz l :: lines)) (m, .before (if m.zero then env.find l else lines)) :=
  Runs.single rfl

theorem runs_jnz {l : ι} :
    Runs env (m, .before (.jnz l :: lines)) (m, .before (if m.zero then lines else env.find l)) :=
  Runs.single rfl

theorem runs_jmpMem {a : Address} {rip : Qword} (h : value m.memory ⟨m.address a, 8⟩ = rip.toNat) :
    Runs env (m, .before (.jmpMem a :: lines)) (m, .at rip) :=
  Runs.single (by simp only [step, h, BitVec.ofNat_toNat, BitVec.setWidth_eq])

theorem runs_call {l : ι} {m' : Cpu σ} (h : env.foreign l m = some m') :
    Runs env (m, .before (.call l :: lines)) (m', .before lines) :=
  Runs.single (by simp only [step, h, Option.bind_eq_bind, Option.bind_some])

theorem runs_iret : Runs env (m, .before (.iret :: lines)) (m.leave.1, .returned m.leave.2) := Runs.single rfl

theorem runs_block (os : List Op) :
    Runs env (m, .before (os.map Line.op ++ lines)) (block env m os, .before lines) := by
  induction os generalizing m with
  | nil => exact Relation.ReflTransGen.refl
  | cons o os ih => exact Runs.cons rfl ih

@[simp] theorem block_nil : block env m [] = m := rfl

@[simp] theorem block_cons (o : Op) (os : List Op) :
    block env m (o :: os) = block env (o.effect env m) os := rfl

@[simp] theorem block_append (os os' : List Op) :
    block env m (os ++ os') = block env (block env m os) os' := List.foldl_append

/-! ### Parts of registers -/

@[simp] theorem Width.bytes_qword : Width.qword.bytes = 8 := rfl

@[simp] theorem Width.bytes_word : Width.word.bytes = 2 := rfl

@[simp] theorem Width.bytes_byte : Width.byte.bytes = 1 := rfl

@[simp] theorem Width.merge_qword (old : Qword) (v : Nat) : Width.qword.merge old v = BitVec.ofNat 64 v := rfl

/-- `al` is what was written to it. -/
@[simp] theorem Width.ofNat_merge_byte (old : Qword) (v : Nat) :
    UInt8.ofNat (Width.byte.merge old v).toNat = UInt8.ofNat v := by
  apply UInt8.toNat_inj.mp
  rw [UInt8.toNat_ofNat', UInt8.toNat_ofNat', Width.merge, BitVec.toNat_ofNat]
  omega

theorem Width.low_qword (v : Qword) : Width.qword.low v = v.toNat := Nat.mod_eq_of_lt v.isLt

/-- The byte that was written is the low byte. -/
@[simp] theorem Width.low_merge_byte (old : Qword) (v : Nat) :
    Width.byte.low (Width.byte.merge old v) = v % 256 := by
  simp only [Width.low, Width.merge, Width.bytes, BitVec.toNat_ofNat]
  omega

@[simp] theorem ofNat_toNat_mod (v : Qword) : BitVec.ofNat 64 (v.toNat % 18446744073709551616) = v := by
  rw [Nat.mod_eq_of_lt v.isLt, BitVec.ofNat_toNat, BitVec.setWidth_eq]

/-! ### Ports -/

theorem block_out (ports : List Nat) : block env m (ports.map Op.out) =
    { m with ports := m.ports ++ ports.map fun port => (port, UInt8.ofNat (m.reg .rax).toNat) } := by
  induction ports generalizing m with
  | nil => simp
  | cons port ports ih => simp [Op.effect, ih]

/-! ### Loads -/

/-- The registers after some of them were loaded from addresses. -/
def loaded (slots : List (Reg × Nat)) (memory : Nat → UInt8) (reg : Reg → Qword) : Reg → Qword := fun r =>
  match slots.lookup r with
  | none => reg r
  | some a => BitVec.ofNat 64 (value memory ⟨a, 8⟩)

def loads (slots : List (Reg × Nat)) : List Op :=
  slots.map fun slot => .load .qword slot.1 ⟨none, slot.2⟩

theorem lookup_eq_none_of_notMem {r : Reg} {slots : List (Reg × Nat)} (h : r ∉ slots.map Prod.fst) :
    slots.lookup r = none := by
  induction slots with
  | nil => rfl
  | cons slot slots ih =>
    obtain ⟨hne, hrest⟩ := not_or.mp (List.mem_cons.not.mp h)
    rw [List.lookup_cons, beq_eq_false_iff_ne.mpr hne]
    exact ih hrest

theorem block_loads {slots : List (Reg × Nat)} (h : (slots.map Prod.fst).Nodup) :
    block env m (loads slots) = { m with reg := loaded slots m.memory m.reg } := by
  induction slots generalizing m with
  | nil => rfl
  | cons slot slots ih =>
    obtain ⟨hslot, hslots⟩ := List.nodup_cons.mp h
    rw [loads, List.map_cons, block_cons]
    refine (ih hslots).trans (congrArg (fun reg => { m with reg }) (funext fun r => ?_))
    rw [loaded, loaded, List.lookup_cons]
    by_cases hr : r = slot.1
    · rw [hr, lookup_eq_none_of_notMem hslot, beq_self_eq_true]
      exact Function.update_self _ _ _
    · rw [beq_eq_false_iff_ne.mpr hr]
      cases slots.lookup r with
      | none => exact Function.update_of_ne hr _ _
      | some a => rfl

/-! ### Flags -/

@[simp] theorem Cpu.reg_setZero (status : Qword) (m : Cpu σ) (z : Bool) :
    (m.setZero status z).reg = m.reg := rfl

@[simp] theorem Cpu.memory_setZero (status : Qword) (m : Cpu σ) (z : Bool) :
    (m.setZero status z).memory = m.memory := rfl

@[simp] theorem Cpu.zero_setZero (status : Qword) (m : Cpu σ) (z : Bool) :
    (m.setZero status z).zero = z := by
  cases z <;> simp [Cpu.zero, Cpu.setZero, Cpu.arithmetic]

@[simp] theorem Cpu.interrupts_setZero (status : Qword) (m : Cpu σ) (z : Bool) :
    (m.setZero status z).interrupts = m.interrupts := by
  cases z <;> simp [Cpu.interrupts, Cpu.setZero, Cpu.arithmetic]

/-- The operations that touch the interrupt flag. -/
def Op.Masks : Op → Prop
  | .cli | .sti => True
  | _ => False

theorem Op.interrupts_effect {o : Op} (h : ¬ o.Masks) : (o.effect env m).interrupts = m.interrupts := by
  cases o with
  | cli | sti => exact absurd trivial h
  | inc | add | xor | shl | shr | test | testImm => exact Cpu.interrupts_setZero _ _ _
  | _ => rfl

theorem interrupts_block {os : List Op} (h : ∀ o ∈ os, ¬ o.Masks) :
    (block env m os).interrupts = m.interrupts := by
  induction os generalizing m with
  | nil => rfl
  | cons o os ih =>
    rw [List.forall_mem_cons] at h
    rw [block_cons, ih h.2, Op.interrupts_effect h.1]

/-- Assembly does not touch the state of the other languages. -/
theorem foreign_block (os : List Op) : (block env m os).foreign = m.foreign := by
  induction os generalizing m with
  | nil => rfl
  | cons o os ih =>
    rw [block_cons, ih]
    cases o <;> rfl

theorem Cpu.setReg_of_ne {r k : Reg} (h : k ≠ r) (v : Qword) : (m.setReg r v).reg k = m.reg k :=
  Function.update_of_ne h _ _

theorem Cpu.push_reg_of_ne {k : Reg} (h : k ≠ .rsp) (v : Qword) : (m.push v).reg k = m.reg k :=
  Function.update_of_ne h _ _

/-! ### The stack -/

/-- The words from an address on. -/
def OnStack (memory : Nat → UInt8) : Nat → List Qword → Prop
  | _, [] => True
  | a, v :: vs => value memory ⟨a, 8⟩ = v.toNat ∧ OnStack memory (a + 8) vs

section Stack

variable {memory memory' : Nat → UInt8} {a : Nat} {v : Qword} {vs : List Qword}

theorem OnStack.congr (h : OnStack memory a vs)
    (hsame : ∀ i ∈ Set.Ico a (a + 8 * vs.length), memory' i = memory i) : OnStack memory' a vs := by
  induction vs generalizing a with
  | nil => trivial
  | cons v vs ih =>
    rw [List.length_cons] at hsame
    refine ⟨(value_congr fun i hi => hsame i ⟨hi.1, ?_⟩).trans h.1,
      ih h.2 fun i hi => hsame i ⟨Nat.le_trans (Nat.le_add_right a 8) hi.1, ?_⟩⟩
    · have hlt : i < a + 8 := hi.2
      omega
    · have hlt := hi.2
      omega

theorem onStack_append {ws : List Qword} : OnStack memory a (vs ++ ws) ↔
    OnStack memory a vs ∧ OnStack memory (a + 8 * vs.length) ws := by
  induction vs generalizing a with
  | nil => exact (iff_of_eq (true_and _)).symm
  | cons v vs ih =>
    have hlength : a + 8 + 8 * vs.length = a + 8 * (v :: vs).length := by
      rw [List.length_cons]
      omega
    exact (and_congr_right fun _ => ih.trans (by rw [hlength])).trans and_assoc.symm

theorem OnStack.get (h : OnStack memory a vs) {k : Nat} (hk : k < vs.length) :
    value memory ⟨a + 8 * k, 8⟩ = vs[k].toNat := by
  induction vs generalizing a k with
  | nil => exact absurd hk (Nat.not_lt_zero k)
  | cons v vs ih =>
    cases k with
    | zero => exact h.1
    | succ k =>
      have hrest := ih h.2 (Nat.lt_of_succ_lt_succ hk)
      rw [Nat.add_assoc, Nat.add_comm 8] at hrest
      exact hrest

theorem toNat_sub_eight (h : 8 ≤ v.toNat) : (v - 8).toNat = v.toNat - 8 := by
  bv_omega

theorem toNat_add_eight (h : v.toNat + 8 < 2 ^ 64) : (v + 8).toNat = v.toNat + 8 := by
  bv_omega

theorem Cpu.onStack_push (h : OnStack m.memory (m.reg .rsp).toNat vs) (hroom : 8 ≤ (m.reg .rsp).toNat) :
    OnStack (m.push v).memory (m.reg .rsp - 8).toNat (v :: vs) := by
  have hrsp := toNat_sub_eight hroom
  have hback : (m.reg .rsp - 8).toNat + 8 = (m.reg .rsp).toNat := by omega
  refine ⟨?_, ?_⟩
  · rw [Cpu.push, value_set]
    exact Nat.mod_eq_of_lt v.isLt
  · rw [hback]
    refine h.congr fun i hi => set_outside fun hi' => ?_
    have hlt : i < (m.reg .rsp - 8).toNat + 8 := hi'.2
    have hle := hi.1
    omega

theorem OnStack.top (h : OnStack m.memory (m.reg .rsp).toNat (v :: vs)) : m.top = v := by
  rw [Cpu.top, h.1]
  exact BitVec.eq_of_toNat_eq (by simp)

@[simp] theorem Cpu.dropTop_rsp (m : Cpu σ) : m.dropTop.reg .rsp = m.reg .rsp + 8 := by
  simp only [dropTop, setReg, Function.update_self]

@[simp] theorem Cpu.push_rsp (m : Cpu σ) (v : Qword) : (m.push v).reg .rsp = m.reg .rsp - 8 := by
  simp only [push, Function.update_self]

theorem OnStack.dropTop (h : OnStack m.memory (m.reg .rsp).toNat (v :: vs))
    (hroom : (m.reg .rsp).toNat + 8 < 2 ^ 64) :
    OnStack m.dropTop.memory (m.dropTop.reg .rsp).toNat vs := by
  rw [Cpu.dropTop_rsp, toNat_add_eight hroom]
  exact h.2

/-- What an interrupt pushed is popped by `iret`. -/
theorem Cpu.leave_eq {rip cs rflags rsp ss : Qword}
    (h : OnStack m.memory (m.reg .rsp).toNat [rip, cs, rflags, rsp, ss])
    (hroom : (m.reg .rsp).toNat + 40 ≤ 2 ^ 64) :
    m.leave = ({ m with
      reg := Function.update m.reg .rsp rsp
      rflags
      cs := cs.setWidth 16
      ss := ss.setWidth 16 }, rip) := by
  have h₁ := h.dropTop (by omega)
  have hroom₁ : (m.dropTop.reg .rsp).toNat + 32 ≤ 2 ^ 64 := by
    rw [dropTop_rsp, toNat_add_eight (by omega)]
    omega
  have h₂ := h₁.dropTop (by omega)
  have hroom₂ : (m.dropTop.dropTop.reg .rsp).toNat + 24 ≤ 2 ^ 64 := by
    rw [dropTop_rsp, toNat_add_eight (by omega)]
    omega
  have h₃ := h₂.dropTop (by omega)
  have hroom₃ : (m.dropTop.dropTop.dropTop.reg .rsp).toNat + 16 ≤ 2 ^ 64 := by
    rw [dropTop_rsp, toNat_add_eight (by omega)]
    omega
  have h₄ := h₃.dropTop (by omega)
  have hreg : Function.update m.dropTop.dropTop.dropTop.dropTop.reg .rsp rsp =
      Function.update m.reg .rsp rsp := by
    simp only [dropTop, setReg, Function.update_idem]
  rw [leave]
  dsimp only
  rw [h.top, h₁.top, h₂.top, h₃.top, h₄.top]
  simp only [setReg, hreg]
  rfl

/-- What a push changes in memory is below the stack. -/
theorem Cpu.push_memory_outside {i : Nat} (hroom : 8 ≤ (m.reg .rsp).toNat)
    (hi : i ∉ Set.Ico ((m.reg .rsp).toNat - 8) (m.reg .rsp).toNat) : (m.push v).memory i = m.memory i := by
  refine set_outside fun hmem => hi ?_
  have hle := hmem.1
  have hlt := hmem.2
  dsimp only at hle hlt
  rw [toNat_sub_eight hroom] at hle hlt
  exact ⟨hle, by omega⟩

end Stack

/-- A processor after some pushes. -/
structure Cpu.Pushed (m m' : Cpu σ) (vs : List Qword) : Prop where
  reg : m'.reg = Function.update m.reg .rsp (m'.reg .rsp)
  rsp : (m'.reg .rsp).toNat + 8 * vs.length = (m.reg .rsp).toNat
  stack : OnStack m'.memory (m'.reg .rsp).toNat vs.reverse
  memory : ∀ i ∉ Set.Ico (m'.reg .rsp).toNat (m.reg .rsp).toNat, m'.memory i = m.memory i
  rflags : m'.rflags = m.rflags
  ss : m'.ss = m.ss
  cs : m'.cs = m.cs
  ports : m'.ports = m.ports
  foreign : m'.foreign = m.foreign

section Pushes

variable {vs : List Qword} {v rip : Qword} {selector : Nat}

theorem Cpu.pushed_concat {m' : Cpu σ} (h : m.Pushed m' vs) (hroom : 8 ≤ (m'.reg .rsp).toNat) (v : Qword) :
    m.Pushed (m'.push v) (vs ++ [v]) := by
  have hrsp : ((m'.push v).reg .rsp).toNat = (m'.reg .rsp).toNat - 8 := by
    rw [push_rsp, toNat_sub_eight hroom]
  have hold := h.rsp
  refine ⟨?_, ?_, ?_, fun i hi => ?_, h.rflags, h.ss, h.cs, h.ports, h.foreign⟩
  · calc
      (m'.push v).reg = Function.update m'.reg .rsp (m'.reg .rsp - 8) := rfl
      _ = Function.update m.reg .rsp ((m'.push v).reg .rsp) := by
        rw [push_rsp, h.reg, Function.update_idem, Function.update_self]
  · rw [hrsp, List.length_append, List.length_singleton]
    omega
  · rw [List.reverse_append, List.reverse_singleton, List.singleton_append, push_rsp]
    exact onStack_push h.stack hroom
  · rw [hrsp] at hi
    rw [push_memory_outside hroom fun hin => hi ⟨hin.1, by have := hin.2; omega⟩]
    exact h.memory i fun hin => hi ⟨by have := hin.1; omega, hin.2⟩

/-- What was on the stack before is behind what was pushed. -/
theorem Cpu.Pushed.onStack {m' : Cpu σ} {ws : List Qword} (h : m.Pushed m' vs)
    (hstack : OnStack m.memory (m.reg .rsp).toNat ws) :
    OnStack m'.memory (m'.reg .rsp).toNat (vs.reverse ++ ws) := by
  refine onStack_append.mpr ⟨h.stack, ?_⟩
  rw [List.length_reverse, h.rsp]
  exact hstack.congr fun i hi => h.memory i fun hin => absurd hin.2 (Nat.not_lt.mpr hi.1)

theorem Cpu.pushes_pushed (hroom : 8 * vs.length ≤ (m.reg .rsp).toNat) : m.Pushed (m.pushes vs) vs := by
  induction vs using List.reverseRecOn with
  | nil => exact ⟨(Function.update_eq_self _ _).symm, rfl, trivial, fun _ _ => rfl, rfl, rfl, rfl, rfl, rfl⟩
  | append_singleton vs v ih =>
    rw [List.length_append, List.length_singleton] at hroom
    have h := ih (by omega)
    have hrsp := h.rsp
    rw [pushes, List.foldl_append]
    exact pushed_concat h (by omega) v

theorem Cpu.block_push {rs : List Reg} (h : Reg.rsp ∉ rs) :
    block env m (rs.map Op.push) = m.pushes (rs.map m.reg) := by
  induction rs generalizing m with
  | nil => rfl
  | cons r rs ih =>
    obtain ⟨-, hrs⟩ := not_or.mp (List.mem_cons.not.mp h)
    have hkept : rs.map (m.push (m.reg r)).reg = rs.map m.reg :=
      List.map_congr_left fun k hk => Function.update_of_ne (by rintro rfl; exact hrs hk) _ _
    rw [List.map_cons, block_cons, Op.effect, ih hrs, hkept]
    rfl

/-- The registers after some of them were popped. -/
def popped (rs : List Reg) (saved reg : Reg → Qword) : Reg → Qword := fun r =>
  if r ∈ rs then saved r
  else if r = .rsp then reg .rsp + BitVec.ofNat 64 (8 * rs.length)
  else reg r

/-- All registers are what they were once those that changed are popped. -/
theorem popped_eq {rs : List Reg} {saved reg : Reg → Qword} (h : Reg.rsp ∉ rs)
    (hkept : ∀ r ∉ rs, r ≠ .rsp → reg r = saved r)
    (hrsp : reg .rsp + BitVec.ofNat 64 (8 * rs.length) = saved .rsp) : popped rs saved reg = saved := by
  funext r
  by_cases hr : r ∈ rs
  · simp [popped, hr]
  · by_cases hs : r = .rsp
    · subst hs
      simpa [popped, h] using hrsp
    · simp [popped, hr, hs, hkept r hr hs]

/-- Registers that are popped from where their values are. -/
theorem Cpu.block_pop {rs : List Reg} {saved : Reg → Qword} {ws : List Qword} (h : Reg.rsp ∉ rs)
    (hstack : OnStack m.memory (m.reg .rsp).toNat (rs.map saved ++ ws))
    (hroom : (m.reg .rsp).toNat + 8 * rs.length < 2 ^ 64) :
    block env m (rs.map Op.pop) = { m with reg := popped rs saved m.reg } := by
  induction rs generalizing m with
  | nil =>
    have hreg : popped [] saved m.reg = m.reg := by
      funext r
      by_cases hr : r = .rsp
      · simp [popped, hr]
      · simp [popped, hr]
    rw [hreg]
    rfl
  | cons r rs ih =>
    obtain ⟨hr, hrs⟩ := not_or.mp (List.mem_cons.not.mp h)
    rw [List.length_cons] at hroom
    let m₁ := m.dropTop.setReg r (saved r)
    have hrsp : m₁.reg .rsp = m.reg .rsp + 8 := by
      simp [m₁, setReg, Function.update_of_ne hr]
    have hrsp' : (m₁.reg .rsp).toNat = (m.reg .rsp).toNat + 8 := by
      rw [hrsp, toNat_add_eight (by omega)]
    have hstack₁ : OnStack m₁.memory (m₁.reg .rsp).toNat (rs.map saved ++ ws) := by
      rw [hrsp']
      exact hstack.2
    have heffect : Op.effect env m (.pop r) = m₁ := by
      rw [Op.effect, OnStack.top hstack]
    rw [List.map_cons, block_cons, heffect, ih hrs hstack₁ (by omega)]
    refine congrArg (fun reg => { m with reg }) (funext fun k => ?_)
    have hsum : m.reg .rsp + 8 + BitVec.ofNat 64 (8 * rs.length) =
        m.reg .rsp + BitVec.ofNat 64 (8 * (rs.length + 1)) := by
      bv_omega
    by_cases hk : k ∈ rs
    · simp [popped, hk]
    · by_cases hkr : k = r
      · subst hkr
        simp [popped, hk, Ne.symm hr, m₁, setReg]
      · by_cases hks : k = .rsp
        · subst hks
          simpa [popped, hk, hr, hrsp] using hsum
        · simp [popped, hk, hkr, hks, m₁, setReg, dropTop]

/-- A processor after the delivery of an interrupt. -/
structure Cpu.Entered (m m' : Cpu σ) (rip : Qword) (selector : Nat) : Prop where
  reg : m'.reg = Function.update m.reg .rsp (m'.reg .rsp)
  rsp : (m'.reg .rsp).toNat + 40 = m.aligned.toNat
  frame : OnStack m'.memory (m'.reg .rsp).toNat
    [rip, m.cs.setWidth 64, m.rflags, m.reg .rsp, m.ss.setWidth 64]
  memory : ∀ i ∉ Set.Ico (m'.reg .rsp).toNat m.aligned.toNat, m'.memory i = m.memory i
  rflags : m'.rflags = m.rflags &&& ~~~entryFlags
  ss : m'.ss = m.ss
  cs : m'.cs = BitVec.ofNat 16 selector
  ports : m'.ports = m.ports
  foreign : m'.foreign = m.foreign

theorem Cpu.enter_entered (rip : Qword) (selector : Nat) (hroom : 40 ≤ m.aligned.toNat) :
    m.Entered (m.enter rip selector) rip selector := by
  have haligned : (m.setReg .rsp m.aligned).reg .rsp = m.aligned := by
    simp only [setReg, Function.update_self]
  have h : (m.setReg .rsp m.aligned).Pushed _
      [m.ss.setWidth 64, m.reg .rsp, m.rflags, m.cs.setWidth 64, rip] :=
    pushes_pushed (by rw [haligned]; exact hroom)
  refine ⟨?_, haligned ▸ h.rsp, h.stack, haligned ▸ h.memory, rfl, h.ss, rfl, h.ports, h.foreign⟩
  exact h.reg.trans (Function.update_idem _ _ _)

end Pushes

end Assembly
