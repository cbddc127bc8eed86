import Helos.Interrupt.Gates

/-!
# Exceptions and the system call

The entries of `handler.asm.S`. Those of the exceptions put the registers where `interrupt_Handler` has its
arguments, and expect an error code on the stack for some vectors; the processor pushes one for some more.
The entry of the system call leaves the arguments of `Syscall` in their registers.
-/

namespace Helos.Interrupt

open Assembly Fields IntSwitch

/-! ### The text -/

inductive Entry where
  | exception (n : Fin 32)
  | int128
  | syscall
  | interrupt_Handler
  | interrupt_Handler128
deriving DecidableEq

/-- The vectors with `inth_err`. -/
def expectsCode (n : Nat) : Bool := n ∈ [10, 11, 12, 13, 14, 17, 21]

/-- The registers that are pushed behind `r15`. -/
def savedBehind : List Reg := [.r14, .r13, .r12, .r11, .r10, .r9, .r8, .r15, .rbp, .rdi, .rsi, .rdx]

/-- What is different with an error code: where the instruction pointer is, and the second argument. -/
def codeOps (n : Nat) : List Op :=
  if expectsCode n then [.load .qword .rdx (indirect .rsp (8 + 104)), .load .dword .rsi (indirect .rsp 104)]
  else [.load .qword .rdx (indirect .rsp 104), .xor .rsi .rsi]

def saveOps : List Op := [.push .r15, .lea .r15 (indirect .rsp 8)] ++ savedBehind.map .push

def argumentOps (n : Nat) : List Op :=
  [.mov .r9 .rcx, .mov .r8 .rbx, .mov .rcx .rax] ++ codeOps n ++ [.movImm .qword .rdi n]

/-- The macros `inth` and `inth_err` -/
def exceptionOps (n : Nat) : List Op := saveOps ++ argumentOps n

def syscallOps : List Op :=
  [ .mov .rax .rdi,
    .mov .rdi .rsi,
    .mov .rsi .rdx,
    .mov .rdx .rcx,
    .mov .rcx .r8,
    .mov .r8 .r9,
    .load .qword .r9 (indirect .rsp 8) ]

def Entry.text : Entry → List (Line Entry)
  | .exception n => followedBy (exceptionOps n) [.call .interrupt_Handler]
  | .int128 => [.call .interrupt_Handler128, .iret]
  | .syscall => followedBy syscallOps [.int 0x80, .ret]
  | .interrupt_Handler | .interrupt_Handler128 => []
where followedBy (os : List Op) (lines : List (Line Entry)) : List (Line Entry) := os.map Line.op ++ lines

/-! ### Exceptions -/

section Exceptions

variable {σ : Type} (env : Env Entry σ) {m : Cpu σ} {n : Fin 32}

/-- The processor pushes an error code for these exceptions. -/
def pushesCode (n : Nat) : Bool := n ∈ [8, 10, 11, 12, 13, 14, 17, 21, 29, 30]

/-- Delivery of an exception, with an error code where there is one. -/
def deliverException (m : Cpu σ) (rip : Qword) (n : Nat) (code : BitVec 32) :
    Option (Cpu σ × Control Entry) := do
  let (m, control) ← deliver env m rip n
  some (if pushesCode n then m.push (code.setWidth 64) else m, control)

/-- What `interrupt_Handler` is called with. -/
structure Report where
  (vec errcode : Nat)
  (rip rax rbx rcx rdx rsi rdi rbp rsp : Nat)
  (r8 r9 r10 r11 r12 r13 r14 r15 : Nat)

/-- The arguments of a function with six in registers and the others on the stack. -/
def arguments (m : Cpu σ) : Report :=
  let onStack k := value m.memory ⟨(m.reg .rsp).toNat + 8 * k, 8⟩
  { vec := (m.reg .rdi).toNat % 2 ^ 32
    errcode := (m.reg .rsi).toNat % 2 ^ 32
    rip := (m.reg .rdx).toNat
    rax := (m.reg .rcx).toNat
    rbx := (m.reg .r8).toNat
    rcx := (m.reg .r9).toNat
    rdx := onStack 0
    rsi := onStack 1
    rdi := onStack 2
    rbp := onStack 3
    rsp := onStack 4
    r8 := onStack 5
    r9 := onStack 6
    r10 := onStack 7
    r11 := onStack 8
    r12 := onStack 9
    r13 := onStack 10
    r14 := onStack 11
    r15 := onStack 12 }

/-- The report of an exception. -/
def report (m : Cpu σ) (n errcode rip rsp : Nat) : Report where
  vec := n
  errcode := errcode
  rip := rip
  rax := (m.reg .rax).toNat
  rbx := (m.reg .rbx).toNat
  rcx := (m.reg .rcx).toNat
  rdx := (m.reg .rdx).toNat
  rsi := (m.reg .rsi).toNat
  rdi := (m.reg .rdi).toNat
  rbp := (m.reg .rbp).toNat
  rsp := rsp
  r8 := (m.reg .r8).toNat
  r9 := (m.reg .r9).toNat
  r10 := (m.reg .r10).toNat
  r11 := (m.reg .r11).toNat
  r12 := (m.reg .r12).toNat
  r13 := (m.reg .r13).toNat
  r14 := (m.reg .r14).toNat
  r15 := (m.reg .r15).toNat

/-- What is on the stack at the call: the arguments, and behind them what the processor has pushed. -/
def reported (m : Cpu σ) (top second : Qword) : List Qword :=
  [m.reg .rdx, m.reg .rsi, m.reg .rdi, m.reg .rbp, m.reg .rsp, m.reg .r8, m.reg .r9, m.reg .r10, m.reg .r11,
    m.reg .r12, m.reg .r13, m.reg .r14, m.reg .r15, top, second]

theorem block_saved {top second : Qword} (hroom : 104 ≤ (m.reg .rsp).toNat)
    (hstack : OnStack m.memory (m.reg .rsp).toNat [top, second]) :
    ∃ m', block env m saveOps = m' ∧
      (∀ r, r ≠ .rsp → r ≠ .r15 → m'.reg r = m.reg r) ∧ (m'.reg .rsp).toNat + 104 = (m.reg .rsp).toNat ∧
      OnStack m'.memory (m'.reg .rsp).toNat (reported m top second) := by
  have hrsp := toNat_sub_eight (v := m.reg .rsp) (by omega)
  obtain ⟨m₁, hm₁⟩ : ∃ m₁, m₁ = block env m [.push .r15, .lea .r15 (indirect .rsp 8)] := ⟨_, rfl⟩
  rw [saveOps, block_append, ← hm₁]
  have hrsp₁ : m₁.reg .rsp = m.reg .rsp - 8 := by
    rw [hm₁]
    rfl
  have hr15 : m₁.reg .r15 = m.reg .rsp := by
    have hlea : m₁.reg .r15 = BitVec.ofNat 64 (m.reg .rsp - 8 + 8#64).toNat := by
      rw [hm₁]
      rfl
    rw [hlea, BitVec.ofNat_toNat, BitVec.setWidth_eq]
    exact BitVec.sub_add_cancel _ _
  have hkept : ∀ r, r ≠ .rsp → r ≠ .r15 → m₁.reg r = m.reg r := fun r hs hr => by
    rw [hm₁]
    exact (Function.update_of_ne hr _ _).trans (Function.update_of_ne hs _ _)
  have hstack₁ : OnStack m₁.memory (m₁.reg .rsp).toNat [m.reg .r15, top, second] := by
    rw [hrsp₁, hm₁]
    exact Cpu.onStack_push hstack (by omega)
  have hpush : block env m₁ (savedBehind.map .push) = m₁.pushes (savedBehind.map m₁.reg) :=
    Cpu.block_push (by decide)
  have hpushed : m₁.Pushed (m₁.pushes (savedBehind.map m₁.reg)) (savedBehind.map m₁.reg) := by
    refine Cpu.pushes_pushed ?_
    rw [hrsp₁, hrsp]
    simp only [savedBehind, List.length_map, List.length_cons, List.length_nil]
    omega
  have hsum := hpushed.rsp
  rw [hrsp₁, hrsp] at hsum
  simp only [savedBehind, List.length_map, List.length_cons, List.length_nil] at hsum
  refine ⟨_, hpush, fun r hs hr => ?_, by simp only [savedBehind]; omega, ?_⟩
  · rw [hpushed.reg, Function.update_of_ne hs]
    exact hkept r hs hr
  · have hall := hpushed.onStack hstack₁
    simpa [savedBehind, hkept, hr15, reported] using hall

/-- The arguments in registers, once the others are on the stack. -/
structure InRegisters (m m' : Cpu σ) (n : Nat) (top second : Qword) : Prop where
  memory : m'.memory = m.memory
  rsp : m'.reg .rsp = m.reg .rsp
  vec : m'.reg .rdi = BitVec.ofNat 64 n
  errcode : (m'.reg .rsi).toNat % 2 ^ 32 = if expectsCode n then top.toNat % 2 ^ 32 else 0
  rip : m'.reg .rdx = if expectsCode n then second else top
  rax : m'.reg .rcx = m.reg .rax
  rbx : m'.reg .r8 = m.reg .rbx
  rcx : m'.reg .r9 = m.reg .rcx

theorem block_arguments {top second : Qword} (n : Nat) (hroom : (m.reg .rsp).toNat + 112 < 2 ^ 64)
    (htop : value m.memory ⟨(m.reg .rsp).toNat + 104, 8⟩ = top.toNat)
    (hsecond : value m.memory ⟨(m.reg .rsp).toNat + 112, 8⟩ = second.toNat) :
    InRegisters m (block env m (argumentOps n)) n top second := by
  have haddress : ∀ k, k ≤ 112 → (m.reg .rsp + BitVec.ofNat 64 k).toNat = (m.reg .rsp).toNat + k := by
    intro k hk
    rw [BitVec.toNat_add, BitVec.toNat_ofNat]
    omega
  have hdword : value m.memory ⟨(m.reg .rsp).toNat + 104, 4⟩ = top.toNat % 2 ^ 32 := by
    rw [Fields.value_low _ _ 4 4, htop]
    rfl
  unfold argumentOps codeOps
  cases hcode : expectsCode n with
  | true =>
    refine ⟨?_, ?_, ?_, ?_, ?_, ?_, ?_, ?_⟩
    all_goals simp [Op.effect, Cpu.setReg, Cpu.address, indirect, haddress, hsecond, hdword, Width.bytes, Width.merge,
      hcode]
  | false =>
    refine ⟨?_, ?_, ?_, ?_, ?_, ?_, ?_, ?_⟩
    all_goals simp [Op.effect, Cpu.setReg, Cpu.address, indirect, haddress, htop, Width.bytes, Width.merge, hcode]

/-- The entry of an exception runs up to its call, on top of what the processor has pushed. -/
theorem runs_exception {top second : Qword} (hroom : 104 ≤ (m.reg .rsp).toNat) (hlow : (m.reg .rsp).toNat + 8 < 2 ^ 64)
    (hstack : OnStack m.memory (m.reg .rsp).toNat [top, second]) :
    ∃ m', Runs env (m, .before (Entry.text (.exception n))) (m', .before [.call .interrupt_Handler]) ∧
      arguments m' = report m n (if expectsCode n then top.toNat % 2 ^ 32 else 0)
        (if expectsCode n then second.toNat else top.toNat) (m.reg .rsp).toNat := by
  obtain ⟨m₁, hm₁, hkept, hrsp, hwords⟩ := block_saved env hroom hstack
  have hget : ∀ k (hk : k < 15), value m₁.memory ⟨(m₁.reg .rsp).toNat + 8 * k, 8⟩ =
      ((reported m top second).get ⟨k, hk⟩).toNat := fun k hk => hwords.get hk
  have hregisters : InRegisters m₁ (block env m₁ (argumentOps n)) n top second :=
    block_arguments env n (by omega) (hget 13 (by decide)) (hget 14 (by decide))
  obtain ⟨m₂, hm₂⟩ : ∃ m₂, m₂ = block env m₁ (argumentOps n) := ⟨_, rfl⟩
  rw [← hm₂] at hregisters
  refine ⟨m₂, ?_, ?_⟩
  · rw [hm₂, ← hm₁, ← block_append]
    exact runs_block _
  · have hn : n.val % 2 ^ 64 % 2 ^ 32 = n := by
      have := n.isLt
      omega
    have hrip : (if expectsCode n then second else top).toNat = if expectsCode n then second.toNat else top.toNat := by
      split <;> rfl
    simp only [arguments, report, hregisters.memory, hregisters.rsp, hregisters.vec, hregisters.errcode,
      hregisters.rip, hregisters.rax, hregisters.rbx, hregisters.rcx, hrip, BitVec.toNat_ofNat, hn,
      hkept .rax (by decide) (by decide), hkept .rbx (by decide) (by decide), hkept .rcx (by decide) (by decide),
      hget 0 (by decide), hget 1 (by decide), hget 2 (by decide), hget 3 (by decide), hget 4 (by decide),
      hget 5 (by decide), hget 6 (by decide), hget 7 (by decide), hget 8 (by decide), hget 9 (by decide),
      hget 10 (by decide), hget 11 (by decide), hget 12 (by decide)]
    rfl

end Exceptions

/-! ### Through the table -/

/-- A linked kernel, for the entries of this file. -/
structure Linked (σ : Type) where
  entry : Entry → Qword
  fetch : Qword → Option (List (Line Entry))
  fetch_entry : ∀ e, Entry.text e ≠ [] → fetch (entry e) = some e.text
  /-- Where a line of `Syscall` is. -/
  addressOf : List (Line Entry) → Qword
  fetch_addressOf : fetch (addressOf [.ret]) = some [.ret]
  foreign : Entry → Cpu σ → Option (Cpu σ)
  status : Cpu σ → Qword
  input : Cpu σ → Nat → UInt8

def Linked.env {σ : Type} (link : Linked σ) : Env Entry σ where
  find := Entry.text
  fetch := link.fetch
  addressOf := link.addressOf
  foreign := link.foreign
  status := link.status
  input := link.input
  idt := kernelIdtMapping

/-! ### A link to run -/

def blankEntry : Entry → Qword
  | .exception n => BitVec.ofNat 64 (0x100 + n)
  | .int128 => 0x200
  | .syscall => 0x210
  | .interrupt_Handler => 0x220
  | .interrupt_Handler128 => 0x230

def entries : List Entry :=
  (List.finRange 32).map .exception ++ [.int128, .syscall, .interrupt_Handler, .interrupt_Handler128]

def blankFetch (rip : Qword) : Option (List (Line Entry)) :=
  if rip = 0x240 then some [.ret] else (entries.find? fun e => blankEntry e = rip).map Entry.text

theorem find_blankEntry (e : Entry) :
    blankEntry e ≠ 0x240 ∧ entries.find? (fun e' => blankEntry e' = blankEntry e) = some e := by
  cases e with
  | exception n =>
    revert n
    decide
  | _ => decide

/-- `interrupt_Handler128` leaves something in `rax`. -/
def blankLinked : Linked Unit where
  entry := blankEntry
  fetch := blankFetch
  fetch_entry e _ := by rw [blankFetch, if_neg (find_blankEntry e).1, (find_blankEntry e).2, Option.map_some]
  addressOf _ := 0x240
  fetch_addressOf := rfl
  foreign
    | .interrupt_Handler128, m => some (m.setReg .rax 0)
    | _, _ => none
  status _ := 0
  input _ _ := 0

/-- A table with one entry, and on the stack a return address and a word behind it. -/
def blankMemory (vector : Nat) (e : Entry) : Nat → UInt8 :=
  mapHandler (setAll (fun _ => 0) [(⟨0x8000, 8⟩, 0x5000), (⟨0x8008, 8⟩, 7)]) (blankEntry e) vector

def blankCpu (memory : Nat → UInt8) : Cpu Unit where
  reg _ := 0x8000
  rflags := 0x202
  ss := 0x10
  cs := 0x08
  memory
  ports := []
  foreign := ()

theorem blankCpu_aligned (memory : Nat → UInt8) : (blankCpu memory).aligned.toNat = 0x8000 := by
  change (0x8000 &&& ~~~0xf : Qword).toNat = 0x8000
  decide

section Through

variable {σ : Type} {link : Linked σ} {m : Cpu σ}

/-- The entry of a vector in the table -/
def HasGate (link : Linked σ) (m : Cpu σ) (vector : Nat) (e : Entry) : Prop :=
  gate m.memory (entryAddress vector) = ⟨(link.entry e).toNat, gdtExecSelector, 0x8e00⟩

theorem deliver_installed {vector : Nat} {e : Entry} (h : HasGate link m vector e) (rip : Qword) :
    deliver link.env m rip vector = some (m.enter rip gdtExecSelector, .at (link.entry e)) := by
  have hgate : gate m.memory (link.env.idt + 16 * vector) = _ := h
  have hinterrupt : Gate.Interrupt ⟨(link.entry e).toNat, gdtExecSelector, 0x8e00⟩ := rfl
  rw [deliver, hgate, if_pos hinterrupt, BitVec.ofNat_toNat, BitVec.setWidth_eq]

theorem exception_text_ne (n : Fin 32) : Entry.text (.exception n) ≠ [] := by
  simp [Entry.text, Entry.text.followedBy, exceptionOps, saveOps]

theorem pushesCode_of_expectsCode (n : Fin 32) : expectsCode n = true → pushesCode n = true := by
  revert n
  decide

/-- **Exceptions are reported.** An exception calls `interrupt_Handler` with the registers of the context that
was interrupted, but for `rsp`, which is where the processor left it. The error code and the instruction
pointer are right unless the processor pushes a code that the entry does not expect. -/
theorem exception_reports (n : Fin 32) (rip : Qword) (code : BitVec 32) (hgate : HasGate link m n (.exception n))
    (hroom : 152 ≤ m.aligned.toNat) :
    ∃ s m', deliverException link.env m rip n code = some s ∧
      Runs link.env s (m', .before [.call .interrupt_Handler]) ∧
      arguments m' = report m n (if expectsCode n then code.toNat else 0)
        (if pushesCode n = expectsCode n then rip.toNat else code.toNat)
        (m.aligned.toNat - if pushesCode n then 48 else 40) := by
  have hentered := Cpu.enter_entered (m := m) rip gdtExecSelector (by omega)
  obtain ⟨m₁, hm₁⟩ : ∃ m₁, m₁ = m.enter rip gdtExecSelector := ⟨_, rfl⟩
  rw [← hm₁] at hentered
  have hdeliver := deliver_installed hgate rip
  rw [← hm₁] at hdeliver
  have hrsp := hentered.rsp
  have hlt := m.aligned.isLt
  have hreport : ∀ m₂ : Cpu σ, (∀ r, r ≠ .rsp → m₂.reg r = m₁.reg r) → ∀ e i p,
      report m₂ n e i p = report m n e i p := by
    intro m₂ hm₂ e i p
    have hreg : ∀ r, r ≠ .rsp → m₂.reg r = m.reg r := fun r hr => by
      rw [hm₂ r hr, hentered.reg, Function.update_of_ne hr]
    simp [report, hreg]
  have hfetch : ∀ m₂, Runs link.env (m₂, .at (link.entry (.exception n)))
      (m₂, .before (Entry.text (.exception n))) := fun m₂ =>
    runs_fetch (link.fetch_entry _ (exception_text_ne n))
  cases hpushes : pushesCode n with
  | true =>
    obtain ⟨m₂, hm₂⟩ : ∃ m₂, m₂ = m₁.push (code.setWidth 64) := ⟨_, rfl⟩
    have hrsp₂ : (m₂.reg .rsp).toNat = m.aligned.toNat - 48 := by
      rw [hm₂, Cpu.push_rsp, toNat_sub_eight (by omega)]
      omega
    have hstack : OnStack m₂.memory (m₂.reg .rsp).toNat [code.setWidth 64, rip] := by
      have hall := Cpu.onStack_push (v := code.setWidth 64) hentered.frame (by omega)
      rw [hm₂, Cpu.push_rsp]
      exact ⟨hall.1, hall.2.1, trivial⟩
    obtain ⟨m', hrun, hargs⟩ := runs_exception link.env (n := n) (by omega) (by omega) hstack
    refine ⟨(m₂, .at (link.entry (.exception n))), m', ?_, (hfetch m₂).trans hrun, ?_⟩
    · simp [deliverException, hdeliver, hpushes, hm₂]
    · rw [hargs, hreport m₂ fun r hr => hm₂ ▸ Cpu.push_reg_of_ne hr _]
      have hcode : (code.setWidth 64).toNat = code.toNat := by
        rw [BitVec.toNat_setWidth]
        exact Nat.mod_eq_of_lt (code.isLt.trans (by decide))
      have hlow : code.toNat % 2 ^ 32 = code.toNat := Nat.mod_eq_of_lt code.isLt
      rw [hcode, hlow]
      cases hexpects : expectsCode n <;> simp [hrsp₂]
  | false =>
    have hexpects : expectsCode n = false :=
      Bool.eq_false_iff.mpr fun h => Bool.false_ne_true (hpushes.symm.trans (pushesCode_of_expectsCode n h))
    have hstack : OnStack m₁.memory (m₁.reg .rsp).toNat [rip, m.cs.setWidth 64] :=
      ⟨hentered.frame.1, hentered.frame.2.1, trivial⟩
    obtain ⟨m', hrun, hargs⟩ := runs_exception link.env (n := n) (by omega) (by omega) hstack
    refine ⟨(m₁, .at (link.entry (.exception n))), m', ?_, (hfetch m₁).trans hrun, ?_⟩
    · simp [deliverException, hdeliver, hpushes]
    · rw [hargs, hreport m₁ fun _ _ => rfl, hexpects]
      have hrsp₁ : (m₁.reg .rsp).toNat = m.aligned.toNat - 40 := by omega
      simp [hrsp₁]

theorem exception_reports_blank :
    ∃ s m', deliverException blankLinked.env (blankCpu (blankMemory 8 (.exception 8))) 0x5000 8 0 = some s ∧
      Runs blankLinked.env s (m', .before [.call .interrupt_Handler]) ∧
      (arguments m').vec = 8 ∧ (arguments m').rip = 0 ∧ (arguments m').rsp = 0x7fd0 := by
  have hgate : HasGate blankLinked (blankCpu (blankMemory 8 (.exception 8))) 8 (.exception 8) := gate_mapHandler
  obtain ⟨s, m', hdeliver, hrun, hreport⟩ :=
    exception_reports 8 0x5000 0 hgate (by rw [blankCpu_aligned]; decide)
  refine ⟨s, m', hdeliver, hrun, ?_⟩
  rw [hreport, blankCpu_aligned]
  exact ⟨rfl, rfl, rfl⟩

/-- The arguments of `Syscall`, the last of which is behind the return address. -/
structure SyscallArgs where
  (id a b c d e f : Qword)

/-- A call of `Syscall` -/
structure CallsSyscall (m : Cpu σ) (x : SyscallArgs) (ret : Qword) : Prop where
  id : m.reg .rdi = x.id
  a : m.reg .rsi = x.a
  b : m.reg .rdx = x.b
  c : m.reg .rcx = x.c
  d : m.reg .r8 = x.d
  e : m.reg .r9 = x.e
  stack : OnStack m.memory (m.reg .rsp).toNat [ret, x.f]

/-- The processor in front of the call of `interrupt_Handler128`. -/
structure CallsHandler128 (link : Linked σ) (m : Cpu σ) (x : SyscallArgs) (m' : Cpu σ) : Prop where
  opcode : m'.reg .rax = x.id
  a : m'.reg .rdi = x.a
  b : m'.reg .rsi = x.b
  c : m'.reg .rdx = x.c
  d : m'.reg .rcx = x.d
  e : m'.reg .r8 = x.e
  f : m'.reg .r9 = x.f
  kept : ∀ r ∈ calleeSaved, r ≠ .rsp → m'.reg r = m.reg r
  rsp : (m'.reg .rsp).toNat + 40 = m.aligned.toNat
  frame : OnStack m'.memory (m'.reg .rsp).toNat
    [link.addressOf [.ret], m.cs.setWidth 64, m.rflags, m.reg .rsp, m.ss.setWidth 64]
  memory : ∀ i ∉ Set.Ico (m'.reg .rsp).toNat m.aligned.toNat, m'.memory i = m.memory i

variable {x : SyscallArgs} {ret rip : Qword}

/-- The arguments are where `interrupt_Handler128` has its own. -/
theorem block_syscall (link : Linked σ) (h : CallsSyscall m x ret) (hroom : (m.reg .rsp).toNat + 16 < 2 ^ 64) :
    ∃ m', block link.env m syscallOps = m' ∧
      (∀ r ∈ calleeSaved, m'.reg r = m.reg r) ∧ m'.memory = m.memory ∧ m'.rflags = m.rflags ∧ m'.ss = m.ss ∧
      m'.cs = m.cs ∧ m'.reg .rax = x.id ∧ m'.reg .rdi = x.a ∧ m'.reg .rsi = x.b ∧ m'.reg .rdx = x.c ∧
      m'.reg .rcx = x.d ∧ m'.reg .r8 = x.e ∧ m'.reg .r9 = x.f := by
  have hlast : value m.memory ⟨(m.reg .rsp + 8#64).toNat, 8⟩ = x.f.toNat := by
    have hrsp : (m.reg .rsp + 8#64).toNat = (m.reg .rsp).toNat + 8 := toNat_add_eight (by omega)
    rw [hrsp]
    exact h.stack.2.1
  refine ⟨_, rfl, ?_, rfl, rfl, rfl, rfl, h.id, h.a, h.b, h.c, h.d, h.e, ?_⟩
  · simp [calleeSaved, syscallOps, Op.effect, Cpu.setReg]
  · have hload : (block link.env m syscallOps).reg .r9 =
        BitVec.ofNat 64 (value m.memory ⟨(m.reg .rsp + 8#64).toNat, 8⟩) := rfl
    rw [hload, hlast, BitVec.ofNat_toNat, BitVec.setWidth_eq]

theorem syscall_calls (h : CallsSyscall m x ret) (hgate : HasGate link m 128 .int128) (hlow : 40 ≤ m.aligned.toNat)
    (hroom : (m.reg .rsp).toNat + 16 < 2 ^ 64) :
    ∃ m', Runs link.env (m, .at (link.entry .syscall)) (m', .before [.call .interrupt_Handler128, .iret]) ∧
      CallsHandler128 link m x m' := by
  obtain ⟨m₁, hm₁, hkept, hmemory, hrflags, hss, hcs, hid, ha, hb, hc, hd, he, hf⟩ :=
    block_syscall link h hroom
  have haligned : m₁.aligned = m.aligned := by
    rw [Cpu.aligned, hkept .rsp (by decide), ← Cpu.aligned]
  have hgate₁ : HasGate link m₁ 128 .int128 := by
    rw [HasGate, hmemory]
    exact hgate
  obtain ⟨m₂, hm₂⟩ : ∃ m₂, m₂ = m₁.enter (link.addressOf [.ret]) gdtExecSelector := ⟨_, rfl⟩
  have hentered := Cpu.enter_entered (m := m₁) (link.addressOf [.ret]) gdtExecSelector (haligned ▸ hlow)
  rw [← hm₂] at hentered
  have hreg : ∀ r, r ≠ .rsp → m₂.reg r = m₁.reg r := fun r hr => by
    rw [hentered.reg, Function.update_of_ne hr]
  have hfetch : Runs link.env (m, .at (link.entry .syscall)) (m, .before (Entry.text .syscall)) :=
    runs_fetch (link.fetch_entry _ (by simp [Entry.text, Entry.text.followedBy, syscallOps]))
  have hblock : Runs link.env (m, .before (Entry.text .syscall)) (m₁, .before [.int 0x80, .ret]) :=
    hm₁ ▸ runs_block syscallOps
  have hint : Runs link.env (m₁, .before [.int 0x80, .ret]) (m₂, .at (link.entry .int128)) := by
    refine Runs.single ?_
    rw [hm₂]
    exact deliver_installed hgate₁ _
  have hhandler : Runs link.env (m₂, .at (link.entry .int128)) (m₂, .before (Entry.text .int128)) :=
    runs_fetch (link.fetch_entry _ (by simp [Entry.text]))
  refine ⟨m₂, hfetch.trans (hblock.trans (hint.trans hhandler)), ?_⟩
  constructor
  case kept =>
    intro r hr hs
    exact (hreg r hs).trans (hkept r hr)
  case rsp => rw [hentered.rsp, haligned]
  case frame =>
    have hframe := hentered.frame
    rwa [hcs, hrflags, hkept .rsp (by decide), hss] at hframe
  case memory =>
    intro i hi
    rw [← hmemory]
    exact hentered.memory i (haligned ▸ hi)
  all_goals rwa [hreg _ (by decide)]

/-- **A system call** calls `interrupt_Handler128` with the arguments of `Syscall` in their order. Whatever that
function does with the registers that it may use, `Syscall` returns, and what its caller relies on is
left. -/
theorem syscall_returns (h : CallsSyscall m x ret) (hgate : HasGate link m 128 .int128)
    (hlow : 40 ≤ m.aligned.toNat) (hroom : (m.reg .rsp).toNat + 16 < 2 ^ 64) :
    ∃ m₁, Runs link.env (m, .at (link.entry .syscall)) (m₁, .before [.call .interrupt_Handler128, .iret]) ∧
      CallsHandler128 link m x m₁ ∧
      ∀ m₂, link.foreign .interrupt_Handler128 m₁ = some m₂ → ReturnsTo ((m.reg .rsp).toNat + 8) m₁ m₂ →
        ∃ m₃ m₄, Runs link.env (m₁, .before [.call .interrupt_Handler128, .iret])
            (m₃, .returned (link.addressOf [.ret])) ∧
          Runs link.env (m₃, .at (link.addressOf [.ret])) (m₄, .at ret) ∧
          (∀ r ∈ calleeSaved, r ≠ .rsp → m₄.reg r = m.reg r) ∧ m₄.reg .rsp = m.reg .rsp + 8 ∧
          m₄.rflags = m.rflags ∧ m₄.ss = m.ss ∧ m₄.cs = m.cs ∧ m₄.memory = m₂.memory ∧ m₄.foreign = m₂.foreign := by
  obtain ⟨m₁, hrun, hcalls⟩ := syscall_calls h hgate hlow hroom
  refine ⟨m₁, hrun, hcalls, fun m₂ hcall hreturns => ?_⟩
  have hsum := hcalls.rsp
  have haligned := m.aligned_le
  have hrsp₂ : m₂.reg .rsp = m₁.reg .rsp := hreturns.reg .rsp (by decide)
  have hframe : OnStack m₂.memory (m₂.reg .rsp).toNat
      [link.addressOf [.ret], m.cs.setWidth 64, m.rflags, m.reg .rsp, m.ss.setWidth 64] := by
    rw [hrsp₂]
    refine hcalls.frame.congr fun i hi => hreturns.stack i ⟨hi.1, ?_⟩
    have hlt := hi.2
    simp only [List.length_cons, List.length_nil] at hlt
    omega
  have hiret : Runs link.env (m₁, .before [.call .interrupt_Handler128, .iret])
      (m₂.leave.1, .returned m₂.leave.2) := (runs_call hcall).trans runs_iret
  rw [Cpu.leave_eq hframe (by rw [hrsp₂]; omega)] at hiret
  obtain ⟨m₃, hm₃⟩ : ∃ m₃ : Cpu σ, m₃ = { m₂ with
      reg := Function.update m₂.reg .rsp (m.reg .rsp)
      rflags := m.rflags
      cs := (m.cs.setWidth 64).setWidth 16
      ss := (m.ss.setWidth 64).setWidth 16 } := ⟨_, rfl⟩
  rw [← hm₃] at hiret
  have hrsp₃ : m₃.reg .rsp = m.reg .rsp := by simp only [hm₃, Function.update_self]
  have htop : m₃.top = ret := by
    have hret : value m₃.memory ⟨(m.reg .rsp).toNat, 8⟩ = ret.toNat := by
      rw [← h.stack.1, hm₃]
      refine (value_congr fun i hi => ?_).trans (value_congr fun i hi => hcalls.memory i fun hin => ?_)
      · exact hreturns.stack i ⟨by have := hi.1; dsimp only at this; omega, hi.2⟩
      · have hle := hi.1
        have hlt := hin.2
        dsimp only at hle
        omega
    rw [Cpu.top, hrsp₃, hret, BitVec.ofNat_toNat, BitVec.setWidth_eq]
  refine ⟨m₃, m₃.dropTop, hiret, ?_, fun r hr hs => ?_, ?_, ?_⟩
  · refine (runs_fetch link.fetch_addressOf).trans (Runs.single ?_)
    rw [← htop]
    rfl
  · have hkept : m₂.reg r = m.reg r := (hreturns.reg r hr).trans (hcalls.kept r hr hs)
    rw [← hkept, Cpu.dropTop, Cpu.setReg_of_ne hs]
    simp only [hm₃, Function.update_of_ne hs]
  · rw [Cpu.dropTop_rsp, hrsp₃]
  · simp [hm₃, Cpu.dropTop, Cpu.setReg]

theorem syscall_returns_blank :
    ∃ m₁ m₃ m₄, Runs blankLinked.env (blankCpu (blankMemory 128 .int128), .at 0x210)
        (m₁, .before [.call .interrupt_Handler128, .iret]) ∧
      m₁.reg .r9 = 7 ∧
      Runs blankLinked.env (m₁, .before [.call .interrupt_Handler128, .iret]) (m₃, .returned 0x240) ∧
      Runs blankLinked.env (m₃, .at 0x240) (m₄, .at 0x5000) ∧ m₄.reg .rsp = 0x8008 := by
  have hvalue : ∀ a, a + 8 < 2 ^ 32 → value (blankMemory 128 .int128) ⟨a, 8⟩ =
      value (setAll (fun _ => 0) [(⟨0x8000, 8⟩, 0x5000), (⟨0x8008, 8⟩, 7)]) ⟨a, 8⟩ := fun a ha =>
    value_congr fun i hi => mapHandler_outside fun hi' => by
      have hlt := hi.2
      have hle := hi'.1
      unfold entryAddress kernelIdtMapping at hle
      dsimp only at hlt hle
      omega
  have hcalls : CallsSyscall (blankCpu (blankMemory 128 .int128)) ⟨0x8000, 0x8000, 0x8000, 0x8000, 0x8000, 0x8000, 7⟩
      0x5000 := by
    refine ⟨rfl, rfl, rfl, rfl, rfl, rfl, (hvalue 0x8000 (by decide)).trans ?_, (hvalue 0x8008 (by decide)).trans ?_,
      trivial⟩
    all_goals decide
  have hgate : HasGate blankLinked (blankCpu (blankMemory 128 .int128)) 128 .int128 := gate_mapHandler
  obtain ⟨m₁, hrun, hargs, hreturn⟩ := syscall_returns hcalls hgate (by rw [blankCpu_aligned]; decide) (by decide)
  obtain ⟨m₃, m₄, hiret, hret, -, hrsp, -⟩ :=
    hreturn _ rfl ⟨by simp [calleeSaved, Cpu.setReg], fun _ _ => rfl⟩
  exact ⟨m₁, m₃, m₄, hrun, hargs.f, hiret, hret, hrsp⟩

end Through

end Helos.Interrupt
