import Helos.Smp.ContextSwitch

/-!
# The interrupt table

`interrupt_MapHandler` of `map_handler.S`, which writes an entry of the table, and what the functions that
set interrupts up leave in memory: `interrupt_Init`, `irq_pic_Init`, `pic_rtc_Init` and
`pic_rtc_SetHandler`.
-/

namespace Helos.Interrupt

open Assembly Fields IntSwitch

/-! ### An entry -/

def gdtExecSelector : Nat := 0x10

/-- Where the entry of an interrupt is. -/
def entryAddress (interrupt : Nat) : Nat := kernelIdtMapping + 16 * interrupt

/-- The parts of an entry. What is behind the offset is reserved. -/
def parts (a handler : Nat) : List (Field × Nat) :=
  [(⟨a, 2⟩, handler), (⟨a + 2, 2⟩, gdtExecSelector), (⟨a + 4, 2⟩, 0x8e00), (⟨a + 6, 2⟩, handler / 2 ^ 16),
    (⟨a + 8, 8⟩, handler / 2 ^ 32)]

/-- Memory after `interrupt_MapHandler`. -/
def mapHandler (memory : Nat → UInt8) (handler : Qword) (interrupt : Nat) : Nat → UInt8 :=
  setAll memory (parts (entryAddress interrupt) handler.toNat)

section MapHandler

variable {ι σ : Type} {env : Env ι σ} {m : Cpu σ} {interrupt : Nat}

/-- `[r+k]` -/
def indirect (r : Reg) (k : Nat) : Address := ⟨some r, k⟩

def mapHandlerAddress : List Op := [.movImm .qword .rax kernelIdtMapping, .shl .rsi 4, .add .rsi .rax]

def mapHandlerStores : List Op :=
  [ .store .word (indirect .rsi 0) .rdi,
    .storeImm .word (indirect .rsi 2) gdtExecSelector,
    .storeImm .word (indirect .rsi 4) 0x8e00,
    .shr .rdi 16,
    .store .word (indirect .rsi 6) .rdi,
    .shr .rdi 16,
    .store .qword (indirect .rsi 8) .rdi ]

/-- The text of `interrupt_MapHandler` -/
def mapHandlerText : List (Line ι) := (mapHandlerAddress ++ mapHandlerStores).map Line.op ++ [.ret]

theorem toNat_entryAddress (h : interrupt < 256) :
    ((BitVec.ofNat 64 interrupt <<< 4) + BitVec.ofNat 64 kernelIdtMapping).toNat = entryAddress interrupt := by
  have hlow : (BitVec.ofNat 64 interrupt <<< 4).toNat = 16 * interrupt := by
    rw [BitVec.toNat_shiftLeft, BitVec.toNat_ofNat, Nat.shiftLeft_eq]
    omega
  have hbase : (BitVec.ofNat 64 kernelIdtMapping).toNat = kernelIdtMapping := rfl
  rw [BitVec.toNat_add, hlow, hbase, entryAddress]
  unfold kernelIdtMapping
  omega

/-- A processor that `interrupt_MapHandler` leaves. -/
structure Mapped (m m' : Cpu σ) (interrupt : Nat) : Prop where
  memory : m'.memory = mapHandler m.memory (m.reg .rdi) interrupt
  reg : ∀ r, r ≠ .rax → r ≠ .rsi → r ≠ .rdi → m'.reg r = m.reg r
  interrupts : m'.interrupts = m.interrupts
  ports : m'.ports = m.ports
  foreign : m'.foreign = m.foreign

theorem block_mapHandler (h : interrupt < 256) (hrsi : m.reg .rsi = BitVec.ofNat 64 interrupt) :
    Mapped m (block env m (mapHandlerAddress ++ mapHandlerStores)) interrupt := by
  have hmasks : ∀ o ∈ mapHandlerAddress ++ mapHandlerStores, ¬ o.Masks := by
    simp [mapHandlerAddress, mapHandlerStores, Op.Masks]
  refine ⟨?_, fun r hr hs hd => ?_, interrupts_block hmasks, rfl, foreign_block _⟩
  · obtain ⟨m₁, hm₁⟩ : ∃ m₁, m₁ = block env m mapHandlerAddress := ⟨_, rfl⟩
    rw [block_append, ← hm₁]
    have ha : (m₁.reg .rsi).toNat = entryAddress interrupt := by
      rw [← toNat_entryAddress h, ← hrsi, hm₁]
      rfl
    have hrdi : m₁.reg .rdi = m.reg .rdi := by
      rw [hm₁]
      rfl
    have hmemory : m₁.memory = m.memory := by
      rw [hm₁]
      rfl
    have haddress : ∀ k, k ≤ 8 → (m₁.reg .rsi + BitVec.ofNat 64 k).toNat = entryAddress interrupt + k := by
      intro k hk
      have hroom : entryAddress interrupt + 8 < 2 ^ 64 := by
        unfold entryAddress kernelIdtMapping
        omega
      rw [BitVec.toNat_add, ha, BitVec.toNat_ofNat]
      omega
    have hshift : ∀ v : Qword, (v >>> 16).toNat = v.toNat / 2 ^ 16 := fun v => by
      rw [BitVec.toNat_ushiftRight, Nat.shiftRight_eq_div_pow]
    simp only [mapHandlerStores, block_cons, block_nil, Op.effect, Cpu.address, indirect, Cpu.setReg,
      Cpu.reg_setZero, Cpu.memory_setZero, Width.bytes_word, Width.bytes_qword]
    simp [haddress, hshift, hmemory, hrdi]
    rw [ha, mapHandler, Nat.shiftRight_eq_div_pow]
    rfl
  · simp [mapHandlerAddress, mapHandlerStores, Op.effect, Cpu.setReg, hr, hs, hd]

theorem parts_consecutive (a handler : Nat) : (parts a handler).map Prod.fst = consecutive a [2, 2, 2, 2, 8] := rfl

theorem parts_apart (a handler : Nat) :
    (parts a handler).Pairwise fun x y => Disjoint x.1.cells y.1.cells := by
  have h := consecutive_apart a [2, 2, 2, 2, 8]
  rw [← parts_consecutive a handler, List.pairwise_map] at h
  exact h

/-- An entry is written in its 16 bytes. -/
theorem mapHandler_outside {memory : Nat → UInt8} {handler : Qword} {i : Nat}
    (h : i ∉ Field.cells ⟨entryAddress interrupt, 16⟩) : mapHandler memory handler interrupt i = memory i := by
  refine setAll_outside fun x hx hi => h ?_
  have hmem := parts_consecutive (entryAddress interrupt) handler.toNat ▸ List.mem_map_of_mem hx
  have hlow := le_of_mem_consecutive hmem
  have hhigh := le_sum_of_mem_consecutive hmem
  simp only [List.sum_cons, List.sum_nil] at hhigh
  have hle := hi.1
  have hlt := hi.2
  exact ⟨by dsimp only; omega, by dsimp only; omega⟩

theorem entry_within (h : interrupt < 256) :
    Field.cells ⟨entryAddress interrupt, 16⟩ ⊆ Field.cells ⟨kernelIdtMapping, 4096⟩ := by
  rintro i ⟨hle, hlt⟩
  unfold entryAddress at hle hlt
  dsimp only at hle hlt
  exact ⟨by dsimp only; omega, by dsimp only; omega⟩

/-- `interrupt_MapHandler` returns with the entry written. -/
theorem runs_mapHandler {ret : Qword} (h : interrupt < 256) (hrsi : m.reg .rsi = BitVec.ofNat 64 interrupt)
    (hstack : value m.memory ⟨(m.reg .rsp).toNat, 8⟩ = ret.toNat)
    (hapart : Disjoint (Field.cells ⟨kernelIdtMapping, 4096⟩) (Field.cells ⟨(m.reg .rsp).toNat, 8⟩)) :
    ∃ m', Runs env (m, .before mapHandlerText) (m'.dropTop, .at ret) ∧ Mapped m m' interrupt := by
  obtain ⟨m', hm'⟩ : ∃ m', m' = block env m (mapHandlerAddress ++ mapHandlerStores) := ⟨_, rfl⟩
  have hmapped : Mapped m m' interrupt := hm' ▸ block_mapHandler h hrsi
  have hrsp : m'.reg .rsp = m.reg .rsp := hmapped.reg .rsp (by decide) (by decide) (by decide)
  have htop : m'.top = ret := by
    have hsame : value m'.memory ⟨(m.reg .rsp).toNat, 8⟩ = ret.toNat := by
      rw [hmapped.memory, ← hstack]
      refine value_congr fun i hi => mapHandler_outside fun hi' => ?_
      exact Set.disjoint_left.mp hapart (entry_within h hi') hi
    rw [Cpu.top, hrsp, hsame, BitVec.ofNat_toNat, BitVec.setWidth_eq]
  refine ⟨m', ?_, hmapped⟩
  have hblock : Runs env (m, .before mapHandlerText) (m', .before [.ret]) := by
    rw [hm']
    exact runs_block _
  refine hblock.trans (htop ▸ ?_)
  exact Runs.single rfl

end MapHandler

/-! ### The table -/

section Table

variable {memory : Nat → UInt8} {handler : Qword} {interrupt k : Nat}

theorem gate_mapHandler : gate (mapHandler memory handler interrupt) (entryAddress interrupt) =
    ⟨handler.toNat, gdtExecSelector, 0x8e00⟩ := by
  have hread : ∀ x ∈ parts (entryAddress interrupt) handler.toNat,
      value (mapHandler memory handler interrupt) x.1 = x.2 % 256 ^ x.1.width := fun x hx =>
    value_setAll (parts_apart _ _) hx
  simp only [parts, List.forall_mem_cons] at hread
  obtain ⟨h₀, h₁, h₂, h₃, h₄, -⟩ := hread
  have hlt := handler.isLt
  have hhigh : value (mapHandler memory handler interrupt) ⟨entryAddress interrupt + 8, 4⟩ =
      handler.toNat / 2 ^ 32 := by
    rw [value_low _ _ 4 4, h₄]
    omega
  rw [gate, h₀, h₁, h₂, h₃, hhigh]
  simp only [Gate.mk.injEq]
  exact ⟨by omega, rfl, rfl⟩

/-- The other entries are left alone. -/
theorem gate_mapHandler_of_ne (h : k ≠ interrupt) :
    gate (mapHandler memory handler interrupt) (entryAddress k) = gate memory (entryAddress k) := by
  have hvalue : ∀ j w, j + w ≤ 16 →
      value (mapHandler memory handler interrupt) ⟨entryAddress k + j, w⟩ = value memory ⟨entryAddress k + j, w⟩ := by
    intro j w hw
    refine value_congr fun i hi => mapHandler_outside fun hi' => ?_
    have hle := hi.1
    have hlt := hi.2
    have hle' := hi'.1
    have hlt' := hi'.2
    unfold entryAddress at hle hlt hle' hlt'
    dsimp only at hle hlt hle' hlt'
    omega
  have hfirst := hvalue 0 2 (by decide)
  rw [Nat.add_zero] at hfirst
  rw [gate, gate, hfirst, hvalue 6 2 (by decide), hvalue 8 4 (by decide), hvalue 2 2 (by decide),
    hvalue 4 2 (by decide)]

/-- Calls of `interrupt_MapHandler`, one after the other. -/
def mapAll (memory : Nat → UInt8) (calls : List (Qword × Nat)) : Nat → UInt8 :=
  calls.foldl (fun memory call => mapHandler memory call.1 call.2) memory

theorem mapAll_append (calls calls' : List (Qword × Nat)) :
    mapAll memory (calls ++ calls') = mapAll (mapAll memory calls) calls' := List.foldl_append

/-- The entry of an interrupt once some handlers were mapped: that of the last one that was mapped to it. -/
def lastGate (memory : Nat → UInt8) (calls : List (Qword × Nat)) (k : Nat) : Gate :=
  match calls.reverse.find? fun call => call.2 = k with
  | none => gate memory (entryAddress k)
  | some call => ⟨call.1.toNat, gdtExecSelector, 0x8e00⟩

theorem gate_mapAll (calls : List (Qword × Nat)) (k : Nat) :
    gate (mapAll memory calls) (entryAddress k) = lastGate memory calls k := by
  induction calls using List.reverseRecOn with
  | nil => rfl
  | append_singleton calls call ih =>
    rw [mapAll_append, lastGate, List.reverse_append, List.reverse_singleton, List.singleton_append,
      List.find?_cons]
    by_cases hk : call.2 = k
    · rw [decide_eq_true hk, ← hk]
      exact gate_mapHandler
    · rw [decide_eq_false hk]
      exact (gate_mapHandler_of_ne (Ne.symm hk)).trans ih

theorem mapAll_outside {calls : List (Qword × Nat)} (hcalls : ∀ call ∈ calls, call.2 < 256) {i : Nat}
    (h : i ∉ Field.cells ⟨kernelIdtMapping, 4096⟩) : mapAll memory calls i = memory i := by
  induction calls using List.reverseRecOn with
  | nil => rfl
  | append_singleton calls call ih =>
    have hlast := hcalls call (by simp)
    rw [mapAll_append]
    refine (mapHandler_outside fun hi => h (entry_within hlast hi)).trans ?_
    exact ih fun call' hcall' => hcalls call' (List.mem_append_left _ hcall')

theorem lastGate_of_mem {κ : Type} {f : κ → Qword} {g : κ → Nat} (hg : Function.Injective g) {ks : List κ} {j : κ}
    (hj : j ∈ ks) : lastGate memory (ks.map fun k => (f k, g k)) (g j) = ⟨(f j).toNat, gdtExecSelector, 0x8e00⟩ := by
  have hmem : (f j, g j) ∈ (ks.map fun k => (f k, g k)).reverse := List.mem_reverse.mpr (List.mem_map_of_mem hj)
  obtain ⟨call, hfind⟩ : ∃ call, (ks.map fun k => (f k, g k)).reverse.find? (fun call => call.2 = g j) = some call :=
    Option.isSome_iff_exists.mp (List.find?_isSome.mpr ⟨_, hmem, by simp⟩)
  obtain ⟨k, -, rfl⟩ := List.mem_map.mp (List.mem_reverse.mp (List.mem_of_find?_eq_some hfind))
  have hk := List.find?_some hfind
  rw [decide_eq_true_iff] at hk
  rw [lastGate, hfind, ← hg hk]

theorem lastGate_of_notMem {calls : List (Qword × Nat)} (h : ∀ call ∈ calls, call.2 ≠ k) :
    lastGate memory calls k = gate memory (entryAddress k) := by
  have hnone : calls.reverse.find? (fun call => call.2 = k) = none :=
    List.find?_eq_none.mpr fun call hcall => by simpa using h call (List.mem_reverse.mp hcall)
  rw [lastGate, hnone]

/-- An entry where memory is the same. -/
theorem gate_congr {memory' : Nat → UInt8} (hk : k < 256)
    (h : ∀ i ∈ Field.cells ⟨kernelIdtMapping, 4096⟩, memory' i = memory i) :
    gate memory' (entryAddress k) = gate memory (entryAddress k) := by
  have hvalue : ∀ j w, j + w ≤ 16 → value memory' ⟨entryAddress k + j, w⟩ = value memory ⟨entryAddress k + j, w⟩ := by
    intro j w hw
    refine value_congr fun i hi => h i (entry_within hk ⟨?_, ?_⟩)
    · exact Nat.le_trans (Nat.le_add_right _ _) hi.1
    · have hlt := hi.2
      dsimp only at hlt ⊢
      omega
  have hfirst := hvalue 0 2 (by decide)
  rw [Nat.add_zero] at hfirst
  rw [gate, gate, hfirst, hvalue 6 2 (by decide), hvalue 8 4 (by decide), hvalue 2 2 (by decide),
    hvalue 4 2 (by decide)]

end Table

/-! ### Setting up -/

section Setup

variable {σ : Type} (link : Link σ) (exceptions : Nat → Qword)

/-- `memset` to zero -/
def clear (memory : Nat → UInt8) (f : Field) : Nat → UInt8 := fun i =>
  if f.address ≤ i ∧ i < f.address + f.width then 0 else memory i

/-- The exceptions, and the system call. -/
def exceptionVectors : List Nat := List.range 32 ++ [128]

def tableField : Field := ⟨kernelIdtMapping, 4096⟩

def rawField (irq : Fin 16) : Field := ⟨link.sym.irqHandlerRaw + irq * 8, 8⟩

/-- The line of the clock -/
def clockLine : Fin 16 := ⟨8, by decide⟩

def exceptionCalls : List (Qword × Nat) := exceptionVectors.map fun n => (exceptions n, n)

def picCalls : List (Qword × Nat) :=
  (List.finRange 16).map fun irq => (link.entry (.intHandler irq), 0x20 + irq.val)

/-- `interrupt_Init`, as far as the table goes. -/
def interruptInit (memory : Nat → UInt8) : Nat → UInt8 :=
  mapAll (clear memory tableField) (exceptionCalls exceptions)

/-- `irq_pic_Init` -/
def picInit (memory : Nat → UInt8) : Nat → UInt8 :=
  mapAll (clear memory ⟨link.sym.irqHandlerRaw, 128⟩) (picCalls link)

structure Setup where
  memory : Nat → UInt8
  /-- `pic_rtc_Enabled` -/
  rtcEnabled : Bool

/-- What is called once the controllers are set up. Other code has `memory` everywhere but in the table and
in the variables of the handlers. -/
inductive Call where
  | rtcInit
  | rtcSetHandler (handler : Qword)
  | other (memory : Nat → UInt8)

def step (s : Setup) : Call → Setup
  | .rtcInit =>
    if s.rtcEnabled then s
    else
      { memory := set s.memory (rawField link clockLine) (link.entry .rtcIRQ8).toNat
        rtcEnabled := true }
  | .rtcSetHandler handler => { s with memory := set s.memory ⟨link.sym.rtcHandler, 8⟩ handler.toNat }
  | .other memory =>
    { s with
      memory := fun i =>
        if link.sym.fields.any fun f => f.address ≤ i && i < f.address + f.width then s.memory i else memory i }

/-- `kMain`, up to the controllers. -/
def boot (memory : Nat → UInt8) : Setup := ⟨picInit link (interruptInit exceptions memory), false⟩

def run (s : Setup) (calls : List Call) : Setup := calls.foldl (step link) s

/-- The entry of an interrupt once everything is set up. -/
def expectedGate (n : Nat) : Gate :=
  if h : 0x20 ≤ n ∧ n < 0x30 then ⟨(link.entry (.intHandler ⟨n - 0x20, by omega⟩)).toNat, gdtExecSelector, 0x8e00⟩
  else if n ∈ exceptionVectors then ⟨(exceptions n).toNat, gdtExecSelector, 0x8e00⟩
  else ⟨0, 0, 0⟩

/-- The handler that was set last. -/
def lastHandler : List Call → Option Qword
  | [] => none
  | .rtcSetHandler handler :: calls => (lastHandler calls).or (some handler)
  | _ :: calls => lastHandler calls

def rtcStarted (calls : List Call) : Bool := calls.any fun | .rtcInit => true | _ => false

theorem clear_outside {memory : Nat → UInt8} {f : Field} {i : Nat} (h : i ∉ f.cells) : clear memory f i = memory i :=
  if_neg h

theorem value_clear {memory : Nat → UInt8} {f g : Field} (h : g.cells ⊆ f.cells) : value (clear memory f) g = 0 :=
  value_zero fun _ hi => if_pos (h hi)

variable {link exceptions}

theorem fields_apart (link : Link σ) :
    Disjoint (Field.cells ⟨link.sym.irqHandlerRaw, 128⟩) tableField.cells ∧
      Disjoint (Field.cells ⟨link.sym.rtcHandler, 8⟩) tableField.cells ∧
      Disjoint (Field.cells ⟨link.sym.irqHandlerRaw, 128⟩) (Field.cells ⟨link.sym.rtcHandler, 8⟩) := by
  have h := link.apart
  simp only [Symbols.fields, List.pairwise_cons, List.forall_mem_cons] at h
  exact ⟨h.2.2.2.1.2.1, h.2.2.2.2.1.1, h.2.2.2.1.1⟩

theorem rawField_within (link : Link σ) (irq : Fin 16) :
    (rawField link irq).cells ⊆ Field.cells ⟨link.sym.irqHandlerRaw, 128⟩ := by
  rintro i ⟨hle, hlt⟩
  unfold rawField at hle hlt
  dsimp only at hle hlt
  have hirq := irq.isLt
  exact ⟨by dsimp only; omega, by dsimp only; omega⟩

theorem rawField_apart (link : Link σ) {irq irq' : Fin 16} (h : irq ≠ irq') :
    Disjoint (rawField link irq).cells (rawField link irq').cells := by
  have hne : irq.val ≠ irq'.val := fun heq => h (Fin.ext heq)
  refine Set.disjoint_left.mpr fun i hi hi' => ?_
  have hle := hi.1
  have hlt := hi.2
  have hle' := hi'.1
  have hlt' := hi'.2
  unfold rawField at hle hlt hle' hlt'
  dsimp only at hle hlt hle' hlt'
  omega

theorem gate_interruptInit {memory : Nat → UInt8} {n : Nat} (hn : n < 256) :
    gate (interruptInit exceptions memory) (entryAddress n) =
      if n ∈ exceptionVectors then ⟨(exceptions n).toNat, gdtExecSelector, 0x8e00⟩ else ⟨0, 0, 0⟩ := by
  rw [interruptInit, gate_mapAll]
  by_cases hmem : n ∈ exceptionVectors
  · rw [if_pos hmem]
    exact lastGate_of_mem (g := fun n => n) Function.injective_id hmem
  · rw [if_neg hmem, lastGate_of_notMem]
    · have hvalue : ∀ j w, j + w ≤ 16 → value (clear memory tableField) ⟨entryAddress n + j, w⟩ = 0 := by
        intro j w hw
        refine value_clear fun i hi => entry_within hn ⟨Nat.le_trans (Nat.le_add_right _ _) hi.1, ?_⟩
        have hlt := hi.2
        dsimp only at hlt ⊢
        omega
      have hfirst := hvalue 0 2 (by decide)
      rw [Nat.add_zero] at hfirst
      rw [gate, hfirst, hvalue 6 2 (by decide), hvalue 8 4 (by decide), hvalue 2 2 (by decide),
        hvalue 4 2 (by decide)]
      rfl
    · intro call hcall hk
      obtain ⟨j, hj, rfl⟩ := List.mem_map.mp hcall
      exact hmem (hk ▸ hj)

theorem picCalls_lt (call : Qword × Nat) (h : call ∈ picCalls link) : call.2 < 256 := by
  obtain ⟨irq, -, rfl⟩ := List.mem_map.mp h
  have hirq := irq.isLt
  dsimp only
  omega

theorem gate_boot (memory : Nat → UInt8) {n : Nat} (hn : n < 256) :
    gate (boot link exceptions memory).memory (entryAddress n) = expectedGate link exceptions n := by
  rw [boot]
  dsimp only
  rw [picInit, gate_mapAll]
  by_cases hirq : 0x20 ≤ n ∧ n < 0x30
  · rw [expectedGate, dif_pos hirq]
    have hinjective : Function.Injective fun irq : Fin 16 => 0x20 + irq.val := fun a b h =>
      Fin.ext (Nat.add_left_cancel h)
    have hindex : 0x20 + (n - 0x20) = n := Nat.add_sub_cancel' hirq.1
    have hlast : lastGate (clear (interruptInit exceptions memory) ⟨link.sym.irqHandlerRaw, 128⟩) (picCalls link)
        (0x20 + (n - 0x20)) = _ :=
      lastGate_of_mem hinjective (List.mem_finRange (⟨n - 0x20, by omega⟩ : Fin 16))
    rwa [hindex] at hlast
  · rw [expectedGate, dif_neg hirq, lastGate_of_notMem, ← gate_interruptInit hn]
    · refine gate_congr hn fun i hi => clear_outside ?_
      exact Set.disjoint_right.mp (fields_apart link).1 hi
    · intro call hcall hk
      obtain ⟨irq, -, rfl⟩ := List.mem_map.mp hcall
      have hlt := irq.isLt
      exact hirq ⟨hk ▸ Nat.le_add_right _ _, by dsimp only at hk; omega⟩

/-- What is in the table and in the variables of the handlers. -/
structure Tables (link : Link σ) (exceptions : Nat → Qword) (s : Setup) (started : Bool) (last : Option Qword) :
    Prop where
  gates : ∀ n < 256, gate s.memory (entryAddress n) = expectedGate link exceptions n
  raw : ∀ irq, value s.memory (rawField link irq) =
    if irq = clockLine ∧ started = true then (link.entry .rtcIRQ8).toNat else 0
  handler : ∀ handler, last = some handler → value s.memory ⟨link.sym.rtcHandler, 8⟩ = handler.toNat
  enabled : s.rtcEnabled = started

theorem tables_boot (memory : Nat → UInt8) :
    Tables link exceptions (boot link exceptions memory) false none := by
  refine ⟨fun n hn => gate_boot memory hn, fun irq => ?_, nofun, rfl⟩
  rw [if_neg (fun h => Bool.false_ne_true h.2), ← value_clear (rawField_within link irq)]
  refine value_congr fun i hi => mapAll_outside picCalls_lt ?_
  exact Set.disjoint_left.mp (fields_apart link).1 (rawField_within link irq hi)

theorem Tables.rtcInit {s : Setup} {started : Bool} {last : Option Qword} (h : Tables link exceptions s started last) :
    Tables link exceptions (step link s .rtcInit) true last := by
  rw [step]
  by_cases henabled : s.rtcEnabled = true
  · rw [if_pos henabled]
    rwa [h.enabled.symm.trans henabled] at h
  · rw [if_neg henabled]
    have hstarted : started = false := by
      rw [← h.enabled]
      exact Bool.eq_false_iff.mpr henabled
    subst hstarted
    obtain ⟨htable, -, hhandler⟩ := fields_apart link
    refine ⟨fun n hn => ?_, fun irq => ?_, fun handler hlast => ?_, rfl⟩
    · rw [← h.gates n hn]
      refine gate_congr hn fun i hi => set_outside fun hi' => ?_
      exact Set.disjoint_left.mp htable (rawField_within link clockLine hi') hi
    · by_cases hirq : irq = clockLine
      · rw [if_pos ⟨hirq, rfl⟩, hirq]
        exact (value_set _ _ _).trans (Nat.mod_eq_of_lt (link.entry .rtcIRQ8).isLt)
      · have hraw := h.raw irq
        rw [if_neg fun hp => hirq hp.1] at hraw ⊢
        exact (value_set_apart (rawField_apart link (Ne.symm hirq))).trans hraw
    · rw [← h.handler handler hlast]
      exact value_set_apart (hhandler.mono_left (rawField_within link clockLine))

theorem Tables.rtcSetHandler {s : Setup} {started : Bool} {last : Option Qword}
    (h : Tables link exceptions s started last) (handler : Qword) :
    Tables link exceptions (step link s (.rtcSetHandler handler)) started (some handler) := by
  obtain ⟨-, htable, hraw⟩ := fields_apart link
  refine ⟨fun n hn => ?_, fun irq => ?_, fun handler' hlast => ?_, h.enabled⟩
  · rw [← h.gates n hn]
    exact gate_congr hn fun i hi => set_outside fun hi' => Set.disjoint_left.mp htable hi' hi
  · rw [← h.raw irq]
    exact value_set_apart (hraw.mono_left (rawField_within link irq)).symm
  · obtain rfl := Option.some.inj hlast
    exact (value_set _ _ _).trans (Nat.mod_eq_of_lt handler.isLt)

theorem other_eq {s : Setup} {memory : Nat → UInt8} {f : Field} (hf : f ∈ link.sym.fields) {i : Nat}
    (hi : i ∈ f.cells) : (step link s (.other memory)).memory i = s.memory i := by
  have hany : link.sym.fields.any (fun f => f.address ≤ i && i < f.address + f.width) = true :=
    List.any_eq_true.mpr ⟨f, hf, by simpa using (show f.address ≤ i ∧ i < f.address + f.width from hi)⟩
  exact if_pos hany

theorem Tables.other {s : Setup} {started : Bool} {last : Option Qword} (h : Tables link exceptions s started last)
    (memory : Nat → UInt8) : Tables link exceptions (step link s (.other memory)) started last := by
  refine ⟨fun n hn => ?_, fun irq => ?_, fun handler hlast => ?_, h.enabled⟩
  · rw [← h.gates n hn]
    exact gate_congr hn fun i hi => other_eq (f := tableField) (by simp [Symbols.fields, tableField]) hi
  · rw [← h.raw irq]
    have hmem : ⟨link.sym.irqHandlerRaw, 128⟩ ∈ link.sym.fields := by simp [Symbols.fields]
    exact value_congr fun i hi => other_eq hmem (rawField_within link irq hi)
  · rw [← h.handler handler hlast]
    exact value_congr fun i hi => other_eq (by simp [Symbols.fields]) hi

theorem Tables.run {s : Setup} {started : Bool} {last : Option Qword} (h : Tables link exceptions s started last)
    (calls : List Call) :
    Tables link exceptions (run link s calls) (started || rtcStarted calls) ((lastHandler calls).or last) := by
  induction calls generalizing s started last with
  | nil =>
    rw [rtcStarted, List.any_nil, Bool.or_false]
    exact h
  | cons call calls ih =>
    cases call with
    | rtcInit => simpa [rtcStarted, lastHandler, Interrupt.run] using ih h.rtcInit
    | rtcSetHandler handler =>
      simpa [rtcStarted, lastHandler, Interrupt.run, Option.or_assoc] using ih (h.rtcSetHandler handler)
    | other memory => simpa [rtcStarted, lastHandler, Interrupt.run] using ih (h.other memory)

/-- **Setting up wires the interrupts.** After `kMain` has set up the table and the controllers, and
whatever is called after that, every exception and every line has its own entry and all others are absent.
A processor with room on its stack is connected to the devices on all lines but the clock's, and once the
clock was started with `__smp_IntSwitch` it is what the scheduler needs. -/
theorem interrupts_set_up (link : Link σ) (exceptions : Nat → Qword) (memory : Nat → UInt8) (calls : List Call) :
    (∀ n < 256, gate (run link (boot link exceptions memory) calls).memory (entryAddress n) =
        expectedGate link exceptions n) ∧
      ∀ m : Cpu σ, m.memory = (run link (boot link exceptions memory) calls).memory → StackApart link.sym m →
        (∀ irq, irq ≠ 8 → Connected link irq m) ∧
        (rtcStarted calls = true → lastHandler calls = some (link.entry .intSwitch) → Installed link m) := by
  have hboot : Tables link exceptions (boot link exceptions memory) false none := tables_boot memory
  have h := hboot.run calls
  rw [Bool.false_or, Option.or_none] at h
  have hline : ∀ irq : Fin 16, expectedGate link exceptions (0x20 + irq) =
      ⟨(link.entry (.intHandler irq)).toNat, 0x10, 0x8e00⟩ := fun irq => by
    have hirq := irq.isLt
    rw [expectedGate, dif_pos ⟨Nat.le_add_right _ _, by omega⟩]
    have hindex : (⟨0x20 + irq.val - 0x20, by omega⟩ : Fin 16) = irq := Fin.ext (Nat.add_sub_cancel_left _ _)
    rw [hindex]
    rfl
  refine ⟨h.gates, fun m hm hstack => ⟨fun irq hirq => ⟨?_, ?_, hstack⟩, fun hstarted hlast => ⟨⟨?_, ?_, ?_⟩, hstack⟩⟩⟩
  · rw [hm, ← hline irq]
    exact h.gates (0x20 + irq) (by have := irq.isLt; omega)
  · rw [hm]
    exact (h.raw irq).trans (if_neg fun hp => hirq hp.1)
  · rw [hm, ← hline 8]
    exact h.gates 0x28 (by decide)
  · rw [hm]
    exact (h.raw 8).trans (if_pos ⟨rfl, hstarted⟩)
  · rw [hm]
    exact h.handler _ hlast

theorem interrupts_set_up_blank :
    ∃ m : Cpu Unit, Installed (blankLink blankCall) m ∧ Connected (blankLink blankCall) 1 m := by
  have hstack := blankCpu_stackApart 3 ()
  obtain ⟨-, h⟩ := interrupts_set_up (blankLink blankCall) (fun n => BitVec.ofNat 64 (0x9000 + n)) (fun _ => 0)
    [.rtcInit, .rtcSetHandler (blankEntry .intSwitch)]
  obtain ⟨hdevices, hclock⟩ := h { blankCpu 3 () with memory := _ } rfl ⟨hstack.room, hstack.apart⟩
  exact ⟨_, hclock rfl rfl, hdevices 1 (by decide)⟩

end Setup

end Helos.Interrupt
