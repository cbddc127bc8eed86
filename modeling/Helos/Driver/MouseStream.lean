import Helos.Driver.Input
import Helos.Memory.KernelMapping
import Helos.Theory.Refinement

/-!
# The mouse interrupt

The mouse half of `driver/irq/pic/ps2/ps2.c`. Each interrupt puts one byte into the queue, drops what
cannot be the first byte of a packet, and decodes the packets that are complete. From an empty queue
on, packets whose first byte is marked are decoded one by one, each at its last byte.
-/

namespace Helos.Ps2

/-- `PIC_PS2_QUEUESIZE_MOUSE` -/
def queueSizeMouse : Nat := 256

/-- `pic_ps2_QueueMouse` and `__pic_ps2_MouseButtons`. -/
structure Mouse where
  queue : Queue
  buttons : UInt8
deriving DecidableEq

def resync : Nat → Queue → Option Queue
  | 0, _ => none
  | fuel + 1, q =>
    if q.length = 0 then some q
    else do
      let front ← q.frontByte
      if front.toUInt32 &&& ((1 : UInt32) <<< 3) ≠ 0 then some q
      else do
        let (q, _) ← q.popByte
        resync fuel q

def buttonChange (buttons state bit : UInt32) (button : MouseButton) : List Input.Call :=
  (if buttons &&& bit = 0 ∧ state &&& bit ≠ 0 then [.pressMouse button] else []) ++
    if buttons &&& bit ≠ 0 ∧ state &&& bit = 0 then [.releaseMouse button] else []

def buttonChanges (buttons state : UInt32) : List Input.Call :=
  buttonChange buttons state 1 .left ++ buttonChange buttons state 2 .right ++
    buttonChange buttons state 4 .middle

/-- The size of a packet; `fourBytes` is `pic_ps2_Mouse4Bytes`. -/
def packetSize (fourBytes : Bool) : Nat := if fourBytes then 4 else 3

/-- The last byte of a packet of four is not looked at. -/
def popWheel (fourBytes : Bool) (q : Queue) : Option Queue :=
  if fourBytes then q.popByte.map Prod.fst else some q

/-- The body of the second loop. The arguments of `input_source_MoveMouse` are converted to `int`. -/
def decodePacket (fourBytes : Bool) (mouse : Mouse) : Option (Mouse × List Input.Call) := do
  let (q, state) ← mouse.queue.popByte
  let state := state.toUInt32
  let (q, d) ← q.popByte
  let moveX := d.toUInt32 - (state <<< 4 &&& 0x100)
  let (q, d) ← q.popByte
  let moveY := d.toUInt32 - (state <<< 3 &&& 0x100)
  let move := Input.Call.moveMouse (toInt moveX.toNat) (toInt (-moveY).toNat)
  let q ← popWheel fourBytes q
  if mouse.buttons.toUInt32 ≠ state &&& 7 then
    some (⟨q, (state &&& 7).toUInt8⟩, move :: buttonChanges mouse.buttons.toUInt32 state)
  else some (⟨q, mouse.buttons⟩, [move])

def decodePackets (fourBytes : Bool) : Nat → Mouse → Option (Mouse × List Input.Call)
  | 0, _ => none
  | fuel + 1, mouse =>
    if packetSize fourBytes ≤ mouse.queue.length then do
      let (mouse, calls) ← decodePacket fourBytes mouse
      let (mouse, rest) ← decodePackets fourBytes fuel mouse
      some (mouse, calls ++ rest)
    else some (mouse, [])

/-- `pic_ps2_IRQHandlerM`. Each turn of the loops takes a byte out of the queue at least. -/
def irqHandlerM (fourBytes : Bool) (mouse : Mouse) (byte : UInt8) :
    Option (Mouse × List Input.Call) := do
  let q ← mouse.queue.pushByte byte
  let q ← resync (q.length + 1) q
  decodePackets fourBytes (q.length + 1) { mouse with queue := q }

/-! ### The specification -/

/-- A packet; the last byte is there in the mode of four bytes only. -/
structure Packet where
  first : UInt8
  x : UInt8
  y : UInt8
  z : UInt8
  marked : first.toNat.testBit 3 = true

/-- A number of nine bits in two's complement. -/
def signed9 (sign : Bool) (low : UInt8) : Int := low.toNat - if sign then 256 else 0

def buttonBits : List (MouseButton × Nat) := [(.left, 0), (.right, 1), (.middle, 2)]

namespace Packet

def bytes (fourBytes : Bool) (packet : Packet) : List UInt8 :=
  [packet.first, packet.x, packet.y] ++ if fourBytes then [packet.z] else []

def dx (packet : Packet) : Int := signed9 (packet.first.toNat.testBit 4) packet.x

def dy (packet : Packet) : Int := signed9 (packet.first.toNat.testBit 5) packet.y

/-- A button whose bit is not what it was in the byte before. -/
def edge (packet : Packet) (before : UInt8) (button : MouseButton) (bit : Nat) : Option Input.Call :=
  if packet.first.toNat.testBit bit = before.toNat.testBit bit then none
  else if packet.first.toNat.testBit bit then some (.pressMouse button)
  else some (.releaseMouse button)

def calls (packet : Packet) (before : UInt8) : List Input.Call :=
  .moveMouse packet.dx (-packet.dy) ::
    buttonBits.filterMap fun entry => packet.edge before entry.1 entry.2

/-- What a packet makes of the first byte of the one before, with the calls at each interrupt. -/
def step (fourBytes : Bool) (before : UInt8) (packet : Packet) : UInt8 × List (List Input.Call) :=
  (packet.first, List.replicate (packetSize fourBytes - 1) [] ++ [packet.calls before])

end Packet

/-! ### The bits of the first byte -/

theorem forall_byte {P : UInt8 → Prop} (h : ∀ n < 256, P (UInt8.ofNat n)) (b : UInt8) : P b := by
  have hb := h b.toNat b.toNat_lt
  rwa [UInt8.ofNat_toNat] at hb

theorem bit_eq_zero {i : Nat} (hi : i < 8) (b : UInt8) :
    b.toUInt32 &&& UInt32.ofNat (2 ^ i) = 0 ↔ b.toNat.testBit i = false := by
  refine forall_byte (P := fun b => ∀ i < 8, b.toUInt32 &&& UInt32.ofNat (2 ^ i) = 0 ↔
    b.toNat.testBit i = false) ?_ b i hi
  decide +kernel

theorem mask_bit_eq_zero {i : Nat} (hi : i < 3) (b : UInt8) :
    (b &&& 7).toUInt32 &&& UInt32.ofNat (2 ^ i) = 0 ↔ b.toNat.testBit i = false := by
  refine forall_byte (P := fun b => ∀ i < 3, (b &&& 7).toUInt32 &&& UInt32.ofNat (2 ^ i) = 0 ↔
    b.toNat.testBit i = false) ?_ b i hi
  decide +kernel

theorem mask_toUInt32 (b : UInt8) : b.toUInt32 &&& 7 = (b &&& 7).toUInt32 := by
  refine forall_byte (P := fun b => b.toUInt32 &&& 7 = (b &&& 7).toUInt32) ?_ b
  decide +kernel

theorem shifted_sign (b : UInt8) :
    b.toUInt32 <<< 4 &&& 0x100 = (if b.toNat.testBit 4 then 0x100 else 0) ∧
      b.toUInt32 <<< 3 &&& 0x100 = (if b.toNat.testBit 5 then 0x100 else 0) := by
  refine forall_byte (P := fun b =>
    b.toUInt32 <<< 4 &&& 0x100 = (if b.toNat.testBit 4 then 0x100 else 0) ∧
      b.toUInt32 <<< 3 &&& 0x100 = (if b.toNat.testBit 5 then 0x100 else 0)) ?_ b
  decide +kernel

/-- The subtraction wraps around to the number of nine bits. -/
theorem toInt_signed9 (sign : Bool) (d : UInt8) :
    toInt (d.toUInt32 - if sign then 0x100 else 0).toNat = signed9 sign d ∧
      toInt (-(d.toUInt32 - if sign then 0x100 else 0)).toNat = -signed9 sign d := by
  have hd := d.toNat_lt
  cases sign with
  | false =>
    simp only [Bool.false_eq_true, if_false, UInt32.sub_zero, UInt32.toNat_neg, UInt8.toNat_toUInt32,
      signed9, toInt, UInt32.size]
    constructor <;> split <;> omega
  | true =>
    have hsub : (d.toUInt32 - 0x100).toNat = (2 ^ 32 - 256 + d.toNat) % 2 ^ 32 := by
      rw [UInt32.toNat_sub, UInt8.toNat_toUInt32]
      rfl
    simp only [if_true, UInt32.toNat_neg, hsub, signed9, toInt, UInt32.size]
    constructor <;> split <;> omega

/-! ### One packet -/

section Decode

variable {q : Queue} {b : UInt8} {bytes : List UInt8} {fourBytes : Bool} (before : UInt8)

theorem buttonChange_edge (packet : Packet) {i : Nat} (hi : i < 3) (button : MouseButton) :
    buttonChange (before &&& 7).toUInt32 packet.first.toUInt32 (UInt32.ofNat (2 ^ i)) button =
      (packet.edge before button i).toList := by
  have hbefore := mask_bit_eq_zero hi before
  have hfirst := bit_eq_zero (Nat.lt_trans hi (by decide)) packet.first
  simp only [buttonChange, Packet.edge, ne_eq, hbefore, hfirst]
  cases before.toNat.testBit i <;> cases packet.first.toNat.testBit i <;> rfl

theorem buttonChanges_edges (packet : Packet) :
    buttonChanges (before &&& 7).toUInt32 packet.first.toUInt32 =
      buttonBits.filterMap fun entry => packet.edge before entry.1 entry.2 := by
  have hleft := buttonChange_edge before packet (show 0 < 3 by decide) .left
  have hright := buttonChange_edge before packet (show 1 < 3 by decide) .right
  have hmiddle := buttonChange_edge before packet (show 2 < 3 by decide) .middle
  calc buttonChanges (before &&& 7).toUInt32 packet.first.toUInt32
      = (packet.edge before .left 0).toList ++ (packet.edge before .right 1).toList ++
          (packet.edge before .middle 2).toList := by
        rw [← hleft, ← hright, ← hmiddle]
        rfl
    _ = buttonBits.filterMap fun entry => packet.edge before entry.1 entry.2 := by
        simp only [buttonBits, List.filterMap_cons, List.filterMap_nil]
        cases packet.edge before .left 0 <;> cases packet.edge before .right 1 <;>
          cases packet.edge before .middle 2 <;> rfl

theorem buttonChanges_same {before : UInt8} (packet : Packet)
    (h : (before &&& 7).toUInt32 = packet.first.toUInt32 &&& 7) :
    buttonChanges (before &&& 7).toUInt32 packet.first.toUInt32 = [] := by
  have hbit : ∀ i < 3, before.toNat.testBit i = packet.first.toNat.testBit i := by
    intro i hi
    have hbefore := mask_bit_eq_zero hi before
    rw [h, mask_toUInt32, mask_bit_eq_zero hi packet.first] at hbefore
    exact Bool.eq_iff_iff.mpr (by simpa using not_congr hbefore.symm)
  rw [buttonChanges_edges]
  unfold buttonBits Packet.edge
  simp [hbit]

theorem decodePacket_eq (packet : Packet) (h : q.Contains (packet.bytes fourBytes)) :
    ∃ q', decodePacket fourBytes ⟨q, before &&& 7⟩ =
        some (⟨q', packet.first &&& 7⟩, packet.calls before) ∧ q'.Contains [] ∧ q'.size = q.size := by
  obtain ⟨q₁, hpop₁, hq₁, hsize₁⟩ := Queue.popByte_cons h
  obtain ⟨q₂, hpop₂, hq₂, hsize₂⟩ := Queue.popByte_cons hq₁
  obtain ⟨q₃, hpop₃, hq₃, hsize₃⟩ := Queue.popByte_cons hq₂
  have hrest : ∃ q', popWheel fourBytes q₃ = some q' ∧ q'.Contains [] ∧ q'.size = q₃.size := by
    cases fourBytes with
    | false => exact ⟨q₃, rfl, hq₃, rfl⟩
    | true =>
      obtain ⟨q', hpop, hq'⟩ := Queue.popByte_cons hq₃
      exact ⟨q', by rw [popWheel, if_pos rfl, hpop, Option.map_some], hq'⟩
  obtain ⟨q', hpop, hq', hsize⟩ := hrest
  refine ⟨q', ?_, hq', hsize.trans (hsize₃.trans (hsize₂.trans hsize₁))⟩
  obtain ⟨hsignX, hsignY⟩ := shifted_sign packet.first
  have hmoveX := (toInt_signed9 (packet.first.toNat.testBit 4) packet.x).1
  have hmoveY := (toInt_signed9 (packet.first.toNat.testBit 5) packet.y).2
  have hmask : (packet.first.toUInt32 &&& 7).toUInt8 = packet.first &&& 7 := by
    rw [mask_toUInt32, UInt8.toUInt8_toUInt32]
  simp only [decodePacket, hpop₁, hpop₂, hpop₃, hpop, Option.bind_eq_bind, Option.bind_some, hsignX,
    hsignY, hmoveX, hmoveY, hmask]
  split
  · rw [buttonChanges_edges]
    rfl
  · next hsame =>
    have hsame := not_not.mp hsame
    have hnone := buttonChanges_same packet hsame
    rw [buttonChanges_edges] at hnone
    rw [mask_toUInt32] at hsame
    rw [Packet.calls, hnone, UInt8.toUInt32_inj.mp hsame]
    rfl

theorem resync_marked (h : q.Contains (b :: bytes)) (hb : b.toNat.testBit 3 = true) (fuel : Nat) :
    resync (fuel + 1) q = some q := by
  have hlength : q.length ≠ 0 := by
    rw [Queue.length, h.count]
    exact Nat.succ_ne_zero _
  have hbit : b.toUInt32 &&& ((1 : UInt32) <<< 3) ≠ 0 := by
    intro hzero
    rw [(bit_eq_zero (i := 3) (by decide) b).mp hzero] at hb
    cases hb
  rw [resync, if_neg hlength, Queue.frontByte_eq h]
  exact if_pos hbit

theorem decodePackets_wait {mouse : Mouse} (h : mouse.queue.length < packetSize fourBytes)
    (fuel : Nat) : decodePackets fourBytes (fuel + 1) mouse = some (mouse, []) :=
  if_neg (Nat.not_le.mpr h)

/-! ### One interrupt -/

theorem irqHandlerM_wait (fourBytes : Bool) (h : q.Contains bytes) (hroom : q.size = queueSizeMouse)
    (hmarked : ∃ first rest, bytes ++ [b] = first :: rest ∧ first.toNat.testBit 3 = true)
    (hshort : bytes.length + 1 < packetSize fourBytes) (buttons : UInt8) :
    ∃ q', irqHandlerM fourBytes ⟨q, buttons⟩ b = some (⟨q', buttons⟩, []) ∧
      q'.Contains (bytes ++ [b]) ∧ q'.size = queueSizeMouse := by
  have hsize : packetSize fourBytes ≤ 4 := by cases fourBytes <;> decide
  obtain ⟨q', hpush, hq', hsize'⟩ := Queue.pushByte_room h (by
    rw [hroom, queueSizeMouse]
    omega) b
  obtain ⟨first, rest, hbytes, hfirst⟩ := hmarked
  have hlength : q'.length < packetSize fourBytes := by
    rw [Queue.length, hq'.count, List.length_append, List.length_singleton]
    exact hshort
  have hresync := resync_marked (hbytes ▸ hq') hfirst q'.length
  refine ⟨q', ?_, hq', hsize'.trans hroom⟩
  simp only [irqHandlerM, hpush, hresync, Option.bind_eq_bind, Option.bind_some]
  exact decodePackets_wait hlength _

theorem irqHandlerM_last (fourBytes : Bool) (packet : Packet) (h : q.Contains bytes) (hroom : q.size = queueSizeMouse)
    (hbytes : bytes ++ [b] = packet.bytes fourBytes) :
    ∃ q', irqHandlerM fourBytes ⟨q, before &&& 7⟩ b =
        some (⟨q', packet.first &&& 7⟩, packet.calls before) ∧
      q'.Contains [] ∧ q'.size = queueSizeMouse := by
  have hsize : (packet.bytes fourBytes).length = packetSize fourBytes := by cases fourBytes <;> rfl
  have hlength : bytes.length + 1 = packetSize fourBytes := by
    rw [← hsize, ← hbytes, List.length_append, List.length_singleton]
  have hle : packetSize fourBytes ≤ 4 := by cases fourBytes <;> decide
  obtain ⟨q₁, hpush, hq₁, hsize₁⟩ := Queue.pushByte_room h (by
    rw [hroom, queueSizeMouse]
    omega) b
  rw [hbytes] at hq₁
  have hresync := resync_marked hq₁ packet.marked q₁.length
  obtain ⟨q', hdecode, hq', hsize'⟩ := decodePacket_eq before packet hq₁
  have hfull : q₁.length = packetSize fourBytes := hq₁.count.trans hsize
  have hempty : decodePackets fourBytes q₁.length ⟨q', packet.first &&& 7⟩ =
      some (⟨q', packet.first &&& 7⟩, []) := by
    rw [hfull, ← hlength]
    refine decodePackets_wait ?_ bytes.length
    rw [Queue.length, hq'.count]
    cases fourBytes <;> decide
  refine ⟨q', ?_, hq', hsize'.trans (hsize₁.trans hroom)⟩
  simp only [irqHandlerM, hpush, hresync, Option.bind_eq_bind, Option.bind_some]
  rw [decodePackets, if_pos hfull.ge, hdecode]
  simp only [Option.bind_eq_bind, Option.bind_some, hempty, List.append_nil]

end Decode

/-! ### Streams of packets -/

/-- Between packets the queue is empty, and the buttons are those of the first byte of the last one. -/
structure Mouse.Between (mouse : Mouse) (before : UInt8) : Prop where
  empty : mouse.queue.Contains []
  size : mouse.queue.size = queueSizeMouse
  buttons : mouse.buttons = before &&& 7

theorem run_packet (fourBytes : Bool) {mouse : Mouse} {before : UInt8} (packet : Packet)
    (h : mouse.Between before) :
    ∃ mouse', Refinement.run (irqHandlerM fourBytes) mouse (packet.bytes fourBytes) =
        some (mouse', (packet.step fourBytes before).2) ∧
      mouse'.Between (packet.step fourBytes before).1 := by
  obtain ⟨hempty, hsize, hbuttons⟩ := h
  obtain ⟨q, buttons⟩ := mouse
  dsimp only at hempty hsize hbuttons
  subst hbuttons
  have hthree : 1 + 1 < packetSize fourBytes := by cases fourBytes <;> decide
  obtain ⟨q₁, h₁, hq₁, hsize₁⟩ := irqHandlerM_wait fourBytes hempty hsize ⟨packet.first, [], rfl, packet.marked⟩
    (Nat.lt_of_succ_lt hthree) (before &&& 7)
  obtain ⟨q₂, h₂, hq₂, hsize₂⟩ := irqHandlerM_wait fourBytes hq₁ hsize₁
    ⟨packet.first, [packet.x], rfl, packet.marked⟩ hthree (before &&& 7)
  cases fourBytes with
  | false =>
    obtain ⟨q₃, h₃, hq₃, hsize₃⟩ := irqHandlerM_last (b := packet.y) before false packet hq₂
      hsize₂ rfl
    exact ⟨_, Refinement.run_step h₁ (Refinement.run_step h₂ (Refinement.run_step h₃ rfl)),
      ⟨hq₃, hsize₃, rfl⟩⟩
  | true =>
    obtain ⟨q₃, h₃, hq₃, hsize₃⟩ := irqHandlerM_wait true hq₂ hsize₂
      ⟨packet.first, [packet.x, packet.y], rfl, packet.marked⟩ (Nat.lt_succ_self 3) (before &&& 7)
    obtain ⟨q₄, h₄, hq₄, hsize₄⟩ := irqHandlerM_last (b := packet.z) before true packet hq₃
      hsize₃ rfl
    exact ⟨_, Refinement.run_step h₁ (Refinement.run_step h₂
      (Refinement.run_step h₃ (Refinement.run_step h₄ rfl))), ⟨hq₄, hsize₄, rfl⟩⟩

/-- Each packet is decoded at its last byte, after which the queue is empty. -/
theorem packets_decoded (fourBytes : Bool) {q₀ : Queue} (hempty : q₀.Contains [])
    (hsize : q₀.size = queueSizeMouse) (packets : List Packet) :
    ∃ mouse, Refinement.run (irqHandlerM fourBytes) ⟨q₀, 0⟩
        (packets.flatMap (Packet.bytes fourBytes)) =
        some (mouse, (Refinement.replies (fun before packet => packet.step fourBytes before) 0
          packets).2.flatten) ∧
      mouse.queue.length = 0 := by
  have hstart : Mouse.Between ⟨q₀, 0⟩ 0 := ⟨hempty, hsize, rfl⟩
  obtain ⟨mouse, hrun, hbetween⟩ := Refinement.run_messages
    (fun mouse before packet => run_packet fourBytes packet) hstart packets
  exact ⟨mouse, hrun, hbetween.empty.count⟩

/-- A move with the left button held, of `-1` and `2`, and its release. -/
theorem press_and_release_decoded :
    ∃ mouse, Refinement.run (irqHandlerM false)
        ⟨Queue.initBuffered (List.replicate queueSizeMouse 0), 0⟩
        [0x19, 0xff, 0x02, 0x08, 0x00, 0x00] =
        some (mouse, [[], [], [.moveMouse (-1) (-2), .pressMouse .left], [], [],
          [.moveMouse 0 0, .releaseMouse .left]]) ∧
      mouse.queue.length = 0 :=
  packets_decoded false (Queue.contains_initBuffered _) List.length_replicate
    [⟨0x19, 0xff, 0x02, 0, by decide⟩, ⟨0x08, 0x00, 0x00, 0, by decide⟩]

end Helos.Ps2
