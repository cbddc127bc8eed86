import Helos.Driver.Ps2
import Mathlib.Data.List.Induction

/-!
# Streams of scan codes

`scan` is what a decoder of scan code set 1 should do with a byte: remember the unfinished code, and
answer with a key when a code is complete. The interrupt handler does the same as long as every byte
that starts a code is one it knows. Of the others, some stay at the front of the queue for good, and
some have a place in the table of keys but no key there.
-/

namespace Helos

def KeyCall.key : KeyCall → Int
  | press key => key
  | release key => key

/-- The key is in `[0, input_Key_Count)`. -/
def KeyCall.InRange (call : KeyCall) : Prop := 0 ≤ call.key ∧ call.key < keyCount

namespace Ps2

/-! ### The specification -/

def singleKey (b : UInt8) : Option KeyCall :=
  if b < 0x80 then (keyScancode1.getD b.toNat none).map fun key => .press key.code
  else (keyScancode1.getD (b.toNat - 0x80) none).map fun key => .release key.code

def extendedKey (b : UInt8) : Option KeyCall :=
  match extendedScancode.lookup b with
  | some key => some (.press key.code)
  | none => (extendedScancode.lookup (b - 0x80)).map fun key => .release key.code

def scan : List UInt8 → UInt8 → List UInt8 × Option KeyCall
  | [], b => if b = 0xe0 ∨ b = 0xe1 then ([b], none) else ([], singleKey b)
  | first :: rest, b =>
    if first = 0xe0 then ([], extendedKey b)
    else if rest = [] then ([first, b], none)
    else ([], none)

/-- The start of a code of several bytes, or nothing. -/
def Incomplete (bytes : List UInt8) : Prop :=
  bytes = [] ∨ bytes = [0xe0] ∨ bytes = [0xe1] ∨ ∃ b, bytes = [0xe1, b]

def Known (b : UInt8) : Prop := b = 0xfa ∨ b = 0xe0 ∨ b = 0xe1 ∨ (singleKey b).isSome = true

/-- Every byte of the stream that starts a code is known. -/
def Recognised (stream : List UInt8) : Prop :=
  Refinement.EachCall scan (fun pending b => pending = [] → Known b) [] stream

/-- After every interrupt only the start of a code is left in the queue, the keys passed on are keys,
and they are those of the codes so far. -/
def Survives (q₀ : Queue) (stream : List (UInt8 × ScanEvent)) : Prop :=
  ∀ seen rest, stream = seen ++ rest → ∃ q calls bytes,
    Refinement.run irqHandlerK q₀ seen = some (q, calls) ∧ q.Contains bytes ∧ Incomplete bytes ∧
      (∀ call, some call ∈ calls → call.InRange) ∧
      calls = (Refinement.replies scan [] (seen.map Prod.fst)).2

/-! ### Decoding the front of the queue -/

section Decode

variable {q : Queue} {b c d : UInt8} {bytes : List UInt8} {event : ScanEvent}

theorem decode_ack (h : q.Contains (0xfa :: bytes)) :
    ∃ q', decodeKeyScancode1 q event = some (q', event, false) ∧ q'.Contains bytes ∧
      q'.size = q.size := by
  obtain ⟨q', hpop, hq'⟩ := Queue.popByte_cons h
  refine ⟨q', ?_, hq'⟩
  simp [decodeKeyScancode1, Queue.frontByte_eq h, hpop]

theorem decode_make (h : q.Contains (b :: bytes)) (hb : 0x01 ≤ b ∧ b ≤ 0x58) :
    ∃ q', decodeKeyScancode1 q event =
        some (q', ⟨typeKeyPressed, keyValue (keyScancode1.getD b.toNat none)⟩, true) ∧
      q'.Contains bytes ∧ q'.size = q.size := by
  obtain ⟨q', hpop, hq'⟩ := Queue.popByte_cons h
  refine ⟨q', ?_, hq'⟩
  have hack : b ≠ 0xfa := by
    rintro rfl
    exact absurd hb.2 (by decide)
  have hindex : b.toNat < keyScancode1.length := Nat.lt_of_le_of_lt (UInt8.le_iff_toNat_le.mp hb.2)
    (by decide)
  simp [decodeKeyScancode1, Queue.frontByte_eq h, hack, hb, hpop, List.getElem?_eq_getElem hindex]

theorem decode_break (h : q.Contains (b :: bytes)) (hb : 0x81 ≤ b ∧ b ≤ 0xd8) :
    ∃ q', decodeKeyScancode1 q event =
        some (q', ⟨typeKeyReleased, keyValue (keyScancode1.getD (b.toNat - 0x80) none)⟩, true) ∧
      q'.Contains bytes ∧ q'.size = q.size := by
  obtain ⟨q', hpop, hq'⟩ := Queue.popByte_cons h
  refine ⟨q', ?_, hq'⟩
  have hack : b ≠ 0xfa := by
    rintro rfl
    exact absurd hb.2 (by decide)
  have hmake : ¬ (0x01 ≤ b ∧ b ≤ 0x58) := fun hmake =>
    absurd (UInt8.le_trans hb.1 hmake.2) (by decide)
  have hindex : b.toNat - 0x80 < keyScancode1.length :=
    Nat.lt_of_le_of_lt (Nat.sub_le_sub_right (UInt8.le_iff_toNat_le.mp hb.2) 0x80) (by decide)
  simp [decodeKeyScancode1, Queue.frontByte_eq h, hack, hmake, hb, hpop,
    List.getElem?_eq_getElem hindex]

theorem decode_e0_wait (h : q.Contains [0xe0]) :
    decodeKeyScancode1 q event = some (q, event, false) := by
  simp [decodeKeyScancode1, Queue.frontByte_eq h, Queue.length, h.count]

theorem decode_e0 (h : q.Contains (0xe0 :: b :: bytes)) :
    ∃ q', decodeKeyScancode1 q event =
        some (q', decodeExtended b { event with type := keyValue none },
          decide ((decodeExtended b { event with type := keyValue none }).key ≠ keyValue none)) ∧
      q'.Contains bytes ∧ q'.size = q.size := by
  obtain ⟨q₁, hpop₁, hq₁, hsize₁⟩ := Queue.popByte_cons h
  obtain ⟨q', hpop, hq', hsize⟩ := Queue.popByte_cons hq₁
  refine ⟨q', ?_, hq', hsize.trans hsize₁⟩
  simp [decodeKeyScancode1, Queue.frontByte_eq h, Queue.length, h.count, hpop₁, hpop]

theorem decode_e1_wait (h : q.Contains (0xe1 :: bytes)) (hbytes : bytes.length < 2) :
    decodeKeyScancode1 q event = some (q, event, false) := by
  have hlength : q.count < 3 := h.count ▸ Nat.succ_lt_succ hbytes
  simp [decodeKeyScancode1, Queue.frontByte_eq h, Queue.length, hlength]

theorem decode_e1 (h : q.Contains (0xe1 :: b :: c :: bytes)) :
    ∃ q', decodeKeyScancode1 q event = some (q', event, false) ∧ q'.Contains bytes ∧
      q'.size = q.size := by
  obtain ⟨q₁, hpop₁, hq₁, hsize₁⟩ := Queue.popByte_cons h
  obtain ⟨q₂, hpop₂, hq₂, hsize₂⟩ := Queue.popByte_cons hq₁
  obtain ⟨q', hpop, hq', hsize⟩ := Queue.popByte_cons hq₂
  refine ⟨q', ?_, hq', hsize.trans (hsize₂.trans hsize₁)⟩
  simp [decodeKeyScancode1, Queue.frontByte_eq h, Queue.length, h.count, hpop₁, hpop₂, hpop]

/-- A byte that starts no code stays where it is. -/
theorem decode_stuck (h : q.Contains (b :: bytes)) (hack : b ≠ 0xfa)
    (hmake : ¬ (0x01 ≤ b ∧ b ≤ 0x58)) (hbreak : ¬ (0x81 ≤ b ∧ b ≤ 0xd8)) (he0 : b ≠ 0xe0)
    (he1 : b ≠ 0xe1) : decodeKeyScancode1 q event = some (q, event, false) := by
  simp only [decodeKeyScancode1, Queue.frontByte_eq h, List.headD_cons, Option.bind_eq_bind,
    Option.bind_some, if_neg hack, if_neg hmake, if_neg hbreak, if_neg he0, if_neg he1]

end Decode

/-! ### One interrupt -/

/-- A make or break code and its place in the table. -/
theorem singleKey_make {b : UInt8} (hb : 0x01 ≤ b ∧ b ≤ 0x58) :
    singleKey b = (keyScancode1.getD b.toNat none).map fun key => .press key.code :=
  if_pos (UInt8.lt_of_le_of_lt hb.2 (by decide))

theorem singleKey_break {b : UInt8} (hb : 0x81 ≤ b ∧ b ≤ 0xd8) :
    singleKey b = (keyScancode1.getD (b.toNat - 0x80) none).map fun key => .release key.code :=
  if_neg fun hlt => absurd (UInt8.lt_of_le_of_lt hb.1 hlt) (by decide)

/-- The event the decoder makes of the byte after `0xe0`, and what the handler does with it. -/
theorem dispatch_extended (b : UInt8) (key : Int) :
    (if (decodeExtended b ⟨keyValue none, key⟩).key ≠ keyValue none then
      dispatch (decodeExtended b ⟨keyValue none, key⟩) else none) = extendedKey b := by
  unfold decodeExtended extendedKey
  cases extendedScancode.lookup b with
  | some make => exact if_pos (ne_of_gt (Int.lt_of_lt_of_le (by decide) (Int.natCast_nonneg _)))
  | none =>
    cases extendedScancode.lookup (b - 0x80) with
    | some make => exact if_pos (ne_of_gt (Int.lt_of_lt_of_le (by decide) (Int.natCast_nonneg _)))
    | none => exact ite_self _

theorem scancode_index {i : Nat} {key : Key} (h : keyScancode1.getD i none = some key) :
    1 ≤ i ∧ i ≤ 0x58 := by
  constructor
  · rw [Nat.one_le_iff_ne_zero]
    rintro rfl
    have hzero : keyScancode1.getD 0 none = none := rfl
    rw [hzero] at h
    cases h
  · by_contra hi
    have hlength : keyScancode1.length ≤ i := Nat.lt_of_not_le hi
    rw [List.getD_eq_getElem?_getD, List.getElem?_eq_none hlength] at h
    cases h

theorem singleKey_range {b : UInt8} (h : (singleKey b).isSome = true) :
    (0x01 ≤ b ∧ b ≤ 0x58) ∨ (0x81 ≤ b ∧ b ≤ 0xd8) := by
  unfold singleKey at h
  simp only [UInt8.le_iff_toNat_le]
  split at h
  · rw [Option.isSome_map] at h
    obtain ⟨key, hkey⟩ := Option.isSome_iff_exists.mp h
    exact .inl (scancode_index hkey)
  · rw [Option.isSome_map] at h
    obtain ⟨key, hkey⟩ := Option.isSome_iff_exists.mp h
    have hindex := scancode_index hkey
    right
    change 0x81 ≤ b.toNat ∧ b.toNat ≤ 0xd8
    omega

theorem scan_single {b : UInt8} (h : (singleKey b).isSome = true) : scan [] b = ([], singleKey b) := by
  refine if_neg ?_
  rintro (rfl | rfl)
  · exact absurd h (by decide)
  · exact absurd h (by decide)

section Interrupt

variable {q : Queue} {b : UInt8} {bytes : List UInt8}

/-- The handler, when the decoder leaves nothing of the queue but `bytes'`. -/
theorem irqHandlerK_eq (h : q.Contains bytes) (hroom : bytes.length < q.size) (stale : ScanEvent)
    {bytes' : List UInt8} {e : ScanEvent} {decoded : Bool}
    (hdecode : ∀ q₁ : Queue, q₁.Contains (bytes ++ [b]) → ∃ q',
      decodeKeyScancode1 q₁ stale = some (q', e, decoded) ∧ q'.Contains bytes' ∧ q'.size = q₁.size) :
    ∃ q', irqHandlerK q (b, stale) = some (q', if decoded then dispatch e else none) ∧
      q'.Contains bytes' ∧ q'.size = q.size := by
  obtain ⟨q₁, hpush, hq₁, hsize₁⟩ := Queue.pushByte_room h hroom b
  obtain ⟨q', hrun, hq', hsize⟩ := hdecode q₁ hq₁
  refine ⟨q', ?_, hq', hsize.trans hsize₁⟩
  simp only [irqHandlerK, hpush, hrun, Option.bind_eq_bind, Option.bind_some]

theorem irqHandlerK_first (h : q.Contains []) (hroom : 0 < q.size) (hb : Known b)
    (stale : ScanEvent) :
    ∃ q', irqHandlerK q (b, stale) = some (q', (scan [] b).2) ∧ q'.Contains (scan [] b).1 ∧
      q'.size = q.size := by
  rcases hb with rfl | rfl | rfl | hsome
  · have hscan : scan [] 0xfa = ([], none) := by decide
    rw [hscan]
    obtain ⟨q', hrun, hq'⟩ := irqHandlerK_eq h hroom stale fun q₁ hq₁ => decode_ack hq₁
    exact ⟨q', hrun, hq'⟩
  · have hscan : scan [] 0xe0 = ([0xe0], none) := by decide
    rw [hscan]
    obtain ⟨q', hrun, hq'⟩ := irqHandlerK_eq h hroom stale fun q₁ hq₁ =>
      ⟨q₁, decode_e0_wait hq₁, hq₁, rfl⟩
    exact ⟨q', hrun, hq'⟩
  · have hscan : scan [] 0xe1 = ([0xe1], none) := by decide
    rw [hscan]
    obtain ⟨q', hrun, hq'⟩ := irqHandlerK_eq h hroom stale fun q₁ hq₁ =>
      ⟨q₁, decode_e1_wait hq₁ Nat.zero_lt_two, hq₁, rfl⟩
    exact ⟨q', hrun, hq'⟩
  · have hrange := singleKey_range hsome
    rw [scan_single hsome]
    rcases hrange with hmake | hbreak
    · rw [singleKey_make hmake] at hsome ⊢
      rw [Option.isSome_map] at hsome
      obtain ⟨key, hkey⟩ := Option.isSome_iff_exists.mp hsome
      obtain ⟨q', hrun, hq'⟩ := irqHandlerK_eq h hroom stale fun q₁ hq₁ => decode_make hq₁ hmake
      refine ⟨q', ?_, hq'⟩
      rw [hrun, hkey]
      rfl
    · rw [singleKey_break hbreak] at hsome ⊢
      rw [Option.isSome_map] at hsome
      obtain ⟨key, hkey⟩ := Option.isSome_iff_exists.mp hsome
      obtain ⟨q', hrun, hq'⟩ := irqHandlerK_eq h hroom stale fun q₁ hq₁ => decode_break hq₁ hbreak
      refine ⟨q', ?_, hq'⟩
      rw [hrun, hkey]
      rfl

theorem irqHandlerK_scan (h : q.Contains bytes) (hinc : Incomplete bytes) (hroom : 3 ≤ q.size)
    (hb : bytes = [] → Known b) (stale : ScanEvent) :
    ∃ q', irqHandlerK q (b, stale) = some (q', (scan bytes b).2) ∧ q'.Contains (scan bytes b).1 ∧
      q'.size = q.size := by
  rcases hinc with rfl | rfl | rfl | ⟨c, rfl⟩
  · exact irqHandlerK_first h (Nat.lt_of_lt_of_le (by decide) hroom) (hb rfl) stale
  · have hrun := irqHandlerK_eq (b := b) h (Nat.lt_of_lt_of_le (by decide) hroom) stale
      fun q₁ hq₁ => decode_e0 hq₁
    simp only [decide_eq_true_eq, dispatch_extended] at hrun
    exact hrun
  · exact irqHandlerK_eq h (Nat.lt_of_lt_of_le (by decide) hroom) stale fun q₁ hq₁ =>
      ⟨q₁, decode_e1_wait hq₁ (Nat.lt_succ_self 1), hq₁, rfl⟩
  · exact irqHandlerK_eq h hroom stale fun q₁ hq₁ => decode_e1 hq₁

theorem scan_incomplete (hinc : Incomplete bytes) (b : UInt8) : Incomplete (scan bytes b).1 := by
  rcases hinc with rfl | rfl | rfl | ⟨c, rfl⟩
  · simp only [scan]
    split
    · next h =>
      rcases h with rfl | rfl
      · exact .inr (.inl rfl)
      · exact .inr (.inr (.inl rfl))
    · exact .inl rfl
  · exact .inl rfl
  · exact .inr (.inr (.inr ⟨b, rfl⟩))
  · exact .inl rfl

theorem singleKey_inRange {call : KeyCall} (h : singleKey b = some call) : call.InRange := by
  unfold singleKey at h
  split at h
  · obtain ⟨key, -, rfl⟩ := Option.map_eq_some_iff.mp h
    exact ⟨Int.natCast_nonneg _, Int.ofNat_lt.mpr key.code_lt⟩
  · obtain ⟨key, -, rfl⟩ := Option.map_eq_some_iff.mp h
    exact ⟨Int.natCast_nonneg _, Int.ofNat_lt.mpr key.code_lt⟩

theorem extendedKey_inRange {call : KeyCall} (h : extendedKey b = some call) : call.InRange := by
  unfold extendedKey at h
  split at h
  · next key _ =>
    obtain rfl := Option.some.inj h
    exact ⟨Int.natCast_nonneg _, Int.ofNat_lt.mpr key.code_lt⟩
  · obtain ⟨key, -, rfl⟩ := Option.map_eq_some_iff.mp h
    exact ⟨Int.natCast_nonneg _, Int.ofNat_lt.mpr key.code_lt⟩

theorem scan_inRange {call : KeyCall} (h : (scan bytes b).2 = some call) : call.InRange := by
  cases bytes with
  | nil =>
    simp only [scan] at h
    split at h
    · cases h
    · exact singleKey_inRange h
  | cons first rest =>
    simp only [scan] at h
    split at h
    · exact extendedKey_inRange h
    · split at h
      · cases h
      · cases h

/-- A byte that starts no code is stuck, or the handler passes on `input_Key_Unknown`. -/
theorem irqHandlerK_unknown (h : q.Contains []) (hroom : 0 < q.size) (hb : ¬ Known b)
    (stale : ScanEvent) :
    ∃ q' call, irqHandlerK q (b, stale) = some (q', call) ∧
      ((∃ c, call = some c ∧ c.key = -1) ∨ q'.Contains [b]) := by
  simp only [Known, not_or, Bool.not_eq_true, Option.isSome_eq_false_iff, Option.isNone_iff_eq_none] at hb
  obtain ⟨hack, he0, he1, hnone⟩ := hb
  by_cases hmake : 0x01 ≤ b ∧ b ≤ 0x58
  · rw [singleKey_make hmake, Option.map_eq_none_iff] at hnone
    obtain ⟨q', hrun, -⟩ := irqHandlerK_eq h hroom stale fun q₁ hq₁ => decode_make hq₁ hmake
    rw [hnone] at hrun
    exact ⟨q', _, hrun, .inl ⟨_, rfl, rfl⟩⟩
  · by_cases hbreak : 0x81 ≤ b ∧ b ≤ 0xd8
    · rw [singleKey_break hbreak, Option.map_eq_none_iff] at hnone
      obtain ⟨q', hrun, -⟩ := irqHandlerK_eq h hroom stale fun q₁ hq₁ => decode_break hq₁ hbreak
      rw [hnone] at hrun
      exact ⟨q', _, hrun, .inl ⟨_, rfl, rfl⟩⟩
    · obtain ⟨q', hrun, hq', -⟩ := irqHandlerK_eq h hroom stale fun q₁ hq₁ =>
        ⟨q₁, decode_stuck hq₁ hack hmake hbreak he0 he1, hq₁, rfl⟩
      exact ⟨q', _, hrun, .inr hq'⟩

end Interrupt

/-! ### Streams -/

/-- The queue holds the unfinished code. -/
structure Follows (q : Queue) (bytes : List UInt8) : Prop where
  contains : q.Contains bytes
  incomplete : Incomplete bytes
  size : 3 ≤ q.size

theorem initQueue_follows (buffer : {buffer : List UInt8 // buffer.length = queueSizeKeyboard}) :
    Follows (initQueue buffer) [] := by
  refine ⟨Queue.contains_initBuffered _, .inl rfl, ?_⟩
  calc
    3 ≤ queueSizeKeyboard := by decide
    _ = (initQueue buffer).size := buffer.property.symm

section Stream

variable {q₀ : Queue} (h : Follows q₀ [])
include h

theorem follows_stream {stream : List (UInt8 × ScanEvent)}
    (hstream : Recognised (stream.map Prod.fst)) :
    ∃ q, Refinement.run irqHandlerK q₀ stream =
        some (q, (Refinement.replies scan [] (stream.map Prod.fst)).2) ∧
      Follows q (Refinement.replies scan [] (stream.map Prod.fst)).1 := by
  rw [Refinement.replies_map]
  refine Refinement.run_refines_of (fun q bytes i hq hi => ?_) h
    ((Refinement.eachCall_map Prod.fst [] stream).mp hstream)
  obtain ⟨q', hrun, hq', hsize⟩ := irqHandlerK_scan hq.contains hq.incomplete hq.size hi i.2
  exact ⟨q', hrun, hq', scan_incomplete hq.incomplete _, hsize.symm ▸ hq.size⟩

theorem Recognised.survives {stream : List (UInt8 × ScanEvent)}
    (hstream : Recognised (stream.map Prod.fst)) : Survives q₀ stream := by
  rintro seen rest rfl
  rw [List.map_append] at hstream
  obtain ⟨q, hrun, hq⟩ := follows_stream h (hstream.of_append)
  refine ⟨q, _, _, hrun, hq.contains, hq.incomplete, fun call hcall => ?_, rfl⟩
  obtain ⟨bytes, b, hscan⟩ := Refinement.mem_replies hcall
  exact scan_inRange hscan

theorem Survives.recognised {stream : List (UInt8 × ScanEvent)} (hstream : Survives q₀ stream) :
    Recognised (stream.map Prod.fst) := by
  induction stream using List.reverseRecOn with
  | nil => trivial
  | append_singleton stream i ih =>
    have hseen : Recognised (stream.map Prod.fst) := by
      apply ih
      intro seen rest heq
      exact hstream seen (rest ++ [i]) (by rw [heq, List.append_assoc])
    rw [List.map_append, List.map_singleton]
    refine (Refinement.eachCall_concat _ _ _).mpr ⟨hseen, fun hempty => ?_⟩
    obtain ⟨q, hrun, hq⟩ := follows_stream h hseen
    rw [hempty] at hq
    by_contra hunknown
    obtain ⟨q', call, hstep, hbad⟩ := irqHandlerK_unknown hq.contains
      (Nat.lt_of_lt_of_le (by decide) hq.size) hunknown i.2
    obtain ⟨q₁, calls, bytes, hrun₁, hq₁, hinc, hrange, -⟩ := hstream (stream ++ [i]) []
      (List.append_nil _).symm
    obtain ⟨rfl, rfl⟩ := Prod.mk.inj
      (Option.some.inj ((Refinement.run_concat hrun hstep).symm.trans hrun₁))
    rcases hbad with ⟨c, rfl, hkey⟩ | hstuck
    · have hpos := (hrange c (by simp)).1
      rw [hkey] at hpos
      exact absurd hpos (by decide)
    · have hbytes := hstuck.unique hq₁
      rcases hinc with rfl | rfl | rfl | ⟨c, rfl⟩
      · cases hbytes
      · exact hunknown (.inr (.inl (List.cons.inj hbytes).1))
      · exact hunknown (.inr (.inr (.inl (List.cons.inj hbytes).1)))
      · cases (List.cons.inj hbytes).2

end Stream

/-- The handler survives exactly the streams in which every byte that starts a code is known. -/
theorem survives_iff (buffer : {buffer : List UInt8 // buffer.length = queueSizeKeyboard})
    (stream : List (UInt8 × ScanEvent)) :
    Survives (initQueue buffer) stream ↔ Recognised (stream.map Prod.fst) :=
  ⟨Survives.recognised (initQueue_follows buffer), Recognised.survives (initQueue_follows buffer)⟩

/-- A byte `0x00` before the key A, and a byte `0x54`. -/
theorem unknown_codes_not_survived :
    ¬ Survives (initQueue ⟨List.replicate 64 0, by decide⟩) [(0x00, ⟨0, 0⟩), (0x1e, ⟨0, 0⟩)] ∧
      ¬ Survives (initQueue ⟨List.replicate 64 0, by decide⟩) [(0x54, ⟨0, 0⟩)] := by
  have hzero : ¬ Known 0x00 := by
    simp only [Known]
    decide
  have htable : ¬ Known 0x54 := by
    simp only [Known]
    decide
  constructor
  · exact fun h => hzero ((h.recognised (initQueue_follows _)).1 rfl)
  · exact fun h => htable ((h.recognised (initQueue_follows _)).1 rfl)

/-! ### Streams of whole sequences -/

inductive Sequence where
  | make (b : UInt8) (h : 0x01 ≤ b ∧ b ≤ 0x53 ∨ b = 0x57 ∨ b = 0x58)
  | release (b : UInt8) (h : 0x81 ≤ b ∧ b ≤ 0xd3 ∨ b = 0xd7 ∨ b = 0xd8)
  | ack
  | extended (b : UInt8)
  | pause (b c : UInt8)

namespace Sequence

def bytes : Sequence → List UInt8
  | make b _ => [b]
  | release b _ => [b]
  | ack => [0xfa]
  | extended b => [0xe0, b]
  | pause b c => [0xe1, b, c]

def decoding : Sequence → Option KeyCall
  | make b _ => (keyScancode1.getD b.toNat none).map fun key => .press key.code
  | release b _ => (keyScancode1.getD (b.toNat - 0x80) none).map fun key => .release key.code
  | ack => none
  | extended b => extendedKey b
  | pause _ _ => none

/-- What is passed on at each interrupt: nothing before the last byte. -/
def calls (sequence : Sequence) : List (Option KeyCall) :=
  List.replicate (sequence.bytes.length - 1) none ++ [sequence.decoding]

end Sequence

theorem keyScancode1_isSome : ∀ i < 0x59, (1 ≤ i ∧ i ≤ 0x53 ∨ i = 0x57 ∨ i = 0x58) →
    (keyScancode1.getD i none).isSome = true := by
  decide

theorem make_range {b : UInt8} (h : 0x01 ≤ b ∧ b ≤ 0x53 ∨ b = 0x57 ∨ b = 0x58) :
    0x01 ≤ b ∧ b ≤ 0x58 := by
  rcases h with h | rfl | rfl
  · exact ⟨h.1, UInt8.le_trans h.2 (by decide)⟩
  · decide
  · decide

theorem break_range {b : UInt8} (h : 0x81 ≤ b ∧ b ≤ 0xd3 ∨ b = 0xd7 ∨ b = 0xd8) :
    0x81 ≤ b ∧ b ≤ 0xd8 := by
  rcases h with h | rfl | rfl
  · exact ⟨h.1, UInt8.le_trans h.2 (by decide)⟩
  · decide
  · decide

theorem singleKey_make_isSome {b : UInt8} (h : 0x01 ≤ b ∧ b ≤ 0x53 ∨ b = 0x57 ∨ b = 0x58) :
    (singleKey b).isSome = true := by
  rw [singleKey_make (make_range h), Option.isSome_map]
  simp only [UInt8.le_iff_toNat_le, ← UInt8.toNat_inj] at h
  change 0x01 ≤ b.toNat ∧ b.toNat ≤ 0x53 ∨ b.toNat = 0x57 ∨ b.toNat = 0x58 at h
  exact keyScancode1_isSome b.toNat (by omega) h

theorem singleKey_break_isSome {b : UInt8} (h : 0x81 ≤ b ∧ b ≤ 0xd3 ∨ b = 0xd7 ∨ b = 0xd8) :
    (singleKey b).isSome = true := by
  rw [singleKey_break (break_range h), Option.isSome_map]
  simp only [UInt8.le_iff_toNat_le, ← UInt8.toNat_inj] at h
  change 0x81 ≤ b.toNat ∧ b.toNat ≤ 0xd3 ∨ b.toNat = 0xd7 ∨ b.toNat = 0xd8 at h
  exact keyScancode1_isSome (b.toNat - 0x80) (by omega) (by omega)

theorem Sequence.replies_bytes (sequence : Sequence) :
    Refinement.replies scan [] sequence.bytes = ([], sequence.calls) := by
  cases sequence with
  | make b h =>
    have hdecoding : singleKey b = (make b h).decoding := singleKey_make (make_range h)
    have hscan := scan_single (singleKey_make_isSome h)
    rw [bytes, Refinement.replies_cons, Refinement.replies_nil, hscan, hdecoding]
    simp [calls, bytes]
  | release b h =>
    have hdecoding : singleKey b = (release b h).decoding := singleKey_break (break_range h)
    have hscan := scan_single (singleKey_break_isSome h)
    rw [bytes, Refinement.replies_cons, Refinement.replies_nil, hscan, hdecoding]
    simp [calls, bytes]
  | ack => decide
  | extended b => rfl
  | pause b c => rfl

theorem Sequence.recognised (sequence : Sequence) : Recognised sequence.bytes := by
  cases sequence with
  | make b h => exact ⟨fun _ => .inr (.inr (.inr (singleKey_make_isSome h))), trivial⟩
  | release b h => exact ⟨fun _ => .inr (.inr (.inr (singleKey_break_isSome h))), trivial⟩
  | ack => exact ⟨fun _ => .inl rfl, trivial⟩
  | extended b => exact ⟨fun _ => .inr (.inl rfl), nofun, trivial⟩
  | pause b c => exact ⟨fun _ => .inr (.inr (.inl rfl)), nofun, nofun, trivial⟩

/-- Decoding the bytes one by one is decoding the sequences one by one. -/
theorem sequences_decoded {q₀ : Queue} (hempty : q₀.Contains []) (hsize : q₀.size = queueSizeKeyboard)
    {sequences : List Sequence} {stream : List (UInt8 × ScanEvent)}
    (hstream : stream.map Prod.fst = sequences.flatMap Sequence.bytes) :
    ∀ seen rest, sequences = seen ++ rest → ∃ q,
      Refinement.run irqHandlerK q₀ (stream.take (seen.flatMap Sequence.bytes).length) =
        some (q, seen.flatMap Sequence.calls) ∧ q.length = 0 := by
  rintro seen rest rfl
  have hfollows : Follows q₀ [] := ⟨hempty, .inl rfl, hsize.symm ▸ by decide⟩
  have hbytes : (stream.take (seen.flatMap Sequence.bytes).length).map Prod.fst =
      seen.flatMap Sequence.bytes := by
    rw [List.map_take, hstream, List.flatMap_append, List.take_left]
  have hreplies := Refinement.replies_messages Sequence.replies_bytes seen
  have hrecognised : Recognised (seen.flatMap Sequence.bytes) := by
    refine Refinement.eachCall_messages (fun sequence => ?_) Sequence.recognised seen
    rw [sequence.replies_bytes]
  rw [← hbytes] at hrecognised
  obtain ⟨q, hrun, hq⟩ := follows_stream hfollows hrecognised
  rw [hbytes, hreplies] at hrun hq
  exact ⟨q, hrun, hq.contains.count⟩

/-- Escape pressed and the right control key released, before the pause key. -/
theorem escape_control_decoded :
    ∃ q, Refinement.run irqHandlerK (initQueue ⟨List.replicate 64 0, by decide⟩)
        [(0x01, ⟨0, 0⟩), (0xe0, ⟨0, 0⟩), (0x9d, ⟨0, 0⟩)] =
        some (q, [some (.press Key.escape.code), none, some (.release Key.rControl.code)]) ∧
      q.length = 0 :=
  @sequences_decoded _ (Queue.contains_initBuffered _) rfl
    [.make 0x01 (.inl (by decide)), .extended 0x9d, .pause 0x1d 0x45]
    ([0x01, 0xe0, 0x9d, 0xe1, 0x1d, 0x45].map fun b => (b, ⟨0, 0⟩)) rfl
    [.make 0x01 (.inl (by decide)), .extended 0x9d] [.pause 0x1d 0x45] rfl

end Ps2

end Helos
