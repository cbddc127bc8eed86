import Helos.Runtime.Utf8
import Mathlib.Data.Nat.ModEq

/-!
# What the decoder accepts

`encoding` is the byte pattern of UTF-8 for any number up to U+10FFFF; on scalar values it is the
encoder of the core library. `utf8_Encode` writes it and `utf8_Decode` reads it back. The decoder
checks the first byte and the length only, so of malformed input it refuses little.
-/

namespace Helos

def encoding (v : Nat) : List UInt8 :=
  if v ≤ 0x7f then [UInt8.ofNat v]
  else if v ≤ 0x7ff then [UInt8.ofNat (v / 64 % 0x20 + 0xc0), UInt8.ofNat (v % 0x40 + 0x80)]
  else if v ≤ 0xffff then
    [UInt8.ofNat (v / 4096 % 0x10 + 0xe0), UInt8.ofNat (v / 64 % 0x40 + 0x80),
      UInt8.ofNat (v % 0x40 + 0x80)]
  else
    [UInt8.ofNat (v / 262144 % 0x08 + 0xf0), UInt8.ofNat (v / 4096 % 0x40 + 0x80),
      UInt8.ofNat (v / 64 % 0x40 + 0x80), UInt8.ofNat (v % 0x40 + 0x80)]

theorem encoding_char (c : Char) : encoding c.val.toNat = String.utf8EncodeChar c := rfl

theorem encoding_length_pos (v : Nat) : 0 < (encoding v).length := by
  unfold encoding
  split_ifs <;> simp

/-! ### The encoder -/

theorem continuation_byte (c : UInt32) :
    ((c ||| 0x80) &&& 0xBF).toUInt8 = UInt8.ofNat (c.toNat % 0x40 + 0x80) := by
  have hbyte : ∀ n < 256, (UInt8.ofNat n ||| 0x80) &&& 0xBF = UInt8.ofNat (n % 0x40 + 0x80) := by
    decide +kernel
  have hmod : c.toNat % 256 % 0x40 = c.toNat % 0x40 := Nat.mod_mod_of_dvd _ (by decide)
  have hlow : c.toUInt8 = UInt8.ofNat (c.toNat % 256) := by
    apply UInt8.toNat_inj.mp
    simp
  calc
    ((c ||| 0x80) &&& 0xBF).toUInt8 = (c.toUInt8 ||| 0x80) &&& 0xBF := by simp
    _ = UInt8.ofNat (c.toNat % 256 % 0x40 + 0x80) := by rw [hlow, hbyte _ (Nat.mod_lt _ (by decide))]
    _ = UInt8.ofNat (c.toNat % 0x40 + 0x80) := by rw [hmod]

/-- A lead byte carries what is left of the code point under its marker. -/
theorem lead_byte (c : UInt32) (first : UInt8) (bound : Nat)
    (hmarker : ∀ n < 256, n < bound → UInt8.ofNat n ||| first = UInt8.ofNat (n % bound + first.toNat))
    (hc : c.toNat < bound) (hbound : bound ≤ 256) :
    (c ||| first.toUInt32).toUInt8 = UInt8.ofNat (c.toNat % bound + first.toNat) := by
  have hlow : c.toUInt8 = UInt8.ofNat c.toNat := by
    apply UInt8.toNat_inj.mp
    simp
  calc
    (c ||| first.toUInt32).toUInt8 = c.toUInt8 ||| first := by simp
    _ = UInt8.ofNat (c.toNat % bound + first.toNat) := by rw [hlow, hmarker _ (by omega) hc]

theorem toNat_substitute_le (c : UInt32) : (substitute c).toNat ≤ 0x10ffff := by
  unfold substitute
  split
  · decide
  · next h =>
    have hle : c ≤ unicodeMax := UInt32.not_lt.mp h
    exact UInt32.le_iff_toNat_le.mp hle

theorem utf8EncodeLength_eq (c : UInt32) (hc : c.toNat ≤ 0x10ffff) :
    utf8EncodeLength c = (encoding c.toNat).length := by
  unfold utf8EncodeLength encoding
  simp only [UInt32.le_iff_toNat_le]
  simp only [UInt32.reduceToNat]
  split_ifs <;> simp

theorem toNat_shiftRight_six (c : UInt32) : (c >>> 6).toNat = c.toNat / 64 := by
  simp [Nat.shiftRight_eq_div_pow]

theorem writeBytes_eq (c : UInt32) (hc : c.toNat ≤ 0x10ffff) :
    writeBytes (firstBytes.getD (utf8EncodeLength c) 0) (utf8EncodeLength c) c [] = encoding c.toNat := by
  rw [utf8EncodeLength_eq c hc]
  unfold encoding
  split_ifs with h1 h2 h3
  · have hlead := lead_byte c 0 128 (by decide +kernel) (by omega) (by decide)
    rw [Nat.mod_eq_of_lt (by omega)] at hlead
    exact congrArg (· :: []) hlead
  · have hlead := lead_byte (c >>> 6) 0xc0 0x20 (by decide +kernel)
      (by rw [toNat_shiftRight_six]; omega) (by decide)
    rw [toNat_shiftRight_six] at hlead
    rw [← continuation_byte]
    exact congrArg (· :: _) hlead
  · have hlead := lead_byte (c >>> 6 >>> 6) 0xe0 0x10 (by decide +kernel)
      (by rw [toNat_shiftRight_six, toNat_shiftRight_six]; omega) (by decide)
    rw [toNat_shiftRight_six, toNat_shiftRight_six, Nat.div_div_eq_div_mul] at hlead
    rw [← continuation_byte, ← toNat_shiftRight_six, ← continuation_byte]
    exact congrArg (· :: _) hlead
  · have hlead := lead_byte (c >>> 6 >>> 6 >>> 6) 0xf0 0x08 (by decide +kernel)
      (by rw [toNat_shiftRight_six, toNat_shiftRight_six, toNat_shiftRight_six]; omega) (by decide)
    have hmiddle := continuation_byte (c >>> 6 >>> 6)
    rw [toNat_shiftRight_six, toNat_shiftRight_six, Nat.div_div_eq_div_mul] at hmiddle
    rw [toNat_shiftRight_six, toNat_shiftRight_six, toNat_shiftRight_six, Nat.div_div_eq_div_mul,
      Nat.div_div_eq_div_mul] at hlead
    rw [← continuation_byte, ← toNat_shiftRight_six, ← continuation_byte, ← hmiddle]
    exact congrArg (· :: _) hlead

/-- `utf8_Encode` writes the encoding of the code point or of its substitute. -/
theorem utf8Encode_eq (c : UInt32) :
    utf8Encode c = ((encoding (substitute c).toNat).length, encoding (substitute c).toNat) := by
  have hc := toNat_substitute_le c
  unfold utf8Encode
  simp only
  rw [writeBytes_eq _ hc, utf8EncodeLength_eq _ hc]

/-! ### The decoder -/

/-- The bytes of a sequence as digits to the base 64, carries and all. -/
def weigh : Nat → List UInt8 → Nat → Nat
  | 0, utf8, n => n + (utf8.headD 0).toNat
  | trailingBytes + 1, utf8, n => weigh trailingBytes utf8.tail ((n + (utf8.headD 0).toNat) * 64)

theorem weigh_modEq (k : Nat) (utf8 : List UInt8) {n m : Nat} (h : n ≡ m [MOD 2 ^ 32]) :
    weigh k utf8 n ≡ weigh k utf8 m [MOD 2 ^ 32] := by
  induction k generalizing utf8 n m with
  | zero => exact h.add_right _
  | succ k ih => exact ih utf8.tail ((h.add_right _).mul_right 64)

theorem toNat_readBytes (k : Nat) (utf8 : List UInt8) (output : UInt32) :
    (readBytes k utf8 output).toNat ≡ weigh k utf8 output.toNat [MOD 2 ^ 32] := by
  induction k generalizing utf8 output with
  | zero =>
    simp only [readBytes, weigh, UInt32.toNat_add, UInt8.toNat_toUInt32]
    exact Nat.mod_modEq _ _
  | succ k ih =>
    refine (ih _ _).trans (weigh_modEq k _ ?_)
    have hshift : ((output + (utf8.headD 0).toUInt32) <<< 6).toNat =
        (output.toNat + (utf8.headD 0).toNat) % 2 ^ 32 * 64 % 2 ^ 32 := by
      simp [Nat.shiftLeft_eq]
    rw [hshift]
    exact (Nat.mod_modEq _ _).trans ((Nat.mod_modEq _ _).mul_right 64)

theorem trailing_getD : ∀ n < 256, trailing.getD n 0 =
    if n < 0xc0 then 0 else if n < 0xe0 then 1 else if n < 0xf0 then 2 else if n < 0xf8 then 3
      else if n < 0xfc then 4 else 5 := by
  decide +kernel

/-- The number of trailing bytes the lead byte calls for. -/
def trailingBytes (utf8 : List UInt8) : Nat := trailing.getD (utf8.headD 0).toNat 0

/-- An overlong or invalid leader, or fewer bytes than it calls for. -/
def Refused (utf8 : List UInt8) (length : Nat) : Prop :=
  (utf8.headD 0).toNat = 0xc0 ∨ (utf8.headD 0).toNat = 0xc1 ∨ 0xf5 ≤ (utf8.headD 0).toNat ∨
    length ≤ trailingBytes utf8

theorem refused_iff (utf8 : List UInt8) (length : Nat) :
    Refused utf8 length ↔
      (utf8ContinuationMin ≤ utf8.headD 0 ∧ utf8.headD 0 ≤ utf8OverlongLeader2) ∨
        (utf8InvalidLeaderMin ≤ utf8.headD 0 ∧ utf8.headD 0 ≤ utf8InvalidLeaderMax) ∨
          length < trailing.getD (utf8.headD 0).toNat 0 + 1 := by
  have hlt := (utf8.headD 0).toNat_lt
  unfold Refused trailingBytes
  simp only [UInt8.le_iff_toNat_le, utf8ContinuationMin, utf8OverlongLeader2, utf8InvalidLeaderMin,
    utf8InvalidLeaderMax, UInt8.reduceToNat]
  omega

theorem utf8Decode_refused {utf8 : List UInt8} {length : Nat} (h : Refused utf8 length) :
    utf8Decode utf8 length = (1, unicodeError) :=
  if_pos ((refused_iff utf8 length).mp h)

theorem utf8Decode_read {utf8 : List UInt8} {length : Nat} (h : ¬ Refused utf8 length) :
    utf8Decode utf8 length =
      (trailingBytes utf8 + 1,
        readBytes (trailingBytes utf8) utf8 0 - offsets.getD (trailingBytes utf8) 0) :=
  if_neg fun hrefused => h ((refused_iff utf8 length).mpr hrefused)

/-- The digits of a sequence fix what is stored, up to the width of a code point. -/
theorem stored_modEq {utf8 : List UInt8} {length : Nat} (h : ¬ Refused utf8 length) :
    (utf8Decode utf8 length).2.toNat + (offsets.getD (trailingBytes utf8) 0).toNat ≡
      weigh (trailingBytes utf8) utf8 0 [MOD 2 ^ 32] := by
  rw [utf8Decode_read h]
  have hcancel := congrArg UInt32.toNat
    (UInt32.sub_add_cancel (readBytes (trailingBytes utf8) utf8 0) (offsets.getD (trailingBytes utf8) 0))
  rw [UInt32.toNat_add] at hcancel
  calc
    _ ≡ (readBytes (trailingBytes utf8) utf8 0).toNat [MOD 2 ^ 32] := by
      rw [← hcancel]
      exact (Nat.mod_modEq _ _).symm
    _ ≡ weigh (trailingBytes utf8) utf8 0 [MOD 2 ^ 32] := toNat_readBytes _ _ _

theorem utf8Decode_of_weigh {utf8 : List UInt8} {length v : Nat} (h : ¬ Refused utf8 length)
    (hv : v < 2 ^ 32)
    (hweigh : weigh (trailingBytes utf8) utf8 0 = v + (offsets.getD (trailingBytes utf8) 0).toNat) :
    utf8Decode utf8 length = (trailingBytes utf8 + 1, UInt32.ofNat v) := by
  have hstored := stored_modEq h
  rw [hweigh] at hstored
  have hmod := Nat.ModEq.add_right_cancel' _ hstored
  have heq : (utf8Decode utf8 length).2.toNat = v :=
    Nat.ModEq.eq_of_lt_of_lt hmod (UInt32.toNat_lt _) hv
  refine Prod.ext ?_ (UInt32.toNat_inj.mp ?_)
  · rw [utf8Decode_read h]
  · rw [heq, UInt32.toNat_ofNat', Nat.mod_eq_of_lt hv]

/-- The lead byte of an encoding calls for the bytes that follow it, and the digits make the number. -/
theorem encoding_spec {v : Nat} (hv : v ≤ 0x10ffff) (rest : List UInt8) :
    trailingBytes (encoding v ++ rest) + 1 = (encoding v).length ∧
      ((encoding v ++ rest).headD 0).toNat ∉ [0xc0, 0xc1] ∧
      ((encoding v ++ rest).headD 0).toNat < 0xf5 ∧
      weigh (trailingBytes (encoding v ++ rest)) (encoding v ++ rest) 0 =
        v + (offsets.getD (trailingBytes (encoding v ++ rest)) 0).toNat := by
  have hbyte : ∀ n < 256, (UInt8.ofNat n).toNat = n := fun n hn => by
    rw [UInt8.toNat_ofNat', Nat.mod_eq_of_lt hn]
  have hcont : ∀ n, (UInt8.ofNat (n % 0x40 + 0x80)).toNat = n % 0x40 + 0x80 := fun n => hbyte _ (by omega)
  unfold trailingBytes encoding
  split_ifs with h1 h2 h3
  all_goals simp only [List.cons_append, List.nil_append, List.headD_cons]
  · have hlead := hbyte v (by omega)
    have htable : trailing.getD v 0 = 0 := by
      rw [trailing_getD v (by omega), if_pos (by omega)]
    rw [hlead, htable]
    refine ⟨rfl, by simp; omega, by omega, ?_⟩
    simp only [weigh, List.headD_cons, hlead]
    exact Nat.zero_add v
  · have hlead := hbyte (v / 64 % 0x20 + 0xc0) (by omega)
    have htable : trailing.getD (v / 64 % 0x20 + 0xc0) 0 = 1 := by
      rw [trailing_getD _ (by omega), if_neg (by omega), if_pos (by omega)]
    have hoffset : (offsets.getD 1 0).toNat = 0x3080 := rfl
    rw [hlead, htable, hoffset]
    refine ⟨rfl, by simp; omega, by omega, ?_⟩
    simp only [weigh, List.headD_cons, List.tail_cons, hlead, hcont]
    omega
  · have hlead := hbyte (v / 4096 % 0x10 + 0xe0) (by omega)
    have htable : trailing.getD (v / 4096 % 0x10 + 0xe0) 0 = 2 := by
      rw [trailing_getD _ (by omega), if_neg (by omega), if_neg (by omega), if_pos (by omega)]
    have hoffset : (offsets.getD 2 0).toNat = 0xE2080 := rfl
    rw [hlead, htable, hoffset]
    refine ⟨rfl, by simp, by omega, ?_⟩
    simp only [weigh, List.headD_cons, List.tail_cons, hlead, hcont]
    omega
  · have hlead := hbyte (v / 262144 % 0x08 + 0xf0) (by omega)
    have htable : trailing.getD (v / 262144 % 0x08 + 0xf0) 0 = 3 := by
      rw [trailing_getD _ (by omega), if_neg (by omega), if_neg (by omega), if_neg (by omega),
        if_pos (by omega)]
    have hoffset : (offsets.getD 3 0).toNat = 0x3C82080 := rfl
    rw [hlead, htable, hoffset]
    refine ⟨rfl, by simp, by omega, ?_⟩
    simp only [weigh, List.headD_cons, List.tail_cons, hlead, hcont]
    omega

/-- **Decoding an encoding**, of surrogates too, gives the number back, whatever follows it. -/
theorem utf8Decode_encoding {v : Nat} (hv : v ≤ 0x10ffff) (rest : List UInt8) {length : Nat}
    (hlength : (encoding v).length ≤ length) :
    utf8Decode (encoding v ++ rest) length = ((encoding v).length, UInt32.ofNat v) := by
  obtain ⟨hlen, hoverlong, hinvalid, hweigh⟩ := encoding_spec hv rest
  have hrefused : ¬ Refused (encoding v ++ rest) length := by
    simp only [List.mem_cons, List.not_mem_nil, or_false] at hoverlong
    unfold Refused
    omega
  rw [utf8Decode_of_weigh hrefused (by omega) hweigh, hlen]

/-! ### What is accepted -/

/-- What `utf8_Decode` is meant to do: it reads the character that some prefix encodes, and stores
the replacement character when there is none. -/
def Accepts (utf8 : List UInt8) (length : Nat) : Prop :=
  (∀ c : Char, String.utf8EncodeChar c <+: utf8.take length →
      utf8Decode utf8 length = ((String.utf8EncodeChar c).length, c.val)) ∧
    ((∀ c : Char, ¬ String.utf8EncodeChar c <+: utf8.take length) →
      (utf8Decode utf8 length).2 = unicodeError)

/-- The bytes of a long sequence, well formed or not, that add up to the replacement character. -/
def SumsToError (utf8 : List UInt8) : Prop :=
  (0xe0 ≤ (utf8.getD 0 0).toNat ∧ (utf8.getD 0 0).toNat ≤ 0xef ∧
      (utf8.getD 0 0).toNat * 4096 + (utf8.getD 1 0).toNat * 64 + (utf8.getD 2 0).toNat = 0xF207D) ∨
    (0xf0 ≤ (utf8.getD 0 0).toNat ∧ (utf8.getD 0 0).toNat ≤ 0xf4 ∧
      (utf8.getD 0 0).toNat * 262144 + (utf8.getD 1 0).toNat * 4096 + (utf8.getD 2 0).toNat * 64 +
        (utf8.getD 3 0).toNat = 0x3C9207D)

theorem utf8Decode_of_prefix {utf8 : List UInt8} {length : Nat} {c : Char}
    (hstart : String.utf8EncodeChar c <+: utf8.take length) :
    utf8Decode utf8 length = ((String.utf8EncodeChar c).length, c.val) := by
  have hc : c.val.toNat ≤ 0x10ffff := by
    have hvalid := c.valid
    unfold UInt32.isValidChar Nat.isValidChar at hvalid
    omega
  have hlength : (String.utf8EncodeChar c).length ≤ length :=
    hstart.length_le.trans (List.length_take_le _ _)
  obtain ⟨rest, hrest⟩ := hstart.trans (List.take_prefix _ _)
  rw [← encoding_char] at hlength hrest ⊢
  rw [← hrest, utf8Decode_encoding hc rest hlength, UInt32.ofNat_toNat]

theorem weigh_digits (utf8 : List UInt8) :
    weigh 0 utf8 0 = (utf8.getD 0 0).toNat ∧
      weigh 1 utf8 0 = (utf8.getD 0 0).toNat * 64 + (utf8.getD 1 0).toNat ∧
      weigh 2 utf8 0 =
        (utf8.getD 0 0).toNat * 4096 + (utf8.getD 1 0).toNat * 64 + (utf8.getD 2 0).toNat ∧
      weigh 3 utf8 0 =
        (utf8.getD 0 0).toNat * 262144 + (utf8.getD 1 0).toNat * 4096 + (utf8.getD 2 0).toNat * 64 +
          (utf8.getD 3 0).toNat := by
  have hhead : ∀ l : List UInt8, l.headD 0 = l.getD 0 0 := fun l => by cases l <;> rfl
  have htail : ∀ (l : List UInt8) i, l.tail.getD i 0 = l.getD (i + 1) 0 := fun l i => by cases l <;> rfl
  simp only [weigh, hhead, htail, Nat.zero_add, Nat.reduceAdd]
  exact ⟨trivial, trivial, by omega, by omega⟩

/-- What passes the checks and stores the replacement character: no sequence of one or two bytes
does. -/
theorem stored_error_iff {utf8 : List UInt8} {length : Nat} (h : ¬ Refused utf8 length) :
    (utf8Decode utf8 length).2 = unicodeError ↔ SumsToError utf8 := by
  have hstored := stored_modEq h
  have hhead : utf8.headD 0 = utf8.getD 0 0 := by cases utf8 <;> rfl
  have hlt := (utf8Decode utf8 length).2.toNat_lt
  have h0 := (utf8.getD 0 0).toNat_lt
  have h1 := (utf8.getD 1 0).toNat_lt
  have h2 := (utf8.getD 2 0).toNat_lt
  have h3 := (utf8.getD 3 0).toNat_lt
  have herror : (utf8Decode utf8 length).2 = unicodeError ↔ (utf8Decode utf8 length).2.toNat = 0xfffd :=
    UInt32.toNat_inj.symm
  obtain ⟨hw0, hw1, hw2, hw3⟩ := weigh_digits utf8
  unfold Refused trailingBytes at h
  unfold trailingBytes Nat.ModEq at hstored
  rw [herror]
  unfold SumsToError
  rw [hhead] at h hstored
  rw [trailing_getD _ h0] at h hstored
  generalize (utf8Decode utf8 length).2.toNat = stored at hstored hlt ⊢
  split_ifs at h hstored
  · have hoffset : (offsets.getD 0 0).toNat = 0 := rfl
    rw [hw0, hoffset] at hstored
    omega
  · have hoffset : (offsets.getD 1 0).toNat = 0x3080 := rfl
    rw [hw1, hoffset] at hstored
    omega
  · have hoffset : (offsets.getD 2 0).toNat = 0xE2080 := rfl
    rw [hw2, hoffset] at hstored
    omega
  · have hoffset : (offsets.getD 3 0).toNat = 0x3C82080 := rfl
    rw [hw3, hoffset] at hstored
    omega
  · omega
  · omega

/-- **What `utf8_Decode` accepts.** It does what it is meant to do on well-formed input, on what its
checks refuse, and where malformed bytes add up to the replacement character by chance. -/
theorem accepts_iff (utf8 : List UInt8) (length : Nat) :
    Accepts utf8 length ↔
      (∃ c : Char, String.utf8EncodeChar c <+: utf8.take length) ∨ Refused utf8 length ∨
        SumsToError utf8 := by
  constructor
  · rintro ⟨-, herror⟩
    apply or_iff_not_imp_left.mpr
    intro hnone
    apply or_iff_not_imp_left.mpr
    intro hrefused
    exact (stored_error_iff hrefused).mp (herror (not_exists.mp hnone))
  · intro hcond
    refine ⟨fun c => utf8Decode_of_prefix, fun hnone => ?_⟩
    rcases hcond with ⟨c, hc⟩ | hrefused | hsum
    · exact absurd hc (hnone c)
    · rw [utf8Decode_refused hrefused]
    · by_cases hrefused : Refused utf8 length
      · rw [utf8Decode_refused hrefused]
      · exact (stored_error_iff hrefused).mpr hsum

/-- A continuation byte on its own comes out as the code point of its number. -/
theorem stray_continuation_accepted : ¬ Accepts [0x80] 1 := by
  rintro ⟨hread, herror⟩
  have hdecode : utf8Decode [0x80] 1 = (1, 0x80) := by decide
  refine absurd (herror fun c hc => ?_) (by rw [hdecode]; decide)
  have hc' := hread c hc
  rw [hdecode, ← encoding_char] at hc'
  obtain ⟨hlength, hval⟩ := Prod.mk.inj hc'
  rw [← hval] at hlength
  exact absurd hlength (by decide)

/-! ### Sequences -/

theorem decodeAll_from (codepoints : List UInt32) (before : List UInt8) :
    decodeAll (before ++ encodeAll codepoints) before.length =
      (codepoints.map substitute, (before ++ encodeAll codepoints).length) := by
  induction codepoints generalizing before with
  | nil =>
    rw [decodeAll]
    simp [encodeAll]
  | cons c rest ih =>
    set bytes := encoding (substitute c).toNat with hbytes
    have hpos : 0 < bytes.length := encoding_length_pos _
    have hcons : encodeAll (c :: rest) = bytes ++ encodeAll rest := by
      simp [encodeAll, utf8Encode_eq, hbytes]
    have hdrop : (before ++ (bytes ++ encodeAll rest)).drop before.length = bytes ++ encodeAll rest :=
      List.drop_left
    have hdecode : utf8Decode (bytes ++ encodeAll rest)
        ((before ++ (bytes ++ encodeAll rest)).length - before.length) =
          (bytes.length, substitute c) := by
      rw [hbytes, utf8Decode_encoding (toNat_substitute_le c), UInt32.ofNat_toNat]
      simp only [List.length_append]
      omega
    have hrest := ih (before ++ bytes)
    rw [List.append_assoc, List.length_append] at hrest
    rw [hcons, decodeAll, if_pos (by simp only [List.length_append]; omega)]
    simp only [hdrop, hdecode, hrest, List.map_cons]

/-- **Round trip.** The code points of a text come back, the invalid ones substituted, and the loop
ends at the end of the bytes. -/
theorem decodeAll_encodeAll (codepoints : List UInt32) :
    decodeAll (encodeAll codepoints) 0 = (codepoints.map substitute, (encodeAll codepoints).length) ∧
      ∀ c ∈ codepoints, (utf8Encode c).1 = utf8EncodeLength (substitute c) ∧
        (utf8Encode c).2.length = (utf8Encode c).1 := by
  refine ⟨decodeAll_from codepoints [], fun c _ => ⟨rfl, ?_⟩⟩
  rw [utf8Encode_eq]

end Helos
