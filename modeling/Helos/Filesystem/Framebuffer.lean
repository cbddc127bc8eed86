import Helos.Filesystem.Vfs
import Helos.Graphics.Screen

/-!
# The framebuffer device

`__Framebuffer_Write` of `driver/filesystem/devfs/framebuffer.cpp`. The offsets of the file are
narrowed to an `int` number of pixels before they are compared with the number of pixels of the
screen, and only from above; with the size of the back buffer they are not compared. Memory is addressed
by bytes, from where `graphics_Framebuffer` points to: the start of `graphics_Doublebuffer`.
-/

namespace Helos.Filesystem

open Graphics

/-- The value of an expression of type `int`. -/
def intValue (x : Int) : Option Int := if IsInt x then some x else none

/-- `memcpy` of the first `n` bytes. A length below zero makes it run away, and what is stored outside
`graphics_Doublebuffer` is undefined. -/
def copyBytes (framebuffer : Int → UInt8) (buffer : List UInt8) (start n : Int) :
    Option (Int → UInt8) :=
  if 0 ≤ n ∧ n ≤ buffer.length ∧ (n = 0 ∨ 0 ≤ start ∧ start + n ≤ 4 * doublebufferSize) then
    some fun k =>
      if start ≤ k ∧ k < start + n then buffer.getD (k - start).toNat 0 else framebuffer k
  else none

def clampPixels (pixels n : Int) : Int := if n > pixels then pixels else n

/-- The copy and the result, for the pixels from `xy` up to `xyend`. -/
def writePixels (framebuffer : Int → UInt8) (buffer : List UInt8) (xy xyend : Int) :
    Option ((Int → UInt8) × Nat) := do
  let start ← intValue (xy * 4)
  let length ← intValue (xyend - xy)
  let bytes ← intValue (length * 4)
  let framebuffer ← copyBytes framebuffer buffer start bytes
  some (framebuffer, bytes.toNat)

/-- `__Framebuffer_Write`, with the number that is returned as a `uintptr_t`. -/
def framebufferWrite (mode : Mode) (framebuffer : Int → UInt8) (buffer : List UInt8)
    (count offset : UInt64) : Option ((Int → UInt8) × Nat) :=
  if offset % 4 ≠ 0 ∨ count % 4 ≠ 0 then some (framebuffer, (-eINVAL % 2 ^ 64).toNat)
  else do
    let pixels ← intValue (mode.width * mode.height)
    let xy := clampPixels pixels (toInt (offset / 4).toNat)
    let xyend := clampPixels pixels (toInt ((offset + count) / 4).toNat)
    writePixels framebuffer buffer xy xyend

/-! ### The specification -/

/-- The bytes `[offset, offset + count)` that the screen has are those of the buffer, no other changes,
and their number is returned. -/
structure Clamped (mode : Mode) (framebuffer : Int → UInt8) (buffer : List UInt8) (count offset : Nat)
    (result : Int → UInt8) (ret : Nat) : Prop where
  inside : ∀ k : Int, offset ≤ k → k < offset + count → k < 4 * (mode.width * mode.height) →
    result k = buffer.getD (k - offset).toNat 0
  outside : ∀ k : Int, ¬ ((offset : Int) ≤ k ∧ k < offset + count ∧
    k < 4 * (mode.width * mode.height)) → result k = framebuffer k
  ret : (ret : Int) = max 0 (min (offset + count : Int) (4 * (mode.width * mode.height)) - offset)

/-- When narrowing the two pixel numbers, of which the second is the end, does no harm. -/
def NarrowsWell (pixels : Int) (xy xyend : Nat) : Prop :=
  xyend < 2 ^ 31 ∨ xy < 2 ^ 31 ∧ pixels ≤ toInt xyend ∨
    2 ^ 31 ≤ xy ∧ (toInt xy = toInt xyend ∨ pixels ≤ toInt xy ∧ pixels ≤ toInt xyend)

/-- No `int` overflows: not the number of pixels, not the byte that is first written, and not the number
of bytes. -/
structure NoOverflow (pixels : Int) (xy n : Nat) : Prop where
  area : IsInt pixels
  start_ge : -2 ^ 29 ≤ toInt xy ∧ -2 ^ 29 ≤ pixels
  start_lt : toInt xy < 2 ^ 29 ∨ pixels < 2 ^ 29
  bytes : (n : Int) < 2 ^ 29 ∨ pixels - xy < 2 ^ 29

/-- The pixels that are to be written, if there are any, are in the back buffer. -/
def InBackBuffer (pixels : Int) (xy n : Nat) : Prop :=
  min (xy + n : Int) pixels ≤ xy ∨ min (xy + n : Int) pixels ≤ doublebufferSize

variable {pixels : Int} {xy n : Nat}

theorem clampPixels_eq (pixels n : Int) : clampPixels pixels n = min n pixels := by
  unfold clampPixels
  split <;> omega

/-- The numbers of pixels; the sum may wrap around. -/
theorem toInt_pixels {count offset : UInt64} (hoffset : offset.toNat = 4 * xy)
    (hcount : count.toNat = 4 * n) :
    toInt (offset / 4).toNat = toInt xy ∧ toInt ((offset + count) / 4).toNat = toInt (xy + n) := by
  rw [UInt64.toNat_div, UInt64.toNat_div, UInt64.toNat_add, hoffset, hcount]
  change toInt (4 * xy / 4) = _ ∧ toInt ((4 * xy + 4 * n) % 2 ^ 64 / 4) = _
  constructor
  · apply toInt_congr
    omega
  · apply toInt_congr
    omega

/-- The clamped numbers are apart by what is to be written exactly when narrowing does no harm. -/
theorem narrowsWell_iff (hpixels : IsInt pixels) :
    min (toInt (xy + n)) pixels - min (toInt xy) pixels = max 0 (min (xy + n : Int) pixels - xy) ↔
      NarrowsWell pixels xy (xy + n) := by
  have hxy := toInt_bounds xy
  have hend := toInt_bounds (xy + n)
  unfold IsInt at hpixels
  unfold NarrowsWell
  by_cases hlow : xy + n < 2 ^ 31
  · rw [toInt_of_lt hlow, toInt_of_lt (show xy < 2 ^ 31 by omega)]
    push_cast
    omega
  · by_cases hstart : xy < 2 ^ 31
    · rw [toInt_of_lt hstart]
      omega
    · omega

theorem intValue_eq_some {x y : Int} : intValue x = some y ↔ IsInt x ∧ x = y := by
  unfold intValue
  split
  · next h => rw [Option.some_inj, and_iff_right h]
  · next h => exact iff_of_false (Option.some_ne_none y).symm fun hx => h hx.1

theorem writePixels_cases {framebuffer result : Int → UInt8} {buffer : List UInt8} {start stop : Int}
    {ret : Nat} (h : writePixels framebuffer buffer start stop = some (result, ret)) :
    IsInt (start * 4) ∧ IsInt ((stop - start) * 4) ∧ 0 ≤ stop - start ∧
      (stop = start ∨ 0 ≤ start ∧ stop ≤ doublebufferSize) ∧ (ret : Int) = (stop - start) * 4 := by
  obtain ⟨first, hfirst, hrest⟩ := Option.bind_eq_some_iff.mp h
  obtain ⟨length, hlength, hrest⟩ := Option.bind_eq_some_iff.mp hrest
  obtain ⟨bytes, hbytes, hrest⟩ := Option.bind_eq_some_iff.mp hrest
  obtain ⟨copied, hcopied, heq⟩ := Option.bind_eq_some_iff.mp hrest
  obtain ⟨hstart, rfl⟩ := intValue_eq_some.mp hfirst
  obtain ⟨-, rfl⟩ := intValue_eq_some.mp hlength
  obtain ⟨hint, rfl⟩ := intValue_eq_some.mp hbytes
  obtain ⟨-, rfl⟩ := Prod.mk.inj (Option.some.inj heq)
  unfold copyBytes at hcopied
  split at hcopied
  · exact ⟨hstart, hint, by omega, by omega, by omega⟩
  · cases hcopied

theorem writePixels_eq (framebuffer : Int → UInt8) (buffer : List UInt8) (start stop : Int)
    (hstart : IsInt (start * 4)) (hbytes : IsInt ((stop - start) * 4)) (hle : start ≤ stop)
    (hbuffer : (stop - start) * 4 ≤ buffer.length)
    (hinside : stop = start ∨ 0 ≤ start ∧ stop ≤ doublebufferSize) :
    writePixels framebuffer buffer start stop = some
      (fun k => if start * 4 ≤ k ∧ k < start * 4 + (stop - start) * 4 then
          buffer.getD (k - start * 4).toNat 0
        else framebuffer k, ((stop - start) * 4).toNat) := by
  have hlength : IsInt (stop - start) := by
    unfold IsInt at hbytes ⊢
    omega
  have hcopy : 0 ≤ (stop - start) * 4 ∧ (stop - start) * 4 ≤ buffer.length ∧
      ((stop - start) * 4 = 0 ∨
        0 ≤ start * 4 ∧ start * 4 + (stop - start) * 4 ≤ 4 * doublebufferSize) := by omega
  simp only [writePixels, intValue, if_pos hstart, if_pos hlength, if_pos hbytes, copyBytes,
    if_pos hcopy, Option.bind_eq_bind, Option.bind_some]

theorem framebufferWrite_eq (mode : Mode) (framebuffer : Int → UInt8) (buffer : List UInt8)
    {count offset : UInt64} (hoffset : offset.toNat = 4 * xy) (hcount : count.toNat = 4 * n) :
    framebufferWrite mode framebuffer buffer count offset =
      (intValue (mode.width * mode.height)).bind fun pixels =>
        writePixels framebuffer buffer (min (toInt xy) pixels) (min (toInt (xy + n)) pixels) := by
  have haligned : ¬ (offset % 4 ≠ 0 ∨ count % 4 ≠ 0) := by
    rw [not_or, not_not, not_not, ← UInt64.toNat_inj, ← UInt64.toNat_inj, UInt64.toNat_mod,
      UInt64.toNat_mod, hoffset, hcount]
    exact ⟨Nat.mul_mod_right 4 xy, Nat.mul_mod_right 4 n⟩
  obtain ⟨hxy, hend⟩ := toInt_pixels hoffset hcount
  simp only [framebufferWrite, if_neg haligned, hxy, hend, clampPixels_eq, Option.bind_eq_bind]

variable {mode : Mode} {framebuffer result : Int → UInt8} {buffer : List UInt8} {ret : Nat}

/-- Either the pixels start behind the screen, or narrowing does not change where. -/
theorem start_eq_or_behind (hint : IsInt pixels) (xy : Nat) : pixels ≤ xy ∨ toInt xy = xy := by
  by_cases hlow : xy < 2 ^ 31
  · exact Or.inr (toInt_of_lt hlow)
  · unfold IsInt at hint
    omega

/-- What is stored is what is to be written, so that the two have a place together. -/
theorem inBackBuffer_iff (hint : IsInt pixels) (hnarrow : NarrowsWell pixels xy (xy + n)) :
    (min (toInt (xy + n)) pixels = min (toInt xy) pixels ∨
        0 ≤ min (toInt xy) pixels ∧ min (toInt (xy + n)) pixels ≤ doublebufferSize) ↔
      InBackBuffer pixels xy n := by
  have hapart := (narrowsWell_iff hint).mpr hnarrow
  have hplace := start_eq_or_behind hint xy
  unfold InBackBuffer
  omega

theorem fits_of_clamped (hint : IsInt (mode.width * mode.height))
    (hwrite : writePixels framebuffer buffer (min (toInt xy) (mode.width * mode.height))
      (min (toInt (xy + n)) (mode.width * mode.height)) = some (result, ret))
    (hclamped : Clamped mode framebuffer buffer (4 * n) (4 * xy) result ret) :
    NoOverflow (mode.width * mode.height) xy n ∧
      NarrowsWell (mode.width * mode.height) xy (xy + n) ∧
      InBackBuffer (mode.width * mode.height) xy n := by
  obtain ⟨hstart, hbytes, hle, hinside, hret⟩ := writePixels_cases hwrite
  have hxy := toInt_bounds xy
  have hnumber := hclamped.ret
  rw [hret] at hnumber
  generalize mode.width * mode.height = pixels at *
  have hapart : min (toInt (xy + n)) pixels - min (toInt xy) pixels =
      max 0 (min (xy + n : Int) pixels - xy) := by
    push_cast at hnumber
    omega
  have hnarrow := (narrowsWell_iff hint).mp hapart
  refine ⟨?_, hnarrow, (inBackBuffer_iff hint hnarrow).mp hinside⟩
  unfold IsInt at hstart hbytes hint
  constructor
  · exact hint
  · omega
  · omega
  · omega

theorem clamped_of_fits (framebuffer : Int → UInt8) (hbuffer : buffer.length = 4 * n)
    (hfits : NoOverflow (mode.width * mode.height) xy n)
    (hnarrow : NarrowsWell (mode.width * mode.height) xy (xy + n))
    (hinside : InBackBuffer (mode.width * mode.height) xy n) :
    ∃ result ret, writePixels framebuffer buffer (min (toInt xy) (mode.width * mode.height))
        (min (toInt (xy + n)) (mode.width * mode.height)) = some (result, ret) ∧
      Clamped mode framebuffer buffer (4 * n) (4 * xy) result ret := by
  obtain ⟨hint, hstart, hstart', hbytes⟩ := hfits
  have hxy := toInt_bounds xy
  have hapart := (narrowsWell_iff hint).mpr hnarrow
  have hplace := start_eq_or_behind hint xy
  have hstored := (inBackBuffer_iff hint hnarrow).mpr hinside
  generalize hpixels : mode.width * mode.height = pixels at *
  have hwrite := writePixels_eq framebuffer buffer (min (toInt xy) pixels)
    (min (toInt (xy + n)) pixels) (by unfold IsInt; omega) (by unfold IsInt; omega) (by omega)
    (by omega) hstored
  refine ⟨_, _, hwrite, ?_⟩
  constructor
  · intro k hle hlt hscreen
    rw [hpixels] at hscreen
    rw [if_pos (by omega)]
    congr 2
    omega
  · intro k hout
    rw [hpixels] at hout
    refine if_neg fun hin => hout ?_
    omega
  · rw [hpixels]
    push_cast
    omega

/-- When exactly the bytes that are on the screen are written. -/
theorem framebufferWrite_clamped_iff (mode : Mode) (framebuffer : Int → UInt8) (buffer : List UInt8)
    {count offset : UInt64} (hoffset : offset.toNat = 4 * xy) (hcount : count.toNat = 4 * n)
    (hbuffer : buffer.length = count.toNat) :
    (∃ result ret, framebufferWrite mode framebuffer buffer count offset = some (result, ret) ∧
      Clamped mode framebuffer buffer count.toNat offset.toNat result ret) ↔
        NoOverflow (mode.width * mode.height) xy n ∧
          NarrowsWell (mode.width * mode.height) xy (xy + n) ∧
          InBackBuffer (mode.width * mode.height) xy n := by
  rw [framebufferWrite_eq mode framebuffer buffer hoffset hcount, hoffset, hcount]
  constructor
  · rintro ⟨result, ret, hwrite, hclamped⟩
    obtain ⟨pixels, hpixels, hwrite⟩ := Option.bind_eq_some_iff.mp hwrite
    obtain ⟨hint, rfl⟩ := intValue_eq_some.mp hpixels
    exact fits_of_clamped hint hwrite hclamped
  · rintro ⟨hfits, hnarrow, hinside⟩
    rw [intValue_eq_some.mpr ⟨hfits.area, rfl⟩, Option.bind_some]
    exact clamped_of_fits framebuffer (hbuffer.trans hcount) hfits hnarrow hinside

/-- An offset of `2 ^ 34` bytes is taken for the first pixel of the screen. -/
theorem far_offset_written :
    ¬ ∃ result ret, framebufferWrite ⟨16, 16, 16, .bgra8bit⟩ (fun _ => 0) [1, 2, 3, 4] 4 17179869184 =
        some (result, ret) ∧
      Clamped ⟨16, 16, 16, .bgra8bit⟩ (fun _ => 0) [1, 2, 3, 4] 4 17179869184 result ret := by
  rintro ⟨result, ret, hwrite, hclamped⟩
  have hoffset : (17179869184 : UInt64).toNat = 4 * 2 ^ 32 := by decide
  have hcount : (4 : UInt64).toNat = 4 * 1 := by decide
  rw [framebufferWrite_eq _ _ _ hoffset hcount] at hwrite
  obtain ⟨pixels, hpixels, hwrite⟩ := Option.bind_eq_some_iff.mp hwrite
  obtain ⟨-, rfl⟩ := intValue_eq_some.mp hpixels
  obtain ⟨-, -, -, -, hret⟩ := writePixels_cases hwrite
  have hnumber := hclamped.ret
  rw [hret] at hnumber
  exact absurd hnumber (by decide)

/-- A write that goes on beyond the end of a small screen. -/
theorem last_pixels_written :
    ∃ result ret, framebufferWrite ⟨16, 16, 16, .bgra8bit⟩ (fun _ => 0)
        [1, 2, 3, 4, 5, 6, 7, 8, 9, 10, 11, 12] 12 1016 = some (result, ret) ∧
      Clamped ⟨16, 16, 16, .bgra8bit⟩ (fun _ => 0) [1, 2, 3, 4, 5, 6, 7, 8, 9, 10, 11, 12] 12 1016
        result ret := by
  have hoffset : (1016 : UInt64).toNat = 4 * 254 := by decide
  have hcount : (12 : UInt64).toNat = 4 * 3 := by decide
  have hiff := framebufferWrite_clamped_iff ⟨16, 16, 16, .bgra8bit⟩ (fun _ => 0)
    [1, 2, 3, 4, 5, 6, 7, 8, 9, 10, 11, 12] hoffset hcount rfl
  refine hiff.mpr ⟨⟨by decide, by decide, by decide, by decide⟩, Or.inl (by decide), Or.inr (by decide)⟩

end Helos.Filesystem
