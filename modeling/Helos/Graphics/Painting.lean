import Helos.Graphics.Presents

/-!
# Painting

`graphics_FillPixel` and `graphics_ClearBuffer` against `graphics_SetPixel`. The fill stores its three
bytes in the same order in both formats, where the single pixel turns them around in one; and the
clear stops after a quarter of the buffer, since its end is counted in bytes from a `void *`.
-/

namespace Helos.Graphics

/-! ### `graphics_ClearBuffer` -/

/-- One turn of its loop, at some byte of the back buffer. -/
def clearTurn (data : UInt32) (turn : Int × Pixels) : Option (Int × Pixels) :=
  if turn.1 < 4 * doublebufferSize then
    some (turn.1 + 4, Function.update turn.2 (turn.1 / 4) data)
  else none

namespace Screen

/-- In other formats `data` is not set. -/
def clearData (screen : Screen) (color : Color) : Option UInt32 :=
  match screen.mode.pixelFormat with
  | .rgba8bit => some (littleEndian32 color.r color.g color.b 0 &&& 0x00ffffff)
  | .bgra8bit => some (color.word &&& 0x00ffffff)
  | _ => none

/-- The buffer is that of `graphics_Init`, at whose end every loop is undefined. The sum of a `void *`
and a number is some bytes on. A last pixel of which only some bytes are cleared is left out. -/
def clearBuffer (screen : Screen) (color : Color) : Option Screen :=
  if color.word = Color.black.word then
    -- The `memset` that is linked stores through all of memory for a count of 0.
    if 0 < screen.framebufferSize ∧ screen.framebufferSize ≤ 4 * doublebufferSize then
      some { screen with
        framebuffer := copyPixels screen.framebuffer (fun _ => 0) 0 0 (screen.framebufferSize / 4) }
    else none
  else do
    let data ← screen.clearData color
    let last ← Loops.whileDo (fun turn => turn.1 ≠ ((screen.framebufferSize / 4 : Nat) : Int))
      (clearTurn data) (doublebufferSize.toNat + 1) (0, screen.framebuffer)
    some { screen with framebuffer := last.2 }

end Screen

/-! ### What a single pixel is -/

/-- What `graphics_SetPixel` stores in the two formats that are drawn. -/
def Color.stored (color : Color) : PixelFormat → UInt32
  | .rgba8bit => littleEndian32 color.r color.g color.b 0
  | _ => color.word &&& 0x00ffffff

def Screen.setPixels (screen : Screen) (pixels : List (Int × Int)) (color : Color) : Option Screen :=
  pixels.foldlM (fun screen p => screen.setPixel p.1 p.2 color) screen

def rectangle (startX startY endX endY : Int) : Set (Int × Int) :=
  {p | startX ≤ p.1 ∧ p.1 < endX ∧ startY ≤ p.2 ∧ p.2 < endY}

/-- The fill stays in the back buffer and leaves there what setting each of the pixels leaves. -/
def Screen.Fills (screen : Screen) (startX startY endX endY : Int) (pixels : List (Int × Int))
    (color : Color) : Prop :=
  ∃ filled stored, screen.fillPixel startX startY endX endY color = some filled ∧
    screen.setPixels pixels color = some stored ∧ filled.framebuffer = stored.framebuffer

/-- Every pixel of the framebuffer is what `graphics_SetPixel` would store. -/
def Screen.Clears (screen : Screen) (color : Color) : Prop :=
  ∃ cleared, screen.clearBuffer color = some cleared ∧
    ∀ k : Int, 0 ≤ k → k < ((screen.framebufferSize / 4 : Nat) : Int) →
      cleared.framebuffer k = color.stored screen.mode.pixelFormat

theorem littleEndian32_bytes (b₀ b₁ b₂ b₃ : UInt8) :
    (littleEndian32 b₀ b₁ b₂ b₃).toUInt8 = b₀ ∧
      (littleEndian32 b₀ b₁ b₂ b₃ >>> 8).toUInt8 = b₁ ∧
      (littleEndian32 b₀ b₁ b₂ b₃ >>> 16).toUInt8 = b₂ := by
  unfold littleEndian32
  refine ⟨?_, ?_, ?_⟩
  · apply UInt8.toBitVec_inj.mp
    ext i hi
    simp
  · apply UInt8.toBitVec_inj.mp
    ext i hi
    simp [BitVec.getLsbD_eq_getElem hi, show i < 32 by omega, show 8 + i < 16 by omega,
      show 8 + i < 24 by omega, show 8 + i < 32 by omega]
  · apply UInt8.toBitVec_inj.mp
    ext i hi
    have h₀ : b₀.toBitVec.getLsbD (16 + i) = false := BitVec.getLsbD_of_ge _ _ (by omega)
    have h₁ : b₁.toBitVec.getLsbD (16 + i - 8) = false := BitVec.getLsbD_of_ge _ _ (by omega)
    simp [h₀, h₁, BitVec.getLsbD_eq_getElem hi, show i < 32 by omega, show 16 + i < 24 by omega,
      show 16 + i < 32 by omega]

theorem mask_bit : ∀ i (h : i < 32), (0x00ffffff#32)[i] = decide (i < 24) := by
  decide

theorem littleEndian32_and (b₀ b₁ b₂ b₃ : UInt8) :
    littleEndian32 b₀ b₁ b₂ b₃ &&& 0x00ffffff = littleEndian32 b₀ b₁ b₂ 0 := by
  unfold littleEndian32
  apply UInt32.toBitVec_inj.mp
  ext i hi
  by_cases hge : 24 ≤ i
  · have h₀ : b₀.toBitVec.getLsbD i = false := BitVec.getLsbD_of_ge _ _ (by omega)
    have h₁ : b₁.toBitVec.getLsbD (i - 8) = false := BitVec.getLsbD_of_ge _ _ (by omega)
    have h₂ : b₂.toBitVec.getLsbD (i - 16) = false := BitVec.getLsbD_of_ge _ _ (by omega)
    simp [mask_bit i hi, h₀, h₁, h₂, Nat.not_lt.mpr hge]
  · simp [mask_bit i hi, Nat.not_le.mp hge]

theorem Color.stored_bgr (color : Color) :
    color.word &&& 0x00ffffff = littleEndian32 color.b color.g color.r 0 :=
  littleEndian32_and _ _ _ _

theorem Color.filled_eq_stored_iff (color : Color) {format : PixelFormat}
    (hformat : format = .rgba8bit ∨ format = .bgra8bit) :
    littleEndian32 color.b color.g color.r 0 = color.stored format ↔
      format = .bgra8bit ∨ color.b = color.r := by
  rcases hformat with rfl | rfl
  · constructor
    · intro h
      have hbyte := congrArg UInt32.toUInt8 h
      rw [Color.stored, (littleEndian32_bytes _ _ _ _).1, (littleEndian32_bytes _ _ _ _).1] at hbyte
      exact Or.inr hbyte
    · rintro (h | h)
      · cases h
      · rw [Color.stored, h]
  · exact iff_of_true color.stored_bgr.symm (Or.inl rfl)

theorem placed_eq_empty_iff (place : Int → Int → Int) (pixels : Set (Int × Int)) :
    placed place pixels = ∅ ↔ pixels = ∅ := by
  constructor
  · intro h
    apply Set.eq_empty_of_forall_notMem
    intro p hp
    have hmem : place p.1 p.2 ∈ placed place pixels := ⟨p.1, p.2, hp, rfl⟩
    rw [h] at hmem
    exact hmem
  · rintro rfl
    apply Set.eq_empty_of_forall_notMem
    intro k hk
    obtain ⟨x, y, hp, -⟩ := hk
    exact hp

/-! ### Filling and setting -/

section Filling

variable {screen : Screen} (color : Color)

theorem setPixel_stored (hdrawn : screen.mode.IsDrawn) (posX posY : Int) :
    screen.setPixel posX posY color =
      (storePixel screen.mode (color.stored screen.mode.pixelFormat) posX posY
        screen.framebuffer).map fun framebuffer => { screen with framebuffer := framebuffer } := by
  unfold Screen.setPixel
  rcases hdrawn with hformat | hformat
  · rw [hformat]
    exact Option.map_eq_bind.symm
  · rw [hformat]
    exact Option.map_eq_bind.symm

theorem setPixels_stored (hdrawn : screen.mode.IsDrawn) (pixels : List (Int × Int)) :
    (screen.setPixels pixels color).map Screen.framebuffer =
      pixels.foldlM (fun framebuffer p => storePixel screen.mode
        (color.stored screen.mode.pixelFormat) p.1 p.2 framebuffer) screen.framebuffer := by
  unfold Screen.setPixels
  induction pixels generalizing screen with
  | nil => rfl
  | cons p pixels ih =>
    rw [List.foldlM_cons, List.foldlM_cons, setPixel_stored color hdrawn]
    cases storePixel screen.mode (color.stored screen.mode.pixelFormat) p.1 p.2
      screen.framebuffer with
    | none => rfl
    | some framebuffer => exact @ih { screen with framebuffer := framebuffer } hdrawn

/-- The fill stores the bytes of the colour in both formats. -/
theorem fillPixel_stores (hdrawn : screen.mode.IsDrawn) (startX startY endX endY : Int) :
    (screen.fillPixel startX startY endX endY color).map Screen.framebuffer =
      storePixels screen.mode (littleEndian32 color.b color.g color.r 0) startX startY endX endY
        screen.framebuffer := by
  have hmap : ∀ stored : Option Pixels, (stored.bind fun framebuffer =>
      some (({ screen with framebuffer := framebuffer } : Screen).invalidate startX startY
        (endX - startX) (endY - startY))).map Screen.framebuffer = stored := by
    intro stored
    cases stored <;> rfl
  unfold Screen.fillPixel
  rcases hdrawn with hformat | hformat
  · rw [hformat]
    exact hmap _
  · rw [hformat, color.stored_bgr]
    exact hmap _

variable {mode : Mode} (value : UInt32) {startX startY endX endY : Int} {pixels : List (Int × Int)}

theorem foldlM_storePixel_spec (framebuffer : Pixels) (h : ∀ p ∈ pixels, mode.HasPixel p.1 p.2) :
    ∃ result, pixels.foldlM (fun framebuffer p => storePixel mode value p.1 p.2 framebuffer)
        framebuffer = some result ∧
      Patched (placed mode.index {p | p ∈ pixels}) (fun _ => value) framebuffer result := by
  have hplaced : placed mode.index {p | p ∈ pixels} =
      {k | ∃ p ∈ pixels, k ∈ ({mode.index p.1 p.2} : Set Int)} := by
    ext k
    constructor
    · rintro ⟨x, y, hp, hk⟩
      exact ⟨(x, y), hp, hk⟩
    · rintro ⟨p, hp, hk⟩
      exact ⟨p.1, p.2, hp, hk⟩
  rw [hplaced]
  exact Patched.foldlM fun p hp pixels => storePixel_spec value pixels (h p hp)

theorem storePixels_eq_none {p : Int × Int} (hp : p ∈ rectangle startX startY endX endY)
    (h : ¬ mode.HasPixel p.1 p.2) (framebuffer : Pixels) :
    storePixels mode value startX startY endX endY framebuffer = none := by
  obtain ⟨hx, hxe, hy, hye⟩ := hp
  apply Loops.forUpTo_eq_none hx hxe
  intro pixels
  exact Loops.forUpTo_eq_none hy hye fun pixels => if_neg h

/-- A fill whose pixels have places ends, and stores its bytes there. -/
theorem fillPixel_spec (hdrawn : screen.mode.IsDrawn)
    (h : ∀ p ∈ rectangle startX startY endX endY, screen.mode.HasPixel p.1 p.2) :
    ∃ next, screen.fillPixel startX startY endX endY color = some next ∧
      Patched (placed screen.mode.index (rectangle startX startY endX endY))
        (fun _ => littleEndian32 color.b color.g color.r 0) screen.framebuffer next.framebuffer := by
  obtain ⟨framebuffer, hstores, hpatched⟩ := storePixels_spec
    (littleEndian32 color.b color.g color.r 0) screen.framebuffer
    fun x y hx hxe hy hye => h (x, y) ⟨hx, hxe, hy, hye⟩
  have hfill := (fillPixel_stores color hdrawn startX startY endX endY).trans hstores
  obtain ⟨next, hnext, rfl⟩ := Option.map_eq_some_iff.mp hfill
  exact ⟨next, hnext, hpatched⟩

theorem setPixels_spec (hdrawn : screen.mode.IsDrawn)
    (h : ∀ p ∈ pixels, screen.mode.HasPixel p.1 p.2) :
    ∃ next, screen.setPixels pixels color = some next ∧
      Patched (placed screen.mode.index {p | p ∈ pixels})
        (fun _ => color.stored screen.mode.pixelFormat) screen.framebuffer next.framebuffer := by
  obtain ⟨framebuffer, hstores, hpatched⟩ := foldlM_storePixel_spec
    (color.stored screen.mode.pixelFormat) screen.framebuffer h
  have hset := (setPixels_stored color hdrawn pixels).trans hstores
  obtain ⟨next, hnext, rfl⟩ := Option.map_eq_some_iff.mp hset
  exact ⟨next, hnext, hpatched⟩

/-- A fill whose pixels all have places is a sequence of single pixels when the two store the same
value, and when there is no pixel. -/
theorem fills_iff (hdrawn : screen.mode.IsDrawn)
    (hpixels : ∀ p, p ∈ pixels ↔ p ∈ rectangle startX startY endX endY) :
    screen.Fills startX startY endX endY pixels color ↔
      (∀ p ∈ rectangle startX startY endX endY, screen.mode.HasPixel p.1 p.2) ∧
        (screen.mode.pixelFormat = .bgra8bit ∨ color.b = color.r ∨
          rectangle startX startY endX endY = ∅) := by
  by_cases hhas : ∀ p ∈ rectangle startX startY endX endY, screen.mode.HasPixel p.1 p.2
  · have hregion : {p | p ∈ pixels} = rectangle startX startY endX endY := Set.ext hpixels
    obtain ⟨filled, hfilled, hpatched⟩ := fillPixel_spec color hdrawn hhas
    obtain ⟨stored, hstored, hpatched'⟩ :=
      setPixels_spec color hdrawn fun p hp => hhas p ((hpixels p).mp hp)
    rw [hregion] at hpatched'
    have hagree : screen.Fills startX startY endX endY pixels color ↔
        filled.framebuffer = stored.framebuffer := by
      constructor
      · rintro ⟨_, _, hfilled', hstored', heq⟩
        obtain rfl := Option.some.inj (hfilled.symm.trans hfilled')
        obtain rfl := Option.some.inj (hstored.symm.trans hstored')
        exact heq
      · intro heq
        exact ⟨filled, stored, hfilled, hstored, heq⟩
    rw [hagree, hpatched.eq_iff hpatched', placed_eq_empty_iff, color.filled_eq_stored_iff hdrawn,
      or_assoc, and_iff_right hhas]
  · refine iff_of_false ?_ fun h => hhas h.1
    rintro ⟨filled, _, hfilled, -⟩
    apply hhas
    intro p hp
    by_contra hnone
    have hstores := (fillPixel_stores color hdrawn startX startY endX endY).trans
      (storePixels_eq_none _ hp hnone _)
    rw [hfilled] at hstores
    cases hstores

end Filling

/-! ### Clearing -/

section Clearing

variable (data : UInt32) (framebuffer : Pixels)

def clearTrace (n : Nat) : Int × Pixels :=
  (4 * (n : Int), copyPixels framebuffer (fun _ => data) 0 0 n)

theorem clearTrace_zero : clearTrace data framebuffer 0 = (0, framebuffer) := by
  unfold clearTrace
  refine Prod.ext rfl (funext fun k => if_neg ?_)
  omega

theorem clearTurn_trace {n : Nat} (h : (n : Int) < doublebufferSize) :
    clearTurn data (clearTrace data framebuffer n) = some (clearTrace data framebuffer (n + 1)) := by
  unfold clearTurn clearTrace
  dsimp only
  rw [if_pos (by omega), show 4 * (n : Int) / 4 = n by omega]
  have hnext : Function.update (copyPixels framebuffer (fun _ => data) 0 0 n) (n : Int) data =
      copyPixels framebuffer (fun _ => data) 0 0 (n + 1) := by
    funext k
    unfold copyPixels
    rcases eq_or_ne k (n : Int) with rfl | hk
    · rw [Function.update_self, if_pos (by omega)]
    · rw [Function.update_of_ne hk]
      exact if_congr (by omega) rfl rfl
  rw [hnext]
  exact congrArg (fun stop => some (stop, copyPixels framebuffer (fun _ => data) 0 0 (n + 1)))
    (by omega)

theorem clearTrace_follows {m n : Nat} (hle : n ≤ m) (hlt : (n : Int) ≤ doublebufferSize) :
    Loops.Follows (fun turn => turn.1 ≠ ((4 * m : Nat) : Int)) (clearTurn data)
      (clearTrace data framebuffer) n := by
  intro k hk
  refine ⟨?_, clearTurn_trace data framebuffer (by omega)⟩
  unfold clearTrace
  dsimp only
  omega

/-- The loop stops after a quarter of the pixels, if the back buffer has as many. -/
theorem clearLoop_eq {m : Nat} (hfits : (m : Int) ≤ doublebufferSize) :
    Loops.whileDo (fun turn => turn.1 ≠ ((4 * m : Nat) : Int)) (clearTurn data)
        (doublebufferSize.toNat + 1) (0, framebuffer) =
      some (4 * (m : Int), copyPixels framebuffer (fun _ => data) 0 0 m) := by
  have hfollows := clearTrace_follows data framebuffer (Nat.le_refl m) hfits
  have hfuel : doublebufferSize.toNat + 1 = m + (doublebufferSize.toNat - m + 1) := by omega
  rw [← clearTrace_zero data framebuffer, hfuel, hfollows.whileDo]
  refine Loops.whileDo_end ?_
  rw [not_not]
  unfold clearTrace
  dsimp only
  omega

theorem clearLoop_eq_none {m : Nat} (hfits : doublebufferSize < m) :
    Loops.whileDo (fun turn => turn.1 ≠ ((4 * m : Nat) : Int)) (clearTurn data)
        (doublebufferSize.toNat + 1) (0, framebuffer) = none := by
  have hlength : ((doublebufferSize.toNat : Nat) : Int) = doublebufferSize := by decide
  have hfollows := clearTrace_follows (n := doublebufferSize.toNat) data framebuffer
    (m := m) (by omega) hlength.le
  rw [← clearTrace_zero data framebuffer]
  refine hfollows.diverges ?_ ?_ _
  · unfold clearTrace
    dsimp only
    omega
  · refine if_neg ?_
    unfold clearTrace
    dsimp only
    omega

variable {screen : Screen} {color : Color}

theorem clearData_stored (hdrawn : screen.mode.IsDrawn) :
    screen.clearData color = some (color.stored screen.mode.pixelFormat) := by
  unfold Screen.clearData
  rcases hdrawn with hformat | hformat
  · rw [hformat, littleEndian32_and]
    rfl
  · rw [hformat]
    rfl

theorem stored_black (h : color.word = Color.black.word) (format : PixelFormat) :
    color.stored format = 0 := by
  have hbytes := littleEndian32_bytes color.b color.g color.r color.a
  have hword : littleEndian32 color.b color.g color.r color.a = 0xff000000 := h
  rw [hword] at hbytes
  obtain ⟨hb, hg, hr⟩ := hbytes
  have hzero : littleEndian32 color.b color.g color.r 0 = 0 ∧
      littleEndian32 color.r color.g color.b 0 = 0 := by
    rw [← hb, ← hg, ← hr]
    decide
  cases format with
  | rgba8bit => exact hzero.2
  | bgra8bit => exact color.stored_bgr.trans hzero.1
  | bitMask => exact color.stored_bgr.trans hzero.1
  | bltOnly => exact color.stored_bgr.trans hzero.1

/-- Black clears a framebuffer that has a byte and that the back buffer is large enough for. -/
theorem clears_black_iff (hblack : color.word = Color.black.word) :
    screen.Clears color ↔
      0 < screen.framebufferSize ∧ screen.framebufferSize ≤ 4 * doublebufferSize := by
  unfold Screen.Clears Screen.clearBuffer
  rw [if_pos hblack]
  split
  · next hfits =>
    refine iff_of_true ⟨_, rfl, fun k hk hlt => ?_⟩ hfits
    rw [stored_black hblack]
    exact if_pos ⟨hk, by omega⟩
  · next hfits =>
    refine iff_of_false (fun h => ?_) hfits
    obtain ⟨cleared, hnone, -⟩ := h
    cases hnone

/-- Another colour is stored in a quarter of the pixels, and the others have to have it before. -/
theorem clears_color_iff (hdrawn : screen.mode.IsDrawn) (hcolor : color.word ≠ Color.black.word)
    {m : Nat} (hm : screen.framebufferSize = 16 * m) :
    screen.Clears color ↔ (m : Int) ≤ doublebufferSize ∧ ∀ k : Int, (m : Int) ≤ k → k < 4 * m →
      screen.framebuffer k = color.stored screen.mode.pixelFormat := by
  have hcount : screen.framebufferSize / 4 = 4 * m := by omega
  unfold Screen.Clears Screen.clearBuffer
  rw [if_neg hcolor, clearData_stored hdrawn, hcount]
  by_cases hfits : (m : Int) ≤ doublebufferSize
  · have hloop := clearLoop_eq (color.stored screen.mode.pixelFormat) screen.framebuffer hfits
    simp only [Option.bind_eq_bind, Option.bind_some, hloop]
    constructor
    · rintro ⟨cleared, heq, hall⟩
      obtain rfl := Option.some.inj heq
      refine ⟨hfits, fun k hk hlt => ?_⟩
      have hrest := hall k (by omega) (by omega)
      dsimp only at hrest
      unfold copyPixels at hrest
      rwa [if_neg (by omega)] at hrest
    · rintro ⟨-, hrest⟩
      refine ⟨_, rfl, fun k hk hlt => ?_⟩
      dsimp only
      unfold copyPixels
      split
      · rfl
      · exact hrest k (by omega) (by omega)
  · have hloop := clearLoop_eq_none (color.stored screen.mode.pixelFormat) screen.framebuffer
      (Int.not_le.mp hfits)
    simp only [Option.bind_eq_bind, Option.bind_some, hloop, Option.bind_none]
    refine iff_of_false (fun h => ?_) fun h => hfits h.1
    obtain ⟨cleared, hnone, -⟩ := h
    cases hnone

theorem clears_iff (hdrawn : screen.mode.IsDrawn) (hsize : 16 ∣ screen.framebufferSize) :
    screen.Clears color ↔
      (color.word = Color.black.word ∧ 0 < screen.framebufferSize ∧
          screen.framebufferSize ≤ 4 * doublebufferSize) ∨
        color.word ≠ Color.black.word ∧ screen.framebufferSize ≤ 16 * doublebufferSize ∧
          ∀ k : Int, ((screen.framebufferSize / 16 : Nat) : Int) ≤ k →
            k < ((screen.framebufferSize / 4 : Nat) : Int) →
            screen.framebuffer k = color.stored screen.mode.pixelFormat := by
  by_cases hblack : color.word = Color.black.word
  · rw [or_iff_left fun h => h.1 hblack, and_iff_right hblack]
    exact clears_black_iff hblack
  · obtain ⟨m, hm⟩ := hsize
    have hquarter : screen.framebufferSize / 16 = m := by omega
    have hcount : ((screen.framebufferSize / 4 : Nat) : Int) = 4 * m := by omega
    have hfits : (screen.framebufferSize : Int) ≤ 16 * doublebufferSize ↔
        (m : Int) ≤ doublebufferSize := by omega
    rw [or_iff_right fun h => hblack h.1, and_iff_right hblack, hquarter, hcount, hfits]
    exact clears_color_iff hdrawn hblack hm

end Clearing

/-! ### The painting paths together -/

/-- When filling is setting each pixel of the rectangle, and when clearing is setting every pixel. -/
theorem painting_iff (screen : Screen) (hdrawn : screen.mode.IsDrawn) (color : Color) :
    (∀ startX startY endX endY : Int, ∀ pixels : List (Int × Int),
      (∀ p, p ∈ pixels ↔ p ∈ rectangle startX startY endX endY) →
      (screen.Fills startX startY endX endY pixels color ↔
        (∀ p ∈ rectangle startX startY endX endY, screen.mode.HasPixel p.1 p.2) ∧
          (screen.mode.pixelFormat = .bgra8bit ∨ color.b = color.r ∨
            rectangle startX startY endX endY = ∅))) ∧
    (16 ∣ screen.framebufferSize →
      (screen.Clears color ↔
        (color.word = Color.black.word ∧ 0 < screen.framebufferSize ∧
          screen.framebufferSize ≤ 4 * doublebufferSize) ∨
        color.word ≠ Color.black.word ∧ screen.framebufferSize ≤ 16 * doublebufferSize ∧
          ∀ k : Int, ((screen.framebufferSize / 16 : Nat) : Int) ≤ k →
            k < ((screen.framebufferSize / 4 : Nat) : Int) →
            screen.framebuffer k = color.stored screen.mode.pixelFormat)) :=
  ⟨fun _ _ _ _ _ hpixels => fills_iff color hdrawn hpixels, clears_iff hdrawn⟩

/-- A screen of 16 by 16 pixels, all black. -/
def smallScreen (format : PixelFormat) : Screen :=
  { invalidatedScreen := false
    invalidated := []
    mode := ⟨16, 16, 16, format⟩
    framebuffer := fun _ => 0
    deviceFramebuffer := fun _ => 0
    framebufferSize := 1024 }

theorem pixel_of_rectangle (x y : Int) :
    ∀ p, p ∈ [(x, y)] ↔ p ∈ rectangle x y (x + 1) (y + 1) := by
  intro p
  rw [List.mem_singleton]
  unfold rectangle
  rw [Set.mem_ofPred_eq, Prod.ext_iff]
  omega

/-- One red pixel of an RGB screen, and a BGR screen cleared to white. -/
theorem red_pixel_filled_blue :
    ¬ (smallScreen .rgba8bit).Fills 0 0 1 1 [(0, 0)] ⟨0, 0, 0xff, 0xff⟩ ∧
      ¬ (smallScreen .bgra8bit).Clears .white := by
  constructor
  · have hpixel : ∀ p, p ∈ [((0 : Int), (0 : Int))] ↔ p ∈ rectangle 0 0 1 1 := pixel_of_rectangle 0 0
    intro hfills
    rcases ((fills_iff _ (Or.inl rfl) hpixel).mp hfills).2 with h | h | h
    · cases h
    · exact absurd h (by decide)
    · have hmem := (hpixel (0, 0)).mp List.mem_cons_self
      rw [h] at hmem
      exact hmem
  · rw [clears_iff (Or.inr rfl) ⟨64, rfl⟩]
    rintro (h | h)
    · exact absurd h.1 (by decide)
    · have hlast := h.2.2 255 (by decide) (by decide)
      exact absurd hlast (by decide)

/-- A grey pixel, and a screen cleared to black. -/
theorem grey_pixel_and_black_screen :
    (smallScreen .rgba8bit).Fills 3 4 (3 + 1) (4 + 1) [(3, 4)] ⟨7, 7, 7, 0xff⟩ ∧
      (smallScreen .rgba8bit).Clears .black := by
  constructor
  · refine ((painting_iff _ (Or.inl rfl) _).1 _ _ _ _ _ (pixel_of_rectangle 3 4)).mpr
      ⟨fun p hp => ?_, Or.inr (Or.inl rfl)⟩
    obtain rfl := List.mem_singleton.mp ((pixel_of_rectangle 3 4 p).mpr hp)
    decide
  · exact ((painting_iff _ (Or.inl rfl) _).2 ⟨64, rfl⟩).mpr (Or.inl ⟨rfl, by decide, by decide⟩)

end Helos.Graphics
