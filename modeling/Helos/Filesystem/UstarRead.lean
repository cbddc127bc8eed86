import Helos.Driver.BlockDevice
import Helos.Filesystem.UstarPaths
import Helos.Memory.KernelMapping
import Helos.Theory.Loops

/-!
# Reading a file of an archive

`USTAR::Read`. Each turn of its loop asks the device for no block at all, of the archive and not of
the file, and copies what the stack holds to the end of a block. Its bound moves on with the offset:
with a byte to read the loop does not end before its `int` overflows. What is left are the calls that
have nothing to read.
-/

namespace Helos

/-- `ReadBlock` into a buffer: the blocks that there are, and what the buffer held behind them. -/
def BlockDevice.readBlock (block : BlockDevice) (offset : Nat) (data : List UInt8) (count : Nat) :
    List UInt8 :=
  let count := Block.transferred block.size offset count
  ((List.range count).flatMap fun j => block.block (offset + j)) ++ data.drop (512 * count)

/-- A `memcpy` into the caller's buffer. -/
structure BufferWrite where
  position : Nat
  data : List UInt8

def applyWrites (buffer : Nat → UInt8) (writes : List BufferWrite) : Nat → UInt8 :=
  writes.foldl (fun b w => Cells.write b w.position w.data) buffer

namespace Ustar

/-- The variables of `USTAR::Read`, and what it has copied. -/
structure ReadState where
  buf : List UInt8
  i : Int
  offset : UInt64
  bufoff : UInt64
  writes : List BufferWrite

def realsize (size offset count : UInt64) : UInt64 :=
  if size - offset < count then size - offset else count

namespace ReadState

/-- `i <= (offset + realsize - 1) / 512`, compared as `uint64_t` -/
def guard (realsize : UInt64) (s : ReadState) : Prop :=
  asUnsigned s.i ≤ ((s.offset + realsize - 1) / 512).toNat

instance (realsize : UInt64) : DecidablePred (guard realsize) :=
  fun s => inferInstanceAs (Decidable (asUnsigned s.i ≤ ((s.offset + realsize - 1) / 512).toNat))

/-- The body of the loop. -/
def advance (block : BlockDevice) (s : ReadState) : ReadState :=
  let buf := block.readBlock (asUnsigned s.i) s.buf 0
  let copied := (buf.drop (s.offset % 512).toNat).take (512 - s.offset % 512).toNat
  let bufoff := (s.offset / 512 + 1) * 512 - s.offset
  { buf
    i := s.i + 1
    offset := s.offset + bufoff
    bufoff
    writes := s.writes ++ [{ position := s.bufoff.toNat, data := copied }] }

/-- `i++` has no meaning at the largest `int`. -/
def turn (block : BlockDevice) (s : ReadState) : Option ReadState :=
  if s.i + 1 < 2 ^ 31 then some (s.advance block) else none

end ReadState

def readStart (buf : List UInt8) (offset : UInt64) : ReadState :=
  { buf, i := toInt (offset / 512).toNat, offset, bufoff := 0, writes := [] }

/-- `USTAR::Read`: the result, and what is copied to the buffer. `buf` is not initialised. -/
def read (u : Ustar) (fuel : Nat) (buf : List UInt8) (count offset : UInt64)
    (handle : Fin u.files.length) : Option (Int × List BufferWrite) :=
  let f := u.files[handle]
  let realsize := realsize f.size offset count
  (Loops.whileDo (ReadState.guard realsize) (ReadState.turn u.block) fuel
    (readStart buf offset)).map fun s => (toInt realsize.toNat, s.writes)

/-! ### What is expected -/

/-- Byte `k` of a file. -/
def content (block : BlockDevice) (f : UstarFile) (k : Nat) : UInt8 :=
  (block.block (f.offset + k / 512)).getD (k % 512) 0

def available (size offset count : Nat) : Nat := if offset ≤ size then min count (size - offset) else 0

/-- Whatever is on the stack and in the caller's buffer, the bytes of the file are returned, and
nothing is written behind the buffer. -/
def ReadsExactly (u : Ustar) (handle : Fin u.files.length) (count offset : UInt64) : Prop :=
  let f := u.files[handle]
  let expected := available f.size.toNat offset.toNat count.toNat
  ∀ (buf : List UInt8) (buffer : Nat → UInt8), buf.length = 512 →
    ∃ fuel ret writes, u.read fuel buf count offset handle = some (ret, writes) ∧ ret = expected ∧
      (∀ k < expected, applyWrites buffer writes k = content u.block f (offset.toNat + k)) ∧
      ∀ w ∈ writes, w.position + w.data.length ≤ count.toNat

/-! ### When it is met -/

/-- The first turn is made. -/
def Entered (realsize offset : UInt64) : Prop :=
  asUnsigned (toInt (offset / 512).toNat) ≤ ((offset + realsize - 1) / 512).toNat

/-- After the first turn the bound is ahead of the index by what this block is ahead of the first one,
until it wraps. -/
def lastBlock (realsize offset : UInt64) : Nat :=
  (offset.toNat / 512 + realsize.toNat / 512 + (2 ^ 55 - 1)) % 2 ^ 55

def turns (realsize offset : UInt64) : Nat :=
  if (lastBlock realsize offset : Int) < toInt (offset / 512).toNat then 1
  else 2 ^ 55 - lastBlock realsize offset

/-- There is nothing to read, an `int` makes 0 of the size, and either no turn is made or the loop is
left before its index overflows and a first turn fits the buffer. -/
def NothingToRead (size offset count : UInt64) : Prop :=
  let realsize := realsize size offset count
  (count = 0 ∨ size ≤ offset) ∧ realsize.toNat % 2 ^ 32 = 0 ∧
    (Entered realsize offset → 512 - offset.toNat % 512 ≤ count.toNat ∧
      toInt (offset / 512).toNat + turns realsize offset < 2 ^ 31)

/-! ### One turn -/

theorem readBlock_zero (block : BlockDevice) (i : Nat) (data : List UInt8) :
    block.readBlock i data 0 = data := by
  simp [BlockDevice.readBlock, Block.transferred]

section Turn

variable {block : BlockDevice} {s : ReadState} {realsize offset : UInt64} {buf : List UInt8}

theorem advance_bufoff : (s.advance block).bufoff.toNat = 512 - s.offset.toNat % 512 := by
  have hlt := s.offset.toNat_lt
  have hwidth : (512 : UInt64).toNat = 512 ∧ (1 : UInt64).toNat = 1 := ⟨rfl, rfl⟩
  simp only [ReadState.advance, UInt64.toNat_add, UInt64.toNat_sub, UInt64.toNat_mul,
    UInt64.toNat_div, hwidth.1, hwidth.2]
  omega

theorem advance_offset :
    (s.advance block).offset.toNat = 512 * (s.offset.toNat / 512 + 1) % 2 ^ 64 := by
  calc (s.advance block).offset.toNat
      = (s.offset.toNat + (s.advance block).bufoff.toNat) % 2 ^ 64 := UInt64.toNat_add _ _
    _ = 512 * (s.offset.toNat / 512 + 1) % 2 ^ 64 := by
      rw [advance_bufoff]
      congr 1
      omega

@[simp] theorem advance_i : (s.advance block).i = s.i + 1 := rfl

@[simp] theorem advance_buf : (s.advance block).buf = s.buf := readBlock_zero _ _ _

theorem advance_writes (block : BlockDevice) (hbuf : s.buf.length = 512) : ∃ data,
    (s.advance block).writes = s.writes ++ [{ position := s.bufoff.toNat, data }] ∧
      data.length = 512 - s.offset.toNat % 512 ∧ ∀ b ∈ data, b ∈ s.buf := by
  refine ⟨_, rfl, ?_, fun b hb => ?_⟩
  · have hwidth : (512 : UInt64).toNat = 512 := rfl
    rw [readBlock_zero, List.length_take, List.length_drop, hbuf, UInt64.toNat_sub, UInt64.toNat_mod,
      hwidth]
    omega
  · rw [readBlock_zero] at hb
    exact List.mem_of_mem_drop (List.mem_of_mem_take hb)

theorem turn_eq_some {s' : ReadState} (h : s.turn block = some s') : s' = s.advance block := by
  unfold ReadState.turn at h
  split at h
  · exact (Option.some.inj h).symm
  · cases h

end Turn

/-! ### The trace of the loop -/

section Trace

variable {block : BlockDevice} {buf : List UInt8} {realsize offset : UInt64} {k n : Nat}

def trace (block : BlockDevice) (buf : List UInt8) (offset : UInt64) (k : Nat) : ReadState :=
  (ReadState.advance block)^[k] (readStart buf offset)

theorem trace_succ : trace block buf offset (k + 1) = (trace block buf offset k).advance block :=
  Function.iterate_succ_apply' _ _ _

theorem trace_i : (trace block buf offset k).i = toInt (offset / 512).toNat + k := by
  induction k with
  | zero => exact (Int.add_zero _).symm
  | succ k ih =>
    rw [trace_succ, advance_i, ih]
    omega

theorem trace_offset :
    (trace block buf offset (k + 1)).offset.toNat = 512 * (offset.toNat / 512 + (k + 1)) % 2 ^ 64 := by
  induction k with
  | zero =>
    rw [trace_succ]
    exact advance_offset
  | succ k ih =>
    rw [trace_succ, advance_offset, ih]
    omega

theorem turns_pos : 0 < turns realsize offset := by
  have hlast : lastBlock realsize offset < 2 ^ 55 := Nat.mod_lt _ (by decide)
  unfold turns
  split <;> omega

/-- An index that is not negative, as the guard compares it. -/
theorem asUnsigned_natCast_add {i : Int} (h : 0 ≤ i + k) (hlt : i + k < 2 ^ 64) :
    (asUnsigned (i + k) : Int) = i + k := by
  unfold asUnsigned
  omega

theorem Entered.nonneg (h : Entered realsize offset) : 0 ≤ toInt (offset / 512).toNat := by
  have hbounds := toInt_bounds (offset / 512).toNat
  have hlt := (offset + realsize - 1).toNat_lt
  have hwidth : (512 : UInt64).toNat = 512 := rfl
  unfold Entered asUnsigned at h
  rw [UInt64.toNat_div (offset + realsize - 1), hwidth] at h
  omega

/-- The bound of the turns after the first. -/
theorem guard_trace_succ (hsize : realsize.toNat % 512 = 0) :
    (trace block buf offset (k + 1)).guard realsize ↔
      asUnsigned (toInt (offset / 512).toNat + (k + 1 : Nat)) ≤
        (lastBlock realsize offset + (k + 1)) % 2 ^ 55 := by
  have hlt := realsize.toNat_lt
  have hwidth : (512 : UInt64).toNat = 512 ∧ (1 : UInt64).toNat = 1 := ⟨rfl, rfl⟩
  unfold ReadState.guard lastBlock
  rw [trace_i]
  generalize asUnsigned (toInt (offset / 512).toNat + (k + 1 : Nat)) = i
  rw [UInt64.toNat_div, UInt64.toNat_sub, UInt64.toNat_add, trace_offset, hwidth.1, hwidth.2]
  omega

theorem guard_trace (hsize : realsize.toNat % 512 = 0) (hentered : Entered realsize offset)
    (hk : k < turns realsize offset) (hi : toInt (offset / 512).toNat + k < 2 ^ 31) :
    (trace block buf offset k).guard realsize := by
  have hnonneg := hentered.nonneg
  cases k with
  | zero => exact hentered
  | succ k =>
    rw [guard_trace_succ hsize]
    have hi := asUnsigned_natCast_add (i := toInt (offset / 512).toNat) (k := k + 1) (by omega)
      (by omega)
    unfold turns at hk
    split at hk <;> omega

theorem not_guard_trace (hsize : realsize.toNat % 512 = 0) (hentered : Entered realsize offset)
    (hi : toInt (offset / 512).toNat + turns realsize offset < 2 ^ 31) :
    ¬ (trace block buf offset (turns realsize offset)).guard realsize := by
  have hnonneg := hentered.nonneg
  have hbounds := toInt_bounds (offset / 512).toNat
  obtain ⟨n, hn⟩ : ∃ n, turns realsize offset = n + 1 := Nat.exists_eq_succ_of_ne_zero turns_pos.ne'
  rw [hn, guard_trace_succ hsize]
  rw [hn] at hi
  have hi' := asUnsigned_natCast_add (i := toInt (offset / 512).toNat) (k := n + 1) (by omega)
    (by omega)
  unfold turns at hn
  split at hn
  · omega
  · have hwrap : lastBlock realsize offset + (n + 1) = 2 ^ 55 := by omega
    rw [hwrap, Nat.mod_self]
    omega

theorem follows_trace (block : BlockDevice) (buf : List UInt8) (hsize : realsize.toNat % 512 = 0)
    (hentered : Entered realsize offset)
    (hn : n ≤ turns realsize offset) (hi : toInt (offset / 512).toNat + n < 2 ^ 31) :
    Loops.Follows (ReadState.guard realsize) (ReadState.turn block) (trace block buf offset) n := by
  intro k hk
  refine ⟨guard_trace hsize hentered (Nat.lt_of_lt_of_le hk hn) (by omega), ?_⟩
  unfold ReadState.turn
  rw [trace_i, if_pos (by omega), trace_succ]

/-- The loop makes these turns, unless its index overflows before. -/
theorem whileDo_turns (block : BlockDevice) (buf : List UInt8) (hsize : realsize.toNat % 512 = 0)
    (hentered : Entered realsize offset)
    (hi : toInt (offset / 512).toNat + turns realsize offset < 2 ^ 31) :
    Loops.whileDo (ReadState.guard realsize) (ReadState.turn block) (turns realsize offset + 1)
      (readStart buf offset) = some (trace block buf offset (turns realsize offset)) :=
  (follows_trace block buf hsize hentered (Nat.le_refl _) hi).ends (not_guard_trace hsize hentered hi)

theorem whileDo_overflows (hsize : realsize.toNat % 512 = 0) (hentered : Entered realsize offset)
    (hi : 2 ^ 31 ≤ toInt (offset / 512).toNat + turns realsize offset) (fuel : Nat) :
    Loops.whileDo (ReadState.guard realsize) (ReadState.turn block) fuel (readStart buf offset) =
      none := by
  have hnonneg := hentered.nonneg
  have hbounds := toInt_bounds (offset / 512).toNat
  obtain ⟨n, hn⟩ : ∃ n : Nat, toInt (offset / 512).toNat + n + 1 = 2 ^ 31 :=
    ⟨(2 ^ 31 - 1 - toInt (offset / 512).toNat).toNat, by omega⟩
  have hlt : n < turns realsize offset := by omega
  have hfollows := follows_trace block buf hsize hentered hlt.le (by omega)
  refine hfollows.diverges (guard_trace hsize hentered hlt (by omega)) ?_ fuel
  unfold ReadState.turn
  rw [trace_i, if_neg (by omega)]

end Trace

/-! ### What the loop copies -/

section Copies

variable {block : BlockDevice} {buf : List UInt8} {realsize offset : UInt64} {fuel : Nat}
  {s s' : ReadState}

/-- Nothing but bytes from the stack, and none of them further than this. -/
structure Copies (buf : List UInt8) (s : ReadState) : Prop where
  stack : s.buf = buf
  bufoff : s.bufoff.toNat ≤ 512
  writes : ∀ w ∈ s.writes, w.position + w.data.length ≤ 1024 ∧ ∀ b ∈ w.data, b ∈ buf

theorem Copies.advance (h : Copies buf s) (hbuf : buf.length = 512) : Copies buf (s.advance block) := by
  obtain ⟨data, hwrites, hlength, hmem⟩ :=
    advance_writes block (h.stack ▸ hbuf)
  refine ⟨advance_buf.trans h.stack, ?_, fun w hw => ?_⟩
  · rw [advance_bufoff]
    exact Nat.sub_le _ _
  · rw [hwrites] at hw
    rcases List.mem_append.mp hw with hw | hw
    · exact h.writes w hw
    · obtain rfl := List.mem_singleton.mp hw
      have hbufoff := h.bufoff
      refine ⟨?_, fun b hb => h.stack ▸ hmem b hb⟩
      dsimp only
      omega

theorem copies (hbuf : buf.length = 512)
    (h : Loops.whileDo (ReadState.guard realsize) (ReadState.turn block) fuel (readStart buf offset) =
      some s) : Copies buf s := by
  refine Loops.whileDo_invariant (I := Copies buf) (fun t t' ht _ hturn => ?_) ⟨rfl, ?_, ?_⟩ h
  · rw [turn_eq_some hturn]
    exact ht.advance hbuf
  · exact Nat.zero_le 512
  · exact fun w hw => absurd hw List.not_mem_nil

/-- A first turn writes up to the end of a block, at the start of the buffer. -/
theorem first_write (hbuf : buf.length = 512) (hentered : Entered realsize offset)
    (h : Loops.whileDo (ReadState.guard realsize) (ReadState.turn block) fuel (readStart buf offset) =
      some s) : ∃ data, { position := 0, data } ∈ s.writes ∧ data.length = 512 - offset.toNat % 512 := by
  obtain ⟨data, hwrites, hlength, -⟩ :=
    advance_writes block (show (readStart buf offset).buf.length = 512 from hbuf)
  refine ⟨data, ?_, hlength⟩
  cases fuel with
  | zero => cases h
  | succ fuel =>
    rw [Loops.whileDo_turn (by exact hentered)] at h
    obtain ⟨t, ht, hrest⟩ := Option.bind_eq_some_iff.mp h
    refine Loops.whileDo_invariant (I := fun t => { position := 0, data } ∈ t.writes)
      (fun t t' ht _ hturn => ?_) ?_ hrest
    · rw [turn_eq_some hturn]
      exact List.mem_append_left _ ht
    · rw [turn_eq_some ht, hwrites]
      exact List.mem_append_right _ (List.mem_singleton.mpr rfl)

theorem applyWrites_const {buffer : Nat → UInt8} {writes : List BufferWrite} {c : UInt8}
    (hbuffer : ∀ k, buffer k = c) (hwrites : ∀ w ∈ writes, ∀ b ∈ w.data, b = c) (k : Nat) :
    applyWrites buffer writes k = c := by
  induction writes generalizing buffer with
  | nil => exact hbuffer k
  | cons w writes ih =>
    have hwrite (i : Nat) : Cells.write buffer w.position w.data i = c := by
      unfold Cells.write
      by_cases hi : i - w.position < w.data.length
      · rw [List.getD_eq_getElem _ _ hi]
        split
        · exact hwrites w List.mem_cons_self _ (List.getElem_mem hi)
        · exact hbuffer i
      · rw [List.getD_eq_default _ _ (Nat.le_of_not_lt hi), ite_self]
        exact hbuffer i
    exact ih hwrite fun v hv => hwrites v (List.mem_cons_of_mem _ hv)

end Copies

/-! ### Reading exactly -/

section Exact

variable {u : Ustar} {handle : Fin u.files.length} {count offset : UInt64}

theorem read_eq_some {fuel : Nat} {buf : List UInt8} {ret : Int} {writes : List BufferWrite}
    (h : u.read fuel buf count offset handle = some (ret, writes)) :
    let realsize := realsize u.files[handle].size offset count
    ∃ s, Loops.whileDo (ReadState.guard realsize) (ReadState.turn u.block) fuel
      (readStart buf offset) = some s ∧ ret = toInt realsize.toNat ∧ writes = s.writes := by
  obtain ⟨s, hs, hpair⟩ := Option.map_eq_some_iff.mp h
  obtain ⟨hret, hwrites⟩ := Prod.mk.inj hpair
  exact ⟨s, hs, hret.symm, hwrites.symm⟩

/-- Of a byte that there is to read, the buffer shows what was on the stack, or what it held. -/
theorem not_readsExactly_of_available (hcount : count ≠ 0) (hoffset : offset < u.files[handle].size) :
    ¬ u.ReadsExactly handle count offset := by
  intro hexact
  obtain ⟨c, hc⟩ : ∃ c, c ≠ content u.block u.files[handle] (offset.toNat + 0) :=
    ⟨content u.block u.files[handle] (offset.toNat + 0) + 1, by simp⟩
  obtain ⟨fuel, ret, writes, hread, -, hbytes, -⟩ :=
    hexact (List.replicate 512 c) (fun _ => c) List.length_replicate
  obtain ⟨s, hs, -, rfl⟩ := read_eq_some hread
  have hcopies := copies List.length_replicate hs
  have hpos : 0 < available u.files[handle].size.toNat offset.toNat count.toNat := by
    have hlt : offset.toNat < u.files[handle].size.toNat := UInt64.lt_iff_toNat_lt.mp hoffset
    have hne : count.toNat ≠ 0 := fun hzero => hcount (UInt64.toNat_inj.mp hzero)
    unfold available
    rw [if_pos hlt.le]
    omega
  have hconst : applyWrites (fun _ => c) s.writes 0 = c := applyWrites_const (fun _ => rfl)
    (fun w hw b hb => List.eq_of_mem_replicate ((hcopies.writes w hw).2 b hb)) 0
  exact hc (hconst.symm.trans (hbytes 0 hpos))

theorem available_eq_zero (h : count = 0 ∨ u.files[handle].size ≤ offset) :
    available u.files[handle].size.toNat offset.toNat count.toNat = 0 := by
  unfold available
  rcases h with rfl | h
  · simp
  · have hle : u.files[handle].size.toNat ≤ offset.toNat := UInt64.le_iff_toNat_le.mp h
    split <;> omega

theorem toInt_eq_zero_iff {n : Nat} : toInt n = 0 ↔ n % 2 ^ 32 = 0 := by
  unfold toInt
  split <;> omega

theorem realsize_le (size offset count : UInt64) : (realsize size offset count).toNat ≤ count.toNat := by
  unfold realsize
  split
  · next h => exact (UInt64.lt_iff_toNat_lt.mp h).le
  · exact Nat.le_refl _

/-- Where nothing is asked for, the loop makes one turn if it ends at all. -/
theorem turns_of_realsize_zero {realsize : UInt64} (hzero : realsize.toNat = 0)
    (hentered : Entered realsize offset)
    (hi : toInt (offset / 512).toNat + turns realsize offset < 2 ^ 31) : turns realsize offset = 1 := by
  have hnonneg := hentered.nonneg
  have hlt := offset.toNat_lt
  have hblock : (offset / 512).toNat = offset.toNat / 512 := UInt64.toNat_div offset 512
  unfold turns lastBlock at hi ⊢
  simp only [hblock, hzero] at hnonneg hi ⊢
  unfold toInt at hnonneg hi ⊢
  split_ifs at * <;> omega

theorem ReadsExactly.nothingToRead {handle : Fin u.files.length}
    (hexact : u.ReadsExactly handle count offset) :
    NothingToRead u.files[handle].size offset count := by
  have hnothing : count = 0 ∨ u.files[handle].size ≤ offset := by
    by_contra hsome
    obtain ⟨hcount, hoffset⟩ := not_or.mp hsome
    exact not_readsExactly_of_available hcount (UInt64.not_le.mp hoffset) hexact
  have hbuf : (List.replicate 512 (0 : UInt8)).length = 512 := List.length_replicate
  obtain ⟨fuel, ret, writes, hread, hret, -, hwithin⟩ := hexact _ (fun _ => 0) hbuf
  obtain ⟨s, hs, hret', rfl⟩ := read_eq_some hread
  have hsize : (realsize u.files[handle].size offset count).toNat % 2 ^ 32 = 0 := by
    rw [← toInt_eq_zero_iff, ← hret', hret, available_eq_zero hnothing]
    rfl
  refine ⟨hnothing, hsize, fun hentered => ⟨?_, ?_⟩⟩
  · obtain ⟨data, hmem, hlength⟩ := first_write hbuf hentered hs
    have hfirst := hwithin _ hmem
    dsimp only at hfirst
    omega
  · by_contra hi
    rw [whileDo_overflows (by omega) hentered (Int.not_lt.mp hi)] at hs
    cases hs

/-- What the loop stores stays within the caller's buffer, though nothing was asked for. -/
theorem NothingToRead.writes_within {buf : List UInt8} (hbuf : buf.length = 512)
    {handle : Fin u.files.length} (h : NothingToRead u.files[handle].size offset count)
    (hentered : Entered (realsize u.files[handle].size offset count) offset) {w : BufferWrite}
    (hw : w ∈ (trace u.block buf offset
      (turns (realsize u.files[handle].size offset count) offset)).writes) :
    w.position + w.data.length ≤ count.toNat := by
  obtain ⟨-, hsize, hturns⟩ := h
  obtain ⟨hfits, hi⟩ := hturns hentered
  by_cases hzero : (realsize u.files[handle].size offset count).toNat = 0
  · rw [turns_of_realsize_zero hzero hentered hi] at hw
    obtain ⟨data, hwrites, hlength, -⟩ :=
      advance_writes u.block (show (readStart buf offset).buf.length = 512 from hbuf)
    rw [trace_succ, show trace u.block buf offset 0 = readStart buf offset from rfl, hwrites] at hw
    obtain rfl := List.mem_singleton.mp hw
    exact (Nat.zero_add _).trans_le (hlength.trans_le hfits)
  · have hrun := whileDo_turns u.block buf (by omega) hentered hi
    have hcopies := (copies hbuf hrun).writes w hw
    have hle := realsize_le u.files[handle].size offset count
    omega

theorem NothingToRead.readsExactly {handle : Fin u.files.length}
    (h : NothingToRead u.files[handle].size offset count) :
    u.ReadsExactly handle count offset := by
  intro buf buffer hbuf
  have hret : toInt (realsize u.files[handle].size offset count).toNat =
      (available u.files[handle].size.toNat offset.toNat count.toNat : Nat) := by
    rw [available_eq_zero h.1]
    exact toInt_eq_zero_iff.mpr h.2.1
  have hbytes (writes : List BufferWrite) :
      ∀ k < available u.files[handle].size.toNat offset.toNat count.toNat,
        applyWrites buffer writes k = content u.block u.files[handle] (offset.toNat + k) := by
    rw [available_eq_zero h.1]
    exact fun k hk => absurd hk (Nat.not_lt_zero k)
  by_cases hentered : Entered (realsize u.files[handle].size offset count) offset
  · have hrun := whileDo_turns u.block buf (by have := h.2.1; omega) hentered (h.2.2 hentered).2
    exact ⟨_, _, _, Option.map_eq_some_iff.mpr ⟨_, hrun, rfl⟩, hret, hbytes _,
      fun w hw => h.writes_within hbuf hentered hw⟩
  · exact ⟨1, _, _, Option.map_eq_some_iff.mpr ⟨_, Loops.whileDo_end hentered, rfl⟩, hret,
      hbytes _, fun w hw => absurd hw List.not_mem_nil⟩

/-- **Reads are exact** only where there is nothing to read. -/
theorem readsExactly_iff (u : Ustar) (handle : Fin u.files.length) (count offset : UInt64) :
    u.ReadsExactly handle count offset ↔ NothingToRead u.files[handle].size offset count := by
  constructor
  · intro hexact
    exact hexact.nothingToRead
  · intro hnothing
    exact hnothing.readsExactly

end Exact

/-- A file of five bytes. -/
def helloArchive : BlockDevice :=
  archiveOf [memberHeader "f" "5" UstarType.normalFile "", field 512 "hello"] (by simp [length_field])

/-- Of an open file that has five bytes, none is read. -/
theorem not_readsExactly_hello : ∃ (u : Ustar) (handle : Fin u.files.length),
    allocateBlock helloArchive (fun _ => []) 2 = some (some u) ∧
      u.openFile (cString "/f") = (0, some handle.val) ∧
      u.files[handle].size = 5 ∧ ¬ u.ReadsExactly handle 5 0 := by
  have hrun : ((allocateBlock helloArchive (fun _ => []) 2).bind id).map (fun u =>
      (u.files.map UstarFile.size, u.openFile (cString "/f"))) = some ([5], (0, some 0)) := by
    decide
  obtain ⟨u, hu, hread⟩ := Option.map_eq_some_iff.mp hrun
  obtain ⟨loaded, hloaded, hid⟩ := Option.bind_eq_some_iff.mp hu
  obtain ⟨hsizes, hopen⟩ := Prod.mk.inj hread
  rw [id] at hid
  rw [hid] at hloaded
  have hlength : u.files.length = 1 := by simpa using congrArg List.length hsizes
  have hsize : u.files[0].size = 5 := by
    have hfirst := congrArg (fun sizes => sizes[0]?) hsizes
    simpa [hlength] using hfirst
  refine ⟨u, ⟨0, by omega⟩, hloaded, hopen, hsize, ?_⟩
  refine not_readsExactly_of_available (by decide) ?_
  rw [show u.files[(⟨0, by omega⟩ : Fin u.files.length)].size = 5 from hsize]
  decide

end Ustar

end Helos
