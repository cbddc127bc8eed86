import Helos.Memory.KernelMapping
import Helos.Theory.Cells
import Helos.Theory.Loops

/-!
# `memset` and `memmove`

`runtime/memset_memmove.S`. The loops are tested at the bottom: with a count of 0 they go once through
all of memory. `memmove` goes through the ranges in the direction that the order of the two addresses asks
for, and takes the addresses for signed numbers.
-/

namespace Helos

structure Registers where
  rax : Addr
  rcx : Addr
  rdx : Addr
  r8 : Nat
  r10 : Addr
  r11 : Addr
  memory : Addr → UInt8

namespace Registers

def call (s : Registers) (rcx rdx : Addr) (r8 : Nat) : Registers := { s with rcx, rdx, r8 }

/-- `memset_loop`; `dl` is the low byte of `rdx`. -/
def memsetLoop (s : Registers) : Registers :=
  { s with
    memory := Function.update s.memory s.rcx (UInt8.ofNat s.rdx)
    rcx := wrap64 (s.rcx + 1) }

def memmoveFront (s : Registers) : Registers :=
  let r9b := s.memory s.rdx
  { s with
    memory := Function.update s.memory s.rcx r9b
    rcx := wrap64 (s.rcx + 1)
    rdx := wrap64 (s.rdx + 1) }

def memmoveBack (s : Registers) : Registers :=
  let r10 := wrap64 (s.r10 + (2 ^ 64 - 1))
  let r11 := wrap64 (s.r11 + (2 ^ 64 - 1))
  let r9b := s.memory r11
  { s with r10, r11, memory := Function.update s.memory r10 r9b }

/-- `cmp rcx, r10` before `jne` -/
def Differ (s : Registers) : Prop := s.rcx ≠ s.r10

instance : DecidablePred Differ := fun s => inferInstanceAs (Decidable (s.rcx ≠ s.r10))

def memset (fuel : Nat) (s : Registers) : Option Registers :=
  let s := { s with rax := s.rcx, r10 := wrap64 (s.rcx + s.r8) }
  Loops.doWhile memsetLoop Differ fuel s

/-- A register as `jl` takes it after `cmp`. -/
def signed (n : Nat) : Int := if n < 2 ^ 63 then n else n - 2 ^ 64

def memmove (fuel : Nat) (s : Registers) : Option Registers :=
  let s := { s with rax := s.rcx, r10 := wrap64 (s.rcx + s.r8), r11 := wrap64 (s.rdx + s.r8) }
  if s.rdx = s.rcx then some s
  else if signed s.rdx < signed s.rcx then Loops.doWhile memmoveBack Differ fuel s
  else Loops.doWhile memmoveFront Differ fuel s

/-- `memset` fills the range and returns where it starts, whatever was in the registers and in memory. -/
def MemsetMeets (dest data : Addr) (count : Nat) : Prop :=
  ∀ s : Registers, ∃ fuel s', memset fuel (s.call dest data count) = some s' ∧ s'.rax = dest ∧
    s'.memory = Cells.write s.memory dest (List.replicate count (UInt8.ofNat data))

/-- `memmove` leaves at the destination what was at the source. -/
def MemmoveMeets (dest src : Addr) (count : Nat) : Prop :=
  ∀ s : Registers, ∃ fuel s', memmove fuel (s.call dest src count) = some s' ∧ s'.rax = dest ∧
    s'.memory = Cells.write s.memory dest (Cells.read s.memory src count)

/-- The ranges overlap, and only one of them starts in the upper half of the addresses. -/
def Misjudged (dest src count : Nat) : Prop :=
  (src < 2 ^ 63 ∧ 2 ^ 63 ≤ dest ∧ dest < src + count) ∨
    (dest < 2 ^ 63 ∧ 2 ^ 63 ≤ src ∧ src < dest + count)

/-! ### The loops -/

def turns (count : Nat) : Nat := if count = 0 then 2 ^ 64 else count

theorem turns_eq {count : Nat} (h : count < 2 ^ 64) : ∃ n, turns count = n + 1 ∧ n < 2 ^ 64 := by
  unfold turns
  split
  · exact ⟨2 ^ 64 - 1, rfl, by decide⟩
  · exact ⟨count - 1, by omega, by omega⟩

theorem turns_le {count : Nat} (h : count < 2 ^ 64) : turns count ≤ 2 ^ 64 := by
  obtain ⟨n, hturns, hn⟩ := turns_eq h
  omega

/-- An address that goes up meets the end after that many turns, and not before. -/
theorem wrap_eq_iff_turns {a count k : Nat} (hcount : count < 2 ^ 64) (hpos : 0 < k)
    (hk : k ≤ turns count) : wrap64 (a + k) = wrap64 (a + count) ↔ k = turns count := by
  unfold turns at hk ⊢
  unfold wrap64
  split at hk <;> split <;> omega

theorem wrap_down_eq_iff_turns {a count k : Nat} (ha : a < 2 ^ 64) (hcount : count < 2 ^ 64)
    (hpos : 0 < k) (hk : k ≤ turns count) :
    a = wrap64 (wrap64 (a + count) + (2 ^ 64 - k)) ↔ k = turns count := by
  unfold turns at hk ⊢
  unfold wrap64
  split at hk <;> split <;> omega

variable {s : Registers} {dest src data count : Nat}

theorem memsetLoop_iterate (h : s.rcx < 2 ^ 64) (k : Nat) :
    memsetLoop^[k] s = { s with
      rcx := wrap64 (s.rcx + k)
      memory := Cells.stores s.memory (fun i => wrap64 (s.rcx + i)) (fun _ _ => UInt8.ofNat s.rdx) k } := by
  induction k with
  | zero => rw [Nat.add_zero, wrap64_of_lt h]; rfl
  | succ k ih =>
    have hnext : wrap64 (wrap64 (s.rcx + k) + 1) = wrap64 (s.rcx + (k + 1)) := by
      unfold wrap64
      omega
    rw [Function.iterate_succ_apply', ih, memsetLoop]
    simp only [hnext]
    rfl

theorem memmoveFront_iterate (h : s.rcx < 2 ^ 64) (h' : s.rdx < 2 ^ 64) (k : Nat) :
    memmoveFront^[k] s = { s with
      rcx := wrap64 (s.rcx + k)
      rdx := wrap64 (s.rdx + k)
      memory := Cells.stores s.memory (fun i => wrap64 (s.rcx + i))
        (fun i m => m (wrap64 (s.rdx + i))) k } := by
  induction k with
  | zero => rw [Nat.add_zero, Nat.add_zero, wrap64_of_lt h, wrap64_of_lt h']; rfl
  | succ k ih =>
    have hnext (a : Nat) : wrap64 (wrap64 (a + k) + 1) = wrap64 (a + (k + 1)) := by
      unfold wrap64
      omega
    rw [Function.iterate_succ_apply', ih, memmoveFront]
    simp only [hnext]
    rfl

theorem memmoveBack_iterate (h : s.r10 < 2 ^ 64) (h' : s.r11 < 2 ^ 64) {k : Nat} (hk : k ≤ 2 ^ 64) :
    memmoveBack^[k] s = { s with
      r10 := wrap64 (s.r10 + (2 ^ 64 - k))
      r11 := wrap64 (s.r11 + (2 ^ 64 - k))
      memory := Cells.stores s.memory (fun i => wrap64 (s.r10 + (2 ^ 64 - (i + 1))))
        (fun i m => m (wrap64 (s.r11 + (2 ^ 64 - (i + 1))))) k } := by
  induction k with
  | zero =>
    have hstart {a : Nat} (ha : a < 2 ^ 64) : wrap64 (a + (2 ^ 64 - 0)) = a := by
      unfold wrap64
      omega
    rw [hstart h, hstart h']
    rfl
  | succ k ih =>
    have hnext (a : Nat) :
        wrap64 (wrap64 (a + (2 ^ 64 - k)) + (2 ^ 64 - 1)) = wrap64 (a + (2 ^ 64 - (k + 1))) := by
      unfold wrap64
      omega
    rw [Function.iterate_succ_apply', ih (Nat.le_of_succ_le hk), memmoveBack]
    simp only [hnext]
    rfl

theorem loop_ends {step : Registers → Registers} (hcount : count < 2 ^ 64)
    (hmeet : ∀ k, 0 < k → k ≤ turns count → (Differ (step^[k] s) ↔ k ≠ turns count)) :
    Loops.doWhile step Differ (turns count) s = some (step^[turns count] s) := by
  obtain ⟨n, hturns, -⟩ := turns_eq hcount
  rw [hturns] at hmeet ⊢
  apply Loops.doWhile_eq
  · intro k hk
    exact (hmeet (k + 1) (Nat.succ_pos k) (by omega)).mpr (by omega)
  · intro hdiffer
    exact (hmeet (n + 1) (Nat.succ_pos n) le_rfl).mp hdiffer rfl

/-! ### What they leave in memory -/

def filled (dest data count : Nat) (m : Addr → UInt8) : Addr → UInt8 :=
  Cells.stores m (fun i => wrap64 (dest + i)) (fun _ _ => UInt8.ofNat data) (turns count)

def movedFront (dest src count : Nat) (m : Addr → UInt8) : Addr → UInt8 :=
  Cells.stores m (fun i => wrap64 (dest + i)) (fun i m => m (wrap64 (src + i))) (turns count)

def movedBack (dest src count : Nat) (m : Addr → UInt8) : Addr → UInt8 :=
  Cells.stores m (fun i => wrap64 (wrap64 (dest + count) + (2 ^ 64 - (i + 1))))
    (fun i m => m (wrap64 (wrap64 (src + count) + (2 ^ 64 - (i + 1))))) (turns count)

theorem memset_ends (s : Registers) (data : Addr) (hdest : dest < 2 ^ 64) (hcount : count < 2 ^ 64) :
    ∃ fuel s', memset fuel (s.call dest data count) = some s' ∧ s'.rax = dest ∧
      s'.memory = filled dest data count s.memory := by
  let start : Registers := { s.call dest data count with rax := dest, r10 := wrap64 (dest + count) }
  have hloop (k : Nat) := memsetLoop_iterate (s := start) hdest k
  refine ⟨turns count, _, loop_ends hcount fun k hpos hk => ?_, ?_, ?_⟩
  · exact (congrArg Differ (hloop k)).to_iff.trans (wrap_eq_iff_turns hcount hpos hk).not
  · exact congrArg rax (hloop _)
  · exact congrArg memory (hloop _)

theorem memmove_ends_front (s : Registers) (hdest : dest < 2 ^ 64) (hsrc : src < 2 ^ 64)
    (hcount : count < 2 ^ 64) (hne : src ≠ dest) (hdir : ¬ signed src < signed dest) :
    ∃ fuel s', memmove fuel (s.call dest src count) = some s' ∧ s'.rax = dest ∧
      s'.memory = movedFront dest src count s.memory := by
  let start : Registers := { s.call dest src count with
    rax := dest, r10 := wrap64 (dest + count), r11 := wrap64 (src + count) }
  have hloop (k : Nat) := memmoveFront_iterate (s := start) hdest hsrc k
  refine ⟨turns count, memmoveFront^[turns count] start, ?_, ?_, ?_⟩
  · refine (if_neg hne).trans ((if_neg hdir).trans (loop_ends hcount fun k hpos hk => ?_))
    exact (congrArg Differ (hloop k)).to_iff.trans (wrap_eq_iff_turns hcount hpos hk).not
  · exact congrArg rax (hloop _)
  · exact congrArg memory (hloop _)

theorem memmove_ends_back (s : Registers) (hdest : dest < 2 ^ 64) (hcount : count < 2 ^ 64)
    (hne : src ≠ dest) (hdir : signed src < signed dest) :
    ∃ fuel s', memmove fuel (s.call dest src count) = some s' ∧ s'.rax = dest ∧
      s'.memory = movedBack dest src count s.memory := by
  let start : Registers := { s.call dest src count with
    rax := dest, r10 := wrap64 (dest + count), r11 := wrap64 (src + count) }
  have hloop {k : Nat} (hk : k ≤ turns count) := memmoveBack_iterate (s := start)
    (wrap64_lt _) (wrap64_lt _) (hk.trans (turns_le hcount))
  refine ⟨turns count, memmoveBack^[turns count] start, ?_, ?_, ?_⟩
  · refine (if_neg hne).trans ((if_pos hdir).trans (loop_ends hcount fun k hpos hk => ?_))
    exact (congrArg Differ (hloop hk)).to_iff.trans (wrap_down_eq_iff_turns hdest hcount hpos hk).not
  · exact congrArg rax (hloop le_rfl)
  · exact congrArg memory (hloop le_rfl)

/-- One memory for each run: it is enough to look at what a run that ends leaves behind. -/
theorem meets_iff (run : Nat → Registers → Option Registers) {second : Addr}
    {left wanted : (Addr → UInt8) → Addr → UInt8}
    (hunique : ∀ {fuel fuel' s last last'}, run fuel s = some last → run fuel' s = some last' →
      last = last')
    (hends : ∀ s : Registers, ∃ fuel s', run fuel (s.call dest second count) = some s' ∧ s'.rax = dest ∧
      s'.memory = left s.memory) :
    (∀ s : Registers, ∃ fuel s', run fuel (s.call dest second count) = some s' ∧ s'.rax = dest ∧
      s'.memory = wanted s.memory) ↔ ∀ m, left m = wanted m := by
  constructor
  · intro hmeets m
    obtain ⟨fuel, s', hrun, -, hwanted⟩ := hmeets ⟨0, 0, 0, 0, 0, 0, m⟩
    obtain ⟨fuel', last, hrun', -, hleft⟩ := hends ⟨0, 0, 0, 0, 0, 0, m⟩
    rw [← hleft, ← hwanted, hunique hrun' hrun]
  · intro heq s
    obtain ⟨fuel, s', hrun, hrax, hleft⟩ := hends s
    exact ⟨fuel, s', hrun, hrax, hleft.trans (heq s.memory)⟩

theorem memset_unique {fuel fuel' : Nat} {last last' : Registers} (h : memset fuel s = some last)
    (h' : memset fuel' s = some last') : last = last' := Loops.doWhile_unique h h'

theorem memmove_unique {fuel fuel' : Nat} {last last' : Registers} (h : memmove fuel s = some last)
    (h' : memmove fuel' s = some last') : last = last' := by
  unfold memmove at h h'
  by_cases hsame : s.rdx = s.rcx
  · rw [if_pos hsame] at h h'
    exact Option.some.inj (h.symm.trans h')
  · rw [if_neg hsame] at h h'
    by_cases hdir : signed s.rdx < signed s.rcx
    · rw [if_pos hdir] at h h'
      exact Loops.doWhile_unique h h'
    · rw [if_neg hdir] at h h'
      exact Loops.doWhile_unique h h'

/-! ### Where that is what was asked for -/

def single (a : Addr) : Addr → UInt8 := fun i => if i = a then 1 else 0

theorem write_eq_of_cells {m left : Addr → UInt8} {xs : List UInt8}
    (hin : ∀ k (hk : k < xs.length), left (dest + k) = xs[k])
    (hout : ∀ x, x < dest ∨ dest + xs.length ≤ x → left x = m x) : left = Cells.write m dest xs := by
  funext x
  rcases Nat.lt_or_ge x dest with hlt | hge
  · rw [Cells.write_apply_of_lt hlt, hout x (Or.inl hlt)]
  · rcases Nat.lt_or_ge x (dest + xs.length) with hlt | hend
    · obtain ⟨k, rfl⟩ := Nat.exists_eq_add_of_le hge
      rw [Cells.write_apply (Nat.lt_of_add_lt_add_left hlt), hin]
    · rw [Cells.write_apply_of_le hend, hout x (Or.inr hend)]

/-- A whole round through memory comes to each address once. -/
theorem up_distinct (a : Nat) {j : Nat} (hpos : 0 < j) (hj : j < turns 0) :
    wrap64 (a + j) ≠ wrap64 (a + 0) := by
  have hlt : j < 2 ^ 64 := hj
  unfold wrap64
  omega

theorem down_distinct (a : Nat) {j : Nat} (hpos : 0 < j) (hj : j < turns 0) :
    wrap64 (a + (2 ^ 64 - (j + 1))) ≠ wrap64 (a + (2 ^ 64 - (0 + 1))) := by
  have hlt : j < 2 ^ 64 := hj
  unfold wrap64
  omega

theorem memset_correct (m : Addr → UInt8) (data : Addr) (hdest : dest + count ≤ 2 ^ 64)
    (hpos : 0 < count) :
    filled dest data count m = Cells.write m dest (List.replicate count (UInt8.ofNat data)) := by
  have hturns : turns count = count := if_neg (Nat.ne_of_gt hpos)
  have htarget {i : Nat} (hi : i < count) : wrap64 (dest + i) = dest + i := wrap64_of_lt (by omega)
  rw [filled, hturns]
  apply write_eq_of_cells
  · intro k hk
    rw [List.length_replicate] at hk
    rw [List.getElem_replicate, ← htarget hk]
    refine Cells.stores_at hk fun j hj hjn => ?_
    rw [htarget hjn, htarget hk]
    omega
  · intro x hx
    rw [List.length_replicate] at hx
    refine Cells.stores_outside fun k hk => ?_
    rw [htarget hk]
    omega

theorem memset_fails (dest data : Addr) :
    ¬ ∀ m, filled dest data 0 m = Cells.write m dest (List.replicate 0 (UInt8.ofNat data)) := by
  intro hall
  have hstored : filled dest data 0 (fun _ => UInt8.ofNat data + 1) (wrap64 (dest + 0)) =
      UInt8.ofNat data :=
    Cells.stores_at (k := 0) (by decide) fun j hpos hj => up_distinct dest hpos hj
  rw [hall, List.replicate_zero, Cells.write_nil] at hstored
  exact absurd hstored (by grind)

section Copy

/-! The cells of the ranges are gone through in the order that `order` gives. -/

variable (order : Nat → Nat) {target source : Nat → Addr}

theorem copy_correct (m : Addr → UInt8) (htarget : ∀ k < count, target k = dest + order k)
    (hsource : ∀ k < count, source k = src + order k) (hlt : ∀ k < count, order k < count)
    (honto : ∀ i < count, ∃ k < count, order k = i)
    (hdistinct : ∀ j k, j < k → k < count → order k ≠ order j)
    (happart : ∀ j k, j < k → k < count → dest + order j ≠ src + order k) :
    Cells.stores m target (fun k m => m (source k)) count =
      Cells.write m dest (Cells.read m src count) := by
  apply write_eq_of_cells
  · intro i hi
    rw [Cells.length_read] at hi
    obtain ⟨k, hk, rfl⟩ := honto i hi
    rw [Cells.getElem_read, ← htarget k hk, ← hsource k hk]
    apply Cells.stores_copy hk
    · intro j hj hjn
      rw [htarget j hjn, htarget k hk]
      exact fun heq => hdistinct k j hj hjn (Nat.add_left_cancel heq)
    · intro j hj
      rw [htarget j (hj.trans hk), hsource k hk]
      exact happart j k hj hk
  · intro x hx
    rw [Cells.length_read] at hx
    refine Cells.stores_outside fun k hk => ?_
    have hin := hlt k hk
    rw [htarget k hk]
    omega

theorem copy_overtaken {k : Nat} (htarget : ∀ k < count, target k = dest + order k)
    (hsource : ∀ k < count, source k = src + order k) (hlt : ∀ k < count, order k < count)
    (hdistinct : ∀ j k, j < k → k < count → order k ≠ order j)
    (hpos : 0 < k) (hk : k < count) (hback : src + order k = dest + order 0) :
    ¬ ∀ m : Addr → UInt8, Cells.stores m target (fun k m => m (source k)) count =
      Cells.write m dest (Cells.read m src count) := by
  intro hall
  have hzero : 0 < count := hpos.trans hk
  have hagain : source k = target 0 := by rw [hsource k hk, htarget 0 hzero, hback]
  have hcells : ∀ i j, i < j → j < count → target j ≠ target i := by
    intro i j hij hj
    rw [htarget j hj, htarget i (hij.trans hj)]
    exact fun heq => hdistinct i j hij hj (Nat.add_left_cancel heq)
  have hstored := Cells.stores_copy_overtaken (m := single (src + order 0)) hk hpos hagain hcells
  rw [hall, htarget k hk, hsource 0 hzero, Cells.write_apply (by rw [Cells.length_read]; exact hlt k hk),
    Cells.getElem_read] at hstored
  exact absurd hstored (by simp [single, hdistinct 0 k hpos hk])

end Copy

theorem copy_same (m : Addr → UInt8) : m = Cells.write m dest (Cells.read m dest count) := by
  apply write_eq_of_cells
  · intro k hk
    exact (Cells.getElem_read ..).symm
  · exact fun _ _ => rfl

theorem copy_zero {target source : Nat → Addr} (h : source 0 ≠ target 0)
    (hlast : ∀ j, 0 < j → j < turns 0 → target j ≠ target 0) :
    ¬ ∀ m : Addr → UInt8, Cells.stores m target (fun k m => m (source k)) (turns 0) =
      Cells.write m dest (Cells.read m src 0) := by
  intro hall
  have hstored : Cells.stores (single (source 0)) target (fun k m => m (source k)) (turns 0) (target 0) =
      single (source 0) (source 0) := Cells.stores_at (k := 0) (by decide) hlast
  rw [hall, Cells.read, List.ofFn_zero, Cells.write_nil] at hstored
  simp [single, h.symm] at hstored

theorem front_address {a i : Nat} (ha : a + count ≤ 2 ^ 64) (hi : i < count) :
    wrap64 (a + i) = a + i := wrap64_of_lt (by omega)

theorem back_address {a i : Nat} (ha : a + count ≤ 2 ^ 64) (hi : i < count) :
    wrap64 (wrap64 (a + count) + (2 ^ 64 - (i + 1))) = a + (count - 1 - i) := by
  unfold wrap64
  omega

theorem signed_lt_iff {a b : Nat} (ha : a < 2 ^ 64) (hb : b < 2 ^ 64) :
    signed a < signed b ↔ a < b ∧ (b < 2 ^ 63 ∨ 2 ^ 63 ≤ a) ∨ b < 2 ^ 63 ∧ 2 ^ 63 ≤ a := by
  unfold signed
  split <;> split <;> omega

theorem front_meets_iff (hdest : dest < 2 ^ 64) (hsrc : src < 2 ^ 64) (hdend : dest + count ≤ 2 ^ 64)
    (hsend : src + count ≤ 2 ^ 64) (hne : src ≠ dest) (hdir : ¬ signed src < signed dest) :
    (∀ m, movedFront dest src count m = Cells.write m dest (Cells.read m src count)) ↔
      0 < count ∧ ¬ Misjudged dest src count := by
  rw [signed_lt_iff hsrc hdest] at hdir
  rcases Nat.eq_zero_or_pos count with rfl | hpos
  · refine iff_of_false ?_ (fun h => absurd h.1 (Nat.lt_irrefl 0))
    unfold movedFront
    refine copy_zero ?_ ?_
    · simpa [wrap64_of_lt hdest, wrap64_of_lt hsrc] using hne
    · exact fun j hpos hj => up_distinct dest hpos hj
  unfold movedFront
  rw [turns, if_neg (Nat.ne_of_gt hpos)]
  have htarget (k : Nat) (hk : k < count) := front_address hdend hk
  have hsource (k : Nat) (hk : k < count) := front_address hsend hk
  constructor
  · refine fun hall => ⟨hpos, fun hmis => ?_⟩
    have hover : src < dest ∧ dest < src + count := by
      unfold Misjudged at hmis
      omega
    refine copy_overtaken id (k := dest - src) htarget hsource (fun _ h => h) ?_ ?_ ?_ ?_ hall
    · exact fun j k hjk _ => Nat.ne_of_gt hjk
    · omega
    · omega
    · change src + (dest - src) = dest + 0
      omega
  · rintro ⟨-, hmis⟩ m
    refine copy_correct id m htarget hsource (fun _ h => h) (fun i hi => ⟨i, hi, rfl⟩) ?_ ?_
    · exact fun j k hjk _ => Nat.ne_of_gt hjk
    · intro j k hjk hk
      change dest + j ≠ src + k
      unfold Misjudged at hmis
      omega

theorem back_meets_iff (hdest : dest < 2 ^ 64) (hsrc : src < 2 ^ 64) (hdend : dest + count ≤ 2 ^ 64)
    (hsend : src + count ≤ 2 ^ 64) (hdir : signed src < signed dest) :
    (∀ m, movedBack dest src count m = Cells.write m dest (Cells.read m src count)) ↔
      0 < count ∧ ¬ Misjudged dest src count := by
  rw [signed_lt_iff hsrc hdest] at hdir
  rcases Nat.eq_zero_or_pos count with rfl | hpos
  · refine iff_of_false ?_ (fun h => absurd h.1 (Nat.lt_irrefl 0))
    unfold movedBack
    refine copy_zero ?_ ?_
    · change wrap64 (wrap64 (src + 0) + (2 ^ 64 - 1)) ≠ wrap64 (wrap64 (dest + 0) + (2 ^ 64 - 1))
      unfold wrap64
      omega
    · exact fun j hpos hj => down_distinct (wrap64 (dest + 0)) hpos hj
  unfold movedBack
  rw [turns, if_neg (Nat.ne_of_gt hpos)]
  have htarget (k : Nat) (hk : k < count) := back_address hdend hk
  have hsource (k : Nat) (hk : k < count) := back_address hsend hk
  have hlt (k : Nat) (hk : k < count) : count - 1 - k < count := by omega
  have hdistinct (j k : Nat) (hjk : j < k) (hk : k < count) : count - 1 - k ≠ count - 1 - j := by omega
  constructor
  · refine fun hall => ⟨hpos, fun hmis => ?_⟩
    have hover : dest < src ∧ src < dest + count := by
      unfold Misjudged at hmis
      omega
    refine copy_overtaken (fun k => count - 1 - k) (k := src - dest) htarget hsource hlt
      hdistinct ?_ ?_ ?_ hall
    · omega
    · omega
    · omega
  · rintro ⟨-, hmis⟩ m
    refine copy_correct (fun k => count - 1 - k) m htarget hsource hlt ?_ hdistinct ?_
    · exact fun i hi => ⟨count - 1 - i, by omega, by omega⟩
    · intro j k hjk hk
      unfold Misjudged at hmis
      omega

/-! ### The two contracts -/

theorem memset_meets_iff (data : Addr) (hdest : dest < 2 ^ 64) (hcount : count < 2 ^ 64)
    (hend : dest + count ≤ 2 ^ 64) : MemsetMeets dest data count ↔ 0 < count := by
  rcases Nat.eq_zero_or_pos count with rfl | hpos
  · exact (meets_iff memset memset_unique fun s => memset_ends s data hdest hcount).trans
      (iff_of_false (memset_fails dest data) (Nat.lt_irrefl 0))
  · exact (meets_iff memset memset_unique fun s => memset_ends s data hdest hcount).trans
      (iff_of_true (fun m => memset_correct m data hend hpos) hpos)

theorem memmove_meets_iff (hdest : dest < 2 ^ 64) (hsrc : src < 2 ^ 64) (hcount : count < 2 ^ 64)
    (hdend : dest + count ≤ 2 ^ 64) (hsend : src + count ≤ 2 ^ 64) :
    MemmoveMeets dest src count ↔ src = dest ∨ 0 < count ∧ ¬ Misjudged dest src count := by
  by_cases hsame : src = dest
  · subst hsame
    refine iff_of_true (fun s => ⟨0, _, if_pos rfl, rfl, ?_⟩) (Or.inl rfl)
    exact copy_same s.memory
  rw [or_iff_right hsame]
  by_cases hdir : signed src < signed dest
  · exact (meets_iff memmove memmove_unique fun s => memmove_ends_back s hdest hcount hsame hdir).trans
      (back_meets_iff hdest hsrc hdend hsend hdir)
  · exact (meets_iff memmove memmove_unique fun s => memmove_ends_front s hdest hsrc hcount hsame hdir).trans
      (front_meets_iff hdest hsrc hdend hsend hsame hdir)

/-- Ranges that do not go around the end of memory: `memset` is right for every count but 0, `memmove` for
every count but 0 unless it goes through overlapping ranges in the wrong direction. -/
theorem contracts_iff (data : Addr) (hdest : dest < 2 ^ 64) (hsrc : src < 2 ^ 64)
    (hcount : count < 2 ^ 64) (hdend : dest + count ≤ 2 ^ 64) (hsend : src + count ≤ 2 ^ 64) :
    (MemsetMeets dest data count ↔ 0 < count) ∧
      (MemmoveMeets dest src count ↔ src = dest ∨ 0 < count ∧ ¬ Misjudged dest src count) :=
  ⟨memset_meets_iff data hdest hcount hdend, memmove_meets_iff hdest hsrc hcount hdend hsend⟩

theorem contracts_up_one : (MemsetMeets 0x1001 0xff 16 ↔ 0 < 16) ∧
    (MemmoveMeets 0x1001 0x1000 16 ↔
      0x1000 = 0x1001 ∨ 0 < 16 ∧ ¬ Misjudged 0x1001 0x1000 16) :=
  contracts_iff 0xff (by decide) (by decide) (by decide) (by decide) (by decide)

theorem contracts_no_byte : ¬ MemsetMeets 0x1000 0 0 ∧ ¬ MemmoveMeets 0x1000 0x2000 0 := by
  refine ⟨fun h => ?_, fun h => ?_⟩
  · exact Nat.lt_irrefl 0 ((memset_meets_iff 0 (by decide) (by decide) (by decide)).mp h)
  · rcases (memmove_meets_iff (by decide) (by decide) (by decide) (by decide) (by decide)).mp h with
      hsame | ⟨hpos, -⟩
    · exact absurd hsame (by decide)
    · exact Nat.lt_irrefl 0 hpos

end Registers

end Helos
