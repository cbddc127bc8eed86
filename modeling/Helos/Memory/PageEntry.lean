import Helos.Memory.KernelMapping

/-!
# Page table entries

The bits of an entry as `memory/paging_internal.h` names them, the entries that
`memory/paging_map.c` writes, and what the processor takes from an entry it reads. Entries are
64-bit words, held as natural numbers. A walk reads at most four, at the indices that the bit fields
of an address select.
-/

namespace Helos

def pmlPresent : Nat := 1 <<< 0
def pmlWriteable : Nat := 1 <<< 1
def pmlPageSize : Nat := 1 <<< 7
def pmlExecuteDisable : Nat := 1 <<< 63
def pmlAddrMask : Nat := 0xFFFFFFFFFF000
def pmlAddrMask2M : Nat := 0xFFFFFFFE00000
def pmlAddrMask1G : Nat := 0xFFFFFC0000000

def mapProtExec : BitVec 32 := 1
def mapProtWrite : BitVec 32 := 2

def takeBitfield (v high low : Nat) : Nat := (v >>> low) &&& ((1 <<< (high - low + 1)) - 1)

/-- The indices of an address, from the PML4 down. -/
def indices (v : Nat) : List Nat :=
  [takeBitfield v 47 39, takeBitfield v 38 30, takeBitfield v 29 21, takeBitfield v 20 12]

namespace PageEntry

def Present (e : Nat) : Prop := e &&& pmlPresent ≠ 0
def Writeable (e : Nat) : Prop := e &&& pmlWriteable ≠ 0
def PageSize (e : Nat) : Prop := e &&& pmlPageSize ≠ 0
def ExecuteDisable (e : Nat) : Prop := e &&& pmlExecuteDisable ≠ 0

instance (e : Nat) : Decidable (Present e) := inferInstanceAs (Decidable (_ ≠ _))
instance (e : Nat) : Decidable (Writeable e) := inferInstanceAs (Decidable (_ ≠ _))
instance (e : Nat) : Decidable (PageSize e) := inferInstanceAs (Decidable (_ ≠ _))
instance (e : Nat) : Decidable (ExecuteDisable e) := inferInstanceAs (Decidable (_ ≠ _))

/-- The table an entry refers to. The bit `PML_PAGE_SIZE` makes it a page in the PML3 and PML2
tables. -/
def link : Nat → Nat → Option Nat
  | 0, e => if Present e then some (e &&& pmlAddrMask) else none
  | 1, e | 2, e => if Present e ∧ ¬ PageSize e then some (e &&& pmlAddrMask) else none
  | _, _ => none

def table (frame : Nat) : Nat := frame ||| pmlPresent ||| pmlWriteable

/-- The protection bits of an entry for a page. -/
def protection (supportExecuteDisable : Bool) (flags : BitVec 32) : Nat :=
  (if flags &&& mapProtWrite ≠ 0 then pmlWriteable else 0) |||
    (if supportExecuteDisable ∧ flags &&& mapProtExec = 0 then pmlExecuteDisable else 0)

/-- An entry for a page, where `size` is the bit that marks a large page or 0. -/
def leaf (size : Nat) (supportExecuteDisable : Bool) (physical : Nat) (flags : BitVec 32) : Nat :=
  physical ||| pmlPresent ||| size ||| protection supportExecuteDisable flags

/-! ### Bits of entries -/

theorem and_eq_zero_of_low {n a k : Nat} (hn : n % 2 ^ k = 0) (ha : a < 2 ^ k) : n &&& a = 0 := by
  apply Nat.eq_of_testBit_eq
  intro i
  rw [Nat.testBit_and, Nat.zero_testBit]
  by_cases hi : i < k
  · have hbit : (n % 2 ^ k).testBit i = n.testBit i := by simp [hi]
    rw [← hbit, hn, Nat.zero_testBit, Bool.false_and]
  · have hpow : 2 ^ k ≤ 2 ^ i := Nat.pow_le_pow_right (by decide) (Nat.le_of_not_lt hi)
    rw [Nat.testBit_lt_two_pow (Nat.lt_of_lt_of_le ha hpow), Bool.and_false]

theorem and_mask_eq {n k l : Nat} (hlow : n % 2 ^ k = 0) (hhigh : n < 2 ^ l) :
    n &&& ((2 ^ (l - k) - 1) <<< k) = n := by
  apply Nat.eq_of_testBit_eq
  intro i
  rw [Nat.testBit_and, Nat.testBit_shiftLeft, Nat.testBit_two_pow_sub_one]
  by_cases hk : i < k
  · have hbit : (n % 2 ^ k).testBit i = n.testBit i := by simp [hk]
    rw [← hbit, hlow, Nat.zero_testBit, Bool.false_and]
  · by_cases hl : i < l
    · have hki : k ≤ i := Nat.le_of_not_lt hk
      have hlk : i - k < l - k := by omega
      simp [hki, hlk]
    · have hpow : 2 ^ l ≤ 2 ^ i := Nat.pow_le_pow_right (by decide) (Nat.le_of_not_lt hl)
      rw [Nat.testBit_lt_two_pow (Nat.lt_of_lt_of_le hhigh hpow), Bool.false_and]

/-- A 4 KiB aligned address within the 52 bits of physical addresses. -/
def IsFrame (frame : Nat) : Prop := frame % 4096 = 0 ∧ frame < 2 ^ 52

instance (frame : Nat) : Decidable (IsFrame frame) := inferInstanceAs (Decidable (_ ∧ _))

section Frame

variable {frame bits : Nat}

theorem IsFrame.and_low (h : IsFrame frame) (hbits : bits < 4096) : frame &&& bits = 0 :=
  and_eq_zero_of_low (k := 12) h.1 hbits

theorem IsFrame.and_executeDisable (h : IsFrame frame) : frame &&& pmlExecuteDisable = 0 := by
  rw [Nat.and_comm]
  exact and_eq_zero_of_low (k := 52) (by decide) h.2

theorem IsFrame.and_addrMask (h : IsFrame frame) : frame &&& pmlAddrMask = frame :=
  and_mask_eq (k := 12) (l := 52) h.1 h.2

theorem and_addrMask2M (halign : frame % 2097152 = 0) (hlt : frame < 2 ^ 52) :
    frame &&& pmlAddrMask2M = frame :=
  and_mask_eq (k := 21) (l := 52) halign hlt

theorem and_addrMask1G (halign : frame % 1073741824 = 0) (hlt : frame < 2 ^ 52) :
    frame &&& pmlAddrMask1G = frame :=
  and_mask_eq (k := 30) (l := 52) halign hlt

end Frame

section Table

theorem table_and (frame mask : Nat) :
    table frame &&& mask = frame &&& mask ||| (pmlPresent ||| pmlWriteable) &&& mask := by
  unfold table
  rw [Nat.or_assoc, Nat.and_or_distrib_right]

variable {frame : Nat} (h : IsFrame frame)

include h

theorem present_table : Present (table frame) := by
  unfold Present
  rw [table_and, h.and_low (by decide)]
  decide

theorem writeable_table : Writeable (table frame) := by
  unfold Writeable
  rw [table_and, h.and_low (by decide)]
  decide

theorem not_pageSize_table : ¬ PageSize (table frame) := by
  unfold PageSize
  rw [table_and, h.and_low (by decide)]
  decide

theorem not_executeDisable_table : ¬ ExecuteDisable (table frame) := by
  unfold ExecuteDisable
  rw [table_and, h.and_executeDisable]
  decide

theorem table_and_addrMask : table frame &&& pmlAddrMask = frame := by
  rw [table_and, h.and_addrMask]
  simp [pmlPresent, pmlWriteable, pmlAddrMask]

theorem link_table {d : Nat} (hd : d ≤ 2) : link d (table frame) = some frame := by
  match d, hd with
  | 0, _ => rw [link, if_pos (present_table h), table_and_addrMask h]
  | 1, _ => rw [link, if_pos ⟨present_table h, not_pageSize_table h⟩, table_and_addrMask h]
  | 2, _ => rw [link, if_pos ⟨present_table h, not_pageSize_table h⟩, table_and_addrMask h]

end Table

section Page

variable {supportExecuteDisable : Bool} {flags : BitVec 32} {physical : Nat}

theorem protection_and {mask : Nat} (hwrite : pmlWriteable &&& mask = 0)
    (hexecute : pmlExecuteDisable &&& mask = 0) :
    protection supportExecuteDisable flags &&& mask = 0 := by
  unfold protection
  rw [Nat.and_or_distrib_right]
  split <;> split <;> simp [hwrite, hexecute]

theorem writeable_protection :
    Writeable (protection supportExecuteDisable flags) ↔ flags &&& mapProtWrite ≠ 0 := by
  unfold Writeable protection
  split <;> split <;> simp_all [pmlWriteable, pmlExecuteDisable]

theorem executeDisable_protection :
    ExecuteDisable (protection supportExecuteDisable flags) ↔
      supportExecuteDisable ∧ flags &&& mapProtExec = 0 := by
  unfold ExecuteDisable protection
  split <;> split <;> simp_all [pmlWriteable, pmlExecuteDisable]

theorem leaf_and (size mask : Nat) :
    leaf size supportExecuteDisable physical flags &&& mask =
      physical &&& mask ||| pmlPresent &&& mask ||| size &&& mask |||
        protection supportExecuteDisable flags &&& mask := by
  unfold leaf
  rw [Nat.and_or_distrib_right, Nat.and_or_distrib_right, Nat.and_or_distrib_right]

variable {size : Nat}

theorem present_leaf (h : IsFrame physical) :
    Present (leaf size supportExecuteDisable physical flags) := by
  unfold Present
  rw [leaf_and, h.and_low (by decide), protection_and (by decide) (by decide)]
  intro hzero
  simp [pmlPresent] at hzero

theorem pageSize_leaf : PageSize (leaf pmlPageSize supportExecuteDisable physical flags) := by
  unfold PageSize
  rw [leaf_and]
  intro hzero
  simp [pmlPageSize] at hzero

theorem writeable_leaf (h : IsFrame physical) (hsize : size &&& pmlWriteable = 0) :
    Writeable (leaf size supportExecuteDisable physical flags) ↔ flags &&& mapProtWrite ≠ 0 := by
  have hprotection : Writeable (protection supportExecuteDisable flags) ↔ _ := writeable_protection
  rw [← hprotection]
  unfold Writeable
  rw [leaf_and, h.and_low (by decide), hsize]
  simp [pmlPresent, pmlWriteable]

theorem executeDisable_leaf (h : IsFrame physical) (hsize : size &&& pmlExecuteDisable = 0) :
    ExecuteDisable (leaf size supportExecuteDisable physical flags) ↔
      supportExecuteDisable ∧ flags &&& mapProtExec = 0 := by
  rw [← executeDisable_protection]
  unfold ExecuteDisable
  rw [leaf_and, h.and_executeDisable, hsize]
  simp [pmlPresent, pmlExecuteDisable]

theorem leaf_and_mask {mask : Nat} (hphysical : physical &&& mask = physical)
    (hbits : (pmlPresent ||| size ||| pmlWriteable ||| pmlExecuteDisable) &&& mask = 0) :
    leaf size supportExecuteDisable physical flags &&& mask = physical := by
  simp only [Nat.and_or_distrib_right, Nat.or_eq_zero_iff] at hbits
  obtain ⟨⟨⟨hpresent, hsize⟩, hwrite⟩, hexecute⟩ := hbits
  rw [leaf_and, hphysical, hpresent, hsize, protection_and hwrite hexecute]
  simp

end Page

end PageEntry

/-! ### Translation -/

structure Translation where
  physical : Nat
  pageSize : Nat
  writable : Bool
  executeDisable : Bool
deriving DecidableEq

namespace Translation

open PageEntry

/-- The size of the page, and the mask for its address, when so many entries are read. -/
def sizeAt : Nat → Nat
  | 4 => 4096
  | 3 => 2097152
  | _ => 1073741824

def maskAt : Nat → Nat
  | 4 => pmlAddrMask
  | 3 => pmlAddrMask2M
  | _ => pmlAddrMask1G

/-- The last entry read gives the page if it is present. A page can be written to if all entries
allow it, and executed from if none forbids it. -/
def ofTrail (v : Nat) (trail : List Nat) : Option Translation :=
  trail.getLast?.bind fun e =>
    if Present e then
      some
        { physical := (e &&& maskAt trail.length) + v % sizeAt trail.length
          pageSize := sizeAt trail.length
          writable := trail.all fun e => Writeable e
          executeDisable := trail.any fun e => ExecuteDisable e }
    else none

def Permissive (e : Nat) : Prop := Writeable e ∧ ¬ ExecuteDisable e

theorem ofTrail_concat {v e : Nat} {trail : List Nat} (h : ∀ e ∈ trail, Permissive e) :
    ofTrail v (trail ++ [e]) =
      if Present e then
        some
          { physical := (e &&& maskAt (trail.length + 1)) + v % sizeAt (trail.length + 1)
            pageSize := sizeAt (trail.length + 1)
            writable := decide (Writeable e)
            executeDisable := decide (ExecuteDisable e) }
      else none := by
  have hall : (trail.all fun e => Writeable e) = true := by
    rw [List.all_eq_true]
    intro e he
    exact decide_eq_true (h e he).1
  have hany : (trail.any fun e => ExecuteDisable e) = false := by
    rw [List.any_eq_false]
    intro e he
    simpa using (h e he).2
  unfold ofTrail
  rw [List.getLast?_append, List.getLast?_singleton, Option.some_or, Option.bind_some,
    List.length_append, List.length_singleton, List.all_append, List.any_append, hall, hany]
  simp

theorem ofTrail_of_absent {v e : Nat} {trail : List Nat} (h : ¬ Present e) :
    ofTrail v (trail ++ [e]) = none := by
  unfold ofTrail
  rw [List.getLast?_append, List.getLast?_singleton, Option.some_or, Option.bind_some, if_neg h]

theorem ofTrail_of_present {v e : Nat} {trail : List Nat} (h : Present e) :
    ∃ t, ofTrail v (trail ++ [e]) = some t ∧ t.pageSize = sizeAt (trail.length + 1) ∧
      t.physical = (e &&& maskAt (trail.length + 1)) + v % sizeAt (trail.length + 1) := by
  unfold ofTrail
  rw [List.getLast?_append, List.getLast?_singleton, Option.some_or, Option.bind_some, if_pos h,
    List.length_append, List.length_singleton]
  exact ⟨_, rfl, rfl, rfl⟩

/-- The translation that a mapping call asks for. -/
def asked (size physical : Nat) (supportExecuteDisable : Bool) (flags : BitVec 32) (v : Nat) :
    Translation where
  physical := physical + v % size
  pageSize := size
  writable := decide (flags &&& mapProtWrite ≠ 0)
  executeDisable := decide (supportExecuteDisable ∧ flags &&& mapProtExec = 0)

section Leaf

variable {supportExecuteDisable : Bool} {flags : BitVec 32} {physical v : Nat} {trail : List Nat}

theorem ofTrail_leaf {size n : Nat} (h : ∀ e ∈ trail, Permissive e) (hlength : trail.length + 1 = n)
    (hphysical : IsFrame physical) (haddress : physical &&& maskAt n = physical)
    (hbits : (pmlPresent ||| size ||| pmlWriteable ||| pmlExecuteDisable) &&& maskAt n = 0)
    (hwrite : size &&& pmlWriteable = 0) (hexecute : size &&& pmlExecuteDisable = 0) :
    ofTrail v (trail ++ [leaf size supportExecuteDisable physical flags]) =
      some (asked (sizeAt n) physical supportExecuteDisable flags v) := by
  rw [ofTrail_concat h, if_pos (present_leaf hphysical), hlength, leaf_and_mask haddress hbits]
  simp only [writeable_leaf hphysical hwrite, executeDisable_leaf hphysical hexecute]
  rfl

theorem ofTrail_page (h : ∀ e ∈ trail, Permissive e) (hlength : trail.length = 3)
    (hphysical : IsFrame physical) :
    ofTrail v (trail ++ [leaf 0 supportExecuteDisable physical flags]) =
      some (asked 4096 physical supportExecuteDisable flags v) :=
  ofTrail_leaf (n := 4) h (by omega) hphysical hphysical.and_addrMask (by decide)
    (by decide) (by decide)

theorem ofTrail_page2M (h : ∀ e ∈ trail, Permissive e) (hlength : trail.length = 2)
    (halign : physical % 2097152 = 0) (hphysical : physical < 2 ^ 52) :
    ofTrail v (trail ++ [leaf pmlPageSize supportExecuteDisable physical flags]) =
      some (asked 2097152 physical supportExecuteDisable flags v) :=
  ofTrail_leaf (n := 3) h (by omega) ⟨by omega, hphysical⟩ (and_addrMask2M halign hphysical)
    (by decide) (by decide) (by decide)

theorem ofTrail_page1G (h : ∀ e ∈ trail, Permissive e) (hlength : trail.length = 1)
    (halign : physical % 1073741824 = 0) (hphysical : physical < 2 ^ 52) :
    ofTrail v (trail ++ [leaf pmlPageSize supportExecuteDisable physical flags]) =
      some (asked 1073741824 physical supportExecuteDisable flags v) :=
  ofTrail_leaf (n := 2) h (by omega) ⟨by omega, hphysical⟩ (and_addrMask1G halign hphysical)
    (by decide) (by decide) (by decide)

end Leaf

end Translation

/-! ### Indices -/

theorem takeBitfield_eq {v high low : Nat} :
    takeBitfield v high low = v / 2 ^ low % 2 ^ (high - low + 1) := by
  unfold takeBitfield
  rw [Nat.shiftLeft_eq, Nat.one_mul, Nat.and_two_pow_sub_one_eq_mod, Nat.shiftRight_eq_div_pow]

/-- Two addresses with the same indices are in one page, of their low 48 bits. -/
theorem indices_eq_iff {v w : Nat} :
    indices v = indices w ↔ v % 2 ^ 48 / 4096 = w % 2 ^ 48 / 4096 := by
  simp only [indices, takeBitfield_eq, List.cons.injEq, and_true]
  omega

theorem indices_take_eq_iff {v w : Nat} :
    (indices v).take 3 = (indices w).take 3 ↔ v % 2 ^ 48 / 2097152 = w % 2 ^ 48 / 2097152 := by
  simp only [indices, takeBitfield_eq, List.take_succ_cons, List.take_zero, List.cons.injEq,
    and_true]
  omega

theorem indices_take_two_eq_iff {v w : Nat} :
    (indices v).take 2 = (indices w).take 2 ↔
      v % 2 ^ 48 / 1073741824 = w % 2 ^ 48 / 1073741824 := by
  simp only [indices, takeBitfield_eq, List.take_succ_cons, List.take_zero, List.cons.injEq,
    and_true]
  omega

end Helos
