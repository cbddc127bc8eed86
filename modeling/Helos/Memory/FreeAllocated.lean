import Helos.Memory.PageAllocated
import Helos.Memory.PageTableSpec

/-!
# What `paging_map_FreeAllocated` unmaps

In any memory, one turn of the loop goes on by 4 KiB when the address is not mapped, and otherwise
unmaps the page that the address is in, frees its frames and goes on by its size. Nothing that is
unmapped gets mapped again, and nothing is flushed.
-/

namespace Helos.Paging

open PageEntry Translation

variable {σ : Type} {g : PagingSetup σ} {s s' : Paging σ} {virt past : Nat} {p : List Nat}
  {t i : Nat}

/-- The entry for the page that the address is in. -/
structure Found (g : PagingSetup σ) (s : Paging σ) (virt : Nat) (p : List Nat) (t i : Nat) :
    Prop where
  path : p ++ [i] <+: indices virt
  table : Radix.find link s.memory 0 g.pml4Table p = some t
  leaf : link p.length (s.memory t i) = none
  present : Present (s.memory t i)

/-- The frames of a page when so many entries are read. -/
def framesAt : Nat → Nat
  | 4 => 1
  | 3 => 512
  | _ => 512 * 512

theorem isFrame_and_maskAt (e d : Nat) : IsFrame (e &&& maskAt d) := by
  have hmask : maskAt d % 2 ^ 12 = 0 ∧ maskAt d < 2 ^ 52 := by
    unfold maskAt
    split <;> decide
  constructor
  · have hlow := Nat.and_mod_two_pow (a := e) (b := maskAt d) (n := 12)
    rwa [hmask.1, Nat.and_zero] at hlow
  · exact Nat.and_le_right.trans_lt hmask.2

/-- The page of an entry found so deep is freed, and the entry cleared. -/
def freeFound (g : PagingSetup σ) (s : Paging σ) (depth t i : Nat) : Nat × Paging σ :=
  (sizeAt (depth + 1),
    (freeFrame g s (s.memory t i &&& maskAt (depth + 1)) (framesAt (depth + 1))).setEntry t i 0)

theorem translate_of_absent (hp : Radix.find link s.memory 0 g.pml4Table p = some t)
    (hv : p ++ [i] <+: indices virt) (habsent : ¬ Present (s.memory t i)) :
    translate g s virt = none := by
  have hleaf : link p.length (s.memory t i) = none := by
    rw [Option.eq_none_iff_forall_not_mem]
    intro c hc
    exact habsent (link_eq_some hc).1
  rw [Sound.translate_eq hp hleaf hv, ofTrail_of_absent habsent]

theorem Found.translate (h : Found g s virt p t i) :
    ∃ translation, translate g s virt = some translation ∧
      translation.pageSize = sizeAt (p.length + 1) ∧
      translation.physical =
        (s.memory t i &&& maskAt (p.length + 1)) + virt % sizeAt (p.length + 1) := by
  rw [Sound.translate_eq h.table h.leaf h.path, ← Radix.length_trail h.table]
  exact ofTrail_of_present h.present

theorem freeOnePage_cases (g : PagingSetup σ) (virt : Nat) (s : Paging σ) :
    (freeOnePage g virt s = (4096, s) ∧ translate g s virt = none) ∨
      ∃ p t i, Found g s virt p t i ∧ freeOnePage g virt s = freeFound g s p.length t i := by
  have hroot : Radix.find link s.memory 0 g.pml4Table [] = some g.pml4Table := rfl
  unfold freeOnePage
  set i₁ := takeBitfield virt 47 39
  set i₂ := takeBitfield virt 38 30
  set i₃ := takeBitfield virt 29 21
  set i₄ := takeBitfield virt 20 12
  have habsent {t i : Nat} (h : s.memory t i &&& pmlPresent = 0) : ¬ Present (s.memory t i) :=
    not_not.mpr h
  by_cases h₁ : s.memory g.pml4Table i₁ &&& pmlPresent = 0
  · exact .inl ⟨if_pos h₁, translate_of_absent hroot ⟨[i₂, i₃, i₄], rfl⟩ (habsent h₁)⟩
  rw [if_neg h₁]
  set t₁ := s.memory g.pml4Table i₁ &&& pmlAddrMask
  have hfind₁ : Radix.find link s.memory 0 g.pml4Table [i₁] = some t₁ :=
    (Radix.find_snoc hroot).trans (if_pos h₁)
  by_cases h₂ : s.memory t₁ i₂ &&& pmlPresent = 0
  · exact .inl ⟨if_pos h₂, translate_of_absent hfind₁ ⟨[i₃, i₄], rfl⟩ (habsent h₂)⟩
  rw [if_neg h₂]
  by_cases hsize₂ : s.memory t₁ i₂ &&& pmlPageSize = 0
  swap
  · have hfound : Found g s virt [i₁] t₁ i₂ :=
      ⟨⟨[i₃, i₄], rfl⟩, hfind₁, if_neg fun h => h.2 hsize₂, h₂⟩
    exact .inr ⟨_, _, _, hfound, (if_pos hsize₂).trans rfl⟩
  rw [if_neg (not_not.mpr hsize₂)]
  set t₂ := s.memory t₁ i₂ &&& pmlAddrMask
  have hfind₂ : Radix.find link s.memory 0 g.pml4Table [i₁, i₂] = some t₂ :=
    (Radix.find_snoc hfind₁).trans (if_pos ⟨h₂, not_not.mpr hsize₂⟩)
  by_cases h₃ : s.memory t₂ i₃ &&& pmlPresent = 0
  · exact .inl ⟨if_pos h₃, translate_of_absent hfind₂ ⟨[i₄], rfl⟩ (habsent h₃)⟩
  rw [if_neg h₃]
  by_cases hsize₃ : s.memory t₂ i₃ &&& pmlPageSize = 0
  swap
  · have hfound : Found g s virt [i₁, i₂] t₂ i₃ :=
      ⟨⟨[i₄], rfl⟩, hfind₂, if_neg fun h => h.2 hsize₃, h₃⟩
    exact .inr ⟨_, _, _, hfound, (if_pos hsize₃).trans rfl⟩
  rw [if_neg (not_not.mpr hsize₃)]
  set t₃ := s.memory t₂ i₃ &&& pmlAddrMask
  have hfind₃ : Radix.find link s.memory 0 g.pml4Table [i₁, i₂, i₃] = some t₃ :=
    (Radix.find_snoc hfind₂).trans (if_pos ⟨h₃, not_not.mpr hsize₃⟩)
  by_cases h₄ : s.memory t₃ i₄ &&& pmlPresent = 0
  · exact .inl ⟨if_neg (not_not.mpr h₄),
      translate_of_absent hfind₃ (List.prefix_refl _) (habsent h₄)⟩
  · have hfound : Found g s virt [i₁, i₂, i₃] t₃ i₄ := ⟨List.prefix_refl _, hfind₃, rfl, h₄⟩
    exact .inr ⟨_, _, _, hfound, (if_pos h₄).trans rfl⟩

/-! ### Unmapping -/

theorem ofTrail_none_iff {v w : Nat} {trail : List Nat} :
    ofTrail v trail = none ↔ ofTrail w trail = none := by
  unfold ofTrail
  cases trail.getLast? with
  | none => exact Iff.rfl
  | some e =>
    rw [Option.bind_some, Option.bind_some]
    split <;> simp

/-- Whether an address is mapped depends on its low 48 bits. -/
theorem translate_none_iff {v w : Nat} (h : v % 2 ^ 48 / 4096 = w % 2 ^ 48 / 4096) :
    translate g s v = none ↔ translate g s w = none := by
  unfold translate
  rw [indices_eq_iff.mpr h]
  exact ofTrail_none_iff

theorem not_present_zero : ¬ Present 0 := not_not.mpr rfl

theorem translate_freeFound_of_none {depth v : Nat} (h : translate g s v = none) :
    translate g (freeFound g s depth t i).2 v = none := by
  unfold translate at h ⊢
  change ofTrail v (Radix.trail link (Radix.write s.memory t i 0) 0 g.pml4Table (indices v)) = none
  have hwalk := Radix.trail_write_zero (m := s.memory) (t := t) (r := g.pml4Table) (i := i) (d := 0)
    (p := indices v) link_zero
  rcases hwalk with hsame | ⟨before, hbefore⟩
  · rw [hsame, h]
  · rw [hbefore, ofTrail_of_absent not_present_zero]

theorem Found.unmapped (h : Found g s virt p t i) :
    Paging.translate g (freeFound g s p.length t i).2 virt = none := by
  obtain ⟨q, hq⟩ := h.path
  rw [List.append_assoc, List.singleton_append] at hq
  unfold Paging.translate
  change ofTrail virt
    (Radix.trail link (Radix.write s.memory t i 0) 0 g.pml4Table (indices virt)) = none
  rw [← hq]
  obtain ⟨before, hbefore⟩ := Radix.trail_write_zero_below (q := q) link_zero h.table
  rw [hbefore, ofTrail_of_absent not_present_zero]

theorem sizeAt_mod (n : Nat) : sizeAt n % 4096 = 0 ∧ 0 < sizeAt n := by
  unfold sizeAt
  split <;> decide

/-! ### The loop -/

theorem freePages_unmaps {fuel v : Nat} (h : freePages g past fuel virt s = some s')
    (hnone : translate g s v = none) : translate g s' v = none := by
  induction fuel generalizing virt s with
  | zero =>
    rw [freePages, Option.ite_none_left_eq_some] at h
    exact Option.some.inj h.2 ▸ hnone
  | succ fuel ih =>
    rw [freePages] at h
    split at h
    · rcases freeOnePage_cases g virt s with ⟨hrun, -⟩ | ⟨p, t, i, -, hrun⟩
      · simp only [hrun] at h
        exact ih h hnone
      · simp only [hrun] at h
        exact ih h (translate_freeFound_of_none hnone)
    · exact Option.some.inj h ▸ hnone

end Helos.Paging
