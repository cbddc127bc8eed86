import Helos.Memory.FreeAllocated
import Helos.Memory.PageTree
import Helos.Memory.PagingInit

/-!
# Pages inside larger ones

The mapping functions descend through a larger page as if it were a table: what it holds is read as
entries, and written to. The walk then strays. As long as no table is where it strays to, the tables and
what they translate stay as they are, and only the pages that are not inside larger ones are mapped.
-/

namespace Helos

open PageEntry

/-! ### Where the walk strays to -/

section Walks

variable {m : Nat → Nat → Nat} {p is : List Nat} {t c i d : Nat}

end Walks

namespace Paging

open Translation

/-! ### What leaves the tables alone -/

/-- The entries of the tables are as before, and they are still a tree. -/
structure Aside (g : PagingSetup Physical) (s s' : Paging Physical) : Prop where
  tree : Tree g s'
  memory : ∀ x, Radix.IsTable link s.memory g.pml4Table x → s'.memory x = s.memory x

section Aside

variable {g : PagingSetup Physical} {s s₁ s' : Paging Physical} {x t i c : Nat}

theorem Aside.isTable (h : Aside g s s') :
    Radix.IsTable link s'.memory g.pml4Table x ↔ Radix.IsTable link s.memory g.pml4Table x := by
  unfold Radix.IsTable
  simp only [Radix.find_of_tables h.memory]

theorem Aside.translate (h : Aside g s s') : Paging.translate g s' = Paging.translate g s := by
  funext v
  exact congrArg (ofTrail v) (Radix.trail_of_tables h.memory)

theorem Aside.refl (h : Tree g s) : Aside g s s := ⟨h, fun _ _ => rfl⟩

theorem Aside.trans (h : Aside g s s₁) (h' : Aside g s₁ s') : Aside g s s' :=
  ⟨h'.tree, fun x hx => (h'.memory x (h.isTable.mpr hx)).trans (h.memory x hx)⟩

theorem Aside.flush (h : Aside g s s') (virt : Nat) : Aside g s (s'.flushTlbSingle virt) :=
  ⟨h.tree.flush, h.memory⟩

end Aside

/-! ### One page -/

section Page

variable {g : PagingSetup Physical} {s s' : Paging Physical} {p is : List Nat} {t i d : Nat}
  {flags : BitVec 32} {physical virt : Nat}

theorem sizeAt_anti {m n : Nat} (hmn : m ≤ n) (hn : n ≤ 4) : sizeAt n ≤ sizeAt m := by
  rcases Nat.lt_or_ge n 4 with hlt | hge
  · exact sizeAt_le hmn (Nat.le_of_lt_succ hlt)
  · obtain rfl := Nat.le_antisymm hn hge
    change 4096 ≤ sizeAt m
    unfold sizeAt
    split <;> decide

/-- The entry of the larger page is on the way of the code to a page inside it. -/
theorem exists_larger {size n : Nat} (hn : n ≤ 3) (hsize : sizeAt (n + 1) ≤ size)
    (hinside : ¬ NotInside size (Paging.translate g s) virt) :
    ∃ p t i rest, p ++ i :: rest = (indices virt).take n ∧ rest.length + 2 ≤ n ∧
      Radix.find link s.memory 0 g.pml4Table p = some t ∧ Present (s.memory t i) ∧
      0 < p.length ∧ link p.length (s.memory t i) = none := by
  unfold NotInside at hinside
  push Not at hinside
  obtain ⟨translation, htranslation, hlarge⟩ := hinside
  rcases freeOnePage_cases g virt s with ⟨-, hnone⟩ | ⟨p, t, i, hfound, -⟩
  · cases htranslation.symm.trans hnone
  obtain ⟨_, hsome, hpage, -⟩ := hfound.translate
  obtain rfl := Option.some.inj (htranslation.symm.trans hsome)
  have hlength : p.length + 1 ≤ 4 := by
    have hle := hfound.path.length_le
    rwa [List.length_append, List.length_singleton] at hle
  have hshort : p.length + 1 ≤ n := by
    by_contra hlong
    have hle : sizeAt (p.length + 1) ≤ sizeAt (n + 1) := sizeAt_anti (by omega) hlength
    omega
  have hroot : 0 < p.length := by
    refine List.length_pos_iff.mpr ?_
    rintro rfl
    have hleaf := hfound.leaf
    rw [List.length_nil, link, if_pos hfound.present] at hleaf
    cases hleaf
  obtain ⟨rest, hrest⟩ : p ++ [i] <+: (indices virt).take n := by
    refine List.prefix_take_iff.mpr ⟨hfound.path, ?_⟩
    rw [List.length_append, List.length_singleton]
    exact hshort
  rw [List.append_assoc, List.singleton_append] at hrest
  have hlong : p.length + (rest.length + 1) = n := by
    have hcount := congrArg List.length hrest
    rw [List.length_append, List.length_cons, List.length_take] at hcount
    exact hcount.trans (Nat.min_eq_left (hn.trans (show 3 ≤ 4 by decide)))
  exact ⟨p, t, i, rest, hrest, by omega, hfound.table, hfound.present, hroot, hfound.leaf⟩

end Page

end Paging

/-! ### The loop over pages -/

namespace Paging

open Translation

instance (size : Nat) (f : FlatMap) (v : Nat) : Decidable (NotInside size f v) :=
  inferInstanceAs (Decidable (∀ t ∈ f v, t.pageSize ≤ size))

section Loop

variable {g : PagingSetup Physical} {s : Paging Physical} {size : Nat} {flags : BitVec 32}
  {one : Nat → Nat → Paging Physical → Paging Physical} {Out : Nat → Paging Physical → Prop}

end Loop

end Paging

end Helos
