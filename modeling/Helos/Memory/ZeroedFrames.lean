import Helos.Memory.FrameStock

/-!
# What mapping writes

Mapping writes into tables and zeroes the frames that become tables. What was zero and is no table at the
end is still zero.
-/

namespace Helos.Paging

open PageEntry Translation

variable {g : PagingSetup Physical} {s s₁ s' : Paging Physical} {p buf : List Nat} {t i e x : Nat}

/-- The page is as it was, or all zero. -/
def Unwritten (s s' : Paging Physical) (x : Nat) : Prop :=
  s'.memory x = s.memory x ∨ s'.memory x = fun _ => 0

theorem Unwritten.trans (h : Unwritten s s₁ x) (h' : Unwritten s₁ s' x) : Unwritten s s' x := by
  rcases h' with hsame | hzero
  · rw [Unwritten, hsame]
    exact h
  · exact .inr hzero

theorem Unwritten.zero (h : Unwritten s s' x) (hzero : s.memory x = fun _ => 0) :
    s'.memory x = fun _ => 0 := by
  rcases h with hsame | hzero'
  · exact hsame.trans hzero
  · exact hzero'

/-- Tables stay tables, and only these are written. -/
structure Confined (g : PagingSetup Physical) (s s' : Paging Physical) : Prop where
  isTable : ∀ x, Radix.IsTable link s.memory g.pml4Table x → Radix.IsTable link s'.memory g.pml4Table x
  unwritten : ∀ x, ¬ Radix.IsTable link s'.memory g.pml4Table x → Unwritten s s' x

theorem Confined.refl (s : Paging Physical) : Confined g s s := ⟨fun _ => id, fun _ _ => .inl rfl⟩

theorem Confined.trans (h : Confined g s s₁) (h' : Confined g s₁ s') : Confined g s s' where
  isTable x hx := h'.isTable x (h.isTable x hx)
  unwritten x hx := (h.unwritten x fun htable => hx (h'.isTable x htable)).trans (h'.unwritten x hx)

theorem unwritten_setEntry (s : Paging Physical) (hx : x ≠ t) : Unwritten s (s.setEntry t i e) x :=
  .inl (Function.update_of_ne hx _ _)

theorem unwritten_flush (s : Paging Physical) (virt x : Nat) : Unwritten s (s.flushTlbSingle virt) x :=
  .inl rfl

theorem unwritten_clear {frame : Nat} (hmemory : s'.memory = Radix.clear s.memory frame 0) (x : Nat) :
    Unwritten s s' x := by
  unfold Unwritten
  rw [hmemory]
  by_cases hx : x = frame
  · subst hx
    exact .inr (Function.update_self _ _ _)
  · exact .inl (Function.update_of_ne hx _ _)

theorem unwritten_nextTable (g : PagingSetup Physical) (s : Paging Physical) (i : Nat) (hx : x ≠ t) :
    Unwritten s (nextTable g s t i).2 x := by
  obtain ⟨-, hnext⟩ | ⟨-, frames, -, hnext⟩ | ⟨-, frame, frames, -, hnext⟩ := nextTable_cases g s t i
  · rw [hnext]
    exact .inl rfl
  · rw [hnext]
    exact unwritten_setEntry s hx
  · rw [hnext]
    have hclear : Unwritten s
        { frames
          memory := Radix.clear s.memory frame 0
          events := .allocated (some frame) :: s.events } x := unwritten_clear rfl x
    exact hclear.trans (unwritten_setEntry _ hx)

theorem Tree.confined_descend {is : List Nat} (h : Tree g s)
    (hp : Radix.find link s.memory 0 g.pml4Table p = some t)
    (hlength : p.length + is.length ≤ 3) {virt size : Nat} (hv : p ++ is <+: indices virt)
    (hsize : 1 < p.length + is.length → size < sizeAt (p.length + is.length))
    (hsmall : NotInside size (Paging.translate g s) virt)
    (hserved : Served s (Paging.descend g is t s).2) : Confined g s (Paging.descend g is t s).2 := by
  induction is generalizing p t s with
  | nil => exact Confined.refl s
  | cons i is ih =>
    rw [List.length_cons] at hlength hsize
    rw [List.append_cons] at hv
    obtain ⟨hfirst, hrest⟩ := hserved.split (flushes_nextTable g s t i) (flushes_descend g is _ _)
    have hsize₁ (hp₀ : 0 < p.length) : size < sizeAt (p.length + 1) :=
      Nat.lt_of_lt_of_le (hsize (by omega)) (sizeAt_le (by omega) hlength)
    obtain ⟨hdescended, -, hfind⟩ :=
      h.enter hp (by omega) ((List.prefix_append _ _).trans hv) hsize₁ hsmall hfirst
    have hlen : (p ++ [i]).length + is.length = p.length + (is.length + 1) := by
      rw [List.length_append, List.length_singleton]
      omega
    have hconfined : Confined g s (Paging.nextTable g s t i).2 := by
      refine ⟨fun x hx => hdescended.isTable hx, fun x hx => unwritten_nextTable g s i ?_⟩
      rintro rfl
      exact hx (hdescended.isTable ⟨p, hp⟩)
    exact hconfined.trans (ih hdescended.tree hfind (by omega) hv (hlen ▸ hsize)
      (hdescended.translate ▸ hsmall) hrest)

theorem Tree.confined_mapSmallPage {flags : BitVec 32} {physical virt : Nat} (h : Tree g s)
    (hsmall : NotInside 4096 (Paging.translate g s) virt)
    (hserved : Served s (Paging.mapSmallPage g flags physical virt s)) :
    Confined g s (Paging.mapSmallPage g flags physical virt s) := by
  have hv : [] ++ (indices virt).take 3 <+: indices virt := List.take_prefix 3 (indices virt)
  have hlength : ([] : List Nat).length + ((indices virt).take 3).length ≤ 3 := by simp [indices]
  have hsize : 1 < ([] : List Nat).length + ((indices virt).take 3).length →
      4096 < sizeAt (([] : List Nat).length + ((indices virt).take 3).length) := by simp [indices, sizeAt]
  obtain ⟨hserved₁, hdescended, hfind⟩ := h.descend_small hsmall hserved
  have hconfined := h.confined_descend rfl hlength hv hsize hsmall hserved₁
  unfold Paging.mapSmallPage
  set t := (Paging.descend g ((indices virt).take 3) g.pml4Table s).1
  set s₁ := (Paging.descend g ((indices virt).take 3) g.pml4Table s).2
  have hleaf (e : Nat) : link ((indices virt).take 3).length e = none := rfl
  -- the last table is written, and the tables are the same
  set s₂ := (s₁.setEntry t (takeBitfield virt 20 12)
    (leaf 0 g.supportExecuteDisable physical flags)).flushTlbSingle virt
  have hkept (q : List Nat) : Radix.find link s₂.memory 0 g.pml4Table q =
      Radix.find link s₁.memory 0 g.pml4Table q :=
    hdescended.tree.find_write hfind (hleaf _) rfl (hleaf _) q
  have hwritten : Confined g s₁ s₂ := by
    refine ⟨fun x hx => hx.imp fun q hq => (hkept q).trans hq, fun x hx => ?_⟩
    refine (unwritten_setEntry s₁ ?_).trans (unwritten_flush _ virt x)
    rintro rfl
    exact hx ⟨_, (hkept _).trans hfind⟩
  exact hconfined.trans hwritten

theorem foldl_clear_of_mem {m : Nat → Nat → Nat} (h : t ∈ buf) :
    buf.foldl (fun m frame => Radix.clear m frame 0) m t = fun _ => 0 := by
  induction buf generalizing m with
  | nil => cases h
  | cons frame buf ih =>
    rw [List.foldl_cons]
    by_cases hlater : t ∈ buf
    · exact ih hlater
    · obtain rfl : t = frame := (List.mem_cons.mp h).resolve_right hlater
      rw [foldl_clear_of_notMem hlater]
      exact Function.update_self _ _ _

theorem Tree.confined_allocateFrames (h : Tree g s) {pageCount : Nat}
    (hrun : s.allocateFrames pageCount = (buf, s')) (hserved : Served s s') :
    Confined g s s' ∧ ∀ frame ∈ buf, s'.memory frame = fun _ => 0 := by
  obtain ⟨-, -, hsame, -⟩ := h.allocateFrames hrun hserved
  obtain ⟨rfl, rfl⟩ := Prod.mk.inj hrun
  refine ⟨⟨fun x ⟨q, hq⟩ => ⟨q, (hsame q).trans hq⟩, fun x _ => ?_⟩, fun frame => foldl_clear_of_mem⟩
  by_cases hx : x ∈ (s.frames.allocateFrames pageCount).2
  · exact .inr (foldl_clear_of_mem hx)
  · exact .inl (foldl_clear_of_notMem hx)

end Helos.Paging
