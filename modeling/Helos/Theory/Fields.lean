import Helos.Theory.Cells
import Helos.Theory.LittleEndian
import Mathlib.Data.Nat.ModEq
import Mathlib.Data.Set.Lattice
import Mathlib.Order.CompletePartialOrder

/-!
# Adding to numbers in memory

A field is a little-endian number in some cells. Adding to one field and then to it again adds the
sum, adding to fields that are apart can be done in any order, and so adding twice to each field of a
list is adding once.
-/

namespace Fields

structure Field where
  address : Nat
  width : Nat

def Field.cells (f : Field) : Set Nat := Set.Ico f.address (f.address + f.width)

def value (m : Nat → UInt8) (f : Field) : Nat :=
  LittleEndian.decode (Cells.read m f.address f.width)

def add (m : Nat → UInt8) (f : Field) (d : Nat) : Nat → UInt8 :=
  Cells.write m f.address (LittleEndian.encode f.width (value m f + d))

variable {m m' : Nat → UInt8} {f g : Field} {d e i : Nat}

theorem add_outside (h : i ∉ f.cells) : add m f d i = m i :=
  Cells.write_apply_outside (by simpa [Field.cells] using h)

theorem add_apply {j : Nat} (hj : j < f.width) :
    add m f d (f.address + j) = (LittleEndian.encode f.width (value m f + d)).getD j 0 := by
  have hlength : j < (LittleEndian.encode f.width (value m f + d)).length := by simpa using hj
  rw [add, Cells.write_apply hlength, List.getD_eq_getElem _ _ hlength]

theorem value_congr (h : ∀ i ∈ f.cells, m i = m' i) : value m f = value m' f :=
  congrArg _ (Cells.read_congr fun _ hi => h _ ⟨Nat.le_add_right _ _, Nat.add_lt_add_left hi _⟩)

theorem value_add_apart (h : Disjoint f.cells g.cells) : value (add m f d) g = value m g :=
  value_congr fun _ hi => add_outside (Set.disjoint_right.mp h hi)

theorem value_add (m : Nat → UInt8) (f : Field) (d : Nat) :
    value (add m f d) f = (value m f + d) % 256 ^ f.width := by
  have hread := Cells.read_write_same m f.address (LittleEndian.encode f.width (value m f + d))
  rw [LittleEndian.length_encode] at hread
  rw [← LittleEndian.decode_encode, ← hread]
  rfl

/-- A field is written over, whatever was in it. -/
theorem write_write (m : Nat → UInt8) (a : Nat) {xs ys : List UInt8} (h : xs.length = ys.length) :
    Cells.write (Cells.write m a xs) a ys = Cells.write m a ys := by
  funext i
  by_cases hi : i ∈ Set.Ico a (a + ys.length)
  · obtain ⟨j, rfl⟩ := Nat.exists_eq_add_of_le hi.1
    rw [Cells.write_apply (Nat.lt_of_add_lt_add_left hi.2),
      Cells.write_apply (Nat.lt_of_add_lt_add_left hi.2)]
  · rw [Cells.write_apply_outside hi, Cells.write_apply_outside hi,
      Cells.write_apply_outside (h ▸ hi)]

theorem add_add (m : Nat → UInt8) (f : Field) (d e : Nat) : add (add m f d) f e = add m f (d + e) := by
  have hbytes : LittleEndian.encode f.width (value (add m f d) f + e) =
      LittleEndian.encode f.width (value m f + (d + e)) := by
    apply LittleEndian.encode_congr
    rw [value_add, Nat.mod_add_mod, Nat.add_assoc]
  rw [add, hbytes]
  exact write_write m f.address (by rw [LittleEndian.length_encode, LittleEndian.length_encode])

theorem add_congr (h : d % 256 ^ f.width = e % 256 ^ f.width) : add m f d = add m f e :=
  congrArg (Cells.write m f.address) (LittleEndian.encode_congr (Nat.ModEq.add_left (value m f) h))

theorem add_zero (m : Nat → UInt8) (f : Field) : add m f 0 = m := by
  funext i
  by_cases hi : i ∈ f.cells
  · obtain ⟨j, rfl⟩ := Nat.exists_eq_add_of_le hi.1
    have hj : j < f.width := Nat.lt_of_add_lt_add_left hi.2
    have hbytes : LittleEndian.encode f.width (value m f + 0) = Cells.read m f.address f.width := by
      simpa [value] using LittleEndian.encode_decode (Cells.read m f.address f.width)
    rw [add, hbytes, Cells.write_apply (by simpa using hj), Cells.getElem_read]
  · exact add_outside hi

theorem add_comm (h : Disjoint f.cells g.cells) : add (add m f d) g e = add (add m g e) f d := by
  have hf : value (add m g e) f = value m f := value_add_apart h.symm
  have hg : value (add m f d) g = value m g := value_add_apart h
  funext i
  by_cases hi : i ∈ f.cells
  · have hig : i ∉ g.cells := Set.disjoint_left.mp h hi
    obtain ⟨j, rfl⟩ := Nat.exists_eq_add_of_le hi.1
    have hj : j < f.width := Nat.lt_of_add_lt_add_left hi.2
    rw [add_outside hig, add_apply hj, add_apply hj, hf]
  · rw [add_outside hi]
    by_cases hig : i ∈ g.cells
    · obtain ⟨j, rfl⟩ := Nat.exists_eq_add_of_le hig.1
      have hj : j < g.width := Nat.lt_of_add_lt_add_left hig.2
      rw [add_apply hj, add_apply hj, hg]
    · rw [add_outside hig, add_outside hig, add_outside hi]

/-! ### Lists of fields -/

variable {κ : Type*} {field : κ → Field} {δ ε : κ → Nat} {ks : List κ}

def addAll (field : κ → Field) (δ : κ → Nat) (m : Nat → UInt8) (ks : List κ) : Nat → UInt8 :=
  ks.foldl (fun m k => add m (field k) (δ k)) m

@[simp] theorem addAll_nil (m : Nat → UInt8) : addAll field δ m [] = m := rfl

@[simp] theorem addAll_cons (m : Nat → UInt8) (k : κ) (ks : List κ) :
    addAll field δ m (k :: ks) = addAll field δ (add m (field k) (δ k)) ks := rfl

theorem addAll_append (m : Nat → UInt8) (ks js : List κ) :
    addAll field δ m (ks ++ js) = addAll field δ (addAll field δ m ks) js := List.foldl_append

theorem addAll_outside (h : ∀ k ∈ ks, i ∉ (field k).cells) : addAll field δ m ks i = m i := by
  induction ks generalizing m with
  | nil => rfl
  | cons k ks ih =>
    rw [List.forall_mem_cons] at h
    rw [addAll_cons, ih h.2, add_outside h.1]

theorem addAll_congr (h : ∀ k ∈ ks, δ k % 256 ^ (field k).width = ε k % 256 ^ (field k).width) :
    addAll field δ m ks = addAll field ε m ks := by
  induction ks generalizing m with
  | nil => rfl
  | cons k ks ih =>
    rw [List.forall_mem_cons] at h
    rw [addAll_cons, addAll_cons, add_congr h.1, ih h.2]

theorem addAll_add (h : ∀ k ∈ ks, Disjoint f.cells (field k).cells) :
    addAll field δ (add m f d) ks = add (addAll field δ m ks) f d := by
  induction ks generalizing m with
  | nil => rfl
  | cons k ks ih =>
    rw [List.forall_mem_cons] at h
    rw [addAll_cons, addAll_cons, add_comm h.1, ih h.2]

/-- The fields of the list are apart. -/
def Apart (field : κ → Field) (ks : List κ) : Prop :=
  ks.Pairwise fun j k => Disjoint (field j).cells (field k).cells

theorem addAll_addAll (h : Apart field ks) :
    addAll field ε (addAll field δ m ks) ks = addAll field (fun k => δ k + ε k) m ks := by
  induction ks generalizing m with
  | nil => rfl
  | cons k ks ih =>
    obtain ⟨hk, hks⟩ := List.pairwise_cons.mp h
    calc
      addAll field ε (addAll field δ m (k :: ks)) (k :: ks) =
          addAll field ε (addAll field δ (add (add m (field k) (δ k)) (field k) (ε k)) ks) ks := by
        rw [addAll_cons, addAll_cons, ← addAll_add hk]
      _ = addAll field (fun k => δ k + ε k) m (k :: ks) := by
        rw [add_add, ih hks, addAll_cons]

theorem addAll_zero (m : Nat → UInt8) (ks : List κ) : addAll field (fun _ => 0) m ks = m := by
  induction ks with
  | nil => rfl
  | cons k ks ih => rw [addAll_cons, add_zero, ih]

/-! ### Storing to fields -/

def set (m : Nat → UInt8) (f : Field) (v : Nat) : Nat → UInt8 :=
  Cells.write m f.address (LittleEndian.encode f.width v)

theorem set_outside {v : Nat} (h : i ∉ f.cells) : set m f v i = m i :=
  Cells.write_apply_outside (by simpa [Field.cells] using h)

@[simp] theorem value_set (m : Nat → UInt8) (f : Field) (v : Nat) :
    value (set m f v) f = v % 256 ^ f.width := by
  have hread := Cells.read_write_same m f.address (LittleEndian.encode f.width v)
  rw [LittleEndian.length_encode] at hread
  rw [← LittleEndian.decode_encode, ← hread]
  rfl

theorem value_set_apart {v : Nat} (h : Disjoint f.cells g.cells) : value (set m f v) g = value m g :=
  value_congr fun _ hi => set_outside (Set.disjoint_right.mp h hi)

theorem set_congr {v v' : Nat} (h : v % 256 ^ f.width = v' % 256 ^ f.width) : set m f v = set m f v' :=
  congrArg (Cells.write m f.address) (LittleEndian.encode_congr h)

theorem value_lt (m : Nat → UInt8) (f : Field) : value m f < 256 ^ f.width := by
  have h := LittleEndian.decode_lt (Cells.read m f.address f.width)
  rwa [Cells.length_read] at h

/-- The low bytes of a field. -/
theorem value_low (m : Nat → UInt8) (a w k : Nat) : value m ⟨a, w⟩ = value m ⟨a, w + k⟩ % 256 ^ w := by
  have hlow := value_lt m ⟨a, w⟩
  have hsplit : value m ⟨a, w + k⟩ = value m ⟨a, w⟩ + 256 ^ w * value m ⟨a + w, k⟩ := by
    simp only [value, Cells.read_add, LittleEndian.decode_append, Cells.length_read]
  rw [hsplit, Nat.add_mul_mod_self_left, Nat.mod_eq_of_lt hlow]

theorem value_zero {f : Field} (h : ∀ i ∈ f.cells, m i = 0) : value m f = 0 := by
  obtain ⟨a, w⟩ := f
  induction w generalizing a with
  | zero => rfl
  | succ w ih =>
    have hrest : value m ⟨a + 1, w⟩ = 0 := by
      refine ih (a + 1) fun i hi => h i ⟨Nat.le_trans (Nat.le_succ a) hi.1, ?_⟩
      have hlt := hi.2
      dsimp only at hlt ⊢
      omega
    rw [value, Cells.read_succ, LittleEndian.decode, h a ⟨Nat.le_refl a, Nat.lt_add_of_pos_right (Nat.succ_pos w)⟩]
    exact (Nat.zero_add _).trans (congrArg (256 * ·) hrest)

/-- One field after the other. -/
def setAll (m : Nat → UInt8) (fs : List (Field × Nat)) : Nat → UInt8 :=
  fs.foldl (fun m x => set m x.1 x.2) m

theorem setAll_cons (m : Nat → UInt8) (x : Field × Nat) (fs : List (Field × Nat)) :
    setAll m (x :: fs) = setAll (set m x.1 x.2) fs := rfl

theorem setAll_outside {fs : List (Field × Nat)} (h : ∀ x ∈ fs, i ∉ x.1.cells) :
    setAll m fs i = m i := by
  induction fs generalizing m with
  | nil => rfl
  | cons x fs ih =>
    rw [List.forall_mem_cons] at h
    rw [setAll_cons, ih h.2, set_outside h.1]

/-- Fields that are apart keep what was stored to each. -/
theorem value_setAll {fs : List (Field × Nat)}
    (hapart : fs.Pairwise fun x y => Disjoint x.1.cells y.1.cells) {x : Field × Nat} (hx : x ∈ fs) :
    value (setAll m fs) x.1 = x.2 % 256 ^ x.1.width := by
  induction fs generalizing m with
  | nil => cases hx
  | cons y fs ih =>
    obtain ⟨hy, hfs⟩ := List.pairwise_cons.mp hapart
    rw [setAll_cons]
    rcases List.mem_cons.mp hx with rfl | hx
    · have hlater : value (setAll (set m x.1 x.2) fs) x.1 = value (set m x.1 x.2) x.1 :=
        value_congr fun i hi => setAll_outside fun z hz => Set.disjoint_left.mp (hy z hz) hi
      rw [hlater, value_set]
    · exact ih hfs hx

/-- Numbers that fit are all read back. -/
theorem map_value_setAll {fs : List (Field × Nat)}
    (hapart : fs.Pairwise fun x y => Disjoint x.1.cells y.1.cells)
    (hfits : ∀ x ∈ fs, x.2 < 256 ^ x.1.width) :
    fs.map (fun x => value (setAll m fs) x.1) = fs.map Prod.snd :=
  List.map_congr_left fun x hx => (value_setAll hapart hx).trans (Nat.mod_eq_of_lt (hfits x hx))

/-- Fields of these widths, one behind the other. -/
def consecutive : Nat → List Nat → List Field
  | _, [] => []
  | a, w :: ws => ⟨a, w⟩ :: consecutive (a + w) ws

theorem le_of_mem_consecutive {a : Nat} {ws : List Nat} (h : f ∈ consecutive a ws) : a ≤ f.address := by
  induction ws generalizing a with
  | nil => cases h
  | cons w ws ih =>
    rcases List.mem_cons.mp h with rfl | h
    · exact Nat.le_refl a
    · exact Nat.le_trans (Nat.le_add_right a w) (ih h)

theorem le_sum_of_mem_consecutive {a : Nat} {ws : List Nat} (h : f ∈ consecutive a ws) :
    f.address + f.width ≤ a + ws.sum := by
  induction ws generalizing a with
  | nil => cases h
  | cons w ws ih =>
    rw [List.sum_cons]
    rcases List.mem_cons.mp h with rfl | h
    · exact Nat.add_le_add_left (Nat.le_add_right w ws.sum) a
    · rw [← Nat.add_assoc]
      exact ih h

theorem consecutive_apart (a : Nat) (ws : List Nat) :
    (consecutive a ws).Pairwise fun f g => Disjoint f.cells g.cells := by
  induction ws generalizing a with
  | nil => exact List.Pairwise.nil
  | cons w ws ih =>
    refine List.pairwise_cons.mpr ⟨fun g hg => Set.disjoint_left.mpr fun i hi hi' => ?_, ih (a + w)⟩
    have hlt : i < a + w := hi.2
    have hle : g.address ≤ i := hi'.1
    have hfar := le_of_mem_consecutive hg
    omega

end Fields
