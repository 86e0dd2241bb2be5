import ArrayExpr.Proofs.WellFormedTensors
import Mathlib.Data.List.Forall2
import Mathlib.Data.List.Nodup

/-!
Elements by index. An index of a shape has one position for each axis. In row-major order every index
has a place of its own and every place belongs to an index, so a tensor is known by its elements at the
indices of its shape, and what is read at the indices of another shape stands at their places.
-/

namespace ArrayExpr

/-- The indices of a shape: one position below the length of each axis. -/
def Shape.Within (shape index : List Nat) : Prop :=
  List.Forall₂ (· < ·) index shape

/-- The element of a tensor at an index. -/
def Tensor.element? (t : Tensor) (index : List Nat) : Option Scalar :=
  t.cells.scalars[Shape.offset t.shape index]?

/-- In lists of one length that are put together, a place is that of a list and a place in it. -/
theorem getElem?_flatMap_of_length {α β : Type} {f : α → List β} {size : Nat} {xs : List α}
    (h : ∀ x ∈ xs, (f x).length = size) (i : Nat) {k : Nat} (hk : k < size) :
    (xs.flatMap f)[i * size + k]? = xs[i]?.bind fun x => (f x)[k]? := by
  induction xs generalizing i with
  | nil => simp
  | cons x xs ih =>
      obtain ⟨hx, hxs⟩ := List.forall_mem_cons.mp h
      rw [List.flatMap_cons]
      cases i with
      | zero =>
          rw [Nat.zero_mul, Nat.zero_add, List.getElem?_append_left (by omega)]
          rfl
      | succ i =>
          have hplace : (i + 1) * size + k = (f x).length + (i * size + k) := by
            rw [hx, Nat.succ_mul]
            omega
          rw [hplace, List.getElem?_append_right (Nat.le_add_right _ _), Nat.add_sub_cancel_left,
            ih hxs, List.getElem?_cons_succ]

/-- Where every member gives something, the results stand at the places of the members. -/
theorem getElem?_filterMap_of_isSome {α β : Type} {f : α → Option β} {xs : List α}
    (h : ∀ x ∈ xs, (f x).isSome = true) (k : Nat) : (xs.filterMap f)[k]? = xs[k]?.bind f := by
  induction xs generalizing k with
  | nil => rfl
  | cons x xs ih =>
      obtain ⟨hx, hxs⟩ := List.forall_mem_cons.mp h
      obtain ⟨y, hy⟩ := Option.isSome_iff_exists.mp hx
      rw [List.filterMap_cons_some hy]
      cases k with
      | zero => simp [hy]
      | succ k => simpa using ih hxs k

namespace Shape

theorem within_reverse {shape index : List Nat} :
    Within shape.reverse index.reverse ↔ Within shape index :=
  List.forall₂_reverse_iff

/-- Only shapes with elements have indices. -/
theorem Within.count_pos {shape index : List Nat} (h : Within shape index) : 0 < count shape := by
  induction h with
  | nil => exact Nat.one_pos
  | cons hi _ ih => exact Nat.mul_pos (Nat.zero_lt_of_lt hi) ih

/-- The indices of a shape are listed each at its place. -/
theorem Within.getElem?_indices {shape index : List Nat} (h : Within shape index) :
    (indices shape)[offset shape index]? = some index := by
  induction h with
  | nil => rfl
  | @cons i n is rest hi his ih =>
      have hplace : offset rest is < count rest := offset_lt (Within.count_pos his) is
      have hlength : ∀ j ∈ List.range n, ((indices rest).map (j :: ·)).length = count rest := by
        simp
      rw [indices, offset, Nat.mod_eq_of_lt hi, getElem?_flatMap_of_length hlength i hplace,
        List.getElem?_range hi, Option.bind_some, List.getElem?_map, ih, Option.map_some]

theorem mem_indices {shape index : List Nat} : index ∈ indices shape ↔ Within shape index := by
  constructor
  · intro h
    induction shape generalizing index with
    | nil =>
        obtain rfl := List.mem_singleton.mp h
        exact .nil
    | cons n rest ih =>
        obtain ⟨i, hi, h⟩ := List.mem_flatMap.mp h
        obtain ⟨is, his, rfl⟩ := List.mem_map.mp h
        exact .cons (List.mem_range.mp hi) (ih his)
  · intro h
    exact List.mem_of_getElem? h.getElem?_indices

/-- No index of a shape is listed twice. -/
theorem nodup_indices (shape : List Nat) : (indices shape).Nodup := by
  induction shape with
  | nil => exact List.nodup_singleton []
  | cons n rest ih =>
      rw [indices, List.nodup_flatMap]
      constructor
      · intro i _
        exact ih.map List.cons_injective
      · apply List.nodup_range.imp
        intro i j hne index hi hj
        obtain ⟨is, -, rfl⟩ := List.mem_map.mp hi
        obtain ⟨js, -, h⟩ := List.mem_map.mp hj
        exact hne (List.cons.inj h).1.symm

/-- Every place is that of an index. -/
theorem exists_within_offset {shape : List Nat} {k : Nat} (hk : k < count shape) :
    ∃ index, Within shape index ∧ offset shape index = k := by
  induction shape generalizing k with
  | nil => exact ⟨[], .nil, (Nat.lt_one_iff.mp hk).symm⟩
  | cons n rest ih =>
      have hrest : 0 < count rest := Nat.pos_of_mul_pos_left (Nat.zero_lt_of_lt hk)
      obtain ⟨is, his, hoffset⟩ := ih (Nat.mod_lt k hrest)
      have hi : k / count rest < n := Nat.div_lt_of_lt_mul (Nat.mul_comm n _ ▸ hk)
      refine ⟨k / count rest :: is, .cons hi his, ?_⟩
      rw [offset, Nat.mod_eq_of_lt hi, hoffset, Nat.div_add_mod']

section Elements

variable {α : Type} {shape target : List Nat} {xs ys : List α}

/-- There is an element at the place of every index. -/
theorem Within.exists_getElem? {index : List Nat} (h : Within shape index)
    (hxs : xs.length = count shape) : ∃ x, xs[offset shape index]? = some x := by
  have hplace : offset shape index < xs.length := hxs ▸ offset_lt h.count_pos index
  exact ⟨_, List.getElem?_eq_getElem hplace⟩

/-- Elements of one shape that are the same at every index are the same. -/
theorem eq_of_getElem?_offset_eq (hxs : xs.length = count shape) (hys : ys.length = count shape)
    (h : ∀ index, Within shape index → xs[offset shape index]? = ys[offset shape index]?) :
    xs = ys := by
  apply List.ext_getElem?
  intro k
  by_cases hk : k < count shape
  · obtain ⟨index, hindex, rfl⟩ := exists_within_offset hk
    exact h index hindex
  · rw [List.getElem?_eq_none (by omega), List.getElem?_eq_none (by omega)]

/-- What is read at the indices of another shape stands at their places. -/
theorem getElem?_gather (hxs : xs.length = count shape) (hpos : 0 < count target → 0 < count shape)
    (read : List Nat → List Nat) {index : List Nat} (h : Within target index) :
    (gather shape xs target read)[offset target index]? = xs[offset shape (read index)]? := by
  have hsome : ∀ i ∈ indices target, (xs.toArray[offset shape (read i)]?).isSome = true := by
    intro i _
    have hplace := offset_lt (hpos h.count_pos) (read i)
    simpa [hxs] using hplace
  rw [gather, getElem?_filterMap_of_isSome hsome, h.getElem?_indices, Option.bind_some,
    List.getElem?_toArray]

/-- Reading every index of a shape where it stands gives the elements back. -/
theorem gather_self (hxs : xs.length = count shape) {read : List Nat → List Nat}
    (hread : ∀ index, Within shape index → read index = index) : gather shape xs shape read = xs := by
  apply eq_of_getElem?_offset_eq (length_gather hxs id read) hxs
  intro index hindex
  rw [getElem?_gather hxs id read hindex, hread index hindex]

end Elements

end Shape

namespace Cells

variable (f g : {α : Type} → List α → List α) {cells : Cells}

/-- Elements are moved to their places whatever their kind. -/
theorem getElem?_scalars_move {k l : Nat}
    (h : ∀ {α : Type} (xs : List α), xs.length = cells.length → (f xs)[k]? = xs[l]?) :
    (cells.move f).scalars[k]? = cells.scalars[l]? := by
  cases cells with
  | bools xs | floats xs | ints w xs => simp only [move, scalars, List.getElem?_map, h xs rfl]

theorem move_move (h : ∀ {α : Type} (xs : List α), xs.length = cells.length → g (f xs) = xs) :
    (cells.move f).move g = cells := by
  cases cells with
  | bools xs | floats xs | ints w xs => simp only [move, h xs rfl]

@[simp]
theorem kind_move (cells : Cells) : (cells.move f).kind = cells.kind := by
  cases cells <;> rfl

end Cells

/-- There is one of the elements at every index. -/
theorem Tensor.WellFormed.exists_element? {t : Tensor} (h : t.WellFormed) {index : List Nat}
    (hindex : Shape.Within t.shape index) :
    ∃ s, t.element? index = some s ∧ s ∈ t.cells.scalars := by
  have hlength : t.cells.scalars.length = Shape.count t.shape := by
    rw [Cells.length_scalars, h.length]
  obtain ⟨s, hs⟩ := hindex.exists_getElem? hlength
  exact ⟨s, hs, List.mem_of_getElem? hs⟩

end ArrayExpr
