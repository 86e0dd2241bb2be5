import ArrayExpr.Capability.Run
import ArrayExpr.Proofs.Indices

/-!
Transposition. The axes of a transposed tensor stand in opposite order, and the element at an index is
the one at the reversed index; transposing twice gives the elements back in their first order
(`transpose_reverses_axes`). A transposed tensor has the same elements, each as often as before
(`Shape.reverseAxes_perm`).
-/

namespace ArrayExpr

namespace Shape

/-- Reversing indices lists those of the reversed shape as those of the shape, in another order. -/
theorem map_reverse_indices_perm (shape : List Nat) :
    ((indices shape.reverse).map List.reverse).Perm (indices shape) := by
  have hreversed := (nodup_indices shape.reverse).map List.reverse_injective
  apply (List.perm_ext_iff_of_nodup hreversed (nodup_indices shape)).mpr
  intro index
  rw [List.mem_map, mem_indices]
  constructor
  · rintro ⟨i, hi, rfl⟩
    apply within_reverse.mp
    rw [List.reverse_reverse]
    exact mem_indices.mp hi
  · intro hindex
    exact ⟨index.reverse, mem_indices.mpr (within_reverse.mpr hindex), List.reverse_reverse index⟩

variable {α : Type} {shape : List Nat} {xs : List α}

/-- The element at an index of the reversed shape is the one at the reversed index. -/
theorem getElem?_reverseAxes (hxs : xs.length = count shape) {index : List Nat}
    (h : Within shape.reverse index) :
    (reverseAxes shape xs)[offset shape.reverse index]? = xs[offset shape index.reverse]? := by
  have hpos : 0 < count shape.reverse → 0 < count shape := by simp
  exact getElem?_gather hxs hpos List.reverse h

/-- Reversing the axes twice gives the elements back. -/
theorem reverseAxes_reverseAxes (hxs : xs.length = count shape) :
    reverseAxes shape.reverse (reverseAxes shape xs) = xs := by
  have honce : (reverseAxes shape xs).length = count shape.reverse := by
    rw [length_reverseAxes hxs, count_reverse]
  have htwice : (reverseAxes shape.reverse (reverseAxes shape xs)).length = count shape := by
    rw [length_reverseAxes honce, count_reverse]
  apply eq_of_getElem?_offset_eq htwice hxs
  intro index h
  have hreversed : Within shape.reverse index.reverse := within_reverse.mpr h
  calc (reverseAxes shape.reverse (reverseAxes shape xs))[offset shape index]?
      = (reverseAxes shape.reverse (reverseAxes shape xs))[offset shape.reverse.reverse index]? := by
        rw [List.reverse_reverse]
    _ = (reverseAxes shape xs)[offset shape.reverse index.reverse]? :=
        getElem?_reverseAxes honce (by rwa [List.reverse_reverse])
    _ = xs[offset shape index.reverse.reverse]? := getElem?_reverseAxes hxs hreversed
    _ = xs[offset shape index]? := by rw [List.reverse_reverse]

/-- The elements with the axes in opposite order are the same elements. -/
theorem reverseAxes_perm (hxs : xs.length = count shape) : (reverseAxes shape xs).Perm xs := by
  have hread := (map_reverse_indices_perm shape).filterMap fun index =>
    xs.toArray[offset shape index]?
  rw [List.filterMap_map] at hread
  have hself : gather shape xs shape id = xs := gather_self hxs fun _ _ => rfl
  exact hread.trans (.of_eq hself)

end Shape

namespace Tensor

variable {t : Tensor}

theorem element?_transpose (h : t.WellFormed) {index : List Nat}
    (hindex : Shape.Within t.transpose.shape index) :
    t.transpose.element? index = t.element? index.reverse := by
  apply Cells.getElem?_scalars_move (Shape.reverseAxes t.shape)
  intro α xs hxs
  exact Shape.getElem?_reverseAxes (hxs.trans h.length) hindex

theorem kind_transpose (t : Tensor) : t.transpose.kind = t.kind :=
  Cells.kind_move (Shape.reverseAxes t.shape) t.cells

theorem cells_transpose_transpose (h : t.WellFormed) : t.transpose.transpose.cells = t.cells := by
  apply Cells.move_move (Shape.reverseAxes t.shape) (Shape.reverseAxes t.shape.reverse)
  intro α xs hxs
  exact Shape.reverseAxes_reverseAxes (hxs.trans h.length)

end Tensor

namespace Capability

/-- **Transposition reverses the axes and undoes itself.** The lengths of the axes of a transposed tensor
are those of the tensor in opposite order. Its kind is the same, and its element at any of its indices is
the element of the tensor at the reversed index. Transposed again it has the kind, the shape and the
elements that the tensor had, in the same order. -/
theorem transpose_reverses_axes {x : Tensor} (hx : x.WellFormed) :
    ∃ y z lengths,
      transpose.run (.tensor x) = .ok (.tensor y) ∧ transpose.run (.tensor y) = .ok (.tensor z) ∧
      shape.run (.tensor x) = .ok (.list lengths) ∧
      shape.run (.tensor y) = .ok (.list lengths.reverse) ∧
      y.shape = x.shape.reverse ∧ y.kind = x.kind ∧
      (∀ index, Shape.Within y.shape index →
        ∃ s, y.element? index = some s ∧ x.element? index.reverse = some s) ∧
      z.kind = x.kind ∧ z.shape = x.shape ∧ z.cells = x.cells := by
  refine ⟨x.transpose, x.transpose.transpose, x.shape.map fun n : Nat => .int n, rfl, rfl, rfl, ?_,
    rfl, x.kind_transpose, ?_, ?_, List.reverse_reverse _, Tensor.cells_transpose_transpose hx⟩
  · rw [← List.map_reverse]
    rfl
  · intro index hindex
    obtain ⟨s, hs, -⟩ := hx.transpose.exists_element? hindex
    exact ⟨s, hs, by rw [← Tensor.element?_transpose hx hindex, hs]⟩
  · rw [Tensor.kind_transpose, Tensor.kind_transpose]

/-- Three axes, one of which is moved past the two others. -/
theorem transpose_reverses_axes_ranked :
    let x : Tensor := .ofCells [2, 1, 3] (.ints .int64 [1, 2, 3, 4, 5, 6])
    x.WellFormed ∧ ∃ y, transpose.run (.tensor x) = .ok (.tensor y) ∧ y.shape = [3, 1, 2] ∧
      y.element? [2, 0, 1] = x.element? [1, 0, 2] ∧
      ∃ z, transpose.run (.tensor y) = .ok (.tensor z) ∧ z.cells = x.cells := by
  intro x
  have hx : x.WellFormed := ⟨rfl, Cells.inRange_ints.mpr (by decide)⟩
  obtain ⟨y, z, -, hy, hz, -, -, hshape, -, helement, -, -, hcells⟩ := transpose_reverses_axes hx
  have hindex : Shape.Within y.shape [2, 0, 1] := by
    rw [hshape]
    exact .cons (by decide) (.cons (by decide) (.cons (by decide) .nil))
  obtain ⟨s, hs, hs'⟩ := helement _ hindex
  exact ⟨hx, y, hy, hshape, hs.trans hs'.symm, z, hz, hcells⟩

end Capability

end ArrayExpr
