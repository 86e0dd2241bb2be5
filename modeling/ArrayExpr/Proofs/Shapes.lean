import ArrayExpr.Tensor.MatrixProduct

/-!
Counting elements. A shape has as many indices as it counts elements, and every index leads to a place
among them, so whatever reads elements at the indices of another shape finds one for each. The one
exception would be a shape without elements that is read from; shapes that stretch to a shape with
elements have elements themselves.
-/

namespace ArrayExpr

namespace Shape

@[simp]
theorem count_nil : count [] = 1 := rfl

@[simp]
theorem count_cons (n : Nat) (rest : List Nat) : count (n :: rest) = n * count rest := rfl

@[simp]
theorem count_append (a b : List Nat) : count (a ++ b) = count a * count b := by
  induction a with
  | nil => simp
  | cons n rest ih => simp [ih, Nat.mul_assoc]

@[simp]
theorem count_reverse (shape : List Nat) : count shape.reverse = count shape := by
  induction shape with
  | nil => rfl
  | cons n rest ih => simp [ih, Nat.mul_comm]

@[simp]
theorem count_padded (rank : Nat) (shape : List Nat) : count (padded rank shape) = count shape := by
  have hones (k : Nat) : count (List.replicate k 1) = 1 := by
    induction k with
    | zero => rfl
    | succ k ih => simp [List.replicate_succ, ih]
  simp [padded, hones]

theorem length_padded {rank : Nat} {shape : List Nat} (h : shape.length ≤ rank) :
    (padded rank shape).length = rank := by
  simp only [padded, List.length_append, List.length_replicate]
  omega

@[simp]
theorem length_indices (shape : List Nat) : (indices shape).length = count shape := by
  induction shape with
  | nil => rfl
  | cons n rest ih => simp [indices, List.length_flatMap, List.map_const', ih]

/-- Every index leads to a place among the elements, if there are any. -/
theorem offset_lt {shape : List Nat} (h : 0 < count shape) (index : List Nat) :
    offset shape index < count shape := by
  induction shape generalizing index with
  | nil => simp [offset]
  | cons n rest ih =>
      have hn : 0 < n := Nat.pos_of_mul_pos_right h
      have hrest : 0 < count rest := Nat.pos_of_mul_pos_left h
      cases index with
      | nil => exact h
      | cons i is =>
          have hi : i % n + 1 ≤ n := Nat.mod_lt i hn
          calc i % n * count rest + offset rest is
              < i % n * count rest + count rest := Nat.add_lt_add_left (ih hrest is) _
            _ = (i % n + 1) * count rest := (Nat.succ_mul _ _).symm
            _ ≤ n * count rest := Nat.mul_le_mul_right _ hi

/-! ### Reading elements at other indices -/

section Gather

variable {α : Type} {shape target : List Nat} {xs : List α}

theorem length_gather (hxs : xs.length = count shape) (h : 0 < count target → 0 < count shape)
    (read : List Nat → List Nat) : (gather shape xs target read).length = count target := by
  unfold gather
  rw [List.length_filterMap_eq_countP, ← length_indices target, List.countP_eq_length]
  intro index hindex
  have htarget : 0 < count target := by
    rw [← length_indices]
    exact List.length_pos_of_mem hindex
  have hplace := offset_lt (h htarget) (read index)
  simp [hxs, hplace]

theorem mem_of_mem_gather {read : List Nat → List Nat} {x : α}
    (h : x ∈ gather shape xs target read) : x ∈ xs := by
  obtain ⟨index, -, hx⟩ := List.mem_filterMap.mp h
  rw [List.getElem?_toArray] at hx
  exact List.mem_of_getElem? hx

theorem length_reverseAxes (hxs : xs.length = count shape) :
    (reverseAxes shape xs).length = count shape := by
  unfold reverseAxes
  rw [length_gather hxs (by simp), count_reverse]

end Gather

/-! ### Shapes that stretch to a common one -/

theorem pos_of_meet?_eq_some {m n length : Nat} (h : meet? m n = some length) (hpos : 0 < length) :
    0 < m ∧ 0 < n := by
  unfold meet? at h
  grind

theorem pos_of_meetAll?_eq_some {a b target : List Nat} (hlength : a.length = b.length)
    (h : meetAll? a b = some target) (hpos : 0 < count target) : 0 < count a ∧ 0 < count b := by
  induction a generalizing b target with
  | nil =>
      cases b with
      | nil => simp
      | cons n b => cases hlength
  | cons m a ih =>
      cases b with
      | nil => cases hlength
      | cons n b =>
          obtain ⟨length, hmeet, h⟩ := Option.bind_eq_some_iff.mp h
          obtain ⟨rest, hrest, h⟩ := Option.bind_eq_some_iff.mp h
          cases h
          obtain ⟨hm, hn⟩ := pos_of_meet?_eq_some hmeet (Nat.pos_of_mul_pos_right hpos)
          obtain ⟨ha, hb⟩ := ih (Nat.succ.inj hlength) hrest (Nat.pos_of_mul_pos_left hpos)
          exact ⟨Nat.mul_pos hm ha, Nat.mul_pos hn hb⟩

/-- Shapes that are filled up to the greater of their ranks have one rank. -/
theorem length_padded_max (a b : List Nat) :
    (padded (max a.length b.length) a).length = (padded (max a.length b.length) b).length := by
  rw [length_padded (Nat.le_max_left _ _), length_padded (Nat.le_max_right _ _)]

/-- Shapes that stretch to one with elements have elements. -/
theorem pos_of_broadcast?_eq_some {a b target : List Nat} (h : broadcast? a b = some target)
    (hpos : 0 < count target) : 0 < count a ∧ 0 < count b := by
  have hpadded := pos_of_meetAll?_eq_some (length_padded_max a b) h hpos
  rwa [count_padded, count_padded] at hpadded

theorem length_stretch {α : Type} {shape target : List Nat} {xs : List α}
    (hxs : xs.length = count shape) (h : 0 < count target → 0 < count shape) :
    (stretch shape xs target).length = count target :=
  length_gather hxs h _

end Shape

/-! ### Matrix products -/

namespace Tensor

theorem count_leftMatrix {shape : List Nat} {left : MatrixShape} (h : leftMatrix? shape = some left) :
    Shape.count (if shape.length == 1 then [] else [left.rows]) = left.rows := by
  unfold leftMatrix? at h
  rw [← List.length_reverse]
  split at h
  · cases h
  · rename_i n hshape
    cases h
    simp [hshape]
  · rename_i n m batch hshape
    cases h
    simp [hshape]

theorem count_rightMatrix {shape : List Nat} {right : MatrixShape}
    (h : rightMatrix? shape = some right) :
    Shape.count (if shape.length == 1 then [] else [right.columns]) = right.columns := by
  unfold rightMatrix? at h
  rw [← List.length_reverse]
  split at h
  · cases h
  · rename_i n hshape
    cases h
    simp [hshape]
  · rename_i n m batch hshape
    cases h
    simp [hshape]

/-- Rows and columns meet once at every index of the result. -/
theorem length_meetings {α : Type} (a b : MatrixShape) (batch : List Nat) (xs ys : List α) :
    (meetings a b batch xs ys).length = Shape.count batch * a.rows * b.columns := by
  simp [meetings, List.length_flatMap, List.map_const', Nat.mul_assoc]

end Tensor

end ArrayExpr
