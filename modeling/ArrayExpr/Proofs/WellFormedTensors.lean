import ArrayExpr.Proofs.Run
import ArrayExpr.Proofs.Shapes
import ArrayExpr.Tensor.Reduce

/-!
Well-formed tensors. A tensor has as many elements as its shape counts, and each of them is a number
of its kind. Operations on tensors keep that: they read elements at the indices of the shape that they
give, and reduce every integer that they compute into the range of its width.
-/

namespace ArrayExpr

/-- A number of its kind. All truth values and doubles are. -/
def Scalar.InRange : Scalar → Prop
  | .int w n => w.InRange n
  | .bool _ | .float _ => True

def Cells.InRange (cells : Cells) : Prop :=
  ∀ s ∈ cells.scalars, s.InRange

/-- A tensor with as many elements as its shape counts, all of them numbers of its kind. -/
structure Tensor.WellFormed (t : Tensor) : Prop where
  length : t.cells.length = Shape.count t.shape
  inRange : t.cells.InRange

/-! ### Numbers of a width -/

namespace Width

instance (w : Width) (n : Int) : Decidable (w.InRange n) :=
  match w with
  | .int8 | .int64 | .uint64 => inferInstanceAs (Decidable (_ ∧ _))

theorem inRange_wrap (w : Width) (n : Int) : w.InRange (w.wrap n) := by
  cases w with
  | int8 => exact ⟨Int.le_bmod (by decide), Int.bmod_lt (by decide)⟩
  | int64 => exact ⟨Int.le_bmod (by decide), Int.bmod_lt (by decide)⟩
  | uint64 => exact ⟨Int.emod_nonneg n (by decide), Int.emod_lt_of_pos n (by decide)⟩

theorem inRange_bit (w : Width) (b : Bool) : w.InRange (Cells.bit b) := by
  cases w <;> cases b <;> constructor <;> decide

theorem inRange_zero (w : Width) : w.InRange 0 :=
  w.inRange_bit false

/-- Numbers of the least width are numbers of the signed one. -/
theorem InRange.int64_of_int8 {n : Int} (h : int8.InRange n) : int64.InRange n := by
  have hle : Int.pow 2 7 ≤ Int.pow 2 63 := by decide
  obtain ⟨hlow, hhigh⟩ := h
  exact ⟨Int.le_trans (Int.neg_le_neg hle) hlow, Int.lt_of_lt_of_le hhigh hle⟩

end Width

namespace Operation

theorem inRange_wrappedPower (w : Width) (fuel : Nat) (base : Int) (exponent : Nat) :
    w.InRange (wrappedPower w fuel base exponent) := by
  induction fuel generalizing base exponent with
  | zero => exact w.inRange_wrap 1
  | succ fuel ih =>
      rw [wrappedPower]
      split
      · exact w.inRange_wrap 1
      · split
        · exact w.inRange_wrap _
        · exact ih _ _

theorem inRange_onInts (w : Width) (op : Operation) (a b : Int) : w.InRange (op.onInts w a b) := by
  cases op with
  | add | subtract | multiply => exact w.inRange_wrap _
  | power => exact inRange_wrappedPower w 64 a b.toNat
  | divide => exact w.inRange_zero
  | modulus =>
      rw [onInts]
      split
      · exact w.inRange_zero
      · exact w.inRange_wrap _

end Operation

/-! ### Elements of one kind -/

namespace Cells

@[simp]
theorem inRange_bools (xs : List Bool) : (bools xs).InRange := by
  intro s hs
  obtain ⟨b, -, rfl⟩ := List.mem_map.mp hs
  trivial

@[simp]
theorem inRange_ints {w : Width} {xs : List Int} :
    (ints w xs).InRange ↔ ∀ n ∈ xs, w.InRange n := by
  simp [InRange, scalars, Scalar.InRange]

@[simp]
theorem inRange_floats (xs : List Float) : (floats xs).InRange := by
  intro s hs
  obtain ⟨x, -, rfl⟩ := List.mem_map.mp hs
  trivial

@[simp]
theorem length_bools (xs : List Bool) : (bools xs).length = xs.length := rfl

@[simp]
theorem length_ints (w : Width) (xs : List Int) : (ints w xs).length = xs.length := rfl

@[simp]
theorem length_floats (xs : List Float) : (floats xs).length = xs.length := rfl

@[simp]
theorem length_scalars (cells : Cells) : cells.scalars.length = cells.length := by
  cases cells <;> simp [scalars]

variable (f : {α : Type} → List α → List α) {cells : Cells}

theorem length_move {n : Nat}
    (h : ∀ {α : Type} (xs : List α), xs.length = cells.length → (f xs).length = n) :
    (cells.move f).length = n := by
  cases cells with
  | bools xs | floats xs => exact h xs rfl
  | ints w xs => exact h xs rfl

theorem InRange.move (hcells : cells.InRange)
    (h : ∀ {α : Type} (xs : List α), ∀ x ∈ f xs, x ∈ xs) : (cells.move f).InRange := by
  cases cells with
  | bools xs => exact inRange_bools _
  | floats xs => exact inRange_floats _
  | ints w xs => exact inRange_ints.mpr fun n hn => inRange_ints.mp hcells n (h xs n hn)

@[simp]
theorem length_cast (kind : Kind) (cells : Cells) : (cells.cast kind).length = cells.length := by
  cases kind <;> cases cells <;> simp [cast, toBools, toInts, toFloats]

@[simp]
theorem length_toFloats (cells : Cells) : cells.toFloats.length = cells.length := by
  cases cells <;> simp [toFloats]

end Cells

/-! ### Elementwise operations -/

theorem Signals.eq_of_guard_eq_ok {α : Type} {s : Signals} {operation : String} {result r : α}
    (h : s.guard operation result = .ok r) : r = result := by
  unfold guard at h
  split at h <;> cases h
  rfl

theorem Signalled.length_of_values_eq_ok {operation : String} {results : List Signalled}
    {xs : List Float} (h : values operation results = .ok xs) : xs.length = results.length := by
  rw [Signals.eq_of_guard_eq_ok h, List.length_map]

namespace Operation

/-- An operation on as many elements gives as many numbers of their kind. -/
theorem onCells_wellFormed {op : Operation} {steady : Bool} {xs ys cells : Cells} {n : Nat}
    (hxs : xs.length = n) (hys : ys.length = n) (h : op.onCells steady xs ys = .ok cells) :
    cells.length = n ∧ cells.InRange := by
  unfold onCells at h
  split at h
  · cases h
    constructor
    · simp_all
    · exact Cells.inRange_bools _
  · rename_i w xs _ ys
    split at h <;> cases h
    constructor
    · simp_all
    · refine Cells.inRange_ints.mpr fun r hr => ?_
      rw [← List.map_uncurry_zip_eq_zipWith] at hr
      obtain ⟨pair, -, rfl⟩ := List.mem_map.mp hr
      exact inRange_onInts w op pair.1 pair.2
  · obtain ⟨values, hvalues, h⟩ := exists_of_bind_eq_ok h
    cases h
    constructor
    · have hlength := Signalled.length_of_values_eq_ok hvalues
      simpa [hxs, hys] using hlength
    · exact Cells.inRange_floats _

/-- Elements that are stretched to a shape are as many as it counts. -/
theorem length_stretched {t : Tensor} (h : t.WellFormed) {shape : List Nat}
    (hpos : 0 < Shape.count shape → 0 < Shape.count t.shape) :
    (t.cells.move (Shape.stretch t.shape · shape)).length = Shape.count shape :=
  Cells.length_move (Shape.stretch t.shape · shape) fun _ hxs =>
    Shape.length_stretch (hxs.trans h.length) hpos

theorem apply_wellFormed {op : Operation} {a b t : Tensor} (ha : a.WellFormed) (hb : b.WellFormed)
    (h : op.apply a b = .ok t) : t.WellFormed := by
  obtain ⟨kind, -, h⟩ := exists_of_bind_eq_ok h
  split at h
  · cases h
  · rename_i shape hshape
    obtain ⟨cells, hcells, h⟩ := exists_of_bind_eq_ok h
    cases h
    have hpos : 0 < Shape.count shape → 0 < Shape.count a.shape ∧ 0 < Shape.count b.shape :=
      Shape.pos_of_broadcast?_eq_some hshape
    have hxs := length_stretched ha fun h => (hpos h).1
    have hys := length_stretched hb fun h => (hpos h).2
    obtain ⟨hlength, hinRange⟩ := onCells_wellFormed (by simpa using hxs) (by simpa using hys) hcells
    exact ⟨hlength, hinRange⟩

end Operation

namespace Tensor

variable {a b t : Tensor}

theorem WellFormed.negative (h : a.WellFormed) (ht : a.negative = .ok t) : t.WellFormed := by
  have hlength := h.length
  unfold Tensor.negative at ht
  split at ht <;> cases ht
  · rename_i w xs hcells
    rw [hcells] at hlength
    constructor
    · simpa using hlength
    · refine Cells.inRange_ints.mpr fun n hn => ?_
      obtain ⟨x, -, rfl⟩ := List.mem_map.mp hn
      exact w.inRange_wrap (-x)
  · rename_i xs hcells
    rw [hcells] at hlength
    constructor
    · simpa using hlength
    · exact Cells.inRange_floats _

theorem wellFormed_ofScalar {s : Scalar} (h : s.InRange) : (ofScalar s).WellFormed := by
  cases s with
  | bool b => exact ⟨rfl, Cells.inRange_bools _⟩
  | int w n => exact ⟨rfl, Cells.inRange_ints.mpr (List.forall_mem_singleton.mpr h)⟩
  | float x => exact ⟨rfl, Cells.inRange_floats _⟩

theorem WellFormed.reciprocal (h : a.WellFormed) (ht : a.reciprocal = .ok t) : t.WellFormed := by
  have hone : (ofScalar (.float 1.0)).WellFormed := wellFormed_ofScalar trivial
  exact Operation.apply_wellFormed hone h ht

/-! ### Axes -/

theorem WellFormed.transpose (h : t.WellFormed) : t.transpose.WellFormed := by
  constructor
  · show (t.cells.move (Shape.reverseAxes t.shape)).length = Shape.count t.shape.reverse
    rw [Shape.count_reverse]
    exact Cells.length_move (Shape.reverseAxes t.shape) fun xs hxs =>
      Shape.length_reverseAxes (hxs.trans h.length)
  · exact h.inRange.move (Shape.reverseAxes t.shape) fun xs x hx => Shape.mem_of_mem_gather hx

/-- The rows of a tensor are its elements cut into equal parts. -/
theorem WellFormed.rows (h : t.WellFormed) : ∀ row ∈ t.rows, row.WellFormed := by
  intro row hrow
  unfold Tensor.rows at hrow
  split at hrow
  · cases hrow
  · rename_i n rest hshape
    obtain ⟨i, hi, rfl⟩ := List.mem_map.mp hrow
    have hlength := h.length
    rw [hshape, Shape.count_cons] at hlength
    have hin : i * Shape.count rest + Shape.count rest ≤ n * Shape.count rest := by
      rw [← Nat.succ_mul]
      exact Nat.mul_le_mul_right _ (List.mem_range.mp hi)
    constructor
    · apply Cells.length_move fun xs => (xs.drop (i * Shape.count rest)).take (Shape.count rest)
      intro α xs hxs
      rw [List.length_take, List.length_drop]
      exact Nat.min_eq_left (by omega)
    · apply h.inRange.move fun xs => (xs.drop (i * Shape.count rest)).take (Shape.count rest)
      intro α xs x hx
      exact List.mem_of_mem_drop (List.mem_of_mem_take hx)

theorem WellFormed.toScalar? (h : t.WellFormed) {s : Scalar} (hs : t.toScalar? = some s) :
    s.InRange := by
  unfold Tensor.toScalar? at hs
  split at hs
  · exact h.inRange s (List.mem_of_head? hs)
  · cases hs

/-! ### Products and sums -/

theorem productCells_wellFormed {left right : MatrixShape} {batch : List Nat} {xs ys cells : Cells}
    (h : productCells left right batch xs ys = .ok cells) :
    cells.length = Shape.count batch * left.rows * right.columns ∧ cells.InRange := by
  unfold productCells at h
  split at h
  · cases h
    constructor
    · simp [length_meetings]
    · exact Cells.inRange_bools _
  · rename_i w xs _ ys
    cases h
    constructor
    · simp [length_meetings]
    · refine Cells.inRange_ints.mpr fun n hn => ?_
      obtain ⟨pairs, -, rfl⟩ := List.mem_map.mp hn
      exact w.inRange_wrap _
  · obtain ⟨values, hvalues, h⟩ := exists_of_bind_eq_ok h
    cases h
    constructor
    · have hlength := Signalled.length_of_values_eq_ok hvalues
      simpa [length_meetings] using hlength
    · exact Cells.inRange_floats _

/-- A product is well formed whatever its operands are like. -/
theorem product_wellFormed (h : a.product b = .ok t) : t.WellFormed := by
  unfold product at h
  split at h
  · cases h
  · cases h
  · rename_i left right hleft hright
    split at h
    · cases h
    · split at h
      · cases h
      · rename_i batch hbatch
        obtain ⟨cells, hcells, h⟩ := exists_of_bind_eq_ok h
        cases h
        obtain ⟨hlength, hinRange⟩ := productCells_wellFormed hcells
        constructor
        · -- An axis that was added counts one element and is dropped without loss.
          show cells.length = Shape.count (batch ++ _ ++ _)
          rw [Shape.count_append, Shape.count_append, count_leftMatrix hleft,
            count_rightMatrix hright]
          exact hlength
        · exact hinRange

theorem inRange_of_sum_eq_ok {s : Scalar} (h : t.sum = .ok s) : s.InRange := by
  unfold sum at h
  split at h
  · cases h
    exact Width.int64.inRange_wrap _
  · rename_i w xs _
    cases h
    exact w.total.inRange_wrap _
  · rw [Signals.eq_of_guard_eq_ok h]
    trivial

theorem inRange_of_mean_eq_ok {s : Scalar} (h : t.mean = .ok s) : s.InRange := by
  obtain ⟨total, -, h⟩ := exists_of_bind_eq_ok h
  obtain ⟨quotient, -, h⟩ := exists_of_bind_eq_ok h
  cases h
  trivial

end Tensor

end ArrayExpr
