import ArrayExpr.Proofs.Sums
import Mathlib.Algebra.BigOperators.Fin
import Mathlib.Data.Matrix.Mul

/-!
Products of matrices of signed integers of 64 bits. A tensor with two axes is read as a matrix of words
(`Tensor.words`), which determines its elements, since every integer of the range is a word of its own. The
matrix of a product is the product of the matrices, and that of a transpose is the transpose, whatever the
lengths of the axes are. What holds of matrices over a ring therefore holds of tensors, though every
element is reduced into the range on the way (`products_transpose_and_associate`).
-/

namespace ArrayExpr

def Tensor.intAt (t : Tensor) (index : List Nat) : Int :=
  match t.element? index with
  | some (.int _ n) => n
  | _ => 0

/-- A tensor of signed integers of 64 bits with two axes of the given lengths. -/
structure Tensor.IsMatrix (t : Tensor) (m n : Nat) : Prop where
  wellFormed : t.WellFormed
  kind : t.kind = .int .int64
  shape : t.shape = [m, n]

def Tensor.words (t : Tensor) (m n : Nat) : Matrix (Fin m) (Fin n) (BitVec 64) :=
  Matrix.of fun i j => word (t.intAt [i, j])

/-- A matrix whose element in every row and column is the sum of the products along a row of one matrix and
a column of another, reduced into the range of 64 bits. -/
structure Tensor.IsProduct (t x y : Tensor) (m p n : Nat) : Prop where
  isMatrix : t.IsMatrix m n
  element : ∀ i < m, ∀ j < n,
    ReducesTo (∑ k ∈ Finset.range p, x.intAt [i, k] * y.intAt [k, j]) (t.intAt [i, j])

/-! ### Indices of two axes -/

namespace Shape

theorem within_pair {m n i j : Nat} (hi : i < m) (hj : j < n) : Within [m, n] [i, j] :=
  .cons hi (.cons hj .nil)

theorem offset_pair {m n i j : Nat} (hi : i < m) (hj : j < n) : offset [m, n] [i, j] = i * n + j := by
  simp [offset, Nat.mod_eq_of_lt hi, Nat.mod_eq_of_lt hj]

theorem exists_of_within_pair {m n : Nat} {index : List Nat} (h : Within [m, n] index) :
    ∃ i < m, ∃ j < n, index = [i, j] := by
  rcases h with _ | ⟨hi, _ | ⟨hj, ⟨⟩⟩⟩
  exact ⟨_, hi, _, hj, rfl⟩

end Shape

/-! ### Matrices of words -/

namespace Tensor

variable {s t x y : Tensor} {m n p q : Nat} {xs ys : List Int}

theorem words_apply (t : Tensor) (i : Fin m) (j : Fin n) :
    t.words m n i j = word (t.intAt [i, j]) := rfl

theorem getElem?_eq_intAt (ht : t.WellFormed) (hxs : t.cells = .ints .int64 xs) {index : List Nat}
    (h : Shape.Within t.shape index) : xs[Shape.offset t.shape index]? = some (t.intAt index) := by
  obtain ⟨r, hr⟩ := h.exists_getElem? (ht.length_ints hxs)
  rw [hr, intAt, element?_of_ints hxs hr]

namespace IsMatrix

theorem getElem?_offset (h : t.IsMatrix m n) (hxs : t.cells = .ints .int64 xs) {i j : Nat}
    (hi : i < m) (hj : j < n) : xs[Shape.offset [m, n] [i, j]]? = some (t.intAt [i, j]) := by
  have hindex : Shape.Within t.shape [i, j] := h.shape ▸ Shape.within_pair hi hj
  have helement := getElem?_eq_intAt h.wellFormed hxs hindex
  rwa [h.shape] at helement

theorem inRange_intAt (h : t.IsMatrix m n) {i j : Nat} (hi : i < m) (hj : j < n) :
    Width.int64.InRange (t.intAt [i, j]) := by
  obtain ⟨xs, hxs⟩ := Cells.exists_ints h.kind
  have hrange := h.wellFormed.inRange
  rw [hxs] at hrange
  exact Cells.inRange_ints.mp hrange _ (List.mem_of_getElem? (h.getElem?_offset hxs hi hj))

/-- A tensor is known by its words. -/
theorem cells_eq_of_words_eq (hs : s.IsMatrix m n) (ht : t.IsMatrix m n)
    (h : s.words m n = t.words m n) : s.cells = t.cells := by
  obtain ⟨xs, hxs⟩ := Cells.exists_ints hs.kind
  obtain ⟨ys, hys⟩ := Cells.exists_ints ht.kind
  have hxlength := hs.wellFormed.length_ints hxs
  have hylength := ht.wellFormed.length_ints hys
  rw [hs.shape] at hxlength
  rw [ht.shape] at hylength
  rw [hxs, hys]
  apply congrArg (Cells.ints .int64)
  apply Shape.eq_of_getElem?_offset_eq hxlength hylength
  intro index hindex
  obtain ⟨i, hi, j, hj, rfl⟩ := Shape.exists_of_within_pair hindex
  -- Both integers are of the range, so they are one word only where they are equal.
  have hword : word (s.intAt [i, j]) = word (t.intAt [i, j]) := congrFun (congrFun h ⟨i, hi⟩) ⟨j, hj⟩
  have hwrap := word_eq_word_iff.mp hword
  rw [Width.wrap_of_inRange (hs.inRange_intAt hi hj), Width.wrap_of_inRange (ht.inRange_intAt hi hj)]
    at hwrap
  rw [hs.getElem?_offset hxs hi hj, ht.getElem?_offset hys hi hj, hwrap]

theorem transpose (h : t.IsMatrix m n) : t.transpose.IsMatrix n m :=
  ⟨h.wellFormed.transpose, (kind_transpose t).trans h.kind, congrArg List.reverse h.shape⟩

theorem words_transpose (h : t.IsMatrix m n) :
    t.transpose.words n m = (t.words m n).transpose := by
  apply Matrix.ext
  intro j i
  have hindex : Shape.Within t.transpose.shape [j, i] :=
    h.transpose.shape ▸ Shape.within_pair j.isLt i.isLt
  have hint : t.transpose.intAt [j, i] = t.intAt [i, j] := by
    rw [intAt, element?_transpose h.wellFormed hindex]
    rfl
  exact congrArg word hint

end IsMatrix

/-! ### Products -/

/-- In a row and a column of the result a row of one matrix meets a column of the other. -/
theorem getElem?_meetings (hx : x.IsMatrix m p) (hy : y.IsMatrix p n) (hxs : x.cells = .ints .int64 xs)
    (hys : y.cells = .ints .int64 ys) {i j : Nat} (hi : i < m) (hj : j < n) :
    (meetings ⟨[], m, p⟩ ⟨[], p, n⟩ [] xs ys)[Shape.offset [m, n] [i, j]]? =
      some ((List.range p).map fun k => (x.intAt [i, k], y.intAt [k, j])) := by
  -- Without leading axes there is one index of them, at which the only product stands.
  rw [Shape.offset_pair hi hj, meetings, Shape.indices, List.flatMap_singleton,
    getElem?_flatMap_of_length (by simp) i hj, List.getElem?_range hi, Option.bind_some,
    List.getElem?_map, List.getElem?_range hj, Option.map_some, ← List.filterMap_eq_map]
  apply congrArg some
  apply List.filterMap_congr
  intro k hk
  have hleft := hx.getElem?_offset hxs hi (List.mem_range.mp hk)
  have hright := hy.getElem?_offset hys (List.mem_range.mp hk) hj
  rw [List.getElem?_toArray, List.getElem?_toArray]
  dsimp only [Shape.project, List.nil_append, List.zipWith]
  rw [hleft, hright]
  rfl

theorem intDot_map (f g : Nat → Int) (p : Nat) :
    intDot .int64 ((List.range p).map fun k => (f k, g k)) =
      Width.int64.wrap (∑ k ∈ Finset.range p, f k * g k) := by
  have hsum : ∑ k ∈ Finset.range p, f k * g k = ((List.range p).map fun k => f k * g k).sum := by
    rw [Finset.sum_eq_multiset_sum, Finset.range_val, ← Multiset.coe_range, Multiset.map_coe,
      Multiset.sum_coe]
  rw [intDot, List.foldr_map, hsum, List.sum_eq_foldr, List.foldr_map]

theorem product_of_ne (hx : x.IsMatrix m p) (hy : y.IsMatrix q n) (h : p ≠ q) :
    x.product y = .error (.innerMismatch q p) := by
  rw [product, hx.shape, hy.shape]
  exact if_pos (by simpa using h)

/-- The product of two matrices that fit has an element for every meeting of a row and a column. -/
theorem product_eq (hx : x.IsMatrix m p) (hy : y.IsMatrix p n) (hxs : x.cells = .ints .int64 xs)
    (hys : y.cells = .ints .int64 ys) :
    x.product y = .ok (.ofCells [m, n]
      (.ints .int64 ((meetings ⟨[], m, p⟩ ⟨[], p, n⟩ [] xs ys).map (intDot .int64)))) := by
  have hleft : x.cells.cast (.int .int64) = .ints .int64 xs := by
    rw [hxs, Cells.cast_ints (hxs ▸ hx.wellFormed.inRange)]
  have hright : y.cells.cast (.int .int64) = .ints .int64 ys := by
    rw [hys, Cells.cast_ints (hys ▸ hy.wellFormed.inRange)]
  rw [product, join_kind_int64 hx.kind hy.kind, hx.shape, hy.shape]
  dsimp only
  rw [hleft, hright]
  exact if_neg (by simp)

theorem exists_product (hx : x.IsMatrix m p) (hy : y.IsMatrix p n) :
    ∃ t, x.product y = .ok t ∧ t.IsProduct x y m p n := by
  obtain ⟨xs, hxs⟩ := Cells.exists_ints hx.kind
  obtain ⟨ys, hys⟩ := Cells.exists_ints hy.kind
  have hproduct := product_eq hx hy hxs hys
  have ht : IsMatrix _ m n := ⟨product_wellFormed hproduct, rfl, rfl⟩
  refine ⟨_, hproduct, ht, ?_⟩
  intro i hi j hj
  have helement := ht.getElem?_offset rfl hi hj
  rw [List.getElem?_map, getElem?_meetings hx hy hxs hys hi hj, Option.map_some, intDot_map] at helement
  rw [← Option.some.inj helement]
  exact Width.reducesTo_wrap _

/-- The words of a product are the product of the words. Reducing an element does not change its word. -/
theorem IsProduct.words_eq (h : t.IsProduct x y m p n) :
    t.words m n = x.words m p * y.words p n := by
  apply Matrix.ext
  intro i j
  calc t.words m n i j
      = word (∑ k ∈ Finset.range p, x.intAt [i, k] * y.intAt [k, j]) :=
        (h.element i i.isLt j j.isLt).word_eq
    _ = ∑ k : Fin p, word (x.intAt [i, k]) * word (y.intAt [k, j]) := by
        simp only [Finset.sum_range, map_sum, map_mul]
    _ = (x.words m p * y.words p n) i j := by
        simp only [Matrix.mul_apply, words_apply]

/-- A transposed product has the elements of the product of the transposes in opposite order. -/
theorem IsProduct.transpose_agrees (hx : x.IsMatrix m p) (hy : y.IsMatrix p n)
    (ht : t.IsProduct x y m p n) (hs : s.IsProduct y.transpose x.transpose n p m) :
    t.transpose.shape = s.shape ∧ t.transpose.cells = s.cells := by
  have htransposed := ht.isMatrix.transpose
  constructor
  · rw [htransposed.shape, hs.isMatrix.shape]
  · apply htransposed.cells_eq_of_words_eq hs.isMatrix
    rw [ht.isMatrix.words_transpose, ht.words_eq, hs.words_eq, hx.words_transpose, hy.words_transpose,
      Matrix.transpose_mul]

/-- A product of three matrices has the same elements whichever two are multiplied first. -/
theorem IsProduct.assoc_agrees {z xy yz left right : Tensor} {l : Nat} (hxy : xy.IsProduct x y m p n)
    (hyz : yz.IsProduct y z p n l) (hleft : left.IsProduct xy z m n l)
    (hright : right.IsProduct x yz m p l) : left.shape = right.shape ∧ left.cells = right.cells := by
  constructor
  · rw [hleft.isMatrix.shape, hright.isMatrix.shape]
  · apply hleft.isMatrix.cells_eq_of_words_eq hright.isMatrix
    rw [hleft.words_eq, hxy.words_eq, hright.words_eq, hyz.words_eq, Matrix.mul_assoc]

end Tensor

/-! ### The capabilities -/

theorem Value.IsInt64.isMatrix {v : Value} {t : Tensor} {m n : Nat} (h : v.IsInt64 t)
    (hshape : t.shape = [m, n]) : t.IsMatrix m n :=
  ⟨h.wellFormed.toTensor h.toTensor, h.kind, hshape⟩

namespace Capability

variable {a b : Value} {x y : Tensor} {m n p q : Nat}

theorem exists_run_matrixMultiply (ha : a.toTensor = .ok x) (hb : b.toTensor = .ok y)
    (hx : x.IsMatrix m p) (hy : y.IsMatrix p n) :
    ∃ t, matrixMultiply.run (.pair a b) = .ok (.tensor t) ∧ t.IsProduct x y m p n := by
  obtain ⟨t, hproduct, ht⟩ := Tensor.exists_product hx hy
  have hresult : Value.ofResult t = .tensor t := by
    apply Value.ofResult_of_shape_ne_nil
    rw [ht.isMatrix.shape]
    exact List.cons_ne_nil m [n]
  refine ⟨t, ?_, ht⟩
  rw [run, onPair_pair ha hb, hproduct, Except.map, hresult]

theorem exists_run_matrixMultiply_iff (ha : a.toTensor = .ok x) (hb : b.toTensor = .ok y)
    (hx : x.IsMatrix m p) (hy : y.IsMatrix q n) :
    (∃ v, matrixMultiply.run (.pair a b) = .ok v) ↔ p = q := by
  constructor
  · rintro ⟨v, hv⟩
    by_contra hne
    rw [run, onPair_pair ha hb, Tensor.product_of_ne hx hy hne] at hv
    cases hv
  · rintro rfl
    obtain ⟨t, ht, -⟩ := exists_run_matrixMultiply ha hb hx hy
    exact ⟨.tensor t, ht⟩

/-- **Products of matrices agree with transposition and associate.** Take two operands that stand for
tensors of signed integers of 64 bits with two axes. They have a product exactly where the rows of the
first are as long as the columns of the second. It has as many rows as the first and as many columns as
the second, and every element is the sum of products along a row and a column, reduced into the range of
64 bits; along an axis without elements that sum is zero. The transpose of the product is the product of
the transposes in opposite order. Multiplied by any third matrix whose columns are as long as its rows, it
gives the product of the first with that of the two others. -/
theorem products_transpose_and_associate (ha : a.IsInt64 x) (hb : b.IsInt64 y)
    (hx : x.shape = [m, p]) (hy : y.shape = [q, n]) :
    ((∃ v, matrixMultiply.run (.pair a b) = .ok v) ↔ p = q) ∧
    (p = q → ∃ t, matrixMultiply.run (.pair a b) = .ok (.tensor t) ∧ t.IsProduct x y m p n ∧
      (∃ a' b' s u, transpose.run a = .ok a' ∧ transpose.run b = .ok b' ∧
        transpose.run (.tensor t) = .ok (.tensor s) ∧
        matrixMultiply.run (.pair b' a') = .ok (.tensor u) ∧ s.shape = u.shape ∧ s.cells = u.cells) ∧
      ∀ (c : Value) (z : Tensor) (l : Nat), c.IsInt64 z → z.shape = [n, l] →
        ∃ bc left right, matrixMultiply.run (.pair b c) = .ok bc ∧
          matrixMultiply.run (.pair (.tensor t) c) = .ok (.tensor left) ∧
          matrixMultiply.run (.pair a bc) = .ok (.tensor right) ∧
          left.shape = right.shape ∧ left.cells = right.cells) := by
  have hx := ha.isMatrix hx
  have hy := hb.isMatrix hy
  have htensor (t : Tensor) : (Value.tensor t).toTensor = .ok t := rfl
  refine ⟨exists_run_matrixMultiply_iff ha.toTensor hb.toTensor hx hy, ?_⟩
  rintro rfl
  obtain ⟨t, hrun, ht⟩ := exists_run_matrixMultiply ha.toTensor hb.toTensor hx hy
  refine ⟨t, hrun, ht, ?_, ?_⟩
  · obtain ⟨u, hu, hproduct⟩ := exists_run_matrixMultiply (htensor _) (htensor _) hy.transpose hx.transpose
    exact ⟨.tensor x.transpose, .tensor y.transpose, t.transpose, u, onOne_of_toTensor ha.toTensor,
      onOne_of_toTensor hb.toTensor, rfl, hu, Tensor.IsProduct.transpose_agrees hx hy ht hproduct⟩
  · intro c z l hc hz
    have hz := hc.isMatrix hz
    obtain ⟨yz, hbc, hyz⟩ := exists_run_matrixMultiply hb.toTensor hc.toTensor hy hz
    obtain ⟨left, hleft, hxyz⟩ := exists_run_matrixMultiply (htensor t) hc.toTensor ht.isMatrix hz
    obtain ⟨right, hright, hxyz'⟩ := exists_run_matrixMultiply ha.toTensor (htensor yz) hx hyz.isMatrix
    exact ⟨.tensor yz, left, right, hbc, hleft, hright, ht.assoc_agrees hyz hxyz hxyz'⟩

/-- A square, a column and a row. The first sum of products leaves the range. -/
theorem products_transpose_and_associate_column :
    let x : Tensor := .ofCells [2, 2] (.ints .int64 [Int.pow 2 62, 2, 3, -1])
    let y : Tensor := .ofCells [2, 1] (.ints .int64 [4, 5])
    let z : Tensor := .ofCells [1, 2] (.ints .int64 [1, -1])
    Value.IsInt64 (.tensor x) x ∧ Value.IsInt64 (.tensor y) y ∧ Value.IsInt64 (.tensor z) z ∧
      ∃ t s u yz left right,
        matrixMultiply.run (.pair (.tensor x) (.tensor y)) = .ok (.tensor t) ∧
        t.IsProduct x y 2 2 1 ∧
        transpose.run (.tensor t) = .ok (.tensor s) ∧
        (∃ a b, transpose.run (.tensor x) = .ok a ∧ transpose.run (.tensor y) = .ok b ∧
          matrixMultiply.run (.pair b a) = .ok (.tensor u)) ∧ s.cells = u.cells ∧
        matrixMultiply.run (.pair (.tensor y) (.tensor z)) = .ok yz ∧
        matrixMultiply.run (.pair (.tensor t) (.tensor z)) = .ok (.tensor left) ∧
        matrixMultiply.run (.pair (.tensor x) yz) = .ok (.tensor right) ∧
        left.cells = right.cells := by
  intro x y z
  have hx : Value.IsInt64 (.tensor x) x :=
    Value.isInt64_tensor ⟨rfl, Cells.inRange_ints.mpr (by decide)⟩ rfl
  have hy : Value.IsInt64 (.tensor y) y :=
    Value.isInt64_tensor ⟨rfl, Cells.inRange_ints.mpr (by decide)⟩ rfl
  have hz : Value.IsInt64 (.tensor z) z :=
    Value.isInt64_tensor ⟨rfl, Cells.inRange_ints.mpr (by decide)⟩ rfl
  obtain ⟨-, hproduct⟩ := products_transpose_and_associate hx hy rfl rfl
  obtain ⟨t, ht, helements, ⟨a, b, s, u, ha, hb, hs, hu, -, hcells⟩, hassociate⟩ := hproduct rfl
  obtain ⟨yz, left, right, hyz, hleft, hright, -, hsame⟩ := hassociate (.tensor z) z 2 hz rfl
  exact ⟨hx, hy, hz, t, s, u, yz, left, right, ht, helements, hs, ⟨a, b, ha, hb, hu⟩, hcells, hyz, hleft,
    hright, hsame⟩

end Capability

end ArrayExpr
