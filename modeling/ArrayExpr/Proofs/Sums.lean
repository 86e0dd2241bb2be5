import ArrayExpr.Proofs.IntegerArithmetic
import ArrayExpr.Proofs.Transposition
import Mathlib.Algebra.BigOperators.Group.List.Lemmas
import Mathlib.Data.BitVec

/-!
Sums of signed integers of 64 bits. Integers that differ by a multiple of the 64th power of two are one
word of 64 bits, and words form a ring, so a sum can be reduced into the range at any of its steps.
Transposed elements are the same in another order (`Shape.reverseAxes_perm`), and a sum of words is not
concerned with the order. Hence the sum of a tensor is that of its transpose, and the sum of a sum of two
tensors is the sum of their sums (`sum_is_additive_and_order_free`).
-/

namespace ArrayExpr

/-- The mapping of a left and a right operand. -/
def Value.pair (a b : Value) : Value :=
  .dict [(.str "a", a), (.str "b", b)]

/-- The word of 64 bits that an integer is reduced to. -/
def word : Int →+* BitVec 64 :=
  Int.castRingHom (BitVec 64)

/-! ### Words of 64 bits -/

theorem toInt_word (n : Int) : (word n).toInt = Width.int64.wrap n :=
  BitVec.toInt_ofInt n

/-- Integers are one word exactly where they are reduced to one integer. -/
theorem word_eq_word_iff {m n : Int} :
    word m = word n ↔ Width.int64.wrap m = Width.int64.wrap n := by
  rw [← toInt_word, ← toInt_word, BitVec.toInt_inj]

/-- An integer and what it is reduced to are one word. -/
theorem ReducesTo.word_eq {n r : Int} (h : ReducesTo n r) : word r = word n := by
  obtain ⟨-, c, hc⟩ := h
  have hpower : word (Int.pow 2 64) = 0 := by decide
  have hzero : word n - word r = 0 := by
    rw [← map_sub, hc, map_mul, hpower, zero_mul]
  exact (sub_eq_zero.mp hzero).symm

theorem word_wrap (n : Int) : word (Width.int64.wrap n) = word n :=
  (Width.reducesTo_wrap n).word_eq

/-! ### Tensors of integers -/

namespace Operation

variable {x y : Tensor} {xs ys : List Int}

/-- Tensors of one shape are added pair by pair. -/
theorem exists_add_eq (hx : x.WellFormed) (hy : y.WellFormed) (hxs : x.cells = .ints .int64 xs)
    (hys : y.cells = .ints .int64 ys) (hshape : x.shape = y.shape) :
    ∃ order, add.apply x y =
      .ok ⟨x.shape, .ints .int64 (List.zipWith (add.onInts .int64) xs ys), order⟩ := by
  have hop : add ≠ divide := by decide
  have htarget : Shape.broadcast? x.shape y.shape = some x.shape := by
    rw [← hshape, Shape.broadcast?_self]
  obtain ⟨order, happly⟩ := exists_apply_eq hop hx hy hxs hys htarget
  rw [← hshape, Shape.stretch_self (hx.length_ints hxs),
    Shape.stretch_self (hshape ▸ hy.length_ints hys)] at happly
  exact ⟨order, happly⟩

/-- Integers that are added pair by pair, each sum being reduced, sum up to the word of both sums. -/
theorem word_sum_add (h : xs.length = ys.length) :
    word (List.zipWith (add.onInts .int64) xs ys).sum = word (xs.sum + ys.sum) := by
  induction xs generalizing ys with
  | nil =>
      obtain rfl := List.length_eq_zero_iff.mp h.symm
      rfl
  | cons m xs ih =>
      cases ys with
      | nil => cases h
      | cons n ys =>
          have hhead : word (add.onInts .int64 m n) = word (m + n) := word_wrap (m + n)
          rw [List.zipWith_cons_cons, List.sum_cons, List.sum_cons, List.sum_cons, map_add,
            ih (Nat.succ.inj h), hhead, ← map_add, add_add_add_comm]

end Operation

namespace Tensor

variable {t : Tensor} {xs : List Int}

theorem sum_of_ints (hxs : t.cells = .ints .int64 xs) :
    t.sum = .ok (.int .int64 (Width.int64.wrap xs.sum)) := by
  rw [sum, hxs]
  rfl

theorem toInts_cells (ht : t.WellFormed) (hxs : t.cells = .ints .int64 xs) :
    t.cells.toInts .int64 = xs := by
  have hcast : (Cells.ints .int64 xs).cast (.int .int64) = .ints .int64 xs :=
    Cells.cast_ints (hxs ▸ ht.inRange)
  rw [hxs]
  injection hcast

end Tensor

theorem Value.isInt64_tensor {t : Tensor} (ht : t.WellFormed) (hkind : t.kind = .int .int64) :
    (Value.tensor t).IsInt64 t :=
  ⟨wellFormed_tensor.mpr ht, rfl, hkind⟩

/-! ### The capabilities -/

namespace Capability

variable {a b v : Value} {x y t : Tensor} {xs ys : List Int}

theorem onOne_of_toTensor {f : Tensor → Except Fault Value} (hv : v.toTensor = .ok t) :
    onOne f v = f t := by
  rw [onOne, hv]
  rfl

theorem onPair_pair {c : Capability} {f : Tensor → Tensor → Except Fault Tensor}
    (ha : a.toTensor = .ok x) (hb : b.toTensor = .ok y) :
    c.onPair f (.pair a b) = (f x y).map .ofResult :=
  onPair_dict rfl rfl ha hb

theorem run_sum (hv : v.toTensor = .ok t) (hxs : t.cells = .ints .int64 xs) :
    sum.run v = .ok (.scalar (.int .int64 (Width.int64.wrap xs.sum))) := by
  rw [run, onOne_of_toTensor hv, Tensor.sum_of_ints hxs]
  rfl

/-- The sum of a transposed tensor is that of the tensor. -/
theorem run_sum_transpose (hx : x.WellFormed) (hxs : x.cells = .ints .int64 xs) :
    sum.run (.tensor x.transpose) = .ok (.scalar (.int .int64 (Width.int64.wrap xs.sum))) := by
  have hcells : x.transpose.cells = .ints .int64 (Shape.reverseAxes x.shape xs) := by
    rw [Tensor.transpose, hxs]
    rfl
  have hsum : (Shape.reverseAxes x.shape xs).sum = xs.sum :=
    (Shape.reverseAxes_perm (hx.length_ints hxs)).sum_eq
  rw [run_sum rfl hcells, hsum]

/-- The sum of two tensors of one shape sums up to the sum of all elements of both. -/
theorem exists_run_add (ha : a.toTensor = .ok x) (hb : b.toTensor = .ok y) (hx : x.WellFormed)
    (hy : y.WellFormed) (hxs : x.cells = .ints .int64 xs) (hys : y.cells = .ints .int64 ys)
    (hshape : x.shape = y.shape) :
    ∃ t, add.run (.pair a b) = .ok t ∧
      sum.run t = .ok (.scalar (.int .int64 (Width.int64.wrap (xs.sum + ys.sum)))) := by
  obtain ⟨order, hadd⟩ := Operation.exists_add_eq hx hy hxs hys hshape
  have hresult := Value.isResult_ofResult (Operation.apply_wellFormed hx hy hadd)
  obtain ⟨u, hu, -, hcells⟩ := hresult.exists_toTensor
  have hlength : xs.length = ys.length := by
    rw [hx.length_ints hxs, hy.length_ints hys, hshape]
  refine ⟨_, ?_, run_sum hu hcells |>.trans ?_⟩
  · rw [run, onPair_pair ha hb, hadd]
    rfl
  · rw [word_eq_word_iff.mp (Operation.word_sum_add hlength)]

theorem run_add_scalars {m n : Int} (hm : Width.int64.InRange m) (hn : Width.int64.InRange n) :
    add.run (.pair (.scalar (.int .int64 m)) (.scalar (.int .int64 n))) =
      .ok (.scalar (.int .int64 (Width.int64.wrap (m + n)))) := by
  have hleft : (Tensor.ofScalar (.int .int64 m)).WellFormed := Tensor.wellFormed_ofScalar hm
  have hright : (Tensor.ofScalar (.int .int64 n)).WellFormed := Tensor.wellFormed_ofScalar hn
  obtain ⟨order, hadd⟩ := Operation.exists_add_eq hleft hright rfl rfl rfl
  rw [run, onPair_pair rfl rfl]
  exact congrArg (Except.map Value.ofResult) hadd

/-- **The sum of integers is additive and does not depend on their order.** Take two operands that stand
for tensors of signed integers of 64 bits of one shape. Each has a sum, an element that is the sum of all
its integers reduced into the range of 64 bits. The transpose of the first has the same sum. The two can
be added, and what that gives sums up to the same element as adding the two sums gives. -/
theorem sum_is_additive_and_order_free (ha : a.IsInt64 x) (hb : b.IsInt64 y)
    (hshape : x.shape = y.shape) :
    ∃ m n r s t,
      sum.run a = .ok (.scalar (.int .int64 m)) ∧ ReducesTo (x.cells.toInts .int64).sum m ∧
      sum.run b = .ok (.scalar (.int .int64 n)) ∧ ReducesTo (y.cells.toInts .int64).sum n ∧
      transpose.run a = .ok s ∧ sum.run s = .ok (.scalar (.int .int64 m)) ∧
      add.run (.pair a b) = .ok t ∧ sum.run t = .ok (.scalar (.int .int64 r)) ∧
      add.run (.pair (.scalar (.int .int64 m)) (.scalar (.int .int64 n))) =
        .ok (.scalar (.int .int64 r)) ∧ ReducesTo (m + n) r := by
  have hx := ha.wellFormed.toTensor ha.toTensor
  have hy := hb.wellFormed.toTensor hb.toTensor
  obtain ⟨xs, hxs⟩ := Cells.exists_ints ha.kind
  obtain ⟨ys, hys⟩ := Cells.exists_ints hb.kind
  obtain ⟨t, hadd, ht⟩ := exists_run_add ha.toTensor hb.toTensor hx hy hxs hys hshape
  have hsums : Width.int64.wrap (Width.int64.wrap xs.sum + Width.int64.wrap ys.sum) =
      Width.int64.wrap (xs.sum + ys.sum) := by
    apply word_eq_word_iff.mp
    rw [map_add, word_wrap, word_wrap, ← map_add]
  rw [Tensor.toInts_cells hx hxs, Tensor.toInts_cells hy hys]
  refine ⟨_, _, _, .tensor x.transpose, t, run_sum ha.toTensor hxs, Width.reducesTo_wrap _,
    run_sum hb.toTensor hys, Width.reducesTo_wrap _, onOne_of_toTensor ha.toTensor,
    run_sum_transpose hx hxs, hadd, ht, ?_, ?_⟩
  · rw [run_add_scalars (Width.int64.inRange_wrap _) (Width.int64.inRange_wrap _), hsums]
  · rw [← hsums]
    exact Width.reducesTo_wrap _

/-- Two rows whose sums leave the range. -/
theorem sum_is_additive_and_order_free_rows :
    let x : Tensor := .ofCells [1, 2] (.ints .int64 [Int.pow 2 63 - 1, 1])
    let y : Tensor := .ofCells [1, 2] (.ints .int64 [-5, Int.pow 2 63 - 1])
    let row : Value := .list [.list [.int (-5), .int (Int.pow 2 63 - 1)]]
    Value.IsInt64 (.tensor x) x ∧ row.IsInt64 y ∧ x.shape = y.shape ∧
      ∃ m n r s t,
        sum.run (.tensor x) = .ok (.scalar (.int .int64 m)) ∧
        sum.run row = .ok (.scalar (.int .int64 n)) ∧
        transpose.run (.tensor x) = .ok s ∧ sum.run s = .ok (.scalar (.int .int64 m)) ∧
        add.run (.pair (.tensor x) row) = .ok t ∧ sum.run t = .ok (.scalar (.int .int64 r)) ∧
        add.run (.pair (.scalar (.int .int64 m)) (.scalar (.int .int64 n))) =
          .ok (.scalar (.int .int64 r)) ∧ ReducesTo (m + n) r := by
  intro x y row
  have hx : Value.IsInt64 (.tensor x) x :=
    Value.isInt64_tensor ⟨rfl, Cells.inRange_ints.mpr (by decide)⟩ rfl
  have hrow : row.IsInt64 y := by
    refine ⟨Value.wellFormed_list.mpr (List.forall_mem_singleton.mpr ?_), rfl, rfl⟩
    apply Value.wellFormed_list.mpr
    simp only [List.forall_mem_cons]
    exact ⟨Value.wellFormed_of_isBare rfl, Value.wellFormed_of_isBare rfl, List.forall_mem_nil _⟩
  obtain ⟨m, n, r, s, t, hm, -, hn, -, hs, hsum, ht, hr, hadd, hreduces⟩ :=
    sum_is_additive_and_order_free hx hrow rfl
  exact ⟨hx, hrow, rfl, m, n, r, s, t, hm, hn, hs, hsum, ht, hr, hadd, hreduces⟩

end Capability

end ArrayExpr
