import ArrayExpr.Capability.Run
import ArrayExpr.Proofs.Broadcasting
import ArrayExpr.Proofs.NativeData
import Mathlib.Algebra.Ring.Int.Defs

/-!
Arithmetic on tensors of signed integers of 64 bits. Sums, differences, products and powers are exact up
to multiples of the 64th power of two (`integers_wrap_exactly`). The remainder is that of a division that
rounds down, and the one fault is a divisor of zero that is met at some index (`modulus_rounds_down`).
Both are told index by index: the operands are stretched to their common shape, and what stands at an
index of the result depends on the two elements that are read there.
-/

namespace ArrayExpr

/-- A value that stands for a tensor of signed integers of 64 bits: a number, nested lists of numbers, an
element or a tensor. -/
structure Value.IsInt64 (v : Value) (t : Tensor) : Prop where
  wellFormed : v.WellFormed
  toTensor : v.toTensor = .ok t
  kind : t.kind = .int .int64

/-- A tensor of integers has an element of this value. -/
def Tensor.Holds (t : Tensor) (n : Int) : Prop :=
  .int .int64 n ∈ t.cells.scalars

/-- A tensor of integers of the common shape of two others, in which the element at every index is
related to the two elements that are read there. -/
structure Tensor.Combines (t : Tensor) (R : Int → Int → Int → Prop) (x y : Tensor) : Prop where
  shape : Shape.IsBroadcast x.shape y.shape t.shape
  kind : t.kind = .int .int64
  element : ∀ index, Shape.Within t.shape index →
    ∃ i j m n r, Shape.Reads x.shape index i ∧ Shape.Reads y.shape index j ∧
      x.element? i = some (.int .int64 m) ∧ y.element? j = some (.int .int64 n) ∧
      t.element? index = some (.int .int64 r) ∧ R m n r

/-- The right element that is read at some index of the common shape. -/
def Tensor.Meets (x y : Tensor) (n : Int) : Prop :=
  ∃ target index own, Shape.IsBroadcast x.shape y.shape target ∧ Shape.Within target index ∧
    Shape.Reads y.shape index own ∧ y.element? own = some (.int .int64 n)

/-- An integer reduced into the range of 64 bits. -/
def ReducesTo (n r : Int) : Prop :=
  Width.int64.InRange r ∧ Int.pow 2 64 ∣ n - r

/-- The remainder of a division that rounds down. It lies between zero and the divisor. -/
structure FlooredRemainder (m n r : Int) : Prop where
  dvd : n ∣ m - r
  of_pos : 0 < n → 0 ≤ r ∧ r < n
  of_neg : n < 0 → n < r ∧ r ≤ 0

/-! ### Numbers of a width -/

namespace Width

theorem wrap_of_inRange {w : Width} {n : Int} (h : w.InRange n) : w.wrap n = n := by
  cases w with
  | int8 | int64 => exact Int.bmod_eq_of_le h.1 h.2
  | uint64 => exact Int.emod_eq_of_lt h.1 h.2

theorem wrap_mul_wrap (w : Width) (m n : Int) : w.wrap (m * w.wrap n) = w.wrap (m * n) := by
  cases w with
  | int8 | int64 => exact Int.mul_bmod_bmod
  | uint64 =>
      show m * (n % Int.pow 2 64) % Int.pow 2 64 = m * n % Int.pow 2 64
      rw [Int.mul_emod, Int.emod_emod, ← Int.mul_emod]

theorem wrap_pow_wrap (w : Width) (n : Int) (k : Nat) : w.wrap (w.wrap n ^ k) = w.wrap (n ^ k) := by
  induction k with
  | zero => rw [pow_zero, pow_zero]
  | succ k ih =>
      rw [pow_succ, pow_succ, wrap_mul_wrap, Int.mul_comm, ← wrap_mul_wrap, ih, wrap_mul_wrap,
        Int.mul_comm]

theorem reducesTo_wrap (n : Int) : ReducesTo n (int64.wrap n) :=
  ⟨int64.inRange_wrap n, Int.dvd_self_sub_bmod⟩

end Width

namespace Operation

/-- A power by squaring is the power, reduced into the range of the width. -/
theorem wrappedPower_eq (w : Width) {fuel exponent : Nat} (h : exponent < Nat.pow 2 fuel)
    (base : Int) : wrappedPower w fuel base exponent = w.wrap (base ^ exponent) := by
  induction fuel generalizing base exponent with
  | zero =>
      obtain rfl := Nat.lt_one_iff.mp h
      rw [pow_zero, wrappedPower]
  | succ fuel ih =>
      rw [wrappedPower]
      by_cases hzero : exponent = 0
      · rw [if_pos (by simpa using hzero), hzero, pow_zero]
      · have hhalf : exponent / 2 < Nat.pow 2 fuel := by
          have hdouble : Nat.pow 2 (fuel + 1) = Nat.pow 2 fuel * 2 := rfl
          omega
        rw [if_neg (by simpa using hzero)]
        dsimp only
        rw [ih hhalf, Width.wrap_pow_wrap, ← pow_two, ← pow_mul]
        by_cases hodd : exponent % 2 = 1
        · have hexponent : 2 * (exponent / 2) + 1 = exponent := by omega
          rw [if_pos (by simpa using hodd), Width.wrap_mul_wrap, ← pow_succ', hexponent]
        · have hexponent : 2 * (exponent / 2) = exponent := by omega
          rw [if_neg (by simpa using hodd), hexponent]

theorem floored_onInts {m n : Int} (hm : Width.int64.InRange n) (hn : n ≠ 0) :
    FlooredRemainder m n (modulus.onInts .int64 m n) := by
  have hdvd : n ∣ m - m.fmod n := Int.dvd_self_sub_fmod
  have hpos : 0 < n → 0 ≤ m.fmod n ∧ m.fmod n < n := fun h =>
    ⟨Int.fmod_nonneg_of_pos m h, Int.fmod_lt_of_pos m h⟩
  have hneg : n < 0 → n < m.fmod n ∧ m.fmod n ≤ 0 := by
    intro h
    have hopposite : (-m).fmod (-n) = -m.fmod n := Int.neg_fmod_neg m n
    have hlow := Int.fmod_nonneg_of_pos (-m) (Int.neg_pos_of_neg h)
    have hhigh := Int.fmod_lt_of_pos (-m) (Int.neg_pos_of_neg h)
    omega
  have hrange : Width.int64.InRange (m.fmod n) := by
    obtain ⟨hlow, hhigh⟩ := hm
    have hpower : 0 < Int.pow 2 63 := by decide
    rcases Int.lt_or_gt_of_ne hn with h | h
    · exact ⟨by have := hneg h; omega, by have := hneg h; omega⟩
    · exact ⟨by have := hpos h; omega, by have := hpos h; omega⟩
  rw [onInts, if_neg (by simpa using hn), Width.wrap_of_inRange hrange]
  exact ⟨hdvd, hpos, hneg⟩

end Operation

/-! ### Tensors of integers -/

theorem Cells.exists_ints {cells : Cells} {w : Width} (h : cells.kind = .int w) :
    ∃ xs, cells = .ints w xs := by
  cases cells with
  | bools | floats => cases h
  | ints v xs =>
      cases h
      exact ⟨xs, rfl⟩

/-- Integers convert to their own kind as they are. -/
theorem Cells.cast_ints {w : Width} {xs : List Int} (h : (ints w xs).InRange) :
    (ints w xs).cast (.int w) = ints w xs := by
  rw [cast, toInts]
  refine congrArg (ints w) ?_
  conv => rhs; rw [← List.map_id xs]
  exact List.map_congr_left fun n hn => Width.wrap_of_inRange (inRange_ints.mp h n hn)

namespace Tensor

variable {x y t : Tensor} {w : Width} {xs ys : List Int} {R S : Int → Int → Int → Prop}

theorem holds_iff {n : Int} (hxs : x.cells = .ints .int64 xs) : x.Holds n ↔ n ∈ xs := by
  rw [Holds, hxs]
  simp [Cells.scalars]

theorem WellFormed.length_ints (h : x.WellFormed) (hxs : x.cells = .ints w xs) :
    xs.length = Shape.count x.shape := by
  have hlength := h.length
  rwa [hxs] at hlength

theorem element?_of_ints (hxs : x.cells = .ints w xs) {index : List Nat} {n : Int}
    (h : xs[Shape.offset x.shape index]? = some n) : x.element? index = some (.int w n) := by
  rw [element?, hxs, Cells.scalars, List.getElem?_map, h, Option.map_some]

/-- Every right element is read if there is an index at all. -/
theorem meets_iff (hy : y.WellFormed) (hkind : y.kind = .int .int64) {target : List Nat}
    (htarget : Shape.broadcast? x.shape y.shape = some target) {n : Int} :
    x.Meets y n ↔ y.Holds n ∧ 0 < Shape.count target := by
  obtain ⟨hcompatible, hbroadcast⟩ := Shape.broadcast?_eq_some_iff.mp htarget
  constructor
  · rintro ⟨target', index, own, hshape, hindex, -, hn⟩
    have htarget' := Shape.broadcast?_eq_some_iff.mpr ⟨hcompatible, hshape⟩
    rw [htarget, Option.some.injEq] at htarget'
    exact ⟨List.mem_of_getElem? hn, htarget' ▸ hindex.count_pos⟩
  · rintro ⟨hn, hpos⟩
    obtain ⟨ys, hys⟩ := Cells.exists_ints hkind
    obtain ⟨k, hk⟩ := List.mem_iff_getElem?.mp ((holds_iff hys).mp hn)
    have hplace : k < Shape.count y.shape :=
      hy.length_ints hys ▸ (List.getElem?_eq_some_iff.mp hk).1
    obtain ⟨own, hown, rfl⟩ := Shape.exists_within_offset hplace
    obtain ⟨-, hright⟩ := Shape.stretchesTo_of_broadcast? htarget
    obtain ⟨index, hindex, rfl⟩ := hright.exists_project_eq hpos hown
    exact ⟨target, index, _, hbroadcast, hindex, hright.reads_project hindex,
      element?_of_ints hys hk⟩

theorem join_kind_int64 (hx : x.kind = .int .int64) (hy : y.kind = .int .int64) :
    x.kind.join y.kind = .int .int64 := by
  rw [hx, hy]
  rfl

theorem Combines.imp (h : t.Combines R x y) (himp : ∀ m n r, R m n r → S m n r) :
    t.Combines S x y := by
  refine ⟨h.shape, h.kind, fun index hindex => ?_⟩
  obtain ⟨i, j, m, n, r, hi, hj, hm, hn, hr, hrelated⟩ := h.element index hindex
  exact ⟨i, j, m, n, r, hi, hj, hm, hn, hr, himp m n r hrelated⟩

/-- Stretched integers that are put together pair by pair stand at the indices of the common shape. -/
theorem combines_zipWith (hx : x.WellFormed) (hy : y.WellFormed) (hxs : x.cells = .ints .int64 xs)
    (hys : y.cells = .ints .int64 ys) {target : List Nat}
    (htarget : Shape.broadcast? x.shape y.shape = some target) (f : Int → Int → Int)
    (order : List Nat) :
    Combines ⟨target, .ints .int64 (List.zipWith f (Shape.stretch x.shape xs target)
      (Shape.stretch y.shape ys target)), order⟩
        (fun m n r => n ∈ Shape.stretch y.shape ys target ∧ r = f m n) x y := by
  obtain ⟨hleft, hright⟩ := Shape.stretchesTo_of_broadcast? htarget
  refine ⟨(Shape.broadcast?_eq_some_iff.mp htarget).2, rfl, fun index hindex => ?_⟩
  have hxlength := hx.length_ints hxs
  have hylength := hy.length_ints hys
  obtain ⟨m, hm⟩ := (hleft.within_project hindex).exists_getElem? hxlength
  obtain ⟨n, hn⟩ := (hright.within_project hindex).exists_getElem? hylength
  have hm' := (hleft.getElem?_stretch hxlength hindex).trans hm
  have hn' := (hright.getElem?_stretch hylength hindex).trans hn
  refine ⟨_, _, m, n, f m n, hleft.reads_project hindex, hright.reads_project hindex,
    element?_of_ints hxs hm, element?_of_ints hys hn, element?_of_ints rfl ?_,
    List.mem_of_getElem? hn', rfl⟩
  rw [List.getElem?_zipWith, hm', hn']

end Tensor

namespace Operation

variable {op : Operation} {x y : Tensor} {xs ys : List Int} {target : List Nat}

theorem kind_int64 (hop : op ≠ .divide) : op.kind (.int .int64) = .ok (.int .int64) := by
  cases op with
  | divide => exact absurd rfl hop
  | add | subtract | multiply | power | modulus => rfl

/-- An operation on integers is one on pairs of elements of the stretched operands, unless these have a
fault. -/
theorem exists_apply_eq (hop : op ≠ .divide) (hx : x.WellFormed) (hy : y.WellFormed)
    (hxs : x.cells = .ints .int64 xs) (hys : y.cells = .ints .int64 ys)
    (htarget : Shape.broadcast? x.shape y.shape = some target) :
    ∃ order, op.apply x y =
      (op.intFault? (Shape.stretch y.shape ys target)).elim
        (.ok ⟨target, .ints .int64 (List.zipWith (op.onInts .int64)
          (Shape.stretch x.shape xs target) (Shape.stretch y.shape ys target)), order⟩) .error := by
  have hkinds : x.kind.join y.kind = .int .int64 := by
    rw [Tensor.kind, Tensor.kind, hxs, hys]
    rfl
  have hleft : ((Cells.ints .int64 xs).move (Shape.stretch x.shape · target)).InRange :=
    (hxs ▸ hx.inRange).move (Shape.stretch x.shape · target) fun _ _ => Shape.mem_of_mem_gather
  have hright : ((Cells.ints .int64 ys).move (Shape.stretch y.shape · target)).InRange :=
    (hys ▸ hy.inRange).move (Shape.stretch y.shape · target) fun _ _ => Shape.mem_of_mem_gather
  refine ⟨Layout.elementwise target.length [(x.shape, x.order), (y.shape, y.order)], ?_⟩
  rw [apply, hkinds, kind_int64 hop, htarget, hxs, hys]
  dsimp only [bind, Except.bind, Cells.move] at hleft hright ⊢
  rw [Cells.cast_ints hleft, Cells.cast_ints hright, onCells]
  cases op.intFault? (Shape.stretch y.shape ys target) <;> rfl

/-- What an operation on integers does depends on the right elements that are met: those of the operand if
there is an index at all. -/
theorem apply_of_compatible (hop : op ≠ .divide) (hx : x.WellFormed) (hy : y.WellFormed)
    (hxkind : x.kind = .int .int64) (hykind : y.kind = .int .int64)
    (htarget : Shape.broadcast? x.shape y.shape = some target) :
    ∃ met : List Int, (∀ n, n ∈ met ↔ y.Holds n ∧ 0 < Shape.count target) ∧
      (∀ fault, op.intFault? met = some fault → op.apply x y = .error fault) ∧
      (op.intFault? met = none → ∃ t, op.apply x y = .ok t ∧
        t.Combines (fun m n r => n ∈ met ∧ r = op.onInts .int64 m n) x y) := by
  obtain ⟨xs, hxs⟩ := Cells.exists_ints hxkind
  obtain ⟨ys, hys⟩ := Cells.exists_ints hykind
  obtain ⟨order, happly⟩ := exists_apply_eq hop hx hy hxs hys htarget
  obtain ⟨-, hright⟩ := Shape.stretchesTo_of_broadcast? htarget
  refine ⟨Shape.stretch y.shape ys target, fun n => ?_, fun fault hfault => ?_, fun hfault => ?_⟩
  · rw [hright.mem_stretch_iff (hy.length_ints hys), Tensor.holds_iff hys]
  · rw [happly, hfault, Option.elim_some]
  · exact ⟨_, by rw [happly, hfault, Option.elim_none],
      Tensor.combines_zipWith hx hy hxs hys htarget _ order⟩

theorem apply_of_incompatible (hop : op ≠ .divide) (hx : x.kind = .int .int64)
    (hy : y.kind = .int .int64) (h : ¬ Shape.Compatible x.shape y.shape) :
    op.apply x y = .error (.incompatible x.shape y.shape) := by
  rw [apply, Tensor.join_kind_int64 hx hy, kind_int64 hop, Shape.broadcast?_eq_none_iff.mpr h]
  rfl

theorem intFault?_power (ys : List Int) :
    power.intFault? ys = if ∃ n ∈ ys, n < 0 then some .negativePower else none := by
  simp [intFault?]

theorem intFault?_modulus (ys : List Int) :
    modulus.intFault? ys = if 0 ∈ ys then some (.signalled .divideByZero "remainder") else none := by
  simp [intFault?, name]

end Operation

/-! ### The capabilities -/

theorem Value.IsInt64.inRange {v : Value} {t : Tensor} (h : v.IsInt64 t) {n : Int} (hn : t.Holds n) :
    Width.int64.InRange n :=
  (h.wellFormed.toTensor h.toTensor).inRange _ hn

namespace Capability

/-- The capabilities whose results on integers are exact but for their range, each with what it
computes. -/
def exactOnInts : List (Capability × (Int → Int → Int)) :=
  [(.add, fun m n => m + n), (.subtract, fun m n => m - n), (.multiply, fun m n => m * n),
    (.power, fun m n => m ^ n.toNat)]

/-- The operation behind such a capability. Only a power can have a fault of its own. -/
theorem exists_operation {c : Capability} {f : Int → Int → Int} (hc : (c, f) ∈ exactOnInts) :
    ∃ op : Operation, op ≠ .divide ∧ c.run = c.onPair op.apply ∧
      (∀ ys, op.intFault? ys = if c = .power ∧ ∃ n ∈ ys, n < 0 then some .negativePower else none) ∧
      ∀ m n, Width.int64.InRange n → op.onInts .int64 m n = Width.int64.wrap (f m n) := by
  simp only [exactOnInts, List.mem_cons, List.not_mem_nil, or_false, Prod.mk.injEq] at hc
  rcases hc with ⟨rfl, rfl⟩ | ⟨rfl, rfl⟩ | ⟨rfl, rfl⟩ | ⟨rfl, rfl⟩
  · exact ⟨.add, by decide, rfl, fun _ => rfl, fun _ _ _ => rfl⟩
  · exact ⟨.subtract, by decide, rfl, fun _ => rfl, fun _ _ _ => rfl⟩
  · exact ⟨.multiply, by decide, rfl, fun _ => rfl, fun _ _ _ => rfl⟩
  · refine ⟨.power, by decide, rfl, fun ys => ?_, fun m n hn => ?_⟩
    · simp only [Operation.intFault?_power, true_and]
    · have hfuel : n.toNat < Nat.pow 2 64 := by
        have hhigh := hn.2
        have hpower : Int.pow 2 63 = 9223372036854775808 := by decide
        have hbits : Nat.pow 2 64 = 18446744073709551616 := by decide
        omega
      exact Operation.wrappedPower_eq .int64 hfuel m

variable {entries : List (Key × Value)} {a b : Value} {x y : Tensor}

/-- With both operands at hand a capability does what its operation does on their tensors. -/
theorem onPair_dict {c : Capability} {f : Tensor → Tensor → Except Fault Tensor}
    (hleft : Key.lookup? (.str "a") entries = some a) (hright : Key.lookup? (.str "b") entries = some b)
    (ha : a.toTensor = .ok x) (hb : b.toTensor = .ok y) :
    c.onPair f (.dict entries) = (f x y).map .ofResult := by
  rw [onPair, operands, hleft, hright]
  dsimp only [bind, Except.bind]
  rw [ha, hb]
  dsimp only
  cases f x y <;> rfl

section Ints

variable (hleft : Key.lookup? (.str "a") entries = some a)
  (hright : Key.lookup? (.str "b") entries = some b) (ha : a.IsInt64 x) (hb : b.IsInt64 y)
  {c : Capability} {op : Operation} (hop : op ≠ .divide) (hrun : c.run = c.onPair op.apply)
include hleft hright ha hb hop hrun

theorem run_of_incompatible (h : ¬ Shape.Compatible x.shape y.shape) :
    c.run (.dict entries) = .error (.incompatible x.shape y.shape) := by
  rw [hrun, onPair_dict hleft hright ha.toTensor hb.toTensor,
    Operation.apply_of_incompatible hop ha.kind hb.kind h]
  rfl

/-- What a capability does on integers depends on the right elements that are met. -/
theorem run_of_compatible {target : List Nat}
    (htarget : Shape.broadcast? x.shape y.shape = some target) :
    ∃ met : List Int, (∀ n, n ∈ met ↔ y.Holds n ∧ 0 < Shape.count target) ∧
      (∀ fault, op.intFault? met = some fault → c.run (.dict entries) = .error fault) ∧
      (op.intFault? met = none → ∃ v t, c.run (.dict entries) = .ok v ∧ v.IsResult t ∧
        t.Combines (fun m n r => n ∈ met ∧ r = op.onInts .int64 m n) x y) := by
  have hx := ha.wellFormed.toTensor ha.toTensor
  have hy := hb.wellFormed.toTensor hb.toTensor
  obtain ⟨met, hmet, herror, hok⟩ :=
    Operation.apply_of_compatible hop hx hy ha.kind hb.kind htarget
  rw [hrun, onPair_dict hleft hright ha.toTensor hb.toTensor]
  refine ⟨met, hmet, fun fault hfault => ?_, fun hfault => ?_⟩
  · rw [herror fault hfault]
    rfl
  · obtain ⟨t, ht, hcombines⟩ := hok hfault
    have hresult := Value.isResult_ofResult (Operation.apply_wellFormed hx hy ht)
    exact ⟨_, t, by rw [ht]; rfl, hresult, hcombines⟩

end Ints

/-- **Integer arithmetic is exact but for its range.** Take two operands that stand for tensors of signed
integers of 64 bits, in a mapping. Their sum, difference or product is given exactly where the shapes are
compatible, and their power where moreover no exponent is negative, the exponents being those that are
read at the indices of the common shape. What is given has the common shape, and its element at every
index is the exact result for the two elements that are read there, reduced into the range of 64 bits. In
all other cases the fault is a wrong value. -/
theorem integers_wrap_exactly {c : Capability} {f : Int → Int → Int} (hc : (c, f) ∈ exactOnInts)
    (hleft : Key.lookup? (.str "a") entries = some a) (hright : Key.lookup? (.str "b") entries = some b)
    (ha : a.IsInt64 x) (hb : b.IsInt64 y) :
    ((∃ v, c.run (.dict entries) = .ok v) ↔
      Shape.Compatible x.shape y.shape ∧ (c = .power → ∀ n, x.Meets y n → 0 ≤ n)) ∧
    (∀ v, c.run (.dict entries) = .ok v →
      ∃ t, v.IsResult t ∧ t.Combines (fun m n r => ReducesTo (f m n) r) x y) ∧
    (∀ fault, c.run (.dict entries) = .error fault →
      fault = (if Shape.Compatible x.shape y.shape then .negativePower
        else .incompatible x.shape y.shape) ∧ fault.className = "ValueError") := by
  obtain ⟨op, hop, hrun, hfault, hints⟩ := exists_operation hc
  by_cases hcompatible : Shape.Compatible x.shape y.shape
  · obtain ⟨target, htarget⟩ := hcompatible.exists_broadcast?
    obtain ⟨met, hmet, herror, hok⟩ := run_of_compatible hleft hright ha hb hop hrun htarget
    have hmeets (n : Int) : x.Meets y n ↔ n ∈ met :=
      (Tensor.meets_iff (hb.wellFormed.toTensor hb.toTensor) hb.kind htarget).trans (hmet n).symm
    by_cases hnegative : c = .power ∧ ∃ n ∈ met, n < 0
    · obtain ⟨hpower, n, hn, hneg⟩ := hnegative
      have hrefused := herror .negativePower (by rw [hfault, if_pos ⟨hpower, n, hn, hneg⟩])
      rw [hrefused]
      refine ⟨iff_of_false ?_ fun h => ?_, ?_, ?_⟩
      · rintro ⟨v, ⟨⟩⟩
      · exact absurd (h.2 hpower n ((hmeets n).mpr hn)) (Int.not_le.mpr hneg)
      · rintro v ⟨⟩
      · rintro fault ⟨⟩
        exact ⟨(if_pos hcompatible).symm, rfl⟩
    · obtain ⟨v, t, hv, hresult, hcombines⟩ := hok (by rw [hfault, if_neg hnegative])
      rw [hv]
      refine ⟨iff_of_true ⟨v, rfl⟩ ⟨hcompatible, fun hpower n hn => ?_⟩, ?_, ?_⟩
      · exact Int.not_lt.mp fun hneg => hnegative ⟨hpower, n, (hmeets n).mp hn, hneg⟩
      · rintro _ ⟨⟩
        refine ⟨t, hresult, hcombines.imp ?_⟩
        rintro m n _ ⟨hn, rfl⟩
        rw [hints m n (hb.inRange ((hmet n).mp hn).1)]
        exact Width.reducesTo_wrap (f m n)
      · rintro fault ⟨⟩
  · rw [run_of_incompatible hleft hright ha hb hop hrun hcompatible]
    refine ⟨iff_of_false ?_ fun h => hcompatible h.1, ?_, ?_⟩
    · rintro ⟨v, ⟨⟩⟩
    · rintro v ⟨⟩
    · rintro fault ⟨⟩
      exact ⟨(if_neg hcompatible).symm, rfl⟩

/-- Powers of a column by a row. The 63rd power of minus two is the least integer of the range, and that of
three is reduced into it. -/
theorem integers_wrap_exactly_power :
    let x : Tensor := .ofCells [2, 1] (.ints .int64 [3, -2])
    let y : Tensor := .ofCells [2] (.ints .int64 [0, 63])
    let row : Value := .list [.int 0, .int 63]
    let entries : List (Key × Value) := [(.str "a", .tensor x), (.str "b", row)]
    Value.IsInt64 (.tensor x) x ∧ row.IsInt64 y ∧
      ∃ v t, power.run (.dict entries) = .ok v ∧ v.IsResult t ∧
        t.Combines (fun m n r => ReducesTo (m ^ n.toNat) r) x y := by
  intro x y row entries
  have hx : Value.IsInt64 (.tensor x) x :=
    ⟨Value.wellFormed_tensor.mpr ⟨rfl, Cells.inRange_ints.mpr (by decide)⟩, rfl, rfl⟩
  have hrow : row.IsInt64 y := by
    refine ⟨Value.wellFormed_list.mpr ?_, rfl, rfl⟩
    simp only [List.forall_mem_cons]
    exact ⟨Value.wellFormed_of_isBare rfl, Value.wellFormed_of_isBare rfl, List.forall_mem_nil _⟩
  have hcompatible : Shape.Compatible x.shape y.shape := by decide
  have hexponents : ∀ n, x.Meets y n → 0 ≤ n := by
    intro n hmeets
    have htarget : Shape.broadcast? x.shape y.shape = some [2, 2] := rfl
    obtain ⟨hholds, -⟩ :=
      (Tensor.meets_iff (hrow.wellFormed.toTensor hrow.toTensor) hrow.kind htarget).mp hmeets
    rw [Tensor.holds_iff rfl] at hholds
    simp only [List.mem_cons, List.not_mem_nil, or_false] at hholds
    omega
  have hc : (power, fun m n : Int => m ^ n.toNat) ∈ exactOnInts := by simp [exactOnInts]
  have hleft : Key.lookup? (.str "a") entries = some (.tensor x) := rfl
  have hright : Key.lookup? (.str "b") entries = some row := rfl
  obtain ⟨hreturns, hresult, -⟩ := integers_wrap_exactly hc hleft hright hx hrow
  obtain ⟨v, hv⟩ := hreturns.mpr ⟨hcompatible, fun _ => hexponents⟩
  obtain ⟨t, ht, hcombines⟩ := hresult v hv
  exact ⟨hx, hrow, v, t, hv, ht, hcombines⟩

/-- Integers that arithmetic does not treat so. A number within 65 lists is nested evenly, but there is no
tensor of so many axes. And a negative exponent that no element is raised to is no fault. -/
theorem integers_out_of_reach :
    let deep : Json := .nested 65
    let empty : Tensor := .ofCells [0] (.ints .int64 [])
    let y : Tensor := .ofCells [1] (.ints .int64 [-1])
    (deep.Rectangular (List.replicate 65 1) ∧ deep.leaves = [.int 1] ∧
      Shape.Compatible (List.replicate 65 1) [] ∧
      add.run (.dict [(.str "a", .ofJson deep), (.str "b", .int 1)]) = .error .tooManyAxes) ∧
    (Value.IsInt64 (.tensor empty) empty ∧ Value.IsInt64 (.tensor y) y ∧ y.Holds (-1) ∧
      power.run (.dict [(.str "a", .tensor empty), (.str "b", .tensor y)]) = .ok (.tensor empty)) := by
  intro deep empty y
  obtain ⟨hshape, hleaves⟩ := Json.rectangular_nested 65
  have hdeep : (Value.ofJson deep).toTensor = .error .tooManyAxes := hshape.toTensor_of_lt (by decide)
  have hempty : Value.IsInt64 (.tensor empty) empty :=
    ⟨Value.wellFormed_tensor.mpr ⟨rfl, Cells.inRange_ints.mpr (List.forall_mem_nil _)⟩, rfl, rfl⟩
  have hy : Value.IsInt64 (.tensor y) y :=
    ⟨Value.wellFormed_tensor.mpr ⟨rfl, Cells.inRange_ints.mpr (by decide)⟩, rfl, rfl⟩
  have hholds : y.Holds (-1) := (Tensor.holds_iff rfl).mpr (List.mem_singleton.mpr rfl)
  refine ⟨⟨hshape, hleaves, by decide, ?_⟩, hempty, hy, hholds, rfl⟩
  have hoperands : add.operands (.dict [(.str "a", .ofJson deep), (.str "b", .int 1)]) =
      .ok (.ofJson deep, .int 1) := rfl
  rw [run, onPair, hoperands]
  dsimp only [bind, Except.bind]
  rw [hdeep]

/-- **The remainder of integers rounds down.** Take two operands that stand for tensors of signed integers
of 64 bits of compatible shapes, in a mapping. Their remainder is a floating-point fault exactly where the
divisors hold a zero and the common shape has an index. In all other cases it has the common shape, and at
every index it differs from the dividend by a multiple of the divisor and lies between zero and the
divisor. -/
theorem modulus_rounds_down (hleft : Key.lookup? (.str "a") entries = some a)
    (hright : Key.lookup? (.str "b") entries = some b) (ha : a.IsInt64 x) (hb : b.IsInt64 y)
    (hcompatible : Shape.Compatible x.shape y.shape) :
    ∃ target, Shape.IsBroadcast x.shape y.shape target ∧
      ((∃ fault, modulus.run (.dict entries) = .error fault ∧
          fault.className = "FloatingPointError") ↔ y.Holds 0 ∧ 0 < Shape.count target) ∧
      (y.Holds 0 ∧ 0 < Shape.count target →
        modulus.run (.dict entries) = .error (.signalled .divideByZero "remainder")) ∧
      (¬ (y.Holds 0 ∧ 0 < Shape.count target) →
        ∃ v t, modulus.run (.dict entries) = .ok v ∧ v.IsResult t ∧
          t.Combines FlooredRemainder x y) := by
  obtain ⟨target, htarget⟩ := hcompatible.exists_broadcast?
  have hmodulus : modulus.run = modulus.onPair Operation.modulus.apply := rfl
  obtain ⟨met, hmet, herror, hok⟩ := run_of_compatible hleft hright ha hb (by decide) hmodulus htarget
  refine ⟨target, (Shape.broadcast?_eq_some_iff.mp htarget).2, ?_⟩
  rw [← hmet 0]
  by_cases hzero : 0 ∈ met
  · have hfault := herror _ ((Operation.intFault?_modulus met).trans (if_pos hzero))
    exact ⟨iff_of_true ⟨_, hfault, rfl⟩ hzero, fun _ => hfault, fun h => absurd hzero h⟩
  · obtain ⟨v, t, hv, hresult, hcombines⟩ :=
      hok ((Operation.intFault?_modulus met).trans (if_neg hzero))
    refine ⟨iff_of_false ?_ hzero, fun h => absurd h hzero, fun _ => ⟨v, t, hv, hresult,
      hcombines.imp ?_⟩⟩
    · rintro ⟨fault, hfault, -⟩
      rw [hfault] at hv
      cases hv
    · rintro m n _ ⟨hn, rfl⟩
      exact Operation.floored_onInts (hb.inRange ((hmet n).mp hn).1) (ne_of_mem_of_not_mem hn hzero)

/-- The least integer divided by minus one and by ten. -/
theorem modulus_rounds_down_least :
    let x : Tensor := .ofCells [] (.ints .int64 [-Int.pow 2 63])
    let y : Tensor := .ofCells [2] (.ints .int64 [-1, 10])
    let least : Value := .int (-Int.pow 2 63)
    let divisors : Value := .list [.int (-1), .int 10]
    let entries : List (Key × Value) := [(.str "a", least), (.str "b", divisors)]
    least.IsInt64 x ∧ divisors.IsInt64 y ∧ Shape.Compatible x.shape y.shape ∧ ¬ y.Holds 0 ∧
      ∃ v t, modulus.run (.dict entries) = .ok v ∧ v.IsResult t ∧
        t.Combines FlooredRemainder x y := by
  intro x y least divisors entries
  have hleast : least.IsInt64 x := ⟨Value.wellFormed_of_isBare rfl, rfl, rfl⟩
  have hdivisors : divisors.IsInt64 y := by
    refine ⟨Value.wellFormed_list.mpr ?_, rfl, rfl⟩
    simp only [List.forall_mem_cons]
    exact ⟨Value.wellFormed_of_isBare rfl, Value.wellFormed_of_isBare rfl, List.forall_mem_nil _⟩
  have hcompatible : Shape.Compatible x.shape y.shape := by decide
  have hzero : ¬ y.Holds 0 := by
    rw [Tensor.holds_iff rfl]
    decide
  have hleft : Key.lookup? (.str "a") entries = some least := rfl
  have hright : Key.lookup? (.str "b") entries = some divisors := rfl
  obtain ⟨target, -, -, -, hok⟩ := modulus_rounds_down hleft hright hleast hdivisors hcompatible
  exact ⟨hleast, hdivisors, hcompatible, hzero, hok fun h => hzero h.1⟩

end Capability

end ArrayExpr
