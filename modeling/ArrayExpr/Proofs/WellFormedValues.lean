import ArrayExpr.Proofs.Data
import ArrayExpr.Proofs.WellFormedTensors

/-!
Well-formed values, in which every tensor and every element is well formed, at whatever depth. The
tensor that such a value stands for is well formed. Where nested lists agree on a shape there are as
many leaves as it counts, and every leaf is a number of the kind that all leaves have in common: that
kind is the join of the kinds of the leaves, and conversion to a join loses no integer.
-/

namespace ArrayExpr

/-- The values that are met in a value, at some depth of its lists, mappings and compositions. Keys
are met as well. -/
inductive Value.Contains : Value → Value → Prop where
  | self (v : Value) : Contains v v
  | item {items : List Value} {u w : Value} :
      u ∈ items → Contains u w → Contains (.list items) w
  | key {entries : List (Key × Value)} {e : Key × Value} {w : Value} :
      e ∈ entries → Contains e.1.toValue w → Contains (.dict entries) w
  | entry {entries : List (Key × Value)} {e : Key × Value} {w : Value} :
      e ∈ entries → Contains e.2 w → Contains (.dict entries) w
  | stage {names : List String} {functions : List Value} {f w : Value} :
      f ∈ functions → Contains f w → Contains (.composition names functions) w

/-- A value in which all tensors and all elements are well formed. -/
structure Value.WellFormed (v : Value) : Prop where
  tensor {t : Tensor} : v.Contains (.tensor t) → t.WellFormed
  scalar {s : Scalar} : v.Contains (.scalar s) → s.InRange

def Value.isBare : Value → Bool
  | .tensor _ | .scalar _ | .list _ | .dict _ | .composition .. => false
  | _ => true

namespace Value

theorem wellFormed_of_isBare {v : Value} (h : v.isBare = true) : v.WellFormed := by
  constructor
  · intro t ht
    cases ht <;> cases h
  · intro s hs
    cases hs <;> cases h

theorem wellFormed_tensor {t : Tensor} : (Value.tensor t).WellFormed ↔ t.WellFormed := by
  constructor
  · intro h
    exact h.tensor (.self _)
  · intro h
    constructor
    · rintro _ ⟨⟩
      exact h
    · rintro _ ⟨⟩

theorem wellFormed_scalar {s : Scalar} : (Value.scalar s).WellFormed ↔ s.InRange := by
  constructor
  · intro h
    exact h.scalar (.self _)
  · intro h
    constructor
    · rintro _ ⟨⟩
    · rintro _ ⟨⟩
      exact h

theorem wellFormed_list {items : List Value} :
    (Value.list items).WellFormed ↔ ∀ v ∈ items, v.WellFormed := by
  constructor
  · intro h v hv
    exact ⟨fun ht => h.tensor (.item hv ht), fun hs => h.scalar (.item hv hs)⟩
  · intro h
    constructor
    · rintro t (_ | ⟨hv, ht⟩)
      exact (h _ hv).tensor ht
    · rintro s (_ | ⟨hv, hs⟩)
      exact (h _ hv).scalar hs

theorem wellFormed_composition {names : List String} {functions : List Value} :
    (Value.composition names functions).WellFormed ↔ ∀ f ∈ functions, f.WellFormed := by
  constructor
  · intro h f hf
    exact ⟨fun ht => h.tensor (.stage hf ht), fun hs => h.scalar (.stage hf hs)⟩
  · intro h
    constructor
    · rintro t (_ | _ | _ | _ | ⟨hf, ht⟩)
      exact (h _ hf).tensor ht
    · rintro s (_ | _ | _ | _ | ⟨hf, hs⟩)
      exact (h _ hf).scalar hs

theorem wellFormed_dict {entries : List (Key × Value)} :
    (Value.dict entries).WellFormed ↔ ∀ e ∈ entries, e.1.toValue.WellFormed ∧ e.2.WellFormed := by
  constructor
  · intro h e he
    constructor
    · exact ⟨fun ht => h.tensor (.key he ht), fun hs => h.scalar (.key he hs)⟩
    · exact ⟨fun ht => h.tensor (.entry he ht), fun hs => h.scalar (.entry he hs)⟩
  · intro h
    constructor
    · rintro t (_ | _ | ⟨he, ht⟩ | ⟨he, ht⟩)
      · exact (h _ he).1.tensor ht
      · exact (h _ he).2.tensor ht
    · rintro s (_ | _ | ⟨he, hs⟩ | ⟨he, hs⟩)
      · exact (h _ he).1.scalar hs
      · exact (h _ he).2.scalar hs

theorem Literal.wellFormed {v : Value} (h : v.Literal) : v.WellFormed := by
  induction h with
  | list _ ih => exact wellFormed_list.mpr ih
  | dict hkeys _ ih =>
      refine wellFormed_dict.mpr fun e he => ?_
      obtain ⟨s, hs⟩ := hkeys e he
      rw [hs]
      exact ⟨wellFormed_of_isBare rfl, ih e he⟩
  | _ => exact wellFormed_of_isBare rfl

theorem wellFormed_ofResult {t : Tensor} (h : t.WellFormed) : (ofResult t).WellFormed := by
  unfold ofResult
  split
  · rename_i s hs
    exact wellFormed_scalar.mpr (h.toScalar? hs)
  · exact wellFormed_tensor.mpr h

theorem ofResult_of_shape_ne_nil {t : Tensor} (h : t.shape ≠ []) : ofResult t = .tensor t := by
  have hscalar : t.toScalar? = Option.none := by
    rw [Tensor.toScalar?, if_neg]
    simpa using h
  rw [ofResult, hscalar]

/-- A tensor as it is handed out: without axes it is the one element that it has. -/
inductive IsResult : Value → Tensor → Prop where
  | element {t : Tensor} {s : Scalar} :
      t.shape = [] → t.cells.scalars = [s] → IsResult (.scalar s) t
  | tensor {t : Tensor} : t.shape ≠ [] → IsResult (.tensor t) t

theorem isResult_ofResult {t : Tensor} (h : t.WellFormed) : (ofResult t).IsResult t := by
  by_cases hshape : t.shape = []
  · have hlength : t.cells.scalars.length = 1 := by
      rw [Cells.length_scalars, h.length, hshape]
      rfl
    obtain ⟨s, hs⟩ := List.length_eq_one_iff.mp hlength
    have hscalar : t.toScalar? = some s := by
      rw [Tensor.toScalar?, hshape, hs]
      rfl
    rw [ofResult, hscalar]
    exact .element hshape hs
  · rw [ofResult_of_shape_ne_nil hshape]
    exact .tensor hshape

/-- What is handed out stands for a tensor with the same elements. -/
theorem IsResult.exists_toTensor {v : Value} {t : Tensor} (h : v.IsResult t) :
    ∃ u, v.toTensor = .ok u ∧ u.shape = t.shape ∧ u.cells = t.cells := by
  cases h with
  | element hshape hs =>
      refine ⟨_, rfl, hshape.symm, ?_⟩
      cases hcells : t.cells with
      | bools xs | ints w xs | floats xs =>
          rw [hcells, Cells.scalars] at hs
          obtain ⟨x, rfl, rfl⟩ := List.map_eq_singleton_iff.mp hs
          rfl
  | tensor => exact ⟨t, rfl, rfl, rfl⟩

/-- Whatever a well-formed value is a sequence of is well formed. -/
theorem WellFormed.members {v : Value} {vs : List Value} (h : v.WellFormed)
    (hmembers : v.members? = some vs) : ∀ w ∈ vs, w.WellFormed := by
  unfold members? at hmembers
  split at hmembers
  · cases hmembers
    exact wellFormed_list.mp h
  · cases hmembers
    intro w hw
    obtain ⟨c, -, rfl⟩ := List.mem_map.mp hw
    exact wellFormed_of_isBare rfl
  · cases hmembers
    intro w hw
    obtain ⟨e, he, rfl⟩ := List.mem_map.mp hw
    exact (wellFormed_dict.mp h e he).1
  · split at hmembers
    · cases hmembers
    · cases hmembers
      intro w hw
      obtain ⟨row, hrow, rfl⟩ := List.mem_map.mp hw
      exact wellFormed_ofResult ((wellFormed_tensor.mp h).rows row hrow)
  · cases hmembers

mutual

theorem WellFormed.marked (mark : Nat) (v : Value) (h : v.WellFormed) :
    (v.marked mark).1.WellFormed := by
  cases v with
  | float x =>
      rw [Value.marked]
      split
      · exact wellFormed_of_isBare rfl
      · exact h
  | list items =>
      rw [Value.marked]
      exact wellFormed_list.mpr (WellFormed.markedItems mark items (wellFormed_list.mp h))
  | _ => simpa only [Value.marked] using h

theorem WellFormed.markedItems (mark : Nat) (items : List Value) (h : ∀ v ∈ items, v.WellFormed) :
    ∀ v ∈ (Value.markedItems mark items).1, v.WellFormed := by
  cases items with
  | nil => exact nofun
  | cons v vs =>
      rw [Value.markedItems]
      obtain ⟨hv, hvs⟩ := List.forall_mem_cons.mp h
      exact List.forall_mem_cons.mpr ⟨WellFormed.marked mark v hv, WellFormed.markedItems _ vs hvs⟩

end

end Value

/-! ### Kinds and their joins -/

namespace Kind

theorem join_self (a : Kind) : a.join a = a := by
  rcases a with _ | (_ | _ | _) | _ <;> rfl

theorem join_comm (a b : Kind) : a.join b = b.join a := by
  rcases a with _ | (_ | _ | _) | _ <;> rcases b with _ | (_ | _ | _) | _ <;> rfl

theorem join_assoc (a b c : Kind) : (a.join b).join c = a.join (b.join c) := by
  rcases a with _ | (_ | _ | _) | _ <;> rcases b with _ | (_ | _ | _) | _ <;>
    rcases c with _ | (_ | _ | _) | _ <;> rfl

end Kind

/-- An element that is a number of its kind, which converts to another kind. -/
structure Scalar.FitsIn (s : Scalar) (kind : Kind) : Prop where
  inRange : s.InRange
  join : s.kind.join kind = kind

namespace Scalar.FitsIn

variable {s : Scalar} {kind : Kind}

theorem self (h : s.InRange) : s.FitsIn s.kind :=
  ⟨h, Kind.join_self _⟩

theorem join_right (h : s.FitsIn kind) (other : Kind) : s.FitsIn (kind.join other) :=
  ⟨h.inRange, by rw [← Kind.join_assoc, h.join]⟩

theorem join_left (h : s.FitsIn kind) (other : Kind) : s.FitsIn (other.join kind) :=
  Kind.join_comm kind other ▸ h.join_right other

/-- Conversion to an integer kind loses nothing. -/
theorem leafInt {w : Width} (h : s.FitsIn (.int w)) : w.InRange (Value.leafInt s) := by
  obtain ⟨hrange, hjoin⟩ := h
  cases s with
  | bool b => exact w.inRange_bit b
  | float x => cases hjoin
  | int v n =>
      by_cases heq : v = w
      · exact heq ▸ hrange
      · -- The one other conversion is that of the least width to the signed one.
        cases v <;> cases w <;> simp [kind, Kind.join] at hjoin heq
        exact hrange.int64_of_int8

end Scalar.FitsIn

theorem Cells.kind_of_mem_scalars {cells : Cells} {s : Scalar} (h : s ∈ cells.scalars) :
    s.kind = cells.kind := by
  cases cells <;> obtain ⟨x, -, rfl⟩ := List.mem_map.mp h <;> rfl

/-! ### The tensor that a value stands for -/

/-- The items of a list agree on a shape if the list has one. -/
theorem Extent.exists_of_regular {n : Nat} {extents : List Extent}
    (h : (ofItems n extents).regular = true) :
    ∃ shape, (ofItems n extents).shape = n :: shape ∧
      ∀ e ∈ extents, e.regular = true ∧ e.shape = shape := by
  cases extents with
  | nil => exact ⟨[], rfl, nofun⟩
  | cons first rest =>
      refine ⟨_, rfl, fun e he => ?_⟩
      have hagrees := List.all_eq_true.mp h e he
      simpa using hagrees

namespace Value

theorem leavesOf?_cons_eq_some {v : Value} {vs : List Value} {r : Option Kind × List Scalar}
    (h : leavesOf? (v :: vs) = some r) :
    ∃ k xs l ys, leaves? v = some (k, xs) ∧ leavesOf? vs = some (l, ys) ∧
      r = (joinKinds k l, xs ++ ys) := by
  obtain ⟨⟨k, xs⟩, hfirst, h⟩ := Option.bind_eq_some_iff.mp h
  obtain ⟨⟨l, ys⟩, hrest, h⟩ := Option.bind_eq_some_iff.mp h
  exact ⟨k, xs, l, ys, hfirst, hrest, (Option.some.inj h).symm⟩

mutual

/-- A value that has a shape has as many leaves as it counts. -/
theorem length_of_leaves? {axes : Nat} (v : Value) {k : Option Kind} {xs : List Scalar}
    (hv : v.WellFormed) (hregular : (v.extent axes).regular = true)
    (h : v.leaves? = some (k, xs)) : xs.length = Shape.count (v.extent axes).shape := by
  cases v with
  | list items =>
      rw [leaves?] at h
      cases axes with
      | zero => simp [extent] at hregular
      | succ axes =>
          rw [extent] at hregular ⊢
          obtain ⟨shape, hshape, hagree⟩ := Extent.exists_of_regular hregular
          rw [hshape, Shape.count_cons]
          exact length_of_leavesOf? items (wellFormed_list.mp hv) hagree h
  | tensor t =>
      rw [extent] at hregular ⊢
      split at hregular
      · cases hregular
      · rename_i hrank
        cases h
        rw [if_neg hrank, Cells.length_scalars]
        exact (wellFormed_tensor.mp hv).length
  | int n =>
      obtain ⟨s, -, hs⟩ := Option.map_eq_some_iff.mp h
      cases hs
      rfl
  | bool _ | float _ | scalar _ | undefined _ =>
      cases h
      rfl
  | _ => cases h

theorem length_of_leavesOf? {axes : Nat} (vs : List Value) {k : Option Kind} {xs : List Scalar}
    {shape : List Nat} (hvs : ∀ v ∈ vs, v.WellFormed)
    (hagree : ∀ e ∈ extents axes vs, e.regular = true ∧ e.shape = shape)
    (h : leavesOf? vs = some (k, xs)) : xs.length = vs.length * Shape.count shape := by
  cases vs with
  | nil =>
      cases h
      simp
  | cons v vs =>
      obtain ⟨k, xs, l, ys, hfirst, hrest, hr⟩ := leavesOf?_cons_eq_some h
      cases hr
      rw [extents] at hagree
      obtain ⟨hv, hvs⟩ := List.forall_mem_cons.mp hvs
      obtain ⟨⟨hregular, hshape⟩, hagree⟩ := List.forall_mem_cons.mp hagree
      rw [List.length_append, length_of_leaves? v hv hregular hfirst, hshape,
        length_of_leavesOf? vs hvs hagree hrest, List.length_cons, Nat.succ_mul, Nat.add_comm]

end

theorem inRange_of_intLeaf? {n : Int} {s : Scalar} (h : intLeaf? n = some s) : s.InRange := by
  unfold intLeaf? at h
  split at h
  · rename_i hsigned
    cases h
    simpa [Scalar.InRange, Width.InRange] using hsigned
  · split at h
    · rename_i hunsigned
      cases h
      simpa [Scalar.InRange, Width.InRange] using hunsigned
    · cases h

mutual

/-- Every leaf fits in the kind that all leaves have in common. -/
theorem fitsIn_of_leaves? (v : Value) {k : Option Kind} {xs : List Scalar} (hv : v.WellFormed)
    (h : v.leaves? = some (k, xs)) : ∀ s ∈ xs, ∃ kind, k = some kind ∧ s.FitsIn kind := by
  cases v with
  | list items =>
      rw [leaves?] at h
      exact fitsIn_of_leavesOf? items (wellFormed_list.mp hv) h
  | tensor t =>
      cases h
      intro s hs
      have hkind : s.kind = t.kind := Cells.kind_of_mem_scalars hs
      exact ⟨t.kind, rfl, hkind ▸ .self ((wellFormed_tensor.mp hv).inRange s hs)⟩
  | int n =>
      obtain ⟨s, hs, hr⟩ := Option.map_eq_some_iff.mp h
      cases hr
      exact List.forall_mem_singleton.mpr ⟨_, rfl, .self (inRange_of_intLeaf? hs)⟩
  | scalar s =>
      cases h
      exact List.forall_mem_singleton.mpr ⟨_, rfl, .self (wellFormed_scalar.mp hv)⟩
  | bool _ | float _ | undefined _ =>
      cases h
      exact List.forall_mem_singleton.mpr ⟨_, rfl, .self trivial⟩
  | _ => cases h

theorem fitsIn_of_leavesOf? (vs : List Value) {k : Option Kind} {xs : List Scalar}
    (hvs : ∀ v ∈ vs, v.WellFormed) (h : leavesOf? vs = some (k, xs)) :
    ∀ s ∈ xs, ∃ kind, k = some kind ∧ s.FitsIn kind := by
  cases vs with
  | nil =>
      cases h
      exact nofun
  | cons v vs =>
      obtain ⟨k, xs, l, ys, hfirst, hrest, hr⟩ := leavesOf?_cons_eq_some h
      cases hr
      obtain ⟨hv, hvs⟩ := List.forall_mem_cons.mp hvs
      intro s hs
      rcases List.mem_append.mp hs with hs | hs
      · obtain ⟨kind, rfl, hfits⟩ := fitsIn_of_leaves? v hv hfirst s hs
        cases l with
        | none => exact ⟨kind, rfl, hfits⟩
        | some other => exact ⟨_, rfl, hfits.join_right other⟩
      · obtain ⟨kind, rfl, hfits⟩ := fitsIn_of_leavesOf? vs hvs hrest s hs
        cases k with
        | none => exact ⟨kind, rfl, hfits⟩
        | some other => exact ⟨_, rfl, hfits.join_left other⟩

end

theorem length_cellsOf (kind : Kind) (leaves : List Scalar) :
    (cellsOf kind leaves).length = leaves.length := by
  cases kind <;> simp [cellsOf]

theorem inRange_cellsOf {kind : Kind} {leaves : List Scalar} (h : ∀ s ∈ leaves, s.FitsIn kind) :
    (cellsOf kind leaves).InRange := by
  cases kind with
  | bool => exact Cells.inRange_bools _
  | float => exact Cells.inRange_floats _
  | int w =>
      refine Cells.inRange_ints.mpr fun n hn => ?_
      obtain ⟨s, hs, rfl⟩ := List.mem_map.mp hn
      exact (h s hs).leafInt

theorem WellFormed.toTensor {v : Value} {t : Tensor} (hv : v.WellFormed)
    (h : v.toTensor = .ok t) : t.WellFormed := by
  unfold Value.toTensor at h
  split at h
  · cases h
    exact wellFormed_tensor.mp hv
  · dsimp only at h
    split at h
    · split at h <;> cases h
    · rename_i hregular
      split at h
      · obtain ⟨text, -, ⟨⟩⟩ := exists_of_bind_eq_ok h
      · rename_i k leaves hleaves
        cases h
        constructor
        · have hlength := length_of_leaves? v hv (by simpa using hregular) hleaves
          simpa [Tensor.ofCells, length_cellsOf] using hlength
        · refine inRange_cellsOf fun s hs => ?_
          obtain ⟨kind, rfl, hfits⟩ := fitsIn_of_leaves? v hv hleaves s hs
          exact hfits

end Value

end ArrayExpr
