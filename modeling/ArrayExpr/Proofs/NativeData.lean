import ArrayExpr.Proofs.Rectangles

/-!
Tensors and plain data, back and forth. The elements of a tensor, nested by its shape, stand for a tensor
of the same kind, shape and elements, if no axis is empty. Nested lists of one kind of number that have a
shape of at most 64 axes are given back by their tensor. Both rest on the same view of nested lists of a
shape: they are their leaves, nested by it (`Rectangular.ofJson_eq_nest`).
-/

namespace ArrayExpr

/-- The truth values, the signed integers of 64 bits and the doubles in plain data. -/
inductive Json.IsOf : Kind → Json → Prop where
  | bool (b : Bool) : IsOf .bool (.bool b)
  | int {n : Int} : Width.int64.InRange n → IsOf (.int .int64) (.int n)
  | float (x : Float) : IsOf .float (.float x)

/-- The kinds that elements of tensors have if they are made of such numbers. -/
def Kind.native : List Kind :=
  [.bool, .int .int64, .float]

def Scalar.toJson : Scalar → Json
  | .bool b => .bool b
  | .int _ n => .int n
  | .float x => .float x

/-! ### Nested lists of a shape -/

theorem Shape.count_pos_of_not_mem {shape : List Nat} (h : 0 ∉ shape) : 0 < count shape := by
  induction shape with
  | nil => exact Nat.one_pos
  | cons n rest ih =>
      obtain ⟨hn, hrest⟩ := List.ne_and_not_mem_of_not_mem_cons h
      exact Nat.mul_pos (Nat.pos_of_ne_zero hn.symm) (ih hrest)

theorem Shape.rowsOf_flatMap {α β : Type} {f : α → List β} {size : Nat} {xs : List α}
    (h : ∀ x ∈ xs, (f x).length = size) : rowsOf size xs.length (xs.flatMap f) = xs.map f := by
  induction xs with
  | nil => rfl
  | cons x xs ih =>
      obtain ⟨rfl, hxs⟩ := List.forall_mem_cons.mp h
      rw [List.length_cons, List.flatMap_cons, rowsOf, List.take_left, List.drop_left, ih hxs,
        List.map_cons]

namespace Json

variable {j : Json} {shape : List Nat}

theorem leavesOfItems_eq_flatMap (items : List Json) : leavesOfItems items = items.flatMap leaves := by
  induction items with
  | nil => rfl
  | cons j js ih => rw [leavesOfItems, List.flatMap_cons, ih]

/-- Data of a shape has as many leaves as it counts. -/
theorem Rectangular.length_leaves (h : j.Rectangular shape) : j.leaves.length = Shape.count shape := by
  induction h with
  | leaf hleaf => rw [leaves_of_leaf hleaf, List.length_singleton, Shape.count_nil]
  | empty => rfl
  | @list first rest shape _ ih =>
      have hlengths : (first :: rest).map (fun j => j.leaves.length) =
          List.replicate (first :: rest).length (Shape.count shape) :=
        List.map_eq_replicate_iff.mpr ih
      rw [leaves, leavesOfItems_eq_flatMap, List.length_flatMap, hlengths, List.sum_replicate_nat,
        Shape.count_cons]

/-- Data of a shape is its leaves, nested by the shape. -/
theorem Rectangular.ofJson_eq_nest (h : j.Rectangular shape) :
    Value.ofJson j = nest shape (j.leaves.map Value.ofJson) := by
  induction h with
  | leaf hleaf => rw [leaves_of_leaf hleaf, List.map_singleton, nest, List.headD_cons]
  | empty => rfl
  | @list first rest shape hitems ih =>
      have hlengths : ∀ j ∈ first :: rest, (j.leaves.map Value.ofJson).length = Shape.count shape := by
        intro j hj
        rw [List.length_map]
        exact (hitems j hj).length_leaves
      rw [leaves, leavesOfItems_eq_flatMap, List.map_flatMap, nest, Shape.rowsOf_flatMap hlengths,
        List.map_map, Value.ofJson, Value.ofItems_eq_map]
      exact congrArg Value.list (List.map_congr_left ih)

/-- Leaves that are as many as a shape counts are cut into the leaves of as many items. -/
theorem exists_items {size n : Nat} {P : Json → Prop} {js : List Json}
    (h : ∀ js : List Json, js.length = size → (∀ leaf ∈ js, ∀ items, leaf ≠ .list items) →
      ∃ j, P j ∧ j.leaves = js)
    (hlength : js.length = n * size) (hleaves : ∀ leaf ∈ js, ∀ items, leaf ≠ .list items) :
    ∃ items : List Json, items.length = n ∧ (∀ j ∈ items, P j) ∧ leavesOfItems items = js := by
  induction n generalizing js with
  | zero =>
      rw [Nat.zero_mul, List.length_eq_zero_iff] at hlength
      exact ⟨[], rfl, List.forall_mem_nil _, hlength.symm⟩
  | succ n ih =>
      rw [Nat.succ_mul] at hlength
      obtain ⟨j, hj, hfirst⟩ := h (js.take size) (by rw [List.length_take]; omega)
        fun leaf hleaf => hleaves leaf (List.mem_of_mem_take hleaf)
      have hdrop : (js.drop size).length = n * size := by
        rw [List.length_drop]
        omega
      obtain ⟨items, hitems, hall, hrest⟩ := ih hdrop
        fun leaf hleaf => hleaves leaf (List.mem_of_mem_drop hleaf)
      refine ⟨j :: items, congrArg Nat.succ hitems, List.forall_mem_cons.mpr ⟨hj, hall⟩, ?_⟩
      rw [leavesOfItems, hfirst, hrest, List.take_append_drop]

/-- Leaves can be nested by a shape without empty axes that counts as many. -/
theorem exists_rectangular (hshape : 0 ∉ shape) {js : List Json}
    (hlength : js.length = Shape.count shape)
    (hleaves : ∀ leaf ∈ js, ∀ items, leaf ≠ .list items) :
    ∃ j : Json, j.Rectangular shape ∧ j.leaves = js := by
  induction shape generalizing js with
  | nil =>
      obtain ⟨j, rfl⟩ := List.length_eq_one_iff.mp hlength
      have hj := hleaves j List.mem_cons_self
      exact ⟨j, .leaf hj, leaves_of_leaf hj⟩
  | cons n rest ih =>
      obtain ⟨hn, hrest⟩ := List.ne_and_not_mem_of_not_mem_cons hshape
      obtain ⟨items, hitems, hall, hjs⟩ :=
        exists_items (fun js hlength hleaves => ih hrest hlength hleaves) hlength hleaves
      cases items with
      | nil => exact absurd hitems hn
      | cons first others =>
          subst hitems
          exact ⟨.list (first :: others), .list hall, by rw [leaves, hjs]⟩

/-- Data with more axes than are looked for has no regular extent; all axes that are looked for are
found. -/
theorem Rectangular.extent_eq_of_lt (h : j.Rectangular shape) {axes : Nat} (haxes : axes < shape.length) :
    (Value.ofJson j).extent axes = ⟨shape.take axes, false⟩ := by
  induction h generalizing axes with
  | leaf => cases haxes
  | empty =>
      obtain rfl := Nat.lt_one_iff.mp haxes
      rfl
  | @list first rest shape _ ih =>
      cases axes with
      | zero =>
          rw [Value.ofJson, Value.extent]
          rfl
      | succ axes =>
          rw [Value.extent_list, List.take_succ_cons]
          refine Extent.ofItems_of_agree (by simp) fun e he => ?_
          obtain ⟨item, hitem, rfl⟩ := List.mem_map.mp he
          exact ih item hitem (Nat.lt_of_succ_lt_succ haxes)

/-! ### Leaves of one kind -/

theorem ofJson_of_element? {s : Scalar} (h : j.element? = some s) : Value.ofJson j = s.toNative := by
  cases j with
  | int n =>
      obtain ⟨-, rfl⟩ := intLeaf?_eq_some_iff.mp h
      rw [Value.ofJson, Scalar.toNative]
  | bool | float =>
      cases h
      rw [Value.ofJson, Scalar.toNative]
  | null | str | list | object => cases h

theorem element?_int {n : Int} (h : Width.int64.InRange n) :
    (Json.int n).element? = some (.int .int64 n) := by
  obtain ⟨hlow, hhigh⟩ := h
  have hunsigned : Int.pow 2 64 = Int.pow 2 63 + Int.pow 2 63 := by decide
  have hnumeric : IsNumeric (.int n) := ⟨hlow, by omega⟩
  exact intLeaf?_eq_some_iff.mpr ⟨hnumeric, by rw [if_pos hhigh]⟩

theorem IsOf.exists_element? {kind : Kind} (h : j.IsOf kind) :
    ∃ s, j.element? = some s ∧ s.kind = kind := by
  rcases h with b | hn | x
  · exact ⟨.bool b, rfl, rfl⟩
  · exact ⟨_, element?_int hn, rfl⟩
  · exact ⟨.float x, rfl, rfl⟩

theorem element?_toJson {s : Scalar} (hkind : s.kind ∈ Kind.native) (hrange : s.InRange) :
    s.toJson.element? = some s := by
  rcases s with b | ⟨w, n⟩ | x
  · rfl
  · cases w with
    | int64 => exact element?_int hrange
    | int8 | uint64 => simp [Scalar.kind, Kind.native] at hkind
  · rfl

/-- Leaves that are all of one kind have elements of that kind. -/
theorem exists_elements_of_isOf {kind : Kind} {js : List Json} (h : ∀ leaf ∈ js, leaf.IsOf kind) :
    ∃ xs : List Scalar, js.map element? = xs.map some ∧ ∀ s ∈ xs, s.kind = kind := by
  induction js with
  | nil => exact ⟨[], rfl, List.forall_mem_nil _⟩
  | cons j js ih =>
      obtain ⟨hj, hjs⟩ := List.forall_mem_cons.mp h
      obtain ⟨s, hs, hkind⟩ := hj.exists_element?
      obtain ⟨xs, hxs, hkinds⟩ := ih hjs
      refine ⟨s :: xs, ?_, List.forall_mem_cons.mpr ⟨hkind, hkinds⟩⟩
      rw [List.map_cons, List.map_cons, hs, hxs]

end Json

theorem joinAll_of_uniform {kinds : List Kind} {kind : Kind} (hne : kinds ≠ [])
    (h : ∀ k ∈ kinds, k = kind) : joinAll kinds = some kind := by
  induction kinds with
  | nil => exact absurd rfl hne
  | cons k kinds ih =>
      obtain ⟨rfl, hkinds⟩ := List.forall_mem_cons.mp h
      have hjoin : joinAll (k :: kinds) = Value.joinKinds (some k) (joinAll kinds) := rfl
      by_cases hnil : kinds = []
      · subst hnil
        rfl
      · rw [hjoin, ih hnil hkinds, Value.joinKinds, Kind.join_self]

namespace Value

/-- Elements of one kind convert to it as they are. -/
theorem scalars_cellsOf {kind : Kind} {xs : List Scalar} (h : ∀ s ∈ xs, s.kind = kind) :
    (cellsOf kind xs).scalars = xs := by
  induction xs with
  | nil => cases kind <;> rfl
  | cons s xs ih =>
      obtain ⟨rfl, hxs⟩ := List.forall_mem_cons.mp h
      rw [scalars_cellsOf_cons, ih hxs]
      cases s <;> rfl

theorem cellsOf_scalars (cells : Cells) : cellsOf cells.kind cells.scalars = cells := by
  cases cells with
  | bools xs | floats xs | ints w xs =>
      simp [Cells.kind, Cells.scalars, cellsOf, leafBool, leafInt, leafFloat, Function.comp_def]

end Value

namespace Json

variable {j : Json} {shape : List Nat} {xs : List Scalar}

/-- Data of a shape stands for the tensor of its elements, converted to the join of their kinds. -/
theorem Rectangular.toTensor_eq (h : j.Rectangular shape) (haxes : shape.length ≤ maxAxes)
    (helements : j.leaves.map element? = xs.map some) :
    (Value.ofJson j).toTensor =
      .ok (.ofCells shape (Value.cellsOf ((joinAll (xs.map Scalar.kind)).getD .float) xs)) := by
  have hextent := h.extent_eq haxes
  have hleaves := (leaves?_ofJson_iff j _ xs).mpr ⟨helements, rfl⟩
  rw [Value.toTensor_eq_ok_iff (Value.ofJson_ne_tensor j), hextent]
  exact ⟨rfl, _, xs, hleaves, rfl⟩

/-- Data with too many axes stands for no tensor. -/
theorem Rectangular.toTensor_of_lt (h : j.Rectangular shape) (haxes : maxAxes < shape.length) :
    (Value.ofJson j).toTensor = .error .tooManyAxes := by
  have hextent := h.extent_eq_of_lt haxes
  have hlength : (shape.take maxAxes).length = maxAxes := by
    rw [List.length_take]
    omega
  unfold Value.toTensor
  split
  · rename_i t ht
    exact absurd ht (Value.ofJson_ne_tensor j t)
  · simp [hextent, hlength]

/-- Data of a shape with leaves of one kind is given back by its tensor. -/
theorem Rectangular.exists_toNative_eq {kind : Kind} (h : j.Rectangular shape)
    (haxes : shape.length ≤ maxAxes) (hleaves : ∀ leaf ∈ j.leaves, leaf.IsOf kind) :
    ∃ t, (Value.ofJson j).toTensor = .ok t ∧ t.toNative = Value.ofJson j := by
  obtain ⟨xs, helements, hkinds⟩ := exists_elements_of_isOf hleaves
  refine ⟨_, h.toTensor_eq haxes helements, ?_⟩
  have hscalars : (Value.cellsOf ((joinAll (xs.map Scalar.kind)).getD .float) xs).scalars = xs := by
    by_cases hnil : xs = []
    · subst hnil
      rfl
    · have hjoin : joinAll (xs.map Scalar.kind) = some kind :=
        joinAll_of_uniform (by simpa using hnil) (List.forall_mem_map.mpr hkinds)
      rw [hjoin]
      exact Value.scalars_cellsOf hkinds
  rw [Tensor.toNative, Tensor.ofCells, hscalars, h.ofJson_eq_nest,
    map_of_elements (fun _ _ => ofJson_of_element?) helements]

end Json

/-- The elements of a tensor without empty axes, nested by its shape, stand for the same tensor, laid out
in row-major order. -/
theorem Tensor.WellFormed.toTensor_toNative {t : Tensor} (h : t.WellFormed) (hkind : t.kind ∈ Kind.native)
    (hshape : 0 ∉ t.shape) (haxes : t.shape.length ≤ maxAxes) :
    t.toNative.toTensor = .ok (.ofCells t.shape t.cells) := by
  have helements : (t.cells.scalars.map Scalar.toJson).map Json.element? =
      t.cells.scalars.map some := by
    rw [List.map_map]
    refine List.map_congr_left fun s hs => ?_
    have hs' : s.kind ∈ Kind.native := by
      rw [Cells.kind_of_mem_scalars hs]
      exact hkind
    exact Json.element?_toJson hs' (h.inRange s hs)
  have hleaves : ∀ leaf ∈ t.cells.scalars.map Scalar.toJson, ∀ items, leaf ≠ .list items := by
    intro leaf hleaf items
    obtain ⟨s, -, rfl⟩ := List.mem_map.mp hleaf
    cases s <;> rintro ⟨⟩
  have hlength : (t.cells.scalars.map Scalar.toJson).length = Shape.count t.shape := by
    rw [List.length_map, Cells.length_scalars, h.length]
  obtain ⟨j, hj, hjs⟩ := Json.exists_rectangular hshape hlength hleaves
  rw [← hjs] at helements
  have hnative : t.toNative = Value.ofJson j := by
    rw [hj.ofJson_eq_nest, Json.map_of_elements (fun _ _ => Json.ofJson_of_element?) helements]
    rfl
  have hne : t.cells.scalars.map Scalar.kind ≠ [] := by
    have hpos := Shape.count_pos_of_not_mem hshape
    rw [← List.length_pos_iff, List.length_map, Cells.length_scalars, h.length]
    exact hpos
  have hjoin : joinAll (t.cells.scalars.map Scalar.kind) = some t.kind :=
    joinAll_of_uniform hne (List.forall_mem_map.mpr fun _ => Cells.kind_of_mem_scalars)
  rw [hnative, hj.toTensor_eq haxes helements, hjoin, Option.getD_some, kind, Value.cellsOf_scalars]

namespace Capability

/-- **Making tensors and making plain data undo each other.** A tensor of truth values, signed integers of
64 bits or doubles that has no empty axis is turned into plain data, of which a tensor of the same kind,
shape and elements is made. Of nested lists of at most 64 axes with leaves of one such kind a tensor is
made, which is turned into the same nested lists. Nested lists with more axes make no tensor. -/
theorem native_data_round_trip :
    (∀ t : Tensor, t.WellFormed → t.kind ∈ Kind.native → 0 ∉ t.shape → t.shape.length ≤ 64 →
      ∃ v u, convertToNative.run (.tensor t) = .ok v ∧ tensor.run v = .ok (.tensor u) ∧
        u.kind = t.kind ∧ u.shape = t.shape ∧ u.cells = t.cells) ∧
    (∀ (j : Json) (shape : List Nat) (kind : Kind), j.Rectangular shape → shape.length ≤ 64 →
      (∀ leaf ∈ j.leaves, leaf.IsOf kind) →
      ∃ t, tensor.run (.ofJson j) = .ok (.tensor t) ∧
        convertToNative.run (.tensor t) = .ok (.ofJson j)) ∧
    ∀ (j : Json) (shape : List Nat), j.Rectangular shape → 64 < shape.length →
      tensor.run (.ofJson j) = .error .tooManyAxes := by
  refine ⟨?_, ?_, ?_⟩
  · intro t ht hkind hshape haxes
    refine ⟨t.toNative, .ofCells t.shape t.cells, rfl, ?_, rfl, rfl, rfl⟩
    rw [run, onOne, ht.toTensor_toNative hkind hshape haxes]
    rfl
  · intro j shape kind hj haxes hleaves
    obtain ⟨t, ht, hnative⟩ := hj.exists_toNative_eq haxes hleaves
    refine ⟨t, ?_, ?_⟩
    · rw [run, onOne, ht]
      rfl
    · rw [← hnative]
      rfl
  · intro j shape hj haxes
    rw [run, onOne, hj.toTensor_of_lt haxes]
    rfl

/-- A column of integers, one of them the least, and two rows of truth values. -/
theorem native_data_round_trip_column :
    let t : Tensor := .ofCells [2, 1] (.ints .int64 [-Int.pow 2 63, 7])
    let j : Json := .list [.list [.bool true, .bool false], .list [.bool false, .bool true]]
    (∃ v u, convertToNative.run (.tensor t) = .ok v ∧ tensor.run v = .ok (.tensor u) ∧
      u.kind = .int .int64 ∧ u.shape = [2, 1] ∧ u.cells = t.cells) ∧
    ∃ t, tensor.run (.ofJson j) = .ok (.tensor t) ∧ convertToNative.run (.tensor t) = .ok (.ofJson j) := by
  intro t j
  have ht : t.WellFormed := ⟨rfl, Cells.inRange_ints.mpr (by decide)⟩
  have hregular : ((Value.ofJson j).extent 64).regular = true := rfl
  have hj : j.Rectangular [2, 2] := (j.rectangular_of_regular hregular).1
  have hleaves : ∀ leaf ∈ j.leaves, leaf.IsOf .bool := by
    simp only [j, Json.leaves, Json.leavesOfItems, List.cons_append, List.nil_append,
      List.forall_mem_cons]
    exact ⟨.bool _, .bool _, .bool _, .bool _, List.forall_mem_nil _⟩
  exact ⟨native_data_round_trip.1 t ht (by decide) (by decide) (by decide),
    native_data_round_trip.2.1 j [2, 2] .bool hj (by decide) hleaves⟩

end Capability

def Json.nested (depth : Nat) : Json :=
  Nat.repeat (fun j => .list [j]) depth (.int 1)

theorem Json.rectangular_nested (depth : Nat) :
    (nested depth).Rectangular (List.replicate depth 1) ∧ (nested depth).leaves = [.int 1] := by
  induction depth with
  | zero => exact ⟨.leaf (by rintro _ ⟨⟩), leaves_of_leaf (by rintro _ ⟨⟩)⟩
  | succ depth ih =>
      obtain ⟨hshape, hleaves⟩ := ih
      have hnested : nested (depth + 1) = .list [nested depth] := rfl
      rw [hnested, leaves, leavesOfItems, leavesOfItems, hleaves]
      exact ⟨.list (List.forall_mem_singleton.mpr hshape), rfl⟩

/-- A number within 65 lists is nested evenly and has only an integer for a leaf, yet it stands for no
tensor that could give it back. -/
theorem Capability.nested_lists_too_deep :
    (Json.nested 65).Rectangular (List.replicate 65 1) ∧ 0 ∉ List.replicate 65 1 ∧
      (∀ leaf ∈ (Json.nested 65).leaves, leaf.IsOf (.int .int64)) ∧
      ¬ ∃ v, tensor.run (.ofJson (Json.nested 65)) = .ok v ∧
        convertToNative.run v = .ok (.ofJson (Json.nested 65)) := by
  obtain ⟨hshape, hleaves⟩ := Json.rectangular_nested 65
  refine ⟨hshape, by decide, ?_, ?_⟩
  · rw [hleaves]
    exact List.forall_mem_singleton.mpr (.int (by decide))
  · rintro ⟨v, hv, -⟩
    rw [run, onOne, hshape.toTensor_of_lt (by decide)] at hv
    cases hv

end ArrayExpr
