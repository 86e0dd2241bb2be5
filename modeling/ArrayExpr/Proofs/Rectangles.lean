import Mathlib.Data.List.Forall2
import ArrayExpr.Proofs.Doubles
import ArrayExpr.Proofs.WellFormedValues

/-!
Which plain data stands for a tensor: nested lists that agree on a shape of at most 64 axes, in which
everything that is no list is a truth value, a double, or an integer of 64 bits. The tensor has that
shape, and its elements are the leaves from left to right, converted to the kind that all of them have
in common (`tensor_ok_iff_rectangular`).
-/

namespace ArrayExpr

namespace Json

/-- Nested lists that agree on a shape. What is no list has no axes, and an empty list has one. -/
inductive Rectangular : Json → List Nat → Prop where
  | leaf {j : Json} : (∀ items, j ≠ .list items) → Rectangular j []
  | empty : Rectangular (.list []) [0]
  | list {first : Json} {rest : List Json} {shape : List Nat} :
      (∀ j ∈ first :: rest, Rectangular j shape) →
      Rectangular (.list (first :: rest)) ((first :: rest).length :: shape)

mutual

def leaves : Json → List Json
  | .list items => leavesOfItems items
  | j => [j]

def leavesOfItems : List Json → List Json
  | [] => []
  | j :: js => leaves j ++ leavesOfItems js

end

/-- The leaves that can be elements: truth values, doubles, and integers of 64 bits with or without a
sign. -/
def IsNumeric : Json → Prop
  | .bool _ | .float _ => True
  | .int n => -Int.pow 2 63 ≤ n ∧ n ≤ Int.pow 2 64 - 1
  | _ => False

def ownKind : Json → Kind
  | .bool _ => .bool
  | .int n => if n < Int.pow 2 63 then .int .int64 else .int .uint64
  | _ => .float

/-- A leaf as an element of a kind to which it converts. An integer becomes the nearest double. -/
inductive Converts : Kind → Json → Scalar → Prop where
  | bool (b : Bool) : Converts .bool (.bool b) (.bool b)
  | bit (w : Width) (b : Bool) : Converts (.int w) (.bool b) (.int w (if b then 1 else 0))
  | int (w : Width) (n : Int) : Converts (.int w) (.int n) (.int w n)
  | unit (b : Bool) : Converts .float (.bool b) (.float (if b then 1.0 else 0.0))
  | nearest {n : Int} {x : Float} : Decimal.IsNearest n x → Converts .float (.int n) (.float x)
  | float (x : Float) : Converts .float (.float x) (.float x)

end Json

/-- The kind that elements have in common, `kinds` being their own. Doubles absorb everything, and
signed and unsigned integers have only them in common; truth values convert to everything. -/
def commonKind (kinds : List Kind) : Kind :=
  if kinds = [] ∨ .float ∈ kinds ∨ (.int .int64 ∈ kinds ∧ .int .uint64 ∈ kinds) then .float
  else if .int .uint64 ∈ kinds then .int .uint64
  else if .int .int64 ∈ kinds then .int .int64
  else .bool

/-! ### Shapes -/

@[simp]
theorem commonPrefix_self (shape : List Nat) : commonPrefix shape shape = shape := by
  induction shape with
  | nil => rfl
  | cons n rest ih => simp [commonPrefix, ih]

theorem foldl_commonPrefix_of_agree {extents : List Extent} {shape : List Nat} {regular : Bool}
    (h : ∀ e ∈ extents, e = ⟨shape, regular⟩) :
    extents.foldl (fun shape e => commonPrefix shape e.shape) shape = shape := by
  induction extents with
  | nil => rfl
  | cons e rest ih =>
      obtain ⟨rfl, hrest⟩ := List.forall_mem_cons.mp h
      rw [List.foldl_cons, commonPrefix_self]
      exact ih hrest

/-- Items that agree on a shape have one more axis together, and agree in full if each of them does. -/
theorem Extent.ofItems_of_agree {n : Nat} {extents : List Extent} {shape : List Nat} {regular : Bool}
    (hne : extents ≠ []) (h : ∀ e ∈ extents, e = ⟨shape, regular⟩) :
    ofItems n extents = ⟨n :: shape, regular⟩ := by
  cases extents with
  | nil => exact absurd rfl hne
  | cons first rest =>
      obtain ⟨rfl, hrest⟩ := List.forall_mem_cons.mp h
      have hfold := foldl_commonPrefix_of_agree hrest
      cases regular with
      | false => simp [ofItems, hfold]
      | true =>
          have hall : rest.all (fun e => e.regular && e.shape == shape) = true := by
            rw [List.all_eq_true]
            intro e he
            rw [hrest e he]
            simp
          simp only [ofItems, hfold, List.all_cons, hall]
          simp

namespace Value

theorem extents_eq_map (axes : Nat) (vs : List Value) : extents axes vs = vs.map (extent axes) := by
  induction vs with
  | nil => rfl
  | cons v vs ih => rw [extents, List.map_cons, ih]

theorem ofItems_eq_map (items : List Json) : ofItems items = items.map ofJson := by
  induction items with
  | nil => rfl
  | cons j js ih => rw [ofItems, List.map_cons, ih]

theorem extent_list (axes : Nat) (items : List Json) :
    (ofJson (.list items)).extent (axes + 1) =
      .ofItems items.length (items.map fun j => (ofJson j).extent axes) := by
  rw [ofJson, extent, extents_eq_map, ofItems_eq_map, List.length_map, List.map_map]
  rfl

theorem extent_leaf {j : Json} (h : ∀ items, j ≠ .list items) (axes : Nat) :
    (ofJson j).extent axes = ⟨[], true⟩ := by
  cases j with
  | list items => exact absurd rfl (h items)
  | null | bool | int | float | str | object => simp only [ofJson, extent]

end Value

namespace Json

/-- Data with a shape of few enough axes is found to have it. -/
theorem Rectangular.extent_eq {j : Json} {shape : List Nat} (h : j.Rectangular shape) {axes : Nat}
    (haxes : shape.length ≤ axes) : (Value.ofJson j).extent axes = ⟨shape, true⟩ := by
  induction h generalizing axes with
  | leaf hleaf => exact Value.extent_leaf hleaf axes
  | empty =>
      obtain ⟨axes, rfl⟩ := Nat.exists_eq_succ_of_ne_zero (Nat.ne_of_gt haxes)
      rw [Value.extent_list]
      rfl
  | list _ ih =>
      obtain ⟨axes, rfl⟩ := Nat.exists_eq_succ_of_ne_zero (Nat.ne_of_gt (Nat.zero_lt_of_lt haxes))
      rw [Value.extent_list]
      refine Extent.ofItems_of_agree (by simp) fun e he => ?_
      obtain ⟨item, hitem, rfl⟩ := List.mem_map.mp he
      exact ih item hitem (Nat.le_of_succ_le_succ haxes)

theorem rectangular_of_leaf {j : Json} (h : ∀ items, j ≠ .list items) (axes : Nat) :
    j.Rectangular ((Value.ofJson j).extent axes).shape ∧
      ((Value.ofJson j).extent axes).shape.length ≤ axes := by
  rw [Value.extent_leaf h]
  exact ⟨.leaf h, Nat.zero_le axes⟩

mutual

/-- Data whose extent is regular has the shape that is found. -/
theorem rectangular_of_regular (j : Json) {axes : Nat}
    (h : ((Value.ofJson j).extent axes).regular = true) :
    j.Rectangular ((Value.ofJson j).extent axes).shape ∧
      ((Value.ofJson j).extent axes).shape.length ≤ axes := by
  cases j with
  | list items =>
      cases axes with
      | zero =>
          rw [Value.ofJson, Value.extent] at h
          cases h
      | succ axes =>
          rw [Value.extent_list] at h ⊢
          obtain ⟨shape, hshape, hagree⟩ := Extent.exists_of_regular h
          rw [hshape]
          cases items with
          | nil =>
              cases hshape
              exact ⟨.empty, Nat.succ_le_succ (Nat.zero_le axes)⟩
          | cons first rest =>
              have hitems := rectangular_of_agree (first :: rest) hagree
              refine ⟨.list fun j hj => (hitems j hj).1, ?_⟩
              exact Nat.succ_le_succ (hitems first List.mem_cons_self).2
  | null | bool | int | float | str | object =>
      exact rectangular_of_leaf (by rintro _ ⟨⟩) axes

theorem rectangular_of_agree (items : List Json) {axes : Nat} {shape : List Nat}
    (h : ∀ e ∈ items.map fun j => (Value.ofJson j).extent axes, e.regular = true ∧ e.shape = shape) :
    ∀ j ∈ items, j.Rectangular shape ∧ shape.length ≤ axes := by
  cases items with
  | nil => exact nofun
  | cons first rest =>
      obtain ⟨⟨hregular, hshape⟩, hrest⟩ := List.forall_mem_cons.mp h
      refine List.forall_mem_cons.mpr ⟨?_, rectangular_of_agree rest hrest⟩
      rw [← hshape]
      exact rectangular_of_regular first hregular

end

/-- An extent is regular exactly for data with a shape of few enough axes. -/
theorem regular_extent_iff (j : Json) (axes : Nat) :
    ((Value.ofJson j).extent axes).regular = true ↔
      ∃ shape, j.Rectangular shape ∧ shape.length ≤ axes := by
  constructor
  · intro h
    exact ⟨_, rectangular_of_regular j h⟩
  · rintro ⟨shape, hrectangular, haxes⟩
    rw [hrectangular.extent_eq haxes]

/-! ### Leaves -/

def element? : Json → Option Scalar
  | .bool b => some (.bool b)
  | .int n => Value.intLeaf? n
  | .float x => some (.float x)
  | _ => none

end Json

/-- The join of several kinds; nothing for no kinds. -/
def joinAll (kinds : List Kind) : Option Kind :=
  kinds.foldr (fun k l => Value.joinKinds (some k) l) none

theorem joinKinds_assoc (a b c : Option Kind) :
    Value.joinKinds (Value.joinKinds a b) c = Value.joinKinds a (Value.joinKinds b c) := by
  cases a with
  | none => rfl
  | some a =>
      cases b with
      | none => cases c <;> rfl
      | some b =>
          cases c with
          | none => rfl
          | some c => simp [Value.joinKinds, Kind.join_assoc]

theorem joinAll_append (kinds kinds' : List Kind) :
    joinAll (kinds ++ kinds') = Value.joinKinds (joinAll kinds) (joinAll kinds') := by
  induction kinds with
  | nil => rfl
  | cons k kinds ih =>
      simp only [joinAll, List.cons_append, List.foldr_cons] at ih ⊢
      rw [ih, joinKinds_assoc]

namespace Json

theorem leaves?_of_leaf {j : Json} (h : ∀ items, j ≠ .list items) :
    (Value.ofJson j).leaves? = j.element?.map fun s => (some s.kind, [s]) := by
  cases j with
  | list items => exact absurd rfl (h items)
  | null | bool | int | float | str | object =>
      rw [Value.ofJson]
      rfl

theorem leaves_of_leaf {j : Json} (h : ∀ items, j ≠ .list items) : j.leaves = [j] := by
  cases j with
  | list items => exact absurd rfl (h items)
  | null | bool | int | float | str | object => rw [leaves]; rintro _ ⟨⟩

theorem leaves?_of_leaf_iff {j : Json} (h : ∀ items, j ≠ .list items) (k : Option Kind)
    (xs : List Scalar) :
    (Value.ofJson j).leaves? = some (k, xs) ↔
      j.leaves.map element? = xs.map some ∧ k = joinAll (xs.map Scalar.kind) := by
  rw [leaves?_of_leaf h, leaves_of_leaf h]
  constructor
  · intro hleaf
    obtain ⟨s, hs, hfound⟩ := Option.map_eq_some_iff.mp hleaf
    cases hfound
    rw [List.map_singleton, hs]
    exact ⟨rfl, rfl⟩
  · rintro ⟨hleaf, rfl⟩
    obtain ⟨s, rfl, hs⟩ := List.map_eq_singleton_iff.mp hleaf.symm
    rw [← hs]
    rfl

mutual

/-- The leaves are found where each is an element, and their kinds are joined. -/
theorem leaves?_ofJson_iff (j : Json) (k : Option Kind) (xs : List Scalar) :
    (Value.ofJson j).leaves? = some (k, xs) ↔
      j.leaves.map element? = xs.map some ∧ k = joinAll (xs.map Scalar.kind) := by
  cases j with
  | list items =>
      rw [Value.ofJson, Value.leaves?, leaves]
      exact leavesOf?_ofItems_iff items k xs
  | null | bool | int | float | str | object =>
      exact leaves?_of_leaf_iff (by rintro _ ⟨⟩) k xs

theorem leavesOf?_ofItems_iff (items : List Json) (k : Option Kind) (xs : List Scalar) :
    Value.leavesOf? (Value.ofItems items) = some (k, xs) ↔
      (leavesOfItems items).map element? = xs.map some ∧ k = joinAll (xs.map Scalar.kind) := by
  cases items with
  | nil =>
      rw [Value.ofItems, Value.leavesOf?, leavesOfItems]
      constructor
      · rintro ⟨⟩
        exact ⟨rfl, rfl⟩
      · rintro ⟨hnil, rfl⟩
        rw [List.map_eq_nil_iff.mp hnil.symm]
        rfl
  | cons j js =>
      rw [Value.ofItems, leavesOfItems, List.map_append]
      constructor
      · intro h
        obtain ⟨k, xs, l, ys, hfirst, hrest, hr⟩ := Value.leavesOf?_cons_eq_some h
        obtain ⟨hxs, rfl⟩ := (leaves?_ofJson_iff j k xs).mp hfirst
        obtain ⟨hys, rfl⟩ := (leavesOf?_ofItems_iff js l ys).mp hrest
        cases hr
        rw [hxs, hys, List.map_append, List.map_append, joinAll_append]
        exact ⟨rfl, rfl⟩
      · rintro ⟨h, rfl⟩
        obtain ⟨xs, ys, rfl, hxs, hys⟩ := List.map_eq_append_iff.mp h.symm
        have hfirst := (leaves?_ofJson_iff j _ xs).mpr ⟨hxs.symm, rfl⟩
        have hrest := (leavesOf?_ofItems_iff js _ ys).mpr ⟨hys.symm, rfl⟩
        rw [Value.leavesOf?, hfirst, hrest, List.map_append, joinAll_append]
        rfl

end

/-! ### Kinds and conversions -/

theorem intLeaf?_eq_some_iff {n : Int} {s : Scalar} :
    Value.intLeaf? n = some s ↔
      (IsNumeric (.int n) ∧ s = .int (if n < Int.pow 2 63 then .int64 else .uint64) n) := by
  have hsigned : Int.pow 2 63 = 9223372036854775808 := rfl
  have hunsigned : Int.pow 2 64 = 18446744073709551616 := rfl
  simp only [Value.intLeaf?, IsNumeric, hsigned, hunsigned, Bool.and_eq_true, decide_eq_true_eq]
  by_cases hlow : -9223372036854775808 ≤ n ∧ n < 9223372036854775808
  · rw [if_pos hlow, if_pos hlow.2, Option.some.injEq, eq_comm]
    exact ⟨fun h => ⟨⟨hlow.1, by omega⟩, h⟩, fun h => h.2⟩
  · rw [if_neg hlow]
    by_cases hhigh : 0 ≤ n ∧ n < 18446744073709551616
    · rw [if_pos hhigh, if_neg (by omega), Option.some.injEq, eq_comm]
      exact ⟨fun h => ⟨⟨by omega, by omega⟩, h⟩, fun h => h.2⟩
    · rw [if_neg hhigh]
      constructor
      · rintro ⟨⟩
      · rintro ⟨hrange, -⟩
        omega

theorem exists_element?_iff (j : Json) : (∃ s, j.element? = some s) ↔ j.IsNumeric := by
  cases j with
  | int n =>
      simp only [element?, intLeaf?_eq_some_iff]
      exact ⟨fun ⟨_, h⟩ => h.1, fun h => ⟨_, h, rfl⟩⟩
  | bool b => exact iff_of_true ⟨_, rfl⟩ trivial
  | float x => exact iff_of_true ⟨_, rfl⟩ trivial
  | null | str | list | object => exact iff_of_false (by rintro ⟨_, ⟨⟩⟩) id

theorem kind_of_element? {j : Json} {s : Scalar} (h : j.element? = some s) : s.kind = j.ownKind := by
  cases j with
  | int n =>
      obtain ⟨-, rfl⟩ := intLeaf?_eq_some_iff.mp h
      rw [Scalar.kind, ownKind]
      split <;> rfl
  | bool | float =>
      cases h
      rfl
  | null | str | list | object => cases h

theorem natAbs_lt_of_isNumeric {n : Int} (h : IsNumeric (.int n)) : n.natAbs < Nat.pow 2 64 := by
  obtain ⟨hlow, hhigh⟩ := h
  have hsigned : Int.pow 2 63 = 9223372036854775808 := rfl
  have hunsigned : Int.pow 2 64 = 18446744073709551616 := rfl
  have hbound : Nat.pow 2 64 = 18446744073709551616 := rfl
  rw [hsigned] at hlow
  rw [hunsigned] at hhigh
  rw [hbound]
  omega

/-- A leaf converts to a kind that its own kind joins into as its element does. -/
theorem converts_of_element? {kind : Kind} {j : Json} {s : Scalar} (h : j.element? = some s)
    (hjoin : s.kind.join kind = kind) :
    ∃ c, Converts kind j c ∧ (Value.cellsOf kind [s]).scalars = [c] := by
  cases j with
  | bool b =>
      cases h
      cases kind with
      | bool => exact ⟨_, .bool b, rfl⟩
      | int w => exact ⟨_, .bit w b, rfl⟩
      | float => exact ⟨_, .unit b, rfl⟩
  | int n =>
      obtain ⟨hnumeric, rfl⟩ := intLeaf?_eq_some_iff.mp h
      cases kind with
      | bool => revert hjoin; rw [Scalar.kind]; split <;> rintro ⟨⟩
      | int w => exact ⟨_, .int w n, rfl⟩
      | float =>
          exact ⟨_, .nearest (Decimal.isNearest_floatOfInt (natAbs_lt_of_isNumeric hnumeric)), rfl⟩
  | float x =>
      cases h
      cases kind with
      | float => exact ⟨_, .float x, rfl⟩
      | bool | int => cases hjoin
  | null | str | list | object => cases h

end Json

theorem Value.scalars_cellsOf_cons (kind : Kind) (s : Scalar) (xs : List Scalar) :
    (cellsOf kind (s :: xs)).scalars =
      (cellsOf kind [s]).scalars ++ (cellsOf kind xs).scalars := by
  cases kind <;> rfl

namespace Json

/-- Leaves convert one by one. -/
theorem converts_of_elements {kind : Kind} {js : List Json} {xs : List Scalar}
    (h : js.map element? = xs.map some) (hjoin : ∀ s ∈ xs, s.kind.join kind = kind) :
    List.Forall₂ (Converts kind) js (Value.cellsOf kind xs).scalars := by
  induction js generalizing xs with
  | nil =>
      rw [List.map_eq_nil_iff.mp h.symm]
      cases kind <;> exact .nil
  | cons j js ih =>
      cases xs with
      | nil => cases h
      | cons s xs =>
          obtain ⟨hfirst, hrest⟩ := List.cons.inj h
          obtain ⟨hs, hxs⟩ := List.forall_mem_cons.mp hjoin
          obtain ⟨c, hc, hcells⟩ := converts_of_element? hfirst hs
          rw [Value.scalars_cellsOf_cons, hcells]
          exact .cons hc (ih hrest hxs)

/-- What agrees on a leaf and its element agrees on leaves and their elements. -/
theorem map_of_elements {α : Type} {f : Json → α} {g : Scalar → α}
    (hagree : ∀ j s, j.element? = some s → f j = g s) {js : List Json} {xs : List Scalar}
    (h : js.map element? = xs.map some) : js.map f = xs.map g := by
  induction js generalizing xs with
  | nil =>
      rw [List.map_eq_nil_iff.mp h.symm]
      rfl
  | cons j js ih =>
      cases xs with
      | nil => cases h
      | cons s xs =>
          obtain ⟨hfirst, hrest⟩ := List.cons.inj h
          rw [List.map_cons, List.map_cons, hagree j s hfirst, ih hrest]

theorem kinds_of_elements {js : List Json} {xs : List Scalar} (h : js.map element? = xs.map some) :
    xs.map Scalar.kind = js.map ownKind :=
  (map_of_elements (fun _ _ hs => (kind_of_element? hs).symm) h).symm

/-- Leaves are all elements exactly where each of them is numeric. -/
theorem exists_elements_iff (js : List Json) :
    (∃ xs : List Scalar, js.map element? = xs.map some) ↔ ∀ j ∈ js, j.IsNumeric := by
  induction js with
  | nil => exact iff_of_true ⟨[], rfl⟩ (by simp)
  | cons j js ih =>
      rw [List.forall_mem_cons, ← ih, ← exists_element?_iff]
      constructor
      · rintro ⟨xs, h⟩
        cases xs with
        | nil => cases h
        | cons s xs =>
            obtain ⟨hfirst, hrest⟩ := List.cons.inj h
            exact ⟨⟨s, hfirst⟩, xs, hrest⟩
      · rintro ⟨⟨s, hs⟩, xs, hxs⟩
        exact ⟨s :: xs, by rw [List.map_cons, List.map_cons, hs, hxs]⟩

theorem ownKind_ne_int8 (j : Json) : j.ownKind ≠ .int .int8 := by
  cases j with
  | int n =>
      rw [ownKind]
      split <;> rintro ⟨⟩
  | null | bool | float | str | list | object => rintro ⟨⟩

end Json

/-- The join of kinds is the kind that they have in common. -/
theorem joinAll_eq_commonKind {kinds : List Kind} (h : ∀ k ∈ kinds, k ≠ .int .int8) :
    joinAll kinds = if kinds = [] then none else some (commonKind kinds) := by
  induction kinds with
  | nil => rfl
  | cons k kinds ih =>
      obtain ⟨hk, hkinds⟩ := List.forall_mem_cons.mp h
      have hjoin : joinAll (k :: kinds) = Value.joinKinds (some k) (joinAll kinds) := rfl
      rw [hjoin, ih hkinds, if_neg (List.cons_ne_nil k kinds)]
      by_cases hnil : kinds = []
      · subst hnil
        rcases k with _ | (_ | _ | _) | _
        · rfl
        · exact absurd rfl hk
        · rfl
        · rfl
        · rfl
      · rw [if_neg hnil]
        refine congrArg some ?_
        -- What is common to the other kinds depends on which of three kinds are among them.
        by_cases hfloat : .float ∈ kinds <;> by_cases hsigned : .int .int64 ∈ kinds <;>
          by_cases hunsigned : .int .uint64 ∈ kinds <;> rcases k with _ | (_ | _ | _) | _ <;>
            simp_all [commonKind, Kind.join]

namespace Value

theorem kind_cellsOf (kind : Kind) (xs : List Scalar) : (cellsOf kind xs).kind = kind := by
  cases kind <;> rfl

/-- What is not yet a tensor stands for one where its extent is regular and its leaves are found. -/
theorem toTensor_eq_ok_iff {v : Value} (h : ∀ t, v ≠ .tensor t) (t : Tensor) :
    v.toTensor = .ok t ↔
      (v.extent maxAxes).regular = true ∧ ∃ k xs, v.leaves? = some (k, xs) ∧
        t = .ofCells (v.extent maxAxes).shape (cellsOf (k.getD .float) xs) := by
  unfold toTensor
  split
  · exact absurd rfl (h _)
  · dsimp only
    cases hregular : (v.extent maxAxes).regular with
    | false =>
        simp only [Bool.not_false, if_true, Bool.false_eq_true, false_and, iff_false]
        split <;> rintro ⟨⟩
    | true =>
        simp only [Bool.not_true, Bool.false_eq_true, if_false, true_and]
        cases v.leaves? with
        | none =>
            refine iff_of_false (fun hbind => ?_) (by simp)
            obtain ⟨_, -, ⟨⟩⟩ := exists_of_bind_eq_ok hbind
        | some found =>
            rcases found with ⟨k, xs⟩
            constructor
            · rintro ⟨⟩
              exact ⟨k, xs, rfl, rfl⟩
            · rintro ⟨_, _, ⟨⟩, rfl⟩
              rfl

theorem ofJson_ne_tensor (j : Json) (t : Tensor) : ofJson j ≠ .tensor t := by
  cases j <;> rw [ofJson] <;> rintro ⟨⟩

end Value

/-- The tensor of plain data has its shape, and its elements are the leaves converted to the kind that
they have in common. -/
theorem Json.spec_of_toTensor {j : Json} {t : Tensor} (h : (Value.ofJson j).toTensor = .ok t) :
    j.Rectangular t.shape ∧ t.kind = commonKind (j.leaves.map ownKind) ∧
      List.Forall₂ (Converts t.kind) j.leaves t.cells.scalars := by
  obtain ⟨hregular, k, xs, hleaves, rfl⟩ :=
    (Value.toTensor_eq_ok_iff (Value.ofJson_ne_tensor j) t).mp h
  have hfits := Value.fitsIn_of_leaves? _ (Value.literal_ofJson j).wellFormed hleaves
  obtain ⟨helements, rfl⟩ := (leaves?_ofJson_iff j k xs).mp hleaves
  have hkinds := kinds_of_elements helements
  have hcommon : (joinAll (xs.map Scalar.kind)).getD .float = commonKind (j.leaves.map ownKind) := by
    rw [hkinds, joinAll_eq_commonKind]
    · split
      · rename_i hnil
        rw [hnil]
        rfl
      · rfl
    · intro k hk
      obtain ⟨leaf, -, rfl⟩ := List.mem_map.mp hk
      exact leaf.ownKind_ne_int8
  have hkind : (Tensor.ofCells ((Value.ofJson j).extent maxAxes).shape
      (Value.cellsOf ((joinAll (xs.map Scalar.kind)).getD .float) xs)).kind =
        (joinAll (xs.map Scalar.kind)).getD .float := Value.kind_cellsOf _ xs
  refine ⟨(rectangular_of_regular j hregular).1, hkind.trans hcommon, ?_⟩
  rw [hkind]
  refine converts_of_elements helements fun s hs => ?_
  obtain ⟨kind, hkind, hfit⟩ := hfits s hs
  rw [hkind]
  exact hfit.join

/-- **Exactly the rectangular numeric literals are tensors.** The capability that makes tensors gives a
value for plain data of one shape with at most 64 axes and numeric leaves, and for no other plain data.
The value is a tensor of that shape; its elements are the leaves from left to right, converted to the
kind that the leaves have in common, which is that of doubles if there are none; an integer becomes the
double nearest to it. -/
theorem tensor_ok_iff_rectangular (j : Json) :
    ((∃ v, Capability.tensor.run (.ofJson j) = .ok v) ↔
        (∃ shape, j.Rectangular shape ∧ shape.length ≤ 64) ∧ ∀ leaf ∈ j.leaves, leaf.IsNumeric) ∧
      ∀ v, Capability.tensor.run (.ofJson j) = .ok v →
        ∃ t, v = .tensor t ∧ j.Rectangular t.shape ∧
          t.kind = commonKind (j.leaves.map Json.ownKind) ∧
          List.Forall₂ (Json.Converts t.kind) j.leaves t.cells.scalars := by
  constructor
  · rw [← j.regular_extent_iff, ← Json.exists_elements_iff]
    constructor
    · rintro ⟨v, hv⟩
      obtain ⟨t, ht, -⟩ := Capability.exists_of_onOne hv
      obtain ⟨hregular, k, xs, hleaves, -⟩ :=
        (Value.toTensor_eq_ok_iff (Value.ofJson_ne_tensor j) t).mp ht
      exact ⟨hregular, xs, ((j.leaves?_ofJson_iff k xs).mp hleaves).1⟩
    · rintro ⟨hregular, xs, helements⟩
      have hleaves := (j.leaves?_ofJson_iff _ xs).mpr ⟨helements, rfl⟩
      have ht := (Value.toTensor_eq_ok_iff (Value.ofJson_ne_tensor j) _).mpr
        ⟨hregular, _, xs, hleaves, rfl⟩
      rw [Capability.run, Capability.onOne, ht]
      exact ⟨_, rfl⟩
  · intro v hv
    obtain ⟨t, ht, hr⟩ := Capability.exists_of_onOne hv
    cases hr
    exact ⟨t, rfl, Json.spec_of_toTensor ht⟩

/-- Signed and unsigned integers beside a truth value, in two rows. -/
theorem tensor_ok_iff_rectangular_mixed :
    let j : Json :=
      .list [.list [.bool true, .int 9223372036854775808], .list [.int (-1), .int 0]]
    (∃ t, Capability.tensor.run (.ofJson j) = .ok (.tensor t) ∧ j.Rectangular t.shape ∧
      t.kind = .float ∧ List.Forall₂ (Json.Converts .float) j.leaves t.cells.scalars) ∧
    ¬ ∃ v, Capability.tensor.run (.ofJson (.list [j, .null])) = .ok v := by
  intro j
  have hshape : ∃ shape, j.Rectangular shape ∧ shape.length ≤ 64 := (j.regular_extent_iff 64).mp rfl
  have hnumeric : ∀ leaf ∈ j.leaves, leaf.IsNumeric :=
    (Json.exists_elements_iff j.leaves).mp
      ⟨[.bool true, .int .uint64 9223372036854775808, .int .int64 (-1), .int .int64 0], rfl⟩
  have hkind : commonKind (j.leaves.map Json.ownKind) = .float := by decide
  constructor
  · obtain ⟨v, hv⟩ := (tensor_ok_iff_rectangular j).1.mpr ⟨hshape, hnumeric⟩
    obtain ⟨t, rfl, hrectangular, ht, hcells⟩ := (tensor_ok_iff_rectangular j).2 v hv
    rw [ht, hkind] at hcells
    exact ⟨t, hv, hrectangular, ht.trans hkind, hcells⟩
  · intro h
    obtain ⟨-, hleaves⟩ := (tensor_ok_iff_rectangular _).1.mp h
    exact hleaves .null (by simp [Json.leaves, Json.leavesOfItems])

end ArrayExpr
