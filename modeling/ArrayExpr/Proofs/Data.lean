import ArrayExpr.Capability.Run
import ArrayExpr.Proofs.Run
import ArrayExpr.Value.Merge

/-!
Data: numbers, text and tensors, and lists and mappings of data. Literals are data, and so is whatever
a capability gives, whatever it is given. No function and no failure can be reached from data. Data is
plain as long as it holds no undefined number that a run has made.
-/

namespace ArrayExpr

/-- A value that is data through and through; `p` says which undefined numbers may occur in it. -/
inductive Value.Data (p : Undefined → Prop) : Value → Prop where
  | none : Data p .none
  | bool (b : Bool) : Data p (.bool b)
  | int (n : Int) : Data p (.int n)
  | float (x : Float) : Data p (.float x)
  | str (s : String) : Data p (.str s)
  | tensor (t : Tensor) : Data p (.tensor t)
  | scalar (s : Scalar) : Data p (.scalar s)
  | undefined {u : Undefined} : p u → Data p (.undefined u)
  | list {items : List Value} : (∀ v ∈ items, v.Data p) → Data p (.list items)
  | dict {entries : List (Key × Value)} : (∀ e ∈ entries, ∃ s, e.1 = .str s) →
      (∀ e ∈ entries, e.2.Data p) → Data p (.dict entries)

/-- Data that can be written down: it holds no tensors and no undefined numbers that a run has made. -/
inductive Value.Literal : Value → Prop where
  | none : Literal .none
  | bool (b : Bool) : Literal (.bool b)
  | int (n : Int) : Literal (.int n)
  | float (x : Float) : Literal (.float x)
  | str (s : String) : Literal (.str s)
  | list {items : List Value} : (∀ v ∈ items, v.Literal) → Literal (.list items)
  | dict {entries : List (Key × Value)} : (∀ e ∈ entries, ∃ s, e.1 = .str s) →
      (∀ e ∈ entries, e.2.Literal) → Literal (.dict entries)

/-- Data without undefined numbers that a run has made. -/
abbrev Value.Plain : Value → Prop := Value.Data fun _ => False

namespace Value

theorem Data.mono {p q : Undefined → Prop} (h : ∀ u, p u → q u) {v : Value} (hv : v.Data p) :
    v.Data q := by
  induction hv with
  | undefined hu => exact .undefined (h _ hu)
  | list _ ih => exact .list ih
  | dict hkeys _ ih => exact .dict hkeys ih
  | none => exact .none
  | bool b => exact .bool b
  | int n => exact .int n
  | float x => exact .float x
  | str s => exact .str s
  | tensor t => exact .tensor t
  | scalar s => exact .scalar s

theorem str_of_mem_ofEntries {entries : List (String × Json)} :
    ∀ e ∈ ofEntries entries, ∃ s, e.1 = .str s := by
  induction entries with
  | nil => exact nofun
  | cons first rest ih =>
      rintro e (_ | ⟨_, he⟩)
      · exact ⟨first.1, rfl⟩
      · exact ih e he

theorem Literal.plain {v : Value} (h : v.Literal) : v.Plain := by
  induction h with
  | none => exact .none
  | bool b => exact .bool b
  | int n => exact .int n
  | float x => exact .float x
  | str s => exact .str s
  | list _ ih => exact .list ih
  | dict hkeys _ ih => exact .dict hkeys ih

mutual

theorem literal_ofJson (j : Json) : (ofJson j).Literal := by
  cases j with
  | null => exact .none
  | bool b => exact .bool b
  | int n => exact .int n
  | float x => exact .float x
  | str s => exact .str s
  | list items =>
      rw [ofJson]
      exact .list (literal_ofItems items)
  | object entries =>
      rw [ofJson]
      exact .dict str_of_mem_ofEntries (literal_ofEntries entries)

theorem literal_ofItems (items : List Json) : ∀ v ∈ ofItems items, v.Literal := by
  cases items with
  | nil => exact nofun
  | cons j js =>
      rw [ofItems]
      rintro v (_ | ⟨_, hv⟩)
      · exact literal_ofJson j
      · exact literal_ofItems js v hv

theorem literal_ofEntries (entries : List (String × Json)) :
    ∀ e ∈ ofEntries entries, e.2.Literal := by
  match entries with
  | [] => exact nofun
  | (k, j) :: rest =>
      rw [ofEntries]
      rintro e (_ | ⟨_, he⟩)
      · exact literal_ofJson j
      · exact literal_ofEntries rest e he

end

theorem plain_ofJson (j : Json) : (ofJson j).Plain :=
  (literal_ofJson j).plain

theorem plain_ofResult (t : Tensor) : (ofResult t).Plain := by
  unfold ofResult
  split
  · exact .scalar _
  · exact .tensor t

/-- What a value is a sequence of: the items of a list, the keys of a mapping, or else data. -/
theorem mem_members_cases {v w : Value} {vs : List Value} (hmembers : v.members? = some vs)
    (hw : w ∈ vs) :
    (∃ items, v = .list items ∧ w ∈ items) ∨
      (∃ entries, v = .dict entries ∧ ∃ e ∈ entries, w = e.1.toValue) ∨
      w.Data fun _ => True := by
  unfold members? at hmembers
  split at hmembers
  · cases hmembers
    exact .inl ⟨_, rfl, hw⟩
  · cases hmembers
    obtain ⟨c, -, rfl⟩ := List.mem_map.mp hw
    exact .inr (.inr (.str _))
  · cases hmembers
    obtain ⟨e, he, rfl⟩ := List.mem_map.mp hw
    exact .inr (.inl ⟨_, rfl, e, he, rfl⟩)
  · split at hmembers
    · cases hmembers
    · cases hmembers
      obtain ⟨row, -, rfl⟩ := List.mem_map.mp hw
      exact .inr (.inr ((plain_ofResult row).mono fun _ => False.elim))
  · cases hmembers

mutual

/-- Marks are put on numbers, and nothing else is changed. -/
theorem data_marked (mark : Nat) (v : Value) (h : v.Plain) :
    (v.marked mark).1.Data fun _ => True := by
  match v with
  | .float x =>
      rw [marked]
      split
      · exact .undefined trivial
      · exact .float x
  | .list items =>
      rw [marked]
      cases h with
      | list hitems => exact .list (data_markedItems mark items hitems)
  | .none | .bool _ | .int _ | .str _ | .dict _ | .tensor _ | .scalar _ | .undefined _ | .failure
  | .closure .. | .composition .. | .foreign _ =>
      simpa only [marked] using h.mono fun _ => False.elim

theorem data_markedItems (mark : Nat) (items : List Value) (h : ∀ v ∈ items, v.Plain) :
    ∀ v ∈ (markedItems mark items).1, v.Data fun _ => True := by
  match items with
  | [] => exact nofun
  | v :: vs =>
      rw [markedItems]
      rintro w (_ | ⟨_, hw⟩)
      · exact data_marked mark v (h v List.mem_cons_self)
      · exact data_markedItems _ vs (fun w hw => h w (List.mem_cons_of_mem _ hw)) w hw

end

end Value

/-! ### What capabilities give -/

namespace Shape

/-- The rows that elements are cut into have no other elements. -/
theorem mem_of_mem_rowsOf {α : Type} {size count : Nat} {xs row : List α} {x : α}
    (hrow : row ∈ rowsOf size count xs) (hx : x ∈ row) : x ∈ xs := by
  induction count generalizing xs with
  | zero => cases hrow
  | succ count ih =>
      rcases List.mem_cons.mp hrow with rfl | hrow
      · exact List.mem_of_mem_take hx
      · exact List.mem_of_mem_drop (ih hrow)

end Shape

theorem literal_nest (shape : List Nat) {xs : List Value} (h : ∀ x ∈ xs, x.Literal) :
    (nest shape xs).Literal := by
  induction shape generalizing xs with
  | nil =>
      cases xs with
      | nil => exact .none
      | cons x xs => exact h x List.mem_cons_self
  | cons n rest ih =>
      refine .list fun v hv => ?_
      obtain ⟨row, hrow, rfl⟩ := List.mem_map.mp hv
      exact ih fun x hx => h x (Shape.mem_of_mem_rowsOf hrow hx)

theorem Scalar.literal_toNative (s : Scalar) : s.toNative.Literal := by
  cases s with
  | bool b => exact .bool b
  | int w n => exact .int n
  | float x => exact .float x

theorem Tensor.literal_toNative (t : Tensor) : t.toNative.Literal := by
  refine literal_nest t.shape fun x hx => ?_
  obtain ⟨s, -, rfl⟩ := List.mem_map.mp hx
  exact s.literal_toNative

theorem Tensor.literal_shape (t : Tensor) :
    (Value.list (t.shape.map fun n : Nat => .int n)).Literal := by
  refine .list fun v hv => ?_
  obtain ⟨n, -, rfl⟩ := List.mem_map.mp hv
  exact .int n

namespace Capability

theorem exists_of_onOne {f : Tensor → Except Fault Value} {argument r : Value}
    (h : onOne f argument = .ok r) : ∃ x, argument.toTensor = .ok x ∧ f x = .ok r :=
  exists_of_bind_eq_ok h

theorem exists_of_onPair {c : Capability} {f : Tensor → Tensor → Except Fault Tensor}
    {argument r : Value} (h : c.onPair f argument = .ok r) :
    ∃ a b x y t, c.operands argument = .ok (a, b) ∧ a.toTensor = .ok x ∧ b.toTensor = .ok y ∧
      f x y = .ok t ∧ r = .ofResult t := by
  obtain ⟨⟨a, b⟩, hoperands, h⟩ := exists_of_bind_eq_ok h
  obtain ⟨x, hx, h⟩ := exists_of_bind_eq_ok h
  obtain ⟨y, hy, h⟩ := exists_of_bind_eq_ok h
  obtain ⟨t, ht, h⟩ := exists_of_bind_eq_ok h
  exact ⟨a, b, x, y, t, hoperands, hx, hy, ht, (Except.ok.inj h).symm⟩

/-- A capability fails with a fault or gives plain data, even if its argument is not plain. -/
theorem plain_run {c : Capability} {argument r : Value} (h : c.run argument = .ok r) : r.Plain := by
  cases c with
  | add | subtract | multiply | divide | power | modulus | matrixMultiply =>
      obtain ⟨_, _, _, _, t, -, -, -, -, rfl⟩ := exists_of_onPair h
      exact Value.plain_ofResult t
  | tensor | transpose =>
      obtain ⟨x, -, hx⟩ := exists_of_onOne h
      cases hx
      exact .tensor _
  | convertToNative =>
      obtain ⟨x, -, hx⟩ := exists_of_onOne h
      cases hx
      exact x.literal_toNative.plain
  | negative | reciprocal =>
      obtain ⟨x, -, hx⟩ := exists_of_onOne h
      obtain ⟨t, -, ht⟩ := exists_of_bind_eq_ok hx
      cases ht
      exact Value.plain_ofResult t
  | mean | sum =>
      obtain ⟨x, -, hx⟩ := exists_of_onOne h
      obtain ⟨s, -, hs⟩ := exists_of_bind_eq_ok hx
      cases hs
      exact .scalar s
  | shape =>
      obtain ⟨x, -, hx⟩ := exists_of_onOne h
      cases hx
      exact x.literal_shape.plain

end Capability

end ArrayExpr
