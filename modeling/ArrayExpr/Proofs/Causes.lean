import ArrayExpr.Capability.Run
import ArrayExpr.Proofs.Run
import ArrayExpr.Resolution
import ArrayExpr.Value.Merge

/-!
Causes of failure by sort. Whatever fails has a class with a name, so an issue always says something.
Only a limit keeps a text from being written, and where there is more room only a lack of room is mended
by it. A capability that has its operands at hand fails only in making tensors of them or in computing
with tensors.
-/

namespace ArrayExpr

namespace Fault

theorem className_ne_empty (fault : Fault) : fault.className ≠ "" := by
  cases fault with
  | raised kind text => exact kind.2
  | _ => simp [className]

/-- An issue says something, whatever its cause. -/
theorem report_ne_empty (fault : Fault) : fault.report ≠ "" := by
  unfold report
  split
  · exact fault.className_ne_empty
  · rename_i hmessage
    intro hempty
    exact hmessage (by rw [hempty]; rfl)

end Fault

def FailsOnly {α : Type} (sort : Fault → Bool) (result : Except Fault α) : Prop :=
  ∀ fault, result = .error fault → sort fault = true

namespace FailsOnly

variable {α β : Type} {sort sort' : Fault → Bool} {x : Except Fault α}

theorem ok (a : α) : FailsOnly sort (.ok a) :=
  nofun

theorem error {fault : Fault} (h : sort fault = true) :
    FailsOnly sort (.error fault : Except Fault α) := by
  rintro _ ⟨⟩
  exact h

theorem bind {f : α → Except Fault β} (hx : FailsOnly sort x) (hf : ∀ a, FailsOnly sort (f a)) :
    FailsOnly sort (x >>= f) := by
  cases x with
  | ok a => exact hf a
  | error fault => exact error (hx fault rfl)

theorem imp (hx : FailsOnly sort x) (h : ∀ fault, sort fault = true → sort' fault = true) :
    FailsOnly sort' x :=
  fun fault hfault => h fault (hx fault hfault)

theorem written {text : String} {obstacle? : Option Fault}
    (h : ∀ fault, obstacle? = some fault → sort fault = true) :
    FailsOnly sort (ArrayExpr.written text obstacle?) := by
  cases obstacle? with
  | none => exact ok text
  | some fault => exact error (h fault rfl)

end FailsOnly

/-! ### Texts -/

def Fault.isUnwritable : Fault → Bool
  | deepText | longNumeral => true
  | _ => false

theorem eq_of_written_eq_ok {text s : String} {obstacle? : Option Fault}
    (h : written text obstacle? = .ok s) : s = text := by
  cases obstacle? with
  | none =>
      cases h
      rfl
  | some fault => cases h

/-- What keeps something from being written with more room: the same, unless it was the lack of room. -/
def Eases (before after : Option Fault) : Prop :=
  before = some .deepText ∨ after = before

theorem Eases.refl (o : Option Fault) : Eases o o :=
  .inr rfl

theorem Eases.or {a a' b b' : Option Fault} (ha : Eases a a') (hb : Eases b b') :
    Eases (a.or b) (a'.or b') := by
  obtain rfl | rfl := ha
  · exact .inl rfl
  · cases a' with
    | some fault => exact .inr rfl
    | none => exact hb

theorem Eases.written {o o' : Option Fault} (h : Eases o o') (text : String) :
    ArrayExpr.written text o = .error .deepText ∨ ArrayExpr.written text o' = ArrayExpr.written text o := by
  obtain rfl | rfl := h
  · exact .inl rfl
  · exact .inr rfl

theorem numeralObstacle?_eq_some {n : Int} {fault : Fault} (h : numeralObstacle? n = some fault) :
    fault = .longNumeral := by
  unfold numeralObstacle? at h
  split at h
  · cases h
  · exact (Option.some.inj h).symm

theorem isUnwritable_of_numeralObstacle? {n : Int} {fault : Fault}
    (h : numeralObstacle? n = some fault) : fault.isUnwritable = true := by
  rw [numeralObstacle?_eq_some h]
  rfl

theorem isUnwritable_of_or {a b : Option Fault} (ha : ∀ fault, a = some fault → fault.isUnwritable = true)
    (hb : ∀ fault, b = some fault → fault.isUnwritable = true) {fault : Fault} (h : a.or b = some fault) :
    fault.isUnwritable = true := by
  cases a with
  | some other => exact ha fault h
  | none => exact hb fault h

namespace Json

mutual

theorem obstacle?_eases {room room' : Nat} (h : room ≤ room') (j : Json) :
    Eases (j.obstacle? room) (j.obstacle? room') := by
  match j with
  | .null | .bool _ | .float _ | .str _ | .int _ =>
      simp only [obstacle?]
      exact .refl _
  | .list items =>
      cases room with
      | zero => exact .inl rfl
      | succ room =>
          obtain ⟨room', rfl⟩ := Nat.exists_eq_add_one_of_ne_zero (Nat.ne_zero_of_lt h)
          exact obstacleOfItems?_eases (Nat.le_of_succ_le_succ h) items
  | .object entries =>
      cases room with
      | zero => exact .inl rfl
      | succ room =>
          obtain ⟨room', rfl⟩ := Nat.exists_eq_add_one_of_ne_zero (Nat.ne_zero_of_lt h)
          exact obstacleOfEntries?_eases (Nat.le_of_succ_le_succ h) entries

theorem obstacleOfItems?_eases {room room' : Nat} (h : room ≤ room') (items : List Json) :
    Eases (obstacleOfItems? room items) (obstacleOfItems? room' items) := by
  match items with
  | [] => exact .refl _
  | j :: js => exact (obstacle?_eases h j).or (obstacleOfItems?_eases h js)

theorem obstacleOfEntries?_eases {room room' : Nat} (h : room ≤ room')
    (entries : List (String × Json)) :
    Eases (obstacleOfEntries? room entries) (obstacleOfEntries? room' entries) := by
  match entries with
  | [] => exact .refl _
  | (_, j) :: rest => exact (obstacle?_eases h j).or (obstacleOfEntries?_eases h rest)

end

mutual

theorem isUnwritable_of_obstacle? (room : Nat) (j : Json) (fault : Fault)
    (h : j.obstacle? room = some fault) : fault.isUnwritable = true := by
  match j with
  | .null | .bool _ | .float _ | .str _ => cases h
  | .int n => exact isUnwritable_of_numeralObstacle? h
  | .list items =>
      cases room with
      | zero => cases h; rfl
      | succ room => exact isUnwritable_of_obstacleOfItems? room items fault h
  | .object entries =>
      cases room with
      | zero => cases h; rfl
      | succ room => exact isUnwritable_of_obstacleOfEntries? room entries fault h

theorem isUnwritable_of_obstacleOfItems? (room : Nat) (items : List Json) (fault : Fault)
    (h : obstacleOfItems? room items = some fault) : fault.isUnwritable = true := by
  match items with
  | [] => cases h
  | j :: js =>
      exact isUnwritable_of_or (isUnwritable_of_obstacle? room j) (isUnwritable_of_obstacleOfItems? room js) h

theorem isUnwritable_of_obstacleOfEntries? (room : Nat) (entries : List (String × Json)) (fault : Fault)
    (h : obstacleOfEntries? room entries = some fault) : fault.isUnwritable = true := by
  match entries with
  | [] => cases h
  | (_, j) :: rest =>
      exact isUnwritable_of_or (isUnwritable_of_obstacle? room j) (isUnwritable_of_obstacleOfEntries? room rest) h

end

/-- With more room the text is the same, unless room was what it lacked. -/
theorem quotedWithin_of_le {room room' : Nat} (h : room ≤ room') (j : Json) :
    j.quotedWithin room = .error .deepText ∨ j.quotedWithin room' = j.quotedWithin room :=
  (obstacle?_eases h j).written _

theorem writable_shownWithin (room : Nat) (j : Json) :
    FailsOnly Fault.isUnwritable (j.shownWithin room) :=
  .written (isUnwritable_of_obstacle? room j)

theorem writable_quotedWithin (room : Nat) (j : Json) :
    FailsOnly Fault.isUnwritable (j.quotedWithin room) :=
  .written (isUnwritable_of_obstacle? room j)

end Json

theorem Key.isUnwritable_of_obstacle? (k : Key) (fault : Fault) (h : k.obstacle? = some fault) :
    fault.isUnwritable = true := by
  cases k with
  | int n => exact isUnwritable_of_numeralObstacle? h
  | _ => cases h

namespace Value

mutual

theorem obstacle?_eases {room room' : Nat} (h : room ≤ room') (v : Value) :
    Eases (v.obstacle? room) (v.obstacle? room') := by
  match v with
  | .none | .bool _ | .int _ | .float _ | .str _ | .tensor _ | .scalar _ | .undefined _ | .failure
  | .composition .. | .foreign _ =>
      simp only [obstacle?]
      exact .refl _
  | .closure parameter _ _ =>
      simp only [obstacle?]
      exact parameter.obstacle?_eases h
  | .list items =>
      cases room with
      | zero => exact .inl rfl
      | succ room =>
          obtain ⟨room', rfl⟩ := Nat.exists_eq_add_one_of_ne_zero (Nat.ne_zero_of_lt h)
          exact obstacleOfItems?_eases (Nat.le_of_succ_le_succ h) items
  | .dict entries =>
      cases room with
      | zero => exact .inl rfl
      | succ room =>
          obtain ⟨room', rfl⟩ := Nat.exists_eq_add_one_of_ne_zero (Nat.ne_zero_of_lt h)
          exact obstacleOfEntries?_eases (Nat.le_of_succ_le_succ h) entries

theorem obstacleOfItems?_eases {room room' : Nat} (h : room ≤ room') (items : List Value) :
    Eases (obstacleOfItems? room items) (obstacleOfItems? room' items) := by
  match items with
  | [] => exact .refl _
  | v :: vs => exact (obstacle?_eases h v).or (obstacleOfItems?_eases h vs)

theorem obstacleOfEntries?_eases {room room' : Nat} (h : room ≤ room')
    (entries : List (Key × Value)) :
    Eases (obstacleOfEntries? room entries) (obstacleOfEntries? room' entries) := by
  match entries with
  | [] => exact .refl _
  | (k, v) :: rest =>
      exact ((Eases.refl k.obstacle?).or (obstacle?_eases h v)).or (obstacleOfEntries?_eases h rest)

end

mutual

theorem isUnwritable_of_obstacle? (room : Nat) (v : Value) (fault : Fault)
    (h : v.obstacle? room = some fault) : fault.isUnwritable = true := by
  match v with
  | .none | .bool _ | .float _ | .str _ | .tensor _ | .scalar _ | .undefined _ | .failure
  | .composition .. | .foreign _ => cases h
  | .int n => exact isUnwritable_of_numeralObstacle? h
  | .closure parameter _ _ => exact parameter.isUnwritable_of_obstacle? room fault h
  | .list items =>
      cases room with
      | zero => cases h; rfl
      | succ room => exact isUnwritable_of_obstacleOfItems? room items fault h
  | .dict entries =>
      cases room with
      | zero => cases h; rfl
      | succ room => exact isUnwritable_of_obstacleOfEntries? room entries fault h

theorem isUnwritable_of_obstacleOfItems? (room : Nat) (items : List Value) (fault : Fault)
    (h : obstacleOfItems? room items = some fault) : fault.isUnwritable = true := by
  match items with
  | [] => cases h
  | v :: vs =>
      exact isUnwritable_of_or (isUnwritable_of_obstacle? room v) (isUnwritable_of_obstacleOfItems? room vs) h

theorem isUnwritable_of_obstacleOfEntries? (room : Nat) (entries : List (Key × Value)) (fault : Fault)
    (h : obstacleOfEntries? room entries = some fault) : fault.isUnwritable = true := by
  match entries with
  | [] => cases h
  | (k, v) :: rest =>
      have hentry : ∀ fault, k.obstacle?.or (obstacle? room v) = some fault →
          fault.isUnwritable = true := fun _ =>
        isUnwritable_of_or k.isUnwritable_of_obstacle? (isUnwritable_of_obstacle? room v)
      exact isUnwritable_of_or hentry (isUnwritable_of_obstacleOfEntries? room rest) h

end

/-- With more room the text is the same, unless room was what it lacked. -/
theorem shownWithin_of_le {room room' : Nat} (h : room ≤ room') (v : Value) :
    v.shownWithin room = .error .deepText ∨ v.shownWithin room' = v.shownWithin room :=
  (obstacle?_eases h v).written _

theorem writable_shownWithin (room : Nat) (v : Value) :
    FailsOnly Fault.isUnwritable (v.shownWithin room) :=
  .written (isUnwritable_of_obstacle? room v)

theorem writable_quotedWithin (room : Nat) (v : Value) :
    FailsOnly Fault.isUnwritable (v.quotedWithin room) :=
  .written (isUnwritable_of_obstacle? room v)

end Value

theorem writable_sortedNames (scope : Scope) : FailsOnly Fault.isUnwritable (sortedNames scope) := by
  unfold sortedNames
  split
  · exact .ok _
  · exact .error rfl

/-! ### Capabilities -/

/-- Whether a fault is one of making a tensor or of computing with tensors. What keeps a value from being
written is one, as the complaint that it makes no tensor shows the value. -/
def Fault.isNumeric : Fault → Bool
  | notTensor _ | deepText | longNumeral | ragged _ | tooManyAxes | booleanDifference
  | booleanNegative | negativePower | signalled .. | incompatible .. | tooFewAxes _
  | innerMismatch .. | batchMismatch .. => true
  | _ => false

/-- A result, or a fault of making a tensor or of computing with tensors. -/
abbrev Numeric {α : Type} (result : Except Fault α) : Prop :=
  FailsOnly Fault.isNumeric result

theorem Signals.numeric_guard {α : Type} (s : Signals) (operation : String) (result : α) :
    Numeric (s.guard operation result) := by
  unfold guard
  split
  · exact .error rfl
  · exact .ok _

namespace Operation

theorem numeric_kind (op : Operation) (k : Kind) : Numeric (op.kind k) := by
  unfold kind
  split
  · exact .ok _
  · exact .error rfl
  · exact .ok _
  · exact .ok _
  · exact .ok _

theorem isNumeric_intFault {op : Operation} {ys : List Int} {fault : Fault}
    (h : op.intFault? ys = some fault) : fault.isNumeric = true := by
  unfold intFault? at h
  split at h
  · split at h
    · cases h; rfl
    · cases h
  · split at h
    · cases h; rfl
    · cases h
  · cases h

theorem numeric_onCells (op : Operation) (steady : Bool) (xs ys : Cells) :
    Numeric (op.onCells steady xs ys) := by
  unfold onCells
  split
  · exact .ok _
  · split
    · rename_i hfault
      exact .error (isNumeric_intFault hfault)
    · exact .ok _
  · exact .bind (Signals.numeric_guard _ _ _) fun _ => .ok _

theorem numeric_apply (op : Operation) (a b : Tensor) : Numeric (op.apply a b) := by
  refine .bind (numeric_kind op _) fun kind => ?_
  split
  · exact .error rfl
  · exact .bind (numeric_onCells op _ _ _) fun _ => .ok _

end Operation

namespace Tensor

theorem numeric_product (a b : Tensor) : Numeric (a.product b) := by
  unfold product
  split
  · exact .error rfl
  · exact .error rfl
  · split
    · exact .error rfl
    · split
      · exact .error rfl
      · refine .bind ?_ fun _ => .ok _
        unfold productCells
        split
        · exact .ok _
        · exact .ok _
        · exact .bind (Signals.numeric_guard _ _ _) fun _ => .ok _

end Tensor

theorem Value.numeric_toTensor (v : Value) : Numeric v.toTensor := by
  unfold toTensor
  split
  · exact .ok _
  · dsimp only
    split
    · split
      · exact .error rfl
      · exact .error rfl
    · split
      · refine .bind ((v.writable_quotedWithin textLimit).imp fun fault hfault => ?_) fun _ => .error rfl
        cases fault <;> first | rfl | cases hfault
      · exact .ok _

namespace Capability

/-- What a capability does with its two operands. -/
theorem numeric_onOperands {f : Tensor → Tensor → Except Fault Tensor}
    (hf : ∀ x y, Numeric (f x y)) (a b : Value) :
    Numeric (do
      let x ← a.toTensor
      let y ← b.toTensor
      let result ← f x y
      return Value.ofResult result) :=
  .bind a.numeric_toTensor fun x => .bind b.numeric_toTensor fun y =>
    .bind (hf x y) fun _ => .ok _

end Capability

end ArrayExpr
