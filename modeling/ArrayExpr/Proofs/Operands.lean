import ArrayExpr.Proofs.Scope
import ArrayExpr.Proofs.Causes

/-!
What the capabilities with two operands say of an argument that is not a pair of operands. All but
tensors and their elements are refused with the same words (`refused_alike_iff`). A tensor and an
element are asked for an entry by name before, and fail with faults of their own.
-/

namespace ArrayExpr

/-- The capabilities with two operands, each with the name of the operation behind it. -/
def Capability.onPairs : List (Capability × String) :=
  [(.add, "add"), (.subtract, "subtract"), (.multiply, "multiply"), (.divide, "_divide"),
    (.power, "power"), (.modulus, "_modulus"), (.matrixMultiply, "_matrix_multiply")]

namespace Value

/-- A mapping that holds a left and a right operand. -/
def HoldsOperands (v : Value) : Prop :=
  ∃ entries, v = .dict entries ∧ .str "a" ∈ entries.map Prod.fst ∧ .str "b" ∈ entries.map Prod.fst

def isArray : Value → Bool
  | .tensor _ | .scalar _ => true
  | .undefined u => u.isElement
  | _ => false

theorem not_holdsOperands {v : Value} (h : ∀ entries, v ≠ .dict entries) : ¬ v.HoldsOperands := by
  rintro ⟨entries, rfl, -⟩
  exact h entries rfl

end Value

/-- A text is looked up with success exactly where it is a key. -/
theorem Key.exists_lookup?_str_iff {α : Type} {s : String} {entries : List (Key × α)} :
    (∃ v, Key.lookup? (.str s) entries = some v) ↔ .str s ∈ entries.map Prod.fst := by
  induction entries with
  | nil => simp [lookup?]
  | cons e rest ih =>
      rw [lookup?_cons, List.map_cons, List.mem_cons]
      by_cases hkey : e.1 = .str s
      · simp [hkey, same_self]
      · have hsame : e.1.same (.str s) = false := by
          rw [Bool.eq_false_iff, ne_eq, same_str]
          exact hkey
        simp only [hsame, Bool.false_eq_true, if_false, ih, Ne.symm hkey, false_or]

namespace Capability

/-- The operands that a mapping holds are found. -/
theorem exists_operands {v : Value} (h : v.HoldsOperands) (c : Capability) :
    ∃ a b, c.operands v = .ok (a, b) := by
  obtain ⟨entries, rfl, ha, hb⟩ := h
  obtain ⟨a, hleft⟩ := Key.exists_lookup?_str_iff.mpr ha
  obtain ⟨b, hright⟩ := Key.exists_lookup?_str_iff.mpr hb
  exact ⟨a, b, by simp [operands, hleft, hright]⟩

/-- What is neither an array nor a mapping with both operands is refused. -/
theorem operands_of_not_holdsOperands {v : Value} (h : ¬ v.HoldsOperands)
    (harray : v.isArray = false) (c : Capability) :
    c.operands v = .error (.notOperands c.operandName) := by
  cases v with
  | dict entries =>
      cases hleft : Key.lookup? (.str "a") entries with
      | none => simp [operands, hleft]
      | some a =>
          cases hright : Key.lookup? (.str "b") entries with
          | none => simp [operands, hleft, hright]
          | some b =>
              have ha := Key.exists_lookup?_str_iff.mp ⟨a, hleft⟩
              have hb := Key.exists_lookup?_str_iff.mp ⟨b, hright⟩
              exact absurd ⟨entries, rfl, ha, hb⟩ h
  | tensor | scalar => cases harray
  | undefined u =>
      rcases u with ⟨mark, _ | _⟩
      · rfl
      · cases harray
  | _ => rfl

def arrayFault : Value → Fault
  | .tensor _ => .tensorIndex
  | _ => .scalarIndex

theorem className_arrayFault (v : Value) : (arrayFault v).className = "IndexError" := by
  cases v <;> rfl

theorem operands_of_isArray {v : Value} (h : v.isArray = true) (c : Capability) :
    c.operands v = .error (arrayFault v) := by
  cases v with
  | tensor | scalar => rfl
  | undefined u =>
      rcases u with ⟨mark, _ | _⟩
      · cases h
      · rfl
  | _ => cases h

/-- A capability with two operands looks for them first; with both at hand it can only fail by their
making no tensors or by the operation on tensors. -/
theorem exists_onPair {c : Capability} {name : String} (hc : (c, name) ∈ onPairs) :
    c.operandName = name ∧ ∃ f : Tensor → Tensor → Except Fault Tensor,
      c.run = c.onPair f ∧ ∀ x y, Numeric (f x y) := by
  have hname : c.operandName = name := by
    revert hc
    cases c <;> simp [onPairs, operandName, eq_comm]
  refine ⟨hname, ?_⟩
  cases c with
  | add | subtract | multiply | divide | power | modulus =>
      exact ⟨_, rfl, Operation.numeric_apply _⟩
  | matrixMultiply => exact ⟨_, rfl, Tensor.numeric_product⟩
  | tensor | convertToNative | negative | reciprocal | mean | sum | transpose | shape =>
      simp [onPairs] at hc

theorem onPair_of_error {c : Capability} {f : Tensor → Tensor → Except Fault Tensor} {v : Value}
    {fault : Fault} (h : c.operands v = .error fault) : c.onPair f v = .error fault := by
  rw [onPair, h]
  rfl

/-- **Arguments that are not pairs of operands are refused alike, arrays apart.** A capability with two
operands says that its operation needs a left and a right operand of exactly those values that are
neither mappings with both nor tensors or elements of tensors. A tensor or an element is a fault of
indexing, and where both operands are at hand a fault is one of making tensors or computing with
them. -/
theorem refused_alike_iff {c : Capability} {name : String} (hc : (c, name) ∈ onPairs) (v : Value) :
    (c.run v = .error (.notOperands name) ↔ ¬ v.HoldsOperands ∧ v.isArray = false) ∧
      (Fault.notOperands name).className = "TypeError" ∧
      (Fault.notOperands name).message = name ++ " needs a left and a right operand." ∧
      (v.isArray = true → c.run v = .error (arrayFault v) ∧ (arrayFault v).className = "IndexError") ∧
      (v.HoldsOperands → Numeric (c.run v)) := by
  obtain ⟨rfl, f, hrun, hf⟩ := exists_onPair hc
  rw [hrun]
  have harray : v.isArray = true → c.onPair f v = .error (arrayFault v) := fun h =>
    onPair_of_error (operands_of_isArray h c)
  have hpair : v.HoldsOperands → Numeric (c.onPair f v) := by
    intro hholds
    obtain ⟨a, b, hoperands⟩ := exists_operands hholds c
    rw [onPair, hoperands]
    exact numeric_onOperands hf a b
  refine ⟨⟨fun hrefused => ⟨fun hholds => ?_, ?_⟩, ?_⟩, rfl, rfl,
    fun h => ⟨harray h, className_arrayFault v⟩, hpair⟩
  · cases hpair hholds _ hrefused
  · rw [Bool.eq_false_iff]
    intro h
    rw [harray h] at hrefused
    cases v <;> cases hrefused
  · rintro ⟨hholds, h⟩
    exact onPair_of_error (operands_of_not_holdsOperands hholds h c)

/-- A list is refused with the words for it, and the same list as a tensor is not. -/
theorem refused_alike_iff_tensor :
    let list : Value := .list [.int 1, .int 2]
    let tensor : Value := .tensor ⟨[2], .ints .int64 [1, 2], [0]⟩
    (Capability.divide, "_divide") ∈ onPairs ∧
      divide.run list = .error (.notOperands "_divide") ∧ divide.run tensor = .error .tensorIndex := by
  intro list tensor
  have hc : (Capability.divide, "_divide") ∈ onPairs := by decide
  have hlist : ¬ list.HoldsOperands := Value.not_holdsOperands nofun
  exact ⟨hc, (refused_alike_iff hc list).1.mpr ⟨hlist, rfl⟩, ((refused_alike_iff hc tensor).2.2.2.1 rfl).1⟩

end Capability

end ArrayExpr
