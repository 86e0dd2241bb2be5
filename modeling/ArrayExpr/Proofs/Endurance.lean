import ArrayExpr.Proofs.Orderly
import ArrayExpr.Proofs.Outcome

/-!
Failures are not fatal. Only calls are guarded, so that an orderly token may still fail outside of every
guard, but in two ways alone: it nests too deep, or it names something by a value whose text cannot be
written. A text that nests too deep meets the same limit as a tree that does; a number with too many
digits is a failure of its own.
-/

namespace ArrayExpr

theorem Fault.className_of_isUnwritable {fault : Fault} (h : fault.isUnwritable = true) :
    fault.className = "RecursionError" ∨ fault = .longNumeral ∧ fault.className = "ValueError" := by
  cases fault with
  | deepText => exact .inl rfl
  | longNumeral => exact .inr ⟨rfl, rfl⟩
  | _ => cases h

end ArrayExpr
