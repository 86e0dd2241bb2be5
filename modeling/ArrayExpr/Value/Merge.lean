import ArrayExpr.Value.Basic

/-!
Merging a value into a mapping. A mapping adds its entries; a sequence adds a pair for each of its
members, which have to be sequences of two. Text is a sequence of characters, a mapping a sequence
of keys, a tensor a sequence of its parts along the first axis.
-/

namespace ArrayExpr.Value

/-- The parts of a tensor with axes, as values. -/
def parts (t : Tensor) : List Value :=
  t.rows.map ofResult

/-- The members of a value, if it has any. -/
def members? : Value → Option (List Value)
  | .list items => some items
  | .str s => some (s.toList.map fun c => .str (String.ofList [c]))
  | .dict entries => some (entries.map fun e => e.1.toValue)
  | .tensor t => if t.shape.isEmpty then Option.none else some (parts t)
  | _ => Option.none

/-- A value as a key. An undefined element is made when it is taken out of its tensor, and gets the
given mark. Also the next mark. -/
def toMarkedKey (mark : Nat) (v : Value) : Except Fault (Key × Nat) :=
  match v with
  | .scalar (.float x) =>
    .ok (if x.isNaN then (.undefined ⟨mark, true⟩, mark + 1) else (.scalar (.float x), mark))
  | v => do return (← v.toKey, mark)

/-- Adds the pairs of a sequence to a mapping, `position` being that of the first and `mark` the next
mark. -/
def mergePairs (mark position : Nat) (entries : List (Key × Value)) :
    List Value → Except Fault (List (Key × Value) × Nat)
  | [] => .ok (entries, mark)
  | item :: items =>
    match members? item with
    | Option.none => .error (.notSequence position)
    | some [k, v] => do
      let (key, next) ← k.toMarkedKey mark
      mergePairs next (position + 1) (key.insert v entries) items
    | some other => .error (.notPair position other.length)

/-- Adds the entries that a value stands for to a mapping, `mark` being the next mark. -/
def merge (mark : Nat) (entries : List (Key × Value)) (value : Value) :
    Except Fault (List (Key × Value) × Nat) :=
  match value with
  | .dict news => .ok (Key.insertAll news entries, mark)
  | .tensor t =>
    if t.shape.isEmpty then .error .noRows else mergePairs mark 0 entries (parts t)
  | v =>
    match members? v with
    | some items => mergePairs mark 0 entries items
    | Option.none => .error (.notIterable v.typeName)

end ArrayExpr.Value
