import ArrayExpr.Machine
import ArrayExpr.Value.Display

/-!
Finding functions by name and operators by symbol. Names that the runtime binds hide the names of
the program. Nothing that is looked for in vain is a fault: it becomes a warning, and a function
that is not found lets its argument through. Only a warning whose text cannot be written is a fault.
-/

namespace ArrayExpr

/-- The bindings of a scope with those of the runtime, which win. -/
def Runtime.merged (rt : Runtime) (scope : Scope) : Scope :=
  Key.insertAll rt.bindings scope

def Json.toKey (j : Json) : Except Fault Key :=
  (Value.ofJson j).toKey

/-- The names of a scope in alphabetical order; a number with too many digits is a fault. -/
def sortedNames (scope : Scope) : Except Fault (List String) :=
  if scope.all fun e => e.1.obstacle?.isNone then
    .ok ((scope.map fun e => e.1.shown).mergeSort fun a b => !(b < a))
  else .error .longNumeral

/-- What a name is bound to among bindings. Plain data that is no key is a fault; nothing is bound to
the missing name. -/
def find (bindings : Scope) : Json → Run (Option Value)
  | .null => return none
  | name => do return (← Run.lift name.toKey).lookup? bindings

/-- The function of a name among bindings. A name that is not bound is a warning, and stands for
the function that lets its argument through. -/
def resolve (bindings : Scope) (name : Json) : Run Value := do
  match ← find bindings name with
  | some f => return f
  | none =>
    let text ← Run.lift (name.shownWithin textLimit)
    let names ← Run.lift (sortedNames bindings)
    Run.reportBy (·.warn ("Foreign function \"" ++ text ++ "\" not found! Passing through...")
      ["Properties: " ++ ", ".intercalate names])
    return .foreign .passThrough

def operatorsOf (arity : Key) : Option (List (String × String)) :=
  if arity.same (.int 1) then some unaryOperators
  else if arity.same (.int 2) then some binaryOperators
  else none

def namedBy? (table : List (String × String)) : Key → Option String
  | .str symbol => (table.find? fun e => e.1 == symbol).map Prod.snd
  | _ => none

def findOperator (symbol arity : Json) : Run (Option String) := do
  match operatorsOf (← Run.lift arity.toKey) with
  | none => return none
  | some table => return namedBy? table (← Run.lift symbol.toKey)

/-- The name behind an operator of an arity, as plain data. An operator without one is a warning. -/
def operatorName (symbol arity : Json) : Run Json := do
  match ← findOperator symbol arity with
  | some name => return .str name
  | none =>
    let symbol ← Run.lift (symbol.shownWithin textLimit)
    let arity ← Run.lift (arity.shownWithin textLimit)
    Run.reportBy (·.warn ("Operator \"" ++ symbol ++
      "\" does not have an associated function for arity " ++ arity ++ ".") [])
    return .null

/-- Where the function of a call is looked for: by a name in the scope of the call, by an operator with
so many operands, or by a name of the runtime. -/
inductive Callee where
  | named (name : Json)
  | operator (symbol : Json) (arity : Int)
  | provided (name : String)

def Callee.resolve (rt : Runtime) (scope : Nat) : Callee → Run Value
  | .named name => do ArrayExpr.resolve (rt.merged ((← get).scope scope)) name
  | .operator symbol arity => do
    ArrayExpr.resolve rt.bindings (← operatorName symbol (.int arity))
  | .provided name => ArrayExpr.resolve rt.bindings (.str name)

end ArrayExpr
