import ArrayExpr.Capability.Run
import ArrayExpr.Resolution
import ArrayExpr.Value.Merge

/-!
Evaluation. A token is evaluated in a numbered scope. A call of a closure gets a copy of the scope
the closure was made in, with the parameter bound. A call that fails becomes an issue at the place
of the call and gives the failure value.

Evaluations and calls nest to a given depth; meeting the limit is a fault of its own.
-/

namespace ArrayExpr

/-- Carries out what a function of the host does. -/
def respond (call : Value → List Value → Run Value) (source : Foreign) : Response → Run Value
  | .ok value => pure value
  | .error fault => Run.raise (some source) fault
  | .call f arguments handles next => do
    respond call source (next (← Run.attempt handles (call f arguments)))
  | .review next => do
    respond call source (next (← get).calls)

/-- Calls a function that is not written in the program. -/
def callForeign (rt : Runtime) (call : Value → List Value → Run Value) (f : Foreign)
    (arguments : List Value) : Run Value :=
  match arguments with
  | [argument] =>
    match f with
    | .passThrough => pure argument
    | .capability c => do
      modify (·.noteCall f)
      let value ← Run.liftFrom (some f) (c.run argument)
      Run.marking fun mark => .ok (value.marked mark)
    | .host name => do
      modify (·.noteCall f)
      respond call f (rt.host name argument)
  | [] => Run.raise none (.missingArgument f.signature.1 f.signature.2)
  | _ => Run.raise none (.surplusArguments f.signature.1 1 arguments.length)

/-- Calls functions from the last to the first: the last gets the arguments, and each one before it
the result so far. No functions let their argument through. -/
def pipeline (call : Value → List Value → Run Value) (functions arguments : List Value) :
    Run Value :=
  match functions.reverse with
  | [] => call (.foreign .passThrough) arguments
  | last :: others => do
    let first ← call last arguments
    others.foldlM (fun result f => call f [result]) first

/-- Opens a scope for a call of a closure: a copy of the scope it was made in with the parameter
bound. -/
def openScope (parameter : Json) (natal : Nat) (argument : Value) : Run Nat := do
  let key ← Run.lift parameter.toKey
  let m ← get
  set (m.addScope (key.insert argument (m.scope natal)))
  return m.scopes.length

/-- Evaluates the members of a program and merges what they give. -/
def mergeMembers (evaluate : Token → Run Value) : Scope → List Token → Run Scope
  | entries, [] => pure entries
  | entries, member :: members => do
    let value ← evaluate member
    let entries ← Run.marking fun mark => value.merge mark entries
    mergeMembers evaluate entries members

/-- The value of a name in a scope; a name that is not bound is a warning and gives none. -/
def refer (rt : Runtime) (scope : Nat) (name : String) : Run Value := do
  let m ← get
  match Key.lookup? (.str name) (rt.merged (m.scope scope)) with
  | some value => return value
  | none =>
    Run.reportBy (·.warn ("Cannot resolve \"" ++ name ++ "\".") [])
    return .none

/-- One operand, or two. -/
inductive Operands (α : Type) where
  | one (operand : α)
  | two (left right : α)

namespace Operands

def toList {α : Type} : Operands α → List α
  | .one operand => [operand]
  | .two left right => [left, right]

/-- Evaluates operands from left to right. -/
def evaluate (evaluate : Token → Run Value) : Operands Token → Run (Operands Value)
  | .one operand => do return .one (← evaluate operand)
  | .two left right => do
    let a ← evaluate left
    let b ← evaluate right
    return .two a b

def argument : Operands Value → Value
  | .one operand => operand
  | .two left right => .dict [(.str "a", left), (.str "b", right)]

end Operands

section Step

-- `evaluate` and `call` stand for evaluations and calls one level further down; there texts may nest
-- `room` deep.
variable (rt : Runtime) (room : Nat) (evaluate : Token → Run Value)
  (call : Value → List Value → Run Value) (scope : Nat)

/-- Evaluates operands, finds the function of a call, and calls it; a failure becomes an issue at the
place of the call. -/
def operate (span : Span) (callee : Callee) (operands : Operands Token) : Run Value := do
  let argument := (← operands.evaluate evaluate).argument
  let f ← callee.resolve rt scope
  Run.safely span (call f [argument])

def composeNamed (names : List String) : Run Value := do
  let bindings := rt.merged ((← get).scope scope)
  return .composition names (← names.mapM fun name => resolve bindings (.str name))

/-- Evaluates a token whose parts are evaluated by `evaluate`. -/
def evaluateBy : Token → Run Value
  | .program _ members => do return .dict (← mergeMembers evaluate [] members)
  | .assignment _ path value => do
    let name ← Run.lift ((← evaluate path).shownWithin room)
    let value ← evaluate value
    modify (·.bind scope (.str name) value)
    return .dict [(.str name, value)]
  | .reference _ path => do refer rt scope (← Run.lift ((← evaluate path).shownWithin room))
  | .path _ segments => return .str ("/".intercalate segments)
  | .function _ parameter body => return .closure parameter body scope
  | .composition _ names => composeNamed rt scope names
  | .literal _ value => return .ofJson value
  | .object _ content => evaluate content
  | .unknown _ kind raw => do
    let text ← Run.lift ((Json.object raw).quotedWithin room)
    return .str ("Unrecognized token: " ++ kind ++ ", rest: " ++ text)
  | .application span name argument =>
    operate rt evaluate call scope span (.named name) (.one argument)
  | .binary span operator left right =>
    operate rt evaluate call scope span (.operator operator 2) (.two left right)
  | .unary span operator operand =>
    operate rt evaluate call scope span (.operator operator 1) (.one operand)
  | .conversion span operand =>
    operate rt evaluate call scope span (.provided "Tensor") (.one operand)

/-- Calls a value with arguments: closures evaluate their body in a new scope by `enter`. -/
def callBy (enter : Token → Nat → Run Value) (f : Value) (arguments : List Value) : Run Value :=
  match f with
  | .closure parameter body natal =>
    match arguments with
    | [argument] => do enter body (← openScope parameter natal argument)
    | [] => Run.raise none (.missingArgument "Closure.__call__" "arg")
    | _ => Run.raise none (.surplusArguments "Closure.__call__" 2 (arguments.length + 1))
  | .composition _ functions => pipeline call functions arguments
  | .foreign f => callForeign rt call f arguments
  | other => Run.raise none (.notCallable other.typeName)

end Step

mutual

/-- Evaluates a token in a numbered scope. -/
def evaluate (rt : Runtime) (depth : Nat) (token : Token) (scope : Nat) : Run Value :=
  match depth with
  | 0 => Run.raise none .tooDeep
  | depth + 1 =>
    evaluateBy rt (writingRoom depth) (evaluate rt depth · scope) (call rt depth) scope token

/-- Calls a value with arguments. -/
def call (rt : Runtime) (depth : Nat) (f : Value) (arguments : List Value) : Run Value :=
  match depth with
  | 0 => Run.raise none .tooDeep
  | depth + 1 => callBy rt (call rt depth) (evaluate rt depth) f arguments

end

end ArrayExpr
