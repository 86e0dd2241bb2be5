import ArrayExpr.Report
import ArrayExpr.Value.Basic

/-!
The state of a run. A machine holds numbered scopes, a report, the calls made and the faults raised
so far, and keeps all of them when a computation fails. Closures refer to the scope they were made in
by its number, so that later assignments there are seen.
-/

namespace ArrayExpr

/-- The bindings of a scope, in the order in which the names were first bound. -/
abbrev Scope := List (Key × Value)

/-- What a function of the host does with its argument: it gives a value or fails. Before that it may
call functions, of whose faults it handles some and lets the others pass, and it may go by the calls
made so far. -/
inductive Response where
  | ok (value : Value)
  | error (fault : Fault)
  | call (f : Value) (arguments : List Value) (handles : Fault → Bool)
      (next : Except Fault Value → Response)
  | review (next : List Foreign → Response)

instance : Coe (Except Fault Value) Response where
  coe
    | .ok value => .ok value
    | .error fault => .error fault

/-- A response in which all functions of programs that are called or returned have bodies with a
property, as long as those have that it hears of. -/
def Response.BodiesIn (p : Token → Prop) : Response → Prop
  | .ok value => value.BodiesIn p
  | .error _ => True
  | .call f arguments _ next =>
    f.BodiesIn p ∧ (∀ a ∈ arguments, a.BodiesIn p) ∧
      (∀ v, v.BodiesIn p → (next (.ok v)).BodiesIn p) ∧ ∀ fault, (next (.error fault)).BodiesIn p
  | .review next => ∀ calls, (next calls).BodiesIn p

/-- What a run reads: the values that the runtime binds to names, each name once, and what the functions
of the host do. A function of another program works in scopes and reports of its own and is one of the host's, so a
closure always belongs to the program that runs: the runtime binds none and its functions make up none.
-/
structure Runtime where
  bound : List (String × Value)
  host : String → Value → Response
  bound_nodup : (bound.map Prod.fst).Nodup
  bound_bodiesIn (p : Token → Prop) : ∀ e ∈ bound, e.2.BodiesIn p
  host_bodiesIn (p : Token → Prop) (name : String) {argument : Value} :
    argument.BodiesIn p → (host name argument).BodiesIn p

/-- The names that a runtime binds, as a program sees them. -/
def Runtime.bindings (rt : Runtime) : Scope :=
  rt.bound.map fun e => (.str e.1, e.2)

/-- What a run changes: the scopes by number, the report, the calls of foreign functions in order,
the faults raised in order, each with the foreign function that raised it if one did, and the next
mark for an undefined number. -/
structure Machine where
  scopes : List Scope := [[]]
  report : Report := {}
  calls : List Foreign := []
  raised : List (Option Foreign × Fault) := []
  mark : Nat := 0

namespace Machine

def scope (m : Machine) (i : Nat) : Scope :=
  m.scopes.getD i []

def bind (m : Machine) (i : Nat) (key : Key) (value : Value) : Machine :=
  { m with scopes := m.scopes.modify i (key.insert value) }

/-- Adds a scope; its number is the number of scopes before. -/
def addScope (m : Machine) (scope : Scope) : Machine :=
  { m with scopes := m.scopes ++ [scope] }

def noteCall (m : Machine) (f : Foreign) : Machine :=
  { m with calls := m.calls ++ [f] }

/-- Notes a fault, and the foreign function that raised it if one did. -/
def noteFault (m : Machine) (source : Option Foreign) (fault : Fault) : Machine :=
  { m with raised := m.raised ++ [(source, fault)] }

def exhausted (m : Machine) : Bool :=
  m.raised.any fun e => e.2.isTooDeep

def hostCalls (m : Machine) : List String :=
  m.calls.filterMap fun f =>
    match f with
    | .host name => some name
    | _ => none

end Machine

/-- A computation that may change the machine and may fail; the changes stay when it fails. -/
abbrev Run := ExceptT Fault (StateM Machine)

namespace Run

/-- Fails with a fault, raised by a foreign function if one is given. -/
def raise {α : Type} (source : Option Foreign) (fault : Fault) : Run α := do
  modify (·.noteFault source fault)
  throw fault

/-- A result or a fault, raised by a foreign function if one is given. -/
def liftFrom {α : Type} (source : Option Foreign) : Except Fault α → Run α
  | .ok a => pure a
  | .error fault => raise source fault

/-- A result or a fault. -/
def lift {α : Type} (result : Except Fault α) : Run α :=
  liftFrom none result

def marking {α : Type} (f : Nat → Except Fault (α × Nat)) : Run α := do
  let (a, mark) ← lift (f (← get).mark)
  modify fun m => { m with mark }
  return a

def reportBy (f : Report → Report) : Run Unit :=
  modify fun m => { m with report := f m.report }

/-- The result of a computation, or its fault if it is one of those that are handled. -/
def attempt {α : Type} (handles : Fault → Bool) (act : Run α) : Run (Except Fault α) :=
  tryCatch (Except.ok <$> act) fun fault =>
    if handles fault then return .error fault else throw fault

/-- A computation whose failure becomes an issue at a place and gives the failure value. -/
def safely (span : Span) (act : Run Value) : Run Value :=
  tryCatch act fun fault => do
    reportBy (·.issue span fault.report)
    return .failure

end Run

end ArrayExpr
