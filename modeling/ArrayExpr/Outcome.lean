import ArrayExpr.Evaluation
import ArrayExpr.Token.Decode

/-!
One run of a program from start to end, on a machine of its own. Meeting a limit on nesting outside
of every call ends the run with an issue; every other fault that no call has met is its result.
-/

namespace ArrayExpr

/-- How deep trees, evaluations and calls may nest. -/
def nestingLimit : Nat := 330

/-- The runtime of the built-in capabilities. -/
def Runtime.standard : Runtime where
  bound := Capability.all.map fun c => (c.name, .foreign (.capability c))
  host _ value := .ok value
  bound_nodup := by decide +kernel
  bound_bodiesIn p e he := by
    obtain ⟨c, -, rfl⟩ := List.mem_map.mp he
    exact .atom rfl
  host_bodiesIn _ _ _ h := h

theorem Runtime.exists_of_mem_standard {e : Key × Value} (he : e ∈ standard.bindings) :
    ∃ c : Capability, e = (.str c.name, .foreign (.capability c)) := by
  obtain ⟨bound, hbound, rfl⟩ := List.mem_map.mp he
  obtain ⟨c, -, rfl⟩ := List.mem_map.mp hbound
  exact ⟨c, rfl⟩

/-- What a run gives: its result, and the machine with the state and the report. -/
structure Outcome where
  result : Except Fault Value
  machine : Machine

namespace Outcome

def state (o : Outcome) : Scope := o.machine.scope 0

def issues (o : Outcome) : List Issue := o.machine.report.issues

/-- The end of a run that met a limit on nesting. -/
def tooDeep (m : Machine) (span : Span) : Outcome where
  result := .ok .failure
  machine :=
    { m with
      report := m.report.issue span
        ("Program nests too deeply to evaluate: " ++ Fault.tooDeep.message) }

/-- The end of a run that came to a value. -/
def finished (m : Machine) (root : Token) (value : Value) : Outcome where
  result := .ok value
  machine :=
    { m with
      report := m.report.info
        ["Evaluated " ++ root.kind ++ " with " ++ Decimal.intText m.report.issues.length ++
          " issue(s)."] }

end Outcome

/-- Runs a token tree. -/
def interpretToken (rt : Runtime) (verbose : Bool) (root : Token) : Outcome :=
  match (evaluate rt nestingLimit root 0).run { report := { verbose } } with
  | (.ok value, m) => .finished m root value
  | (.error fault, m) => if fault.isTooDeep then .tooDeep m root.span else ⟨.error fault, m⟩

/-- Reads a token tree and runs it. -/
def interpret (rt : Runtime) (verbose : Bool) (tree : Json) : Outcome :=
  match Token.decode nestingLimit tree with
  | .ok root => interpretToken rt verbose root
  | .error fault =>
    let m : Machine := { report := { verbose }, raised := [(none, fault)] }
    if fault.isTooDeep then .tooDeep m .nowhere else ⟨.error fault, m⟩

/-- Evaluates a token in a scope of its own that starts with the entries of an object. -/
def evaluateIn (rt : Runtime) (depth : Nat) (token : Token) : Json → Run Value
  | .object entries => do
    let m ← get
    set (m.addScope (Value.ofEntries entries))
    evaluate rt depth token m.scopes.length
  | j => Run.raise none (.notEnvironment j.shown)

def callByName (rt : Runtime) (scope : Nat) (name : String) (arguments : List Value) :
    Run Value := do
  match Key.lookup? (.str name) ((← get).scope scope) with
  | some f => call rt nestingLimit f arguments
  | none => Run.raise none (.missingKey (Text.quote name))

/-- The composition of functions under names, of which there have to be as many. -/
def compose (names : List String) (functions : List Value) : Except Fault Value :=
  if names.length == functions.length then .ok (.composition names functions)
  else .error .unequalNames

end ArrayExpr
