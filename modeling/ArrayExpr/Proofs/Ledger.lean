import ArrayExpr.Proofs.Outcome

/-!
The ledger of failures. Of a function of the host that always fails with one text, every call is on
record, every call has raised a fault, and every fault with that text has become one issue, unless it
is still on its way. A run that gives a result leaves none on its way, so no failure is lost and none
is reported twice, by whichever way the function was reached.
-/

namespace ArrayExpr

namespace Response

/-- A response that is a fault with this text in any case. -/
def Fails (text : String) : Response → Prop
  | .ok _ | .call .. => False
  | .error fault => fault.report = text
  | .review next => ∀ calls, (next calls).Fails text

/-- A response that handles no fault with this text, but lets it pass. -/
def Passes (text : String) : Response → Prop
  | .ok _ | .error _ => True
  | .call _ _ handles next =>
    (∀ fault : Fault, fault.report = text → handles fault = false) ∧
      ∀ result, (next result).Passes text
  | .review next => ∀ calls, (next calls).Passes text

end Response

theorem respond_of_fails {text : String} (call : Value → List Value → Run Value) (source : Foreign)
    {r : Response} (hr : r.Fails text) (m : Machine) :
    ∃ fault : Fault, fault.report = text ∧
      (respond call source r).run m = (.error fault, m.noteFault (some source) fault) := by
  induction r with
  | ok => cases hr
  | error fault => exact ⟨fault, hr, rfl⟩
  | call => cases hr
  | review next ih => exact ih m.calls (hr m.calls)

theorem Machine.count_hostCalls (m : Machine) (n : String) :
    m.hostCalls.count n = m.calls.count (.host n) := by
  unfold hostCalls
  induction m.calls with
  | nil => rfl
  | cons f fs ih =>
      cases f with
      | host name => simp [List.count_cons, ih]
      | capability | passThrough => simpa [List.count_cons] using ih

def Moment.pending (text : String) (a : Moment) : Nat :=
  if a.fault.any (·.report == text) then 1 else 0

/-- The ledger of a function and a text is in order: what is on its way was raised, whatever the
function raised has the text, it has raised a fault for every call, and every fault with the text is
an issue or on its way. -/
structure Moment.Settled (n text : String) (a : Moment) : Prop where
  raised : ∀ fault, a.fault = some fault → ∃ source, (source, fault) ∈ a.machine.raised
  worded : ∀ e ∈ a.machine.raised, e.1 = some (.host n) → e.2.report = text
  calls : a.machine.calls.count (.host n) =
    a.machine.raised.countP fun e => e.1 == some (.host n)
  issues : (a.machine.raised.countP fun e => e.2.report == text) =
    (a.machine.report.issues.countP fun i => i.message == text) + a.pending text

namespace Moment.Settled

variable {n text : String} {m m' : Machine} {fault : Fault}

theorem of_quiet (hworded : ∀ e ∈ m.raised, e.1 = some (.host n) → e.2.report = text)
    (hcalls : m.calls.count (.host n) = m.raised.countP fun e => e.1 == some (.host n))
    (hissues : (m.raised.countP fun e => e.2.report == text) =
      m.report.issues.countP fun i => i.message == text) : Settled n text ⟨m, none⟩ := by
  refine ⟨?_, hworded, hcalls, hissues⟩
  rintro _ ⟨⟩

theorem of_same (h : Settled n text ⟨m, none⟩) (hraised : m'.raised = m.raised)
    (hcalls : m'.calls = m.calls) (hissues : m'.report.issues = m.report.issues) :
    Settled n text ⟨m', none⟩ := by
  obtain ⟨-, hworded, hcount, hbalance⟩ := h
  refine of_quiet ?_ ?_ ?_
  · simpa only [hraised] using hworded
  · simpa only [hraised, hcalls] using hcount
  · rw [hraised, hissues]
    exact hbalance

/-- A fault that the function did not raise is on its way, whatever its text. -/
theorem noteFault {source : Option Foreign} (h : Settled n text ⟨m, none⟩)
    (hsource : source ≠ some (.host n)) :
    Settled n text ⟨m.noteFault source fault, some fault⟩ := by
  obtain ⟨-, hworded, hcount, hbalance⟩ := h
  refine ⟨?_, ?_, ?_, ?_⟩
  · rintro _ ⟨⟩
    exact ⟨source, List.mem_append_right _ (List.mem_singleton.mpr rfl)⟩
  · intro e he hown
    rcases List.mem_append.mp he with he | he
    · exact hworded e he hown
    · rw [List.mem_singleton.mp he] at hown
      exact absurd hown hsource
  · simpa [Machine.noteFault, List.countP_append, List.countP_cons, hsource] using hcount
  · simp only [Machine.noteFault, pending] at hbalance ⊢
    simp [List.countP_append, List.countP_cons, hbalance]

theorem caught (span : Span) (h : Settled n text ⟨m, some fault⟩) :
    Settled n text ⟨{ m with report := m.report.issue span fault.report }, none⟩ := by
  obtain ⟨-, hworded, hcount, hbalance⟩ := h
  refine of_quiet hworded hcount ?_
  simp only [pending] at hbalance ⊢
  simp [Report.issue, List.countP_append, List.countP_cons, hbalance]

theorem noteCall {f : Foreign} (h : Settled n text ⟨m, none⟩) (hf : f ≠ .host n) :
    Settled n text ⟨m.noteCall f, none⟩ := by
  obtain ⟨-, hworded, hcount, hbalance⟩ := h
  refine of_quiet hworded ?_ hbalance
  simpa [Machine.noteCall, List.count_append, List.count_cons, hf] using hcount

theorem handled (h : Settled n text ⟨m, some fault⟩) (hfault : fault.report ≠ text) :
    Settled n text ⟨m, none⟩ := by
  obtain ⟨-, hworded, hcount, hbalance⟩ := h
  refine of_quiet hworded hcount ?_
  simpa [pending, hfault] using hbalance

/-- A call of the function and its fault go on record together. -/
theorem failed (h : Settled n text ⟨m, none⟩) (hfault : fault.report = text) :
    Settled n text
      ⟨(m.noteCall (.host n)).noteFault (some (.host n)) fault, some fault⟩ := by
  obtain ⟨-, hworded, hcount, hbalance⟩ := h
  refine ⟨?_, ?_, ?_, ?_⟩
  · rintro _ ⟨⟩
    exact ⟨some (.host n), List.mem_append_right _ (List.mem_singleton.mpr rfl)⟩
  · intro e he hown
    rcases List.mem_append.mp he with he | he
    · exact hworded e he hown
    · rw [List.mem_singleton.mp he]
      exact hfault
  · simp only at hcount
    simp [Machine.noteCall, Machine.noteFault, List.countP_append, List.count_append, hcount]
  · simp only [pending] at hbalance
    simp [Machine.noteCall, Machine.noteFault, List.countP_append, pending, hfault, hbalance]

end Moment.Settled

/-- The contract that the ledger of a function and a text stays in order. -/
def ledger (n text : String) : Contract :=
  .ofChange fun _ a b => a.Settled n text → b.Settled n text

variable {rt : Runtime} {n text : String}

theorem ledger_lawful (n text : String) : (ledger n text).Lawful := by
  refine Contract.ofChange_lawful ?_
  exact
    { refl := fun _ _ => id
      trans := fun h h' ha => h' (h ha)
      widen := id
      opened := fun h ha => h (ha.of_same rfl rfl rfl)
      bound := fun _ _ _ _ ha => ha.of_same rfl rfl rfl
      marked := fun _ _ ha => ha.of_same rfl rfl rfl
      warned := fun _ _ _ ha => ha.of_same rfl rfl rfl
      raised := fun _ _ ha => ha.noteFault nofun
      caught := fun _ t _ _ _ ha => ha.caught t.span }

/-- The functions beside the one that fails keep the ledger if they let its faults pass. -/
theorem ledger_answers {f : Foreign} (hf : f ≠ .host n) :
    (ledger n text).Answers f fun _ r => r.Passes text where
  ok _ := trivial
  error _ ha := ha.noteFault fun h => hf (Option.some.inj h)
  callee _ := ⟨trivial, fun _ _ => trivial⟩
  returned h _ _ := h.2 _
  handled h _ hhandles := by
    refine ⟨fun ha => ha.handled fun hfault => ?_, h.2 _⟩
    rw [h.1 _ hfault] at hhandles
    cases hhandles
  review calls h := h calls

theorem ledger_admits (hfails : ∀ v, (rt.host n v).Fails text)
    (hpasses : ∀ name v, (rt.host name v).Passes text) : (ledger n text).Admits rt := by
  have L := ledger_lawful n text
  refine { toLawful := L, binding := fun _ _ _ => trivial, foreign := fun {call} hcall f => ?_ }
  refine Contract.callForeign_keeps L fun m a ha => ?_
  by_cases hf : f = .host n
  · subst hf
    obtain ⟨fault, hfault, hrun⟩ :=
      respond_of_fails call (.host n) (hfails a) (m.noteCall (.host n))
    have hcalled : (callForeign rt call (.host n) [a]).run m =
        (.error fault, (m.noteCall (.host n)).noteFault (some (.host n)) fault) := by
      rw [callForeign, Run.run_bind]
      exact hrun
    exact Contract.Keeps.of_error hcalled (fun hsettled => hsettled.failed hfault)
      fun _ _ _ _ _ => trivial
  · have hcalled : ∀ m, (ledger n text).change none ⟨m, none⟩ ⟨m.noteCall f, none⟩ :=
      fun m hsettled => hsettled.noteCall hf
    cases f with
    | passThrough => exact Contract.passThrough_keeps L ha
    | capability c =>
        refine Contract.capability_keeps L hcalled (fun m fault _ hsettled => ?_) fun _ _ _ _ => trivial
        exact hsettled.noteFault nofun
    | host name => exact Contract.host_keeps L hcall hcalled (ledger_answers hf) (hpasses name a)

theorem Moment.settled_initial (verbose : Bool) : Settled n text ⟨.initial verbose, none⟩ :=
  .of_quiet (fun _ he => nomatch he) rfl rfl

theorem settled_of_evaluate (hfails : ∀ v, (rt.host n v).Fails text)
    (hpasses : ∀ name v, (rt.host name v).Passes text) (verbose : Bool) (root : Token) :
    ((evaluate rt nestingLimit root 0).ending (.initial verbose)).Settled n text := by
  obtain ⟨hchange, -⟩ :=
    Contract.keeps_initial (ledger_admits hfails hpasses) (trivial : (ledger n text).token root)
      verbose
  exact hchange (Moment.settled_initial verbose)

theorem Machine.exhausted_of_mem {m : Machine} {source : Option Foreign} {fault : Fault}
    (h : (source, fault) ∈ m.raised) (hlimit : fault.isTooDeep = true) : m.exhausted = true :=
  List.any_eq_true.mpr ⟨_, h, hlimit⟩

/-- **No failure is lost or reported twice.** Let a function of the host fail with one text whatever
it is called with, let no other fault of the run have that text, and let no function of the host handle
a fault with that text. Then a run that gives a result without meeting a limit on nesting has at its end
as many issues with the text as there were calls of the function. -/
theorem count_issues_eq_count_calls {verbose : Bool} {o : Outcome} {value : Value}
    (ho : o.Of rt verbose) (hfails : ∀ v, (rt.host n v).Fails text)
    (hpasses : ∀ name v, (rt.host name v).Passes text)
    (hothers : ∀ e ∈ o.machine.raised, e.2.report = text → e.1 = some (.host n))
    (hresult : o.result = .ok value) (hlimit : o.machine.exhausted = false) :
    (o.issues.countP fun i => i.message == text) = o.machine.hostCalls.count n := by
  cases ho.ends hresult with
  | finished hrun =>
      rename_i root m v
      have hsettled := settled_of_evaluate hfails hpasses verbose root
      rw [Run.ending_ok hrun] at hsettled
      have hsame : (m.raised.countP fun e => e.2.report == text) =
          m.raised.countP fun e => e.1 == some (.host n) := by
        refine List.countP_congr fun e he => ?_
        rw [beq_iff_eq, beq_iff_eq]
        exact ⟨hothers e he, hsettled.worded e he⟩
      have hissues : (Outcome.finished m root v).issues = m.report.issues :=
        Report.issues_info _ _
      calc ((Outcome.finished m root v).issues.countP fun i => i.message == text)
        _ = m.report.issues.countP fun i => i.message == text := by rw [hissues]
        _ = m.raised.countP fun e => e.2.report == text := hsettled.issues.symm
        _ = m.raised.countP fun e => e.1 == some (.host n) := hsame
        _ = m.calls.count (.host n) := hsettled.calls.symm
        _ = m.hostCalls.count n := (m.count_hostCalls n).symm
  | tooDeep htooDeep hrun =>
      rename_i root m fault
      have hsettled := settled_of_evaluate hfails hpasses verbose root
      rw [Run.ending_error hrun] at hsettled
      obtain ⟨source, hsource⟩ := hsettled.raised fault rfl
      have hexhausted : m.exhausted = true := Machine.exhausted_of_mem hsource htooDeep
      rw [show (Outcome.tooDeep m root.span).machine.exhausted = m.exhausted from rfl,
        hexhausted] at hlimit
      cases hlimit
  | unread htooDeep =>
      rw [Machine.exhausted_of_mem (List.mem_singleton.mpr rfl) htooDeep] at hlimit
      cases hlimit

/-- A runtime with a function that fails under each name by which tokens reach it, and one that does
not. -/
def Runtime.failing : Runtime where
  bound :=
    [("Negative", .foreign (.host "Negative")), ("Tensor", .foreign (.host "Negative")),
      ("Same", .foreign (.host "Same"))]
  host name v :=
    if name == "Negative" then .error (.raised ⟨"ValueError", by decide⟩ "") else .ok v
  bound_nodup := by decide
  bound_bodiesIn _ := by
    simp only [List.forall_mem_cons]
    exact ⟨.atom rfl, .atom rfl, .atom rfl, List.forall_mem_nil _⟩
  host_bodiesIn _ name _ hv := by
    split
    · exact trivial
    · exact hv

/-- A program that calls the failing function by an operator, by a conversion, by its name, in the
body of a function, and in a composition within a composition. -/
def Token.failingCalls : Token :=
  let one : Token := .literal .nowhere (.int 1)
  let assign (name : String) (value : Token) : Token :=
    .assignment .nowhere (.path .nowhere [name]) value
  .program .nowhere
    [assign "a" (.unary .nowhere (.str "-") one),
      assign "b" (.conversion .nowhere one),
      assign "c" (.application .nowhere (.str "Negative") one),
      assign "f" (.function .nowhere (.str "x")
        (.unary .nowhere (.str "-") (.reference .nowhere (.path .nowhere ["x"])))),
      assign "d" (.application .nowhere (.str "f") one),
      assign "g" (.composition .nowhere ["Negative", "Same"]),
      assign "h" (.composition .nowhere ["Same", "g"]),
      assign "e" (.application .nowhere (.str "h") one)]

theorem count_issues_eq_count_calls_failing :
    (interpretToken .failing false .failingCalls).machine.hostCalls.count "Negative" = 5 ∧
      ((interpretToken .failing false .failingCalls).issues.countP fun i =>
        i.message == "ValueError") = 5 := by
  have hcalls :
      (interpretToken .failing false .failingCalls).machine.hostCalls.count "Negative" = 5 := by
    decide +kernel
  have hfails (v : Value) : (Runtime.failing.host "Negative" v).Fails "ValueError" := rfl
  have hpasses (name : String) (v : Value) : (Runtime.failing.host name v).Passes "ValueError" := by
    unfold Runtime.failing
    dsimp only
    split <;> trivial
  have hothers : ∀ e ∈ (interpretToken .failing false .failingCalls).machine.raised,
      e.2.report = "ValueError" → e.1 = some (.host "Negative") := by
    decide +kernel
  have hlimit : (interpretToken .failing false .failingCalls).machine.exhausted = false := by
    decide +kernel
  refine ⟨hcalls, ?_⟩
  rw [← hcalls]
  exact count_issues_eq_count_calls (.token _) hfails hpasses hothers rfl hlimit

/-- A runtime with a function that fails and one that calls it and handles its fault. -/
def Runtime.swallowing : Runtime where
  bound := [("n", .foreign (.host "n")), ("try", .foreign (.host "try"))]
  host name v :=
    if name == "n" then .error (.raised ⟨"ValueError", by decide⟩ "m")
    else .call (.foreign (.host "n")) [v] (fun _ => true) fun _ => .ok .none
  bound_nodup := by decide
  bound_bodiesIn _ := by
    simp only [List.forall_mem_cons]
    exact ⟨.atom rfl, .atom rfl, List.forall_mem_nil _⟩
  host_bodiesIn _ name _ hv := by
    split
    · exact trivial
    · exact ⟨.atom rfl, List.forall_mem_singleton.mpr hv, fun _ _ => .atom rfl, fun _ => .atom rfl⟩

/-- A program that calls the function that handles faults, and one that leaves a composition behind which
calls the function that fails. -/
def Token.swallowed : Token :=
  .program .nowhere
    [.assignment .nowhere (.path .nowhere ["y"])
        (.application .nowhere (.str "try") (.literal .nowhere (.int 1))),
      .assignment .nowhere (.path .nowhere ["g"]) (.composition .nowhere ["n"])]

/-- A fault that a function of the host handles is lost, and so is one that leaves a composition which is
called after the run: the function was called, and there is no issue. -/
theorem calls_without_issues :
    let o := interpretToken .swallowing false .swallowed
    let later := (callByName .swallowing 0 "g" [.int 1]).run o.machine
    (∀ v, (Runtime.swallowing.host "n" v).Fails "m") ∧
      (∀ e ∈ o.machine.raised, e.2.report = "m" → e.1 = some (.host "n")) ∧
      o.machine.exhausted = false ∧ (∃ value, o.result = .ok value) ∧
      o.machine.hostCalls.count "n" = 1 ∧ o.issues.length = 0 ∧
      later.2.hostCalls.count "n" = 2 ∧ later.2.report.issues.length = 0 := by
  intro o later
  have hothers : ∀ e ∈ o.machine.raised, e.2.report = "m" → e.1 = some (.host "n") := by
    decide +kernel
  have hlimit : o.machine.exhausted = false := by decide +kernel
  have hcalls : o.machine.hostCalls.count "n" = 1 ∧ o.issues.length = 0 := by decide +kernel
  have hlater : later.2.hostCalls.count "n" = 2 ∧ later.2.report.issues.length = 0 := by
    decide +kernel
  exact ⟨fun _ => rfl, hothers, hlimit, ⟨_, rfl⟩, hcalls.1, hcalls.2, hlater.1, hlater.2⟩

end ArrayExpr
