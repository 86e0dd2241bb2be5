import ArrayExpr.Proofs.Outcome
import ArrayExpr.Proofs.SimulationEvaluation

/-!
Verbosity. Whether a run is verbose shows on the console and nowhere else: two runs of one program that
differ in it follow each other step by step, and so do all calls that are made afterwards. A run that
is not verbose prints its warnings and nothing else. A verbose run prints them too, with more in
between.
-/

namespace ArrayExpr

/-- The outcome of a program: of a token tree, or of plain data that is still to be read as one. -/
def outcomeOf (rt : Runtime) (verbose : Bool) : Token ⊕ Json → Outcome :=
  Sum.elim (interpretToken rt verbose) (interpret rt verbose)

/-- Calls by name in the state, one after the other; a fault does not keep the later ones back. -/
def callInTurn (rt : Runtime) (calls : List (String × List Value)) :
    Run (List (Except Fault Value)) :=
  calls.mapM fun c => Run.attempt (fun _ => true) (callByName rt 0 c.1 c.2)

/-- Machines that differ in nothing but whether they are verbose and what went to the console. -/
structure Machine.SameButConsole (m m' : Machine) : Prop where
  scopes : m.scopes = m'.scopes
  issues : m.report.issues = m'.report.issues
  warnings : m.report.warnings = m'.report.warnings
  calls : m.calls = m'.calls
  raised : m.raised = m'.raised
  mark : m.mark = m'.mark

/-- A report that has printed its warnings in order, and nothing else unless it is verbose. -/
structure Report.Prints (r : Report) : Prop where
  warnings : r.warnings.Sublist r.console
  quiet : r.verbose = false → r.console = r.warnings

/-! ### Runs that differ in verbosity -/

def sameButConsole : Simulation where
  body := Eq
  report r r' := r.issues = r'.issues ∧ r.warnings = r'.warnings
  flat := False

theorem sameButConsole_fits (rt : Runtime) : sameButConsole.Fits rt := by
  apply Simulation.fits_of_same_bodies
  · intro r r' text details h
    exact ⟨h.1, congrArg (· ++ [text]) h.2⟩
  · intro r r' span text h
    exact ⟨by simp only [Report.issue, h.1], h.2⟩

theorem Simulation.Machines.same {m m' : Machine} (h : sameButConsole.Machines m m') :
    m.SameButConsole m' :=
  ⟨h.scopes_eq, h.report.1, h.report.2, h.calls, h.raised, h.mark⟩

/-- Evaluations and calls of this simulation end with the same result. -/
theorem Simulation.Follows.same {m m' : Machine} {x x' : Run Value}
    (hx : sameButConsole.Follows m m' x x' sameButConsole.Values) (hm : sameButConsole.Machines m m') :
    sameButConsole.Machines (x.run m).2 (x'.run m').2 ∧ (x.run m).1 = (x'.run m').1 := by
  rcases hx hm with ⟨hflat, -⟩ | ⟨hmachines, hresults⟩
  · exact hflat.elim
  · exact ⟨hmachines, (hresults.imp fun _ _ hv => hv.eq).eq⟩

theorem Report.info_same (r : Report) (words : List String) :
    (r.info words).issues = r.issues ∧ (r.info words).warnings = r.warnings := by
  unfold info
  split
  · exact ⟨rfl, rfl⟩
  · exact ⟨rfl, rfl⟩

variable (rt : Runtime)

theorem sameButConsole_initial (verbose verbose' : Bool) :
    sameButConsole.Machines (.initial verbose) (.initial verbose') :=
  ⟨.cons .nil .nil, ⟨rfl, rfl⟩, rfl, rfl, rfl⟩

theorem interpretToken_eq (verbose : Bool) (root : Token) :
    interpretToken rt verbose root =
      match (evaluate rt nestingLimit root 0).run (.initial verbose) with
      | (.ok value, m) => .finished m root value
      | (.error fault, m) =>
        if fault.isTooDeep then .tooDeep m root.span else ⟨.error fault, m⟩ :=
  rfl

/-- The outcomes of a token tree are the same but for the console. -/
theorem interpretToken_same (verbose verbose' : Bool) (root : Token) :
    sameButConsole.Machines (interpretToken rt verbose root).machine
        (interpretToken rt verbose' root).machine ∧
      (interpretToken rt verbose root).result = (interpretToken rt verbose' root).result := by
  have hfollows : sameButConsole.Evaluates rt nestingLimit nestingLimit :=
    (Simulation.follows (sameButConsole_fits rt) (.inl rfl)).1
  have hrun := (hfollows 0 (Simulation.rewrites_refl (fun _ => rfl) root)).same
    (sameButConsole_initial verbose verbose')
  rw [interpretToken_eq, interpretToken_eq]
  generalize (evaluate rt nestingLimit root 0).run (.initial verbose) = ran,
    (evaluate rt nestingLimit root 0).run (.initial verbose') = ran' at hrun ⊢
  obtain ⟨r, m⟩ := ran
  obtain ⟨_, m'⟩ := ran'
  obtain ⟨hm, rfl⟩ := hrun
  have hissues : m.report.issues = m'.report.issues := hm.report.1
  have hwarnings : m.report.warnings = m'.report.warnings := hm.report.2
  cases r with
  | ok v =>
      refine ⟨⟨hm.scopes, ⟨?_, ?_⟩, hm.calls, hm.raised, hm.mark⟩, rfl⟩
      · exact (m.report.info_same _).1.trans (hissues.trans (m'.report.info_same _).1.symm)
      · exact (m.report.info_same _).2.trans (hwarnings.trans (m'.report.info_same _).2.symm)
  | error fault =>
      dsimp only
      split
      · refine ⟨⟨hm.scopes, ⟨?_, hwarnings⟩, hm.calls, hm.raised, hm.mark⟩, rfl⟩
        simp only [Outcome.tooDeep, Report.issue, hissues]
      · exact ⟨hm, rfl⟩

/-- The outcomes of a program are the same but for the console. -/
theorem outcomeOf_same (verbose verbose' : Bool) (program : Token ⊕ Json) :
    sameButConsole.Machines (outcomeOf rt verbose program).machine
        (outcomeOf rt verbose' program).machine ∧
      (outcomeOf rt verbose program).result = (outcomeOf rt verbose' program).result := by
  cases program with
  | inl root => exact interpretToken_same rt verbose verbose' root
  | inr tree =>
      show sameButConsole.Machines (interpret rt verbose tree).machine
        (interpret rt verbose' tree).machine ∧
          (interpret rt verbose tree).result = (interpret rt verbose' tree).result
      unfold interpret
      have hstart := sameButConsole_initial verbose verbose'
      split
      · exact interpretToken_same rt verbose verbose' _
      · dsimp only
        split
        · exact ⟨⟨hstart.scopes, ⟨rfl, rfl⟩, rfl, rfl, rfl⟩, rfl⟩
        · exact ⟨⟨hstart.scopes, ⟨rfl, rfl⟩, rfl, rfl, rfl⟩, rfl⟩

theorem callByName_follows {m m' : Machine} (scope : Nat) (name : String) (arguments : List Value) :
    sameButConsole.Follows m m' (callByName rt scope name arguments)
      (callByName rt scope name arguments) sameButConsole.Values := by
  refine .reading fun hm => ?_
  have hfound : Option.Rel sameButConsole.Values (Key.lookup? (.str name) (m.scope scope))
      (Key.lookup? (.str name) (m'.scope scope)) :=
    Key.lookup?_related Key.respects_eq (hm.scope scope) rfl
  generalize Key.lookup? (.str name) (m.scope scope) = found,
    Key.lookup? (.str name) (m'.scope scope) = found' at hfound ⊢
  cases hfound with
  | some hf =>
      have hcalls : sameButConsole.Calls rt nestingLimit nestingLimit :=
        (Simulation.follows (sameButConsole_fits rt) (.inl rfl)).2
      exact hcalls hf (Value.itemsCorrespond_refl (fun _ => rfl) arguments)
  | none => exact .raise none _

theorem logs_callByName (scope : Nat) (name : String) (arguments : List Value) :
    (callByName rt scope name arguments).Logs := by
  refine Run.logs_bind Run.logs_get fun m => ?_
  split
  · exact Run.logs_call rt nestingLimit _ arguments
  · exact Run.logs_liftFrom none (.error _)

theorem logs_callInTurn (calls : List (String × List Value)) : (callInTurn rt calls).Logs := by
  have hone (c : String × List Value) :
      (Run.attempt (fun _ => true) (callByName rt 0 c.1 c.2)).Logs :=
    Run.logs_attempt _ (logs_callByName rt 0 c.1 c.2)
  exact Run.logs_mapM hone calls

theorem callInTurn_cons (c : String × List Value) (calls : List (String × List Value)) :
    callInTurn rt (c :: calls) = do
      let r ← Run.attempt (fun _ => true) (callByName rt 0 c.1 c.2)
      let rs ← callInTurn rt calls
      return r :: rs :=
  List.mapM_cons

theorem callInTurn_follows {m m' : Machine} (calls : List (String × List Value)) :
    sameButConsole.Follows m m' (callInTurn rt calls) (callInTurn rt calls) Eq := by
  induction calls generalizing m m' with
  | nil => exact .done fun _ => rfl
  | cons c calls ih =>
      rw [callInTurn_cons]
      refine .andThen (.attempt _ (callByName_follows rt 0 c.1 c.2)) (by simp [logs_callInTurn]) ?_
      intro r r' _ _ hresults
      have hr : r = r' := (hresults.imp fun _ _ hv => hv.eq).eq
      refine .andThen ih (by simp) ?_
      rintro rs _ _ _ rfl
      exact .done fun _ => by rw [hr]

/-! ### What is printed -/

def printing : Contract :=
  .ofChange fun _ a b => b.machine.report.verbose = a.machine.report.verbose ∧
    (a.machine.report.Prints → b.machine.report.Prints)

theorem Report.Prints.warn {r : Report} (h : r.Prints) (text : String) (details : List String) :
    (r.warn text details).Prints := by
  constructor
  · exact h.warnings.append (List.Sublist.cons_cons text (List.nil_sublist _))
  · intro hquiet
    have hverbose : r.verbose = false := hquiet
    simp [Report.warn, hverbose, h.quiet hverbose]

theorem printing_admits : printing.Admits rt := by
  have hrefl (a : Moment) : a.machine.report.verbose = a.machine.report.verbose ∧
      (a.machine.report.Prints → a.machine.report.Prints) := ⟨rfl, id⟩
  refine Contract.ofChange_admits ?_ (fun _ _ => ⟨rfl, id⟩) (fun _ _ _ => ⟨rfl, id⟩)
    (fun _ _ => ⟨rfl, id⟩) rt
  exact
    { refl := fun _ a => hrefl a
      trans := fun h h' => ⟨h'.1.trans h.1, fun hp => h'.2 (h.2 hp)⟩
      widen := fun h => h
      opened := fun h => h
      bound := fun _ _ _ _ => ⟨rfl, id⟩
      marked := fun _ _ => ⟨rfl, id⟩
      warned := fun _ text details => ⟨rfl, fun hp => hp.warn text details⟩
      raised := fun _ _ => ⟨rfl, id⟩
      caught := fun _ _ _ _ _ => ⟨rfl, fun hp => ⟨hp.warnings, hp.quiet⟩⟩ }

theorem callInTurn_prints (calls : List (String × List Value)) (m : Machine) :
    printing.Keeps none m (callInTurn rt calls) fun _ _ => True := by
  have A := printing_admits rt
  have L := A.toLawful
  induction calls generalizing m with
  | nil => exact Contract.Keeps.done L fun _ => trivial
  | cons c calls ih =>
      rw [callInTurn_cons]
      have hcall : printing.Keeps none m (callByName rt 0 c.1 c.2) printing.value := by
        refine Contract.Keeps.reading ?_
        split
        · exact (Contract.keeps A nestingLimit).2 m _ c.2 trivial fun _ _ => trivial
        · exact Contract.Keeps.of_error rfl ⟨rfl, id⟩ id
      refine Contract.Keeps.andThen L (Contract.attempt_keeps L hcall fun _ _ _ _ => ⟨rfl, id⟩) ?_
      intro r m₁ _ _
      exact Contract.Keeps.andThen L (ih m₁) fun _ _ _ _ => Contract.Keeps.done L fun _ => trivial

theorem Report.Prints.info {r : Report} (h : r.Prints) (words : List String) :
    (r.info words).Prints := by
  unfold Report.info
  split
  · rename_i hverbose
    refine ⟨h.warnings.trans (List.sublist_append_left _ _), fun hquiet => ?_⟩
    cases hverbose.symm.trans hquiet
  · exact h

theorem Report.verbose_info (r : Report) (words : List String) :
    (r.info words).verbose = r.verbose := by
  unfold info
  split
  · rfl
  · rfl

theorem interpretToken_prints (verbose : Bool) (root : Token) :
    (interpretToken rt verbose root).machine.report.Prints ∧
      (interpretToken rt verbose root).machine.report.verbose = verbose := by
  have hstart : (Machine.initial verbose).report.Prints := ⟨.refl [], fun _ => rfl⟩
  have hkeeps := (@Contract.keeps_initial _ rt (printing_admits rt) root trivial verbose).1
  have hprints : ((evaluate rt nestingLimit root 0).run (.initial verbose)).2.report.Prints :=
    hkeeps.2 hstart
  have hverbose : ((evaluate rt nestingLimit root 0).run (.initial verbose)).2.report.verbose =
      verbose := hkeeps.1
  rw [interpretToken_eq]
  generalize (evaluate rt nestingLimit root 0).run (.initial verbose) = ran at hprints hverbose ⊢
  obtain ⟨r, m⟩ := ran
  cases r with
  | ok v => exact ⟨hprints.info _, (m.report.verbose_info _).trans hverbose⟩
  | error fault =>
      dsimp only
      split
      · exact ⟨⟨hprints.warnings, hprints.quiet⟩, hverbose⟩
      · exact ⟨hprints, hverbose⟩

theorem outcomeOf_prints (verbose : Bool) (program : Token ⊕ Json) :
    (outcomeOf rt verbose program).machine.report.Prints ∧
      (outcomeOf rt verbose program).machine.report.verbose = verbose := by
  cases program with
  | inl root => exact interpretToken_prints rt verbose root
  | inr tree =>
      show (interpret rt verbose tree).machine.report.Prints ∧
        (interpret rt verbose tree).machine.report.verbose = verbose
      unfold interpret
      split
      · exact interpretToken_prints rt verbose _
      · dsimp only
        split
        · exact ⟨⟨.refl [], fun _ => rfl⟩, rfl⟩
        · exact ⟨⟨.refl [], fun _ => rfl⟩, rfl⟩

/-- What is printed less is a part of the text of what is printed more. -/
theorem Report.printed_sublist {prints prints' : List String} (h : prints.Sublist prints') :
    (printed prints).toList.Sublist (printed prints').toList := by
  unfold printed
  rw [String.toList_join, String.toList_join]
  induction h with
  | slnil => exact .refl _
  | cons s _ ih => exact ih.trans (List.sublist_append_right _ _)
  | cons_cons s _ ih => exact (List.Sublist.refl _).append ih

/-- What a machine that is not verbose has printed, compared with one that is the same otherwise. -/
theorem Machine.SameButConsole.printed {m m' : Machine} (h : m.SameButConsole m')
    (hm : m.report.Prints) (hquiet : m.report.verbose = false) (hm' : m'.report.Prints) :
    Report.printed m.report.console = String.join (m.report.warnings.map (· ++ "\n")) ∧
      (Report.printed m.report.console).toList.Sublist (Report.printed m'.report.console).toList := by
  have hconsole := hm.quiet hquiet
  rw [hconsole]
  refine ⟨rfl, Report.printed_sublist ?_⟩
  rw [h.warnings]
  exact hm'.warnings

/-- Two runs of a program and the calls made in the state afterwards, side by side. -/
theorem outcomeOf_later_same (program : Token ⊕ Json) (calls : List (String × List Value))
    (verbose verbose' : Bool) :
    let later := (callInTurn rt calls).run (outcomeOf rt verbose program).machine
    let later' := (callInTurn rt calls).run (outcomeOf rt verbose' program).machine
    later.1 = later'.1 ∧ later.2.SameButConsole later'.2 := by
  intro later later'
  rcases callInTurn_follows rt calls (outcomeOf_same rt verbose verbose' program).1 with
    ⟨hflat, -⟩ | ⟨hmachines, hresults⟩
  · exact hflat.elim
  · exact ⟨hresults.eq, hmachines.same⟩

/-- **Verbosity changes nothing but the console.** Whatever the program, the runtime and the calls made
in the state after the run, two runs that differ in verbosity have the same result or end in the same
fault, with the same issues, the same warnings and the same state, and the later calls give the same.
The console text of a run that is not verbose, with or without the later calls, is its warnings in
order, each with a newline after it, and a subsequence of the text of any other run. -/
theorem verbosity_changes_console_only (rt : Runtime) (program : Token ⊕ Json)
    (calls : List (String × List Value)) (verbose verbose' : Bool) :
    let o := outcomeOf rt verbose program
    let o' := outcomeOf rt verbose' program
    let quiet := outcomeOf rt false program
    let later := (callInTurn rt calls).run o.machine
    let later' := (callInTurn rt calls).run o'.machine
    let quietLater := (callInTurn rt calls).run quiet.machine
    (o.result = o'.result ∧ o.issues = o'.issues ∧ o.state = o'.state ∧
      o.machine.SameButConsole o'.machine) ∧
    (later.1 = later'.1 ∧ later.2.SameButConsole later'.2) ∧
    (Report.printed quiet.machine.report.console =
        String.join (quiet.machine.report.warnings.map (· ++ "\n")) ∧
      (Report.printed quiet.machine.report.console).toList.Sublist
        (Report.printed o.machine.report.console).toList) ∧
    Report.printed quietLater.2.report.console =
        String.join (quietLater.2.report.warnings.map (· ++ "\n")) ∧
      (Report.printed quietLater.2.report.console).toList.Sublist
        (Report.printed later.2.report.console).toList := by
  intro o o' quiet later later' quietLater
  obtain ⟨hmachines, hresult⟩ := outcomeOf_same rt verbose verbose' program
  obtain ⟨hprints, -⟩ := outcomeOf_prints rt verbose program
  obtain ⟨hquiet, hfalse⟩ := outcomeOf_prints rt false program
  have hsame : o.machine.SameButConsole o'.machine := hmachines.same
  have hafter (verbose : Bool) := callInTurn_prints rt calls (outcomeOf rt verbose program).machine
  refine ⟨⟨hresult, hsame.issues, ?_, hsame⟩, ?_, ?_, ?_⟩
  · exact congrArg (fun scopes => scopes.getD 0 []) hsame.scopes
  · exact outcomeOf_later_same rt program calls verbose verbose'
  · exact (outcomeOf_same rt false verbose program).1.same.printed hquiet hfalse hprints
  · obtain ⟨hverbose, hlater⟩ := (hafter false fun _ _ _ _ => trivial).1
    obtain ⟨-, hlater'⟩ := (hafter verbose fun _ _ _ _ => trivial).1
    exact (outcomeOf_later_same rt program calls false verbose).2.printed (hlater hquiet)
      (hverbose.trans hfalse) (hlater' hprints)

end ArrayExpr
