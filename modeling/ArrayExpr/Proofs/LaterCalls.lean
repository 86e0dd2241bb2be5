import ArrayExpr.Proofs.Appending
import ArrayExpr.Proofs.Isolation
import ArrayExpr.Proofs.LockstepEvaluation
import ArrayExpr.Proofs.Outcome

/-!
Calls after a run. The functions that a run leaves in its state share its scopes and its report, yet
on a runtime whose functions do not go by the calls made so far, a call gives the same and reports the
same whatever calls were made before. The machine that later calls come to has the scopes that were
there before them, so the call can be compared with the same call made earlier: both find the same
function, and open their own scopes in lockstep.
-/

namespace ArrayExpr

/-- A value that refers only to scopes and undefined numbers that the machine has. -/
def Machine.Holds (m : Machine) (v : Value) : Prop :=
  v.Alike (Link.identity.among m m) v

/-- A machine whose scopes hold only values of its own. -/
def Machine.Closed (m : Machine) : Prop :=
  ∀ s ∈ m.scopes, ∀ e ∈ s, m.Holds e.2

/-- The same names in the same order with values that are alike, whatever calls were made before. -/
def repetition (report : Report → Report → Prop) : Comparison where
  scope := Key.Related Eq
  report := report
  calls _ _ := True

/-- Reports that have got the same since they were `start` and `start'`. -/
def Report.GotSame (start start' r r' : Report) : Prop :=
  ∃ added : Report, added.verbose = start.verbose ∧ r = start ++ added ∧ r' = start' ++ added

variable {rt : Runtime} {m m' : Machine}

theorem repetition_fits (hrt : rt.Uniform fun _ _ => True) {report : Report → Report → Prop}
    (hwarned : ∀ r r' text details, report r r' →
      report (r.warn text details) (r'.warn text details))
    (hissued : ∀ r r' span text, report r r' → report (r.issue span text) (r'.issue span text)) :
    (repetition report).Fits rt where
  toUniform := hrt
  mono hR h := h.imp fun _ _ he => ⟨he.1, hR _ _ he.2⟩
  insert key h hv := Key.insert_related Key.respects_eq h rfl hv
  lookup key hbindings h := by
    have hself : Key.Related Eq _ rt.bindings rt.bindings :=
      List.forall₂_same.mpr fun e he => ⟨rfl, hbindings e he⟩
    exact Key.lookup?_related Key.respects_eq (Key.insertAll_related Key.respects_eq hself h) rfl
  names {R s s'} h := by
    have hnamed : Key.Related Eq (fun _ _ => True) s s' := h.imp fun _ _ he => ⟨he.1, trivial⟩
    have hself : Key.Related Eq (fun _ _ => True) rt.bindings rt.bindings :=
      List.forall₂_same.mpr fun _ _ => ⟨rfl, trivial⟩
    have hmerged := Key.insertAll_related Key.respects_eq hself hnamed
    exact sortedNames_eq_of_perm (.of_eq (Key.keys_eq_of_related hmerged))
  warned text details h := hwarned _ _ text details h
  issued span text h := hissued _ _ span text h
  called _ _ := trivial

theorem repetition_eq_fits (hrt : rt.Uniform fun _ _ => True) : (repetition Eq).Fits rt := by
  refine repetition_fits hrt ?_ ?_
  · rintro r _ text details rfl
    rfl
  · rintro r _ span text rfl
    rfl

theorem Report.GotSame.fits (hrt : rt.Uniform fun _ _ => True) {start start' : Report}
    (hverbose : start'.verbose = start.verbose) :
    (repetition (Report.GotSame start start')).Fits rt := by
  refine repetition_fits hrt ?_ ?_
  · rintro _ _ text details ⟨added, hadded, rfl, rfl⟩
    refine ⟨added.warn text details, hadded, warn_append start added hadded text details, ?_⟩
    exact warn_append start' added (hadded.trans hverbose.symm) text details
  · rintro _ _ span text ⟨added, hadded, rfl, rfl⟩
    exact ⟨added.issue span text, hadded, issue_append start added span text,
      issue_append start' added span text⟩

/-- A call by name on machines that are alike. -/
theorem callByName_lockstep {report : Report → Report → Prop} (fits : (repetition report).Fits rt)
    {L : Link} {scope scope' : Nat} (hscope : (L.among m m').scopes scope scope') (name : String)
    {arguments arguments' : List Value}
    (harguments : Value.ItemsAlike (L.among m m') arguments arguments') :
    (repetition report).Lockstep L m m' (callByName rt scope name arguments)
      (callByName rt scope' name arguments') Value.Alike := by
  refine .reading fun hm => ?_
  have hfound : Option.Rel (Value.Alike (L.among m m')) (Key.lookup? (.str name) (m.scope scope))
      (Key.lookup? (.str name) (m'.scope scope')) :=
    Key.lookup?_related Key.respects_eq (hm.scope scope scope' hscope) rfl
  generalize Key.lookup? (.str name) (m.scope scope) = found,
    Key.lookup? (.str name) (m'.scope scope') = found' at hfound ⊢
  cases hfound with
  | some hf => exact (Comparison.lockstep fits L nestingLimit).2 hf harguments
  | none => exact .raise none _

theorem Machine.Matches.callByName {report : Report → Report → Prop}
    (fits : (repetition report).Fits rt) {K : Link} (h : m.Matches (repetition report) K m')
    {scope scope' : Nat} (hscope : K.scopes scope scope') (name : String)
    {arguments arguments' : List Value} (harguments : Value.ItemsAlike K arguments arguments') :
    ∃ K' : Link, K'.GrownFrom K m m' ∧
      ((ArrayExpr.callByName rt scope name arguments).run m).2.Matches (repetition report) K'
        ((ArrayExpr.callByName rt scope' name arguments').run m').2 ∧
      ResultsAlike (Value.Alike K') ((ArrayExpr.callByName rt scope name arguments).run m).1
        ((ArrayExpr.callByName rt scope' name arguments').run m').1 := by
  rw [← h.among_extended] at hscope harguments
  exact h.run (callByName_lockstep fits hscope name harguments)

/-! ### Machines that hold values of their own -/

namespace Machine.Closed

theorem alike (h : m.Closed) : m.Alike (repetition Eq) Link.identity m where
  scope := by
    rintro i _ ⟨rfl, -⟩
    exact List.forall₂_same.mpr fun e he => ⟨rfl, m.scope_all h i e he⟩
  opened _ := rfl
  paired := by
    rintro i _ rfl hlate
    exact ⟨i - m.scopes.length, by omega, by omega⟩
  distinguishes := by
    rintro a _ a' _ rfl rfl
    exact Iff.rfl
  inStep _ := rfl
  report := rfl
  calls := trivial

theorem of_alike (h : m.Alike (repetition Eq) Link.identity m) : m.Closed := by
  intro s hs e he
  obtain ⟨i, hi, rfl⟩ := List.getElem_of_mem hs
  have hscope := h.scope i i ⟨rfl, hi, hi⟩
  rw [Machine.scope, List.getD_eq_getElem?_getD, List.getElem?_eq_getElem hi] at hscope
  exact (List.forall₂_same.mp hscope e he).2

/-- Only the scopes and the marks count. -/
theorem of_same (h : m.Closed) (hscopes : m'.scopes = m.scopes) (hmark : m'.mark = m.mark) :
    m'.Closed := by
  unfold Closed Holds Link.among at h ⊢
  rwa [hscopes, hmark]

/-- A computation that does not depend on the machine's past leaves values of the machine's own. -/
theorem run (h : m.Closed) {x : Run Value}
    (hx : (repetition Eq).Lockstep Link.identity m m x x Value.Alike) :
    (x.run m).2.Closed ∧ m.Grows (x.run m).2 :=
  have hrun := hx h.alike
  ⟨of_alike hrun.1, hrun.2.1⟩

end Machine.Closed

/-- A run starts on a machine that holds nothing. -/
theorem Machine.closed_initial (verbose : Bool) : (Machine.initial verbose).Closed := by
  simp [Closed, initial]

variable {o : Outcome} {verbose : Bool}

theorem Outcome.Ends.closed (hrt : rt.Uniform fun _ _ => True) (h : Outcome.Ends rt verbose o) :
    o.machine.Closed ∧ 0 < o.machine.scopes.length := by
  have fits : (repetition Eq).Fits rt := repetition_eq_fits hrt
  have hroot (root : Token) :
      ((evaluate rt nestingLimit root 0).run (.initial verbose)).2.Closed ∧
        0 < ((evaluate rt nestingLimit root 0).run (.initial verbose)).2.scopes.length := by
    have hown : Link.identity.Exclusive 0 0 := by
      rintro i _ rfl
      exact Iff.rfl
    have hstart : (Link.identity.among (.initial verbose) (.initial verbose)).scopes 0 0 :=
      ⟨rfl, Nat.one_pos, Nat.one_pos⟩
    obtain ⟨hclosed, hgrows⟩ := (Machine.closed_initial verbose).run
      ((Comparison.lockstep fits Link.identity nestingLimit).1 root hstart fun _ => hown)
    exact ⟨hclosed, hgrows.scopes⟩
  cases h with
  | @finished root m v hrun =>
      obtain ⟨hclosed, hlength⟩ := hroot root
      rw [hrun] at hclosed hlength
      exact ⟨hclosed.of_same rfl rfl, hlength⟩
  | @tooDeep root m _ _ hrun =>
      obtain ⟨hclosed, hlength⟩ := hroot root
      rw [hrun] at hclosed hlength
      exact ⟨hclosed.of_same rfl rfl, hlength⟩
  | unread => exact ⟨(Machine.closed_initial verbose).of_same rfl rfl, Nat.one_pos⟩

/-! ### One call after the other -/

/-- The machines that calls by name in the state come to, one call after the other. -/
inductive Machine.Later (rt : Runtime) (m : Machine) : Machine → Prop where
  | refl : Later rt m m
  | called {m' : Machine} (name : String) {argument : Value} : Later rt m m' → m'.Holds argument →
      Later rt m ((callByName rt 0 name [argument]).run m').2

/-- What calls make of a machine: all of its scopes are as they were, and its report was appended
to. -/
structure Machine.Precedes (m m' : Machine) : Prop where
  grows : m.Grows m'
  same : ∀ i < m.scopes.length, m'.scope i = m.scope i
  report : m.report.Precedes m'.report

namespace Machine.Precedes

theorem refl (m : Machine) : m.Precedes m :=
  ⟨.refl m, fun _ _ => rfl, .refl _⟩

theorem trans {m'' : Machine} (h : m.Precedes m') (h' : m'.Precedes m'') : m.Precedes m'' where
  grows := h.grows.trans h'.grows
  same i hi := (h'.same i (Nat.lt_of_lt_of_le hi h.grows.scopes)).trans (h.same i hi)
  report := h.report.trans h'.report

/-- A machine matches those that calls have made of it, as far as its own scopes go. -/
theorem matches_identity (h : m.Precedes m') (hclosed : m.Closed) :
    m.Matches (repetition (Report.GotSame m.report m'.report)) (Link.identity.among m m') m' := by
  have hle : Link.identity.among m m ≤ Link.identity.among m m' :=
    Link.among_le_among _ (.refl m) h.grows
  constructor
  · exact fun i j hij => hij.2
  · exact fun a b hab => hab.2
  · exact hclosed.alike.distinguishes.below
  · rintro i _ ⟨rfl, hi, -⟩
    rw [h.same i hi]
    exact List.forall₂_same.mpr fun e he => ⟨rfl, (m.scope_all hclosed i e he).mono hle⟩
  · refine ⟨{ verbose := m.report.verbose }, rfl, ?_, ?_⟩
    · rw [Report.append_empty]
    · rw [Report.append_empty]
  · trivial

end Machine.Precedes

theorem run_callByName (scope : Nat) (name : String) (arguments : List Value) :
    (callByName rt scope name arguments).run m =
      match Key.lookup? (.str name) (m.scope scope) with
      | some f => (call rt nestingLimit f arguments).run m
      | none =>
        (.error (.missingKey (Text.quote name)), m.noteFault none (.missingKey (Text.quote name))) := by
  show (match Key.lookup? (.str name) (m.scope scope) with
    | some f => call rt nestingLimit f arguments
    | none => Run.raise none (.missingKey (Text.quote name))).run m = _
  split <;> rfl

/-- What one call by name makes of a machine. -/
theorem Machine.Closed.callByName (hrt : rt.Uniform fun _ _ => True) (h : m.Closed)
    (hscope : 0 < m.scopes.length) (name : String) {argument : Value} (hargument : m.Holds argument) :
    ((ArrayExpr.callByName rt 0 name [argument]).run m).2.Closed ∧
      m.Precedes ((ArrayExpr.callByName rt 0 name [argument]).run m).2 := by
  have fits : (repetition Eq).Fits rt := repetition_eq_fits hrt
  obtain ⟨hclosed, hgrows⟩ := h.run
    (callByName_lockstep fits ⟨rfl, hscope, hscope⟩ name (.cons hargument .nil))
  have hchange : Machine.Isolated none m ((ArrayExpr.callByName rt 0 name [argument]).run m).2 ∧
      m.report.Precedes ((ArrayExpr.callByName rt 0 name [argument]).run m).2.report := by
    rw [run_callByName]
    split
    · exact ⟨call_isolated _ _ _ _ _, call_precedes _ _ _ _ _⟩
    · exact ⟨.of_scopes rfl, .refl _⟩
  exact ⟨hclosed, hgrows, fun i hi => hchange.1.same i hi nofun, hchange.2⟩

theorem Machine.Later.precedes (hrt : rt.Uniform fun _ _ => True) (hclosed : m.Closed)
    (hstate : 0 < m.scopes.length) (h : m.Later rt m') : m'.Closed ∧ m.Precedes m' := by
  induction h with
  | refl => exact ⟨hclosed, .refl m⟩
  | called name _ hargument ih =>
      have hscope := Nat.lt_of_lt_of_le hstate ih.2.grows.scopes
      obtain ⟨hcalled, hprecedes⟩ := ih.1.callByName hrt hscope name hargument
      exact ⟨hcalled, ih.2.trans hprecedes⟩

/-- **Calls after a run are independent of each other.** Let the functions of the runtime not go by
the calls made so far. After a run that gives a result and any number of later calls, the state has
the bindings that it had when the run ended, and issues were only appended. A call that could have
been made earlier, right at the end of the run if nothing in its argument was made by a later call,
then gives the same and adds the same to the report as it would have done earlier, up to the numbers
of the scopes and the marks of the undefined numbers that it makes. -/
theorem callByName_eq_earlier_call (hrt : rt.Uniform fun _ _ => True) (ho : o.Of rt verbose)
    {value : Value} (hresult : o.result = .ok value) (hm : o.machine.Later rt m)
    (hm' : m.Later rt m') :
    m'.scope 0 = o.state ∧ o.issues <+: m'.report.issues ∧
      ∀ (name : String) (argument : Value), m.Holds argument →
        ∃ (K : Link) (added : Report), K.GrownFrom (Link.identity.among m m') m m' ∧
          ResultsAlike (Value.Alike K) ((callByName rt 0 name [argument]).run m).1
            ((callByName rt 0 name [argument]).run m').1 ∧
          (∀ i j, K.scopes i j → Key.Related Eq (Value.Alike K)
            (((callByName rt 0 name [argument]).run m).2.scope i)
            (((callByName rt 0 name [argument]).run m').2.scope j)) ∧
          ((callByName rt 0 name [argument]).run m).2.report = m.report ++ added ∧
          ((callByName rt 0 name [argument]).run m').2.report = m'.report ++ added := by
  obtain ⟨hclosed, hstate⟩ := (ho.ends hresult).closed hrt
  obtain ⟨hclosed, hprecedes⟩ := hm.precedes hrt hclosed hstate
  have hscope := Nat.lt_of_lt_of_le hstate hprecedes.grows.scopes
  obtain ⟨-, hprecedes'⟩ := hm'.precedes hrt hclosed hscope
  have hscope' := Nat.lt_of_lt_of_le hscope hprecedes'.grows.scopes
  have hsince := hprecedes.trans hprecedes'
  refine ⟨hsince.same 0 hstate, hsince.report.issues, fun name argument hargument => ?_⟩
  have hle : Link.identity.among m m ≤ Link.identity.among m m' :=
    Link.among_le_among _ (.refl _) hprecedes'.grows
  obtain ⟨K, hgrown, hafter, hresults⟩ :=
    (hprecedes'.matches_identity hclosed).callByName
      (Report.GotSame.fits hrt hprecedes'.report.verbose) ⟨rfl, hscope, hscope'⟩ name
      (.cons (hargument.mono hle) .nil)
  obtain ⟨added, -, honce, hagain⟩ := hafter.report
  exact ⟨K, added, hgrown, hresults, hafter.scope, honce, hagain⟩

/-- `f` assigns in a copy of the state, refers to a name that is bound to nothing, and gives a
function; it is called with one argument and then with another. -/
theorem callByName_eq_earlier_call_assigning :
    let body : Token :=
      .program .nowhere
        [.assignment .nowhere (.path .nowhere ["c"]) (.reference .nowhere (.path .nowhere ["y"])),
         .assignment .nowhere (.path .nowhere ["g"])
          (.function .nowhere (.str "z") (.reference .nowhere (.path .nowhere ["c"])))]
    let root : Token :=
      .program .nowhere
        [.assignment .nowhere (.path .nowhere ["c"]) (.literal .nowhere (.int 1)),
         .assignment .nowhere (.path .nowhere ["f"]) (.function .nowhere (.str "x") body)]
    let o := interpretToken .standard false root
    let m := ((callByName .standard 0 "f" [.int 5]).run o.machine).2
    o.machine.Later .standard m ∧ m.scope 0 = o.state ∧
      ∃ (K : Link) (added : Report),
        ResultsAlike (Value.Alike K) ((callByName .standard 0 "f" [.int 7]).run o.machine).1
          ((callByName .standard 0 "f" [.int 7]).run m).1 ∧
        ((callByName .standard 0 "f" [.int 7]).run o.machine).2.report =
          o.machine.report ++ added ∧
        ((callByName .standard 0 "f" [.int 7]).run m).2.report = m.report ++ added := by
  intro body root o m
  have ho : o.Of .standard false := .token root
  have hresult : o.result = .ok _ := rfl
  have hlater : o.machine.Later .standard m := .called "f" .refl (.atom rfl)
  obtain ⟨hstate, -, hcall⟩ :=
    callByName_eq_earlier_call (Runtime.standard_uniform _) ho hresult .refl hlater
  obtain ⟨K, added, -, hresults, -, honce, hagain⟩ := hcall "f" (.int 7) (.atom rfl)
  exact ⟨hlater, hstate, K, added, hresults, honce, hagain⟩

end ArrayExpr
