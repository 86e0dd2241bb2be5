import ArrayExpr.Proofs.Appending
import ArrayExpr.Proofs.Isolation
import ArrayExpr.Proofs.Outcome
import ArrayExpr.Proofs.SimulationEvaluation

/-!
A composition against nested applications. A composition finds all its functions before the first call
and lets faults pass, while nested applications find each function after the calls inside and turn its
fault into an issue. Calls do not change how a name of the scope is found, so both call the same
functions on the same values up to the first call that fails (`composition_agrees_with_applications`).
Only the warnings about names that are not bound come at other times, and so in another order.
-/

namespace ArrayExpr

/-- Nested applications of named functions, each at its place, the first outermost. -/
def applications (places : List (Span × String)) (argument : Token) : Token :=
  places.foldr (fun p inner => .application p.1 (.str p.2) inner) argument

/-- The function that a name stands for among bindings; one that is not bound lets its argument
through. -/
def functionNamed (bindings : Scope) (name : String) : Value :=
  (Key.lookup? (.str name) bindings).getD (.foreign .passThrough)

def functionsAt (bindings : Scope) (places : List (Span × String)) : List Value :=
  places.map fun p => functionNamed bindings p.2

def missingWarnings (bindings : Scope) (name : String) : List String :=
  if (Key.lookup? (.str name) bindings).isSome then []
  else ["Foreign function \"" ++ name ++ "\" not found! Passing through..."]

/-! ### Finding functions -/

/-- A machine that has found a function by name: it may have one more warning. -/
structure Machine.Warned (warnings : List String) (m m' : Machine) : Prop where
  scopes : m'.scopes = m.scopes
  issues : m'.report.issues = m.report.issues
  warnings : m'.report.warnings = m.report.warnings ++ warnings
  calls : m'.calls = m.calls
  raised : m'.raised = m.raised
  mark : m'.mark = m.mark

theorem Machine.Warned.refl (m : Machine) : Machine.Warned [] m m :=
  ⟨rfl, rfl, by simp, rfl, rfl, rfl⟩

theorem Machine.Warned.trans {ws ws' : List String} {m m' m'' : Machine}
    (h : Machine.Warned ws m m') (h' : Machine.Warned ws' m' m'') :
    Machine.Warned (ws ++ ws') m m'' :=
  ⟨h'.scopes.trans h.scopes, h'.issues.trans h.issues,
    by rw [h'.warnings, h.warnings, List.append_assoc], h'.calls.trans h.calls,
    h'.raised.trans h.raised, h'.mark.trans h.mark⟩

/-- A name that is bound, or is not and can be warned about: the warning lists all names that are. -/
def Resolvable (bindings : Scope) (name : String) : Prop :=
  (Key.lookup? (.str name) bindings).isSome = true ∨ ∃ names, sortedNames bindings = .ok names

theorem run_resolve {bindings : Scope} {name : String} (hname : Resolvable bindings name)
    (m : Machine) :
    ∃ m', (resolve bindings (.str name)).run m = (.ok (functionNamed bindings name), m') ∧
      Machine.Warned (missingWarnings bindings name) m m' := by
  unfold functionNamed missingWarnings
  cases h : Key.lookup? (.str name) bindings with
  | some f =>
      rw [Simulation.resolve_eq_pure h]
      exact ⟨m, rfl, by simpa using Machine.Warned.refl m⟩
  | none =>
      have hfind : find bindings (.str name) = pure none :=
        congrArg (pure : Option Value → Run (Option Value)) h
      rw [Resolvable, h] at hname
      obtain ⟨names, hnames⟩ := hname.resolve_left Bool.false_ne_true
      unfold resolve
      rw [hfind, pure_bind, hnames]
      exact ⟨_, rfl, ⟨rfl, rfl, rfl, rfl, rfl, rfl⟩⟩

/-- A name that is not bound and cannot be warned about is a fault. -/
theorem resolvable_of_run_resolve {bindings : Scope} {name : String} {m m' : Machine} {f : Value}
    (h : (resolve bindings (.str name)).run m = (.ok f, m')) : Resolvable bindings name := by
  cases hfound : Key.lookup? (.str name) bindings with
  | some g => exact .inl (by rw [hfound]; rfl)
  | none =>
      have hfind : find bindings (.str name) = pure none :=
        congrArg (pure : Option Value → Run (Option Value)) hfound
      unfold resolve at h
      rw [hfind, pure_bind] at h
      obtain ⟨text, m₁, -, h⟩ := Run.exists_of_run_bind_eq_ok h
      obtain ⟨names, m₂, hnames, -⟩ := Run.exists_of_run_bind_eq_ok h
      exact .inr ⟨names, (Run.eq_of_run_lift_eq_ok hnames).1⟩

theorem run_resolveAll {bindings : Scope} {names : List String}
    (hnames : ∀ name ∈ names, Resolvable bindings name) (m : Machine) :
    ∃ m', (names.mapM fun name => resolve bindings (.str name)).run m =
        (.ok (names.map (functionNamed bindings)), m') ∧
      Machine.Warned (names.flatMap (missingWarnings bindings)) m m' := by
  induction names generalizing m with
  | nil => exact ⟨m, rfl, .refl m⟩
  | cons name names ih =>
      obtain ⟨hname, hrest⟩ := List.forall_mem_cons.mp hnames
      obtain ⟨m₁, hfirst, hwarned⟩ := run_resolve hname m
      obtain ⟨m₂, hrest, hwarned'⟩ := ih hrest m₁
      refine ⟨m₂, ?_, hwarned.trans hwarned'⟩
      rw [List.mapM_cons, Run.run_bind, hfirst]
      simp only
      rw [Run.run_bind, hrest]
      rfl

theorem resolvable_of_run_resolveAll {bindings : Scope} {names : List String} {m m' : Machine}
    {fs : List Value}
    (h : (names.mapM fun name => resolve bindings (.str name)).run m = (.ok fs, m')) :
    ∀ name ∈ names, Resolvable bindings name := by
  induction names generalizing m m' fs with
  | nil => exact List.forall_mem_nil _
  | cons name names ih =>
      rw [List.mapM_cons] at h
      obtain ⟨f, m₁, hfirst, h⟩ := Run.exists_of_run_bind_eq_ok h
      obtain ⟨rest, m₂, hrest, -⟩ := Run.exists_of_run_bind_eq_ok h
      exact List.forall_mem_cons.mpr ⟨resolvable_of_run_resolve hfirst, ih hrest⟩

/-! ### Runs that have warnings still to come -/

/-- Two runs of which the second has made some warnings already that the first has still to make. -/
def behind (pending : List String) : Simulation where
  body := Eq
  report r r' := r.issues = r'.issues ∧ (r.warnings ++ pending).Perm r'.warnings
  flat := True

theorem behind_fits (pending : List String) (rt : Runtime) : (behind pending).Fits rt := by
  apply Simulation.fits_of_same_bodies
  · rintro r r' text details ⟨hissues, hwarnings⟩
    have hmoved : (r.warnings ++ [text] ++ pending).Perm (r.warnings ++ pending ++ [text]) := by
      rw [List.append_assoc, List.append_assoc]
      exact List.Perm.append_left _ List.perm_append_comm
    exact ⟨hissues, hmoved.trans (hwarnings.append_right _)⟩
  · rintro r r' span text ⟨hissues, hwarnings⟩
    exact ⟨by simp only [Report.issue, hissues], hwarnings⟩

namespace Machine

/-- What the machines of two runs have in common of which the second is ahead by some warnings. -/
structure Behind (pending : List String) (m m' : Machine) : Prop where
  scopes : m.scopes = m'.scopes
  issues : m.report.issues = m'.report.issues
  warnings : (m.report.warnings ++ pending).Perm m'.report.warnings
  calls : m.calls = m'.calls
  raised : m.raised = m'.raised
  mark : m.mark = m'.mark

namespace Behind

variable {pending : List String} {m m' m'' : Machine}

theorem machines (h : m.Behind pending m') : (behind pending).Machines m m' := by
  refine ⟨?_, ⟨h.issues, h.warnings⟩, h.calls, h.raised, h.mark⟩
  rw [h.scopes]
  refine List.forall₂_same.mpr fun s _ => List.forall₂_same.mpr fun e _ => ⟨rfl, ?_⟩
  exact Value.corresponds_refl (fun _ => rfl) e.2

theorem of_machines (h : (behind pending).Machines m m') : m.Behind pending m' :=
  ⟨h.scopes_eq, h.report.1, h.report.2, h.calls, h.raised, h.mark⟩

theorem refl (m : Machine) : m.Behind [] m :=
  ⟨rfl, rfl, by simp, rfl, rfl, rfl⟩

/-- A machine that is behind a third one is as much behind a second one that is level with it. -/
theorem of_level (h : m.Behind pending m'') (hlevel : m'.Behind [] m'') : m.Behind pending m' := by
  have hwarnings : m'.report.warnings.Perm m''.report.warnings := by simpa using hlevel.warnings
  exact ⟨h.scopes.trans hlevel.scopes.symm, h.issues.trans hlevel.issues.symm,
    h.warnings.trans hwarnings.symm, h.calls.trans hlevel.calls.symm,
    h.raised.trans hlevel.raised.symm, h.mark.trans hlevel.mark.symm⟩

/-- The second run makes warnings first. -/
theorem of_warned {warnings : List String} (h : Warned warnings m m') : m.Behind warnings m' :=
  ⟨h.scopes.symm, h.issues.symm, by rw [h.warnings], h.calls.symm, h.raised.symm, h.mark.symm⟩

/-- The first run makes warnings that the second has made before. -/
theorem catchUp {made : List String} {m₁ : Machine} (h : m.Behind (pending ++ made) m')
    (hmade : Warned made m m₁) : m₁.Behind pending m' := by
  refine ⟨hmade.scopes.trans h.scopes, hmade.issues.trans h.issues, ?_,
    hmade.calls.trans h.calls, hmade.raised.trans h.raised, hmade.mark.trans h.mark⟩
  rw [hmade.warnings, List.append_assoc]
  exact (List.Perm.append_left _ List.perm_append_comm).trans h.warnings

end Behind

end Machine

section Calls

variable {pending : List String} {rt : Runtime} {depth depth' : Nat} {m m' : Machine}

/-- A call that does not meet the nesting limit ends alike at a greater depth, from a machine that is
ahead by some warnings. -/
theorem call_deeper (h : m.Behind pending m') (hle : depth ≤ depth') (f : Value)
    (arguments : List Value) (hlimit : ((call rt depth f arguments).run m).2.exhausted = false) :
    ((call rt depth f arguments).run m).1 = ((call rt depth' f arguments).run m').1 ∧
      ((call rt depth f arguments).run m).2.Behind pending
        ((call rt depth' f arguments).run m').2 := by
  have hcalls : (behind pending).Calls rt depth depth' :=
    (Simulation.follows (behind_fits pending rt) (.inr ⟨trivial, hle⟩)).2
  rcases hcalls (Value.corresponds_refl (fun _ => rfl) f)
      (Value.itemsCorrespond_refl (fun _ => rfl) arguments) h.machines with
    ⟨-, hdeep⟩ | ⟨hmachines, hresults⟩
  · rw [hlimit] at hdeep
    cases hdeep
  · exact ⟨(hresults.imp fun _ _ hv => hv.eq).eq, .of_machines hmachines⟩

/-- A call ends alike from machines of which one is behind the other by some warnings, at whatever
depths, unless it meets the nesting limit at one of them. -/
theorem call_behind (h : m.Behind pending m') (f : Value) (arguments : List Value)
    (hlimit : ((call rt depth f arguments).run m).2.exhausted = false)
    (hlimit' : ((call rt depth' f arguments).run m').2.exhausted = false) :
    ((call rt depth f arguments).run m).1 = ((call rt depth' f arguments).run m').1 ∧
      ((call rt depth f arguments).run m).2.Behind pending
        ((call rt depth' f arguments).run m').2 := by
  -- Both are compared with the call from the second machine at the greater depth.
  obtain ⟨hresult, hbehind⟩ := call_deeper h (Nat.le_max_left depth depth') f arguments hlimit
  obtain ⟨hresult', hbehind'⟩ :=
    call_deeper (.refl m') (Nat.le_max_right depth depth') f arguments hlimit'
  exact ⟨hresult.trans hresult'.symm, hbehind.of_level hbehind'⟩

end Calls

/-! ### Stages and applications -/

/-- The calls of a composition: the last function gets the value, and each one before it the result so
far. -/
def stages (rt : Runtime) (depth : Nat) (functions : List Value) (v : Value) : Run Value :=
  functions.foldrM (fun f result => call rt depth f [result]) v

section Stages

variable {rt : Runtime} {depth : Nat}

theorem stages_cons (f : Value) (fs : List Value) (v : Value) :
    stages rt depth (f :: fs) v = stages rt depth fs v >>= fun u => call rt depth f [u] := by
  simp [stages]

theorem pipeline_eq_stages {fs : List Value} (hfs : fs ≠ []) (v : Value) :
    pipeline (call rt depth) fs [v] = stages rt depth fs v := by
  unfold pipeline stages
  rw [← List.foldlM_reverse]
  cases h : fs.reverse with
  | nil => exact absurd (List.reverse_eq_nil_iff.mp h) hfs
  | cons last others => rw [List.foldlM_cons]

/-- Calling a composition is calling its functions; one without functions lets its argument through. -/
theorem run_call_composition {names : List String} {fs : List Value} {v : Value} {m : Machine}
    (hlimit : ((call rt (depth + 1) (.composition names fs) [v]).run m).2.exhausted = false) :
    (call rt (depth + 1) (.composition names fs) [v]).run m = (stages rt depth fs v).run m := by
  have hcall : call rt (depth + 1) (.composition names fs) [v] = pipeline (call rt depth) fs [v] := rfl
  rw [hcall] at hlimit ⊢
  by_cases hfs : fs = []
  · subst hfs
    cases depth with
    | zero =>
        have hdeep : (m.noteFault none .tooDeep).exhausted = true := Machine.exhausted_noteFault rfl
        exact absurd (hdeep.symm.trans hlimit) (by decide)
    | succ depth => rfl
  · rw [pipeline_eq_stages hfs]

end Stages

section Applications

variable {rt : Runtime} {scope : Nat} {m : Machine}

theorem run_safely (span : Span) (x : Run Value) :
    (Run.safely span x).run m =
      match x.run m with
      | (.ok v, m') => (.ok v, m')
      | (.error fault, m') =>
        (.ok .failure, { m' with report := m'.report.issue span fault.report }) := by
  rw [Run.safely, Run.run_tryCatch]
  cases x.run m with
  | mk r m' => cases r <;> rfl

/-- Once its argument is there, an application finds its function and calls it, guarded. -/
theorem run_application {depth : Nat} {inner : Token} {u : Value} {m₁ : Machine}
    (hinner : (evaluate rt depth inner scope).run m = (.ok u, m₁)) (span : Span) {name : String}
    (hname : Resolvable (rt.merged (m₁.scope scope)) name) :
    ∃ m₂, Machine.Warned (missingWarnings (rt.merged (m₁.scope scope)) name) m₁ m₂ ∧
      (evaluate rt (depth + 1) (.application span (.str name) inner) scope).run m =
        (Run.safely span
          (call rt depth (functionNamed (rt.merged (m₁.scope scope)) name) [u])).run m₂ := by
  obtain ⟨m₂, hresolve, hwarned⟩ := run_resolve hname m₁
  refine ⟨m₂, hwarned, ?_⟩
  have hoperand : ((Operands.one inner).evaluate (evaluate rt depth · scope)).run m =
      (.ok (.one u), m₁) := by
    rw [Operands.evaluate, Run.run_bind, hinner]
    rfl
  rw [evaluate, evaluateBy, operate, Run.run_bind, hoperand]
  dsimp only
  rw [Run.run_bind, Callee.resolve, Run.run_get_bind, hresolve]
  rfl

/-- A guarded call gives a value, leaves all scopes as they were and takes no issue back. -/
theorem run_safely_call (span : Span) (depth : Nat) (f : Value) (arguments : List Value) :
    (∃ w, ((Run.safely span (call rt depth f arguments)).run m).1 = .ok w) ∧
      Machine.Isolated none m ((Run.safely span (call rt depth f arguments)).run m).2 ∧
      m.report.issues <+: ((Run.safely span (call rt depth f arguments)).run m).2.report.issues := by
  have hisolated := call_isolated rt depth f arguments m
  have hissues := (call_precedes rt depth m f arguments).issues
  rw [run_safely]
  generalize (call rt depth f arguments).run m = ran at hisolated hissues
  obtain ⟨r, m'⟩ := ran
  cases r with
  | ok v => exact ⟨⟨v, rfl⟩, hisolated, hissues⟩
  | error fault =>
      have hsame : Machine.Isolated none m' { m' with report := m'.report.issue span fault.report } :=
        .of_scopes rfl
      exact ⟨⟨_, rfl⟩, hisolated.trans hsame, hissues.trans (List.prefix_append _ _)⟩

/-- How nested applications end, against the calls of a composition that end in a value or at the
first call to fail. The machine of the applications may be behind by some warnings. -/
inductive Agree (rt : Runtime) (depth : Nat) (bindings : Scope) (places : List (Span × String))
    (v : Value) (m : Machine) (pending : List String) :
    Except Fault Value × Machine → Except Fault Value × Machine → Prop where
  | done {w : Value} {nested composed : Machine} : nested.Behind pending composed →
      Agree rt depth bindings places v m pending (.ok w, nested) (.ok w, composed)
  | failed {outer inner : List (Span × String)} {span : Span} {name : String} {u w : Value}
      {fault : Fault} {rest : List Issue} {m₁ nested composed : Machine} :
      places = outer ++ (span, name) :: inner →
      (stages rt depth (functionsAt bindings inner) v).run m = (.ok u, m₁) →
      (call rt depth (functionNamed bindings name) [u]).run m₁ = (.error fault, composed) →
      nested.report.issues =
        composed.report.issues ++ { span, message := fault.report } :: rest →
      Agree rt depth bindings places v m pending (.ok w, nested) (.error fault, composed)

theorem Agree.exists_ok {depth : Nat} {bindings : Scope} {places : List (Span × String)} {v : Value}
    {pending : List String} {nested composed : Except Fault Value × Machine}
    (h : Agree rt depth bindings places v m pending nested composed) : ∃ w n, nested = (.ok w, n) := by
  cases h with
  | done => exact ⟨_, _, rfl⟩
  | failed => exact ⟨_, _, rfl⟩

/-- Where a computation has not met the nesting limit, its first part has not. -/
theorem Run.not_exhausted_of_bind {α β : Type} {x : Run α} {f : α → Run β} (hf : ∀ a, (f a).Logs)
    (hlimit : ((x >>= f).run m).2.exhausted = false) : (x.run m).2.exhausted = false := by
  rw [Run.run_bind] at hlimit
  cases hx : x.run m with
  | mk r m₁ =>
      rw [hx] at hlimit
      cases r with
      | error fault => exact hlimit
      | ok a =>
          by_contra hdeep
          rw [Machine.exhausted_of_raised (hf a m₁) (by simpa using hdeep)] at hlimit
          cases hlimit

theorem exhausted_safely (span : Span) (x : Run Value) :
    ((Run.safely span x).run m).2.exhausted = (x.run m).2.exhausted := by
  rw [run_safely]
  cases x.run m with
  | mk r m₁ => cases r <;> rfl

/-- One more application, and one more function of the composition. -/
theorem Agree.cons {depth depth' : Nat} {bindings : Scope} {places : List (Span × String)} {v : Value}
    {m₁ : Machine} {pending : List String} {span : Span} {name : String} {u : Value} {n n₁ : Machine}
    (hinner : Agree rt depth bindings places v m₁ (pending ++ missingWarnings bindings name) (.ok u, n)
      ((stages rt depth (functionsAt bindings places) v).run m₁))
    (hwarned : Machine.Warned (missingWarnings bindings name) n n₁)
    (hlimit : ((call rt depth' (functionNamed bindings name) [u]).run n₁).2.exhausted = false)
    (hlimit' : ((stages rt depth (functionsAt bindings ((span, name) :: places)) v).run
      m₁).2.exhausted = false) :
    Agree rt depth bindings ((span, name) :: places) v m₁ pending
      ((Run.safely span (call rt depth' (functionNamed bindings name) [u])).run n₁)
      ((stages rt depth (functionsAt bindings ((span, name) :: places)) v).run m₁) := by
  have hstages : functionsAt bindings ((span, name) :: places) =
      functionNamed bindings name :: functionsAt bindings places := rfl
  rw [hstages, stages_cons, Run.run_bind] at hlimit' ⊢
  generalize hran : (stages rt depth (functionsAt bindings places) v).run m₁ = ran at hinner hlimit' ⊢
  cases hinner with
  | @done _ _ composed hbehind =>
      simp only at hlimit' ⊢
      obtain ⟨hresult, hbehind'⟩ := call_behind (hbehind.catchUp hwarned) _ _ hlimit hlimit'
      rw [run_safely]
      cases hcall : (call rt depth (functionNamed bindings name) [u]).run composed with
      | mk r composed' =>
          cases hcall' : (call rt depth' (functionNamed bindings name) [u]).run n₁ with
          | mk r' n₂ =>
              rw [hcall, hcall'] at hresult hbehind'
              obtain rfl : r' = r := hresult
              cases r' with
              | ok w => exact .done hbehind'
              | error fault =>
                  have hplaces : (span, name) :: places = [] ++ (span, name) :: places := rfl
                  have hissues : (n₂.report.issue span fault.report).issues =
                      composed'.report.issues ++ { span, message := fault.report } :: [] := by
                    rw [← hbehind'.issues]
                    rfl
                  exact .failed hplaces hran hcall hissues
  | @failed outer inner span' name' u' _ fault rest m₂ _ composed hplaces hinner hcall hissues =>
      obtain ⟨⟨w, hw⟩, -, added, hadded⟩ :=
        @run_safely_call rt n₁ span depth' (functionNamed bindings name) [u]
      generalize (Run.safely span (call rt depth' (functionNamed bindings name) [u])).run n₁ = ended
        at hw hadded
      obtain ⟨r, nested⟩ := ended
      obtain rfl : r = .ok w := hw
      have hplaces' : (span, name) :: places = ((span, name) :: outer) ++ (span', name') :: inner := by
        rw [hplaces]
        rfl
      have hissues' : nested.report.issues =
          composed.report.issues ++ { span := span', message := fault.report } :: (rest ++ added) := by
        rw [← hadded, hwarned.issues, hissues]
        simp
      exact .failed hplaces' hinner hcall hissues'

/-- Nested applications agree with the calls of a composition that starts ahead by the warnings about
all the names. -/
theorem applications_agree {depth depth' : Nat} {argument : Token} {v : Value} {m₁ m₂ : Machine}
    (hscope : scope < m₁.scopes.length)
    (hargument : (evaluate rt depth' argument scope).run m = (.ok v, m₁))
    {places : List (Span × String)}
    (hnames : ∀ p ∈ places, Resolvable (rt.merged (m₁.scope scope)) p.2) {pending : List String}
    (hbehind : m₁.Behind (pending ++
      places.flatMap fun p => missingWarnings (rt.merged (m₁.scope scope)) p.2) m₂)
    (hlimit : ((evaluate rt (depth' + places.length) (applications places argument) scope).run
      m).2.exhausted = false)
    (hlimit' : ((stages rt depth (functionsAt (rt.merged (m₁.scope scope)) places) v).run
      m₂).2.exhausted = false) :
    Agree rt depth (rt.merged (m₁.scope scope)) places v m₂ pending
        ((evaluate rt (depth' + places.length) (applications places argument) scope).run m)
        ((stages rt depth (functionsAt (rt.merged (m₁.scope scope)) places) v).run m₂) ∧
      Machine.Isolated none m₁
        ((evaluate rt (depth' + places.length) (applications places argument) scope).run m).2 := by
  induction places generalizing pending with
  | nil =>
      have hnested : (evaluate rt (depth' + 0) (applications [] argument) scope).run m = (.ok v, m₁) :=
        hargument
      rw [List.length_nil, hnested]
      have hlevel : m₁.Behind pending m₂ := by simpa using hbehind
      exact ⟨.done hlevel, .of_scopes rfl⟩
  | cons place places ih =>
      obtain ⟨span, name⟩ := place
      obtain ⟨hname, hrest⟩ := List.forall_mem_cons.mp hnames
      have hnested : ((evaluate rt (depth' + places.length) (applications places argument) scope).run
          m).2.exhausted = false := by
        have hbind : ((evaluate rt (depth' + places.length + 1)
            (.application span (.str name) (applications places argument)) scope).run
              m).2.exhausted = false := hlimit
        rw [evaluate, evaluateBy, operate] at hbind
        have hoperand := Run.not_exhausted_of_bind (by simp) hbind
        rw [Operands.evaluate] at hoperand
        exact Run.not_exhausted_of_bind (by simp) hoperand
      have hcomposed : ((stages rt depth (functionsAt (rt.merged (m₁.scope scope)) places) v).run
          m₂).2.exhausted = false := by
        have hbind := hlimit'
        rw [functionsAt, List.map_cons, stages_cons] at hbind
        exact Run.not_exhausted_of_bind (by simp) hbind
      rw [List.flatMap_cons, ← List.append_assoc] at hbehind
      obtain ⟨hagree, hisolated⟩ := ih hrest hbehind hnested hcomposed
      obtain ⟨u, n, hrun⟩ := hagree.exists_ok
      rw [hrun] at hagree hisolated
      -- The calls inside have left the scope as it was, so the name is found as the composition did.
      have hsame : n.scope scope = m₁.scope scope := hisolated.same scope hscope (by simp)
      obtain ⟨n₁, hwarned, happlication⟩ := run_application hrun span (hsame ▸ hname)
      rw [hsame] at hwarned happlication
      have hevaluate : (evaluate rt (depth' + ((span, name) :: places).length)
          (applications ((span, name) :: places) argument) scope).run m =
            (Run.safely span (call rt (depth' + places.length)
              (functionNamed (rt.merged (m₁.scope scope)) name) [u])).run n₁ := happlication
      rw [hevaluate] at hlimit ⊢
      rw [exhausted_safely] at hlimit
      obtain ⟨-, hcall, -⟩ := run_safely_call span (depth' + places.length)
        (functionNamed (rt.merged (m₁.scope scope)) name) [u]
      exact ⟨hagree.cons hwarned hlimit hlimit',
        (hisolated.trans (.of_scopes hwarned.scopes)).trans hcall⟩

end Applications

/-- A composition can be built where its names can be resolved, with at most some warnings. -/
theorem run_composition (rt : Runtime) (depth scope : Nat) (span : Span) (m : Machine)
    {places : List (Span × String)}
    (hnames : ∀ p ∈ places, Resolvable (rt.merged (m.scope scope)) p.2) :
    ∃ m₁, (evaluate rt (depth + 1) (.composition span (places.map Prod.snd)) scope).run m =
        (.ok (.composition (places.map Prod.snd)
          (functionsAt (rt.merged (m.scope scope)) places)), m₁) ∧
      Machine.Warned (places.flatMap fun p => missingWarnings (rt.merged (m.scope scope)) p.2) m m₁ := by
  obtain ⟨m₁, hresolve, hwarned⟩ := run_resolveAll (List.forall_mem_map.mpr hnames) m
  have hfunctions : (places.map Prod.snd).map (functionNamed (rt.merged (m.scope scope))) =
      functionsAt (rt.merged (m.scope scope)) places := List.map_map
  rw [hfunctions] at hresolve
  rw [List.flatMap_map] at hwarned
  refine ⟨m₁, ?_, hwarned⟩
  rw [evaluate, evaluateBy, composeNamed, Run.run_get_bind, Run.run_bind, hresolve]
  simp only [Run.run_pure]

theorem resolvable_of_run_composition {rt : Runtime} {depth scope : Nat} {span : Span} {m m₁ : Machine}
    {places : List (Span × String)} {c : Value}
    (h : (evaluate rt (depth + 1) (.composition span (places.map Prod.snd)) scope).run m =
      (.ok c, m₁)) :
    ∀ p ∈ places, Resolvable (rt.merged (m.scope scope)) p.2 := by
  rw [evaluate, evaluateBy, composeNamed, Run.run_get_bind] at h
  obtain ⟨fs, m₂, hresolve, -⟩ := Run.exists_of_run_bind_eq_ok h
  exact List.forall_mem_map.mp (resolvable_of_run_resolveAll hresolve)

/-- Names that can be written can be listed. -/
theorem resolvable_of_writable {rt : Runtime} {s : Scope} (h : ∀ e ∈ s, e.1.obstacle? = none)
    (name : String) : Resolvable (rt.merged s) name := by
  have hbindings : ∀ e ∈ rt.bindings, e.1.obstacle? = none ∧ True := by
    intro e he
    obtain ⟨name, hname⟩ := Runtime.exists_name_of_mem_bindings he
    rw [hname]
    exact ⟨rfl, trivial⟩
  have hmerged : ∀ e ∈ rt.merged s, e.1.obstacle? = none ∧ True :=
    Key.insertAll_entries_all (fun k => k.obstacle? = none) (Q := fun _ => True) hbindings
      fun e he => ⟨h e he, trivial⟩
  have hlist : ((rt.merged s).all fun e => e.1.obstacle?.isNone) = true :=
    List.all_eq_true.mpr fun e he => by rw [(hmerged e he).1]; rfl
  exact .inr ⟨_, if_pos hlist⟩

end ArrayExpr
