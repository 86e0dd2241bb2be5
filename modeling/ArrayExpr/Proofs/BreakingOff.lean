import ArrayExpr.Proofs.Appending
import ArrayExpr.Proofs.Assignments
import ArrayExpr.Proofs.UnknownMembers

/-!
Programs that break off. Most faults become issues at the calls that they end, but some are met
outside of every call: a name that can be no key or no text, or the nesting limit. Such a fault ends the
program at one of its members, and there is no undoing. In a program of assignments that assign nothing on the
side none is needed: a member binds its name as the last thing it does, and the functions that it calls
assign in scopes of their own. So what is left are the bindings of the members that were completed.
-/

namespace ArrayExpr

/-- A fault breaks a program off at one of its members. The members before it make a program that comes
to a result, and to the machine `completed` on which the member then fails. -/
inductive BreaksOff (rt : Runtime) (depth scope : Nat) (span : Span) (m : Machine) (fault : Fault)
    (completed m' : Machine) : List Token → Prop where
  | member {before after : List Token} {t : Token} {result : Value} :
      (evaluate rt (depth + 1) (.program span before) scope).run m = (.ok result, completed) →
      (evaluate rt depth t scope).run completed = (.error fault, m') →
      BreaksOff rt depth scope span m fault completed m' (before ++ t :: after)

variable {rt : Runtime} {depth scope : Nat} {m m' : Machine} {fault : Fault} {span : Span}

/-! ### Members that fail -/

/-- What an assignment gives merges without a fault and leaves the machine as it is. -/
theorem run_merge_assignment {t : Token} (ht : t.isFlat = true) {v : Value} (entries : Scope)
    (hrun : (evaluate rt depth t scope).run m = (.ok v, m')) :
    ∃ all, (Run.marking fun mark => v.merge mark entries).run m' = (.ok all, m') := by
  cases depth with
  | zero => cases hrun
  | succ depth =>
      cases t with
      | assignment =>
          obtain ⟨name, w, m₁, m₂, -, -, -, rfl⟩ := exists_of_run_assignment hrun
          exact ⟨_, Run.run_marking _ _⟩
      | _ => cases ht

theorem exists_member_of_run_mergeMembers {members : List Token}
    (hmembers : ∀ t ∈ members, t.isFlat = true) {entries : Scope}
    (hrun : (mergeMembers (evaluate rt depth · scope) entries members).run m = (.error fault, m')) :
    ∃ before t after all completed, members = before ++ t :: after ∧
      (mergeMembers (evaluate rt depth · scope) entries before).run m = (.ok all, completed) ∧
      (evaluate rt depth t scope).run completed = (.error fault, m') := by
  induction members generalizing m entries with
  | nil => cases hrun
  | cons t members ih =>
      obtain ⟨ht, hrest⟩ := List.forall_mem_cons.mp hmembers
      unfold mergeMembers at hrun
      rcases Run.cases_of_run_bind_eq_error hrun with hfails | ⟨v, m₁, hends, hrun⟩
      · exact ⟨[], t, members, entries, m, rfl, rfl, hfails⟩
      · obtain ⟨all, hmerge⟩ := run_merge_assignment ht entries hends
        rw [Run.run_bind, hmerge] at hrun
        obtain ⟨before, u, after, last, completed, rfl, hbefore, hfails⟩ := ih hrest hrun
        refine ⟨t :: before, u, after, last, completed, rfl, ?_, hfails⟩
        rw [mergeMembers, Run.run_bind, hends]
        dsimp only
        rw [Run.run_bind, hmerge]
        exact hbefore

theorem run_program_error_iff {members : List Token} (hmembers : ∀ t ∈ members, t.isFlat = true) :
    (evaluate rt (depth + 1) (.program span members) scope).run m = (.error fault, m') ↔
      ∃ completed, BreaksOff rt depth scope span m fault completed m' members := by
  constructor
  · intro hrun
    rw [evaluate, evaluateBy] at hrun
    rcases Run.cases_of_run_bind_eq_error hrun with hmerge | ⟨_, _, -, hdone⟩
    · obtain ⟨before, t, after, all, completed, rfl, hbefore, hfails⟩ :=
        exists_member_of_run_mergeMembers hmembers hmerge
      have hends : (evaluate rt (depth + 1) (.program span before) scope).run m =
          (.ok (.dict all), completed) := by
        rw [run_program, hbefore]
        rfl
      exact ⟨completed, .member hends hfails⟩
    · cases hdone
  · rintro ⟨completed, hbreaks⟩
    cases hbreaks with
    | @member before after t result hbefore ht =>
        obtain ⟨entries, -, hmerge⟩ := exists_of_run_program hbefore
        have hall : (mergeMembers (evaluate rt depth · scope) [] (before ++ t :: after)).run m =
            (.error fault, m') := by
          rw [mergeMembers_append, Run.run_bind, hmerge]
          dsimp only
          rw [mergeMembers, Run.run_bind, ht]
        rw [run_program, hall]
        rfl

theorem Run.scopes_lift {α : Type} (result : Except Fault α) (m : Machine) :
    ((Run.lift result).run m).2.scopes = m.scopes := by
  cases result <;> rfl

/-- An assignment that fails has changed no scope that was there. -/
theorem isolated_of_run_error {t : Token} (ht : t.isFlat = true)
    (hrun : (evaluate rt depth t scope).run m = (.error fault, m')) : m.Isolated none m' := by
  cases depth with
  | zero =>
      cases hrun
      exact .of_scopes rfl
  | succ depth =>
      cases t with
      | assignment span path value =>
          simp only [Token.isFlat, Bool.and_eq_true, Bool.not_eq_true'] at ht
          have hpath := evaluate_isolated_own rt depth path scope m
          rw [Token.own, ht.1] at hpath
          rw [evaluate, evaluateBy] at hrun
          rcases Run.cases_of_run_bind_eq_error hrun with hfails | ⟨name, m₁, hname, hrun⟩
          · rw [hfails] at hpath
            exact hpath
          rw [hname] at hpath
          have htext := Run.scopes_lift (name.shownWithin (writingRoom depth)) m₁
          rcases Run.cases_of_run_bind_eq_error hrun with hfails | ⟨text, m₂, hwritten, hrun⟩
          · rw [hfails] at htext
            exact hpath.trans (.of_scopes htext)
          rw [hwritten] at htext
          have hvalue := evaluate_isolated_own rt depth value scope m₂
          rw [Token.own, ht.2] at hvalue
          rcases Run.cases_of_run_bind_eq_error hrun with hfails | ⟨v, m₃, -, hbound⟩
          · rw [hfails] at hvalue
            exact (hpath.trans (.of_scopes htext)).trans hvalue
          · cases hbound
      | _ => cases ht

/-- The member that fails leaves all scopes as the completed members have left them. -/
theorem BreaksOff.scope_eq {members : List Token} {completed : Machine}
    (hmembers : ∀ t ∈ members, t.isFlat = true)
    (h : BreaksOff rt depth scope span m fault completed m' members) :
    m.scopes.length ≤ completed.scopes.length ∧
      ∀ j < completed.scopes.length, m'.scope j = completed.scope j := by
  cases h with
  | @member before after t result hbefore hfails =>
      have hcompleted := evaluate_isolated_own rt (depth + 1) (.program span before) scope m
      rw [hbefore] at hcompleted
      have hisolated := isolated_of_run_error (hmembers t (by simp)) hfails
      exact ⟨hcompleted.length_le, fun j hj => hisolated.same j hj nofun⟩

theorem BreaksOff.precedes {members : List Token} {completed : Machine}
    (h : BreaksOff rt depth scope span m fault completed m' members) :
    completed.report.Precedes m'.report := by
  cases h with
  | @member before after t result hbefore hfails =>
      have hprecedes : completed.report.Precedes
          ((evaluate rt depth t scope).run completed).2.report := evaluate_precedes rt depth completed t scope
      rw [hfails] at hprecedes
      exact hprecedes

/-- **A program that breaks off leaves the completed bindings and nothing else.** Let the members of a
program be assignments that assign nothing in computing their names and values. Its evaluation fails
just if a member does after those before it were completed. Then all scopes are as the completed
members left them, among them the scope of the program, and the report has at most got longer. If it is
a limit on nesting that a run meets there, the run gives the failure value and the completed bindings as
its state, and one more issue says that the program nests too deeply. -/
theorem breaksOff_keeps_completed {members : List Token}
    (hmembers : ∀ t ∈ members, t.isFlat = true) (rt : Runtime) (span : Span) :
    (∀ depth scope m fault m',
      (evaluate rt (depth + 1) (.program span members) scope).run m = (.error fault, m') ↔
        ∃ completed, BreaksOff rt depth scope span m fault completed m' members) ∧
    (∀ depth scope m fault completed m',
      BreaksOff rt depth scope span m fault completed m' members →
        m.scopes.length ≤ completed.scopes.length ∧
          (∀ j < completed.scopes.length, m'.scope j = completed.scope j) ∧
          completed.report.issues <+: m'.report.issues ∧
          completed.report.warnings <+: m'.report.warnings) ∧
    ∀ verbose (o : Outcome) fault completed m', o.From rt verbose (.program span members) →
      BreaksOff rt (nestingLimit - 1) 0 span (.initial verbose) fault completed m' members →
      fault.isTooDeep = true →
        o.result = .ok .failure ∧ o.state = completed.scope 0 ∧
          o.issues = m'.report.issues ++
            [{ span
               message :=
                 "Program nests too deeply to evaluate: maximum recursion depth exceeded" }] := by
  refine ⟨fun _ _ _ _ _ => run_program_error_iff hmembers, ?_, ?_⟩
  · intro depth scope m fault completed m' hbreaks
    obtain ⟨hlength, hscopes⟩ := hbreaks.scope_eq hmembers
    exact ⟨hlength, hscopes, hbreaks.precedes.issues, hbreaks.precedes.warnings⟩
  · intro verbose o fault completed m' ho hbreaks hlimit
    have hrun : (evaluate rt nestingLimit (.program span members) 0).run (.initial verbose) =
        (.error fault, m') := (run_program_error_iff hmembers).mpr ⟨completed, hbreaks⟩
    have hend : o = .tooDeep m' span := by
      rw [ho.eq_interpretToken, interpretToken, ← Machine.initial, hrun]
      exact if_pos hlimit
    obtain ⟨hlength, hscopes⟩ := hbreaks.scope_eq hmembers
    subst hend
    exact ⟨rfl, hscopes 0 hlength, rfl⟩

theorem evaluate_objects (rt : Runtime) (depth : Nat) (t : Token) (scope : Nat) :
    evaluate rt depth (Nat.repeat (Token.object .nowhere) depth t) scope = Run.raise none .tooDeep := by
  induction depth with
  | zero => rfl
  | succ depth ih => exact ih

/-- The name of the second member comes from a function that assigns to `a` and `b` in a scope of its
own; its value nests too deeply. -/
theorem breaksOff_keeps_completed_nested :
    let body : Token :=
      .program .nowhere
        [.assignment .nowhere (.path .nowhere ["a"]) (.reference .nowhere (.path .nowhere ["x"])),
          .assignment .nowhere (.path .nowhere ["b"]) (.reference .nowhere (.path .nowhere ["y"]))]
    let deep : Token :=
      Nat.repeat (Token.object .nowhere) (nestingLimit - 2) (.literal .nowhere .null)
    let f : Token :=
      .assignment .nowhere (.path .nowhere ["f"]) (.function .nowhere (.str "x") body)
    let last : Token :=
      .assignment .nowhere (.application .nowhere (.str "f") (.literal .nowhere (.int 1))) deep
    let rt : Runtime := .ofAtoms [] .nil (List.forall_mem_nil _)
    let o := interpretToken rt false (.program .nowhere [f, last])
    (∀ t ∈ [f, last], t.isFlat = true) ∧ o.result = .ok .failure ∧
      o.state = [(.str "f", .closure (.str "x") body 0)] ∧
      o.issues =
        [{ span := .nowhere
           message := "Program nests too deeply to evaluate: maximum recursion depth exceeded" }] := by
  intro body deep f last rt o
  have hmembers : ∀ t ∈ [f, last], t.isFlat = true := by decide +kernel
  let completed : Machine := { scopes := [[(.str "f", .closure (.str "x") body 0)]] }
  have hbefore : (evaluate rt nestingLimit (.program .nowhere [f]) 0).run (.initial false) =
      (.ok (.dict [(.str "f", .closure (.str "x") body 0)]), completed) := rfl
  obtain ⟨m', hfails, hnone⟩ : ∃ m', (evaluate rt (nestingLimit - 1) last 0).run completed =
      (.error .tooDeep, m') ∧ m'.report.issues = [] := by
    show ∃ m', (evaluate rt (nestingLimit - 2 + 1) last 0).run completed = _ ∧ _
    rw [evaluate, evaluateBy, evaluate_objects]
    exact ⟨_, rfl, rfl⟩
  have hbreaks : BreaksOff rt (nestingLimit - 1) 0 .nowhere (.initial false) .tooDeep completed m'
      [f, last] := .member hbefore hfails
  obtain ⟨hresult, hstate, hissues⟩ :=
    (breaksOff_keeps_completed hmembers rt .nowhere).2.2 false o .tooDeep completed m' .token hbreaks rfl
  rw [hnone] at hissues
  exact ⟨hmembers, hresult, hstate, hissues⟩

end ArrayExpr
