import ArrayExpr.Proofs.Outcome
import ArrayExpr.Proofs.Data

/-!
Where the failure value can be met. It comes into a run together with an issue and in no other way,
unless the runtime binds it or a function of the host makes it up. As issues are never taken back, a
run that ends without one has met no failure value, and none can be reached from what it leaves: not
in its result, not in its state, and not in the scopes that the functions among them refer to.
-/

namespace ArrayExpr

/-- A value in which the failure value occurs, at some depth of its lists, mappings and
compositions. -/
inductive Value.HasFailure : Value → Prop where
  | failure : HasFailure .failure
  | item {items : List Value} {v : Value} : v ∈ items → v.HasFailure → HasFailure (.list items)
  | entry {entries : List (Key × Value)} {e : Key × Value} :
      e ∈ entries → e.2.HasFailure → HasFailure (.dict entries)
  | key {entries : List (Key × Value)} {e : Key × Value} :
      e ∈ entries → e.1 = .failure → HasFailure (.dict entries)
  | stage {names : List String} {functions : List Value} {f : Value} :
      f ∈ functions → f.HasFailure → HasFailure (.composition names functions)

/-- A value from which the failure value can be reached on a machine, where closures lead on to the
values in the scopes that they refer to. -/
inductive Machine.ReachesFailure (m : Machine) : Value → Prop where
  | failure : ReachesFailure m .failure
  | item {items : List Value} {v : Value} :
      v ∈ items → ReachesFailure m v → ReachesFailure m (.list items)
  | entry {entries : List (Key × Value)} {e : Key × Value} :
      e ∈ entries → ReachesFailure m e.2 → ReachesFailure m (.dict entries)
  | key {entries : List (Key × Value)} {e : Key × Value} :
      e ∈ entries → e.1 = .failure → ReachesFailure m (.dict entries)
  | stage {names : List String} {functions : List Value} {f : Value} :
      f ∈ functions → ReachesFailure m f → ReachesFailure m (.composition names functions)
  | captured {parameter : Json} {body : Token} {i : Nat} {e : Key × Value} :
      e ∈ m.scope i → ReachesFailure m e.2 → ReachesFailure m (.closure parameter body i)

/-- A response that does not make up a failure: it gives none and hands none on, as long as it hears
of none. -/
def Response.Honest : Response → Prop
  | .ok v => ¬ v.HasFailure
  | .error _ => True
  | .call f arguments _ next =>
    ¬ f.HasFailure ∧ (∀ a ∈ arguments, ¬ a.HasFailure) ∧
      (∀ v, ¬ v.HasFailure → (next (.ok v)).Honest) ∧ ∀ fault, (next (.error fault)).Honest
  | .review next => ∀ calls, (next calls).Honest

/-! ### Values without failure -/

namespace Value

theorem not_hasFailure_list {items : List Value} (h : ∀ v ∈ items, ¬ v.HasFailure) :
    ¬ (Value.list items).HasFailure := by
  rintro (_ | ⟨hv, hfailure⟩)
  exact h _ hv hfailure

theorem not_hasFailure_dict {entries : List (Key × Value)}
    (h : ∀ e ∈ entries, ¬ e.1.toValue.HasFailure ∧ ¬ e.2.HasFailure) :
    ¬ (Value.dict entries).HasFailure := by
  intro hfailure
  cases hfailure with
  | entry he hvalue => exact (h _ he).2 hvalue
  | key he hkey => exact (h _ he).1 (hkey ▸ .failure)

theorem not_hasFailure_composition (names : List String) {functions : List Value}
    (h : ∀ f ∈ functions, ¬ f.HasFailure) : ¬ (Value.composition names functions).HasFailure := by
  intro hfailure
  cases hfailure with
  | stage hf hstage => exact h _ hf hstage

theorem Data.not_hasFailure {p : Undefined → Prop} {v : Value} (h : v.Data p) : ¬ v.HasFailure := by
  induction h with
  | list _ ih => exact not_hasFailure_list ih
  | dict hkeys _ ih =>
      refine not_hasFailure_dict fun e he => ⟨?_, ih e he⟩
      obtain ⟨s, hs⟩ := hkeys e he
      rw [hs]
      exact nofun
  | _ => exact nofun

theorem not_hasFailure_members {v : Value} {vs : List Value} (h : ¬ v.HasFailure)
    (hmembers : v.members? = some vs) : ∀ w ∈ vs, ¬ w.HasFailure := by
  intro w hw hfailure
  obtain ⟨items, rfl, hitem⟩ | ⟨entries, rfl, e, he, rfl⟩ | hdata := mem_members_cases hmembers hw
  · exact h (.item hitem hfailure)
  · cases hkey : e.1 with
    | failure => exact h (.key he hkey)
    | _ => rw [hkey] at hfailure; cases hfailure
  · exact hdata.not_hasFailure hfailure

end Value

/-! ### Runs without issues -/

/-- The contract that issues stay, and that without any there is no failure value. -/
def candour : Contract where
  token _ := True
  value m v := m.report.issues = [] → ¬ v.HasFailure
  change _ a b := b.machine.report.issues = [] → a.machine.report.issues = []

theorem candour_lawful : candour.Lawful where
  refl _ _ := id
  trans h h' hc := h (h' hc)
  widen := id
  opened := id
  bound _ _ _ _ := id
  marked _ _ := id
  warned _ _ _ := id
  raised _ _ := id
  caught m t fault _ _ hissues := absurd hissues (m.report.issues_issue_ne_nil t.span fault.report)
  child _ _ := trivial
  stable hchange hv hissues := hv (hchange hissues)
  none _ _ := nofun
  str _ _ _ := nofun
  undefined _ _ _ := nofun
  passThrough _ _ := nofun
  literal _ _ j _ _ := (Value.plain_ofJson j).not_hasFailure
  failure m span fault hissues := absurd hissues (m.report.issues_issue_ne_nil span fault.report)
  closure _ _ _ _ _ _ := nofun
  body _ := trivial
  composition names _ hfs hissues :=
    Value.not_hasFailure_composition names fun f hf => hfs f hf hissues
  stage h _ hf hissues hfailure := h hissues (.stage hf hfailure)
  dict h hissues := Value.not_hasFailure_dict fun e he => ⟨(h e he).1 hissues, (h e he).2 hissues⟩
  entry h _ he hissues hfailure := h hissues (.entry he hfailure)
  member h hmembers w hw hissues := Value.not_hasFailure_members (h hissues) hmembers w hw

theorem candour_answers (f : Foreign) :
    candour.Answers f fun m r => m.report.issues = [] → r.Honest where
  ok := id
  error _ := id
  callee h := ⟨fun hissues => (h hissues).1, fun a ha hissues => (h hissues).2.1 a ha⟩
  returned h hchange hv hissues := (h (hchange hissues)).2.2.1 _ (hv hissues)
  handled h hchange _ := ⟨id, fun hissues => (h (hchange hissues)).2.2.2 _⟩
  review calls h hissues := h hissues calls

theorem candour_admits {rt : Runtime} (hbindings : ∀ e ∈ rt.bindings, ¬ e.2.HasFailure)
    (hhost : ∀ name v, ¬ v.HasFailure → (rt.host name v).Honest) : candour.Admits rt := by
  have L := candour_lawful
  refine { toLawful := L, binding := fun _ e he _ => hbindings e he, foreign := fun hcall f => ?_ }
  refine Contract.callForeign_keeps L fun m a ha => ?_
  cases f with
  | passThrough => exact Contract.passThrough_keeps L ha
  | capability c =>
      refine Contract.capability_keeps L (fun _ => id) (fun _ _ _ => id) fun _ r mark hr _ => ?_
      exact (Value.data_marked mark r (Capability.plain_run hr)).not_hasFailure
  | host name =>
      refine Contract.host_keeps L hcall (fun _ => id) (candour_answers _) fun hissues => ?_
      exact hhost name a (ha hissues)

/-- Where no scope holds a failure value, scopes lead to none. -/
theorem Machine.ReachesFailure.hasFailure {m : Machine} {v : Value} (h : m.ReachesFailure v)
    (hscopes : ∀ s ∈ m.scopes, ∀ e ∈ s, ¬ e.2.HasFailure) : v.HasFailure := by
  induction h with
  | failure => exact .failure
  | item hv _ ih => exact .item hv ih
  | entry he _ ih => exact .entry he ih
  | key he hkey => exact .key he hkey
  | stage hf _ ih => exact .stage hf ih
  | captured he _ ih =>
      have hfree := Machine.scope_all (P := (¬ ·.HasFailure)) m hscopes
      exact absurd ih (hfree _ _ he)

/-- **The failure value never appears silently.** Let a runtime bind no failure value and let its
functions make none up. Then a run that gives a result without any issue leaves no failure value
behind: none can be reached from its result, and none from its state. -/
theorem not_reachesFailure_of_no_issues {rt : Runtime} {verbose : Bool} {o : Outcome}
    {value : Value} (ho : o.Of rt verbose) (hbindings : ∀ e ∈ rt.bindings, ¬ e.2.HasFailure)
    (hhost : ∀ name v, ¬ v.HasFailure → (rt.host name v).Honest) (hresult : o.result = .ok value)
    (hissues : o.issues = []) :
    ¬ o.machine.ReachesFailure value ∧ ∀ e ∈ o.state, ¬ o.machine.ReachesFailure e.2 := by
  cases ho.ends hresult with
  | finished hrun =>
      rename_i root m v
      cases hresult
      have hnone : m.report.issues = [] := (Report.issues_info _ _).symm.trans hissues
      obtain ⟨-, hstore, hvalue⟩ :=
        Contract.keeps_initial (candour_admits hbindings hhost) (trivial : candour.token root) verbose
      rw [hrun] at hstore hvalue
      have hscopes : ∀ s ∈ m.scopes, ∀ e ∈ s, ¬ e.2.HasFailure :=
        fun s hs e he => hstore s hs e he hnone
      refine ⟨fun hreaches => ?_, fun e he hreaches => ?_⟩
      · exact hvalue _ rfl hnone (hreaches.hasFailure hscopes)
      · have hstate := Machine.scope_all (P := (¬ ·.HasFailure)) m hscopes 0
        exact hstate e he (hreaches.hasFailure hscopes)
  | tooDeep => exact absurd hissues (Report.issues_issue_ne_nil _ _ _)
  | unread => exact absurd hissues (Report.issues_issue_ne_nil _ _ _)

/-- A runtime with one function, which calls its argument and hands on what that gives. -/
def Runtime.calling : Runtime where
  bound := [("Apply", .foreign (.host "Apply"))]
  host _ f := .call f [.int 1] (fun _ => true) fun result => result
  bound_nodup := by decide
  bound_bodiesIn _ := List.forall_mem_singleton.mpr (.atom rfl)
  host_bodiesIn _ _ _ hf :=
    ⟨hf, List.forall_mem_singleton.mpr (.atom rfl), fun _ hv => hv, fun _ => trivial⟩

/-- A program with a function that refers to the scope in which it is bound itself, and a call of it
by the host. -/
def Token.calledBack : Token :=
  .program .nowhere
    [.assignment .nowhere (.path .nowhere ["f"])
        (.function .nowhere (.str "x") (.reference .nowhere (.path .nowhere ["x"]))),
      .assignment .nowhere (.path .nowhere ["y"])
        (.application .nowhere (.str "Apply") (.reference .nowhere (.path .nowhere ["f"])))]

theorem not_reachesFailure_of_no_issues_calledBack :
    let o := interpretToken .calling false .calledBack
    o.issues.length = 0 ∧ o.state.map Prod.fst = [.str "f", .str "y"] ∧
      (∃ value, o.result = .ok value ∧ ¬ o.machine.ReachesFailure value) ∧
      ∀ e ∈ o.state, ¬ o.machine.ReachesFailure e.2 := by
  intro o
  have hissues : o.issues.length = 0 := by decide +kernel
  have hbindings : ∀ e ∈ Runtime.calling.bindings, ¬ e.2.HasFailure := by
    intro e he
    rw [List.mem_singleton.mp he]
    exact nofun
  have hhost (name : String) (f : Value) (hf : ¬ f.HasFailure) :
      (Runtime.calling.host name f).Honest := by
    refine ⟨hf, fun a ha => ?_, fun v hv => hv, fun _ => trivial⟩
    rw [List.mem_singleton.mp ha]
    exact nofun
  have hresult : o.result = .ok _ := rfl
  obtain ⟨hvalue, hstate⟩ :=
    not_reachesFailure_of_no_issues (.token _) hbindings hhost hresult
      (List.length_eq_zero_iff.mp hissues)
  exact ⟨hissues, rfl, ⟨_, hresult, hvalue⟩, hstate⟩

end ArrayExpr
