import ArrayExpr.Proofs.LockstepEvaluation

/-!
Names that the runtime binds hide those of the program. Scopes agree if they have the same names
with values that are alike, leaving out the names that the runtime binds. On machines whose scopes
agree a token is evaluated in lockstep, so whatever the program binds to a name of the runtime has no
influence on a run.

Scopes that agree may be shared by closures in different ways. An assignment tells them apart: what
is assigned in one scope is seen by all closures that were made in it. So a token that assigns has to
be evaluated in scopes that stand for nothing but each other.
-/

namespace ArrayExpr

/-- Scopes that agree on all names that the runtime does not bind. -/
structure Scope.Agree (rt : Runtime) (R : Value → Value → Prop) (s s' : Scope) : Prop where
  distinct : Key.Distinct s
  distinct' : Key.Distinct s'
  names : ∀ key, ¬ rt.binds key → (key ∈ s.map Prod.fst ↔ key ∈ s'.map Prod.fst)
  values : ∀ key, ¬ rt.binds key → Option.Rel R (key.lookup? s) (key.lookup? s')

/-- Agreement of scopes outside of the names of the runtime, with the same report and the same
calls. -/
def agreement (rt : Runtime) : Comparison where
  scope := Scope.Agree rt
  report := Eq
  calls := Eq

/-- A runtime whose functions take functions as they are: they do not tell values apart that are
alike. -/
abbrev Runtime.Opaque (rt : Runtime) : Prop :=
  rt.Uniform Eq

variable {rt : Runtime} {R : Value → Value → Prop} {s s' : Scope}

/-! ### Scopes that agree -/

namespace Scope.Agree

/-- Scopes whose entries are related one by one agree. -/
theorem of_related (h : Key.Related Eq R s s') (hs : Key.Distinct s) : Agree rt R s s' := by
  have hkeys := Key.keys_eq_of_related h
  refine ⟨hs, ?_, fun key _ => by rw [hkeys], fun key _ => ?_⟩
  · unfold Key.Distinct at hs ⊢
    rwa [← hkeys]
  · exact Key.lookup?_related Key.respects_eq h rfl

theorem mono {R' : Value → Value → Prop} (hR : ∀ v v', R v v' → R' v v') (h : Agree rt R s s') :
    Agree rt R' s s' := by
  refine ⟨h.distinct, h.distinct', h.names, fun key hkey => ?_⟩
  generalize hfound : key.lookup? s = found, hfound' : key.lookup? s' = found'
  have hvalues := h.values key hkey
  rw [hfound, hfound'] at hvalues
  cases hvalues with
  | none => exact .none
  | some hv => exact .some (hR _ _ hv)

/-- What is bound to a name of the runtime does not count. -/
theorem insert_hidden (h : Agree rt R s s') {key : Key} (hkey : rt.binds key) (v : Value) :
    Agree rt R s (key.insert v s') := by
  have hother : ∀ k, ¬ rt.binds k → ¬ key.same k = true := by
    intro k hk hsame
    obtain ⟨e, he, hbinds⟩ := Runtime.binds_iff.mp hkey
    exact hk (Runtime.binds_iff.mpr ⟨e, he, Key.same_trans hbinds hsame⟩)
  refine ⟨h.distinct, h.distinct'.insert key v, fun k hk => (h.names k hk).trans ?_, fun k hk => ?_⟩
  · rw [Key.keys_insert]
    split
    · rfl
    · have hne : k ≠ key := fun hk' => hother k hk (hk' ▸ Key.same_self k)
      simp [hne]
  · rw [Key.lookup?_insert, if_neg (hother k hk)]
    exact h.values k hk

theorem insert {v v' : Value} (key : Key) (h : Agree rt R s s') (hv : R v v') :
    Agree rt R (key.insert v s) (key.insert v' s') := by
  refine ⟨h.distinct.insert key v, h.distinct'.insert key v', fun k hk => ?_, fun k hk => ?_⟩
  · -- The name is new in both scopes or in none of them.
    have hnew : k = key → (key.lookup? s = none ↔ key.lookup? s' = none) := by
      rintro rfl
      have hvalues := h.values k hk
      generalize k.lookup? s = found, k.lookup? s' = found' at hvalues ⊢
      cases hvalues <;> simp
    rw [Key.mem_keys_insert, Key.mem_keys_insert, h.names k hk, and_congr_left hnew]
  · rw [Key.lookup?_insert, Key.lookup?_insert]
    split
    · exact .some hv
    · exact h.values k hk

/-- A name is found alike: one that the runtime binds in the runtime, and any other in the scope. -/
theorem lookup?_merged (hbindings : ∀ e ∈ rt.bindings, R e.2 e.2) (h : Agree rt R s s') (key : Key) :
    Option.Rel R (key.lookup? (rt.merged s)) (key.lookup? (rt.merged s')) := by
  by_cases hkey : rt.binds key
  · rw [Runtime.lookup?_merged_of_binds hkey, Runtime.lookup?_merged_of_binds hkey]
    obtain ⟨v, hv⟩ := Option.isSome_iff_exists.mp hkey
    have hself := Key.lookup?_all (P := fun v => R v v) hbindings hv
    rw [hv]
    exact .some hself
  · rw [Runtime.lookup?_merged_of_not_binds hkey, Runtime.lookup?_merged_of_not_binds hkey]
    exact h.values key hkey

/-- The same names are listed. -/
theorem sortedNames_merged (h : Agree rt R s s') :
    sortedNames (rt.merged s) = sortedNames (rt.merged s') := by
  refine sortedNames_eq_of_perm ?_
  have hnodup : ((rt.merged s).map Prod.fst).Nodup := h.distinct.insertAll.nodup
  have hnodup' : ((rt.merged s').map Prod.fst).Nodup := h.distinct'.insertAll.nodup
  refine (List.perm_ext_iff_of_nodup hnodup hnodup').mpr fun key => ?_
  have hnamed : ∀ e ∈ rt.bindings, ∃ name, e.1 = .str name :=
    fun _ => Runtime.exists_name_of_mem_bindings
  rw [Runtime.merged, Runtime.merged, Key.mem_keys_insertAll_str hnamed,
    Key.mem_keys_insertAll_str hnamed]
  by_cases hkey : key ∈ rt.bindings.map Prod.fst
  · simp [hkey]
  · have hhidden : ¬ rt.binds key := by
      intro hbinds
      obtain ⟨e, he, hsame⟩ := Runtime.binds_iff.mp hbinds
      obtain ⟨name, hname⟩ := hnamed e he
      rw [hname, Key.same_comm] at hsame
      exact hkey (List.mem_map.mpr ⟨e, he, hname.trans (Key.same_str.mp hsame).symm⟩)
    rw [h.names key hhidden]

end Scope.Agree

/-! ### Runs that agree -/

theorem agreement_fits (hrt : rt.Opaque) : (agreement rt).Fits rt where
  toUniform := hrt
  mono := Scope.Agree.mono
  insert key h hv := h.insert key hv
  lookup key hbindings h := h.lookup?_merged hbindings key
  names h := h.sortedNames_merged
  warned text details h := congrArg (Report.warn · text details) h
  issued span text h := congrArg (Report.issue · span text) h
  called f h := congrArg (· ++ [f]) h

/-- Binding a name of the runtime in any scope keeps the agreement. -/
theorem Machine.Matches.bind_hidden {K : Link} {m m' : Machine} (h : m.Matches (agreement rt) K m')
    {key : Key} (hkey : rt.binds key) (scope : Nat) (v : Value) :
    m.Matches (agreement rt) K (m'.bind scope key v) where
  opened i j hij := by
    rw [m'.length_bind]
    exact h.opened i j hij
  made := h.made
  distinguishes := h.distinguishes
  scope i j hij := by
    by_cases hj : j = scope
    · obtain rfl := hj
      rw [m'.scope_bind_self (h.opened i j hij).2]
      exact Scope.Agree.insert_hidden (h.scope i j hij) hkey v
    · rw [m'.scope_bind_of_ne (Ne.symm hj)]
      exact h.scope i j hij
  report := h.report
  calls := h.calls

theorem Runtime.standard_opaque : Runtime.standard.Opaque :=
  standard_uniform Eq

/-- On machines that agree outside of the names of the runtime, evaluating a token in scopes that
stand for each other comes to machines that agree, with the same report, and to values that are alike
or to the same fault. If the token assigns, the two scopes are to stand for nothing else. Machines go
on agreeing when a name of the runtime is bound in one of them. -/
theorem evaluate_agrees_outside_runtime (hrt : rt.Opaque) {K : Link} {m m' : Machine}
    (hagree : m.Matches (agreement rt) K m') (depth : Nat) (token : Token) {scope scope' : Nat}
    (hscope : K.scopes scope scope') (hown : token.assigns = true → K.Exclusive scope scope') :
    (∃ K' : Link, K'.GrownFrom K m m' ∧
      ((evaluate rt depth token scope).run m).2.Matches (agreement rt) K'
        ((evaluate rt depth token scope').run m').2 ∧
      ((evaluate rt depth token scope).run m).2.report =
        ((evaluate rt depth token scope').run m').2.report ∧
      ResultsAlike (Value.Alike K') ((evaluate rt depth token scope).run m).1
        ((evaluate rt depth token scope').run m').1) ∧
    ∀ key, rt.binds key → ∀ i v, m.Matches (agreement rt) K (m'.bind i key v) := by
  obtain ⟨K', hgrown, hmatches, hresults⟩ :=
    hagree.evaluate (agreement_fits hrt) depth token hscope hown
  exact ⟨⟨K', hgrown, hmatches, hmatches.report, hresults⟩,
    fun key hkey i v => hagree.bind_hidden hkey i v⟩

/-- A function under the name `Multiply`, which the runtime binds, is not called. -/
theorem evaluate_agrees_outside_runtime_multiply :
    let body : Token := .reference .nowhere (.path .nowhere ["y"])
    let token : Token :=
      .program .nowhere
        [.assignment .nowhere (.path .nowhere ["y"])
          (.application .nowhere (.str "Multiply") (.literal .nowhere (.int 2))),
         .application .nowhere (.str "f") (.literal .nowhere (.int 3))]
    let m : Machine := { scopes := [[(.str "f", .closure (.str "x") body 0)]] }
    let m' : Machine := m.bind 0 (.str "Multiply") (.closure (.str "x") body 0)
    let K : Link := { scopes := fun i j => i = 0 ∧ j = 0, marks := fun _ _ => False }
    m.Matches (agreement .standard) K m' ∧ K.Exclusive 0 0 ∧
      ((evaluate .standard 9 token 0).run m).2.report =
        ((evaluate .standard 9 token 0).run m').2.report := by
  intro body token m m' K
  have hself : m.Matches (agreement .standard) K m := {
    opened := by
      rintro i j ⟨rfl, rfl⟩
      exact ⟨by decide, by decide⟩
    made := fun a b hab => hab.elim
    distinguishes := fun a b a' b' hab => hab.elim
    scope := by
      rintro i j ⟨rfl, rfl⟩
      exact .of_related (.cons ⟨rfl, .closure ⟨rfl, rfl⟩⟩ .nil) (List.pairwise_singleton _ _)
    report := rfl
    calls := rfl }
  have hbinds : Runtime.standard.binds (.str "Multiply") = true := by decide +kernel
  have hagree : m.Matches (agreement .standard) K m' := hself.bind_hidden hbinds 0 _
  have hown : K.Exclusive 0 0 := by
    rintro i j ⟨rfl, rfl⟩
    simp
  obtain ⟨⟨K', -, -, hreport, -⟩, -⟩ :=
    evaluate_agrees_outside_runtime Runtime.standard_opaque hagree 9 token ⟨rfl, rfl⟩ fun _ => hown
  exact ⟨hagree, hown, hreport⟩

/-- In the first machine `f` was made in the scope in which `y` is assigned. In the second one it was
made in a copy of that scope, which looks the same from outside; `f` does not see the assignment
there. -/
theorem shared_scopes_told_apart :
    let body : Token := .reference .nowhere (.path .nowhere ["y"])
    let maker : Token := .function .nowhere (.str "x") body
    let token : Token :=
      .program .nowhere
        [.assignment .nowhere (.path .nowhere ["y"]) (.literal .nowhere (.int 1)),
         .assignment .nowhere (.path .nowhere ["z"])
          (.application .nowhere (.str "f") (.literal .nowhere (.int 0)))]
    let m : Machine :=
      { scopes :=
          [[(.str "f", .closure (.str "x") body 0), (.str "k", .closure (.str "f") maker 0)]] }
    let m' : Machine :=
      { scopes :=
          [[(.str "f", .closure (.str "x") body 1), (.str "k", .closure (.str "f") maker 0)],
           [(.str "f", .closure (.str "x") body 0), (.str "k", .closure (.str "f") maker 0)]] }
    let K : Link := { scopes := fun i j => i = 0 ∧ j < 2, marks := fun _ _ => False }
    Runtime.standard.Opaque ∧ m.Matches (agreement .standard) K m' ∧ K.scopes 0 0 ∧
      ((evaluate .standard 9 token 0).run m).2.report.warnings = [] ∧
      ((evaluate .standard 9 token 0).run m').2.report.warnings = ["Cannot resolve \"y\"."] := by
  intro body maker token m m' K
  have hdistinct : Key.Distinct (m.scope 0) := by
    unfold Key.Distinct
    decide +kernel
  refine ⟨Runtime.standard_opaque, ?_, ⟨rfl, by decide⟩, ?_, ?_⟩
  · exact {
      opened := by
        rintro i j ⟨rfl, hj⟩
        exact ⟨by decide, hj⟩
      made := fun a b hab => hab.elim
      distinguishes := fun a b a' b' hab => hab.elim
      scope := by
        rintro i j ⟨rfl, hj⟩
        obtain rfl | rfl : j = 0 ∨ j = 1 := by omega
        all_goals
          exact .of_related (.cons ⟨rfl, .closure ⟨rfl, by decide⟩⟩
            (.cons ⟨rfl, .closure ⟨rfl, by decide⟩⟩ .nil)) hdistinct
      report := rfl
      calls := rfl }
  · decide +kernel
  · decide +kernel

end ArrayExpr
