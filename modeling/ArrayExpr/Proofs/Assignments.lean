import ArrayExpr.Proofs.Causes
import ArrayExpr.Proofs.Isolation
import ArrayExpr.Proofs.Outcome
import Mathlib.Data.List.Induction

/-!
Programs of assignments. The result of a program is put together from what its members give, while
its state is changed by them as they are evaluated. In a program of assignments that assign nothing
on the side, the two stay the same all along: both are what the names and the values computed by the
members come to, one set after the other, so the last value of a name wins and names stand in the
order in which they were first assigned.
-/

namespace ArrayExpr

/-- Whether a token is an assignment that assigns nothing in computing its name and its value. -/
def Token.isFlat : Token → Bool
  | .assignment _ name value => !name.assigns && !value.assigns
  | _ => false

/-- What assignments compute in a scope, one after the other: the name and the value of each. -/
inductive Assigned (rt : Runtime) (depth scope : Nat) :
    Machine → List Token → List (String × Value) → Machine → Prop where
  | nil {m : Machine} : Assigned rt depth scope m [] [] m
  | cons {m m₁ m₂ m' : Machine} {span : Span} {path value : Token} {name v : Value}
      {members : List Token} {pairs : List (String × Value)} :
      (evaluate rt depth path scope).run m = (.ok name, m₁) →
      (evaluate rt depth value scope).run m₁ = (.ok v, m₂) →
      Assigned rt depth scope (m₂.bind scope (.str name.shown) v) members pairs m' →
      Assigned rt depth scope m (.assignment span path value :: members)
        ((name.shown, v) :: pairs) m'

/-- A path is a name as it stands. -/
theorem Assigned.path {rt : Runtime} {depth scope : Nat} {m m₁ m' : Machine} {span pathSpan : Span}
    {segments : List String} {value : Token} {v : Value} {members : List Token}
    {pairs : List (String × Value)}
    (hvalue : (evaluate rt (depth + 1) value scope).run m = (.ok v, m₁))
    (hrest : Assigned rt (depth + 1) scope (m₁.bind scope (.str ("/".intercalate segments)) v)
      members pairs m') :
    Assigned rt (depth + 1) scope m (.assignment span (.path pathSpan segments) value :: members)
      (("/".intercalate segments, v) :: pairs) m' := by
  have hpath : (evaluate rt (depth + 1) (.path pathSpan segments) scope).run m =
      (.ok (.str ("/".intercalate segments)), m) := rfl
  exact .cons hpath hvalue hrest

/-- What assignments compute is determined by the machine that they start from. -/
theorem Assigned.pairs_eq {rt : Runtime} {depth scope : Nat} {m m₁ m₂ : Machine}
    {members : List Token} {pairs pairs' : List (String × Value)}
    (h : Assigned rt depth scope m members pairs m₁)
    (h' : Assigned rt depth scope m members pairs' m₂) : pairs = pairs' := by
  induction h generalizing pairs' with
  | nil =>
      cases h'
      rfl
  | cons hpath hvalue _ ih =>
      cases h' with
      | cons hpath' hvalue' hrest' =>
          obtain ⟨⟨⟩, rfl⟩ := Prod.mk.inj (hpath.symm.trans hpath')
          obtain ⟨⟨⟩, rfl⟩ := Prod.mk.inj (hvalue.symm.trans hvalue')
          rw [ih hrest']

def entriesOf (pairs : List (String × Value)) : Scope :=
  pairs.map fun p => (.str p.1, p.2)

/-! ### Setting names one after the other -/

theorem Key.insertAll_append {α : Type} (news more entries : List (Key × α)) :
    insertAll (news ++ more) entries = insertAll more (insertAll news entries) :=
  List.foldl_append

theorem lookup?_entriesOf (pairs : List (String × Value)) (name : String) :
    (Key.str name).lookup? (entriesOf pairs) = pairs.lookup name := by
  induction pairs with
  | nil => rfl
  | cons p rest ih =>
      have hsame : (Key.str p.1).same (.str name) = (name == p.1) := by
        rw [Bool.eq_iff_iff, Key.same_str, beq_iff_eq, Key.str.injEq]
        exact eq_comm
      rw [entriesOf, List.map_cons, Key.lookup?_cons, hsame, List.lookup_cons, ← entriesOf, ih]
      cases name == p.1 <;> rfl

/-- The last value of a name is found. -/
theorem lookup?_insertAll_entriesOf (pairs : List (String × Value)) (name : String) :
    (Key.str name).lookup? (Key.insertAll (entriesOf pairs) []) = pairs.reverse.lookup name := by
  have hreverse : (entriesOf pairs).reverse = entriesOf pairs.reverse := List.map_reverse.symm
  rw [Key.lookup?_insertAll, hreverse, lookup?_entriesOf]
  exact Option.or_none

/-- Names stand in the order in which they were set first. -/
theorem keys_insertAll_entriesOf (pairs : List (String × Value)) :
    (Key.insertAll (entriesOf pairs) []).map Prod.fst =
      (pairs.map Prod.fst).eraseDups.map Key.str := by
  -- A name that is set last is new at the end, or was there before.
  induction pairs using List.reverseRecOn with
  | nil => rfl
  | append_singleton pairs p ih =>
      have hset : Key.insertAll (entriesOf (pairs ++ [p])) [] =
          (Key.str p.1).insert p.2 (Key.insertAll (entriesOf pairs) []) := by
        rw [entriesOf, List.map_append, Key.insertAll_append]
        rfl
      have hfound : (pairs.reverse.lookup p.1).isSome ↔ p.1 ∈ pairs.map Prod.fst := by
        simp [List.lookup_isSome_iff]
      rw [hset, Key.keys_insert, lookup?_insertAll_entriesOf, ih, List.map_append,
        List.eraseDups_append, List.map_append]
      by_cases hname : p.1 ∈ pairs.map Prod.fst
      · rw [if_pos (hfound.mpr hname)]
        simp [List.removeAll, hname]
      · rw [if_neg (mt hfound.mp hname)]
        simp [List.removeAll, hname, List.eraseDups_cons]

/-! ### Members of a program -/

variable {rt : Runtime} {depth scope : Nat} {m m' : Machine}

/-- A token that assigns nothing leaves its scope as it was. -/
theorem scope_of_run_eq {token : Token} {v : Value} (htoken : token.assigns = false)
    (hscope : scope < m.scopes.length) (hrun : (evaluate rt depth token scope).run m = (.ok v, m')) :
    m'.scope scope = m.scope scope ∧ scope < m'.scopes.length := by
  have hisolated := evaluate_isolated_own rt depth token scope m
  rw [hrun] at hisolated
  refine ⟨hisolated.same scope hscope ?_, Nat.lt_of_lt_of_le hscope hisolated.length_le⟩
  simp [Token.own, htoken]

/-- An assignment binds what it has computed and gives it as an entry. -/
theorem exists_of_run_assignment {span : Span} {path value : Token} {result : Value}
    (hrun : (evaluate rt (depth + 1) (.assignment span path value) scope).run m = (.ok result, m')) :
    ∃ name v m₁ m₂, (evaluate rt depth path scope).run m = (.ok name, m₁) ∧
      (evaluate rt depth value scope).run m₁ = (.ok v, m₂) ∧
      m' = m₂.bind scope (.str name.shown) v ∧ result = .dict [(.str name.shown, v)] := by
  rw [evaluate, evaluateBy] at hrun
  obtain ⟨name, m₁, hpath, hrun⟩ := Run.exists_of_run_bind_eq_ok hrun
  obtain ⟨text, m₂, htext, hrun⟩ := Run.exists_of_run_bind_eq_ok hrun
  obtain ⟨v, m₃, hvalue, hrun⟩ := Run.exists_of_run_bind_eq_ok hrun
  obtain ⟨hwritten, rfl⟩ := Run.eq_of_run_lift_eq_ok htext
  obtain rfl := eq_of_written_eq_ok hwritten
  cases hrun
  exact ⟨name, v, m₂, m₃, hpath, hvalue, rfl, rfl⟩

/-- The entries that the members of a program are merged into and the scope in which they assign stay
the same. -/
theorem exists_assigned_of_run_mergeMembers {members : List Token}
    (hmembers : ∀ t ∈ members, t.isFlat = true) {entries all : Scope} (hscope : scope < m.scopes.length)
    (hsame : m.scope scope = entries)
    (hrun : (mergeMembers (evaluate rt (depth + 1) · scope) entries members).run m = (.ok all, m')) :
    ∃ pairs, Assigned rt depth scope m members pairs m' ∧
      all = Key.insertAll (entriesOf pairs) entries ∧ m'.scope scope = all := by
  induction members generalizing m entries with
  | nil =>
      cases hrun
      exact ⟨[], .nil, rfl, hsame⟩
  | cons member members ih =>
      obtain ⟨hmember, hrest⟩ := List.forall_mem_cons.mp hmembers
      unfold mergeMembers at hrun
      obtain ⟨result, m₁, hassignment, hrun⟩ := Run.exists_of_run_bind_eq_ok hrun
      obtain ⟨merged, m₂, hmerge, hrun⟩ := Run.exists_of_run_bind_eq_ok hrun
      cases member with
      | assignment span path value =>
          simp only [Token.isFlat, Bool.and_eq_true, Bool.not_eq_true'] at hmember
          obtain ⟨name, v, n₁, n₂, hpath, hvalue, rfl, rfl⟩ := exists_of_run_assignment hassignment
          obtain ⟨hsame₁, hscope₁⟩ := scope_of_run_eq hmember.1 hscope hpath
          obtain ⟨hsame₂, hscope₂⟩ := scope_of_run_eq hmember.2 hscope₁ hvalue
          have hmerged : merged = (Key.str name.shown).insert v entries ∧
              m₂ = n₂.bind scope (.str name.shown) v := by
            rw [Run.run_marking] at hmerge
            cases hmerge
            exact ⟨rfl, rfl⟩
          obtain ⟨rfl, rfl⟩ := hmerged
          have hbound : (n₂.bind scope (.str name.shown) v).scope scope =
              (Key.str name.shown).insert v entries := by
            rw [n₂.scope_bind_self hscope₂, hsame₂, hsame₁, hsame]
          have hlength : scope < (n₂.bind scope (.str name.shown) v).scopes.length := by
            rw [n₂.length_bind]
            exact hscope₂
          obtain ⟨pairs, hassigned, hall, hstate⟩ := ih hrest hlength hbound hrun
          exact ⟨(name.shown, v) :: pairs, .cons hpath hvalue hassigned, hall, hstate⟩
      | _ => cases hmember

theorem exists_of_run_program {span : Span} {members : List Token} {result : Value}
    (hrun : (evaluate rt (depth + 1) (.program span members) scope).run m = (.ok result, m')) :
    ∃ entries, result = .dict entries ∧
      (mergeMembers (evaluate rt depth · scope) [] members).run m = (.ok entries, m') := by
  rw [evaluate, evaluateBy] at hrun
  obtain ⟨entries, m₁, hmerge, hrun⟩ := Run.exists_of_run_bind_eq_ok hrun
  cases hrun
  exact ⟨entries, rfl, hmerge⟩

/-- **The result of a program of assignments is its state, and the last assignment wins.** Let the
members of a program be assignments that assign nothing in computing their names and values, and let
its run come to an end without meeting the nesting limit. Then its members have computed names and
values one after the other; the result and the state are the same mapping; its names are the computed
ones, in the order in which they came first; and each has the value that came last. -/
theorem result_eq_state {verbose : Bool} {span : Span} {members : List Token} {o : Outcome}
    (ho : o.From rt verbose (.program span members)) (hmembers : ∀ t ∈ members, t.isFlat = true)
    {result : Value} (hresult : o.result = .ok result) (hlimit : result ≠ .failure) :
    ∃ pairs m', Assigned rt (nestingLimit - 2) 0 (.initial verbose) members pairs m' ∧
      result = .dict o.state ∧
      o.state.map Prod.fst = (pairs.map Prod.fst).eraseDups.map Key.str ∧
      ∀ name, (Key.str name).lookup? o.state = pairs.reverse.lookup name := by
  obtain ⟨m', hrun, hstate⟩ := ho.exists_run hresult hlimit
  have hdepth : nestingLimit = nestingLimit - 2 + 1 + 1 := rfl
  have hstart : (Machine.initial verbose).scope 0 = [] := rfl
  rw [hdepth] at hrun
  obtain ⟨entries, rfl, hmerge⟩ := exists_of_run_program hrun
  obtain ⟨pairs, hassigned, hentries, hscope⟩ :=
    exists_assigned_of_run_mergeMembers hmembers Nat.one_pos hstart hmerge
  rw [hstate, hscope, hentries]
  exact ⟨pairs, m', hassigned, rfl, keys_insertAll_entriesOf pairs,
    lookup?_insertAll_entriesOf pairs⟩

/-- `a` is assigned twice, the second time by a call of a function that assigns to `a` and `b` in a
copy of the state. It comes first, with what the call gives. -/
theorem result_eq_state_twice :
    let body : Token :=
      .program .nowhere
        [.assignment .nowhere (.path .nowhere ["b"]) (.literal .nowhere (.int 7)),
         .assignment .nowhere (.path .nowhere ["a"]) (.reference .nowhere (.path .nowhere ["x"]))]
    let members : List Token :=
      [.assignment .nowhere (.path .nowhere ["a"]) (.literal .nowhere (.int 1)),
       .assignment .nowhere (.path .nowhere ["f"]) (.function .nowhere (.str "x") body),
       .assignment .nowhere (.path .nowhere ["a"])
        (.application .nowhere (.str "f") (.reference .nowhere (.path .nowhere ["a"])))]
    let f : Value := .closure (.str "x") body 0
    let called : Value := .dict [(.str "b", .int 7), (.str "a", .int 1)]
    let rt := Runtime.ofAtoms [] .nil (List.forall_mem_nil _)
    let o := interpretToken rt false (.program .nowhere members)
    (∀ t ∈ members, t.isFlat = true) ∧ o.result = .ok (.dict o.state) ∧
      (∃ m', Assigned rt (nestingLimit - 2) 0 (.initial false) members
        [("a", .int 1), ("f", f), ("a", called)] m') ∧
      o.state.map Prod.fst = [.str "a", .str "f"] ∧
      (Key.str "a").lookup? o.state = some called ∧ (Key.str "f").lookup? o.state = some f := by
  intro body members f called rt o
  have hmembers : ∀ t ∈ members, t.isFlat = true := by decide
  have ho : o.From rt false (.program .nowhere members) := .token
  have hresult : o.result = .ok (.dict [(.str "a", called), (.str "f", f)]) := rfl
  obtain ⟨pairs, m', hassigned, hsame, hkeys, hvalues⟩ :=
    result_eq_state ho hmembers hresult (by simp)
  have hpairs : ∃ m', Assigned rt (nestingLimit - 2) 0 (.initial false) members
      [("a", .int 1), ("f", f), ("a", called)] m' :=
    ⟨_, .path rfl (.path rfl (.path rfl .nil))⟩
  obtain ⟨m₁, hassigned₁⟩ := hpairs
  obtain rfl := hassigned.pairs_eq hassigned₁
  exact ⟨hmembers, hresult.trans (congrArg Except.ok hsame), ⟨m₁, hassigned₁⟩, hkeys, hvalues "a",
    hvalues "f"⟩

end ArrayExpr
