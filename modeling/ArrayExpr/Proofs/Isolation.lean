import ArrayExpr.Outcome
import ArrayExpr.Proofs.Evaluation

/-!
Isolation of scopes. A scope is shared by reference between the evaluation that runs in it and all
closures made there, yet evaluation writes to no other scope than the one it runs in, and there only
where an assignment is evaluated: calls of closures work on copies.
-/

namespace ArrayExpr

/-- What is left of the scopes of a machine: all are there, all names are bound in their order, and
only in the scope of one's own the values may have changed and names been added. -/
structure Machine.Isolated (own : Option Nat) (m m' : Machine) : Prop where
  length_le : m.scopes.length ≤ m'.scopes.length
  same : ∀ j < m.scopes.length, own ≠ some j → m'.scope j = m.scope j
  names : ∀ j < m.scopes.length, (m.scope j).map Prod.fst <+: (m'.scope j).map Prod.fst

namespace Machine.Isolated

variable {own : Option Nat} {m m' : Machine}

theorem of_scopes (h : m'.scopes = m.scopes) : Isolated own m m' := by
  have hscope : ∀ j, m'.scope j = m.scope j := fun j => by simp [scope, h]
  refine ⟨Nat.le_of_eq (congrArg List.length h.symm), fun j _ _ => hscope j, fun j _ => ?_⟩
  exact hscope j ▸ List.prefix_refl _

theorem trans {m'' : Machine} (h : Isolated own m m') (h' : Isolated own m' m'') :
    Isolated own m m'' := by
  refine ⟨Nat.le_trans h.length_le h'.length_le, fun j hj hown => ?_, fun j hj => ?_⟩
  · have hj' : j < m'.scopes.length := Nat.lt_of_lt_of_le hj h.length_le
    rw [h'.same j hj' hown, h.same j hj hown]
  · have hj' : j < m'.scopes.length := Nat.lt_of_lt_of_le hj h.length_le
    exact (h.names j hj).trans (h'.names j hj')

theorem widen (h : Isolated none m m') : Isolated own m m' :=
  ⟨h.length_le, fun j hj _ => h.same j hj (by simp), h.names⟩

/-- The scope opened for a call is none of those that were there before. -/
theorem of_opened {s : Scope} (h : Isolated (some m.scopes.length) (m.addScope s) m') :
    Isolated none m m' := by
  have hlength := h.length_le
  rw [m.length_addScope] at hlength
  have hlt : ∀ j < m.scopes.length, j < (m.addScope s).scopes.length := fun j hj => by
    rw [m.length_addScope]
    omega
  refine ⟨by omega, fun j hj _ => ?_, fun j hj => ?_⟩
  · have hne : some m.scopes.length ≠ some j := by
      intro heq
      have := Option.some.inj heq
      omega
    rw [h.same j (hlt j hj) hne, m.scope_addScope_of_lt s hj]
  · have hnames := h.names j (hlt j hj)
    rwa [m.scope_addScope_of_lt s hj] at hnames

theorem bind (m : Machine) (i : Nat) (key : Key) (v : Value) :
    Isolated (some i) m (m.bind i key v) := by
  refine ⟨by simp, fun j _ hown => ?_, fun j _ => m.keys_prefix_bind i j key v⟩
  exact m.scope_bind_of_ne (fun heq => hown (congrArg some heq)) key v

end Machine.Isolated

/-- The contract of isolation. -/
def isolation : Contract :=
  .ofChange fun own a b => Machine.Isolated own a.machine b.machine

theorem isolation_admits (rt : Runtime) : isolation.Admits rt := by
  refine Contract.ofChange_admits ?_ (fun _ _ => .of_scopes rfl) (fun _ _ _ => .of_scopes rfl)
    (fun _ _ => .of_scopes rfl) rt
  exact
    { refl := fun _ _ => .of_scopes rfl
      trans := fun h h' => h.trans h'
      widen := fun h => h.widen
      opened := fun h => h.of_opened
      bound := fun m i name v => .bind m i (.str name) v
      marked := fun _ _ => .of_scopes rfl
      warned := fun _ _ _ => .of_scopes rfl
      raised := fun _ _ => .of_scopes rfl
      caught := fun _ _ _ _ _ => .of_scopes rfl }

theorem evaluate_isolated_own (rt : Runtime) (depth : Nat) (token : Token) (scope : Nat)
    (m : Machine) :
    Machine.Isolated (token.own scope) m ((evaluate rt depth token scope).run m).2 :=
  ((Contract.keeps (isolation_admits rt) depth).1 token scope m trivial fun _ _ _ _ => trivial).1

theorem call_isolated (rt : Runtime) (depth : Nat) (f : Value) (arguments : List Value)
    (m : Machine) :
    Machine.Isolated none m ((call rt depth f arguments).run m).2 :=
  ((Contract.keeps (isolation_admits rt) depth).2 m f arguments trivial (fun _ _ => trivial)
    fun _ _ _ _ => trivial).1

/-- **Evaluation in a scope changes no other scope**, takes no name away from its own, and leaves its
own as it was if the token assigns nothing outside of function bodies. That holds of every scope that
was there before, whoever refers to it, whether the evaluation ends in a value or in a fault, and
whatever closures, compositions and foreign functions are called on the way. -/
theorem evaluate_isolated (rt : Runtime) (depth : Nat) (token : Token) {scope : Nat} {m : Machine}
    (hscope : scope < m.scopes.length) :
    (∀ j < m.scopes.length, j ≠ scope →
        ((evaluate rt depth token scope).run m).2.scope j = m.scope j) ∧
      (m.scope scope).map Prod.fst <+:
        (((evaluate rt depth token scope).run m).2.scope scope).map Prod.fst ∧
      (token.assigns = false →
        ((evaluate rt depth token scope).run m).2.scope scope = m.scope scope) := by
  have hstore : isolation.Store m := fun _ _ _ _ => trivial
  obtain ⟨hisolated, -⟩ :=
    (Contract.keeps (isolation_admits rt) depth).1 token scope m trivial hstore
  refine ⟨fun j hj hne => hisolated.same j hj ?_, hisolated.names scope hscope, fun hassigns => ?_⟩
  · intro hown
    rw [Token.own] at hown
    split at hown
    · exact hne (Option.some.inj hown).symm
    · cases hown
  · exact hisolated.same scope hscope (by simp [Token.own, hassigns])

/-- Calling `f`, whose body assigns to `x`, from the scope below the one it was made in. -/
theorem evaluate_isolated_call :
    let body : Token := .assignment .nowhere (.path .nowhere ["x"]) (.literal .nowhere (.int 1))
    let token : Token :=
      .assignment .nowhere (.path .nowhere ["y"])
        (.application .nowhere (.str "f") (.literal .nowhere (.int 2)))
    let m : Machine :=
      { scopes := [[(.str "x", .int 0)], [(.str "f", .closure (.str "x") body 0)]] }
    1 < m.scopes.length ∧
      ((evaluate .standard 9 token 1).run m).2.scope 0 = [(.str "x", .int 0)] ∧
      [Key.str "f"] <+: (((evaluate .standard 9 token 1).run m).2.scope 1).map Prod.fst := by
  intro body token m
  have hscope : 1 < m.scopes.length := by decide
  obtain ⟨hothers, hnames, -⟩ := evaluate_isolated .standard 9 token hscope
  exact ⟨hscope, hothers 0 (by decide) (by decide), hnames⟩

end ArrayExpr
