import ArrayExpr.Proofs.Outcome
import ArrayExpr.Proofs.WellFormedValues

/-!
Tensors stay well formed. Every capability gives well-formed values for well-formed arguments. A
program starts without any tensor, and with the built-in capabilities every tensor that it ever meets
comes from one of them, from parts of a tensor, or from elements that became keys. So all tensors are
well formed that a run leaves behind, in its result, in its state and in the scopes of its functions.
-/

namespace ArrayExpr

namespace Capability

theorem wellFormed_of_operands {c : Capability} {argument a b : Value} (h : argument.WellFormed)
    (hoperands : c.operands argument = .ok (a, b)) : a.WellFormed ∧ b.WellFormed := by
  unfold operands at hoperands
  split at hoperands
  · rename_i entries
    have hentries : ∀ e ∈ entries, e.2.WellFormed := fun e he => (Value.wellFormed_dict.mp h e he).2
    split at hoperands
    · rename_i ha hb
      cases hoperands
      exact ⟨Key.lookup?_all hentries ha, Key.lookup?_all hentries hb⟩
    · cases hoperands
  · cases hoperands
  · cases hoperands
  · cases hoperands
  · cases hoperands

theorem wellFormed_onPair {c : Capability} {f : Tensor → Tensor → Except Fault Tensor}
    (hf : ∀ {x y t : Tensor}, x.WellFormed → y.WellFormed → f x y = .ok t → t.WellFormed)
    {argument r : Value} (hargument : argument.WellFormed) (h : c.onPair f argument = .ok r) :
    r.WellFormed := by
  obtain ⟨a, b, x, y, t, hoperands, hx, hy, ht, rfl⟩ := exists_of_onPair h
  obtain ⟨ha, hb⟩ := wellFormed_of_operands hargument hoperands
  exact Value.wellFormed_ofResult (hf (ha.toTensor hx) (hb.toTensor hy) ht)

/-- What a capability gives for a well-formed argument is well formed. -/
theorem wellFormed_run {c : Capability} {argument r : Value} (hargument : argument.WellFormed)
    (h : c.run argument = .ok r) : r.WellFormed := by
  cases c with
  | add | subtract | multiply | divide | power | modulus =>
      exact wellFormed_onPair Operation.apply_wellFormed hargument h
  | matrixMultiply => exact wellFormed_onPair (fun _ _ => Tensor.product_wellFormed) hargument h
  | tensor =>
      obtain ⟨x, htensor, hx⟩ := exists_of_onOne h
      cases hx
      exact Value.wellFormed_tensor.mpr (hargument.toTensor htensor)
  | transpose =>
      obtain ⟨x, htensor, hx⟩ := exists_of_onOne h
      cases hx
      exact Value.wellFormed_tensor.mpr (hargument.toTensor htensor).transpose
  | negative =>
      obtain ⟨x, htensor, hx⟩ := exists_of_onOne h
      obtain ⟨t, ht, hr⟩ := exists_of_bind_eq_ok hx
      cases hr
      exact Value.wellFormed_ofResult ((hargument.toTensor htensor).negative ht)
  | reciprocal =>
      obtain ⟨x, htensor, hx⟩ := exists_of_onOne h
      obtain ⟨t, ht, hr⟩ := exists_of_bind_eq_ok hx
      cases hr
      exact Value.wellFormed_ofResult ((hargument.toTensor htensor).reciprocal ht)
  | mean =>
      obtain ⟨x, -, hx⟩ := exists_of_onOne h
      obtain ⟨s, hs, hr⟩ := exists_of_bind_eq_ok hx
      cases hr
      exact Value.wellFormed_scalar.mpr (Tensor.inRange_of_mean_eq_ok hs)
  | sum =>
      obtain ⟨x, -, hx⟩ := exists_of_onOne h
      obtain ⟨s, hs, hr⟩ := exists_of_bind_eq_ok hx
      cases hr
      exact Value.wellFormed_scalar.mpr (Tensor.inRange_of_sum_eq_ok hs)
  | convertToNative =>
      obtain ⟨x, -, hx⟩ := exists_of_onOne h
      cases hx
      exact x.literal_toNative.wellFormed
  | shape =>
      obtain ⟨x, -, hx⟩ := exists_of_onOne h
      cases hx
      exact x.literal_shape.wellFormed

end Capability

/-! ### Runs with the built-in capabilities -/

/-- A machine on which the scope of the program binds names and nothing else. -/
structure Machine.BindsNames (m : Machine) : Prop where
  nonempty : 0 < m.scopes.length
  names : ∀ e ∈ m.scope 0, ∃ name, e.1 = .str name

namespace Machine.BindsNames

variable {m : Machine}

theorem initial (verbose : Bool) : (Machine.initial verbose).BindsNames where
  nonempty := Nat.zero_lt_one
  names := nofun

theorem addScope (h : m.BindsNames) (s : Scope) : (m.addScope s).BindsNames where
  nonempty := by simp
  names := by
    rw [m.scope_addScope_of_lt s h.nonempty]
    exact h.names

theorem bind (h : m.BindsNames) (i : Nat) (name : String) (v : Value) :
    (m.bind i (.str name) v).BindsNames where
  nonempty := by
    rw [m.length_bind]
    exact h.nonempty
  names := by
    intro e he
    by_cases hi : i = 0
    · subst hi
      rw [m.scope_bind_self h.nonempty] at he
      rcases (Key.mem_keys_insert_str name v _ e.1).mp (List.mem_map_of_mem he) with hold | hnew
      · obtain ⟨old, hmem, hkey⟩ := List.mem_map.mp hold
        exact hkey ▸ h.names old hmem
      · exact ⟨name, hnew⟩
    · rw [m.scope_bind_of_ne hi] at he
      exact h.names e he

end Machine.BindsNames

/-- The contract that all values are well formed and that the program binds names. -/
def formation : Contract where
  token _ := True
  value _ v := v.WellFormed
  change _ a b := a.machine.BindsNames → b.machine.BindsNames

theorem formation_lawful : formation.Lawful where
  refl _ _ := id
  trans h h' ha := h' (h ha)
  widen := id
  opened h ha := h (ha.addScope _)
  bound _ i name v ha := ha.bind i name v
  marked _ _ ha := ⟨ha.nonempty, ha.names⟩
  warned _ _ _ ha := ⟨ha.nonempty, ha.names⟩
  raised _ _ ha := ⟨ha.nonempty, ha.names⟩
  caught _ _ _ _ _ ha := ⟨ha.nonempty, ha.names⟩
  child _ _ := trivial
  stable _ hv := hv
  none _ := Value.wellFormed_of_isBare rfl
  str _ _ := Value.wellFormed_of_isBare rfl
  undefined _ _ := Value.wellFormed_of_isBare rfl
  passThrough _ := Value.wellFormed_of_isBare rfl
  literal _ _ j _ := (Value.literal_ofJson j).wellFormed
  failure _ _ _ := Value.wellFormed_of_isBare rfl
  closure _ _ _ _ _ := Value.wellFormed_of_isBare rfl
  body _ := trivial
  composition _ _ h := Value.wellFormed_composition.mpr h
  stage h := Value.wellFormed_composition.mp h
  dict h := Value.wellFormed_dict.mpr h
  entry h e he := (Value.wellFormed_dict.mp h e he).2
  member h hmembers := h.members hmembers

/-- A host that hands its argument back. -/
theorem formation_answers (f : Foreign) :
    formation.Answers f fun _ r => ∃ v, r = .ok v ∧ v.WellFormed where
  ok := by
    rintro m v ⟨_, ⟨⟩, hv⟩
    exact hv
  error := by rintro m fault ⟨_, ⟨⟩, _⟩
  callee := by rintro m f arguments handles next ⟨_, ⟨⟩, _⟩
  returned := by rintro m m' f arguments handles next v ⟨_, ⟨⟩, _⟩
  handled := by rintro m m' f arguments handles next fault ⟨_, ⟨⟩, _⟩
  review := by rintro m next calls ⟨_, ⟨⟩, _⟩

theorem formation_admits : formation.Admits .standard := by
  have L := formation_lawful
  refine { toLawful := L, binding := fun _ e he => ?_, foreign := fun hcall f => ?_ }
  · obtain ⟨c, rfl⟩ := Runtime.exists_of_mem_standard he
    exact Value.wellFormed_of_isBare rfl
  refine Contract.callForeign_keeps L fun m a ha => ?_
  cases f with
  | passThrough => exact Contract.passThrough_keeps L ha
  | capability c =>
      refine Contract.capability_keeps L (fun _ hm => ⟨hm.nonempty, hm.names⟩)
        (fun _ _ _ hm => ⟨hm.nonempty, hm.names⟩) fun _ r mark hr => ?_
      exact (Capability.wellFormed_run ha hr).marked mark
  | host name =>
      exact Contract.host_keeps L hcall (fun _ hm => ⟨hm.nonempty, hm.names⟩) (formation_answers _)
        ⟨a, rfl, ha⟩

/-- An outcome that leaves well-formed values behind: its result, its state, and whatever the scopes
hold that its functions refer to. -/
structure Outcome.WellFormed (o : Outcome) : Prop where
  result {v : Value} : o.result = .ok v → v.WellFormed
  state : (Value.dict o.state).WellFormed
  scopes : ∀ s ∈ o.machine.scopes, ∀ e ∈ s, e.2.WellFormed

namespace Outcome

variable {o : Outcome} {m : Machine} {verbose : Bool}

theorem WellFormed.of_machine (hnames : m.BindsNames) (hstore : formation.Store m)
    (hscopes : o.machine.scopes = m.scopes) (hresult : ∀ v, o.result = .ok v → v.WellFormed) :
    o.WellFormed := by
  have hstate : o.state = m.scope 0 := by
    simp only [Outcome.state, Machine.scope, hscopes]
  constructor
  · exact hresult _
  · rw [hstate]
    refine Value.wellFormed_dict.mpr fun e he => ?_
    obtain ⟨name, hname⟩ := hnames.names e he
    rw [hname]
    exact ⟨Value.wellFormed_of_isBare rfl, m.scope_all hstore 0 e he⟩
  · rw [hscopes]
    exact hstore

theorem wellFormed_interpretToken (verbose : Bool) (root : Token) :
    (interpretToken .standard verbose root).WellFormed := by
  obtain ⟨hchange, hstore, hvalue⟩ :=
    Contract.keeps_initial formation_admits (trivial : formation.token root) verbose
  have hnames : ((evaluate .standard nestingLimit root 0).run (.initial verbose)).2.BindsNames :=
    hchange (.initial verbose)
  unfold interpretToken
  split
  · rename_i v m hrun
    rw [Machine.initial, hrun] at hnames hstore hvalue
    refine .of_machine hnames hstore rfl ?_
    rintro _ ⟨⟩
    exact hvalue v rfl
  · rename_i fault m hrun
    rw [Machine.initial, hrun] at hnames hstore
    split
    · refine .of_machine hnames hstore rfl ?_
      rintro _ ⟨⟩
      exact Value.wellFormed_of_isBare rfl
    · refine .of_machine hnames hstore rfl ?_
      rintro _ ⟨⟩

theorem Of.wellFormed (ho : o.Of .standard verbose) : o.WellFormed := by
  cases ho with
  | token root => exact wellFormed_interpretToken verbose root
  | tree tree =>
      have hnames := Machine.BindsNames.initial verbose
      have hstore : formation.Store (.initial verbose) := by
        simp [Contract.Store, Machine.initial]
      unfold interpret
      split
      · exact wellFormed_interpretToken verbose _
      · dsimp only
        split
        · refine .of_machine hnames hstore rfl ?_
          rintro _ ⟨⟩
          exact Value.wellFormed_of_isBare rfl
        · refine .of_machine hnames hstore rfl ?_
          rintro _ ⟨⟩

end Outcome

/-- **Tensors stay well formed.** Every capability gives a value in which all tensors and elements are
well formed if those of its argument are. So with the built-in capabilities a run leaves no other ones
behind, however it ends: neither in its result, nor in its state, nor in any scope. -/
theorem tensors_stay_wellFormed :
    (∀ (c : Capability) (argument r : Value), argument.WellFormed → c.run argument = .ok r →
      r.WellFormed) ∧
    ∀ (verbose : Bool) (o : Outcome), o.Of .standard verbose → o.WellFormed :=
  ⟨fun _ _ _ => Capability.wellFormed_run, fun _ _ => Outcome.Of.wellFormed⟩

def Value.overflowing : Value :=
  .dict [(.str "a", .tensor (.ofCells [1] (.ints .int64 [Int.pow 2 63 - 1]))), (.str "b", .int 1)]

/-- A program that binds a name to such a sum. -/
def Token.overflowing : Token :=
  .program .nowhere
    [.assignment .nowhere (.path .nowhere ["x"])
        (.binary .nowhere (.str "+")
          (.conversion .nowhere (.literal .nowhere (.list [.int (Int.pow 2 63 - 1)])))
          (.literal .nowhere (.int 1)))]

theorem tensors_stay_wellFormed_overflowing :
    let wrapped := Value.tensor ⟨[1], .ints .int64 [-Int.pow 2 63], [0]⟩
    let o := interpretToken .standard false .overflowing
    Value.overflowing.WellFormed ∧ Capability.add.run .overflowing = .ok wrapped ∧
      wrapped.WellFormed ∧ o.issues.length = 0 ∧ o.state.length = 1 ∧ o.WellFormed := by
  intro wrapped o
  have hlargest : (Tensor.ofCells [1] (.ints .int64 [Int.pow 2 63 - 1])).WellFormed := by
    refine ⟨rfl, Cells.inRange_ints.mpr ?_⟩
    rw [List.forall_mem_singleton]
    constructor <;> decide
  have hargument : Value.overflowing.WellFormed := by
    refine Value.wellFormed_dict.mpr ?_
    simp only [List.forall_mem_cons]
    exact ⟨⟨Value.wellFormed_of_isBare rfl, Value.wellFormed_tensor.mpr hlargest⟩,
      ⟨Value.wellFormed_of_isBare rfl, Value.wellFormed_of_isBare rfl⟩, List.forall_mem_nil _⟩
  have hsum : Capability.add.run .overflowing = .ok wrapped := rfl
  have hbound : o.issues.length = 0 ∧ o.state.length = 1 := by decide +kernel
  exact ⟨hargument, hsum, tensors_stay_wellFormed.1 _ _ _ hargument hsum, hbound.1, hbound.2,
    tensors_stay_wellFormed.2 false o (.token _)⟩

end ArrayExpr
