import ArrayExpr.Proofs.Appending
import ArrayExpr.Proofs.Causes
import ArrayExpr.Proofs.Data
import ArrayExpr.Proofs.Outcome

/-!
Every issue points at a guilty call. An issue is made where a call is guarded, so it lies at the place
of a token that makes a call. A runtime brings in no functions of programs, so that every function that
is ever called in a run has a body of the program's own tree, and that token is one of the tree.
-/

namespace ArrayExpr

/-- The tokens of a tree, those in function bodies included. -/
inductive Token.Within (root : Token) : Token → Prop where
  | root : Within root root
  | child {t c : Token} : Within root t → c ∈ t.children → Within root c

/-- An issue that points at a call in a tree and says something. -/
structure Issue.Blames (i : Issue) (root : Token) : Prop where
  message : i.message ≠ ""
  severity : i.severity = "error"
  call : ∃ t, root.Within t ∧ t.isCall = true ∧ t.span = i.span

/-! ### Bodies of functions -/

namespace Value

variable {p : Token → Prop}

theorem Data.bodiesIn {q : Undefined → Prop} {v : Value} (h : v.Data q) : v.BodiesIn p := by
  induction h with
  | list _ ih => exact .list ih
  | dict _ _ ih => exact .dict ih
  | undefined => exact .undefined _
  | _ => exact .atom rfl

theorem BodiesIn.members {v : Value} {vs : List Value} (h : v.BodiesIn p)
    (hmembers : v.members? = some vs) : ∀ w ∈ vs, w.BodiesIn p := by
  intro w hw
  obtain ⟨items, rfl, hitem⟩ | ⟨entries, rfl, e, -, rfl⟩ | hdata := mem_members_cases hmembers hw
  · cases h with
    | atom hatom => cases hatom
    | list hitems => exact hitems w hitem
  · cases e.1 with
    | undefined u => exact .undefined u
    | _ => exact .atom rfl
  · exact hdata.bodiesIn

end Value

/-! ### Issues of a run -/

/-- What was added to the issues between two moments points at calls in a tree. -/
def Moment.Blaming (root : Token) (a b : Moment) : Prop :=
  ∃ added, b.machine.report.issues = a.machine.report.issues ++ added ∧ ∀ i ∈ added, i.Blames root

namespace Moment.Blaming

variable {root : Token} {a b c : Moment}

theorem of_same (hissues : b.machine.report.issues = a.machine.report.issues) : Blaming root a b :=
  ⟨[], by rw [hissues, List.append_nil], List.forall_mem_nil _⟩

theorem trans (h : Blaming root a b) (h' : Blaming root b c) : Blaming root a c := by
  obtain ⟨added, hadded, hblames⟩ := h
  obtain ⟨added', hadded', hblames'⟩ := h'
  refine ⟨added ++ added', by rw [hadded', hadded, List.append_assoc], ?_⟩
  exact List.forall_mem_append.mpr ⟨hblames, hblames'⟩

/-- A fault that is caught at a call becomes an issue that points there. -/
theorem caught (m : Machine) {t : Token} (fault : Fault) (ht : root.Within t) (hcall : t.isCall) :
    Blaming root ⟨m, some fault⟩
      ⟨{ m with report := m.report.issue t.span fault.report }, none⟩ := by
  refine ⟨[{ span := t.span, message := fault.report }], rfl, List.forall_mem_singleton.mpr ?_⟩
  exact ⟨fault.report_ne_empty, rfl, t, ht, hcall, rfl⟩

end Moment.Blaming

/-- The contract that issues point at calls in a tree, and that only bodies of that tree are met. -/
def blame (root : Token) : Contract where
  token := root.Within
  value _ v := v.BodiesIn root.Within
  change _ a b := a.Blaming root b

theorem blame_lawful (root : Token) : (blame root).Lawful where
  refl _ _ := .of_same rfl
  trans h h' := h.trans h'
  widen := id
  opened h := h
  bound _ _ _ _ := .of_same rfl
  marked _ _ := .of_same rfl
  warned _ _ _ := .of_same rfl
  raised _ _ := .of_same rfl
  caught m _ fault ht hcall := .caught m fault ht hcall
  child ht hc := .child ht hc
  stable _ hv := hv
  none _ := .atom rfl
  str _ _ := .atom rfl
  undefined _ u := .undefined u
  passThrough _ := .atom rfl
  literal _ _ j _ := (Value.plain_ofJson j).bodiesIn
  failure _ _ _ := .atom rfl
  closure _ parameter _ scope ht := .closure parameter scope ht
  body h := by
    cases h with
    | atom hatom => cases hatom
    | closure _ _ ht => exact ht
  composition names _ h := .composition names h
  stage h := by
    cases h with
    | atom hatom => cases hatom
    | composition _ h => exact h
  dict h := .dict fun e he => (h e he).2
  entry h := by
    cases h with
    | atom hatom => cases hatom
    | dict h => exact h
  member h hmembers := h.members hmembers

theorem blame_answers (root : Token) (f : Foreign) :
    (blame root).Answers f fun _ r => r.BodiesIn root.Within where
  ok h := h
  error _ := .of_same rfl
  callee h := ⟨h.1, h.2.1⟩
  returned h _ hv := h.2.2.1 _ hv
  handled h _ _ := ⟨.of_same rfl, h.2.2.2 _⟩
  review calls h := h calls

theorem Runtime.bindings_bodiesIn (rt : Runtime) (p : Token → Prop) :
    ∀ e ∈ rt.bindings, e.2.BodiesIn p := by
  intro e he
  obtain ⟨bound, hbound, rfl⟩ := List.mem_map.mp he
  exact rt.bound_bodiesIn p bound hbound

theorem blame_admits (rt : Runtime) (root : Token) : (blame root).Admits rt := by
  have L := blame_lawful root
  refine { toLawful := L, binding := fun _ => rt.bindings_bodiesIn _, foreign := fun hcall f => ?_ }
  refine Contract.callForeign_keeps L fun m a ha => ?_
  cases f with
  | passThrough => exact Contract.passThrough_keeps L ha
  | capability c =>
      refine Contract.capability_keeps L (fun _ => .of_same rfl) (fun _ _ _ => .of_same rfl) ?_
      intro _ r mark hr
      exact (Value.data_marked mark r (Capability.plain_run hr)).bodiesIn
  | host name =>
      exact Contract.host_keeps L hcall (fun _ => .of_same rfl) (blame_answers root _)
        (rt.host_bodiesIn _ name ha)

def Issue.tooDeep (root : Token) : Issue where
  span := root.span
  message := "Program nests too deeply to evaluate: " ++ Fault.tooDeep.message

theorem exists_blames (rt : Runtime) (verbose : Bool) (root : Token) :
    ∃ reported, ((interpretToken rt verbose root).issues = reported ∨
        (interpretToken rt verbose root).issues = reported ++ [.tooDeep root]) ∧
      ∀ i ∈ reported, i.Blames root := by
  obtain ⟨⟨reported, hreported, hblames⟩, -⟩ :=
    Contract.keeps_initial (blame_admits rt root) .root verbose
  refine ⟨reported, ?_, hblames⟩
  have hissues : ∀ r m, (evaluate rt nestingLimit root 0).run (.initial verbose) = (r, m) →
      m.report.issues = reported := fun r m hrun => by
    rw [Run.ending, hrun] at hreported
    exact hreported
  unfold interpretToken
  split
  · rename_i v m hrun
    exact .inl ((Report.issues_info _ _).trans (hissues _ m hrun))
  · rename_i fault m hrun
    split
    · exact .inr (congrArg (· ++ [Issue.tooDeep root]) (hissues _ m hrun))
    · exact .inl (hissues _ m hrun)

end ArrayExpr
