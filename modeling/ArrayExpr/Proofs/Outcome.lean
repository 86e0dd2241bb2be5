import ArrayExpr.Outcome
import ArrayExpr.Proofs.Evaluation

/-!
Runs from start to end. A program is a token tree, or plain data that is still to be read as one. It
starts on a machine with one empty scope, so there is nothing that a contract could be broken by, and
its end is that of the evaluation of its token tree unless a limit on nesting was met.
-/

namespace ArrayExpr

/-- The outcomes of programs on a runtime. -/
inductive Outcome.Of (rt : Runtime) (verbose : Bool) : Outcome → Prop where
  | token (root : Token) : Of rt verbose (interpretToken rt verbose root)
  | tree (tree : Json) : Of rt verbose (interpret rt verbose tree)

/-- The outcomes of a token tree, run as it is or read from plain data. -/
inductive Outcome.From (rt : Runtime) (verbose : Bool) (root : Token) : Outcome → Prop where
  | token : From rt verbose root (interpretToken rt verbose root)
  | tree {tree : Json} : Token.decode nestingLimit tree = .ok root →
      From rt verbose root (interpret rt verbose tree)

theorem Outcome.From.eq_interpretToken {rt : Runtime} {verbose : Bool} {root : Token} {o : Outcome}
    (h : o.From rt verbose root) : o = interpretToken rt verbose root := by
  cases h with
  | token => rfl
  | tree hdecode => rw [interpret, hdecode]

/-- A runtime that binds values to names and has no functions of its own. -/
def Runtime.ofAtoms (bound : List (String × Value)) (hnodup : (bound.map Prod.fst).Nodup)
    (hbound : ∀ e ∈ bound, e.2.isAtom = true) : Runtime where
  bound := bound
  host _ v := .ok v
  bound_nodup := hnodup
  bound_bodiesIn _ e he := .atom (hbound e he)
  host_bodiesIn _ _ _ h := h

def Machine.initial (verbose : Bool) : Machine :=
  { report := { verbose } }

/-- A run keeps every contract that admits its runtime. -/
theorem Contract.keeps_initial {C : Contract} {rt : Runtime} (A : C.Admits rt) {root : Token}
    (hroot : C.token root) (verbose : Bool) :
    C.change (root.own 0) ⟨.initial verbose, none⟩
        ((evaluate rt nestingLimit root 0).ending (.initial verbose)) ∧
      C.Store ((evaluate rt nestingLimit root 0).run (.initial verbose)).2 ∧
      ∀ v, ((evaluate rt nestingLimit root 0).run (.initial verbose)).1 = .ok v →
        C.value ((evaluate rt nestingLimit root 0).run (.initial verbose)).2 v := by
  have hstore : C.Store (.initial verbose) := by
    simp [Store, Machine.initial]
  exact (keeps A nestingLimit).1 root 0 (.initial verbose) hroot hstore

theorem Report.issues_info (r : Report) (words : List String) : (r.info words).issues = r.issues := by
  unfold info
  split <;> rfl

theorem Report.issues_issue_ne_nil (r : Report) (span : Span) (text : String) :
    (r.issue span text).issues ≠ [] := by
  simp [issue]

/-- How a run ends that gives an outcome. -/
inductive Outcome.Ends (rt : Runtime) (verbose : Bool) : Outcome → Prop where
  | finished {root : Token} {m : Machine} {v : Value}
      (run : (evaluate rt nestingLimit root 0).run (.initial verbose) = (.ok v, m)) :
      Ends rt verbose (.finished m root v)
  | tooDeep {root : Token} {m : Machine} {fault : Fault} (limit : fault.isTooDeep = true)
      (run : (evaluate rt nestingLimit root 0).run (.initial verbose) = (.error fault, m)) :
      Ends rt verbose (.tooDeep m root.span)
  | unread {fault : Fault} (limit : fault.isTooDeep = true) :
      Ends rt verbose
        (.tooDeep { Machine.initial verbose with raised := [(none, fault)] } .nowhere)

theorem Outcome.ends_interpretToken {rt : Runtime} {verbose : Bool} {root : Token} {value : Value}
    (h : (interpretToken rt verbose root).result = .ok value) :
    Outcome.Ends rt verbose (interpretToken rt verbose root) := by
  unfold interpretToken at h ⊢
  split at h
  · rename_i v m hrun
    exact .finished hrun
  · rename_i fault m hrun
    split at h
    · rename_i hlimit
      rw [if_pos hlimit]
      exact .tooDeep hlimit hrun
    · cases h

/-- A run that gives a result has evaluated a token tree or met a limit on nesting. -/
theorem Outcome.Of.ends {rt : Runtime} {verbose : Bool} {o : Outcome} (ho : o.Of rt verbose)
    {value : Value} (h : o.result = .ok value) : Outcome.Ends rt verbose o := by
  cases ho with
  | token root => exact ends_interpretToken h
  | tree tree =>
      unfold interpret at h ⊢
      split at h
      · exact ends_interpretToken h
      · dsimp only at h ⊢
        split at h
        · rename_i hlimit
          rw [if_pos hlimit]
          exact .unread hlimit
        · cases h

/-- A run that gives another result than the failure value has evaluated its token tree to it. -/
theorem Outcome.From.exists_run {rt : Runtime} {verbose : Bool} {root : Token} {o : Outcome}
    (ho : o.From rt verbose root) {value : Value} (hresult : o.result = .ok value)
    (hlimit : value ≠ .failure) :
    ∃ m, (evaluate rt nestingLimit root 0).run (.initial verbose) = (.ok value, m) ∧
      o.state = m.scope 0 := by
  rw [ho.eq_interpretToken] at hresult ⊢
  unfold interpretToken at hresult ⊢
  split at hresult
  · rename_i v m hrun
    cases hresult
    exact ⟨m, hrun, rfl⟩
  · split at hresult
    · cases hresult
      exact absurd rfl hlimit
    · cases hresult

end ArrayExpr
