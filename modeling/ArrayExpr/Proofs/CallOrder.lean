import ArrayExpr.Proofs.Endurance

/-!
The order of calls. A token makes its calls after those of its operands, and operands come from left
to right, so the functions of the runtime that a token calls can be read off its tree. What a function
does once it is called is its own affair; it may call others, and these calls then follow its own on
record. A function that gives something whose text cannot be written may break the run off, though, if
that is to be the name of something.
-/

namespace ArrayExpr

def Callee.appliesBound (rt : Runtime) : Callee → Bool
  | .named name => (name.boundIn rt.bindings).isSome
  | .operator .. | .provided _ => true

/-- Whether the runtime binds the names of all functions that a token applies, function bodies left
aside. -/
def Token.appliesBound (rt : Runtime) (t : Token) : Bool :=
  t.callSites.all (Callee.appliesBound rt)

def Response.Direct : Response → Prop
  | .ok _ | .error _ => True
  | .call .. => False
  | .review next => ∀ calls, (next calls).Direct

/-- A runtime that binds names to functions only, none of which calls another. -/
structure Runtime.Direct (rt : Runtime) : Prop where
  function : ∀ e ∈ rt.bindings, ∃ f, f ≠ .passThrough ∧ e.2 = .foreign f
  host : ∀ name v, (rt.host name v).Direct

variable {rt : Runtime}

theorem calls_respond {r : Response} (hr : r.Direct) (call : Value → List Value → Run Value)
    (source : Foreign) (m : Machine) : ((respond call source r).run m).2.calls = m.calls := by
  induction r generalizing m with
  | ok v => rfl
  | error fault => rfl
  | call => exact hr.elim
  | review next ih => exact ih m.calls (hr m.calls) m

namespace Runtime

theorem Adds.eq_singleton (hrt : rt.Direct) {g : Foreign} (hg : g ≠ .passThrough)
    {added : List Foreign} (h : rt.Adds (.foreign g) added) : added = [g] := by
  obtain ⟨depth, argument, m, hcalls⟩ := h.called
  have hone : ((call rt (depth + 1) (.foreign g) [argument]).run m).2.calls = m.calls ++ [g] := by
    rw [call, callBy]
    cases g with
    | passThrough => exact absurd rfl hg
    | capability c => exact calls_callForeign_capability rt _ c argument m
    | host name =>
        rw [run_callForeign_host]
        exact calls_respond (hrt.host name argument) _ _ _
  exact List.append_cancel_left (hcalls.symm.trans hone)

theorem Adds.eq_nil {added : List Foreign} (h : rt.Adds (.foreign .passThrough) added) :
    added = [] := by
  obtain ⟨depth, argument, m, hcalls⟩ := h.called
  have hnone : ((call rt (depth + 1) (.foreign .passThrough) [argument]).run m).2.calls =
      m.calls ++ [] := (List.append_nil _).symm
  exact List.append_cancel_left (hcalls.symm.trans hnone)

theorem exists_mem_of_boundIn {name : Json} {f : Value} (h : name.boundIn rt.bindings = some f) :
    ∃ e ∈ rt.bindings, e.2 = f := by
  have hlookup : ∃ key : Key, key.lookup? rt.bindings = some f := by
    cases name with
    | null | list | object => cases h
    | _ => exact ⟨_, h⟩
  obtain ⟨key, hkey⟩ := hlookup
  obtain ⟨e, he, hvalue⟩ := Option.map_eq_some_iff.mp hkey
  exact ⟨e, List.mem_of_find?_eq_some he, hvalue⟩

/-- A call site adds just the function that the runtime binds there, or nothing if it binds none. -/
theorem Adds.map_foreign (hrt : rt.Direct) {c : Callee} (hc : c.appliesBound rt = true) {f : Value}
    (hfinds : c.Finds rt f) {added : List Foreign} (h : rt.Adds f added) :
    added.map .foreign = (c.boundIn rt).toList := by
  cases hbound : c.boundIn rt with
  | none =>
      have hpass : f = .foreign .passThrough := by
        cases c with
        | named name =>
            rw [Callee.boundIn, Callee.name] at hbound
            rw [Callee.appliesBound, hbound] at hc
            cases hc
        | operator | provided => exact hfinds.trans (by rw [hbound]; rfl)
      rw [hpass] at h
      rw [h.eq_nil]
      rfl
  | some g =>
      have hsame : f = g := by
        cases c with
        | named name => exact hfinds g hbound
        | operator | provided => exact hfinds.trans (by rw [hbound]; rfl)
      obtain ⟨e, he, hvalue⟩ := exists_mem_of_boundIn hbound
      obtain ⟨foreign, hforeign, hfunction⟩ := hrt.function e he
      obtain rfl : f = .foreign foreign := hsame.trans (hvalue.symm.trans hfunction)
      rw [h.eq_singleton hrt hforeign, ← hsame]
      rfl

theorem Record.map_foreign (hrt : rt.Direct) {sites : List Callee} {added : List Foreign}
    (h : rt.Record sites added) (hsites : ∀ c ∈ sites, c.appliesBound rt = true) :
    added.map .foreign = sites.filterMap (Callee.boundIn rt) := by
  induction h with
  | nil => rfl
  | @cons c f sites added more hfinds hadds _ ih =>
      obtain ⟨hc, hrest⟩ := List.forall_mem_cons.mp hsites
      rw [List.map_append, hadds.map_foreign hrt hc hfinds, ih hrest]
      cases hbound : c.boundIn rt <;> simp [hbound]

end Runtime

/-- A runtime with a function that fails and two that give back what they are called with. -/
def Runtime.failingOnce : Runtime where
  bound := [("f", .foreign (.host "f")), ("Add", .foreign (.host "plus")),
    ("Negative", .foreign (.host "minus"))]
  host name v := if name = "f" then .error (.notCallable name) else .ok v
  bound_nodup := by decide
  bound_bodiesIn _ := by
    simp only [List.forall_mem_cons]
    exact ⟨.atom rfl, .atom rfl, .atom rfl, List.forall_mem_nil _⟩
  host_bodiesIn _ name _ hv := by
    split
    · exact trivial
    · exact hv

def Value.boxed : Nat → Value → Value
  | 0, v => v
  | n + 1, v => .list [boxed n v]

theorem Value.BodiesIn.boxed {p : Token → Prop} {v : Value} (h : v.BodiesIn p) (n : Nat) :
    (Value.boxed n v).BodiesIn p := by
  induction n with
  | zero => exact h
  | succ n ih => exact .list (List.forall_mem_singleton.mpr ih)

/-- A runtime with a function that puts what it is called with beside a list of eight hundred levels, and
one that gives it back. -/
def Runtime.nestingLists : Runtime where
  bound := [("big", .foreign (.host "big")), ("f", .foreign (.host "f"))]
  host name v :=
    if name = "big" then .ok (.list [.boxed 800 .none, v]) else .ok v
  bound_nodup := by decide
  bound_bodiesIn _ := by
    simp only [List.forall_mem_cons]
    exact ⟨.atom rfl, .atom rfl, List.forall_mem_nil _⟩
  host_bodiesIn _ name _ hv := by
    split
    · exact .list (List.forall_mem_cons.mpr ⟨.boxed (.atom rfl) 800, List.forall_mem_singleton.mpr hv⟩)
    · exact hv

end ArrayExpr
