import ArrayExpr.Proofs.Causes
import ArrayExpr.Proofs.Simulation

/-!
Evaluating a token that was rewritten follows evaluating the token itself, for every simulation that
fits the runtime (`Simulation.follows`). Names are found alike, texts and faults are the same, and a
closure that is called on either side has a body that was rewritten. The application that a unary
operation has become finds its function among the names of the scope and of the runtime, where the
operation finds it among those of the runtime alone: a name that the runtime provides stands for the
same function in both.
-/

namespace ArrayExpr

namespace Simulation

open Follows

variable {S : Simulation} {rt : Runtime} {m m' : Machine}

/-! ### Names -/

theorem Fits.runtime_scopes (fits : S.Fits rt) : S.Scopes rt.bindings rt.bindings :=
  List.forall₂_same.mpr fun e _ => ⟨rfl, Value.corresponds_refl fits.refl e.2⟩

theorem merged_scopes (fits : S.Fits rt) (hm : S.Machines m m') (scope : Nat) :
    S.Scopes (rt.merged (m.scope scope)) (rt.merged (m'.scope scope)) :=
  Key.insertAll_related Key.respects_eq fits.runtime_scopes (hm.scope scope)

theorem find_follows {bindings bindings' : Scope} (hbindings : S.Scopes bindings bindings')
    (name : Json) :
    S.Follows m m' (find bindings name) (find bindings' name) (Option.Rel S.Values) := by
  unfold find
  split
  · exact done fun _ => .none
  · exact lift_andThen fun key _ => done fun _ => Key.lookup?_related Key.respects_eq hbindings rfl

/-- A name is resolved alike, with the same warning if it is bound to nothing. -/
theorem resolve_follows (fits : S.Fits rt) {bindings bindings' : Scope}
    (hbindings : S.Scopes bindings bindings') (name : Json) :
    S.Follows m m' (resolve bindings name) (resolve bindings' name) S.Values := by
  refine andThen (find_follows hbindings name) (fun found => ?_) fun found found' _ _ hfound => ?_
  · cases found with
    | some => simp
    | none => exact Run.logs_bind (by simp) (by simp)
  cases hfound with
  | some hf => exact done fun _ => hf
  | none =>
      refine lift_andThen fun text _ => ?_
      rw [sortedNames_eq_of_perm (.of_eq (Key.keys_eq_of_related hbindings))]
      refine lift_andThen fun names _ => ?_
      exact andThen (warn fits _ _) (by simp) fun _ _ _ _ _ => done fun _ => .atom rfl

theorem resolveAll_follows (fits : S.Fits rt) (names : List String) {bindings bindings' : Scope}
    (hbindings : S.Scopes bindings bindings') :
    S.Follows m m' (names.mapM fun name => resolve bindings (.str name))
      (names.mapM fun name => resolve bindings' (.str name))
      (Value.ItemsCorrespond .identity S.body) := by
  induction names generalizing m m' with
  | nil => exact done fun _ => .nil
  | cons name names ih =>
      rw [List.mapM_cons, List.mapM_cons]
      refine andThen (resolve_follows fits hbindings _) (by simp) fun f f' _ _ hf => ?_
      exact andThen ih (by simp) fun fs fs' _ _ hfs => done fun _ => .cons hf hfs

theorem findOperator_follows (symbol arity : Json) :
    S.Follows m m' (findOperator symbol arity) (findOperator symbol arity) Eq := by
  refine lift_andThen fun key _ => ?_
  split
  · exact done fun _ => rfl
  · exact lift_andThen fun _ _ => done fun _ => rfl

theorem operatorName_follows (fits : S.Fits rt) (symbol arity : Json) :
    S.Follows m m' (operatorName symbol arity) (operatorName symbol arity) Eq := by
  refine andThen (findOperator_follows symbol arity) (fun found => ?_) ?_
  · cases found with
    | some => simp
    | none => exact Run.logs_bind (by simp) (by simp)
  rintro found _ _ _ rfl
  cases found with
  | some name => exact done fun _ => rfl
  | none =>
      refine lift_andThen fun _ _ => lift_andThen fun _ _ => ?_
      exact andThen (warn fits _ _) (by simp) fun _ _ _ _ _ => done fun _ => rfl

theorem refer_follows (fits : S.Fits rt) (scope : Nat) (name : String) :
    S.Follows m m' (refer rt scope name) (refer rt scope name) S.Values := by
  refine reading fun hm => ?_
  have hfound : Option.Rel S.Values (Key.lookup? (.str name) (rt.merged (m.scope scope)))
      (Key.lookup? (.str name) (rt.merged (m'.scope scope))) :=
    Key.lookup?_related Key.respects_eq (merged_scopes fits hm scope) rfl
  generalize Key.lookup? (.str name) (rt.merged (m.scope scope)) = found,
    Key.lookup? (.str name) (rt.merged (m'.scope scope)) = found' at hfound ⊢
  cases hfound with
  | some hv => exact done fun _ => hv
  | none => exact andThen (warn fits _ _) (by simp) fun _ _ _ _ _ => done fun _ => .atom rfl

theorem resolve_eq_pure {bindings : Scope} {name : String} {f : Value}
    (h : Key.lookup? (.str name) bindings = some f) : resolve bindings (.str name) = pure f := by
  show (pure (Key.lookup? (.str name) bindings) >>= fun found => _) = _
  rw [h]
  rfl

/-- An operator that has a name is not warned about. -/
theorem operatorName_eq_pure {symbol name : String}
    (h : namedBy? unaryOperators (.str symbol) = some name) :
    operatorName (.str symbol) (.int 1) = pure (.str name) := by
  show (pure (namedBy? unaryOperators (.str symbol)) >>= fun found => _) = _
  rw [h]
  rfl

theorem callee_follows (fits : S.Fits rt) (scope : Nat) (callee : Callee) :
    S.Follows m m' (callee.resolve rt scope) (callee.resolve rt scope) S.Values := by
  cases callee with
  | named name => exact reading fun hm => resolve_follows fits (merged_scopes fits hm scope) name
  | operator symbol arity =>
      refine andThen (operatorName_follows fits symbol _) (by simp) ?_
      rintro name _ _ _ rfl
      exact resolve_follows fits fits.runtime_scopes name
  | provided name => exact resolve_follows fits fits.runtime_scopes _

/-- A function that the runtime provides is found in the runtime alone, and also in a scope together
with the runtime. -/
theorem provided_follows (fits : S.Fits rt) {name : String} {f : Value} (hf : rt.Provides name f)
    (scope : Nat) :
    S.Follows m m' (resolve rt.bindings (.str name)) ((Callee.named (.str name)).resolve rt scope)
      S.Values := by
  refine fun hm => ?_
  rw [Callee.resolve, Run.run_get_bind, resolve_eq_pure hf.1, resolve_eq_pure (hf.2 _)]
  exact done (fun _ => Value.corresponds_refl fits.refl f) hm

theorem named_follows (fits : S.Fits rt) {symbol name : String} {f : Value}
    (hname : namedBy? unaryOperators (.str symbol) = some name) (hf : rt.Provides name f)
    (scope : Nat) :
    S.Follows m m' ((Callee.operator (.str symbol) 1).resolve rt scope)
      ((Callee.named (.str name)).resolve rt scope) S.Values := by
  have hoperator : (Callee.operator (.str symbol) 1).resolve rt scope =
      resolve rt.bindings (.str name) := by
    rw [Callee.resolve, operatorName_eq_pure hname, pure_bind]
  rw [hoperator]
  exact provided_follows fits hf scope

/-! ### Calls -/

section Calls

variable {depth depth' : Nat}

/-- Calls that follow each other if what is called and the arguments correspond. -/
def Calls (S : Simulation) (rt : Runtime) (depth depth' : Nat) : Prop :=
  ∀ {m m' f f' arguments arguments'}, S.Values f f' →
    Value.ItemsCorrespond .identity S.body arguments arguments' →
    S.Follows m m' (call rt depth f arguments) (call rt depth' f' arguments') S.Values

theorem respond_follows (hcall : S.Calls rt depth depth') (source : Foreign) {r r' : Response}
    (hr : r.Corresponds S.body r') :
    S.Follows m m' (respond (call rt depth) source r) (respond (call rt depth') source r')
      S.Values := by
  induction hr generalizing m m' with
  | ok hv => exact done fun _ => hv
  | error fault => exact raise (some source) fault
  | @call _ _ _ _ handles _ _ hf harguments _ ih =>
      refine andThen (attempt handles (hcall hf harguments)) (by simp) ?_
      exact fun result result' _ _ hresults => ih result result' hresults
  | review _ ih =>
      refine reading fun hm => ?_
      rw [hm.calls]
      exact ih m'.calls

theorem callForeign_follows (fits : S.Fits rt) (hcall : S.Calls rt depth depth') (f : Foreign)
    {arguments arguments' : List Value}
    (harguments : Value.ItemsCorrespond .identity S.body arguments arguments') :
    S.Follows m m' (callForeign rt (call rt depth) f arguments)
      (callForeign rt (call rt depth') f arguments') S.Values := by
  rcases harguments with _ | @⟨a, a', _, _, ha, _ | ⟨_, hmore⟩⟩
  · exact raise none _
  · cases f with
    | passThrough => exact done fun _ => ha
    | capability c =>
        refine andThen (noteCall _) (by simp) fun _ _ m₁ m₁' _ => ?_
        rw [c.run_eq_of_corresponds Link.distinguishes_identity fits.kind ha]
        cases c.run a' with
        | error fault => exact raise (some (.capability c)) fault
        | ok r =>
            show S.Follows m₁ m₁' (Run.marking fun mark => .ok (r.marked mark))
              (Run.marking fun mark => .ok (r.marked mark)) S.Values
            exact marking fun mark => .ok ⟨rfl, Value.corresponds_refl fits.refl _⟩
    | host name =>
        refine andThen (noteCall _) (by simp) fun _ _ _ _ _ => ?_
        exact respond_follows hcall _ (fits.host name ha)
  · have hlength := hmore.length_eq
    simp only [callForeign, List.length_cons, hlength]
    exact raise none _

theorem stages_follow (hcall : S.Calls rt depth depth') {stages stages' : List Value}
    (hstages : Value.ItemsCorrespond .identity S.body stages stages') {v v' : Value}
    (hv : S.Values v v') :
    S.Follows m m' (stages.foldlM (fun result f => call rt depth f [result]) v)
      (stages'.foldlM (fun result f => call rt depth' f [result]) v') S.Values := by
  induction stages generalizing m m' stages' v v' with
  | nil =>
      cases hstages
      exact done fun _ => hv
  | cons f stages ih =>
      cases hstages with
      | cons hf hstages =>
          rw [List.foldlM_cons, List.foldlM_cons]
          exact andThen (hcall hf (.cons hv .nil)) (by simp) fun w w' _ _ hw => ih hstages hw

theorem pipeline_follows (hcall : S.Calls rt depth depth') {fs fs' arguments arguments' : List Value}
    (hfs : Value.ItemsCorrespond .identity S.body fs fs')
    (harguments : Value.ItemsCorrespond .identity S.body arguments arguments') :
    S.Follows m m' (pipeline (call rt depth) fs arguments)
      (pipeline (call rt depth') fs' arguments') S.Values := by
  have hreverse : Value.ItemsCorrespond .identity S.body fs.reverse fs'.reverse :=
    Value.itemsCorrespond_iff.mpr (List.forall₂_reverse_iff.mpr (Value.itemsCorrespond_iff.mp hfs))
  unfold pipeline
  generalize fs.reverse = stages, fs'.reverse = stages' at hreverse ⊢
  cases hreverse with
  | nil => exact hcall (.atom rfl) harguments
  | cons hlast hothers =>
      refine andThen (hcall hlast harguments) (by simp) fun v v' _ _ hv => ?_
      exact stages_follow hcall hothers hv

end Calls

/-! ### Evaluation as a whole -/

/-- Evaluations that follow each other if the tokens may stand for each other. -/
def Evaluates (S : Simulation) (rt : Runtime) (depth depth' : Nat) : Prop :=
  ∀ {m m'} {t t' : Token} (scope : Nat), S.Rewrites rt t t' →
    S.Follows m m' (evaluate rt depth t scope) (evaluate rt depth' t' scope) S.Values

theorem mergeMembers_follows {depth depth' : Nat} (hev : S.Evaluates rt depth depth') (scope : Nat)
    {members members' : List Token} (hmembers : List.Forall₂ (S.Rewrites rt) members members')
    {entries entries' : Scope}
    (hentries : Value.EntriesCorrespond .identity S.body entries entries') :
    S.Follows m m' (mergeMembers (evaluate rt depth · scope) entries members)
      (mergeMembers (evaluate rt depth' · scope) entries' members')
      (Value.EntriesCorrespond .identity S.body) := by
  induction hmembers generalizing m m' entries entries' with
  | nil => exact done fun _ => hentries
  | cons hmember _ ih =>
      unfold mergeMembers
      refine andThen (hev scope hmember) (by simp) fun v v' m₁ m₁' hv => ?_
      have hmerge : S.Follows m₁ m₁' (Run.marking fun mark => v.merge mark entries)
          (Run.marking fun mark => v'.merge mark entries')
          (Value.EntriesCorrespond .identity S.body) := by
        refine marking fun mark => ?_
        refine (Value.merge_corresponds (Link.grows_identity mark) hentries hv).imp ?_
        rintro r r' ⟨c, hnext, hnext', hall⟩
        exact ⟨hnext.trans hnext'.symm, hall⟩
      exact andThen hmerge (by simp) fun all all' _ _ hall => ih hall

theorem one_follows {depth depth' : Nat} (hev : S.Evaluates rt depth depth') (scope : Nat)
    {operand operand' : Token} (hoperand : S.Rewrites rt operand operand') :
    S.Follows m m' ((Operands.one operand).evaluate (evaluate rt depth · scope))
      ((Operands.one operand').evaluate (evaluate rt depth' · scope)) fun values values' =>
        S.Values values.argument values'.argument :=
  andThen (hev scope hoperand) (by simp) fun _ _ _ _ hv => done fun _ => hv

theorem two_follow {depth depth' : Nat} (hev : S.Evaluates rt depth depth') (scope : Nat)
    {left left' right right' : Token} (hleft : S.Rewrites rt left left')
    (hright : S.Rewrites rt right right') :
    S.Follows m m' ((Operands.two left right).evaluate (evaluate rt depth · scope))
      ((Operands.two left' right').evaluate (evaluate rt depth' · scope)) fun values values' =>
        S.Values values.argument values'.argument := by
  refine andThen (hev scope hleft) (by simp) fun a a' _ _ ha => ?_
  refine andThen (hev scope hright) (by simp) fun b b' _ _ hb => done fun _ => ?_
  exact .dict (.cons (.str "a") ha (.cons (.str "b") hb .nil))

/-- A token that makes a call, and one that finds the same function for it. -/
theorem operate_follows {depth depth' : Nat} (fits : S.Fits rt) (hcall : S.Calls rt depth depth')
    {ev ev' : Token → Run Value} {scope : Nat} (span : Span) {callee callee' : Callee}
    {operands operands' : Operands Token}
    (hoperands : S.Follows m m' (operands.evaluate ev) (operands'.evaluate ev') fun values values' =>
      S.Values values.argument values'.argument)
    (hcallee : ∀ {m m'},
      S.Follows m m' (callee.resolve rt scope) (callee'.resolve rt scope) S.Values) :
    S.Follows m m' (operate rt ev (call rt depth) scope span callee operands)
      (operate rt ev' (call rt depth') scope span callee' operands') S.Values := by
  refine andThen hoperands (by simp) fun values values' _ _ hargument => ?_
  refine andThen hcallee (by simp) fun f f' _ _ hf => ?_
  exact safely fits span (hcall hf (.cons hargument .nil))

/-- The second run has as much room for a text as the first, or more where it may nest less deep. -/
theorem Depths.text {depth depth' : Nat} (hdepths : S.Depths depth depth')
    {write : Nat → Except Fault String} (hmore : ∀ {room room'}, room ≤ room' →
      write room = .error .deepText ∨ write room' = write room) :
    writingRoom depth = writingRoom depth' ∨ S.flat ∧
      (write (writingRoom depth) = .error .deepText ∨
        write (writingRoom depth') = write (writingRoom depth)) := by
  obtain rfl | ⟨hflat, hle⟩ := hdepths
  · exact .inl rfl
  · exact .inr ⟨hflat, hmore (Nat.mul_le_mul_left 3 hle)⟩

theorem evaluate_succ {depth depth' : Nat} (fits : S.Fits rt) (hdepths : S.Depths depth depth')
    (hev : S.Evaluates rt depth depth') (hcall : S.Calls rt depth depth')
    (hflat : S.flat → S.Evaluates rt depth (depth' + 1)) : S.Evaluates rt (depth + 1) (depth' + 1) := by
  intro m m' t t' scope ht
  cases ht with
  | program hmembers =>
      refine andThen (mergeMembers_follows hev scope hmembers .nil) (by simp) ?_
      exact fun _ _ _ _ hentries => done fun _ => .dict hentries
  | assignment hpath hvalue =>
      refine andThen (hev scope hpath) (fun _ => Run.logs_bind (by simp) (by simp)) ?_
      intro key key' _ _ hkey
      rw [← hkey.shownWithin_eq fits.kind]
      refine text_andThen (hdepths.text key.shownWithin_of_le) fun name => ?_
      refine andThen (hev scope hvalue) (by simp) fun v v' _ _ hv => ?_
      refine andThen (bindName scope _ hv) (by simp) fun _ _ _ _ _ => done fun _ => ?_
      exact .dict (.cons (.str _) hv .nil)
  | reference hpath =>
      refine andThen (hev scope hpath) (by simp) fun key key' _ _ hkey => ?_
      rw [← hkey.shownWithin_eq fits.kind]
      refine text_andThen (hdepths.text key.shownWithin_of_le) fun name => ?_
      exact refer_follows fits scope name
  | path => exact done fun _ => .atom rfl
  | function hbody => exact done fun _ => .closure hbody rfl
  | composition =>
      refine reading fun hm => ?_
      refine andThen (resolveAll_follows fits _ (merged_scopes fits hm scope)) (by simp) ?_
      exact fun fs fs' _ _ hfs => done fun _ => .composition hfs
  | literal => exact done fun _ => Value.corresponds_refl fits.refl _
  | object hcontent => exact hev scope hcontent
  | unknown span kind raw =>
      refine text_andThen (hdepths.text (Json.object raw).quotedWithin_of_le) fun text => ?_
      exact done fun _ => .atom rfl
  | application hargument =>
      exact operate_follows fits hcall _ (one_follows hev scope hargument) (callee_follows fits scope _)
  | binary hleft hright =>
      exact operate_follows fits hcall _ (two_follow hev scope hleft hright)
        (callee_follows fits scope _)
  | unary hoperand | conversion hoperand =>
      exact operate_follows fits hcall _ (one_follows hev scope hoperand) (callee_follows fits scope _)
  | unwrapped hdropped hcontent => exact hflat hdropped scope hcontent
  | named hnamed hprovides hoperand =>
      refine operate_follows fits hcall _ (one_follows hev scope hoperand) ?_
      exact named_follows fits hnamed hprovides scope
  | converted hprovides hoperand =>
      exact operate_follows fits hcall _ (one_follows hev scope hoperand)
        (provided_follows fits hprovides scope)

theorem call_succ {depth depth' : Nat} (fits : S.Fits rt) (hev : S.Evaluates rt depth depth')
    (hcall : S.Calls rt depth depth') : S.Calls rt (depth + 1) (depth' + 1) := by
  intro m m' f f' arguments arguments' hf harguments
  cases hf with
  | atom hatom =>
      cases f with
      | foreign f => exact callForeign_follows fits hcall f harguments
      | list | dict | undefined | closure | composition => cases hatom
      | _ => exact raise none _
  | undefined | list | dict => exact raise none _
  | closure hbody hscope =>
      cases hscope
      rcases harguments with _ | ⟨hargument, _ | ⟨_, hmore⟩⟩
      · exact raise none _
      · refine andThen (Follows.openScope _ _ hargument) (by simp) ?_
        rintro scope _ _ _ rfl
        exact hev scope (fits.rewrites hbody)
      · have hlength := hmore.length_eq
        simp only [call, callBy, List.length_cons, hlength]
        exact raise none _
  | composition hfs => exact pipeline_follows hcall hfs harguments

/-- **Evaluating what was rewritten follows evaluating the original**, however deep that may nest. -/
theorem follows (fits : S.Fits rt) {depth depth' : Nat} (hdepths : S.Depths depth depth') :
    S.Evaluates rt depth depth' ∧ S.Calls rt depth depth' := by
  -- An evaluation or a call of the first run is made of evaluations and calls at the depth below, and
  -- the second run has at least that depth left.
  induction depth generalizing depth' with
  | zero =>
      rcases hdepths with rfl | ⟨hflat, -⟩
      · constructor
        · intro m m' t t' scope _
          exact raise none _
        · intro m m' f f' arguments arguments' _ _
          exact raise none _
      · constructor
        · intro m m' t t' scope _
          exact tooDeep hflat
        · intro m m' f f' arguments arguments' _ _
          exact tooDeep hflat
  | succ depth ih =>
      obtain ⟨below, rfl, hbelow⟩ : ∃ below, depth' = below + 1 ∧ S.Depths depth below := by
        rcases hdepths with rfl | ⟨hflat, hle⟩
        · exact ⟨depth, rfl, .inl rfl⟩
        · exact ⟨depth' - 1, by omega, .inr ⟨hflat, by omega⟩⟩
      have hdeeper : S.flat → S.Evaluates rt depth (below + 1) := by
        intro hflat
        refine (ih (.inr ⟨hflat, ?_⟩)).1
        rcases hbelow with rfl | ⟨-, hle⟩ <;> omega
      obtain ⟨hev, hcall⟩ := ih hbelow
      exact ⟨evaluate_succ fits hbelow hev hcall hdeeper, call_succ fits hev hcall⟩

end Simulation

end ArrayExpr
