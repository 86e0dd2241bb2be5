import ArrayExpr.Proofs.Foreign

/-!
Evaluation keeps every contract that admits its runtime (`Contract.keeps`): whatever the token, the
scope and the machine, and whether it ends in a value or in a fault. A contract is then shown for a
runtime by its laws and by what foreign functions do; see `Contract.Admits`.
-/

namespace ArrayExpr

namespace Contract

variable {C : Contract} {own : Option Nat} {m : Machine}

/-! ### Parts of evaluation -/

/-- A guarded call never fails: its fault becomes an issue at the place of the call. -/
theorem safely_keeps (L : C.Lawful) {t : Token} (ht : C.token t) (hcall : t.isCall) {x : Run Value}
    (hx : C.Keeps none m x C.value) : C.Keeps own m (Run.safely t.span x) C.value := by
  intro hm
  obtain ⟨hchange, hstore, hvalue⟩ := hx hm
  cases hrun : x.run m with
  | mk r m' =>
      rw [hrun] at hstore hvalue
      cases r with
      | ok v =>
          rw [Run.ending_ok hrun] at hchange
          have hsafe : (Run.safely t.span x).run m = (.ok v, m') := by
            rw [Run.safely, Run.run_tryCatch, hrun]
          exact Keeps.of_ok hsafe (L.widen hchange) (fun _ => hstore) (fun _ => hvalue v rfl) hm
      | error fault =>
          rw [Run.ending_error hrun] at hchange
          have hcaught := L.caught m' fault ht hcall
          have hsafe : (Run.safely t.span x).run m =
              (.ok .failure, { m' with report := m'.report.issue t.span fault.report }) := by
            rw [Run.safely, Run.run_tryCatch, hrun]
            rfl
          exact Keeps.of_ok hsafe (L.widen (L.trans hchange hcaught))
            (fun _ => hstore.of_change L hcaught rfl) (fun _ => L.failure m' t.span fault) hm

theorem find_keeps (L : C.Lawful) {bindings : Scope} (hall : ∀ e ∈ bindings, C.value m e.2)
    (name : Json) :
    C.Keeps own m (find bindings name) fun m' found => ∀ v, found = some v → C.value m' v := by
  unfold find
  split
  · exact Keeps.done L fun _ v hv => by cases hv
  · refine lift_andThen L fun key _ => ?_
    exact Keeps.done L fun _ v hv => Key.lookup?_all hall hv

theorem resolve_keeps (L : C.Lawful) {bindings : Scope} (hall : ∀ e ∈ bindings, C.value m e.2)
    (name : Json) : C.Keeps own m (resolve bindings name) C.value := by
  refine Keeps.andThen L (find_keeps L hall name) fun found m' _ hfound => ?_
  cases found with
  | some f => exact Keeps.done L fun _ => hfound f rfl
  | none =>
      refine lift_andThen L fun text _ => lift_andThen L fun names _ => ?_
      refine Keeps.andThen L (warn_keeps L _ _) fun _ m'' _ _ => ?_
      exact Keeps.done L fun _ => L.passThrough m''

theorem findOperator_keeps (L : C.Lawful) (symbol arity : Json) :
    C.Keeps own m (findOperator symbol arity) fun _ _ => True := by
  refine lift_andThen L fun key _ => ?_
  split
  · exact Keeps.done L fun _ => trivial
  · exact lift_andThen L fun _ _ => Keeps.done L fun _ => trivial

theorem operatorName_keeps (L : C.Lawful) (symbol arity : Json) :
    C.Keeps own m (operatorName symbol arity) fun _ _ => True := by
  refine Keeps.andThen L (findOperator_keeps L symbol arity) fun found m' _ _ => ?_
  cases found with
  | some name => exact Keeps.done L fun _ => trivial
  | none =>
      refine lift_andThen L fun _ _ => lift_andThen L fun _ _ => ?_
      exact Keeps.andThen L (warn_keeps L _ _) fun _ _ _ _ => Keeps.done L fun _ => trivial

theorem resolveAll_keeps (L : C.Lawful) {bindings : Scope} (names : List String)
    (hall : ∀ e ∈ bindings, C.value m e.2) :
    C.Keeps own m (names.mapM fun name => resolve bindings (.str name)) fun m' fs =>
      ∀ f ∈ fs, C.value m' f := by
  induction names generalizing m with
  | nil => exact Keeps.done L fun _ f hf => by cases hf
  | cons name names ih =>
      rw [List.mapM_cons]
      refine Keeps.andThen L (resolve_keeps L hall _) fun f m₁ h₁ hf => ?_
      have hall₁ : ∀ e ∈ bindings, C.value m₁ e.2 := fun e he => L.stable h₁ (hall e he)
      refine Keeps.andThen L (ih hall₁) fun fs m₂ h₂ hfs => Keeps.done L fun _ => ?_
      exact List.forall_mem_cons.mpr ⟨L.stable h₂ hf, hfs⟩

theorem mergeMembers_keeps (L : C.Lawful) {ev : Token → Run Value} (members : List Token)
    (hev : ∀ t ∈ members, ∀ m, C.Keeps own m (ev t) C.value) {entries : Scope}
    (hentries : ∀ e ∈ entries, C.value m e.1.toValue ∧ C.value m e.2) :
    C.Keeps own m (mergeMembers ev entries members) fun m' all =>
      ∀ e ∈ all, C.value m' e.1.toValue ∧ C.value m' e.2 := by
  induction members generalizing m entries with
  | nil => exact Keeps.done L fun _ => hentries
  | cons member members ih =>
      obtain ⟨hmember, hmembers⟩ := List.forall_mem_cons.mp hev
      unfold mergeMembers
      refine Keeps.andThen L (hmember m) fun v m₁ h₁ hv => ?_
      have hentries₁ : ∀ e ∈ entries, C.value m₁ e.1.toValue ∧ C.value m₁ e.2 := fun e he =>
        (hentries e he).imp (L.stable h₁) (L.stable h₁)
      have hmerge : C.Keeps own m₁ (Run.marking fun mark => v.merge mark entries) fun m' all =>
          ∀ e ∈ all, C.value m' e.1.toValue ∧ C.value m' e.2 := by
        refine marking_keeps L fun all mark h e he => ?_
        have hall := Value.merge_all (fun _ _ => L.member) (L.undefined m₁) (fun _ => L.entry)
          hentries₁ hv h e he
        exact hall.imp (L.stable (L.marked m₁ mark)) (L.stable (L.marked m₁ mark))
      exact Keeps.andThen L hmerge fun all m₂ _ hall => ih hmembers hall

theorem stages_keep (L : C.Lawful) {call : Value → List Value → Run Value} (hcall : C.Calls call)
    (stages : List Value) (hstages : ∀ f ∈ stages, C.value m f) {v : Value} (hv : C.value m v) :
    C.Keeps none m (stages.foldlM (fun result f => call f [result]) v) C.value := by
  induction stages generalizing m v with
  | nil => exact Keeps.done L fun _ => hv
  | cons f stages ih =>
      obtain ⟨hf, hstages⟩ := List.forall_mem_cons.mp hstages
      rw [List.foldlM_cons]
      refine Keeps.andThen L (hcall m f [v] hf (by simpa using hv)) fun w m' hlater hw => ?_
      exact ih (fun g hg => L.stable hlater (hstages g hg)) hw

theorem pipeline_keeps (L : C.Lawful) {call : Value → List Value → Run Value}
    (hcall : C.Calls call) {fs arguments : List Value} (hfs : ∀ f ∈ fs, C.value m f)
    (harguments : ∀ a ∈ arguments, C.value m a) :
    C.Keeps none m (pipeline call fs arguments) C.value := by
  unfold pipeline
  have hrev : ∀ f ∈ fs.reverse, C.value m f := fun f hf => hfs f (List.mem_reverse.mp hf)
  cases h : fs.reverse with
  | nil => exact hcall m _ arguments (L.passThrough m) harguments
  | cons last others =>
      rw [h] at hrev
      obtain ⟨hlast, hothers⟩ := List.forall_mem_cons.mp hrev
      refine Keeps.andThen L (hcall m last arguments hlast harguments) fun v m' hlater hv => ?_
      exact stages_keep L hcall others (fun g hg => L.stable hlater (hothers g hg)) hv

/-! ### Evaluation as a whole -/

variable {rt : Runtime}

/-- Evaluations that nest at most `depth` deep keep a contract. -/
def Evaluates (C : Contract) (rt : Runtime) (depth : Nat) : Prop :=
  ∀ token scope m, C.token token →
    C.Keeps (token.own scope) m (evaluate rt depth token scope) C.value

theorem merged_values (A : C.Admits rt) (hm : C.Store m) (scope : Nat) :
    ∀ e ∈ rt.merged (m.scope scope), C.value m e.2 :=
  Machine.merged_all (A.binding m) (m.scope_all hm scope)

/-- The body of a closure is evaluated in a scope that is opened for it, so no scope that was there
before is its own. -/
theorem body_keeps (L : C.Lawful) {parameter : Json} {natal : Nat} {argument : Value}
    (hargument : C.value m argument) {ev : Nat → Run Value}
    (hev : ∀ scope m, C.Keeps (some scope) m (ev scope) C.value) :
    C.Keeps none m (openScope parameter natal argument >>= ev) C.value := by
  simp only [openScope, bind_assoc, pure_bind]
  refine lift_andThen L fun key _ => Keeps.reading fun hm => ?_
  have hopened : C.change none ⟨m, none⟩ ⟨m.addScope (key.insert argument (m.scope natal)), none⟩ :=
    L.opened (L.refl _ _)
  have hstore : C.Store (m.addScope (key.insert argument (m.scope natal))) := by
    refine m.addScope_all (fun s hs e he => L.stable hopened (hm s hs e he)) fun e he => ?_
    exact L.stable hopened (Key.insert_all (m.scope_all hm natal) key hargument e he)
  obtain ⟨hchange, hrest⟩ := hev m.scopes.length _ hstore
  exact ⟨L.opened hchange, hrest⟩

theorem refer_keeps (A : C.Admits rt) (scope : Nat) (name : String) :
    C.Keeps own m (refer rt scope name) C.value := by
  refine Keeps.reading fun hm => ?_
  have hfound := @Key.lookup?_all _ (C.value m) _ (merged_values A hm scope) (.str name)
  split
  · rename_i v hv
    exact Keeps.done A.toLawful (fun _ => hfound hv) hm
  · refine Keeps.andThen A.toLawful (warn_keeps A.toLawful _ _) (fun _ m' _ _ => ?_) hm
    exact Keeps.done A.toLawful fun _ => A.none m'

theorem callee_keeps (A : C.Admits rt) (scope : Nat) (callee : Callee) :
    C.Keeps own m (callee.resolve rt scope) C.value := by
  have L := A.toLawful
  cases callee with
  | named name => exact Keeps.reading fun hm => resolve_keeps L (merged_values A hm scope) name hm
  | operator symbol arity =>
      refine Keeps.andThen L (operatorName_keeps L symbol _) fun name m' _ _ => ?_
      exact resolve_keeps L (A.binding m') name
  | provided name => exact resolve_keeps L (A.binding m) _

theorem operands_keep (L : C.Lawful) {ev : Token → Run Value} (operands : Operands Token)
    (hev : ∀ t ∈ operands.toList, ∀ m, C.Keeps own m (ev t) C.value) :
    C.Keeps own m (operands.evaluate ev) fun m' values => C.value m' values.argument := by
  cases operands with
  | one operand =>
      have hoperand := List.forall_mem_singleton.mp hev
      exact Keeps.andThen L (hoperand m) fun v m' _ hv => Keeps.done L fun _ => hv
  | two left right =>
      obtain ⟨hleft, hright⟩ := List.forall_mem_cons.mp hev
      refine Keeps.andThen L (hleft m) fun a m₁ _ ha => ?_
      refine Keeps.andThen L (List.forall_mem_singleton.mp hright m₁) fun b m₂ h₂ hb => ?_
      refine Keeps.done L fun _ => L.dict ?_
      simp only [List.forall_mem_cons]
      exact ⟨⟨L.str m₂ _, L.stable h₂ ha⟩, ⟨L.str m₂ _, hb⟩, List.forall_mem_nil _⟩

/-- A token that makes a call: its operands are evaluated, and the call is guarded. -/
theorem operate_keeps (A : C.Admits rt) {call : Value → List Value → Run Value}
    (hcall : C.Calls call) {t : Token} (ht : C.token t) (hisCall : t.isCall)
    {ev : Token → Run Value} {scope : Nat} {callee : Callee} {operands : Operands Token}
    (hev : ∀ t ∈ operands.toList, ∀ m, C.Keeps own m (ev t) C.value) :
    C.Keeps own m (operate rt ev call scope t.span callee operands) C.value := by
  have L := A.toLawful
  refine Keeps.andThen L (operands_keep L operands hev) fun values m₁ _ hargument => ?_
  refine Keeps.andThen L (callee_keeps A scope callee) fun f m₂ hlater hf => ?_
  refine safely_keeps L ht hisCall (hcall m₂ f [values.argument] hf ?_)
  exact List.forall_mem_singleton.mpr (L.stable hlater hargument)

theorem bind_keeps (L : C.Lawful) {i : Nat} {name : String} {v : Value} (hv : C.value m v) :
    C.Keeps (some i) m (modify (·.bind i (.str name) v)) fun m' _ => C.value m' v := by
  have hbound := L.bound m i name v
  refine Keeps.of_ok (Run.run_modify m _) hbound (fun hm => ?_) fun _ => L.stable hbound hv
  exact m.bind_all (fun s hs e he => L.stable hbound (hm s hs e he)) i _ (L.stable hbound hv)

/-- Evaluating a token keeps a contract if evaluating its parts and calling do. -/
theorem evaluateBy_keeps (A : C.Admits rt) {room : Nat} {ev : Token → Run Value}
    {call : Value → List Value → Run Value} {scope : Nat} {token : Token} (ht : C.token token)
    (hpart : ∀ part ∈ token.parts, ∀ m, C.Keeps (token.own scope) m (ev part) C.value)
    (hcall : C.Calls call) :
    C.Keeps (token.own scope) m (evaluateBy rt room ev call scope token) C.value := by
  have L := A.toLawful
  cases token with
  | program span members =>
      refine Keeps.andThen L (mergeMembers_keeps L members hpart (List.forall_mem_nil _)) ?_
      exact fun entries m' _ hentries => Keeps.done L fun _ => L.dict hentries
  | assignment span path value =>
      obtain ⟨hpath, hvalue⟩ := List.forall_mem_cons.mp hpart
      refine Keeps.andThen L (hpath m) fun key m₁ _ _ => lift_andThen L fun name _ => ?_
      refine Keeps.andThen L (List.forall_mem_singleton.mp hvalue m₁) fun v m₂ _ hv => ?_
      refine Keeps.andThen L (bind_keeps L hv) fun _ m₃ _ hv => Keeps.done L fun _ => L.dict ?_
      exact List.forall_mem_singleton.mpr ⟨L.str m₃ _, hv⟩
  | reference span path =>
      refine Keeps.andThen L (List.forall_mem_singleton.mp hpart m) fun key m' _ _ => ?_
      exact lift_andThen L fun name _ => refer_keeps A scope name
  | path span segments => exact Keeps.done L fun _ => L.str m _
  | function span parameter body =>
      exact Keeps.done L fun _ => L.closure m (L.child ht (List.mem_singleton.mpr rfl))
  | composition span names =>
      refine Keeps.reading fun hm => ?_
      refine Keeps.andThen L (resolveAll_keeps L names (merged_values A hm scope)) ?_ hm
      exact fun fs m' _ hfs => Keeps.done L fun _ => L.composition names hfs
  | literal span value => exact Keeps.done L fun _ => L.literal m ht
  | object span content => exact List.forall_mem_singleton.mp hpart m
  | unknown span kind raw => exact lift_andThen L fun text _ => Keeps.done L fun _ => L.str m _
  | application | binary | unary | conversion => exact operate_keeps A hcall ht rfl hpart

/-- Calling keeps a contract if evaluating bodies and calling from functions do. -/
theorem callBy_keeps (A : C.Admits rt) {call : Value → List Value → Run Value}
    {enter : Token → Nat → Run Value} (hcall : C.Calls call)
    (henter : ∀ body scope m, C.token body → C.Keeps (some scope) m (enter body scope) C.value) :
    C.Calls (callBy rt call enter) := by
  intro m f arguments hf harguments
  have L := A.toLawful
  cases f with
  | closure parameter body natal =>
      match arguments with
      | [] => exact Keeps.raise L _
      | [argument] =>
          have hargument : C.value m argument := List.forall_mem_singleton.mp harguments
          exact body_keeps L hargument fun scope m' => henter body scope m' (L.body hf)
      | _ :: _ :: _ => exact Keeps.raise L _
  | composition names fs => exact pipeline_keeps L hcall (L.stage hf) harguments
  | foreign f => exact A.foreign hcall f m _ arguments hf harguments
  | _ => exact Keeps.raise L _

/-- Whatever evaluating a part of a token may change, evaluating the token may change. -/
theorem Evaluates.part {depth : Nat} (A : C.Admits rt) (hev : C.Evaluates rt depth) {t : Token}
    (ht : C.token t) (part : Token) (hpart : part ∈ t.parts) (scope : Nat) (m : Machine) :
    C.Keeps (t.own scope) m (evaluate rt depth part scope) C.value := by
  have hkeeps := hev part scope m (A.child ht (Token.mem_children_of_mem_parts hpart))
  cases h : part.assigns with
  | true =>
      have hown : part.own scope = t.own scope := by
        simp [Token.own, h, Token.assigns_of_mem_parts hpart h]
      exact hown ▸ hkeeps
  | false =>
      have hown : part.own scope = none := by simp [Token.own, h]
      rw [hown] at hkeeps
      exact Keeps.widen A.toLawful hkeeps

/-- **Evaluation keeps what its contract says**, however deep it may nest and however it ends. -/
theorem keeps (A : C.Admits rt) (depth : Nat) : C.Evaluates rt depth ∧ C.Calls (call rt depth) := by
  have L := A.toLawful
  -- An evaluation or a call at one depth is made of evaluations and calls at the depth below.
  induction depth with
  | zero =>
      constructor
      · intro token scope m _
        exact Keeps.raise L _
      · intro m f arguments _ _
        exact Keeps.raise L _
  | succ depth ih =>
      obtain ⟨hev, hcall⟩ := ih
      constructor
      · intro token scope m ht
        exact evaluateBy_keeps A ht (fun part hpart => hev.part A ht part hpart scope) hcall
      · refine callBy_keeps A hcall fun body scope m hbody => ?_
        have hkeeps := hev body scope m hbody
        unfold Token.own at hkeeps
        split at hkeeps
        · exact hkeeps
        · exact Keeps.widen L hkeeps

end Contract

end ArrayExpr
