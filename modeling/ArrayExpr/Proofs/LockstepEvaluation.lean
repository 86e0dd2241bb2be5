import ArrayExpr.Outcome
import ArrayExpr.Proofs.Lockstep

/-!
Evaluation of one token from two machines that are alike goes in lockstep, for every comparison that
fits the runtime (`Comparison.lockstep`). The two evaluations take the same branch everywhere: names
are found alike, texts and faults are the same, and a closure that is called on either side has the
same parameter and the same body.
-/

namespace ArrayExpr

namespace Comparison

open Lockstep

variable {C : Comparison} {L : Link} {rt : Runtime} {m m' : Machine}

/-! ### Names -/

/-- Bindings among which names are found alike. -/
structure BindingsAlike (K : Link) (bindings bindings' : Scope) : Prop where
  lookup : ∀ key : Key,
    Option.Rel (Value.Alike K) (key.lookup? bindings) (key.lookup? bindings')
  names : sortedNames bindings = sortedNames bindings'

theorem BindingsAlike.mono {K K' : Link} (hle : K ≤ K') {bindings bindings' : Scope}
    (h : BindingsAlike K bindings bindings') : BindingsAlike K' bindings bindings' := by
  refine ⟨fun key => ?_, h.names⟩
  generalize hfound : key.lookup? bindings = found, hfound' : key.lookup? bindings' = found'
  have hlookup := h.lookup key
  rw [hfound, hfound'] at hlookup
  cases hlookup with
  | none => exact .none
  | some hv => exact .some (hv.mono hle)

theorem merged_alike (fits : C.Fits rt) (hm : m.Alike C L m') {scope scope' : Nat}
    (hscope : (L.among m m').scopes scope scope') :
    BindingsAlike (L.among m m') (rt.merged (m.scope scope)) (rt.merged (m'.scope scope')) where
  lookup key := fits.lookup key (fits.binding _) (hm.scope scope scope' hscope)
  names := fits.names (hm.scope scope scope' hscope)

theorem runtime_alike (fits : C.Fits rt) (K : Link) : BindingsAlike K rt.bindings rt.bindings where
  lookup key := by
    cases hfound : key.lookup? rt.bindings with
    | none => exact .none
    | some v =>
        have hself := Key.lookup?_all (P := fun v => v.Alike K v) (fits.binding K) hfound
        exact .some hself
  names := rfl

theorem find_lockstep {bindings bindings' : Scope}
    (hbindings : BindingsAlike (L.among m m') bindings bindings') (name : Json) :
    C.Lockstep L m m' (find bindings name) (find bindings' name) fun K =>
      Option.Rel (Value.Alike K) := by
  unfold find
  split
  · exact done fun _ => .none
  · exact lift_andThen fun key _ => done fun _ => hbindings.lookup key

/-- A name is resolved alike, with the same warning if it is bound to nothing. -/
theorem resolve_lockstep (fits : C.Fits rt) {bindings bindings' : Scope}
    (hbindings : BindingsAlike (L.among m m') bindings bindings') (name : Json) :
    C.Lockstep L m m' (resolve bindings name) (resolve bindings' name) Value.Alike := by
  refine andThen (find_lockstep hbindings name) fun found found' m₁ m₁' _ _ hfound => ?_
  cases hfound with
  | some hf => exact done fun _ => hf
  | none =>
      refine lift_andThen fun text _ => ?_
      rw [hbindings.names]
      refine lift_andThen fun names _ => ?_
      exact andThen (warn fits _ _) fun _ _ _ _ _ _ _ => done fun _ => .atom rfl

theorem resolveAll_lockstep (fits : C.Fits rt) (names : List String) {bindings bindings' : Scope}
    (hbindings : BindingsAlike (L.among m m') bindings bindings') :
    C.Lockstep L m m' (names.mapM fun name => resolve bindings (.str name))
      (names.mapM fun name => resolve bindings' (.str name)) Value.ItemsAlike := by
  induction names generalizing m m' with
  | nil => exact done fun _ => .nil
  | cons name names ih =>
      rw [List.mapM_cons, List.mapM_cons]
      refine andThen (resolve_lockstep fits hbindings _) fun f f' m₁ m₁' h₁ h₁' hf => ?_
      have hlater := hbindings.mono (L.among_le_among h₁ h₁')
      refine andThen (ih hlater) fun fs fs' m₂ m₂' h₂ h₂' hfs => done fun _ => ?_
      exact .cons (hf.mono (L.among_le_among h₂ h₂')) hfs

theorem findOperator_lockstep (symbol arity : Json) :
    C.Lockstep L m m' (findOperator symbol arity) (findOperator symbol arity) fun _ => Eq := by
  refine lift_andThen fun key _ => ?_
  split
  · exact done fun _ => rfl
  · exact lift_andThen fun _ _ => done fun _ => rfl

theorem operatorName_lockstep (fits : C.Fits rt) (symbol arity : Json) :
    C.Lockstep L m m' (operatorName symbol arity) (operatorName symbol arity) fun _ => Eq := by
  refine andThen (findOperator_lockstep symbol arity) ?_
  rintro found _ m₁ m₁' _ _ rfl
  cases found with
  | some name => exact done fun _ => rfl
  | none =>
      refine lift_andThen fun _ _ => lift_andThen fun _ _ => ?_
      exact andThen (warn fits _ _) fun _ _ _ _ _ _ _ => done fun _ => rfl

theorem refer_lockstep (fits : C.Fits rt) {scope scope' : Nat}
    (hscope : (L.among m m').scopes scope scope') (name : String) :
    C.Lockstep L m m' (refer rt scope name) (refer rt scope' name) Value.Alike := by
  refine reading fun hm => ?_
  have hfound := (merged_alike fits hm hscope).lookup (.str name)
  generalize Key.lookup? (.str name) (rt.merged (m.scope scope)) = found,
    Key.lookup? (.str name) (rt.merged (m'.scope scope')) = found' at hfound ⊢
  cases hfound with
  | some hv => exact done fun _ => hv
  | none => exact andThen (warn fits _ _) fun _ _ _ _ _ _ _ => done fun _ => .atom rfl

theorem callee_lockstep (fits : C.Fits rt) {scope scope' : Nat}
    (hscope : (L.among m m').scopes scope scope') (callee : Callee) :
    C.Lockstep L m m' (callee.resolve rt scope) (callee.resolve rt scope') Value.Alike := by
  cases callee with
  | named name =>
      exact reading fun hm => resolve_lockstep fits (merged_alike fits hm hscope) name
  | operator symbol arity =>
      refine andThen (operatorName_lockstep fits symbol _) ?_
      rintro name _ m₁ m₁' _ _ rfl
      exact resolve_lockstep fits (runtime_alike fits _) name
  | provided name => exact resolve_lockstep fits (runtime_alike fits _) _

/-! ### Calls -/

/-- Calls that go in lockstep if what is called and the arguments are alike. -/
def Calls (C : Comparison) (L : Link) (call : Value → List Value → Run Value) : Prop :=
  ∀ {m m' f f' arguments arguments'}, f.Alike (L.among m m') f' →
    Value.ItemsAlike (L.among m m') arguments arguments' →
    C.Lockstep L m m' (call f arguments) (call f' arguments') Value.Alike

section Calls

variable {call : Value → List Value → Run Value}

theorem respond_lockstep (hcall : C.Calls L call) (source : Foreign) {r r' : Response}
    (hr : r.Alike C.calls (L.among m m') r') :
    C.Lockstep L m m' (respond call source r) (respond call source r') Value.Alike := by
  generalize hK : L.among m m' = K at hr
  induction hr generalizing m m' with
  | ok hv =>
      subst hK
      exact done fun _ => hv
  | error fault => exact raise (some source) fault
  | @call _ _ _ _ _ handles _ _ hf harguments _ ih =>
      subst hK
      refine fun hm => andThen (attempt handles (hcall hf harguments)) ?_ hm
      intro result result' m₁ m₁' h₁ h₁' hresults
      exact ih _ result result' (L.among_le_among h₁ h₁') hm.distinguishes.below hresults rfl
  | review _ ih =>
      subst hK
      exact reading fun hm => ih _ _ hm.calls rfl

theorem callForeign_lockstep (fits : C.Fits rt) (hcall : C.Calls L call) (f : Foreign)
    {arguments arguments' : List Value}
    (harguments : Value.ItemsAlike (L.among m m') arguments arguments') :
    C.Lockstep L m m' (callForeign rt call f arguments) (callForeign rt call f arguments')
      Value.Alike := by
  rcases harguments with _ | @⟨a, a', _, _, ha, _ | ⟨_, hmore⟩⟩
  · exact raise none _
  · cases f with
    | passThrough => exact done fun _ => ha
    | capability c =>
        refine fun hm => andThen (noteCall fits _) ?_ hm
        intro _ _ m₁ m₁' _ _ _
        rw [c.run_eq hm.distinguishes.below ha]
        cases hr : c.run a' with
        | error fault => exact raise (some (.capability c)) fault
        | ok r =>
            show C.Lockstep L m₁ m₁' (Run.marking fun mark => .ok (r.marked mark))
              (Run.marking fun mark => .ok (r.marked mark)) Value.Alike
            refine marking fits fun hm₁ => .ok ?_
            exact r.marked_alike hm₁.inStep (Capability.plain_run hr)
    | host name =>
        refine fun hm => andThen (noteCall fits _) ?_ hm
        intro _ _ m₁ m₁' h₁ h₁' _
        have hlater := ha.mono (L.among_le_among h₁ h₁')
        exact respond_lockstep hcall _ (fits.host name hm.distinguishes.below hlater)
  · have hlength := hmore.length_eq
    simp only [callForeign, List.length_cons, hlength]
    exact raise none _

theorem stages_lockstep (hcall : C.Calls L call) {stages stages' : List Value}
    (hstages : Value.ItemsAlike (L.among m m') stages stages') {v v' : Value}
    (hv : v.Alike (L.among m m') v') :
    C.Lockstep L m m' (stages.foldlM (fun result f => call f [result]) v)
      (stages'.foldlM (fun result f => call f [result]) v') Value.Alike := by
  induction stages generalizing m m' stages' v v' with
  | nil =>
      cases hstages
      exact done fun _ => hv
  | cons f stages ih =>
      cases hstages with
      | cons hf hstages =>
          rw [List.foldlM_cons, List.foldlM_cons]
          refine andThen (hcall hf (.cons hv .nil)) fun w w' m₁ m₁' h₁ h₁' hw => ?_
          exact ih (hstages.mono (L.among_le_among h₁ h₁')) hw

theorem pipeline_lockstep (hcall : C.Calls L call) {fs fs' arguments arguments' : List Value}
    (hfs : Value.ItemsAlike (L.among m m') fs fs')
    (harguments : Value.ItemsAlike (L.among m m') arguments arguments') :
    C.Lockstep L m m' (pipeline call fs arguments) (pipeline call fs' arguments') Value.Alike := by
  have hreverse : Value.ItemsAlike (L.among m m') fs.reverse fs'.reverse :=
    Value.itemsAlike_iff.mpr (List.forall₂_reverse_iff.mpr (Value.itemsAlike_iff.mp hfs))
  unfold pipeline
  generalize fs.reverse = stages, fs'.reverse = stages' at hreverse ⊢
  cases hreverse with
  | nil => exact hcall (.atom rfl) harguments
  | cons hlast hothers =>
      refine andThen (hcall hlast harguments) fun v v' m₁ m₁' h₁ h₁' hv => ?_
      exact stages_lockstep hcall (hothers.mono (L.among_le_among h₁ h₁')) hv

end Calls

/-! ### Evaluation as a whole -/

/-- Evaluations that nest at most `depth` deep go in lockstep. If a token assigns, then the scopes in
which it is evaluated have to stand for nothing but each other, lest a binding is made on one side
only. -/
def Evaluates (C : Comparison) (rt : Runtime) (L : Link) (depth : Nat) : Prop :=
  ∀ {m m'} (token : Token) {scope scope'}, (L.among m m').scopes scope scope' →
    (token.assigns = true → L.Exclusive scope scope') →
    C.Lockstep L m m' (evaluate rt depth token scope) (evaluate rt depth token scope') Value.Alike

theorem mergeMembers_lockstep (fits : C.Fits rt) {ev ev' : Token → Run Value} (members : List Token)
    (hev : ∀ t ∈ members, ∀ m₁ m₁', m.Grows m₁ → m'.Grows m₁' →
      C.Lockstep L m₁ m₁' (ev t) (ev' t) Value.Alike) {entries entries' : Scope}
    (hentries : Value.EntriesAlike (L.among m m') entries entries') :
    C.Lockstep L m m' (mergeMembers ev entries members) (mergeMembers ev' entries' members)
      Value.EntriesAlike := by
  induction members generalizing m m' entries entries' with
  | nil => exact done fun _ => hentries
  | cons member members ih =>
      obtain ⟨hmember, hmembers⟩ := List.forall_mem_cons.mp hev
      unfold mergeMembers
      refine andThen (hmember m m' (.refl m) (.refl m')) fun v v' m₁ m₁' h₁ h₁' hv => ?_
      have hentries₁ := hentries.mono (L.among_le_among h₁ h₁')
      have hmerge : C.Lockstep L m₁ m₁' (Run.marking fun mark => v.merge mark entries)
          (Run.marking fun mark => v'.merge mark entries') Value.EntriesAlike :=
        marking fits fun hm₁ => Value.merge_alike hm₁.distinguishes hm₁.inStep hentries₁ hv
      refine andThen hmerge fun all all' m₂ m₂' h₂ h₂' hall => ih ?_ hall
      intro t ht m₃ m₃' h₃ h₃'
      exact hmembers t ht m₃ m₃' ((h₁.trans h₂).trans h₃) ((h₁'.trans h₂').trans h₃')

/-- The body of a closure is evaluated in scopes that are opened in step. -/
theorem body_lockstep (fits : C.Fits rt) (parameter : Json) {natal natal' : Nat}
    (hnatal : (L.among m m').scopes natal natal') {argument argument' : Value}
    (hargument : argument.Alike (L.among m m') argument') {ev : Nat → Run Value}
    (hev : ∀ {m m' scope scope'}, (L.among m m').scopes scope scope' → L.Exclusive scope scope' →
      C.Lockstep L m m' (ev scope) (ev scope') Value.Alike) :
    C.Lockstep L m m' (openScope parameter natal argument >>= ev)
      (openScope parameter natal' argument' >>= ev) Value.Alike := by
  simp only [openScope, bind_assoc, pure_bind]
  refine lift_andThen fun key _ => reading fun hm => ?_
  have hopened : C.Lockstep L m m' (set (m.addScope (key.insert argument (m.scope natal))))
      (set (m'.addScope (key.insert argument' (m'.scope natal')))) fun K (_ _ : PUnit) =>
        K.scopes m.scopes.length m'.scopes.length := by
    refine of_ok rfl rfl ⟨by simp, Nat.le_refl _⟩ ⟨by simp, Nat.le_refl _⟩ (fun hm => ?_) fun hm => ?_
    · exact hm.addScope fits (fits.insert key (hm.scope natal natal' hnatal) hargument)
    · exact ⟨hm.opened 0, by simp, by simp⟩
  exact andThen hopened fun _ _ _ _ _ _ hscope => hev hscope hm.exclusive_next

theorem operands_lockstep {ev ev' : Token → Run Value} (operands : Operands Token)
    (hev : ∀ t ∈ operands.toList, ∀ m₁ m₁', m.Grows m₁ → m'.Grows m₁' →
      C.Lockstep L m₁ m₁' (ev t) (ev' t) Value.Alike) :
    C.Lockstep L m m' (operands.evaluate ev) (operands.evaluate ev') fun K values values' =>
      values.argument.Alike K values'.argument := by
  cases operands with
  | one operand =>
      have hoperand := List.forall_mem_singleton.mp hev
      refine andThen (hoperand m m' (.refl m) (.refl m')) fun v v' _ _ _ _ hv => ?_
      exact done fun _ => hv
  | two left right =>
      obtain ⟨hleft, hright⟩ := List.forall_mem_cons.mp hev
      refine andThen (hleft m m' (.refl m) (.refl m')) fun a a' m₁ m₁' h₁ h₁' ha => ?_
      have hright := List.forall_mem_singleton.mp hright m₁ m₁' h₁ h₁'
      refine andThen hright fun b b' m₂ m₂' h₂ h₂' hb => ?_
      refine done fun _ => .dict (.cons (.str "a") ?_ (.cons (.str "b") hb .nil))
      exact ha.mono (L.among_le_among h₂ h₂')

/-- A token that makes a call: the operands, what is called and the call itself go in lockstep. -/
theorem operate_lockstep (fits : C.Fits rt) {call : Value → List Value → Run Value}
    (hcall : C.Calls L call) {scope scope' : Nat} (hscope : (L.among m m').scopes scope scope')
    {ev ev' : Token → Run Value} (span : Span) (callee : Callee) {operands : Operands Token}
    (hev : ∀ t ∈ operands.toList, ∀ m₁ m₁', m.Grows m₁ → m'.Grows m₁' →
      C.Lockstep L m₁ m₁' (ev t) (ev' t) Value.Alike) :
    C.Lockstep L m m' (operate rt ev call scope span callee operands)
      (operate rt ev' call scope' span callee operands) Value.Alike := by
  refine andThen (operands_lockstep operands hev) fun values values' m₁ m₁' h₁ h₁' hargument => ?_
  have hscope₁ := (L.among_le_among h₁ h₁').1 _ _ hscope
  refine andThen (callee_lockstep fits hscope₁ callee) fun f f' m₂ m₂' h₂ h₂' hf => ?_
  exact safely fits span (hcall hf (.cons (hargument.mono (L.among_le_among h₂ h₂')) .nil))

/-- Evaluating a part of a token goes in lockstep, wherever evaluating the token has got to. -/
theorem Evaluates.part {depth : Nat} (hev : C.Evaluates rt L depth) {t : Token} {scope scope' : Nat}
    (hscope : (L.among m m').scopes scope scope')
    (hexclusive : t.assigns = true → L.Exclusive scope scope') (part : Token) (hpart : part ∈ t.parts)
    {m₁ m₁' : Machine} (h₁ : m.Grows m₁) (h₁' : m'.Grows m₁') :
    C.Lockstep L m₁ m₁' (evaluate rt depth part scope) (evaluate rt depth part scope') Value.Alike := by
  have hscope₁ := (L.among_le_among h₁ h₁').1 _ _ hscope
  exact hev part hscope₁ fun h => hexclusive (Token.assigns_of_mem_parts hpart h)

theorem bind_lockstep (fits : C.Fits rt) {scope scope' : Nat}
    (hscope : (L.among m m').scopes scope scope') (hexclusive : L.Exclusive scope scope')
    (name : String) {v v' : Value} (hv : v.Alike (L.among m m') v') :
    C.Lockstep L m m' (modify (·.bind scope (.str name) v)) (modify (·.bind scope' (.str name) v'))
      fun K _ _ => v.Alike K v' := by
  have hgrows : m.Grows (m.bind scope (.str name) v) := ⟨by simp, Nat.le_refl _⟩
  have hgrows' : m'.Grows (m'.bind scope' (.str name) v') := ⟨by simp, Nat.le_refl _⟩
  refine of_ok (Run.run_modify m _) (Run.run_modify m' _) hgrows hgrows' (fun hm => ?_) fun _ => ?_
  · exact hm.bind fits hscope hexclusive (.str name) hv
  · exact hv.mono (L.among_le_among hgrows hgrows')

/-- Evaluating a token goes in lockstep if evaluating its parts and calling do. -/
theorem evaluateBy_lockstep (fits : C.Fits rt) {room : Nat} {ev ev' : Token → Run Value}
    {call : Value → List Value → Run Value} (hcall : C.Calls L call) {token : Token}
    {scope scope' : Nat} (hscope : (L.among m m').scopes scope scope')
    (hexclusive : token.assigns = true → L.Exclusive scope scope')
    (hpart : ∀ part ∈ token.parts, ∀ m₁ m₁', m.Grows m₁ → m'.Grows m₁' →
      C.Lockstep L m₁ m₁' (ev part) (ev' part) Value.Alike) :
    C.Lockstep L m m' (evaluateBy rt room ev call scope token)
      (evaluateBy rt room ev' call scope' token) Value.Alike := by
  have hlater : ∀ {m₁ m₁'}, m.Grows m₁ → m'.Grows m₁' → (L.among m₁ m₁').scopes scope scope' :=
    fun h₁ h₁' => (L.among_le_among h₁ h₁').1 _ _ hscope
  cases token with
  | program span members =>
      refine andThen (mergeMembers_lockstep fits members hpart .nil) ?_
      exact fun _ _ _ _ _ _ hentries => done fun _ => .dict hentries
  | assignment span path value =>
      obtain ⟨hpath, hvalue⟩ := List.forall_mem_cons.mp hpart
      refine andThen (hpath m m' (.refl m) (.refl m')) fun key key' m₁ m₁' h₁ h₁' hkey => ?_
      rw [hkey.shownWithin_eq]
      refine lift_andThen fun name _ => ?_
      have hvalue := List.forall_mem_singleton.mp hvalue m₁ m₁' h₁ h₁'
      refine andThen hvalue fun v v' m₂ m₂' h₂ h₂' hv => ?_
      have hscope₂ := hlater (h₁.trans h₂) (h₁'.trans h₂')
      refine andThen (bind_lockstep fits hscope₂ (hexclusive rfl) _ hv) fun _ _ _ _ _ _ hv => ?_
      exact done fun _ => .dict (.cons (.str _) hv .nil)
  | reference span path =>
      have hpath := List.forall_mem_singleton.mp hpart
      refine andThen (hpath m m' (.refl m) (.refl m')) fun key key' m₁ m₁' h₁ h₁' hkey => ?_
      rw [hkey.shownWithin_eq]
      exact lift_andThen fun name _ => refer_lockstep fits (hlater h₁ h₁') name
  | path span segments => exact done fun _ => .atom rfl
  | function span parameter body => exact done fun _ => .closure hscope
  | composition span names =>
      refine reading fun hm => ?_
      refine andThen (resolveAll_lockstep fits names (merged_alike fits hm hscope)) ?_
      exact fun _ _ _ _ _ _ hfs => done fun _ => .composition hfs
  | literal span value => exact done fun _ => (Value.plain_ofJson value).alike_self
  | object span content => exact List.forall_mem_singleton.mp hpart m m' (.refl m) (.refl m')
  | unknown span kind raw => exact lift_andThen fun text _ => done fun _ => .atom rfl
  | application | binary | unary | conversion =>
      exact operate_lockstep fits hcall hscope _ _ hpart

/-- Calling goes in lockstep if evaluating bodies and calling from functions do. -/
theorem callBy_lockstep (fits : C.Fits rt) {call : Value → List Value → Run Value}
    {enter : Token → Nat → Run Value} (hcall : C.Calls L call)
    (henter : ∀ {m m'} body {scope scope'}, (L.among m m').scopes scope scope' →
      L.Exclusive scope scope' →
      C.Lockstep L m m' (enter body scope) (enter body scope') Value.Alike) :
    C.Calls L (callBy rt call enter) := by
  intro m m' f f' arguments arguments' hf harguments
  cases hf with
  | atom hatom =>
      cases f with
      | foreign f => exact callForeign_lockstep fits hcall f harguments
      | list | dict | undefined | closure | composition => cases hatom
      | _ => exact raise none _
  | undefined => exact raise none _
  | list | dict => exact raise none _
  | closure hnatal =>
      match harguments with
      | .nil => exact raise none _
      | .cons hargument .nil => exact body_lockstep fits _ hnatal hargument (henter _)
      | .cons _ (.cons _ hmore) =>
          have hlength := hmore.length_eq
          simp only [callBy, List.length_cons, hlength]
          exact raise none _
  | composition hfs => exact pipeline_lockstep hcall hfs harguments

/-- **Evaluation from machines that are alike goes in lockstep**, however deep it may nest. -/
theorem lockstep (fits : C.Fits rt) (L : Link) (depth : Nat) :
    C.Evaluates rt L depth ∧ C.Calls L (call rt depth) := by
  -- An evaluation or a call at one depth is made of evaluations and calls at the depth below.
  induction depth with
  | zero =>
      constructor
      · intro m m' token scope scope' _ _
        exact raise none _
      · intro m m' f f' arguments arguments' _ _
        exact raise none _
  | succ depth ih =>
      obtain ⟨hev, hcall⟩ := ih
      constructor
      · intro m m' token scope scope' hscope hexclusive
        refine evaluateBy_lockstep fits hcall hscope hexclusive fun part hpart m₁ m₁' h₁ h₁' => ?_
        exact hev.part hscope hexclusive part hpart h₁ h₁'
      · exact callBy_lockstep fits hcall fun body _ _ hscope hexclusive =>
          hev body hscope fun _ => hexclusive

end Comparison

/-! ### Machines that match -/

/-- Machines that are alike as they are, whatever is going to happen. -/
structure Machine.Matches (C : Comparison) (K : Link) (m m' : Machine) : Prop where
  opened : ∀ i j, K.scopes i j → i < m.scopes.length ∧ j < m'.scopes.length
  made : ∀ a b, K.marks a b → a < m.mark ∧ b < m'.mark
  distinguishes : K.Distinguishes
  scope : ∀ i j, K.scopes i j → C.scope (Value.Alike K) (m.scope i) (m'.scope j)
  report : C.report m.report m'.report
  calls : C.calls m.calls m'.calls

/-- A link that has grown by scopes and undefined numbers that are new on either side. -/
structure Link.GrownFrom (K' K : Link) (m m' : Machine) : Prop where
  le : K ≤ K'
  old : ∀ i j, K'.scopes i j → i < m.scopes.length ∨ j < m'.scopes.length → K.scopes i j

def Link.extended (K : Link) (m m' : Machine) : Link where
  scopes i j := K.scopes i j ∨ ∃ c, i = m.scopes.length + c ∧ j = m'.scopes.length + c
  marks a b := K.marks a b ∨ ∃ c, a = m.mark + c ∧ b = m'.mark + c

namespace Machine.Matches

variable {C : Comparison} {K : Link} {rt : Runtime} {m m' : Machine}

theorem among_extended (h : m.Matches C K m') : (K.extended m m').among m m' = K := by
  ext i j
  · constructor
    · rintro ⟨hK | ⟨c, rfl, rfl⟩, hi, hj⟩
      · exact hK
      · omega
    · exact fun hK => ⟨.inl hK, h.opened i j hK⟩
  · constructor
    · rintro ⟨hK | ⟨c, rfl, rfl⟩, hi, hj⟩
      · exact hK
      · omega
    · exact fun hK => ⟨.inl hK, h.made i j hK⟩

theorem alike (h : m.Matches C K m') : m.Alike C (K.extended m m') m' where
  scope i j hij := by
    rw [h.among_extended] at hij ⊢
    exact h.scope i j hij
  opened c := .inr ⟨c, rfl, rfl⟩
  paired i j hij hlate := by
    rcases hij with hK | hnew
    · have := h.opened i j hK
      omega
    · exact hnew
  distinguishes := by
    -- Marks made so far stand for marks made so far, and marks to come for marks to come.
    rintro a b a' b' (hK | ⟨c, rfl, rfl⟩) (hK' | ⟨c', rfl, rfl⟩)
    · exact h.distinguishes a b a' b' hK hK'
    · have := h.made a b hK
      omega
    · have := h.made a' b' hK'
      omega
    · omega
  inStep c := .inr ⟨c, rfl, rfl⟩
  report := h.report
  calls := h.calls

theorem exclusive_extended (h : m.Matches C K m') {scope scope' : Nat} (hscope : K.scopes scope scope')
    (hexclusive : K.Exclusive scope scope') : (K.extended m m').Exclusive scope scope' := by
  rintro i j (hK | ⟨c, rfl, rfl⟩)
  · exact hexclusive i j hK
  · have := h.opened scope scope' hscope
    omega

theorem of_alike {L : Link} (h : m.Alike C L m') : m.Matches C (L.among m m') m' where
  opened _ _ hij := hij.2
  made _ _ hab := hab.2
  distinguishes := h.distinguishes.below
  scope := h.scope
  report := h.report
  calls := h.calls

/-- Two computations in lockstep come to machines that match. -/
theorem run (h : m.Matches C K m') {α β : Type} {x : Run α} {x' : Run β} {Q : Link → α → β → Prop}
    (hx : C.Lockstep (K.extended m m') m m' x x' Q) :
    ∃ K' : Link, K'.GrownFrom K m m' ∧ (x.run m).2.Matches C K' (x'.run m').2 ∧
      ResultsAlike (Q K') (x.run m).1 (x'.run m').1 := by
  obtain ⟨halike, hgrows, hgrows', hresults⟩ := hx h.alike
  refine ⟨(K.extended m m').among (x.run m).2 (x'.run m').2, ⟨?_, ?_⟩, of_alike halike, hresults⟩
  · have hle := (K.extended m m').among_le_among hgrows hgrows'
    rwa [h.among_extended] at hle
  · rintro i j ⟨hK | ⟨c, rfl, rfl⟩, -⟩ hold
    · exact hK
    · omega

/-- Evaluating a token on machines that match. Two scopes stand for nothing but each other if the
token assigns to them. -/
theorem evaluate (fits : C.Fits rt) (h : m.Matches C K m') (depth : Nat) (token : Token)
    {scope scope' : Nat} (hscope : K.scopes scope scope')
    (hexclusive : token.assigns = true → K.Exclusive scope scope') :
    ∃ K' : Link, K'.GrownFrom K m m' ∧
      ((ArrayExpr.evaluate rt depth token scope).run m).2.Matches C K'
        ((ArrayExpr.evaluate rt depth token scope').run m').2 ∧
      ResultsAlike (Value.Alike K') ((ArrayExpr.evaluate rt depth token scope).run m).1
        ((ArrayExpr.evaluate rt depth token scope').run m').1 := by
  refine h.run ((Comparison.lockstep fits _ depth).1 token ?_ fun hassigns => ?_)
  · rw [h.among_extended]
    exact hscope
  · exact h.exclusive_extended hscope (hexclusive hassigns)

end Machine.Matches

theorem Runtime.standard_uniform (calls : List Foreign → List Foreign → Prop) :
    Runtime.standard.Uniform calls where
  binding K e he := by
    obtain ⟨c, rfl⟩ := exists_of_mem_standard he
    exact .atom rfl
  host name _ _ _ hv := .ok hv

end ArrayExpr
