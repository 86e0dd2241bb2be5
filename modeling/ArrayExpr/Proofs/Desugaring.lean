import ArrayExpr.Outcome
import ArrayExpr.Proofs.SimulationEvaluation

/-!
Desugaring. A wrapper can be dropped, and a unary operation or a conversion can be written as the
application of the function that the runtime provides for it. The body of a function is desugared below
its top only, since a closure shows the kind of its body. Evaluating a desugared token gives what
evaluating the token itself gives (`evaluate_desugar`), up to closures with desugared bodies. As
desugared tokens nest less deep, this is said of evaluations that do not meet the nesting limit.
-/

namespace ArrayExpr

/-! ### Sugar -/

/-- The name behind a unary operator, if there is one and the runtime binds it. -/
def Runtime.unaryName? (rt : Runtime) : Json → Option String
  | .str symbol => (namedBy? unaryOperators (.str symbol)).filter fun name => rt.binds (.str name)
  | _ => none

namespace Token

variable (rt : Runtime)

/-- Whether a token is a wrapper, or stands for the application of a function that the runtime
provides. -/
def isSugar : Token → Bool
  | .object .. => true
  | .unary _ operator _ => (rt.unaryName? operator).isSome
  | .conversion .. => rt.binds (.str "Tensor")
  | _ => false

/-- A token without the sugar at its top. -/
def desugarTop : Token → Token
  | .object _ content => content
  | .unary span operator operand =>
    match rt.unaryName? operator with
    | some name => .application span (.str name) operand
    | none => .unary span operator operand
  | .conversion span operand =>
    if rt.binds (.str "Tensor") then .application span (.str "Tensor") operand else .conversion span operand
  | t => t

mutual

/-- A token without the sugar below its top. The body of a function stays as it is at its top. -/
def desugarBelow : Token → Token
  | .program span members => .program span (desugarAll members)
  | .assignment span name value =>
    .assignment span (name.desugarBelow.desugarTop rt) (value.desugarBelow.desugarTop rt)
  | .reference span name => .reference span (name.desugarBelow.desugarTop rt)
  | .function span parameter body => .function span parameter body.desugarBelow
  | .application span name argument =>
    .application span name (argument.desugarBelow.desugarTop rt)
  | .binary span operator left right =>
    .binary span operator (left.desugarBelow.desugarTop rt) (right.desugarBelow.desugarTop rt)
  | .unary span operator operand => .unary span operator (operand.desugarBelow.desugarTop rt)
  | .conversion span operand => .conversion span (operand.desugarBelow.desugarTop rt)
  | .object span content => .object span (content.desugarBelow.desugarTop rt)
  | .path span segments => .path span segments
  | .composition span names => .composition span names
  | .literal span value => .literal span value
  | .unknown span kind raw => .unknown span kind raw

def desugarAll : List Token → List Token
  | [] => []
  | t :: ts => t.desugarBelow.desugarTop rt :: desugarAll ts

end

/-- A token without sugar. -/
def desugar (t : Token) : Token :=
  (t.desugarBelow rt).desugarTop rt

mutual

/-- Whether a token has no sugar below its top. -/
def plainBelow : Token → Bool
  | .program _ members => allPlain members
  | .assignment _ name value =>
    (!name.isSugar rt && name.plainBelow) && (!value.isSugar rt && value.plainBelow)
  | .function _ _ body => body.plainBelow
  | .binary _ _ left right =>
    (!left.isSugar rt && left.plainBelow) && (!right.isSugar rt && right.plainBelow)
  | .reference _ t | .application _ _ t | .unary _ _ t | .conversion _ t | .object _ t =>
    !t.isSugar rt && t.plainBelow
  | .path .. | .composition .. | .literal .. | .unknown .. => true

def allPlain : List Token → Bool
  | [] => true
  | t :: ts => (!t.isSugar rt && t.plainBelow) && allPlain ts

end

/-- Whether a token has no sugar, at the top of function bodies apart. -/
def isPlain (t : Token) : Bool :=
  !t.isSugar rt && t.plainBelow rt

/-! ### Desugared tokens are plain -/

variable {rt}

theorem isPlain_desugarTop {t : Token} (h : t.plainBelow rt = true) :
    (t.desugarTop rt).isPlain rt = true := by
  cases t with
  | object span content => exact h
  | unary span operator operand =>
      unfold desugarTop
      dsimp only
      split
      · simpa [isPlain, isSugar, plainBelow] using h
      · rename_i hnone
        simpa [isPlain, isSugar, hnone, plainBelow] using h
  | conversion span operand =>
      unfold desugarTop
      dsimp only
      split
      · simpa [isPlain, isSugar, plainBelow] using h
      · rename_i hnone
        simpa [isPlain, isSugar, hnone, plainBelow] using h
  | _ => exact h

theorem desugarAll_eq_map (ts : List Token) : desugarAll rt ts = ts.map (desugar rt) := by
  induction ts with
  | nil => rfl
  | cons t ts ih => rw [desugarAll, ih, List.map_cons, desugar]

theorem allPlain_iff {ts : List Token} : allPlain rt ts = true ↔ ∀ t ∈ ts, t.isPlain rt = true := by
  induction ts with
  | nil => simp [allPlain]
  | cons t ts ih => rw [allPlain, Bool.and_eq_true, ih, List.forall_mem_cons, isPlain]

theorem plainBelow_desugarBelow (t : Token) : (t.desugarBelow rt).plainBelow rt = true := by
  induction t using children_induction with
  | _ t ih =>
      have hpart : ∀ c ∈ t.children, (c.desugar rt).isPlain rt = true :=
        fun c hc => isPlain_desugarTop (ih c hc)
      cases t with
      | program span members =>
          rw [desugarBelow, plainBelow, desugarAll_eq_map, allPlain_iff, List.forall_mem_map]
          exact hpart
      | assignment span left right | binary span _ left right =>
          show ((left.desugar rt).isPlain rt && (right.desugar rt).isPlain rt) = true
          rw [hpart left (by simp [children]), hpart right (by simp [children])]
          rfl
      | function span parameter body => exact ih body (by simp [children])
      | reference span c | application span _ c | unary span _ c | conversion span c
      | object span c => exact hpart c (by simp [children])
      | path | composition | literal | unknown => rfl

theorem isPlain_desugar (rt : Runtime) (t : Token) : (t.desugar rt).isPlain rt = true :=
  isPlain_desugarTop (plainBelow_desugarBelow t)

end Token

/-! ### Desugared tokens in place of others -/

/-- Whether a body is that of a function or what desugaring makes of it. -/
def Token.Desugars (rt : Runtime) (body body' : Token) : Prop :=
  body' = body ∨ body' = body.desugarBelow rt

def desugaring (rt : Runtime) : Simulation where
  body := Token.Desugars rt
  report := Eq
  flat := True

/-- A runtime whose functions take functions as they are: they do not tell closures apart by their
bodies. -/
def Runtime.Discreet (rt : Runtime) (B : Token → Token → Prop) : Prop :=
  ∀ (name : String) {v v' : Value}, v.Corresponds .identity B v' →
    (rt.host name v).Corresponds B (rt.host name v')

variable {rt : Runtime}

theorem Runtime.exists_provides {name : String} (h : rt.binds (.str name) = true) :
    ∃ f, rt.Provides name f := by
  obtain ⟨f, hf⟩ := Option.isSome_iff_exists.mp h
  exact ⟨f, hf, fun s => (lookup?_merged_of_binds h s).trans hf⟩

theorem Runtime.exists_provides_unary {operator : Json} {name : String}
    (h : rt.unaryName? operator = some name) :
    ∃ symbol f, operator = .str symbol ∧ namedBy? unaryOperators (.str symbol) = some name ∧
      rt.Provides name f := by
  cases operator with
  | str symbol =>
      obtain ⟨hnamed, hbinds⟩ := Option.filter_eq_some_iff.mp h
      obtain ⟨f, hf⟩ := exists_provides hbinds
      exact ⟨symbol, f, rfl, hnamed, hf⟩
  | _ => cases h

section Rewriting

variable {t : Token}

theorem rewrites_desugarBelow_of
    (h : ∀ c ∈ t.children, (desugaring rt).Rewrites rt c (c.desugar rt)) :
    (desugaring rt).Rewrites rt t (t.desugarBelow rt) := by
  cases t with
  | program span members =>
      rw [Token.desugarBelow, Token.desugarAll_eq_map]
      exact .program (List.forall₂_map_right_iff.mpr (List.forall₂_same.mpr h))
  | assignment _ name value =>
      exact .assignment (h name (by simp [Token.children])) (h value (by simp [Token.children]))
  | reference _ name => exact .reference (h name (by simp [Token.children]))
  | path => exact .path ..
  | function => exact .function (.inr rfl)
  | application _ _ argument => exact .application (h argument (by simp [Token.children]))
  | composition => exact .composition ..
  | binary _ _ left right =>
      exact .binary (h left (by simp [Token.children])) (h right (by simp [Token.children]))
  | unary _ _ operand => exact .unary (h operand (by simp [Token.children]))
  | conversion _ operand => exact .conversion (h operand (by simp [Token.children]))
  | literal => exact .literal ..
  | object _ content => exact .object (h content (by simp [Token.children]))
  | unknown => exact .unknown ..

/-- Sugar at the top of a token is removed by one of the three rewritings. -/
theorem rewrites_desugar_of
    (h : ∀ c ∈ t.children, (desugaring rt).Rewrites rt c (c.desugar rt)) :
    (desugaring rt).Rewrites rt t (t.desugar rt) := by
  have hbelow := rewrites_desugarBelow_of h
  unfold Token.desugar
  cases t with
  | object _ content => exact .unwrapped trivial (h content (by simp [Token.children]))
  | unary span operator operand =>
      rw [Token.desugarBelow, Token.desugarTop]
      split
      · rename_i name hname
        obtain ⟨symbol, f, rfl, hnamed, hf⟩ := Runtime.exists_provides_unary hname
        exact .named hnamed hf (h operand (by simp [Token.children]))
      · exact hbelow
  | conversion span operand =>
      rw [Token.desugarBelow, Token.desugarTop]
      split
      · rename_i hbinds
        obtain ⟨f, hf⟩ := Runtime.exists_provides hbinds
        exact .converted hf (h operand (by simp [Token.children]))
      · exact hbelow
  | _ => exact hbelow

theorem rewrites_desugar (t : Token) :
    (desugaring rt).Rewrites rt t (t.desugar rt) := by
  induction t using Token.children_induction with
  | _ t ih => exact rewrites_desugar_of ih

end Rewriting

theorem Token.kind_desugarBelow (t : Token) : (t.desugarBelow rt).kind = t.kind := by
  cases t <;> rfl

theorem desugaring_fits (hrt : rt.Discreet (Token.Desugars rt)) : (desugaring rt).Fits rt where
  refl _ := .inl rfl
  kind := by
    rintro b _ (rfl | rfl)
    · rfl
    · exact b.kind_desugarBelow.symm
  rewrites := by
    rintro b _ (rfl | rfl)
    · exact Simulation.rewrites_refl (fun _ => Or.inl rfl) _
    · exact rewrites_desugarBelow_of fun c _ => rewrites_desugar c
  warned text details h := congrArg (Report.warn · text details) h
  issued span text h := congrArg (Report.issue · span text) h
  host name _ _ hv := hrt name hv

/-- **Desugaring preserves meaning.** Take machines that are the same up to desugared bodies of
closures, in particular one machine twice. If evaluating a token does not meet the nesting limit, then
evaluating the desugared token, in which no sugar is left, gives a value that is the same up to
desugared bodies, or the same fault. All scopes are the same up to that afterwards, the report is the
same, and the same calls were made. -/
theorem evaluate_desugar (hrt : rt.Discreet (Token.Desugars rt)) {m m' : Machine}
    (hm : (desugaring rt).Machines m m') (depth : Nat) (token : Token) (scope : Nat)
    (hlimit : ((evaluate rt depth token scope).run m).2.exhausted = false) :
    (token.desugar rt).isPlain rt = true ∧
      ResultsAlike (Value.Corresponds .identity (Token.Desugars rt))
        ((evaluate rt depth token scope).run m).1
        ((evaluate rt depth (token.desugar rt) scope).run m').1 ∧
      (desugaring rt).Machines ((evaluate rt depth token scope).run m).2
        ((evaluate rt depth (token.desugar rt) scope).run m').2 ∧
      ((evaluate rt depth token scope).run m).2.report =
        ((evaluate rt depth (token.desugar rt) scope).run m').2.report := by
  have hevaluates : (desugaring rt).Evaluates rt depth depth :=
    (Simulation.follows (desugaring_fits hrt) (.inl rfl)).1
  rcases hevaluates scope (rewrites_desugar token) hm with ⟨-, hdeep⟩ | ⟨hmachines, hresults⟩
  · rw [hlimit] at hdeep
    cases hdeep
  · exact ⟨token.isPlain_desugar rt, hresults, hmachines, hmachines.report⟩

theorem Runtime.standard_discreet (B : Token → Token → Prop) : Runtime.standard.Discreet B :=
  fun _ {_ _} hv => .ok hv

/-- `f` negates its argument, in a wrapper that stays since it is the body of `f`. It is applied to a
converted list, and what it gives is negated again. -/
theorem evaluate_desugar_negated :
    let x : Token := .reference .nowhere (.path .nowhere ["x"])
    let list : Json := .list [.int 1, .int 2]
    let token : Token :=
      .program .nowhere
        [.assignment .nowhere (.path .nowhere ["f"])
          (.function .nowhere (.str "x")
            (.object .nowhere (.unary .nowhere (.str "-") (.object .nowhere x)))),
         .assignment .nowhere (.path .nowhere ["y"])
          (.unary .nowhere (.str "-")
            (.application .nowhere (.str "f")
              (.object .nowhere (.conversion .nowhere (.literal .nowhere list)))))]
    let desugared : Token :=
      .program .nowhere
        [.assignment .nowhere (.path .nowhere ["f"])
          (.function .nowhere (.str "x")
            (.object .nowhere (.application .nowhere (.str "Negative") x))),
         .assignment .nowhere (.path .nowhere ["y"])
          (.application .nowhere (.str "Negative")
            (.application .nowhere (.str "f")
              (.application .nowhere (.str "Tensor") (.literal .nowhere list))))]
    token.desugar .standard = desugared ∧
      ((evaluate .standard 12 token 0).run {}).2.exhausted = false ∧
      ResultsAlike (Value.Corresponds .identity (Token.Desugars .standard))
        ((evaluate .standard 12 token 0).run {}).1 ((evaluate .standard 12 desugared 0).run {}).1 ∧
      ((evaluate .standard 12 token 0).run {}).2.report =
        ((evaluate .standard 12 desugared 0).run {}).2.report := by
  intro x list token desugared
  have hdesugared : token.desugar .standard = desugared := by rfl
  have hlimit : ((evaluate .standard 12 token 0).run {}).2.exhausted = false := by decide +kernel
  have hm : (desugaring .standard).Machines {} {} := ⟨.cons .nil .nil, rfl, rfl, rfl, rfl⟩
  obtain ⟨-, hresults, -, hreport⟩ :=
    evaluate_desugar (Runtime.standard_discreet _) hm 12 token 0 hlimit
  rw [hdesugared] at hresults hreport
  exact ⟨hdesugared, hlimit, hresults, hreport⟩

end ArrayExpr
