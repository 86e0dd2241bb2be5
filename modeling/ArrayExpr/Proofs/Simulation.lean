import ArrayExpr.Proofs.Logging
import ArrayExpr.Proofs.Marking

/-!
Runs that follow other runs. Two machines correspond if their scopes have the same names in the same
order, with values that correspond, if they have made the same calls and raised the same faults, and if
their reports compare as asked. From machines that correspond, a computation that follows another one
comes to such machines again, and to values that correspond or to the same fault. Computations in
lockstep evaluate one token in scopes that may be numbered apart; here the scopes are numbered alike
and the tokens may be rewritten.

The tokens of the second run may nest less deep than those of the first one. Then only the first one
may meet the nesting limit, and once it has, nothing more is asked of the second.
-/

namespace ArrayExpr

/-- What two runs may differ in: the bodies of closures, the reports, and whether the tokens of the
second may nest less deep than those of the first. -/
structure Simulation where
  body : Token → Token → Prop
  report : Report → Report → Prop
  flat : Prop

/-- Responses that correspond: they give values that correspond or fail in the same way, make calls
that correspond, and correspond in all that follows. -/
inductive Response.Corresponds (B : Token → Token → Prop) : Response → Response → Prop where
  | ok {v v' : Value} : v.Corresponds .identity B v' → Corresponds B (.ok v) (.ok v')
  | error (fault : Fault) : Corresponds B (.error fault) (.error fault)
  | call {f f' : Value} {arguments arguments' : List Value} {handles : Fault → Bool}
      {next next' : Except Fault Value → Response} : f.Corresponds .identity B f' →
      Value.ItemsCorrespond .identity B arguments arguments' →
      (∀ r r', ResultsAlike (Value.Corresponds .identity B) r r' →
        Corresponds B (next r) (next' r')) →
      Corresponds B (.call f arguments handles next) (.call f' arguments' handles next')
  | review {next next' : List Foreign → Response} :
      (∀ history, Corresponds B (next history) (next' history)) →
      Corresponds B (.review next) (.review next')

theorem Response.corresponds_refl (r : Response) : r.Corresponds Eq r := by
  induction r with
  | ok v => exact .ok (v.corresponds_refl fun _ => rfl)
  | error fault => exact .error fault
  | call f arguments handles next ih =>
      refine .call (f.corresponds_refl fun _ => rfl)
        (Value.itemsCorrespond_refl (fun _ => rfl) arguments) fun result result' hresults => ?_
      rw [(hresults.imp fun _ _ hv => hv.eq).eq]
      exact ih result'
  | review next ih => exact .review ih

/-- A name that stands for a function of the runtime, whatever else a scope binds. -/
def Runtime.Provides (rt : Runtime) (name : String) (f : Value) : Prop :=
  Key.lookup? (.str name) rt.bindings = some f ∧
    ∀ s, Key.lookup? (.str name) (rt.merged s) = some f

namespace Simulation

variable (S : Simulation)

abbrev Values : Value → Value → Prop :=
  Value.Corresponds .identity S.body

abbrev Scopes : Scope → Scope → Prop :=
  Key.Related Eq S.Values

structure Machines (m m' : Machine) : Prop where
  scopes : List.Forall₂ S.Scopes m.scopes m'.scopes
  report : S.report m.report m'.report
  calls : m.calls = m'.calls
  raised : m.raised = m'.raised
  mark : m.mark = m'.mark

/-- Tokens that the second run may evaluate where the first one evaluates others. Wrappers may be
dropped if the second run may nest less deep. A unary operation or a conversion may become the
application of the function that the runtime provides for it. -/
inductive Rewrites (rt : Runtime) : Token → Token → Prop where
  | program {span : Span} {members members' : List Token} :
      List.Forall₂ (Rewrites rt) members members' →
      Rewrites rt (.program span members) (.program span members')
  | assignment {span : Span} {name name' value value' : Token} : Rewrites rt name name' →
      Rewrites rt value value' →
      Rewrites rt (.assignment span name value) (.assignment span name' value')
  | reference {span : Span} {name name' : Token} : Rewrites rt name name' →
      Rewrites rt (.reference span name) (.reference span name')
  | path (span : Span) (segments : List String) :
      Rewrites rt (.path span segments) (.path span segments)
  | function {span : Span} {parameter : Json} {body body' : Token} : S.body body body' →
      Rewrites rt (.function span parameter body) (.function span parameter body')
  | application {span : Span} {name : Json} {argument argument' : Token} :
      Rewrites rt argument argument' →
      Rewrites rt (.application span name argument) (.application span name argument')
  | composition (span : Span) (names : List String) :
      Rewrites rt (.composition span names) (.composition span names)
  | binary {span : Span} {operator : Json} {left left' right right' : Token} :
      Rewrites rt left left' → Rewrites rt right right' →
      Rewrites rt (.binary span operator left right) (.binary span operator left' right')
  | unary {span : Span} {operator : Json} {operand operand' : Token} : Rewrites rt operand operand' →
      Rewrites rt (.unary span operator operand) (.unary span operator operand')
  | conversion {span : Span} {operand operand' : Token} : Rewrites rt operand operand' →
      Rewrites rt (.conversion span operand) (.conversion span operand')
  | literal (span : Span) (value : Json) : Rewrites rt (.literal span value) (.literal span value)
  | object {span : Span} {content content' : Token} : Rewrites rt content content' →
      Rewrites rt (.object span content) (.object span content')
  | unknown (span : Span) (kind : String) (raw : List (String × Json)) :
      Rewrites rt (.unknown span kind raw) (.unknown span kind raw)
  | unwrapped {span : Span} {content content' : Token} : S.flat → Rewrites rt content content' →
      Rewrites rt (.object span content) content'
  | named {span : Span} {symbol name : String} {f : Value} {operand operand' : Token} :
      namedBy? unaryOperators (.str symbol) = some name → rt.Provides name f →
      Rewrites rt operand operand' →
      Rewrites rt (.unary span (.str symbol) operand) (.application span (.str name) operand')
  | converted {span : Span} {f : Value} {operand operand' : Token} : rt.Provides "Tensor" f →
      Rewrites rt operand operand' →
      Rewrites rt (.conversion span operand) (.application span (.str "Tensor") operand')

/-- A simulation that evaluation on a runtime keeps to: bodies that stand for each other are of the
same kind and may be evaluated in each other's place, warnings and issues keep reports comparable, and
the functions of the host do not tell values apart that correspond. -/
structure Fits (rt : Runtime) : Prop where
  refl (b : Token) : S.body b b
  kind : Token.KeepsKind S.body
  rewrites {b b' : Token} : S.body b b' → S.Rewrites rt b b'
  warned {r r' : Report} (text : String) (details : List String) : S.report r r' →
    S.report (r.warn text details) (r'.warn text details)
  issued {r r' : Report} (span : Span) (text : String) : S.report r r' →
    S.report (r.issue span text) (r'.issue span text)
  host (name : String) {v v' : Value} : S.Values v v' →
    (rt.host name v).Corresponds S.body (rt.host name v')

def Depths (depth depth' : Nat) : Prop :=
  depth = depth' ∨ S.flat ∧ depth ≤ depth'

/-- The first run has met the nesting limit where the second need not. -/
def Excuses (m : Machine) : Prop :=
  S.flat ∧ m.exhausted = true

/-- From machines that correspond, two computations come to machines that correspond and to results
related by `Q` or to the same fault, unless the first has met the nesting limit. -/
def Follows {α β : Type} (m m' : Machine) (x : Run α) (x' : Run β) (Q : α → β → Prop) : Prop :=
  S.Machines m m' → S.Excuses (x.run m).2 ∨
    S.Machines (x.run m).2 (x'.run m').2 ∧ ResultsAlike Q (x.run m).1 (x'.run m').1

end Simulation

/-! ### Tokens that stay as they are -/

namespace Simulation

variable {S : Simulation} {rt : Runtime}

theorem rewrites_refl (hbody : ∀ b, S.body b b) (t : Token) : S.Rewrites rt t t := by
  induction t using Token.children_induction with
  | _ t ih =>
      cases t with
      | program => exact .program (List.forall₂_same.mpr ih)
      | assignment _ name value =>
          exact .assignment (ih name (by simp [Token.children])) (ih value (by simp [Token.children]))
      | reference _ name => exact .reference (ih name (by simp [Token.children]))
      | path => exact .path ..
      | function _ _ body => exact .function (hbody body)
      | application _ _ argument => exact .application (ih argument (by simp [Token.children]))
      | composition => exact .composition ..
      | binary _ _ left right =>
          exact .binary (ih left (by simp [Token.children])) (ih right (by simp [Token.children]))
      | unary _ _ operand => exact .unary (ih operand (by simp [Token.children]))
      | conversion _ operand => exact .conversion (ih operand (by simp [Token.children]))
      | literal => exact .literal ..
      | object _ content => exact .object (ih content (by simp [Token.children]))
      | unknown => exact .unknown ..

/-- A simulation that keeps bodies as they are fits every runtime, as long as warnings and issues keep
reports comparable. -/
theorem fits_of_same_bodies {report : Report → Report → Prop} {flat : Prop}
    (warned : ∀ r r' text details, report r r' → report (r.warn text details) (r'.warn text details))
    (issued : ∀ r r' span text, report r r' → report (r.issue span text) (r'.issue span text)) :
    (Simulation.mk Eq report flat).Fits rt where
  refl _ := rfl
  kind h := congrArg Token.kind h
  rewrites := by
    rintro b _ rfl
    exact rewrites_refl (fun _ => rfl) b
  warned text details h := warned _ _ text details h
  issued span text h := issued _ _ span text h
  host name v v' hv := by
    rw [Value.Corresponds.eq hv]
    exact Response.corresponds_refl _

end Simulation

/-! ### Machines -/

namespace Simulation.Machines

variable {S : Simulation} {m m' : Machine}

theorem scope (h : S.Machines m m') (i : Nat) : S.Scopes (m.scope i) (m'.scope i) := by
  have hscopes := h.scopes
  unfold Machine.scope
  generalize m.scopes = all, m'.scopes = all' at hscopes
  induction hscopes generalizing i with
  | nil => exact .nil
  | cons hs _ ih =>
      cases i with
      | zero => exact hs
      | succ i => exact ih i

theorem bind (h : S.Machines m m') (i : Nat) (key : Key) {v v' : Value} (hv : S.Values v v') :
    S.Machines (m.bind i key v) (m'.bind i key v') := by
  refine ⟨?_, h.report, h.calls, h.raised, h.mark⟩
  have hscopes := h.scopes
  unfold Machine.bind
  dsimp only
  generalize m.scopes = all, m'.scopes = all' at hscopes
  induction hscopes generalizing i with
  | nil => simp
  | cons hs hrest ih =>
      cases i with
      | zero => exact .cons (Key.insert_related Key.respects_eq hs rfl hv) hrest
      | succ i => exact .cons hs (ih i)

theorem addScope (h : S.Machines m m') {s s' : Scope} (hs : S.Scopes s s') :
    S.Machines (m.addScope s) (m'.addScope s') :=
  ⟨List.rel_append h.scopes (.cons hs .nil), h.report, h.calls, h.raised, h.mark⟩

theorem noteFault (h : S.Machines m m') (source : Option Foreign) (fault : Fault) :
    S.Machines (m.noteFault source fault) (m'.noteFault source fault) :=
  ⟨h.scopes, h.report, h.calls, congrArg (· ++ [(source, fault)]) h.raised, h.mark⟩

theorem length_scopes (h : S.Machines m m') : m.scopes.length = m'.scopes.length :=
  h.scopes.length_eq

theorem scopes_eq {report : Report → Report → Prop} {flat : Prop}
    (h : (Simulation.mk Eq report flat).Machines m m') : m.scopes = m'.scopes := by
  have hscopes : List.Forall₂ Eq m.scopes m'.scopes := by
    refine h.scopes.imp fun s s' hs => ?_
    have hentries : List.Forall₂ Eq s s' := hs.imp fun e e' he => Prod.ext he.1 he.2.eq
    rwa [List.forall₂_eq_eq_eq] at hentries
  rwa [List.forall₂_eq_eq_eq] at hscopes

end Simulation.Machines

/-! ### Rules -/

namespace Simulation.Follows

variable {α β γ δ : Type} {S : Simulation} {m m' m₁ m₁' : Machine} {x : Run α} {x' : Run β}
  {Q : α → β → Prop} {R : γ → δ → Prop}

theorem of_ok {a : α} {b : β} (hrun : x.run m = (.ok a, m₁)) (hrun' : x'.run m' = (.ok b, m₁'))
    (hmachines : S.Machines m m' → S.Machines m₁ m₁') (hQ : S.Machines m m' → Q a b) :
    S.Follows m m' x x' Q := by
  intro hm
  rw [hrun, hrun']
  exact .inr ⟨hmachines hm, .ok (hQ hm)⟩

theorem done {a : α} {b : β} (hQ : S.Machines m m' → Q a b) :
    S.Follows m m' (pure a) (pure b) Q :=
  of_ok rfl rfl id hQ

theorem raise (source : Option Foreign) (fault : Fault) :
    S.Follows m m' (Run.raise source fault) (Run.raise source fault) Q :=
  fun hm => .inr ⟨hm.noteFault source fault, .error fault⟩

/-- Nothing has to follow the nesting limit. -/
theorem tooDeep (hflat : S.flat) : S.Follows m m' (Run.raise none .tooDeep) x' Q :=
  fun _ => .inl ⟨hflat, Machine.exhausted_noteFault rfl⟩

/-- The second parts go on from where the first ones have ended. What the first run has met stays on
record. -/
theorem andThen {f : α → Run γ} {f' : β → Run δ} (hx : S.Follows m m' x x' Q)
    (hlogs : ∀ a, (f a).Logs) (hf : ∀ a b m₁ m₁', Q a b → S.Follows m₁ m₁' (f a) (f' b) R) :
    S.Follows m m' (x >>= f) (x' >>= f') R := by
  intro hm
  have hfirst := hx hm
  rw [Run.run_bind, Run.run_bind]
  generalize x.run m = ran, x'.run m' = ran' at hfirst ⊢
  obtain ⟨r, m₁⟩ := ran
  obtain ⟨r', m₁'⟩ := ran'
  rcases hfirst with ⟨hflat, hdeep⟩ | ⟨hmachines, hresults⟩
  · cases r with
    | ok a => exact .inl ⟨hflat, Machine.exhausted_of_raised (hlogs a m₁) hdeep⟩
    | error => exact .inl ⟨hflat, hdeep⟩
  · cases hresults with
    | ok hQ => exact hf _ _ m₁ m₁' hQ hmachines
    | error fault => exact .inr ⟨hmachines, .error fault⟩

theorem reading {f : Machine → Run γ} {f' : Machine → Run δ}
    (hf : S.Machines m m' → S.Follows m m' (f m) (f' m') R) :
    S.Follows m m' (get >>= f) (get >>= f') R :=
  fun hm => hf hm hm

theorem lift_andThen {r : Except Fault α} {f : α → Run γ} {f' : α → Run δ}
    (hok : ∀ a, r = .ok a → S.Follows m m' (f a) (f' a) R) :
    S.Follows m m' (Run.lift r >>= f) (Run.lift r >>= f') R := by
  cases r with
  | ok a => exact hok a rfl
  | error fault => exact raise none fault

/-- A text for which the first run had no room need not be followed. -/
theorem text_andThen {room room' : Nat} {f : String → Run γ} {f' : String → Run δ}
    {write : Nat → Except Fault String}
    (hwrite : room = room' ∨ S.flat ∧
      (write room = .error .deepText ∨ write room' = write room))
    (hok : ∀ a, S.Follows m m' (f a) (f' a) R) :
    S.Follows m m' (Run.lift (write room) >>= f) (Run.lift (write room') >>= f') R := by
  obtain rfl | ⟨hflat, hdeep | hsame⟩ := hwrite
  · exact lift_andThen fun a _ => hok a
  · rw [hdeep]
    exact fun _ => .inl ⟨hflat, Machine.exhausted_noteFault rfl⟩
  · rw [hsame]
    exact lift_andThen fun a _ => hok a

/-- What is made with marks is made with the same marks. -/
theorem marking {f : Nat → Except Fault (α × Nat)} {f' : Nat → Except Fault (β × Nat)}
    (hf : ∀ mark, ResultsAlike (fun r r' => r.2 = r'.2 ∧ Q r.1 r'.1) (f mark) (f' mark)) :
    S.Follows m m' (Run.marking f) (Run.marking f') Q := by
  intro hm
  have hresults := hf m.mark
  rw [Run.run_marking, Run.run_marking, ← hm.mark]
  generalize f m.mark = r, f' m.mark = r' at hresults ⊢
  cases hresults with
  | error fault => exact .inr ⟨hm.noteFault none fault, .error fault⟩
  | ok hmade => exact .inr ⟨⟨hm.scopes, hm.report, hm.calls, hm.raised, hmade.1⟩, .ok hmade.2⟩

theorem attempt (handles : Fault → Bool) (hx : S.Follows m m' x x' Q) :
    S.Follows m m' (Run.attempt handles x) (Run.attempt handles x') (ResultsAlike Q) := by
  intro hm
  have hfirst := hx hm
  rw [Run.run_attempt, Run.run_attempt]
  generalize x.run m = ran, x'.run m' = ran' at hfirst ⊢
  obtain ⟨r, m₁⟩ := ran
  obtain ⟨r', m₁'⟩ := ran'
  rcases hfirst with hexcused | ⟨hmachines, hresults⟩
  · cases r with
    | ok => exact .inl hexcused
    | error fault =>
        dsimp only
        split
        · exact .inl hexcused
        · exact .inl hexcused
  · cases hresults with
    | ok hQ => exact .inr ⟨hmachines, .ok (.ok hQ)⟩
    | error fault =>
        dsimp only
        split
        · exact .inr ⟨hmachines, .ok (.error fault)⟩
        · exact .inr ⟨hmachines, .error fault⟩

variable {rt : Runtime}

theorem warn (fits : S.Fits rt) (text : String) (details : List String) :
    S.Follows m m' (Run.reportBy (·.warn text details)) (Run.reportBy (·.warn text details))
      fun _ _ => True :=
  of_ok rfl rfl
    (fun hm => ⟨hm.scopes, fits.warned text details hm.report, hm.calls, hm.raised, hm.mark⟩)
    fun _ => trivial

/-- Guarded computations get the same issue or none. -/
theorem safely (fits : S.Fits rt) (span : Span) {x x' : Run Value}
    (hx : S.Follows m m' x x' S.Values) :
    S.Follows m m' (Run.safely span x) (Run.safely span x') S.Values := by
  intro hm
  have hfirst := hx hm
  rw [Run.safely, Run.safely, Run.run_tryCatch, Run.run_tryCatch]
  generalize x.run m = ran, x'.run m' = ran' at hfirst ⊢
  obtain ⟨r, m₁⟩ := ran
  obtain ⟨r', m₁'⟩ := ran'
  rcases hfirst with hexcused | ⟨hmachines, hresults⟩
  · cases r with
    | ok => exact .inl hexcused
    | error => exact .inl hexcused
  · cases hresults with
    | ok hv => exact .inr ⟨hmachines, .ok hv⟩
    | error fault =>
        have hissued := fits.issued span fault.report hmachines.report
        exact .inr ⟨⟨hmachines.scopes, hissued, hmachines.calls, hmachines.raised, hmachines.mark⟩,
          .ok (.atom rfl)⟩

theorem noteCall (f : Foreign) :
    S.Follows m m' (modify (·.noteCall f)) (modify (·.noteCall f)) fun _ _ => True :=
  of_ok (Run.run_modify m _) (Run.run_modify m' _)
    (fun hm => ⟨hm.scopes, hm.report, congrArg (· ++ [f]) hm.calls, hm.raised, hm.mark⟩)
    fun _ => trivial

theorem bindName (i : Nat) (key : Key) {v v' : Value} (hv : S.Values v v') :
    S.Follows m m' (modify (·.bind i key v)) (modify (·.bind i key v')) fun _ _ => True :=
  of_ok (Run.run_modify m _) (Run.run_modify m' _) (fun hm => hm.bind i key hv) fun _ => trivial

/-- The scopes that are opened for a call have the same number. -/
theorem openScope (parameter : Json) (natal : Nat) {v v' : Value} (hv : S.Values v v') :
    S.Follows m m' (ArrayExpr.openScope parameter natal v) (ArrayExpr.openScope parameter natal v')
      Eq := by
  refine lift_andThen fun key _ => reading fun hm => ?_
  refine of_ok rfl rfl (fun hm => hm.addScope ?_) fun hm => hm.length_scopes
  exact Key.insert_related Key.respects_eq (hm.scope natal) rfl hv

end Simulation.Follows

end ArrayExpr
