import ArrayExpr.Proofs.Flattening

/-!
How deep programs nest that write no functions. What such a program calls is a finite composition of
functions of the runtime, if it finds no closures in its scope, and it makes none. So its evaluation
nests as deep as its tree, and its calls nest as deep as the compositions that it finds and those that it
makes (`evaluate_nests_within`). With a depth that covers both, the nesting limit is never met. What is
left of the depth is room for texts, and only a text that nests deeper than this breaks evaluation off.

To tell the two apart, evaluation is repeated with a budget for nested evaluations and another one for
nested compositions. Neither of them is touched by what the other one counts.
-/

namespace ArrayExpr

namespace Token

def isFunction : Token → Bool
  | .function .. => true
  | _ => false

def functionFree (t : Token) : Bool :=
  t.throughout fun part => !part.isFunction

/-- Whether a token itself writes only texts that do not nest: its name, if it takes one, is a path. -/
def namesPlainly : Token → Bool
  | .assignment _ name _ | .reference _ name => name.isPath
  | .unknown .. => false
  | _ => true

mutual

/-- How many compositions are written in a token. -/
def compositions : Token → Nat
  | .program _ members => compositionsOfAll members
  | .assignment _ left right | .binary _ _ left right => left.compositions + right.compositions
  | .reference _ t | .function _ _ t | .application _ _ t | .unary _ _ t | .conversion _ t
  | .object _ t => t.compositions
  | .composition .. => 1
  | .path .. | .literal .. | .unknown .. => 0

def compositionsOfAll : List Token → Nat
  | [] => 0
  | t :: ts => t.compositions + compositionsOfAll ts

end

theorem compositionsOfAll_pair (left right : Token) :
    compositionsOfAll [left, right] = left.compositions + right.compositions := by
  simp [compositionsOfAll]

end Token

/-! ### Two budgets -/

/-- Calls a value where compositions may be nested so many times. A call that would come back to
evaluation is over the budget. -/
def callApart (rt : Runtime) (nested : Nat) (f : Value) (arguments : List Value) : Run Value :=
  match f with
  | .foreign f => callForeign rt (fun _ _ => Run.raise none .tooDeep) f arguments
  | .composition _ functions =>
    match nested with
    | 0 => Run.raise none .tooDeep
    | nested + 1 => pipeline (callApart rt nested) functions arguments
  | .closure .. => Run.raise none .tooDeep
  | other => Run.raise none (.notCallable other.typeName)

/-- Evaluates a token where evaluations may be nested so many times, and compositions in each call so
many times as well. Texts have as much room as if so many more evaluations could be nested. -/
def evaluateApart (rt : Runtime) (spare nested : Nat) : Nat → Token → Nat → Run Value
  | 0, _, _ => Run.raise none .tooDeep
  | levels + 1, t, scope =>
    evaluateBy rt (writingRoom (spare + levels)) (evaluateApart rt spare nested levels · scope)
      (callApart rt nested) scope t

/-- A response that comes to a value with `P`, if it comes to a value. -/
def Response.Gives (P : Value → Prop) : Response → Prop
  | .ok v => P v
  | .error _ => True
  | .call _ _ _ next => ∀ result, (next result).Gives P
  | .review next => ∀ calls, (next calls).Gives P

/-- A runtime whose functions call no others and make no functions up: they give no closures, and no
compositions that are nested more often than those that the runtime binds and those that they get. -/
structure Runtime.Bounded (rt : Runtime) (n : Nat) : Prop where
  binding : ∀ e ∈ rt.bindings, e.2.Within n
  direct : ∀ name v, (rt.host name v).Direct
  gives : ∀ name v k, n ≤ k → v.Within k → (rt.host name v).Gives (·.Within k)

/-- From the first machine to the second, the nesting limit was not met. -/
def Machine.Unlimited (m m' : Machine) : Prop :=
  ∃ added, m'.raised = m.raised ++ added ∧ (none, Fault.tooDeep) ∉ added

variable {rt : Runtime} {n k k' : Nat}

/-! ### Values without closures -/

namespace Value

theorem Within.mono {v : Value} (h : v.Within n) (hle : n ≤ k) : v.Within k := by
  induction h generalizing k with
  | atom hatom => exact .atom hatom
  | undefined u => exact .undefined u
  | list _ ih => exact .list fun v hv => ih v hv hle
  | dict _ ih => exact .dict fun e he => ih e he hle
  | composition _ ih =>
      obtain ⟨j, rfl⟩ : ∃ j, k = j + 1 := ⟨k - 1, by omega⟩
      exact .composition fun f hf => ih f hf (by omega)

theorem Data.within {p : Undefined → Prop} {v : Value} (h : v.Data p) : v.Within n := by
  induction h with
  | list _ ih => exact .list ih
  | dict _ _ ih => exact .dict ih
  | undefined => exact .undefined _
  | _ => exact .atom rfl

theorem Within.entries {news : List (Key × Value)} (h : (Value.dict news).Within n) :
    ∀ e ∈ news, e.2.Within n := by
  cases h with
  | atom hatom => cases hatom
  | dict hall => exact hall

end Value

theorem Key.within_toValue (key : Key) : key.toValue.Within n := by
  cases key with
  | undefined u => exact .undefined u
  | _ => exact .atom rfl

theorem Value.Within.members {v : Value} {vs : List Value} (h : v.Within n)
    (hmembers : v.members? = some vs) : ∀ w ∈ vs, w.Within n := by
  intro w hw
  rcases Value.mem_members_cases hmembers hw with ⟨items, rfl, hw⟩ | ⟨entries, rfl, e, he, rfl⟩ | hdata
  · cases h with
    | atom hatom => cases hatom
    | list hall => exact hall w hw
  · exact e.1.within_toValue
  · exact hdata.within

/-- A result with `Q`, or a fault with `E`. -/
def Ending {α : Type} (E : Fault → Prop) (Q : α → Prop) : Except Fault α → Prop
  | .ok a => Q a
  | .error fault => E fault

abbrev Fault.Ordinary (fault : Fault) : Prop :=
  fault ≠ .tooDeep

namespace Ending

variable {α β : Type} {E : Fault → Prop} {Q : α → Prop} {result : Except Fault α}

theorem imp {E' : Fault → Prop} {Q' : α → Prop} (h : Ending E Q result)
    (hE : ∀ fault, E fault → E' fault) (hQ : ∀ a, Q a → Q' a) : Ending E' Q' result := by
  cases result with
  | ok a => exact hQ a h
  | error fault => exact hE fault h

theorem andThen {R : β → Prop} {f : α → Except Fault β} (h : Ending E Q result)
    (hf : ∀ a, Q a → Ending E R (f a)) : Ending E R (result >>= f) := by
  cases result with
  | ok a => exact hf a h
  | error fault => exact h

end Ending

namespace Value

theorem toKey_ends (v : Value) : Ending Fault.Ordinary (fun _ => True) v.toKey := by
  cases v with
  | list | dict | tensor | closure | composition => exact Fault.noConfusion
  | _ => trivial

theorem toMarkedKey_ends (mark : Nat) (v : Value) :
    Ending Fault.Ordinary (fun _ => True) (v.toMarkedKey mark) := by
  unfold toMarkedKey
  split
  · trivial
  · exact v.toKey_ends.andThen fun _ _ => trivial

theorem mergePairs_ends (mark position : Nat) (entries : List (Key × Value)) (items : List Value) :
    Ending Fault.Ordinary (fun _ => True) (mergePairs mark position entries items) := by
  induction items generalizing mark position entries with
  | nil => trivial
  | cons item items ih =>
      unfold mergePairs
      split
      · exact Fault.noConfusion
      · exact (toMarkedKey_ends mark _).andThen fun r _ => ih r.2 _ _
      · exact Fault.noConfusion

theorem merge_ends (mark : Nat) (entries : List (Key × Value)) (v : Value) :
    Ending Fault.Ordinary (fun _ => True) (v.merge mark entries) := by
  unfold merge
  split
  · trivial
  · split
    · exact Fault.noConfusion
    · exact mergePairs_ends ..
  · split
    · exact mergePairs_ends ..
    · exact Fault.noConfusion

/-- Merging brings no closures in. -/
theorem Within.merge {v : Value} (h : v.Within k) {entries : List (Key × Value)}
    (hentries : ∀ e ∈ entries, e.2.Within k) (mark : Nat) :
    Ending Fault.Ordinary (fun r => ∀ e ∈ r.1, e.2.Within k) (v.merge mark entries) := by
  have hends := merge_ends mark entries v
  cases hmerge : v.merge mark entries with
  | error fault =>
      rw [hmerge] at hends
      exact hends
  | ok r =>
      have hall := merge_all (P := Within k) (fun _ _ hv hvs => hv.members hvs) .undefined
        (fun _ hv => hv.entries) (fun e he => ⟨e.1.within_toValue, hentries e he⟩) h hmerge
      exact fun e he => (hall e he).2

end Value

/-! ### Calls -/

namespace Machine.Unlimited

theorem refl (m : Machine) : m.Unlimited m :=
  ⟨[], (List.append_nil _).symm, List.not_mem_nil⟩

theorem trans {m₁ m₂ m₃ : Machine} (h : m₁.Unlimited m₂) (h' : m₂.Unlimited m₃) :
    m₁.Unlimited m₃ := by
  obtain ⟨added, hadded, hfree⟩ := h
  obtain ⟨more, hmore, hfree'⟩ := h'
  refine ⟨added ++ more, by rw [hmore, hadded, List.append_assoc], ?_⟩
  rw [List.mem_append]
  exact not_or.mpr ⟨hfree, hfree'⟩

theorem noteFault (m : Machine) {source : Option Foreign} {fault : Fault}
    (h : source = none → fault.Ordinary) : m.Unlimited (m.noteFault source fault) := by
  refine ⟨[(source, fault)], rfl, ?_⟩
  rw [List.mem_singleton]
  rintro ⟨⟩
  exact h rfl rfl

end Machine.Unlimited

namespace Run

variable {α β : Type} {x : Run α} {E : Fault → Prop} {Q : α → Prop} {R : β → Prop}

/-- A computation that leaves the scopes alone and does not meet the nesting limit. It comes to a result
with `Q`, or to a fault with `E`. -/
def Calm (x : Run α) (E : Fault → Prop) (Q : α → Prop) : Prop :=
  ∀ m, (x.run m).2.scopes = m.scopes ∧ m.Unlimited (x.run m).2 ∧ Ending E Q (x.run m).1

namespace Calm

theorem done {a : α} (h : Q a) : (pure a : Run α).Calm E Q :=
  fun m => ⟨rfl, .refl m, h⟩

theorem raise {source : Option Foreign} {fault : Fault} (h : source = none → fault.Ordinary)
    (hfault : E fault) : (Run.raise source fault : Run α).Calm E Q :=
  fun m => ⟨rfl, .noteFault m h, hfault⟩

theorem liftFrom {source : Option Foreign} {result : Except Fault α}
    (h : Ending (fun fault => (source = none → fault.Ordinary) ∧ E fault) Q result) :
    (Run.liftFrom source result).Calm E Q := by
  cases result with
  | ok a => exact .done h
  | error fault => exact .raise h.1 h.2

theorem text {result : Except Fault α} (h : FailsOnly Fault.isUnwritable result) :
    (Run.lift result).Calm Fault.Ordinary fun _ => True := by
  refine .liftFrom ?_
  cases result with
  | ok a => trivial
  | error fault =>
      have hfault : fault.Ordinary := fun hdeep => by cases hdeep ▸ h fault rfl
      exact ⟨fun _ => hfault, hfault⟩

theorem andThen {f : α → Run β} (hx : x.Calm E Q) (hf : ∀ a, Q a → (f a).Calm E R) :
    (x >>= f).Calm E R := by
  intro m
  obtain ⟨hscopes, hunlimited, hends⟩ := hx m
  rw [run_bind]
  cases hrun : x.run m with
  | mk r m₁ =>
      rw [hrun] at hscopes hunlimited hends
      cases r with
      | error fault => exact ⟨hscopes, hunlimited, hends⟩
      | ok a =>
          obtain ⟨hscopes', hunlimited', hends'⟩ := hf a hends m₁
          exact ⟨hscopes'.trans hscopes, hunlimited.trans hunlimited', hends'⟩

theorem step {f : Machine → Machine} (hscopes : ∀ m, (f m).scopes = m.scopes)
    (hraised : ∀ m, (f m).raised = m.raised) : (modify f : Run PUnit).Calm E fun _ => True :=
  fun m => ⟨hscopes m, ⟨[], by simp [hraised], List.not_mem_nil⟩, trivial⟩

theorem marking {f : Nat → Except Fault (α × Nat)}
    (h : ∀ mark, Ending Fault.Ordinary (fun r => Q r.1) (f mark)) :
    (Run.marking f).Calm Fault.Ordinary Q := by
  intro m
  have hmark := h m.mark
  rw [run_marking]
  cases hf : f m.mark with
  | ok r =>
      rw [hf] at hmark
      exact ⟨rfl, .refl m, hmark⟩
  | error fault =>
      rw [hf] at hmark
      exact ⟨rfl, .noteFault m fun _ => hmark, hmark⟩

theorem imp {E' : Fault → Prop} (hx : x.Calm E Q) (himp : ∀ fault, E fault → E' fault) :
    x.Calm E' Q := by
  intro m
  obtain ⟨hscopes, hunlimited, hends⟩ := hx m
  exact ⟨hscopes, hunlimited, hends.imp himp fun _ => id⟩

end Calm

end Run

open Run (Calm)

abbrev Fault.Any (_ : Fault) : Prop :=
  True

theorem respond_calm {r : Response} (hdirect : r.Direct) {P : Value → Prop} (hgives : r.Gives P)
    (call : Value → List Value → Run Value) (source : Foreign) :
    (respond call source r).Calm Fault.Any P := by
  induction r with
  | ok v => exact .done hgives
  | error fault => exact .raise nofun trivial
  | call => exact hdirect.elim
  | review next ih => exact fun m => ih m.calls (hdirect m.calls) (hgives m.calls) m

theorem callForeign_calm (hrt : rt.Bounded n) (hk : n ≤ k) (call : Value → List Value → Run Value)
    (f : Foreign) {v : Value} (hv : v.Within k) :
    (callForeign rt call f [v]).Calm Fault.Any (·.Within k) := by
  have hnoted : (modify (·.noteCall f) : Run PUnit).Calm Fault.Any fun _ => True :=
    .step (fun _ => rfl) fun _ => rfl
  unfold callForeign
  cases f with
  | passThrough => exact .done hv
  | capability c =>
      refine hnoted.andThen fun _ _ => .andThen (Q := fun r => c.run v = .ok r) ?_ fun r hr => ?_
      · refine .liftFrom ?_
        cases c.run v with
        | ok r => exact rfl
        | error fault => exact ⟨nofun, trivial⟩
      · refine Calm.imp (.marking fun mark => ?_) fun _ _ => trivial
        exact (Value.data_marked mark r (Capability.plain_run hr)).within
  | host name =>
      exact hnoted.andThen fun _ _ => respond_calm (hrt.direct name v) (hrt.gives name v k hk hv) _ _

theorem stages_calm {depth : Nat} {fs : List Value}
    (hfs : ∀ f ∈ fs, ∀ v, v.Within k → (call rt depth f [v]).Calm Fault.Any (·.Within k)) {v : Value}
    (hv : v.Within k) : (stages rt depth fs v).Calm Fault.Any (·.Within k) := by
  induction fs with
  | nil => exact .done hv
  | cons f fs ih =>
      obtain ⟨hf, hrest⟩ := List.forall_mem_cons.mp hfs
      rw [stages_cons]
      exact (ih hrest).andThen hf

/-- A call where there are more levels than compositions are nested. -/
theorem call_calm (hrt : rt.Bounded n) (hk : n ≤ k) {f : Value} {j depth : Nat} (hf : f.Within j)
    (hdepth : j < depth) {v : Value} (hv : v.Within k) :
    (call rt depth f [v]).Calm Fault.Any (·.Within k) := by
  induction hf generalizing depth v with
  | @composition j names fs _ ih =>
      obtain ⟨d, rfl⟩ : ∃ d, depth = d + 1 + 1 := ⟨depth - 2, by omega⟩
      rw [call, callBy, pipeline_succ_eq_stages]
      exact stages_calm (fun f hf v hv => ih f hf (by omega) hv) hv
  | @atom j f hatom =>
      obtain ⟨d, rfl⟩ : ∃ d, depth = d + 1 := ⟨depth - 1, by omega⟩
      cases f with
      | foreign f =>
          rw [call, callBy]
          exact callForeign_calm hrt hk _ f hv
      | list | dict | undefined | closure | composition => cases hatom
      | _ => exact .raise (fun _ => Fault.noConfusion) trivial
  | undefined | list | dict =>
      obtain ⟨d, rfl⟩ : ∃ d, depth = d + 1 := ⟨depth - 1, by omega⟩
      exact .raise (fun _ => Fault.noConfusion) trivial

/-- Compositions are related if the calls of their functions are, by a relation that goes along when one
computation follows another. -/
theorem pipeline_related {S : Run Value → Run Value → Prop} (hpure : ∀ v, S (pure v) (pure v))
    (hbind : ∀ {x x' : Run Value} {f f' : Value → Run Value}, S x x' → (∀ v, S (f v) (f' v)) →
      S (x >>= f) (x' >>= f'))
    (call call' : Value → List Value → Run Value) {fs : List Value}
    (hpass : ∀ arguments,
      S (call (.foreign .passThrough) arguments) (call' (.foreign .passThrough) arguments))
    (hfs : ∀ f ∈ fs, ∀ arguments, S (call f arguments) (call' f arguments)) (arguments : List Value) :
    S (pipeline call fs arguments) (pipeline call' fs arguments) := by
  have hreversed : ∀ f ∈ fs.reverse, ∀ arguments, S (call f arguments) (call' f arguments) :=
    fun f hf => hfs f (List.mem_reverse.mp hf)
  unfold pipeline
  cases hreverse : fs.reverse with
  | nil => exact hpass arguments
  | cons last others =>
      rw [hreverse] at hreversed
      obtain ⟨hlast, hothers⟩ := List.forall_mem_cons.mp hreversed
      refine hbind (hlast arguments) fun first => ?_
      clear hreverse hreversed
      induction others generalizing first with
      | nil => exact hpure first
      | cons f rest ih =>
          obtain ⟨hf, hrest⟩ := List.forall_mem_cons.mp hothers
          rw [List.foldlM_cons, List.foldlM_cons]
          exact hbind (hf [first]) fun result => ih hrest result

/-- Calls do not come back to evaluation, and nest as often as compositions are nested. -/
theorem call_eq_callApart (hhost : ∀ name v, (rt.host name v).Direct) {f : Value} {depth : Nat}
    (hf : f.Within n) (hdepth : n < depth) (arguments : List Value) :
    call rt depth f arguments = callApart rt n f arguments := by
  have hforeign (d j : Nat) (f : Foreign) (arguments : List Value) :
      call rt (d + 1) (.foreign f) arguments = callApart rt j (.foreign f) arguments := by
    rw [call, callBy, callApart]
    exact callForeign_of_direct hhost _ _ f arguments
  induction hf generalizing depth arguments with
  | @composition n names fs _ ih =>
      obtain ⟨d, rfl⟩ : ∃ d, depth = d + 1 + 1 := ⟨depth - 2, by omega⟩
      rw [call, callBy, callApart]
      refine pipeline_related (S := Eq) (fun _ => rfl) ?_ _ _ (hforeign d n .passThrough)
        (fun f hf => ih f hf (by omega)) arguments
      rintro x _ f f' rfl hf
      exact bind_congr hf
  | @atom n f hatom =>
      obtain ⟨d, rfl⟩ : ∃ d, depth = d + 1 := ⟨depth - 1, by omega⟩
      cases f with
      | foreign f => exact hforeign d n f arguments
      | list | dict | undefined | closure | composition => cases hatom
      | _ => cases n <;> rfl
  | @undefined n | @list n | @dict n =>
      obtain ⟨d, rfl⟩ : ∃ d, depth = d + 1 := ⟨depth - 1, by omega⟩
      cases n <;> rfl

/-! ### Evaluation with one budget and with two -/

/-- All values in a scope are without closures, with compositions nested at most so many times. -/
def Machine.ScopeWithin (m : Machine) (scope k : Nat) : Prop :=
  ∀ e ∈ m.scope scope, e.2.Within k

/-- Room for texts as much as other room. The first may be less if there is slack. -/
def Roomy (slack : Prop) (room room' : Nat) : Prop :=
  room = room' ∨ slack ∧ room ≤ room'

/-- What a token gives: no closures, compositions nested at most so many times, and a text if the token
is a path. -/
structure Token.Yields (t : Token) (k : Nat) (v : Value) : Prop where
  within : v.Within k
  text : t.isPath = true → ∃ s, v = .str s

variable {slack : Prop}

namespace Run

variable {α β : Type} {x x' : Run α} {Q : α → Prop} {R : β → Prop} {scope : Nat}

/-- Two computations that do the same from a machine with a scope within `k`, and leave that scope within
`k'`. They do not meet the nesting limit, and come to a result with `Q` or to an ordinary fault. If there
is slack, the first may instead be broken off by a text that it has no room for. -/
def Settles (slack : Prop) (scope k k' : Nat) (x x' : Run α) (Q : α → Prop) : Prop :=
  ∀ m, m.ScopeWithin scope k →
    (x.run m = x'.run m ∨ slack ∧ (x.run m).1 = .error .deepText) ∧
      (x.run m).2.ScopeWithin scope k' ∧ m.Unlimited (x.run m).2 ∧ Ending Fault.Ordinary Q (x.run m).1

namespace Settles

theorem of_calm (hx : x.Calm Fault.Ordinary Q) : Settles slack scope k k x x Q := by
  intro m hm
  obtain ⟨hscopes, hunlimited, hends⟩ := hx m
  refine ⟨.inl rfl, ?_, hunlimited, hends⟩
  unfold Machine.ScopeWithin Machine.scope
  rw [hscopes]
  exact hm

theorem done {a : α} (h : Q a) : Settles slack scope k k (pure a) (pure a) Q :=
  of_calm (.done h)

theorem imp {Q' : α → Prop} (hx : Settles slack scope k k' x x' Q) (h : ∀ a, Q a → Q' a) :
    Settles slack scope k k' x x' Q' := by
  intro m hm
  obtain ⟨hsame, hscope, hunlimited, hends⟩ := hx m hm
  exact ⟨hsame, hscope, hunlimited, hends.imp (fun _ => id) h⟩

theorem andThen {k₁ k₂ : Nat} {f f' : α → Run β} (hx : Settles slack scope k k₁ x x' Q) (hle : k₁ ≤ k₂)
    (hf : ∀ a, Q a → Settles slack scope k₁ k₂ (f a) (f' a) R) :
    Settles slack scope k k₂ (x >>= f) (x' >>= f') R := by
  intro m hm
  obtain ⟨hsame, hscope, hunlimited, hends⟩ := hx m hm
  rw [run_bind, run_bind]
  cases hrun : x.run m with
  | mk r m₁ =>
      rw [hrun] at hsame hscope hunlimited hends
      cases r with
      | error fault =>
          refine ⟨?_, fun e he => (hscope e he).mono hle, hunlimited, hends⟩
          obtain hsame | ⟨hslack, hdeep⟩ := hsame
          · exact .inl (by rw [← hsame])
          · exact .inr ⟨hslack, congrArg Except.error (Except.error.inj hdeep)⟩
      | ok a =>
          obtain hsame | ⟨-, hdeep⟩ := hsame
          · obtain ⟨hsame', hscope', hunlimited', hends'⟩ := hf a hends m₁ hscope
            rw [← hsame]
            exact ⟨hsame', hscope', hunlimited.trans hunlimited', hends'⟩
          · cases hdeep

theorem reading {f f' : Machine → Run β}
    (hf : ∀ m, m.ScopeWithin scope k → Settles slack scope k k' (f m) (f' m) R) :
    Settles slack scope k k' (get >>= f) (get >>= f') R :=
  fun m hm => hf m hm m hm

theorem text {result result' : Except Fault α} (h : FailsOnly Fault.isUnwritable result)
    (hsame : result = result' ∨ slack ∧ result = .error .deepText) :
    Settles slack scope k k (Run.lift result) (Run.lift result') fun _ => True := by
  intro m hm
  have hcalm : Settles slack scope k k (Run.lift result) (Run.lift result) fun _ => True :=
    of_calm (Calm.text h)
  obtain ⟨-, hscope, hunlimited, hends⟩ := hcalm m hm
  refine ⟨?_, hscope, hunlimited, hends⟩
  obtain rfl | ⟨hslack, rfl⟩ := hsame
  · exact .inl rfl
  · exact .inr ⟨hslack, rfl⟩

/-- Guarded calls that do the same. -/
theorem guarded {y y' : Run Value} (span : Span) (hsame : y = y')
    (hy : y.Calm Fault.Any (·.Within k')) :
    Settles slack scope k k (safely span y) (safely span y') (·.Within k') := by
  rw [← hsame]
  refine of_calm fun m => ?_
  obtain ⟨hscopes, hunlimited, hends⟩ := hy m
  rw [run_safely]
  cases hrun : y.run m with
  | mk r m₁ =>
      rw [hrun] at hscopes hunlimited hends
      cases r with
      | ok v => exact ⟨hscopes, hunlimited, hends⟩
      | error fault => exact ⟨hscopes, hunlimited, .atom rfl⟩

theorem bindName (name : String) {v : Value} (hv : v.Within k) :
    Settles slack scope k k (modify (·.bind scope (.str name) v))
      (modify (·.bind scope (.str name) v)) fun _ => True := by
  intro m hm
  refine ⟨.inl rfl, ?_, ⟨[], (List.append_nil _).symm, List.not_mem_nil⟩, trivial⟩
  rw [run_modify]
  by_cases hscope : scope < m.scopes.length
  · unfold Machine.ScopeWithin
    rw [m.scope_bind_self hscope]
    exact Key.insert_all hm _ hv
  · intro e he
    simp [Machine.scope, Machine.bind, hscope] at he

end Settles

end Run

open Run (Settles)

/-! ### Names -/

theorem lift_toKey_calm (j : Json) : (Run.lift j.toKey).Calm Fault.Ordinary fun _ => True :=
  .liftFrom ((Value.ofJson j).toKey_ends.imp (fun _ hfault => ⟨fun _ => hfault, hfault⟩) fun _ => id)

section Names

variable {bindings : Scope} (hbindings : ∀ e ∈ bindings, e.2.Within k)
include hbindings

theorem find_calm (name : Json) :
    (find bindings name).Calm Fault.Ordinary fun found => ∀ f ∈ found, f.Within k := by
  unfold find
  split
  · exact .done nofun
  · exact (lift_toKey_calm name).andThen fun key _ => .done fun f hf => Key.lookup?_all hbindings hf

theorem resolve_calm (name : Json) :
    (resolve bindings name).Calm Fault.Ordinary (·.Within k) := by
  refine .andThen (find_calm hbindings name) fun found hfound => ?_
  cases found with
  | some f => exact .done (hfound f rfl)
  | none =>
      refine .andThen (.text (name.writable_shownWithin _)) fun _ _ => ?_
      refine .andThen (.text (writable_sortedNames bindings)) fun _ _ => ?_
      exact .andThen (.step (fun _ => rfl) fun _ => rfl) fun _ _ => .done (.atom rfl)

theorem resolveAll_calm (names : List String) :
    (names.mapM fun name => resolve bindings (.str name)).Calm Fault.Ordinary
      fun fs => ∀ f ∈ fs, f.Within k := by
  induction names with
  | nil => exact .done nofun
  | cons name names ih =>
      rw [List.mapM_cons]
      refine .andThen (resolve_calm hbindings _) fun f hf => ih.andThen fun fs hfs => .done ?_
      exact List.forall_mem_cons.mpr ⟨hf, hfs⟩

end Names

theorem operatorName_calm (symbol arity : Json) :
    (operatorName symbol arity).Calm Fault.Ordinary fun _ => True := by
  have hfind : (findOperator symbol arity).Calm Fault.Ordinary fun _ => True := by
    refine (lift_toKey_calm arity).andThen fun key _ => ?_
    cases operatorsOf key with
    | none => exact .done trivial
    | some table => exact (lift_toKey_calm symbol).andThen fun _ _ => .done trivial
  refine hfind.andThen fun found _ => ?_
  cases found with
  | some name => exact .done trivial
  | none =>
      refine .andThen (.text (symbol.writable_shownWithin _)) fun _ _ => ?_
      refine .andThen (.text (arity.writable_shownWithin _)) fun _ _ => ?_
      exact .andThen (.step (fun _ => rfl) fun _ => rfl) fun _ _ => .done trivial

section Bounded

variable {scope : Nat} (hrt : rt.Bounded n) (hk : n ≤ k)
include hrt hk

theorem Runtime.Bounded.bindings : ∀ e ∈ rt.bindings, e.2.Within k :=
  fun e he => (hrt.binding e he).mono hk

theorem Runtime.Bounded.merged {m : Machine} (hm : m.ScopeWithin scope k) :
    ∀ e ∈ rt.merged (m.scope scope), e.2.Within k :=
  Machine.merged_all (hrt.bindings hk) hm

theorem refer_settles (name : String) :
    Settles slack scope k k (refer rt scope name) (refer rt scope name) (·.Within k) := by
  refine .reading fun m hm => .of_calm ?_
  cases hfound : Key.lookup? (.str name) (rt.merged (m.scope scope)) with
  | some v => exact .done (Key.lookup?_all (hrt.merged hk hm) hfound)
  | none => exact .andThen (.step (fun _ => rfl) fun _ => rfl) fun _ _ => .done (.atom rfl)

theorem callee_settles (callee : Callee) :
    Settles slack scope k k (callee.resolve rt scope) (callee.resolve rt scope) (·.Within k) := by
  cases callee with
  | named name => exact .reading fun m hm => .of_calm (resolve_calm (hrt.merged hk hm) name)
  | operator symbol arity =>
      refine .of_calm (.andThen (operatorName_calm symbol _) fun name _ => ?_)
      exact resolve_calm (hrt.bindings hk) name
  | provided name => exact .of_calm (resolve_calm (hrt.bindings hk) _)

/-- A composition that is written counts for one more level. -/
theorem composeNamed_settles (names : List String) :
    Settles slack scope k (k + 1) (composeNamed rt scope names) (composeNamed rt scope names)
      (·.Within (k + 1)) := by
  refine .reading fun m hm => ?_
  have hall := resolveAll_calm (hrt.merged hk hm) names
  refine .andThen (.of_calm hall) (Nat.le_succ k) fun fs hfs m hm => ?_
  exact ⟨.inl rfl, fun e he => (hm e he).mono (Nat.le_succ k), .refl m, .composition hfs⟩

end Bounded

/-! ### One level -/

namespace Roomy

variable {room room' : Nat} (h : Roomy slack room room')
include h

theorem shown (v : Value) :
    v.shownWithin room = v.shownWithin room' ∨ slack ∧ v.shownWithin room = .error .deepText := by
  obtain rfl | ⟨hslack, hle⟩ := h
  · exact .inl rfl
  · obtain hdeep | hsame := v.shownWithin_of_le hle
    · exact .inr ⟨hslack, hdeep⟩
    · exact .inl hsame.symm

theorem quoted (j : Json) :
    j.quotedWithin room = j.quotedWithin room' ∨ slack ∧ j.quotedWithin room = .error .deepText := by
  obtain rfl | ⟨hslack, hle⟩ := h
  · exact .inl rfl
  · obtain hdeep | hsame := j.quotedWithin_of_le hle
    · exact .inr ⟨hslack, hdeep⟩
    · exact .inl hsame.symm

end Roomy

section Level

variable {scope N room room' : Nat} {ev ev' : Token → Run Value} {c c' : Value → List Value → Run Value}

/-- Evaluation of a token does the same in two ways, up to a number of nested compositions. -/
abbrev Agrees (slack : Prop) (scope n N : Nat) (ev ev' : Token → Run Value) (t : Token) : Prop :=
  ∀ k, n ≤ k → k + t.compositions ≤ N →
    Settles slack scope k (k + t.compositions) (ev t) (ev' t) (t.Yields (k + t.compositions))

/-- Members are evaluated one after the other, each one with what those before it have left. -/
theorem mergeMembers_settles {members : List Token}
    (hev : ∀ t ∈ members, Agrees slack scope n N ev ev' t) (hk : n ≤ k)
    (hN : k + Token.compositionsOfAll members ≤ N) {entries : Scope}
    (hentries : ∀ e ∈ entries, e.2.Within k) :
    Settles slack scope k (k + Token.compositionsOfAll members) (mergeMembers ev entries members)
      (mergeMembers ev' entries members)
      fun all => ∀ e ∈ all, e.2.Within (k + Token.compositionsOfAll members) := by
  induction members generalizing k entries with
  | nil => exact .done hentries
  | cons t ts ih =>
      obtain ⟨ht, hts⟩ := List.forall_mem_cons.mp hev
      rw [Token.compositionsOfAll] at hN ⊢
      rw [← Nat.add_assoc] at hN ⊢
      unfold mergeMembers
      refine .andThen (ht k hk (by omega)) (by omega) fun v hv => ?_
      have hmerge : Settles slack scope (k + t.compositions) (k + t.compositions)
          (Run.marking fun mark => v.merge mark entries) (Run.marking fun mark => v.merge mark entries)
          fun all => ∀ e ∈ all, e.2.Within (k + t.compositions) :=
        .of_calm (.marking fun mark =>
          hv.within.merge (fun e he => (hentries e he).mono (by omega)) mark)
      exact hmerge.andThen (by omega) fun all hall => ih hts (by omega) hN hall

theorem operands_settle {operands : Operands Token}
    (hev : ∀ t ∈ operands.toList, Agrees slack scope n N ev ev' t) (hk : n ≤ k)
    (hN : k + Token.compositionsOfAll operands.toList ≤ N) :
    Settles slack scope k (k + Token.compositionsOfAll operands.toList) (operands.evaluate ev)
      (operands.evaluate ev') fun values =>
        values.argument.Within (k + Token.compositionsOfAll operands.toList) := by
  cases operands with
  | one operand =>
      exact .andThen (List.forall_mem_singleton.mp hev k hk hN) (Nat.le_refl _)
        fun v hv => .done hv.within
  | two left right =>
      obtain ⟨hleft, hright⟩ := List.forall_mem_cons.mp hev
      rw [Operands.toList, Token.compositionsOfAll_pair, ← Nat.add_assoc] at hN ⊢
      refine .andThen (hleft k hk (by omega)) (by omega) fun a ha => ?_
      refine .andThen (List.forall_mem_singleton.mp hright _ (by omega) hN) (Nat.le_refl _)
        fun b hb => .done (.dict ?_)
      simp only [List.forall_mem_cons]
      exact ⟨ha.within.mono (by omega), hb.within, List.forall_mem_nil _⟩

/-- A call of what is found, with what its operands give. -/
theorem operate_settles (hrt : rt.Bounded n) (operands : Operands Token)
    (hev : ∀ t ∈ operands.toList, Agrees slack scope n N ev ev' t)
    (hcall : ∀ j, n ≤ j → j ≤ N → ∀ f v, f.Within j → v.Within j →
      c f [v] = c' f [v] ∧ (c f [v]).Calm Fault.Any (·.Within j))
    (hk : n ≤ k) (hN : k + Token.compositionsOfAll operands.toList ≤ N) (span : Span) (callee : Callee) :
    Settles slack scope k (k + Token.compositionsOfAll operands.toList)
      (operate rt ev c scope span callee operands) (operate rt ev' c' scope span callee operands)
      (·.Within (k + Token.compositionsOfAll operands.toList)) := by
  have hK : n ≤ k + Token.compositionsOfAll operands.toList := Nat.le_add_right_of_le hk
  refine .andThen (operands_settle hev hk hN) (Nat.le_refl _) fun values hvalues => ?_
  refine .andThen (callee_settles hrt hK callee) (Nat.le_refl _) fun f hf => ?_
  obtain ⟨hsame, hcalm⟩ := hcall _ hK hN f values.argument hf hvalues
  exact .guarded span hsame hcalm

/-- The text of a name. That of a path does not nest. -/
theorem name_settles {path : Token} {v : Value} (hv : path.Yields k v)
    (hroom : path.isPath = true ∨ Roomy slack room room') :
    Settles slack scope k k (Run.lift (v.shownWithin room)) (Run.lift (v.shownWithin room'))
      fun _ => True := by
  refine .text (v.writable_shownWithin room) ?_
  obtain hpath | hroom := hroom
  · obtain ⟨s, rfl⟩ := hv.text hpath
    exact .inl rfl
  · exact hroom.shown v

/-- What one level of evaluation does if what is below it and its calls do the same. -/
theorem evaluateBy_settles (hrt : rt.Bounded n) {t : Token} (ht : t.isFunction = false)
    (hroom : t.namesPlainly = true ∨ Roomy slack room room') (hk : n ≤ k) (hN : k + t.compositions ≤ N)
    (hev : ∀ part ∈ t.parts, Agrees slack scope n N ev ev' part)
    (hcall : t.isCall = true → ∀ j, n ≤ j → j ≤ N → ∀ f v, f.Within j → v.Within j →
      c f [v] = c' f [v] ∧ (c f [v]).Calm Fault.Any (·.Within j)) :
    Settles slack scope k (k + t.compositions) (evaluateBy rt room ev c scope t)
      (evaluateBy rt room' ev' c' scope t) (·.Within (k + t.compositions)) := by
  cases t with
  | program span members =>
      refine .andThen (mergeMembers_settles hev hk hN nofun) (Nat.le_refl _) fun all hall => ?_
      exact .done (.dict hall)
  | assignment span path value =>
      rw [Token.compositions] at hN ⊢
      rw [← Nat.add_assoc] at hN ⊢
      refine .andThen (hev path (.head _) k hk (by omega)) (by omega) fun v hv => ?_
      refine .andThen (name_settles hv hroom) (by omega) fun name _ => ?_
      refine .andThen (hev value (.tail _ (.head _)) _ (by omega) hN) (Nat.le_refl _) fun v hv => ?_
      refine .andThen (.bindName name hv.within) (Nat.le_refl _) fun _ _ => .done (.dict ?_)
      exact List.forall_mem_singleton.mpr hv.within
  | reference span path =>
      refine .andThen (hev path (.head _) k hk hN) (Nat.le_refl _) fun v hv => ?_
      refine .andThen (name_settles hv hroom) (Nat.le_refl _) fun name _ => ?_
      exact refer_settles hrt (Nat.le_add_right_of_le hk) name
  | path span segments => exact .done (.atom rfl)
  | function span parameter body => cases ht
  | composition span names => exact composeNamed_settles hrt hk names
  | literal span value => exact .done (Value.plain_ofJson value).within
  | object span content => exact (hev content (.head _) k hk hN).imp fun v hv => hv.within
  | unknown span kind raw =>
      have hroom : Roomy slack room room' := hroom.resolve_left nofun
      refine .andThen (.text ((Json.object raw).writable_quotedWithin room) (hroom.quoted _))
        (Nat.le_refl _) fun _ _ => .done (.atom rfl)
  | application span name argument =>
      exact operate_settles hrt (.one argument) hev (hcall rfl) hk hN span _
  | unary span operator operand =>
      exact operate_settles hrt (.one operand) hev (hcall rfl) hk hN span _
  | conversion span operand =>
      exact operate_settles hrt (.one operand) hev (hcall rfl) hk hN span _
  | binary span operator left right =>
      rw [Token.compositions, ← Token.compositionsOfAll_pair] at hN ⊢
      exact operate_settles hrt (.two left right) hev (hcall rfl) hk hN span _

end Level

/-- A token that makes a call has an operand, so that a level is left for the call itself. -/
theorem Token.exists_mem_parts_of_isCall {t : Token} (h : t.isCall = true) : ∃ part, part ∈ t.parts := by
  cases t with
  | application | binary | unary | conversion => exact ⟨_, .head _⟩
  | _ => cases h

/-- Evaluation at a depth that covers both budgets. -/
theorem evaluate_settles (hrt : rt.Bounded n) (slack : Prop) (spare : Nat) {scope N levels depth : Nat}
    {t : Token}
    (ht : t.functionFree = true) (hlevels : t.height ≤ levels) (hdepth : levels + N ≤ depth)
    (hspare : t.throughout Token.namesPlainly = true ∨ Roomy slack depth (spare + levels)) :
    Agrees slack scope n N (evaluate rt depth · scope) (evaluateApart rt spare N levels · scope) t := by
  induction levels generalizing t depth with
  | zero => exact absurd t.height_pos (by omega)
  | succ levels ih =>
      intro k hk hN
      obtain ⟨d, rfl⟩ : ∃ d, depth = d + 1 := ⟨depth - 1, by omega⟩
      have hparts : ∀ part ∈ t.parts, part.height ≤ levels := fun part hpart =>
        Token.height_le_succ_iff.mp hlevels part (Token.mem_children_of_mem_parts hpart)
      obtain ⟨hfunction, hfree⟩ := Token.throughout_iff.mp ht
      have hlower : Roomy slack (d + 1) (spare + (levels + 1)) → Roomy slack d (spare + levels) :=
        Or.imp (by omega) (And.imp_right (by omega))
      have hroom : t.namesPlainly = true ∨ Roomy slack (writingRoom d) (writingRoom (spare + levels)) := by
        refine hspare.imp (fun h => (Token.throughout_iff.mp h).1) fun h => ?_
        exact (hlower h).imp (congrArg writingRoom) (And.imp_right (Nat.mul_le_mul_left _))
      have hsettles : Settles slack scope k (k + t.compositions) (evaluate rt (d + 1) t scope)
          (evaluateApart rt spare N (levels + 1) t scope) (·.Within (k + t.compositions)) := by
        refine evaluateBy_settles hrt (Bool.not_eq_true' _ ▸ hfunction) hroom hk hN
          (fun part hpart => ?_) fun hcall j hj hjN f v hf hv => ?_
        · refine ih (hfree part hpart) (hparts part hpart) (by omega) ?_
          exact hspare.imp (fun h => (Token.throughout_iff.mp h).2 part hpart) hlower
        · obtain ⟨part, hpart⟩ := Token.exists_mem_parts_of_isCall hcall
          have hlevel : 0 < levels := Nat.lt_of_lt_of_le part.height_pos (hparts part hpart)
          exact ⟨call_eq_callApart hrt.direct (hf.mono hjN) (by omega) [v],
            call_calm hrt hj hf (by omega) hv⟩
      cases t with
      | path span segments => exact .done ⟨.atom rfl, fun _ => ⟨_, rfl⟩⟩
      | _ => exact hsettles.imp fun v hv => ⟨hv, nofun⟩

theorem Runtime.bounded_wrapping (n : Nat) : Runtime.wrapping.Bounded n where
  binding := List.forall_mem_nil _
  direct name v := by
    by_cases hname : name = "g" <;> simp [Runtime.wrapping, hname, Response.Direct]
  gives name v k _ hv := by
    by_cases hname : name = "g"
    · simp [Runtime.wrapping, hname, Response.Gives]
    · simp only [Runtime.wrapping, hname, if_false, Response.Gives]
      exact .list (List.forall_mem_singleton.mpr hv)

/-- A runtime with a function that makes a composition of what it is called with, and one that gives it
back. -/
def Runtime.composing : Runtime where
  bound := [("wrap", .foreign (.host "wrap")), ("f", .foreign (.host "f"))]
  host name v := if name = "wrap" then .ok (.composition ["x"] [v]) else .ok v
  bound_nodup := by decide
  bound_bodiesIn _ := by
    simp only [List.forall_mem_cons]
    exact ⟨.atom rfl, .atom rfl, List.forall_mem_nil _⟩
  host_bodiesIn _ name _ hv := by
    split
    · exact .composition _ (List.forall_mem_singleton.mpr hv)
    · exact hv

end ArrayExpr
