import ArrayExpr.Proofs.Causes
import ArrayExpr.Proofs.Evaluation

/-!
Orderly tokens. Only calls are guarded; finding names, turning data into keys, writing texts and merging
the members of programs happen outside of every guard. In an orderly token every key can be made and
every member merged, so its evaluation goes on to the end, whatever the functions do that it calls. It
makes the calls of its tree on the way, operands from left to right and what is called with them after
them: no value that is computed makes a call happen or keeps it from happening.

Two things alone can break the evaluation off: the nesting limit, and a text that cannot be written. The
calls made until then are the first ones (`evaluate_visits`).
-/

namespace ArrayExpr

/-! ### Call sites -/

/-- What a name is bound to among bindings. Nothing is bound to the missing name, or to what can be no
key. -/
def Json.boundIn (bindings : Scope) : Json → Option Value
  | .null => none
  | name => name.toKey.toOption.bind fun key => key.lookup? bindings

def Json.operatorIn (arity : Int) : Json → Json
  | .str symbol =>
    (((operatorsOf (.int arity)).bind fun table => namedBy? table (.str symbol)).map Json.str).getD .null
  | _ => .null

namespace Callee

def name : Callee → Json
  | .named name => name
  | .operator symbol arity => symbol.operatorIn arity
  | .provided name => .str name

/-- What the runtime binds to the name by which a function is looked for. -/
def boundIn (rt : Runtime) (c : Callee) : Option Value :=
  c.name.boundIn rt.bindings

/-- Whether looking for a function asks only for keys that can be made. -/
def isKey : Callee → Bool
  | .named name | .operator name _ => name.isKey
  | .provided _ => true

/-- What is called: what the runtime binds. Where it binds nothing, an application calls what the program
binds, and every other token lets its operand through. -/
def Finds (rt : Runtime) (c : Callee) (f : Value) : Prop :=
  match c with
  | .named name => ∀ g, name.boundIn rt.bindings = some g → f = g
  | c => f = (c.boundIn rt).getD (.foreign .passThrough)

end Callee

namespace Token

def callee? : Token → Option Callee
  | .application _ name _ => some (.named name)
  | .binary _ operator _ _ => some (.operator operator 2)
  | .unary _ operator _ => some (.operator operator 1)
  | .conversion .. => some (.provided "Tensor")
  | _ => none

mutual

/-- The calls of a token, function bodies left aside: operands from left to right, and what is called
with them after them. -/
def callSites : Token → List Callee
  | .program _ members => callSitesOfAll members
  | .assignment _ name value => name.callSites ++ value.callSites
  | .reference _ t | .object _ t => t.callSites
  | .application _ name argument => argument.callSites ++ [.named name]
  | .binary _ operator left right =>
    left.callSites ++ (right.callSites ++ [.operator operator 2])
  | .unary _ operator operand => operand.callSites ++ [.operator operator 1]
  | .conversion _ operand => operand.callSites ++ [.provided "Tensor"]
  | .path .. | .function .. | .composition .. | .literal .. | .unknown .. => []

def callSitesOfAll : List Token → List Callee
  | [] => []
  | t :: ts => t.callSites ++ callSitesOfAll ts

end

theorem callSitesOfAll_eq (ts : List Token) : callSitesOfAll ts = ts.flatMap callSites := by
  induction ts with
  | nil => rfl
  | cons t ts ih => rw [callSitesOfAll, ih, List.flatMap_cons]

/-- A token makes its own call after those of its parts. -/
theorem callSites_eq (t : Token) : t.callSites = t.parts.flatMap callSites ++ t.callee?.toList := by
  cases t <;> simp [callSites, parts, children, callee?, callSitesOfAll_eq]

/-! ### Orderly tokens -/

/-- Whether a token gives a mapping: assignments and programs do, wrapped or not. -/
def givesEntries : Token → Bool
  | .program .. | .assignment .. => true
  | .object _ content => content.givesEntries
  | _ => false

def isPath : Token → Bool
  | .path .. => true
  | _ => false

mutual

/-- Whether, function bodies left aside, all members of programs give mappings and all operators and
names of functions can be keys. -/
def orderly : Token → Bool
  | .program _ members => orderlyMembers members
  | .assignment _ name value => name.orderly && value.orderly
  | .reference _ t | .conversion _ t | .object _ t => t.orderly
  | .application _ name argument => name.isKey && argument.orderly
  | .binary _ operator left right => operator.isKey && left.orderly && right.orderly
  | .unary _ operator operand => operator.isKey && operand.orderly
  | .path .. | .function .. | .composition .. | .literal .. | .unknown .. => true

def orderlyMembers : List Token → Bool
  | [] => true
  | t :: ts => t.givesEntries && t.orderly && orderlyMembers ts

end

theorem orderlyMembers_iff {ts : List Token} :
    orderlyMembers ts = true ↔ ∀ t ∈ ts, t.givesEntries = true ∧ t.orderly = true := by
  induction ts with
  | nil => simp [orderlyMembers]
  | cons t ts ih => simp [orderlyMembers, ih, and_assoc]

theorem orderly_of_mem_parts {t part : Token} (hpart : part ∈ t.parts) (h : t.orderly = true) :
    part.orderly = true := by
  cases t with
  | program span members => exact (orderlyMembers_iff.mp h part hpart).2
  | assignment | binary =>
      simp only [orderly, Bool.and_eq_true] at h
      rcases List.mem_cons.mp hpart with rfl | hright
      · simp [h]
      · exact List.mem_singleton.mp hright ▸ h.2
  | application | unary =>
      simp only [orderly, Bool.and_eq_true] at h
      exact List.mem_singleton.mp hpart ▸ h.2
  | reference | conversion | object => exact List.mem_singleton.mp hpart ▸ h
  | path | function | composition | literal | unknown => cases hpart

theorem isKey_of_orderly {t : Token} (h : t.orderly = true) {c : Callee} (hc : t.callee? = some c) :
    c.isKey = true := by
  cases t with
  | application | unary =>
      cases hc
      simp only [orderly, Bool.and_eq_true] at h
      exact h.1
  | binary =>
      cases hc
      simp only [orderly, Bool.and_eq_true] at h
      exact h.1.1
  | conversion =>
      cases hc
      rfl
  | _ => cases hc

/-- Whether whatever a token writes by itself can be written: it names by paths what it assigns and
refers to, by texts the operators it uses, and applies and composes functions that the runtime binds. -/
def writesPlainly (rt : Runtime) : Token → Bool
  | .assignment _ name _ | .reference _ name => name.isPath
  | .application _ name _ => (name.boundIn rt.bindings).isSome
  | .composition _ names => names.all fun name => rt.binds (.str name)
  | .binary _ operator _ _ | .unary _ operator _ =>
    match operator with
    | .str _ => true
    | _ => false
  | .unknown .. => false
  | _ => true

/-- What may break the evaluation of an orderly token off: nesting deeper than the limit, or a text,
if not all texts in it are sure to be written. -/
def Stops (rt : Runtime) (t : Token) (depth : Nat) (fault : Fault) : Prop :=
  fault = .tooDeep ∧ depth < t.height ∨
    fault.isUnwritable = true ∧ t.throughout (writesPlainly rt) = false

/-- A part that falls short of its depth leaves the whole short of its own. -/
theorem Stops.of_part {rt : Runtime} {t part : Token} {depth : Nat} {fault : Fault}
    (hpart : part ∈ t.parts) (h : part.Stops rt depth fault) : t.Stops rt (depth + 1) fault := by
  obtain ⟨hfault, hshort⟩ | ⟨hfault, htext⟩ := h
  · refine .inl ⟨hfault, Nat.lt_of_not_le fun hdeep => ?_⟩
    have hheight := height_le_succ_iff.mp hdeep part (mem_children_of_mem_parts hpart)
    exact Nat.not_lt.mpr hheight hshort
  · refine .inr ⟨hfault, Bool.eq_false_iff.mpr fun hplain => ?_⟩
    have hwritten := (throughout_iff.mp hplain).2 part hpart
    rw [htext] at hwritten
    cases hwritten

/-- A text of the token itself that cannot be written. -/
theorem Stops.of_text {rt : Runtime} {t : Token} {depth : Nat} {fault : Fault}
    (hfault : fault.isUnwritable = true) (ht : t.writesPlainly rt = false) : t.Stops rt depth fault := by
  refine .inr ⟨hfault, Bool.eq_false_iff.mpr fun hplain => ?_⟩
  have hself := (throughout_iff.mp hplain).1
  rw [ht] at hself
  cases hself

/-- What the value of a token is by its kind. -/
structure Gives (t : Token) (v : Value) : Prop where
  entries : t.givesEntries = true → ∃ news, v = .dict news
  text : t.isPath = true → ∃ s, v = .str s

end Token

/-! ### Calls stay on record -/

/-- The contract of calls that stay on record. -/
def recording : Contract :=
  .ofChange fun _ a b => a.machine.calls <+: b.machine.calls

theorem recording_admits (rt : Runtime) : recording.Admits rt := by
  have hallows : Contract.Allows recording.token recording.change :=
    { refl := fun _ _ => List.prefix_rfl
      trans := fun h h' => h.trans h'
      widen := fun h => h
      opened := fun h => h
      bound := fun _ _ _ _ => List.prefix_rfl
      marked := fun _ _ => List.prefix_rfl
      warned := fun _ _ _ => List.prefix_rfl
      raised := fun _ _ => List.prefix_rfl
      caught := fun _ _ _ _ _ => List.prefix_rfl }
  exact Contract.ofChange_admits hallows (fun _ _ => List.prefix_append _ _)
    (fun _ _ _ => List.prefix_rfl) (fun _ _ => List.prefix_rfl) rt

namespace Runtime

variable (rt : Runtime)

/-- What a call may add to the calls on record: a foreign function stands first, unless it is the one
that lets its argument through, and what it calls in turn comes after it. -/
structure Adds (f : Value) (added : List Foreign) : Prop where
  called : ∃ depth argument m,
    ((call rt (depth + 1) f [argument]).run m).2.calls = m.calls ++ added
  first : ∀ g, f = .foreign g → g ≠ .passThrough → added.head? = some g

/-- What calls made one after the other may add to the calls on record. -/
inductive Record : List Callee → List Foreign → Prop where
  | nil : Record [] []
  | cons {c : Callee} {f : Value} {sites : List Callee} {added more : List Foreign} : c.Finds rt f →
      rt.Adds f added → Record sites more → Record (c :: sites) (added ++ more)

end Runtime

section Calls

variable (rt : Runtime)

theorem calls_prefix_call (depth : Nat) (f : Value) (arguments : List Value) (m : Machine) :
    m.calls <+: ((call rt depth f arguments).run m).2.calls := by
  have hkeeps := (Contract.keeps (recording_admits rt) depth).2 m f arguments trivial
    fun _ _ => trivial
  exact (hkeeps fun _ _ _ _ => trivial).1

theorem calls_prefix_respond (depth : Nat) (source : Foreign) (r : Response) (m : Machine) :
    m.calls <+: ((respond (call rt depth) source r).run m).2.calls := by
  induction r generalizing m with
  | ok v => exact List.prefix_rfl
  | error fault => exact List.prefix_rfl
  | call f arguments handles next ih =>
      have hcall := calls_prefix_call rt depth f arguments m
      rw [respond, Run.run_bind, Run.run_attempt]
      generalize (call rt depth f arguments).run m = ran at hcall ⊢
      obtain ⟨r, m'⟩ := ran
      cases r with
      | ok v => exact hcall.trans (ih (.ok v) m')
      | error fault =>
          by_cases hhandles : handles fault = true
          · simp only [hhandles, if_true]
            exact hcall.trans (ih (.error fault) m')
          · simp only [hhandles]
            exact hcall
  | review next ih => exact ih m.calls m

theorem calls_callForeign_capability (call : Value → List Value → Run Value) (c : Capability)
    (v : Value) (m : Machine) :
    ((callForeign rt call (.capability c) [v]).run m).2.calls = m.calls ++ [.capability c] := by
  simp only [callForeign, Run.run_bind, Run.run_modify]
  cases c.run v with
  | ok result => rfl
  | error fault => rfl

theorem run_callForeign_host (call : Value → List Value → Run Value) (name : String) (v : Value)
    (m : Machine) :
    (callForeign rt call (.host name) [v]).run m =
      (respond call (.host name) (rt.host name v)).run (m.noteCall (.host name)) := by
  simp only [callForeign, Run.run_bind, Run.run_modify]

/-- A foreign function is on record before whatever it calls. -/
theorem noteCall_prefix_callForeign (depth : Nat) {g : Foreign} (hg : g ≠ .passThrough) (v : Value)
    (m : Machine) :
    (m.noteCall g).calls <+: ((callForeign rt (call rt depth) g [v]).run m).2.calls := by
  cases g with
  | passThrough => exact absurd rfl hg
  | capability c =>
      rw [calls_callForeign_capability]
      exact List.prefix_rfl
  | host name =>
      rw [run_callForeign_host]
      exact calls_prefix_respond rt depth _ _ _

theorem exists_adds (depth : Nat) (f argument : Value) (m : Machine) :
    ∃ added, rt.Adds f added ∧
      ((call rt (depth + 1) f [argument]).run m).2.calls = m.calls ++ added := by
  obtain ⟨added, hadded⟩ := calls_prefix_call rt (depth + 1) f [argument] m
  refine ⟨added, ⟨⟨depth, argument, m, hadded.symm⟩, ?_⟩, hadded.symm⟩
  rintro g rfl hg
  obtain ⟨nested, hnested⟩ := noteCall_prefix_callForeign rt depth hg argument m
  rw [call, callBy] at hadded
  have hall : m.calls ++ added = m.calls ++ g :: nested := by
    rw [hadded, ← hnested, Machine.noteCall, List.append_assoc]
    rfl
  rw [List.append_cancel_left hall]
  rfl

end Calls

variable {rt : Runtime}

theorem Runtime.Record.append {sites more : List Callee} {added added' : List Foreign}
    (h : rt.Record sites added) (h' : rt.Record more added') :
    rt.Record (sites ++ more) (added ++ added') := by
  induction h with
  | nil => exact h'
  | cons hfinds hadds _ ih =>
      rw [List.append_assoc]
      exact .cons hfinds hadds ih

/-! ### Computations that make calls in order -/

namespace Run

variable {α β : Type}

/-- How a computation ends that makes calls in order: it gives a value with `Q` after all of them, or
one of the faults `stops` after some. -/
inductive Ends (rt : Runtime) (sites : List Callee) (stops : Fault → Prop) (Q : α → Prop)
    (m : Machine) : Except Fault α × Machine → Prop where
  | value {a : α} {m' : Machine} {added : List Foreign} : Q a → m'.calls = m.calls ++ added →
      rt.Record sites added → Ends rt sites stops Q m (.ok a, m')
  | stopped {fault : Fault} {m' : Machine} {made : List Callee} {added : List Foreign} :
      stops fault → made <+: sites → m'.calls = m.calls ++ added → rt.Record made added →
      Ends rt sites stops Q m (.error fault, m')

theorem Ends.ok_or_stops {rt : Runtime} {sites : List Callee} {stops : Fault → Prop} {Q : α → Prop}
    {m : Machine} {r : Except Fault α × Machine} (h : Ends rt sites stops Q m r) :
    (∃ a, r.1 = .ok a ∧ Q a) ∨ ∃ fault, r.1 = .error fault ∧ stops fault := by
  cases h with
  | value ha => exact .inl ⟨_, rfl, ha⟩
  | stopped hstops => exact .inr ⟨_, rfl, hstops⟩

/-- A computation that makes calls in order. -/
def Visits (rt : Runtime) (x : Run α) (sites : List Callee) (stops : Fault → Prop) (Q : α → Prop) :
    Prop :=
  ∀ m, Ends rt sites stops Q m (x.run m)

namespace Visits

variable {x : Run α} {sites sites' : List Callee} {stops : Fault → Prop} {Q : α → Prop}
  {R : β → Prop}

theorem done {a : α} (h : Q a) : (pure a : Run α).Visits rt [] stops Q :=
  fun _ => .value h (List.append_nil _).symm .nil

theorem raise (source : Option Foreign) {fault : Fault} (h : stops fault) :
    (Run.raise source fault : Run α).Visits rt sites stops Q :=
  fun _ => .stopped h List.nil_prefix (List.append_nil _).symm .nil

theorem lift {r : Except Fault α} (h : ∀ fault, r = .error fault → stops fault) :
    (Run.lift r).Visits rt [] stops fun a => r = .ok a := by
  cases r with
  | ok a => exact done rfl
  | error fault => exact raise none (h fault rfl)

theorem step {f : Machine → Machine} (hf : ∀ m, (f m).calls = m.calls) :
    (modify f : Run PUnit).Visits rt [] stops fun _ => True :=
  fun m => .value trivial ((hf m).trans (List.append_nil _).symm) .nil

theorem reading {f : Machine → Run β} (hf : ∀ m, (f m).Visits rt sites stops R) :
    (get >>= f).Visits rt sites stops R :=
  fun m => hf m m

theorem imp {stops' : Fault → Prop} {Q' : α → Prop} (hx : x.Visits rt sites stops Q)
    (hstops : ∀ fault, stops fault → stops' fault) (hQ : ∀ a, Q a → Q' a) :
    x.Visits rt sites stops' Q' := by
  intro m
  have hm := hx m
  generalize x.run m = ran at hm ⊢
  cases hm with
  | value ha hcalls hrecord => exact .value (hQ _ ha) hcalls hrecord
  | stopped hfault hmade hcalls hrecord => exact .stopped (hstops _ hfault) hmade hcalls hrecord

/-- The second part of a computation may use that the first one has given it its value. -/
theorem andThen {f : α → Run β} (hx : x.Visits rt sites stops Q)
    (hf : ∀ a m m', x.run m = (.ok a, m') → Q a → (f a).Visits rt sites' stops R) :
    (x >>= f).Visits rt (sites ++ sites') stops R := by
  intro m
  have hfirst := hx m
  rw [run_bind]
  generalize hrun : x.run m = ran at hfirst ⊢
  cases hfirst with
  | stopped hfault hmade hcalls hrecord =>
      exact .stopped hfault (hmade.trans (List.prefix_append sites sites')) hcalls hrecord
  | @value a m₁ added ha hcalls hrecord =>
      have hsecond := hf a m m₁ hrun ha m₁
      dsimp only
      generalize (f a).run m₁ = ran₂ at hsecond ⊢
      cases hsecond with
      | value hb hcalls₂ hrecord₂ =>
          refine .value hb ?_ (hrecord.append hrecord₂)
          rw [hcalls₂, hcalls, List.append_assoc]
      | stopped hfault hmade hcalls₂ hrecord₂ =>
          refine .stopped hfault ((List.prefix_append_right_inj sites).mpr hmade) ?_
            (hrecord.append hrecord₂)
          rw [hcalls₂, hcalls, List.append_assoc]

theorem thenQuiet {f : α → Run β} (hx : x.Visits rt sites stops Q)
    (hf : ∀ a, Q a → (f a).Visits rt [] stops R) : (x >>= f).Visits rt sites stops R := by
  have hall := hx.andThen fun a _ _ _ ha => hf a ha
  rwa [List.append_nil] at hall

theorem afterQuiet {f : α → Run β} (hx : x.Visits rt [] stops Q)
    (hf : ∀ a, Q a → (f a).Visits rt sites stops R) : (x >>= f).Visits rt sites stops R :=
  hx.andThen fun a _ _ _ ha => hf a ha

/-- A guarded call is made, whatever comes of it. -/
theorem guarded (depth : Nat) (span : Span) {c : Callee} {f : Value} (hf : c.Finds rt f)
    (argument : Value) :
    (safely span (call rt (depth + 1) f [argument])).Visits rt [c] stops fun _ => True := by
  intro m
  obtain ⟨added, hadds, hcalls⟩ := exists_adds rt depth f argument m
  have hrecord : rt.Record [c] added := by simpa using Runtime.Record.cons hf hadds .nil
  rw [safely, run_tryCatch]
  generalize (call rt (depth + 1) f [argument]).run m = ran at hcalls ⊢
  obtain ⟨r, m'⟩ := ran
  cases r with
  | ok v => exact .value trivial hcalls hrecord
  | error fault => exact .value trivial hcalls hrecord

end Visits

end Run

/-! ### Finding what is called -/

open Run (Visits)

variable {stops : Fault → Prop}

theorem Json.find_eq_pure {name : Json} (hname : name.isKey = true) (bindings : Scope) :
    find bindings name = pure (name.boundIn bindings) := by
  cases name with
  | list | object => cases hname
  | _ => rfl

theorem Json.isKey_operatorIn (symbol : Json) (arity : Int) :
    (symbol.operatorIn arity).isKey = true := by
  cases symbol with
  | str symbol =>
      rw [operatorIn]
      cases (operatorsOf (.int arity)).bind fun table => namedBy? table (.str symbol) <;> rfl
  | _ => rfl

theorem boundIn_merged {name : Json} {f : Value} (h : name.boundIn rt.bindings = some f) (s : Scope) :
    name.boundIn (rt.merged s) = some f := by
  have hlookup : ∀ key : Key, key.lookup? rt.bindings = some f →
      key.lookup? (rt.merged s) = some f := by
    intro key hkey
    rw [Runtime.lookup?_merged, hkey, Option.some_or]
  cases name with
  | null | list | object => cases h
  | _ => exact hlookup _ h

theorem sortedNames_bindings (rt : Runtime) : ∃ names, sortedNames rt.bindings = .ok names := by
  refine ⟨_, if_pos (List.all_eq_true.mpr fun e he => ?_)⟩
  obtain ⟨name, hname⟩ := Runtime.exists_name_of_mem_bindings he
  rw [hname]
  rfl

theorem resolve_visits (bindings : Scope) {name : Json} (hname : name.isKey = true)
    (htext : name.boundIn bindings = none → ∀ fault, name.shownWithin textLimit = .error fault ∨
      sortedNames bindings = .error fault → stops fault) :
    (resolve bindings name).Visits rt [] stops fun f =>
      f = (name.boundIn bindings).getD (.foreign .passThrough) := by
  unfold resolve
  rw [Json.find_eq_pure hname, pure_bind]
  cases hfound : name.boundIn bindings with
  | some f => exact .done rfl
  | none =>
      refine .afterQuiet (.lift fun fault h => htext hfound fault (.inl h)) fun text _ => ?_
      refine .afterQuiet (.lift fun fault h => htext hfound fault (.inr h)) fun names _ => ?_
      exact .afterQuiet (.step fun _ => rfl) fun _ _ => .done rfl

theorem operatorName_visits {symbol : Json} (hsymbol : symbol.isKey = true) (arity : Int)
    (htext : ∀ fault, symbol.shownWithin textLimit = .error fault ∨
      (Json.int arity).shownWithin textLimit = .error fault → stops fault) :
    (operatorName symbol (.int arity)).Visits rt [] stops fun name =>
      name = symbol.operatorIn arity := by
  have hfind : ∃ found : Option String, findOperator symbol (.int arity) = pure found ∧
      symbol.operatorIn arity = (found.map Json.str).getD .null := by
    have harity : Run.lift (Json.int arity).toKey = pure (.int arity) := rfl
    rw [findOperator, harity, pure_bind]
    cases htable : operatorsOf (.int arity) with
    | none =>
        refine ⟨none, rfl, ?_⟩
        cases symbol <;> simp [Json.operatorIn, htable]
    | some table =>
        cases symbol with
        | list | object => cases hsymbol
        | str symbol => exact ⟨namedBy? table (.str symbol), rfl, by simp [Json.operatorIn, htable]⟩
        | _ => exact ⟨none, rfl, rfl⟩
  obtain ⟨found, hfound, hname⟩ := hfind
  rw [operatorName, hfound, pure_bind, hname]
  cases found with
  | some name => exact .done rfl
  | none =>
      refine .afterQuiet (.lift fun fault h => htext fault (.inl h)) fun _ _ => ?_
      refine .afterQuiet (.lift fun fault h => htext fault (.inr h)) fun _ _ => ?_
      exact .afterQuiet (.step fun _ => rfl) fun _ _ => .done rfl

/-- The name behind an operator is looked for in the runtime, which can always be warned about. -/
theorem resolve_operator_visits (symbol : Json) (arity : Int) :
    (resolve rt.bindings (symbol.operatorIn arity)).Visits rt [] stops
      ((Callee.operator symbol arity).Finds rt) := by
  obtain ⟨names, hnames⟩ := sortedNames_bindings rt
  refine resolve_visits rt.bindings (symbol.isKey_operatorIn arity) fun _ fault h => ?_
  obtain htext | hlist := h
  · have hwritten : ∃ text, (symbol.operatorIn arity).shownWithin textLimit = .ok text := by
      unfold Json.operatorIn
      split
      · cases (operatorsOf (.int arity)).bind fun table => namedBy? table (.str _) <;> exact ⟨_, rfl⟩
      · exact ⟨_, rfl⟩
    obtain ⟨text, hwritten⟩ := hwritten
    cases htext.symm.trans hwritten
  · cases hlist.symm.trans hnames

/-- What a token calls is found, unless a text of its own cannot be written. -/
theorem callee_visits {t : Token} {c : Callee} (hc : t.callee? = some c) (hkey : c.isKey = true)
    (scope : Nat)
    (htext : ∀ fault, fault.isUnwritable = true → t.writesPlainly rt = false → stops fault) :
    (c.resolve rt scope).Visits rt [] stops (c.Finds rt) := by
  cases c with
  | named name =>
      refine .reading fun m => ?_
      refine (resolve_visits _ hkey fun hnone fault h => ?_).imp (fun _ h => h) fun f hf => ?_
      · have hplain : t.writesPlainly rt = false := by
          cases t with
          | application =>
              cases hc
              cases hbound : name.boundIn rt.bindings with
              | none => rw [Token.writesPlainly, hbound]; rfl
              | some f => cases hnone.symm.trans (boundIn_merged hbound (m.scope scope))
          | _ => cases hc
        refine htext fault ?_ hplain
        obtain h | h := h
        · exact Json.writable_shownWithin _ _ fault h
        · exact writable_sortedNames _ fault h
      · intro g hg
        rw [hf, boundIn_merged hg]
        rfl
  | operator symbol arity =>
      have hplain : (∀ s, symbol ≠ .str s) → t.writesPlainly rt = false := by
        intro hsymbol
        cases t with
        | binary | unary =>
            cases hc
            cases symbol with
            | str s => exact absurd rfl (hsymbol s)
            | _ => rfl
        | _ => cases hc
      have harity : ∃ text, (Json.int arity).shownWithin textLimit = .ok text := by
        cases t with
        | binary | unary =>
            cases hc
            exact ⟨_, rfl⟩
        | _ => cases hc
      obtain ⟨text, harity⟩ := harity
      refine .afterQuiet (operatorName_visits hkey arity fun fault h => ?_) ?_
      · obtain h | h := h
        · refine htext fault (Json.writable_shownWithin _ _ fault h) (hplain ?_)
          rintro s rfl
          cases h
        · cases h.symm.trans harity
      · rintro name rfl
        exact resolve_operator_visits symbol arity
  | provided name =>
      obtain ⟨names, hnames⟩ := sortedNames_bindings rt
      refine resolve_visits rt.bindings rfl fun _ fault h => ?_
      obtain h | h := h
      · cases h
      · cases h.symm.trans hnames

theorem resolveAll_visits (bindings : Scope) (names : List String)
    (htext : ∀ name ∈ names, Key.lookup? (.str name) bindings = none → ∀ fault,
      sortedNames bindings = .error fault → stops fault) :
    (names.mapM fun name => resolve bindings (.str name)).Visits rt [] stops fun _ => True := by
  induction names with
  | nil => exact .done trivial
  | cons name names ih =>
      obtain ⟨hname, hrest⟩ := List.forall_mem_cons.mp htext
      rw [List.mapM_cons]
      refine .afterQuiet (resolve_visits bindings rfl fun hnone fault h => ?_) fun f _ => ?_
      · exact hname hnone fault (h.resolve_left (by rintro ⟨⟩))
      · exact .afterQuiet (ih hrest) fun fs _ => .done trivial

theorem composeNamed_visits {t : Token} {span : Span} {names : List String}
    (ht : t = .composition span names) (scope : Nat)
    (htext : ∀ fault, fault.isUnwritable = true → t.writesPlainly rt = false → stops fault) :
    (composeNamed rt scope names).Visits rt [] stops fun v => ∃ fs, v = .composition names fs := by
  subst ht
  refine .reading fun m => .afterQuiet (resolveAll_visits _ names ?_) fun fs _ => .done ⟨fs, rfl⟩
  intro name hname hnone fault h
  refine htext fault (writable_sortedNames _ fault h) ?_
  have hfree : rt.binds (.str name) = false := by
    rw [Runtime.lookup?_merged, Option.or_eq_none_iff] at hnone
    rw [Runtime.binds, hnone.1]
    rfl
  exact List.all_eq_false.mpr ⟨name, hname, by simp [hfree]⟩

theorem refer_visits (scope : Nat) (name : String) :
    (refer rt scope name).Visits rt [] stops fun _ => True := by
  refine .reading fun m => ?_
  split
  · exact .done trivial
  · exact .afterQuiet (.step fun _ => rfl) fun _ _ => .done trivial

/-! ### Evaluation -/

section Evaluation

variable {depth scope : Nat}

theorem operands_visit (operands : Operands Token)
    (hoperands : ∀ t ∈ operands.toList,
      (evaluate rt depth t scope).Visits rt t.callSites stops t.Gives) :
    (operands.evaluate (evaluate rt depth · scope)).Visits rt
      (operands.toList.flatMap Token.callSites) stops fun _ => ∃ below, depth = below + 1 := by
  have hdepth : ∀ {t v m m'}, (evaluate rt depth t scope).run m = (.ok v, m') →
      ∃ below, depth = below + 1 := by
    intro t v m m' hrun
    cases depth with
    | zero => cases hrun
    | succ below => exact ⟨below, rfl⟩
  cases operands with
  | one operand =>
      have hoperand := List.forall_mem_singleton.mp hoperands
      exact hoperand.andThen fun v m m' hrun _ => .done (hdepth hrun)
  | two left right =>
      obtain ⟨hleft, hright⟩ := List.forall_mem_cons.mp hoperands
      refine hleft.andThen fun a _ _ _ _ => ?_
      exact (List.forall_mem_singleton.mp hright).andThen fun b m m' hrun _ => .done (hdepth hrun)

/-- A token that makes a call: once an operand has given its value, there is a level left for what is
called with it. -/
theorem operate_visits {t : Token} {c : Callee} (hc : t.callee? = some c) (hkey : c.isKey = true)
    (span : Span) (operands : Operands Token)
    (hoperands : ∀ t ∈ operands.toList,
      (evaluate rt depth t scope).Visits rt t.callSites stops t.Gives)
    (htext : ∀ fault, fault.isUnwritable = true → t.writesPlainly rt = false → stops fault) :
    (operate rt (evaluate rt depth · scope) (call rt depth) scope span c operands).Visits rt
      (operands.toList.flatMap Token.callSites ++ [c]) stops fun _ => True := by
  refine (operands_visit operands hoperands).andThen fun values _ _ _ hdepth => ?_
  obtain ⟨below, rfl⟩ := hdepth
  exact .afterQuiet (callee_visits hc hkey scope htext) fun f hf =>
    .guarded below span hf values.argument

theorem mergeMembers_visits {ev : Token → Run Value} {members : List Token}
    (hev : ∀ t ∈ members, (ev t).Visits rt t.callSites stops t.Gives)
    (hgives : ∀ t ∈ members, t.givesEntries = true) (entries : Scope) :
    (mergeMembers ev entries members).Visits rt (members.flatMap Token.callSites) stops
      fun _ => True := by
  induction members generalizing entries with
  | nil => exact .done trivial
  | cons member members ih =>
      obtain ⟨hmember, hmembers⟩ := List.forall_mem_cons.mp hev
      obtain ⟨hgive, hgives⟩ := List.forall_mem_cons.mp hgives
      unfold mergeMembers
      refine hmember.andThen fun v _ _ _ hv => ?_
      obtain ⟨news, rfl⟩ := hv.entries hgive
      -- A mapping merges without a fault.
      have hmerge : (Run.marking fun mark => (Value.dict news).merge mark entries).Visits rt [] stops
          fun _ => True := fun m => .value trivial (List.append_nil _).symm .nil
      exact .afterQuiet hmerge fun all _ => ih hmembers hgives all

/-- A name that is assigned or referred to is written, unless a text of the token cannot be. -/
theorem name_visits {t path : Token} {key : Value} (hkey : path.Gives key) (room : Nat)
    (hplain : t.writesPlainly rt = path.isPath)
    (htext : ∀ fault, fault.isUnwritable = true → t.writesPlainly rt = false → stops fault) :
    (Run.lift (key.shownWithin room)).Visits rt [] stops fun _ => True := by
  refine (Visits.lift fun fault h => ?_).imp (fun _ h => h) fun _ _ => trivial
  cases hpath : path.isPath with
  | true =>
      obtain ⟨s, rfl⟩ := hkey.text hpath
      cases h
  | false => exact htext fault (key.writable_shownWithin room fault h) (hplain.trans hpath)

theorem evaluateBy_visits {t : Token} (horderly : t.orderly = true) (room : Nat)
    (hpart : ∀ c ∈ t.parts, (evaluate rt depth c scope).Visits rt c.callSites stops c.Gives)
    (htext : ∀ fault, fault.isUnwritable = true → t.writesPlainly rt = false → stops fault) :
    (evaluateBy rt room (evaluate rt depth · scope) (call rt depth) scope t).Visits rt t.callSites
      stops t.Gives := by
  have hcall : ∀ c, t.callee? = some c → ∀ operands : Operands Token, operands.toList = t.parts →
      ∀ span, (operate rt (evaluate rt depth · scope) (call rt depth) scope span c operands).Visits rt
        t.callSites stops fun _ => True := by
    intro c hc operands hoperands span
    have hvisits := operate_visits hc (Token.isKey_of_orderly horderly hc) span operands
      (hoperands ▸ hpart) htext
    rw [t.callSites_eq, hc]
    rwa [hoperands] at hvisits
  cases t with
  | program span members =>
      have hmembers := Token.orderlyMembers_iff.mp horderly
      rw [Token.callSites, Token.callSitesOfAll_eq]
      refine (mergeMembers_visits hpart (fun c hc => (hmembers c hc).1) []).thenQuiet fun entries _ => ?_
      exact .done ⟨fun _ => ⟨entries, rfl⟩, nofun⟩
  | assignment span name value =>
      obtain ⟨hname, hvalue⟩ := List.forall_mem_cons.mp hpart
      refine hname.andThen fun key _ _ _ hkey => ?_
      refine .afterQuiet (name_visits hkey room rfl htext) fun text _ => ?_
      refine (List.forall_mem_singleton.mp hvalue).thenQuiet fun v _ => ?_
      exact .afterQuiet (.step fun _ => rfl) fun _ _ => .done ⟨fun _ => ⟨_, rfl⟩, nofun⟩
  | reference span name =>
      refine (List.forall_mem_singleton.mp hpart).thenQuiet fun key hkey => ?_
      refine .afterQuiet (name_visits hkey room rfl htext) fun text _ => ?_
      exact (refer_visits scope text).imp (fun _ h => h) fun _ _ => ⟨nofun, nofun⟩
  | composition span names =>
      refine (composeNamed_visits rfl scope htext).imp (fun _ h => h) ?_
      rintro _ ⟨fs, rfl⟩
      exact ⟨nofun, nofun⟩
  | unknown span kind raw =>
      refine .afterQuiet (.lift fun fault h => ?_) fun text _ => .done ⟨nofun, nofun⟩
      exact htext fault (Json.writable_quotedWithin _ _ fault h) rfl
  | object span content =>
      exact (List.forall_mem_singleton.mp hpart).imp (fun _ h => h) fun v hv => ⟨hv.entries, nofun⟩
  | path => exact .done ⟨nofun, fun _ => ⟨_, rfl⟩⟩
  | function | literal => exact .done ⟨nofun, nofun⟩
  | application | binary | unary | conversion =>
      exact (hcall _ rfl _ rfl _).imp (fun _ h => h) fun _ _ => ⟨nofun, nofun⟩

/-- **An orderly token is evaluated to the end, and makes the calls of its tree in order**, unless the
nesting limit is met or a text cannot be written. -/
theorem evaluate_visits (rt : Runtime) (depth : Nat) (t : Token) (scope : Nat)
    (horderly : t.orderly = true) :
    (evaluate rt depth t scope).Visits rt t.callSites (t.Stops rt depth) t.Gives := by
  induction depth generalizing t with
  | zero => exact .raise none (.inl ⟨rfl, t.height_pos⟩)
  | succ depth ih =>
      refine evaluateBy_visits horderly _ (fun c hc => ?_) fun fault => .of_text
      exact (ih c (Token.orderly_of_mem_parts hc horderly)).imp (fun _ h => h.of_part hc) fun _ h => h

end Evaluation

end ArrayExpr
