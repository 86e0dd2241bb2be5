import ArrayExpr.Proofs.LaterCalls
import ArrayExpr.Proofs.Nesting

/-!
Independent assignments commute. An expression that does not refer to a name, and that calls only what
the runtime binds, does the same whatever that name is bound to. So of two assignments whose expressions
do not refer to each other's names, each evaluates its expression as if it were the only one: what comes
of it does not depend on which of them is the first, and neither does what it reports
(`assignments_commute`). Only the undefined numbers that are made are counted in another order.
-/

namespace ArrayExpr

/-- Whether an expression does not refer to a name, function bodies left aside, and is made of literals,
functions, references to paths, operations, conversions, objects, and applications and compositions of
functions that the runtime binds. -/
def Token.avoids (rt : Runtime) (key : String) : Token → Bool
  | .literal .. | .function .. => true
  | .reference _ (.path _ segments) => "/".intercalate segments != key
  | .object _ t | .conversion _ t | .unary _ (.str _) t => t.avoids rt key
  | .binary _ (.str _) left right => left.avoids rt key && right.avoids rt key
  | .application _ name t => (name.boundIn rt.bindings).isSome && t.avoids rt key
  | .composition _ names => names.all fun name => ((Json.str name).boundIn rt.bindings).isSome
  | _ => false

def Link.nothing : Link where
  scopes _ _ := False
  marks _ _ := False

def Value.Detached (v : Value) : Prop :=
  v.Alike .nothing v

/-- The undefined numbers that two runs make in two blocks, but in opposite orders. Those before `start`
stand for themselves. From there on, the first run makes one block up to `middle` and the other one after
it; the second run makes that other one up to `middle'` and the first one after it. -/
def Link.exchanged (start middle middle' : Nat) : Link where
  scopes := Eq
  marks a b :=
    (a = b ∧ a < start) ∨ (∃ c, a = start + c ∧ b = middle' + c ∧ a < middle) ∨
      ∃ c, a = middle + c ∧ b = start + c ∧ b < middle'

/-- Scopes by number of which one may differ in what a name is bound to. -/
def SameBut (scope : Nat) (key : String) (s s' : List Scope) : Prop :=
  ∀ name, name ≠ key →
    Key.lookup? (.str name) (s'.getD scope []) = Key.lookup? (.str name) (s.getD scope [])

namespace Run

variable {α β : Type} {x : Run α} {R : List Scope → List Scope → Prop} {Q : α → Prop} {P : β → Prop}

/-- A computation that leaves the scopes alone and does the same with scopes that are related to them. If
it comes to a result, it is one with `Q`. -/
def Overlooks (R : List Scope → List Scope → Prop) (x : Run α) (Q : α → Prop) : Prop :=
  ∀ m, Ending Fault.Any Q (x.run m).1 ∧ (x.run m).2.scopes = m.scopes ∧
    ∀ s, R m.scopes s →
      x.run { m with scopes := s } = ((x.run m).1, { (x.run m).2 with scopes := s })

namespace Overlooks

theorem done {a : α} (h : Q a) : (pure a : Run α).Overlooks R Q :=
  fun _ => ⟨h, rfl, fun _ _ => rfl⟩

theorem raise (source : Option Foreign) (fault : Fault) :
    (Run.raise source fault : Run α).Overlooks R Q :=
  fun _ => ⟨trivial, rfl, fun _ _ => rfl⟩

theorem lift (source : Option Foreign) (result : Except Fault α) :
    (Run.liftFrom source result).Overlooks R fun _ => True := by
  cases result with
  | ok a => exact .done trivial
  | error fault => exact .raise source fault

theorem step {f : Machine → Machine} (hscopes : ∀ m, (f m).scopes = m.scopes)
    (hf : ∀ m s, f { m with scopes := s } = { f m with scopes := s }) :
    (modify f : Run PUnit).Overlooks R fun _ => True := by
  refine fun m => ⟨trivial, hscopes m, fun s _ => ?_⟩
  rw [run_modify, run_modify, hf]

theorem andThen {f : α → Run β} (hx : x.Overlooks R Q) (hf : ∀ a, Q a → (f a).Overlooks R P) :
    (x >>= f).Overlooks R P := by
  intro m
  obtain ⟨hends, hscopes, hsame⟩ := hx m
  simp only [run_bind]
  cases hrun : x.run m with
  | mk r m₁ =>
      rw [hrun] at hends hscopes hsame
      cases r with
      | error fault =>
          refine ⟨hends, hscopes, fun s hs => ?_⟩
          rw [hsame s hs]
      | ok a =>
          obtain ⟨hends', hscopes', hsame'⟩ := hf a hends m₁
          refine ⟨hends', hscopes'.trans hscopes, fun s hs => ?_⟩
          rw [hsame s hs]
          exact hsame' s (hscopes.symm ▸ hs)

/-- What does not depend on the machine that is read. -/
theorem reading {f : Machine → Run β} {y : Run β} (hf : ∀ m, f m = y) (hy : y.Overlooks R P) :
    (get >>= f).Overlooks R P := by
  have hsame : get >>= f = (get >>= fun _ => y : Run β) := bind_congr hf
  rw [hsame]
  exact hy

theorem marking (f : Nat → Except Fault (α × Nat)) : (Run.marking f).Overlooks R fun _ => True := by
  intro m
  simp only [run_marking]
  cases f m.mark with
  | ok r => exact ⟨trivial, rfl, fun _ _ => rfl⟩
  | error fault => exact ⟨trivial, rfl, fun _ _ => rfl⟩

theorem safely {y : Run Value} (span : Span) (hy : y.Overlooks R fun _ => True) :
    (Run.safely span y).Overlooks R fun _ => True := by
  intro m
  obtain ⟨-, hscopes, hsame⟩ := hy m
  simp only [run_safely]
  cases hrun : y.run m with
  | mk r m₁ =>
      rw [hrun] at hscopes hsame
      cases r with
      | ok v =>
          refine ⟨trivial, hscopes, fun s hs => ?_⟩
          rw [hsame s hs]
      | error fault =>
          refine ⟨trivial, hscopes, fun s hs => ?_⟩
          rw [hsame s hs]

end Overlooks

end Run

variable {rt : Runtime} {R : List Scope → List Scope → Prop}

/-! ### Calls -/

theorem respond_overlooks {r : Response} (hr : r.Direct) (call : Value → List Value → Run Value)
    (source : Foreign) : (respond call source r).Overlooks R fun _ => True := by
  induction r with
  | ok v => exact .done trivial
  | error fault => exact .raise _ _
  | call => exact hr.elim
  | review next ih =>
      intro m
      exact ih m.calls (hr m.calls) m

theorem callForeign_overlooks (hhost : ∀ name v, (rt.host name v).Direct)
    (call : Value → List Value → Run Value) (f : Foreign) (arguments : List Value) :
    (callForeign rt call f arguments).Overlooks R fun _ => True := by
  have hnoted : (modify (·.noteCall f) : Run PUnit).Overlooks R fun _ => True :=
    .step (fun _ => rfl) fun _ _ => rfl
  unfold callForeign
  split
  · cases f with
    | passThrough => exact .done trivial
    | capability c =>
        exact hnoted.andThen fun _ _ => .andThen (.lift _ _) fun r _ => .marking _
    | host name => exact hnoted.andThen fun _ _ => respond_overlooks (hhost name _) _ _
  · exact .raise _ _
  · exact .raise _ _

/-- What the runtime binds can be called without a look at the scopes. -/
theorem call_overlooks (hhost : ∀ name v, (rt.host name v).Direct) (depth : Nat) {f : Value}
    (hf : f.Detached) (arguments : List Value) :
    (call rt depth f arguments).Overlooks R fun _ => True := by
  induction depth generalizing f arguments with
  | zero => exact .raise _ _
  | succ depth ih =>
      cases f with
      | closure parameter body natal =>
          cases hf with
          | atom hatom => cases hatom
          | closure hscope => exact hscope.elim
      | composition names fs =>
          cases hf with
          | atom hatom => cases hatom
          | composition hfs =>
              have hall := List.forall₂_same.mp (Value.itemsAlike_iff.mp hfs)
              rw [call, callBy]
              exact pipeline_related (S := fun x _ => x.Overlooks R fun _ => True)
                (fun _ => .done trivial) (fun hx hf => hx.andThen fun v _ => hf v) (call rt depth)
                (call rt depth) (ih (.atom rfl)) (fun f hf => ih (hall f hf)) arguments
      | foreign f =>
          rw [call, callBy]
          exact callForeign_overlooks hhost _ f arguments
      | _ => exact .raise _ _

/-! ### Expressions -/

theorem Json.isKey_of_boundIn {bindings : Scope} {name : Json} (h : (name.boundIn bindings).isSome) :
    name.isKey = true := by
  cases name with
  | null | list | object => cases h
  | _ => rfl

/-- A name that the runtime binds is found in the runtime, whatever the scope. -/
theorem resolve_merged_eq {name : Json} {f : Value} (hname : name.boundIn rt.bindings = some f)
    (s : Scope) : resolve (rt.merged s) name = pure f := by
  have hkey : name.isKey = true := Json.isKey_of_boundIn (by rw [hname]; rfl)
  unfold resolve
  rw [Json.find_eq_pure hkey, boundIn_merged hname, pure_bind]

theorem exists_resolveAll_merged_eq {names : List String}
    (hnames : ∀ name ∈ names, ((Json.str name).boundIn rt.bindings).isSome) :
    ∃ fs, ∀ s, (names.mapM fun name => resolve (rt.merged s) (.str name)) = pure fs := by
  induction names with
  | nil => exact ⟨[], fun _ => rfl⟩
  | cons name names ih =>
      obtain ⟨hname, hrest⟩ := List.forall_mem_cons.mp hnames
      obtain ⟨f, hf⟩ := Option.isSome_iff_exists.mp hname
      obtain ⟨fs, hfs⟩ := ih hrest
      refine ⟨f :: fs, fun s => ?_⟩
      rw [List.mapM_cons, resolve_merged_eq hf, hfs, pure_bind, pure_bind]

section Expressions

variable {scope : Nat} {key : String}

theorem refer_overlooks {name : String} (hname : name ≠ key) :
    (refer rt scope name).Overlooks (SameBut scope key) fun _ => True := by
  intro m
  simp only [refer, Run.run_get_bind]
  have hsame (s : List Scope) (hs : SameBut scope key m.scopes s) :
      Key.lookup? (.str name) (rt.merged (Machine.scope { m with scopes := s } scope)) =
        Key.lookup? (.str name) (rt.merged (m.scope scope)) := by
    rw [Runtime.lookup?_merged, Runtime.lookup?_merged]
    exact congrArg _ (hs name hname)
  cases hfound : Key.lookup? (.str name) (rt.merged (m.scope scope)) with
  | some v =>
      refine ⟨trivial, rfl, fun s hs => ?_⟩
      rw [hsame s hs, hfound]
      rfl
  | none =>
      refine ⟨trivial, rfl, fun s hs => ?_⟩
      rw [hsame s hs, hfound]
      rfl

theorem warn_overlooks (f : Report → Report) : (Run.reportBy f).Overlooks R fun _ => True :=
  .step (fun _ => rfl) fun _ _ => rfl

/-- The function of a name, found among the bindings of the runtime. -/
theorem resolve_overlooks (hbindings : ∀ e ∈ rt.bindings, e.2.Detached) (name : Json) :
    (resolve rt.bindings name).Overlooks R Value.Detached := by
  have hfind : (find rt.bindings name).Overlooks R fun found => ∀ f ∈ found, f.Detached := by
    unfold find
    split
    · exact .done nofun
    · exact .andThen (.lift _ _) fun key _ => .done fun f hf => Key.lookup?_all hbindings hf
  refine hfind.andThen fun found hfound => ?_
  cases found with
  | some f => exact .done (hfound f rfl)
  | none =>
      refine .andThen (.lift _ _) fun text _ => .andThen (.lift _ _) fun names _ => ?_
      exact (warn_overlooks _).andThen fun _ _ => .done (.atom rfl)

theorem operatorName_overlooks (symbol arity : Json) :
    (operatorName symbol arity).Overlooks R fun _ => True := by
  have hfind : (findOperator symbol arity).Overlooks R fun _ => True := by
    refine .andThen (.lift _ _) fun key _ => ?_
    cases operatorsOf key with
    | none => exact .done trivial
    | some table => exact .andThen (.lift _ _) fun _ _ => .done trivial
  refine hfind.andThen fun found _ => ?_
  cases found with
  | some name => exact .done trivial
  | none =>
      refine .andThen (.lift _ _) fun _ _ => .andThen (.lift _ _) fun _ _ => ?_
      exact (warn_overlooks _).andThen fun _ _ => .done trivial

/-- The function of a call, if an application names what the runtime binds. -/
theorem callee_overlooks (hbindings : ∀ e ∈ rt.bindings, e.2.Detached) {callee : Callee}
    (hcallee : callee.appliesBound rt = true) :
    (callee.resolve rt scope).Overlooks R Value.Detached := by
  cases callee with
  | named name =>
      obtain ⟨f, hf⟩ := Option.isSome_iff_exists.mp hcallee
      refine .reading (y := pure f) (fun m => resolve_merged_eq hf _) (.done ?_)
      cases name with
      | null | list | object => cases hf
      | _ => exact Key.lookup?_all hbindings hf
  | operator symbol arity =>
      exact (operatorName_overlooks symbol _).andThen fun name _ => resolve_overlooks hbindings name
  | provided name => exact resolve_overlooks hbindings _

section Level

variable {room : Nat} {ev : Token → Run Value} {c : Value → List Value → Run Value}
  (hbindings : ∀ e ∈ rt.bindings, e.2.Detached)
  (hcall : ∀ f v, f.Detached → (c f [v]).Overlooks (SameBut scope key) fun _ => True)

include hbindings hcall

theorem operate_overlooks (operands : Operands Token)
    (hev : ∀ t ∈ operands.toList, (ev t).Overlooks (SameBut scope key) fun _ => True) (span : Span)
    {callee : Callee} (hcallee : callee.appliesBound rt = true) :
    (operate rt ev c scope span callee operands).Overlooks (SameBut scope key) fun _ => True := by
  have hoperands : (operands.evaluate ev).Overlooks (SameBut scope key) fun _ => True := by
    cases operands with
    | one operand => exact (List.forall_mem_singleton.mp hev).andThen fun _ _ => .done trivial
    | two left right =>
        obtain ⟨hleft, hright⟩ := List.forall_mem_cons.mp hev
        refine hleft.andThen fun _ _ => (List.forall_mem_singleton.mp hright).andThen fun _ _ => ?_
        exact .done trivial
  refine hoperands.andThen fun values _ => ?_
  exact (callee_overlooks hbindings hcallee).andThen fun f hf => .safely span (hcall f _ hf)

/-- What one level of evaluation does if what is below it and its calls overlook a name. -/
theorem evaluateBy_overlooks {t : Token} (ht : t.avoids rt key = true)
    (hev : ∀ part, part.avoids rt key = true → (ev part).Overlooks (SameBut scope key) fun _ => True)
    (hpath : ∀ span segments, (ev (.path span segments)).Overlooks (SameBut scope key)
      (· = .str ("/".intercalate segments))) :
    (evaluateBy rt room ev c scope t).Overlooks (SameBut scope key) fun _ => True := by
  cases t with
  | literal | function => exact .done trivial
  | object span content => exact hev content ht
  | reference span path =>
      cases path with
      | path place segments =>
          have hname : "/".intercalate segments ≠ key := by simpa [Token.avoids] using ht
          refine (hpath place segments).andThen ?_
          rintro _ rfl
          exact refer_overlooks hname
      | _ => cases ht
  | composition span names =>
      obtain ⟨fs, hfs⟩ := exists_resolveAll_merged_eq (List.all_eq_true.mp ht)
      refine .reading (y := pure (.composition names fs)) (fun m => ?_) (.done trivial)
      dsimp only
      rw [hfs, pure_bind]
  | conversion span operand =>
      exact operate_overlooks hbindings hcall (.one operand)
        (List.forall_mem_singleton.mpr (hev operand ht)) span rfl
  | unary span operator operand =>
      cases operator with
      | str symbol =>
          exact operate_overlooks hbindings hcall (.one operand)
            (List.forall_mem_singleton.mpr (hev operand ht)) span rfl
      | _ => cases ht
  | binary span operator left right =>
      cases operator with
      | str symbol =>
          simp only [Token.avoids, Bool.and_eq_true] at ht
          exact operate_overlooks hbindings hcall (.two left right)
            (List.forall_mem_cons.mpr
              ⟨hev left ht.1, List.forall_mem_singleton.mpr (hev right ht.2)⟩) span rfl
      | _ => cases ht
  | application span name argument =>
      simp only [Token.avoids, Bool.and_eq_true] at ht
      exact operate_overlooks hbindings hcall (.one argument)
        (List.forall_mem_singleton.mpr (hev argument ht.2)) span ht.1
  | program | assignment | path | unknown => cases ht

end Level

/-- An expression that does not refer to a name does the same whatever the name is bound to. -/
theorem evaluate_overlooks (hbindings : ∀ e ∈ rt.bindings, e.2.Detached)
    (hhost : ∀ name v, (rt.host name v).Direct) (depth : Nat) {t : Token}
    (ht : t.avoids rt key = true) :
    (evaluate rt depth t scope).Overlooks (SameBut scope key) fun _ => True := by
  induction depth generalizing t with
  | zero => exact .raise _ _
  | succ depth ih =>
      refine evaluateBy_overlooks hbindings (fun f v hf => call_overlooks hhost depth hf [v]) ht
        (fun part hpart => ih hpart) fun span segments => ?_
      cases depth with
      | zero => exact .raise _ _
      | succ depth => exact .done rfl

end Expressions

/-! ### The same expression at two times -/

/-- An expression that does not refer to a name is orderly, writes only what can be written, and assigns
nothing. -/
theorem Token.plain_of_avoids {key : String} {t : Token} (ht : t.avoids rt key = true) :
    t.orderly = true ∧ t.throughout (writesPlainly rt) = true ∧ t.assigns = false := by
  induction t using Token.children_induction with
  | _ t ih =>
      cases t with
      | literal | function => exact ⟨rfl, rfl, rfl⟩
      | composition => exact ⟨rfl, ht, rfl⟩
      | object span content => exact ih content (.head _) ht
      | conversion span operand => exact ih operand (.head _) ht
      | reference span path =>
          cases path with
          | path => exact ⟨rfl, rfl, rfl⟩
          | _ => cases ht
      | unary span operator operand =>
          cases operator with
          | str => exact ih operand (.head _) ht
          | _ => cases ht
      | binary span operator left right =>
          cases operator with
          | str =>
              simp only [avoids, Bool.and_eq_true] at ht
              obtain ⟨horderly, hplain, hassigns⟩ := ih left (.head _) ht.1
              obtain ⟨horderly', hplain', hassigns'⟩ := ih right (.tail _ (.head _)) ht.2
              simp [orderly, throughout, writesPlainly, assigns, horderly, horderly', hplain, hplain',
                hassigns, hassigns', Json.isKey]
          | _ => cases ht
      | application span name argument =>
          simp only [avoids, Bool.and_eq_true] at ht
          obtain ⟨horderly, hplain, hassigns⟩ := ih argument (.head _) ht.2
          simp [orderly, throughout, writesPlainly, assigns, horderly, hplain, hassigns, ht.1,
            Json.isKey_of_boundIn ht.1]
      | program | assignment | path | unknown => cases ht

/-- Such an expression comes to a value at a depth that covers its tree, and leaves the scopes alone. -/
theorem exists_run_of_avoids (hbindings : ∀ e ∈ rt.bindings, e.2.Detached)
    (hhost : ∀ name v, (rt.host name v).Direct) {key : String} {t : Token} (ht : t.avoids rt key = true)
    {depth : Nat} (hdepth : t.height ≤ depth) (scope : Nat) (m : Machine) :
    ∃ v m₁, (evaluate rt depth t scope).run m = (.ok v, m₁) ∧ m₁.scopes = m.scopes := by
  obtain ⟨horderly, hplain, -⟩ := Token.plain_of_avoids ht
  have hoverlooks : (evaluate rt depth t scope).Overlooks (SameBut scope key) fun _ => True :=
    evaluate_overlooks hbindings hhost depth ht
  obtain ⟨-, hscopes, -⟩ := hoverlooks m
  obtain ⟨v, hv, -⟩ | ⟨fault, -, ⟨-, hshort⟩ | ⟨-, htext⟩⟩ :=
    (evaluate_visits rt depth t scope horderly m).ok_or_stops
  · exact ⟨v, _, Prod.ext hv rfl, hscopes⟩
  · exact absurd hshort (Nat.not_lt.mpr hdepth)
  · rw [hplain] at htext
    cases htext

section Times

variable {m a b a' b' : Machine} {scope depth : Nat} {t : Token} {v w : Value}

/-- Two machines with the scopes of an earlier one match, as far as that one goes. -/
theorem Machine.Closed.matches_of_same (hclosed : m.Closed) (ha : a.scopes = m.scopes)
    (hb : b.scopes = m.scopes) (hmark : m.mark ≤ a.mark) (hmark' : m.mark ≤ b.mark) :
    a.Matches (repetition (Report.GotSame a.report b.report)) (Link.identity.among m m) b where
  opened i j hij := by
    rw [ha, hb]
    exact hij.2
  made i j hij := ⟨Nat.lt_of_lt_of_le hij.2.1 hmark, Nat.lt_of_lt_of_le hij.2.2 hmark'⟩
  distinguishes := hclosed.alike.distinguishes.below
  scope := by
    rintro i _ ⟨rfl, -⟩
    rw [Machine.scope, Machine.scope, ha, hb]
    exact List.forall₂_same.mpr fun e he => ⟨rfl, m.scope_all hclosed i e he⟩
  report := by
    refine ⟨{ verbose := a.report.verbose }, rfl, ?_, ?_⟩
    · rw [Report.append_empty]
    · rw [Report.append_empty]
  calls := trivial

/-- An expression that is evaluated at two times, with the same scopes, comes to values that are alike and
reports the same. The undefined numbers that it makes are counted from different marks. -/
theorem evaluate_at_two_times (hrt : rt.Uniform fun _ _ => True) (hclosed : m.Closed)
    (hscope : scope < m.scopes.length) (ht : t.assigns = false) (ha : a.scopes = m.scopes)
    (hb : b.scopes = m.scopes) (hmark : m.mark ≤ a.mark) (hmark' : m.mark ≤ b.mark)
    (hverbose : b.report.verbose = a.report.verbose)
    (hrun : (evaluate rt depth t scope).run a = (.ok v, a'))
    (hrun' : (evaluate rt depth t scope).run b = (.ok w, b')) :
    v.Alike (((Link.identity.among m m).extended a b).among a' b') w ∧
      ∃ block : Report, a'.report = a.report ++ block ∧ b'.report = b.report ++ block := by
  have hmatches := hclosed.matches_of_same ha hb hmark hmark'
  have hstart : (((Link.identity.among m m).extended a b).among a b).scopes scope scope := by
    rw [hmatches.among_extended]
    exact ⟨rfl, hscope, hscope⟩
  have hlockstep := (Comparison.lockstep (Report.GotSame.fits hrt hverbose) _ depth).1 t hstart
    fun hassigns => absurd hassigns (by simp [ht])
  obtain ⟨halike, -, -, hresults⟩ := hlockstep hmatches.alike
  rw [hrun, hrun'] at halike hresults
  obtain ⟨block, -, hreport, hreport'⟩ := halike.report
  cases hresults with
  | ok hv => exact ⟨hv, block, hreport, hreport'⟩

theorem mark_le_of_run (hrt : rt.Uniform fun _ _ => True) (hclosed : m.Closed)
    (hscope : scope < m.scopes.length) (ht : t.assigns = false)
    (hrun : (evaluate rt depth t scope).run m = (.ok v, a)) : m.mark ≤ a.mark := by
  have hlockstep := (Comparison.lockstep (repetition_eq_fits hrt) Link.identity depth).1 t
    ⟨rfl, hscope, hscope⟩ fun hassigns => absurd hassigns (by simp [ht])
  obtain ⟨-, hgrows⟩ := hclosed.run hlockstep
  rw [hrun] at hgrows
  exact hgrows.mark

end Times

/-! ### Undefined numbers in another order -/

namespace Link

variable {start middle middle' : Nat}

theorem distinguishes_exchanged (hle : start ≤ middle) (hle' : start ≤ middle') :
    (exchanged start middle middle').Distinguishes := by
  intro a b a' b' h h'
  simp only [exchanged] at h h'
  rcases h with ⟨rfl, ha⟩ | ⟨c, rfl, rfl, ha⟩ | ⟨c, rfl, rfl, hb⟩ <;>
    rcases h' with ⟨rfl, ha'⟩ | ⟨c', rfl, rfl, ha'⟩ | ⟨c', rfl, rfl, hb'⟩ <;> omega

/-- Where no undefined numbers are made, all of them stand for themselves. -/
theorem exchanged_le_identity : exchanged start start start ≤ identity := by
  refine ⟨fun _ _ hij => hij, ?_⟩
  rintro a b (⟨rfl, -⟩ | ⟨c, rfl, rfl, -⟩ | ⟨c, rfl, rfl, -⟩) <;> rfl

variable {m a b a' b' : Machine}

theorem among_le_exchanged : identity.among m m ≤ exchanged m.mark middle middle' :=
  ⟨fun _ _ hij => hij.1, fun _ _ hab => .inl ⟨hab.1, hab.2.1⟩⟩

theorem eq_of_extended (hscopes : a.scopes = b.scopes) {i j : Nat}
    (hij : ((identity.among m m).extended a b).scopes i j) : i = j := by
  rcases hij with ⟨rfl, -⟩ | ⟨c, rfl, rfl⟩
  · rfl
  · rw [hscopes]

/-- The block that is the first one in the first run. -/
theorem first_le_exchanged (ha : a.mark = m.mark) (hscopes : a.scopes = b.scopes) :
    ((identity.among m m).extended a b).among a' b' ≤ exchanged m.mark a'.mark b.mark := by
  refine ⟨fun i j hij => eq_of_extended hscopes hij.1, ?_⟩
  rintro i j ⟨hij | ⟨c, rfl, rfl⟩, hi, -⟩
  · exact .inl ⟨hij.1, hij.2.1⟩
  · exact .inr (.inl ⟨c, by rw [ha], rfl, hi⟩)

/-- The block that is the first one in the second run. -/
theorem second_le_exchanged (hb : b.mark = m.mark) (hscopes : a.scopes = b.scopes) :
    ((identity.among m m).extended a b).among a' b' ≤ exchanged m.mark a.mark b'.mark := by
  refine ⟨fun i j hij => eq_of_extended hscopes hij.1, ?_⟩
  rintro i j ⟨hij | ⟨c, rfl, rfl⟩, -, hj⟩
  · exact .inl ⟨hij.1, hij.2.1⟩
  · exact .inr (.inr ⟨c, rfl, by rw [hb], hj⟩)

end Link

/-! ### Two expressions in either order -/

/-- Two computations in either order. The first one comes to `m₁` and the second one from there to `m₂`;
the other way round, the second one comes to `n₁` and the first one from there to `n₂`. What they come to
is alike and what they report is the same. -/
structure Exchange (x₁ x₂ : Run Value) (m m₁ m₂ n₁ n₂ : Machine) (v₁ v₂ w₁ w₂ : Value)
    (block₁ block₂ : Report) : Prop where
  run_first : x₁.run m = (.ok v₁, m₁)
  run_second_after : x₂.run m₁ = (.ok v₂, m₂)
  run_second : x₂.run m = (.ok w₂, n₁)
  run_first_after : x₁.run n₁ = (.ok w₁, n₂)
  scopes_first : m₁.scopes = m.scopes
  scopes_second : n₁.scopes = m.scopes
  mark_first : m.mark ≤ m₁.mark
  mark_second : m.mark ≤ n₁.mark
  alike_first : v₁.Alike (.exchanged m.mark m₁.mark n₁.mark) w₁
  alike_second : v₂.Alike (.exchanged m.mark m₁.mark n₁.mark) w₂
  report_first : m₁.report = m.report ++ block₁
  report_second_after : m₂.report = m₁.report ++ block₂
  report_second : n₁.report = m.report ++ block₂
  report_first_after : n₂.report = n₁.report ++ block₁

theorem exists_exchange (hrt : rt.Uniform fun _ _ => True) (hhost : ∀ name v, (rt.host name v).Direct)
    {m : Machine} (hm : m.Closed) {scope depth : Nat} (hscope : scope < m.scopes.length)
    {k₁ k₂ : String} {e₁ e₂ : Token} (h₁ : e₁.avoids rt k₂ = true) (h₂ : e₂.avoids rt k₁ = true)
    (hdepth₁ : e₁.height ≤ depth) (hdepth₂ : e₂.height ≤ depth) :
    ∃ m₁ m₂ n₁ n₂ v₁ v₂ w₁ w₂ block₁ block₂,
      Exchange (evaluate rt depth e₁ scope) (evaluate rt depth e₂ scope) m m₁ m₂ n₁ n₂ v₁ v₂ w₁ w₂
        block₁ block₂ := by
  obtain ⟨-, -, hassigns₁⟩ := Token.plain_of_avoids h₁
  obtain ⟨-, -, hassigns₂⟩ := Token.plain_of_avoids h₂
  have hruns₁ := exists_run_of_avoids (hrt.binding _) hhost h₁ hdepth₁ scope
  have hruns₂ := exists_run_of_avoids (hrt.binding _) hhost h₂ hdepth₂ scope
  obtain ⟨v₁, m₁, hrun₁, hscopes₁⟩ := hruns₁ m
  obtain ⟨v₂, m₂, hrun₂, -⟩ := hruns₂ m₁
  obtain ⟨w₂, n₁, hrun₂', hscopes₂⟩ := hruns₂ m
  obtain ⟨w₁, n₂, hrun₁', -⟩ := hruns₁ n₁
  have hmark₁ := mark_le_of_run hrt hm hscope hassigns₁ hrun₁
  have hmark₂ := mark_le_of_run hrt hm hscope hassigns₂ hrun₂'
  have hverbose {t : Token} {v : Value} {n : Machine}
      (hrun : (evaluate rt depth t scope).run m = (.ok v, n)) :
      n.report.verbose = m.report.verbose := by
    have hprecedes := evaluate_precedes rt depth m t scope
    rw [hrun] at hprecedes
    exact hprecedes.verbose
  -- The first expression is compared at the start and after the second one, the second one after the
  -- first one and at the start.
  obtain ⟨halike₁, block₁, hblock₁, hblock₁'⟩ := evaluate_at_two_times hrt hm hscope hassigns₁ rfl
    hscopes₂ (Nat.le_refl _) hmark₂ (hverbose hrun₂') hrun₁ hrun₁'
  obtain ⟨halike₂, block₂, hblock₂, hblock₂'⟩ := evaluate_at_two_times hrt hm hscope hassigns₂ hscopes₁
    rfl hmark₁ (Nat.le_refl _) (hverbose hrun₁).symm hrun₂ hrun₂'
  exact ⟨m₁, m₂, n₁, n₂, v₁, v₂, w₁, w₂, block₁, block₂, {
    run_first := hrun₁
    run_second_after := hrun₂
    run_second := hrun₂'
    run_first_after := hrun₁'
    scopes_first := hscopes₁
    scopes_second := hscopes₂
    mark_first := hmark₁
    mark_second := hmark₂
    alike_first := halike₁.mono (Link.first_le_exchanged rfl hscopes₂.symm)
    alike_second := halike₂.mono (Link.second_le_exchanged rfl hscopes₁)
    report_first := hblock₁
    report_second_after := hblock₂
    report_second := hblock₂'
    report_first_after := hblock₁' }⟩

/-! ### Two assignments -/

section Assignments

variable {m m₁ m₂ : Machine} {scope depth : Nat} {span span₁ span₂ place place₁ place₂ : Span}
  {segments segments₁ segments₂ : List String} {e e₁ e₂ : Token} {v v₁ v₂ : Value}

theorem run_assignment_path (hrun : (evaluate rt (depth + 1) e scope).run m = (.ok v, m₁)) :
    (evaluate rt (depth + 2) (.assignment span (.path place segments) e) scope).run m =
      (.ok (.dict [(.str ("/".intercalate segments), v)]),
        m₁.bind scope (.str ("/".intercalate segments)) v) := by
  have hpath : (evaluate rt (depth + 1) (.path place segments) scope).run m =
      (.ok (.str ("/".intercalate segments)), m) := rfl
  have hname : Run.lift ((Value.str ("/".intercalate segments)).shownWithin (writingRoom (depth + 1))) =
      pure ("/".intercalate segments) := rfl
  rw [evaluate, evaluateBy, Run.run_bind, hpath]
  dsimp only
  rw [hname, pure_bind, Run.run_bind, hrun]
  rfl

theorem Machine.sameBut_bind (hscope : scope < m.scopes.length) (key : String) (v : Value) :
    SameBut scope key m.scopes (m.bind scope (.str key) v).scopes := by
  intro name hname
  have hne : ¬ (Key.str key).same (.str name) = true :=
    fun hsame => hname (Key.str.inj (Key.same_str.mp hsame)).symm
  show Key.lookup? _ ((m.bind scope (.str key) v).scope scope) = _
  rw [m.scope_bind_self hscope, Key.lookup?_insert, if_neg hne]
  rfl

/-- Two assignments one after the other, where the second expression does not see the first name. -/
theorem run_assignments_in_turn (hscope : scope < m.scopes.length)
    (hrun : (evaluate rt (depth + 1) e₁ scope).run m = (.ok v₁, m₁)) (hscopes : m₁.scopes = m.scopes)
    (hoverlooks : (evaluate rt (depth + 1) e₂ scope).Overlooks
      (SameBut scope ("/".intercalate segments₁)) fun _ => True)
    (hrun' : (evaluate rt (depth + 1) e₂ scope).run m₁ = (.ok v₂, m₂)) :
    ∃ last,
      (evaluate rt (depth + 2) (.assignment span₁ (.path place₁ segments₁) e₁) scope >>= fun _ =>
          evaluate rt (depth + 2) (.assignment span₂ (.path place₂ segments₂) e₂) scope).run m =
        (.ok (.dict [(.str ("/".intercalate segments₂), v₂)]), last) ∧
      last.scope scope =
        (Key.str ("/".intercalate segments₂)).insert v₂
          ((Key.str ("/".intercalate segments₁)).insert v₁ (m.scope scope)) ∧
      last.report = m₂.report := by
  have hscope₁ : scope < m₁.scopes.length := hscopes ▸ hscope
  let bound := (m₁.bind scope (.str ("/".intercalate segments₁)) v₁).scopes
  have hsame : (evaluate rt (depth + 1) e₂ scope).run { m₁ with scopes := bound } =
      (.ok v₂, { m₂ with scopes := bound }) := by
    have hoverlooked := (hoverlooks m₁).2.2 bound (m₁.sameBut_bind hscope₁ _ v₁)
    rwa [hrun'] at hoverlooked
  refine ⟨Machine.bind { m₂ with scopes := bound } scope (.str ("/".intercalate segments₂)) v₂, ?_, ?_,
    rfl⟩
  · rw [Run.run_bind, run_assignment_path hrun]
    exact run_assignment_path hsame
  · have hbound : Machine.scope { m₂ with scopes := bound } scope =
        (Key.str ("/".intercalate segments₁)).insert v₁ (m.scope scope) := by
      rw [Machine.scope, Machine.scope, ← hscopes]
      exact m₁.scope_bind_self hscope₁ _ v₁
    rw [Machine.scope_bind_self _ (by simpa [bound] using hscope₁), hbound]

/-- Names that are bound one after the other, in either order. -/
theorem lookup?_insert_exchanged {K : Link} {s : Scope} (hs : ∀ e ∈ s, e.2.Alike K e.2) {k₁ k₂ : String}
    (hne : k₁ ≠ k₂) {w₁ w₂ : Value} (h₁ : v₁.Alike K w₁) (h₂ : v₂.Alike K w₂) (key : Key) :
    Option.Rel (Value.Alike K) (key.lookup? ((Key.str k₂).insert v₂ ((Key.str k₁).insert v₁ s)))
      (key.lookup? ((Key.str k₁).insert w₁ ((Key.str k₂).insert w₂ s))) := by
  simp only [Key.lookup?_insert]
  by_cases hfirst : (Key.str k₁).same key = true
  · have hsecond : ¬ (Key.str k₂).same key = true := by
      intro hsame
      have hboth := Key.same_trans hfirst ((Key.same_comm _ _).trans hsame)
      exact hne (Key.str.inj (Key.same_str.mp hboth))
    rw [if_neg hsecond, if_pos hfirst, if_pos hfirst]
    exact .some h₁
  · rw [if_neg hfirst, if_neg hfirst]
    by_cases hsecond : (Key.str k₂).same key = true
    · rw [if_pos hsecond, if_pos hsecond]
      exact .some h₂
    · rw [if_neg hsecond, if_neg hsecond]
      cases hfound : key.lookup? s with
      | none => exact .none
      | some v => exact .some (Key.lookup?_all (P := fun v => v.Alike K v) hs hfound)

/-- Where everything stands for itself, what is found alike is found to be the same. -/
theorem eq_of_found_alike {K : Link} (hle : K ≤ .identity) {found found' : Option Value}
    (h : Option.Rel (Value.Alike K) found found') : found = found' := by
  cases h with
  | none => rfl
  | some hv => rw [(hv.mono hle).corresponds.eq]

end Assignments

end ArrayExpr
