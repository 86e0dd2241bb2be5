import ArrayExpr.Proofs.Evaluation

/-!
Faults stay on record. Whatever is evaluated or called, and whatever comes of the faults on the way,
those that were raised before stand at the start of those that are on record afterwards. So a
computation that has met the nesting limit somewhere can be told by the machine that it comes to.
-/

namespace ArrayExpr

/-- A computation that takes no fault off the record. -/
def Run.Logs {α : Type} (x : Run α) : Prop :=
  ∀ m : Machine, m.raised <+: (x.run m).2.raised

theorem Machine.exhausted_of_raised {m m' : Machine} (h : m.raised <+: m'.raised)
    (hm : m.exhausted = true) : m'.exhausted = true := by
  obtain ⟨e, he, hdeep⟩ := List.any_eq_true.mp hm
  exact List.any_eq_true.mpr ⟨e, h.subset he, hdeep⟩

theorem Machine.exhausted_noteFault {m : Machine} {source : Option Foreign} {fault : Fault}
    (h : fault.isTooDeep = true) : (m.noteFault source fault).exhausted = true :=
  List.any_eq_true.mpr ⟨(source, fault), List.mem_append_right _ (List.mem_singleton.mpr rfl), h⟩

/-- The contract of faults that stay on record. -/
def logging : Contract :=
  .ofChange fun _ a b => a.machine.raised <+: b.machine.raised

theorem logging_allows : Contract.Allows logging.token logging.change where
  refl _ _ := List.prefix_rfl
  trans h h' := h.trans h'
  widen h := h
  opened h := h
  bound _ _ _ _ := List.prefix_rfl
  marked _ _ := List.prefix_rfl
  warned _ _ _ := List.prefix_rfl
  raised _ _ := List.prefix_append _ _
  caught _ _ _ _ _ := List.prefix_rfl

theorem logging_admits (rt : Runtime) : logging.Admits rt :=
  Contract.ofChange_admits logging_allows (fun _ _ => List.prefix_rfl)
    (fun _ _ _ => List.prefix_append _ _) (fun _ _ => List.prefix_rfl) rt

namespace Run

variable {α β : Type} {x : Run α}

theorem logs_of_keeps {Q : Machine → α → Prop} (own : Option Nat)
    (h : ∀ m, logging.Keeps own m x Q) : x.Logs :=
  fun m => (h m fun _ _ _ _ => trivial).1

theorem Logs.keeps (h : x.Logs) (own : Option Nat) (m : Machine) :
    logging.Keeps own m x fun _ _ => True :=
  fun _ => ⟨h m, fun _ _ _ _ => trivial, fun _ _ => trivial⟩

/-! ### Building blocks -/

@[simp]
theorem logs_pure (a : α) : (pure a : Run α).Logs :=
  fun _ => List.prefix_rfl

@[simp]
theorem logs_get : (get : Run Machine).Logs :=
  fun _ => List.prefix_rfl

@[simp]
theorem logs_bindName (i : Nat) (key : Key) (v : Value) :
    (modify (·.bind i key v) : Run PUnit).Logs :=
  fun _ => List.prefix_rfl

@[simp]
theorem logs_reportBy (f : Report → Report) : (reportBy f).Logs :=
  fun _ => List.prefix_rfl

@[simp]
theorem logs_marking (f : Nat → Except Fault (α × Nat)) : (marking f).Logs := by
  intro m
  rw [run_marking]
  cases f m.mark with
  | ok => exact List.prefix_rfl
  | error => exact List.prefix_append _ _

@[simp]
theorem logs_liftFrom (source : Option Foreign) (r : Except Fault α) : (liftFrom source r).Logs := by
  intro m
  cases r with
  | ok => exact List.prefix_rfl
  | error => exact List.prefix_append _ _

@[simp]
theorem logs_lift (r : Except Fault α) : (lift r).Logs :=
  logs_liftFrom none r

@[simp]
theorem logs_bind {f : α → Run β} (hx : x.Logs) (hf : ∀ a, (f a).Logs) : (x >>= f).Logs := by
  intro m
  have hfirst := hx m
  rw [run_bind]
  generalize x.run m = ran at hfirst ⊢
  obtain ⟨r, m₁⟩ := ran
  cases r with
  | ok a => exact hfirst.trans (hf a m₁)
  | error => exact hfirst

@[simp]
theorem logs_map (f : α → β) (hx : x.Logs) : (f <$> x).Logs := by
  intro m
  rw [run_map]
  exact hx m

@[simp]
theorem logs_safely (span : Span) {x : Run Value} (hx : x.Logs) : (safely span x).Logs := by
  intro m
  have hfirst := hx m
  rw [safely, run_tryCatch]
  generalize x.run m = ran at hfirst ⊢
  obtain ⟨r, m₁⟩ := ran
  cases r with
  | ok => exact hfirst
  | error => exact hfirst

@[simp]
theorem logs_attempt (handles : Fault → Bool) (hx : x.Logs) : (attempt handles x).Logs := by
  intro m
  have hfirst := hx m
  rw [run_attempt]
  generalize x.run m = ran at hfirst ⊢
  obtain ⟨r, m₁⟩ := ran
  cases r with
  | ok => exact hfirst
  | error =>
      dsimp only
      split
      · exact hfirst
      · exact hfirst

@[simp]
theorem logs_mapM {f : α → Run β} (hf : ∀ a, (f a).Logs) (as : List α) : (as.mapM f).Logs := by
  induction as with
  | nil => exact logs_pure []
  | cons a as ih =>
      rw [List.mapM_cons]
      exact logs_bind (hf a) fun b => logs_bind ih fun bs => logs_pure (b :: bs)

/-! ### Evaluation -/

@[simp]
theorem logs_resolve (bindings : Scope) (name : Json) : (resolve bindings name).Logs :=
  logs_of_keeps none fun _ =>
    Contract.resolve_keeps (Contract.ofChange_lawful logging_allows) (fun _ _ => trivial) name

@[simp]
theorem logs_operatorName (symbol arity : Json) : (operatorName symbol arity).Logs :=
  logs_of_keeps none fun _ =>
    Contract.operatorName_keeps (Contract.ofChange_lawful logging_allows) symbol arity

variable (rt : Runtime) (depth : Nat)

@[simp]
theorem logs_refer (scope : Nat) (name : String) : (refer rt scope name).Logs :=
  logs_of_keeps none fun _ => Contract.refer_keeps (logging_admits rt) scope name

@[simp]
theorem logs_evaluate (token : Token) (scope : Nat) : (evaluate rt depth token scope).Logs :=
  logs_of_keeps _ fun m => (Contract.keeps (logging_admits rt) depth).1 token scope m trivial

@[simp]
theorem logs_call (f : Value) (arguments : List Value) : (call rt depth f arguments).Logs :=
  logs_of_keeps none fun m =>
    (Contract.keeps (logging_admits rt) depth).2 m f arguments trivial fun _ _ => trivial

@[simp]
theorem logs_callee (scope : Nat) (callee : Callee) : (callee.resolve rt scope).Logs :=
  logs_of_keeps none fun _ => Contract.callee_keeps (logging_admits rt) scope callee

@[simp]
theorem logs_mergeMembers (scope : Nat) (entries : Scope) (members : List Token) :
    (mergeMembers (evaluate rt depth · scope) entries members).Logs :=
  logs_of_keeps none fun _ =>
    Contract.mergeMembers_keeps (logging_admits rt).toLawful members
      (fun t _ m => (logs_evaluate rt depth t scope).keeps none m) fun _ _ => ⟨trivial, trivial⟩

@[simp]
theorem logs_stages (stages : List Value) (v : Value) :
    (stages.foldlM (fun result f => call rt depth f [result]) v).Logs :=
  logs_of_keeps none fun _ =>
    Contract.stages_keep (logging_admits rt).toLawful (Contract.keeps (logging_admits rt) depth).2
      stages (fun _ _ => trivial) trivial

@[simp]
theorem logs_respond (source : Foreign) (r : Response) :
    (respond (call rt depth) source r).Logs := by
  induction r with
  | ok v => exact logs_pure v
  | error fault => exact logs_liftFrom (some source) (.error fault)
  | call f arguments handles next ih =>
      exact logs_bind (logs_attempt handles (logs_call rt depth f arguments)) ih
  | review next ih => exact logs_bind logs_get fun m => ih m.calls

end Run

end ArrayExpr
