import ArrayExpr.Proofs.CallOrder
import ArrayExpr.Proofs.Composition

/-!
Compositions flatten. However compositions are nested in each other, calling them calls the functions at
the bottom one after the other, from the last to the first, and ends with the first of these calls that
fails (`composition_flattens`). Only the nesting limit can tell the difference. Functions that call no
others need no more levels than compositions are nested, so that they flatten without any condition on
what comes of the calls.
-/

namespace ArrayExpr

namespace Value

mutual

/-- The functions that a value calls when it is called: a composition calls those at its bottom, from the
last to the first, and any other value stands for itself. -/
def flattened : Value → List Value
  | .composition _ functions => flattenedAll functions
  | f => [f]

def flattenedAll : List Value → List Value
  | [] => []
  | f :: fs => f.flattened ++ flattenedAll fs

end

mutual

def nesting : Value → Nat
  | .composition _ functions => nestingOfAll functions + 1
  | _ => 0

def nestingOfAll : List Value → Nat
  | [] => 0
  | f :: fs => max f.nesting (nestingOfAll fs)

end

theorem nesting_le_of_mem {f : Value} {fs : List Value} (h : f ∈ fs) :
    f.nesting ≤ nestingOfAll fs := by
  induction fs with
  | nil => cases h
  | cons g fs ih =>
      rw [nestingOfAll]
      rcases List.mem_cons.mp h with rfl | h
      · exact Nat.le_max_left _ _
      · exact Nat.le_trans (ih h) (Nat.le_max_right _ _)

/-- A value from which no closure can be reached, and in which compositions are nested at most so many
times. -/
inductive Within : Nat → Value → Prop where
  | atom {n : Nat} {v : Value} : v.isAtom = true → Within n v
  | undefined {n : Nat} (u : Undefined) : Within n (.undefined u)
  | list {n : Nat} {items : List Value} : (∀ v ∈ items, v.Within n) → Within n (.list items)
  | dict {n : Nat} {entries : List (Key × Value)} : (∀ e ∈ entries, e.2.Within n) →
      Within n (.dict entries)
  | composition {n : Nat} {names : List String} {functions : List Value} :
      (∀ f ∈ functions, f.Within n) → Within (n + 1) (.composition names functions)

end Value

variable {rt : Runtime}

/-! ### Calls that call nothing -/

theorem respond_of_direct {r : Response} (hr : r.Direct) (call call' : Value → List Value → Run Value)
    (source : Foreign) : respond call source r = respond call' source r := by
  induction r with
  | ok v => rfl
  | error fault => rfl
  | call => exact hr.elim
  | review next ih =>
      rw [respond, respond]
      exact bind_congr fun m => ih m.calls (hr m.calls)

/-- A foreign function that calls nothing does not depend on how calls are made. -/
theorem callForeign_of_direct (hhost : ∀ name v, (rt.host name v).Direct)
    (call call' : Value → List Value → Run Value) (f : Foreign) (arguments : List Value) :
    callForeign rt call f arguments = callForeign rt call' f arguments := by
  unfold callForeign
  split
  · cases f with
    | passThrough | capability => rfl
    | host name => exact bind_congr fun _ => respond_of_direct (hhost name _) call call' _
  · rfl
  · rfl

/-! ### Stages -/

section Stages

variable {depth depth' : Nat}

theorem stages_append (fs gs : List Value) (v : Value) :
    stages rt depth (fs ++ gs) v = stages rt depth gs v >>= stages rt depth fs := by
  rw [stages, List.foldrM_append]
  rfl

theorem stages_singleton (f v : Value) : stages rt depth [f] v = call rt depth f [v] := by
  rw [stages_cons]
  exact pure_bind v _

/-- What is no composition is called as it is. -/
theorem composition_or_stages_eq_call (rt : Runtime) (f v : Value) :
    (∃ names fs, f = .composition names fs) ∨
      ∀ depth, stages rt depth f.flattened v = call rt depth f [v] := by
  cases f with
  | composition names fs => exact .inl ⟨names, fs, rfl⟩
  | _ => exact .inr fun depth => stages_singleton _ v

/-- A list of functions is flattened function by function. -/
theorem stages_eq_flattenedAll {fs : List Value}
    (hfs : ∀ f ∈ fs, ∀ v, call rt depth f [v] = stages rt depth' f.flattened v) (v : Value) :
    stages rt depth fs v = stages rt depth' (Value.flattenedAll fs) v := by
  induction fs with
  | nil => rfl
  | cons f fs ih =>
      obtain ⟨hf, hrest⟩ := List.forall_mem_cons.mp hfs
      rw [stages_cons, ih hrest, Value.flattenedAll, stages_append]
      exact bind_congr hf

/-- The functions of a composition are called as stages, if there is a level left for the call that lets
its argument through where there are none. -/
theorem pipeline_succ_eq_stages (fs : List Value) (v : Value) :
    pipeline (call rt (depth + 1)) fs [v] = stages rt (depth + 1) fs v := by
  by_cases hfs : fs = []
  · subst hfs
    rfl
  · exact pipeline_eq_stages hfs v

end Stages

/-- Functions that call no others are called one by one, at whatever depth is enough for the compositions
that they are nested in. -/
theorem call_eq_stages_flattened (hhost : ∀ name v, (rt.host name v).Direct) {n depth : Nat} {f : Value}
    (hf : f.Within n) (hdepth : n < depth) (v : Value) :
    call rt depth f [v] = stages rt 1 f.flattened v := by
  induction hf generalizing depth v with
  | @composition n names fs _ ih =>
      obtain ⟨d, rfl⟩ : ∃ d, depth = d + 1 + 1 := ⟨depth - 2, by omega⟩
      rw [call, callBy, pipeline_succ_eq_stages, Value.flattened]
      exact stages_eq_flattenedAll (fun f hf v => ih f hf (by omega) v) v
  | @atom n f hatom =>
      obtain ⟨d, rfl⟩ : ∃ d, depth = d + 1 := ⟨depth - 1, by omega⟩
      cases f with
      | foreign f =>
          have hone : stages rt 1 (Value.foreign f).flattened v = callForeign rt (call rt 0) f [v] :=
            stages_singleton _ v
          rw [hone, call, callBy]
          exact callForeign_of_direct hhost _ _ f [v]
      | list | dict | undefined | closure | composition => cases hatom
      | _ => rfl
  | undefined | list | dict =>
      obtain ⟨d, rfl⟩ : ∃ d, depth = d + 1 := ⟨depth - 1, by omega⟩
      rfl

/-! ### Calls that nest others -/

section Limit

variable {depth depth' : Nat} {m : Machine}

/-- Two runs that are the same, the first of which may be stopped by the nesting limit. -/
def sameRuns : Simulation where
  body := Eq
  report := Eq
  flat := True

theorem sameRuns_fits (rt : Runtime) : sameRuns.Fits rt := by
  apply Simulation.fits_of_same_bodies
  · rintro r _ text details rfl
    rfl
  · rintro r _ span text rfl
    rfl

theorem Simulation.Machines.eq {m' : Machine} (h : sameRuns.Machines m m') : m = m' := by
  have hscopes := h.scopes_eq
  obtain ⟨-, hreport, hcalls, hraised, hmark⟩ := h
  cases m
  cases m'
  subst hscopes hreport hcalls hraised hmark
  rfl

/-- A call that does not meet the nesting limit is the same at a greater depth. -/
theorem run_call_deeper (hle : depth ≤ depth') (f : Value) (arguments : List Value)
    (hlimit : ((call rt depth f arguments).run m).2.exhausted = false) :
    (call rt depth' f arguments).run m = (call rt depth f arguments).run m := by
  have hcalls : sameRuns.Calls rt depth depth' :=
    (Simulation.follows (sameRuns_fits rt) (.inr ⟨trivial, hle⟩)).2
  have hself : sameRuns.Machines m m := by
    refine ⟨?_, rfl, rfl, rfl, rfl⟩
    refine List.forall₂_same.mpr fun s _ => List.forall₂_same.mpr fun e _ => ⟨rfl, ?_⟩
    exact Value.corresponds_refl (fun _ => rfl) e.2
  rcases hcalls (Value.corresponds_refl (fun _ => rfl) f)
      (Value.itemsCorrespond_refl (fun _ => rfl) arguments) hself with
    ⟨-, hdeep⟩ | ⟨hmachines, hresults⟩
  · rw [hlimit] at hdeep
    cases hdeep
  · exact Prod.ext (hresults.imp fun _ _ hv => hv.eq).eq.symm hmachines.eq.symm

theorem not_exhausted_stages_cons {f : Value} {fs : List Value} {v : Value}
    (hlimit : ((stages rt depth (f :: fs) v).run m).2.exhausted = false) :
    ((stages rt depth fs v).run m).2.exhausted = false := by
  rw [stages_cons] at hlimit
  exact Run.not_exhausted_of_bind (by simp) hlimit

/-- Stages that do not meet the nesting limit flatten, if calls at their depth do. -/
theorem run_stages_flattenedAll
    (hcall : ∀ f v m, ((call rt depth f [v]).run m).2.exhausted = false →
      (stages rt depth' f.flattened v).run m = (call rt depth f [v]).run m)
    {fs : List Value} {v : Value}
    (hlimit : ((stages rt depth fs v).run m).2.exhausted = false) :
    (stages rt depth' (Value.flattenedAll fs) v).run m = (stages rt depth fs v).run m := by
  induction fs with
  | nil => rfl
  | cons f fs ih =>
      have hrest := ih (not_exhausted_stages_cons hlimit)
      rw [stages_cons, Run.run_bind] at hlimit
      rw [Value.flattenedAll, stages_append, stages_cons, Run.run_bind, Run.run_bind, hrest]
      generalize (stages rt depth fs v).run m = ran at hlimit ⊢
      obtain ⟨r, m₁⟩ := ran
      cases r with
      | ok u => exact hcall f u m₁ hlimit
      | error fault => rfl

theorem run_stages_flattened (hle : depth ≤ depth') (f v : Value)
    (hlimit : ((call rt depth f [v]).run m).2.exhausted = false) :
    (stages rt depth' f.flattened v).run m = (call rt depth f [v]).run m := by
  induction depth generalizing f v m with
  | zero =>
      have hdeep : (m.noteFault none .tooDeep).exhausted = true := Machine.exhausted_noteFault rfl
      exact absurd (hdeep.symm.trans hlimit) (by decide)
  | succ depth ih =>
      obtain ⟨names, fs, rfl⟩ | hself := composition_or_stages_eq_call rt f v
      · have hstages := run_call_composition hlimit
        rw [hstages] at hlimit ⊢
        rw [Value.flattened]
        exact run_stages_flattenedAll (fun f v m => ih (Nat.le_of_succ_le hle) f v) hlimit
      · rw [hself]
        exact run_call_deeper hle _ _ hlimit

/-- Where a flattened composition does not meet the nesting limit, its last functions do not either. -/
theorem not_exhausted_stages_append {fs gs : List Value} {v : Value}
    (hlimit : ((stages rt depth (fs ++ gs) v).run m).2.exhausted = false) :
    ((stages rt depth gs v).run m).2.exhausted = false := by
  rw [stages_append] at hlimit
  refine Run.not_exhausted_of_bind (fun u => ?_) hlimit
  rw [stages, ← List.foldlM_reverse]
  exact Run.logs_stages rt depth fs.reverse u

/-- Stages are composed of functions at the bottom that do not meet the nesting limit, if calls of them
are. -/
theorem run_stages_of_flattenedAll {fs : List Value} {v : Value}
    (hcall : ∀ f ∈ fs, ∀ v m, ((stages rt depth f.flattened v).run m).2.exhausted = false →
      (call rt depth' f [v]).run m = (stages rt depth f.flattened v).run m)
    (hlimit : ((stages rt depth (Value.flattenedAll fs) v).run m).2.exhausted = false) :
    (stages rt depth' fs v).run m = (stages rt depth (Value.flattenedAll fs) v).run m := by
  induction fs with
  | nil => rfl
  | cons f fs ih =>
      obtain ⟨hf, hfs⟩ := List.forall_mem_cons.mp hcall
      rw [Value.flattenedAll] at hlimit ⊢
      have hrest := ih hfs (not_exhausted_stages_append hlimit)
      rw [stages_append, Run.run_bind] at hlimit
      rw [stages_append, stages_cons, Run.run_bind, Run.run_bind, hrest]
      generalize (stages rt depth (Value.flattenedAll fs) v).run m = ran at hlimit ⊢
      obtain ⟨r, m₁⟩ := ran
      cases r with
      | ok u => exact hf u m₁ hlimit
      | error fault => rfl

/-- A composition takes as many more levels than the functions at its bottom as it is nested. -/
theorem run_call_of_flattened (hpos : 0 < depth) {f : Value} (hle : depth + f.nesting ≤ depth') (v : Value)
    (hlimit : ((stages rt depth f.flattened v).run m).2.exhausted = false) :
    (call rt depth' f [v]).run m = (stages rt depth f.flattened v).run m := by
  induction depth' generalizing f v m with
  | zero => omega
  | succ below ih =>
      obtain ⟨names, fs, rfl⟩ | hself := composition_or_stages_eq_call rt f v
      · rw [Value.nesting] at hle
        obtain ⟨d, rfl⟩ : ∃ d, below = d + 1 := ⟨below - 1, by omega⟩
        rw [Value.flattened] at hlimit ⊢
        rw [call, callBy, pipeline_succ_eq_stages]
        refine run_stages_of_flattenedAll (fun f hf v m => ih ?_ v) hlimit
        have hnesting := Value.nesting_le_of_mem hf
        omega
      · rw [hself] at hlimit ⊢
        exact run_call_deeper (by omega) _ _ hlimit

end Limit

/-- What composed functions give is handed on to those before them. -/
theorem pipeline_append {depth : Nat} (fs : List Value) {gs : List Value} (hgs : gs ≠ [])
    (arguments : List Value) :
    pipeline (call rt (depth + 1)) (fs ++ gs) arguments =
      pipeline (call rt (depth + 1)) gs arguments >>= fun result =>
        pipeline (call rt (depth + 1)) fs [result] := by
  simp only [pipeline_succ_eq_stages]
  unfold pipeline stages
  rw [List.reverse_append]
  cases hreverse : gs.reverse with
  | nil => exact absurd (List.reverse_eq_nil_iff.mp hreverse) hgs
  | cons last others =>
      simp only [List.cons_append, bind_assoc, List.foldlM_append, List.foldlM_reverse]

/-- **Compositions flatten.** Take functions in whatever way they are nested in compositions, and an
argument. If their composition is called without meeting the nesting limit, the functions at the bottom,
called one by one from the last to the first until a call fails, do the same: they come to the same value
or fault and to the same machine, with the same calls on record. If these do not meet the limit, nor does
the composition, given as many more levels as compositions are nested. Functions that call no others do
the same in any case, as computations, as soon as there are more levels than compositions are nested. And
composed functions, called with any number of arguments, can be composed in two parts, of which the last
has some functions. -/
theorem composition_flattens (rt : Runtime) :
    (∀ (fs : List Value) (v : Value) (m : Machine) (depth depth' : Nat), depth ≤ depth' →
      ((pipeline (call rt depth) fs [v]).run m).2.exhausted = false →
      (pipeline (call rt depth) fs [v]).run m =
        (stages rt depth' (Value.flattenedAll fs) v).run m) ∧
    (∀ (fs : List Value) (v : Value) (m : Machine) (depth depth' : Nat), 0 < depth →
      depth + Value.nestingOfAll fs ≤ depth' →
      ((stages rt depth (Value.flattenedAll fs) v).run m).2.exhausted = false →
      (pipeline (call rt depth') fs [v]).run m =
        (stages rt depth (Value.flattenedAll fs) v).run m) ∧
    (∀ (fs : List Value) (v : Value) (n depth : Nat), (∀ name v, (rt.host name v).Direct) →
      (∀ f ∈ fs, f.Within n) → n < depth →
      pipeline (call rt depth) fs [v] = stages rt 1 (Value.flattenedAll fs) v) ∧
    ∀ (fs gs arguments : List Value) (depth : Nat), gs ≠ [] →
      pipeline (call rt (depth + 1)) (fs ++ gs) arguments =
        pipeline (call rt (depth + 1)) gs arguments >>= fun result =>
          pipeline (call rt (depth + 1)) fs [result] := by
  refine ⟨fun fs v m depth depth' hle hlimit => ?_, fun fs v m depth depth' hpos hle hlimit => ?_,
    fun fs v n depth hhost hfs hdepth => ?_,
    fun fs gs arguments depth hgs => pipeline_append fs hgs arguments⟩
  · -- A list of functions is called like a composition of them, one level below.
    have hcomposed : call rt (depth + 1) (.composition [] fs) [v] = pipeline (call rt depth) fs [v] := by
      rw [call, callBy]
    rw [← hcomposed] at hlimit ⊢
    have hstages := run_call_composition hlimit
    rw [hstages] at hlimit ⊢
    exact (run_stages_flattenedAll (fun f v m => run_stages_flattened hle f v) hlimit).symm
  · obtain ⟨d, rfl⟩ : ∃ d, depth' = d + 1 := ⟨depth' - 1, by omega⟩
    rw [pipeline_succ_eq_stages]
    refine run_stages_of_flattenedAll (fun f hf v m => run_call_of_flattened hpos ?_ v) hlimit
    have hnesting := Value.nesting_le_of_mem hf
    omega
  · obtain ⟨d, rfl⟩ : ∃ d, depth = d + 1 := ⟨depth - 1, by omega⟩
    rw [pipeline_succ_eq_stages]
    exact stages_eq_flattenedAll (fun f hf v => call_eq_stages_flattened hhost (hfs f hf) hdepth v) v

/-- A runtime with a function that fails, while all others put what they are called with into a list. -/
def Runtime.wrapping : Runtime where
  bound := []
  host name v := if name = "g" then .error (.notCallable name) else .ok (.list [v])
  bound_nodup := .nil
  bound_bodiesIn _ := List.forall_mem_nil _
  host_bodiesIn _ name _ hv := by
    split
    · exact trivial
    · exact .list (List.forall_mem_singleton.mpr hv)

/-- A composition without functions, one that nests a function that fails, and a function that is called
first: the failing function is the last one to be called. -/
theorem composition_flattens_failing :
    let f : Value := .foreign (.host "f")
    let g : Value := .foreign (.host "g")
    let fs : List Value := [.composition [] [], .composition ["f", "c"] [f, .composition ["g"] [g]], f]
    (∀ name v, (Runtime.wrapping.host name v).Direct) ∧ (∀ c ∈ fs, c.Within 2) ∧
      Value.flattenedAll fs = [f, g, f] ∧ Value.nestingOfAll fs = 2 ∧
      ((pipeline (call .wrapping 3) fs [.int 1]).run {}).1 = .error (.notCallable "g") ∧
      ((pipeline (call .wrapping 3) fs [.int 1]).run {}).2.calls = [.host "f", .host "g"] ∧
      (pipeline (call .wrapping 3) fs [.int 1]).run {} =
        (stages .wrapping 1 [f, g, f] (.int 1)).run {} := by
  intro f g fs
  have hhost : ∀ name v, (Runtime.wrapping.host name v).Direct := by
    intro name v
    by_cases hname : name = "g" <;> simp [Runtime.wrapping, hname, Response.Direct]
  have hf : ∀ n, f.Within n := fun _ => .atom rfl
  have hg : ∀ n, g.Within n := fun _ => .atom rfl
  have hfs : ∀ c ∈ fs, c.Within 2 := by
    have hinner : (Value.composition ["g"] [g]).Within 1 := .composition (by simp [hg])
    have hempty : (Value.composition [] []).Within 2 := .composition (List.forall_mem_nil _)
    have houter : (Value.composition ["f", "c"] [f, .composition ["g"] [g]]).Within 2 :=
      .composition (by simp [hf, hinner])
    simp [fs, hf, hempty, houter]
  obtain ⟨-, hnested, hdirect, -⟩ := composition_flattens .wrapping
  have hflat := hdirect fs (.int 1) 2 3 hhost hfs (by decide)
  refine ⟨hhost, hfs, rfl, rfl, ?_, ?_, hnested fs (.int 1) {} 1 3 (by decide) (by decide) rfl⟩
  · rw [hflat]
    rfl
  · rw [hflat]
    rfl

end ArrayExpr
