import ArrayExpr.Proofs.Contract

/-!
Foreign functions under a contract. A function of the host is judged by its responses, which may be
long conversations: `Contract.Answers` says what has to hold of a response for every call that it
makes and everything that it hears back, and `Contract.respond_keeps` carries that through to its end.
-/

namespace ArrayExpr

theorem Run.run_attempt {α : Type} (m : Machine) (handles : Fault → Bool) (x : Run α) :
    (Run.attempt handles x).run m =
      match x.run m with
      | (.ok a, m') => (.ok (.ok a), m')
      | (.error fault, m') =>
        if handles fault then (.ok (.error fault), m') else (.error fault, m') := by
  rw [Run.attempt, Run.run_tryCatch, Run.run_map]
  cases x.run m with
  | mk r m' =>
      cases r with
      | ok a => rfl
      | error fault =>
          cases h : handles fault with
          | true => simp [Except.map, h]
          | false => simp [Except.map, h]

namespace Contract

variable {C : Contract} {m : Machine} {rt : Runtime} {call : Value → List Value → Run Value}

/-- A response is as promised if it gives such a value, calls what it may call with what it may hand
on, and is as promised in all that follows. `source` is the function that gives it. -/
structure Answers (C : Contract) (source : Foreign) (answer : Machine → Response → Prop) : Prop where
  ok {m : Machine} {v : Value} : answer m (.ok v) → C.value m v
  error {m : Machine} {fault : Fault} : answer m (.error fault) →
    C.change none ⟨m, none⟩ ⟨m.noteFault (some source) fault, some fault⟩
  callee {m : Machine} {f : Value} {arguments : List Value} {handles : Fault → Bool}
    {next : Except Fault Value → Response} : answer m (.call f arguments handles next) →
    C.value m f ∧ ∀ a ∈ arguments, C.value m a
  returned {m m' : Machine} {f : Value} {arguments : List Value} {handles : Fault → Bool}
    {next : Except Fault Value → Response} {v : Value} : answer m (.call f arguments handles next) →
    C.change none ⟨m, none⟩ ⟨m', none⟩ → C.value m' v → answer m' (next (.ok v))
  handled {m m' : Machine} {f : Value} {arguments : List Value} {handles : Fault → Bool}
    {next : Except Fault Value → Response} {fault : Fault} :
    answer m (.call f arguments handles next) → C.change none ⟨m, none⟩ ⟨m', some fault⟩ →
    handles fault = true →
    C.change none ⟨m', some fault⟩ ⟨m', none⟩ ∧ answer m' (next (.error fault))
  review {m : Machine} {next : List Foreign → Response} (calls : List Foreign) :
    answer m (.review next) → answer m (next calls)

def Attempted (C : Contract) (handles : Fault → Bool) (m m' : Machine) : Except Fault Value → Prop
  | .ok v => C.value m' v
  | .error fault => C.change none ⟨m, none⟩ ⟨m', some fault⟩ ∧ handles fault = true

theorem attempt_keeps (L : C.Lawful) {handles : Fault → Bool} {x : Run Value}
    (hx : C.Keeps none m x C.value)
    (hhandled : ∀ m' fault, C.change none ⟨m, none⟩ ⟨m', some fault⟩ → handles fault = true →
      C.change none ⟨m', some fault⟩ ⟨m', none⟩) :
    C.Keeps none m (Run.attempt handles x) (C.Attempted handles m) := by
  intro hm
  obtain ⟨hchange, hstore, hvalue⟩ := hx hm
  cases hrun : x.run m with
  | mk r m' =>
      rw [hrun] at hstore hvalue
      cases r with
      | ok v =>
          rw [Run.ending_ok hrun] at hchange
          have hok : (Run.attempt handles x).run m = (.ok (.ok v), m') := by
            rw [Run.run_attempt, hrun]
          exact Keeps.of_ok hok hchange (fun _ => hstore) (fun _ => hvalue v rfl) hm
      | error fault =>
          rw [Run.ending_error hrun] at hchange
          cases h : handles fault with
          | true =>
              have hok : (Run.attempt handles x).run m = (.ok (.error fault), m') := by
                simp [Run.run_attempt, hrun, h]
              exact Keeps.of_ok hok (L.trans hchange (hhandled m' fault hchange h))
                (fun _ => hstore) (fun _ => ⟨hchange, h⟩) hm
          | false =>
              have herror : (Run.attempt handles x).run m = (.error fault, m') := by
                simp [Run.run_attempt, hrun, h]
              exact Keeps.of_error herror hchange (fun _ => hstore) hm

theorem respond_keeps (L : C.Lawful) (hcall : C.Calls call) {source : Foreign}
    {answer : Machine → Response → Prop} (hanswers : C.Answers source answer) (r : Response)
    (hr : answer m r) : C.Keeps none m (respond call source r) C.value := by
  induction r generalizing m with
  | ok v => exact Keeps.done L fun _ => hanswers.ok hr
  | error fault =>
      have hchange := hanswers.error hr
      exact Keeps.of_error (Run.run_raise m _ _) hchange fun hm => hm.of_change L hchange rfl
  | call f arguments handles next ih =>
      obtain ⟨hf, harguments⟩ := hanswers.callee hr
      have hhandled := fun m' fault hlater hfault =>
        (@hanswers.handled m m' f arguments handles next fault hr hlater hfault).1
      refine Keeps.andThen L (attempt_keeps L (hcall m f arguments hf harguments) hhandled) ?_
      intro result m' hlater hresult
      cases result with
      | ok v => exact ih (.ok v) (hanswers.returned hr hlater hresult)
      | error fault => exact ih (.error fault) (hanswers.handled hr hresult.1 hresult.2).2
  | review next ih => exact Keeps.reading (ih m.calls (hanswers.review m.calls hr))

/-- A function with the wrong number of arguments is not carried out. -/
theorem callForeign_keeps (L : C.Lawful) {f : Foreign}
    (hone : ∀ m a, C.value m a → C.Keeps none m (callForeign rt call f [a]) C.value) :
    C.Calls fun _ arguments => callForeign rt call f arguments := by
  intro m _ arguments _ harguments
  match arguments with
  | [] => exact Keeps.raise L _
  | [a] => exact hone m a (harguments a (by simp))
  | _ :: _ :: _ => exact Keeps.raise L _

theorem passThrough_keeps (L : C.Lawful) {a : Value} (ha : C.value m a) :
    C.Keeps none m (callForeign rt call .passThrough [a]) C.value :=
  Keeps.done L fun _ => ha

theorem noteCall_keeps (L : C.Lawful) {f : Foreign}
    (hcalled : C.change none ⟨m, none⟩ ⟨m.noteCall f, none⟩) :
    C.Keeps none m (modify (·.noteCall f)) fun m' _ => m' = m.noteCall f :=
  Keeps.of_ok (Run.run_modify m _) hcalled (fun hm => hm.of_change L hcalled rfl) fun _ => rfl

theorem capability_keeps (L : C.Lawful) {c : Capability}
    {a : Value} (hcalled : ∀ m, C.change none ⟨m, none⟩ ⟨m.noteCall (.capability c), none⟩)
    (hraised : ∀ m fault, c.run a = .error fault →
      C.change none ⟨m, none⟩ ⟨m.noteFault (some (.capability c)) fault, some fault⟩)
    (hresult : ∀ m' r mark, c.run a = .ok r → C.value m' (r.marked mark).1) :
    C.Keeps none m (callForeign rt call (.capability c) [a]) C.value := by
  refine Keeps.andThen L (noteCall_keeps L (hcalled m)) ?_
  rintro _ m' _ -
  cases h : c.run a with
  | ok r =>
      show C.Keeps none m' (Run.marking fun mark => .ok (r.marked mark)) C.value
      refine marking_keeps L fun v mark hmarked => ?_
      have hv : (r.marked m'.mark).1 = v := congrArg Prod.fst (Except.ok.inj hmarked)
      exact hv ▸ hresult _ r _ h
  | error fault =>
      have hchange := hraised m' fault h
      exact Keeps.of_error (Run.run_raise m' _ _) hchange fun hm => hm.of_change L hchange rfl

theorem host_keeps (L : C.Lawful) (hcall : C.Calls call) {name : String}
    (hcalled : ∀ m, C.change none ⟨m, none⟩ ⟨m.noteCall (.host name), none⟩)
    {answer : Machine → Response → Prop} (hanswers : C.Answers (.host name) answer) {a : Value}
    (ha : answer (m.noteCall (.host name)) (rt.host name a)) :
    C.Keeps none m (callForeign rt call (.host name) [a]) C.value := by
  refine Keeps.andThen L (noteCall_keeps L (hcalled m)) ?_
  rintro _ m' _ rfl
  exact respond_keeps L hcall hanswers _ ha

/-- A contract that is lawful and fits a runtime: what the runtime binds is as promised, and so is
what foreign functions do if the calls that they make are. -/
structure Admits (C : Contract) (rt : Runtime) : Prop extends C.Lawful where
  binding (m : Machine) : ∀ e ∈ rt.bindings, C.value m e.2
  foreign {call : Value → List Value → Run Value} : C.Calls call →
    ∀ f, C.Calls fun _ arguments => callForeign rt call f arguments

/-- A contract that speaks of changes only fits every runtime, whatever its functions do, if it allows
calls and faults to be noted and faults to be handled. -/
theorem ofChange_admits {change : Option Nat → Moment → Moment → Prop}
    (h : Allows (fun _ => True) change)
    (hcalled : ∀ f m, change none ⟨m, none⟩ ⟨m.noteCall f, none⟩)
    (hraised : ∀ f m fault, change none ⟨m, none⟩ ⟨m.noteFault (some f) fault, some fault⟩)
    (hhandled : ∀ m fault, change none ⟨m, some fault⟩ ⟨m, none⟩) (rt : Runtime) :
    (ofChange change).Admits rt := by
  have L := ofChange_lawful h
  have hanswers : ∀ f, (ofChange change).Answers f fun _ _ => True := fun f =>
    { ok := fun _ => trivial
      error := fun _ => hraised f _ _
      callee := fun _ => ⟨trivial, fun _ _ => trivial⟩
      returned := fun _ _ _ => trivial
      handled := fun _ _ _ => ⟨hhandled _ _, trivial⟩
      review := fun _ _ => trivial }
  refine { toLawful := L, binding := fun _ _ _ => trivial, foreign := fun hcall f => ?_ }
  refine callForeign_keeps L fun m a ha => ?_
  cases f with
  | passThrough => exact passThrough_keeps L ha
  | capability c =>
      exact capability_keeps L (hcalled _) (fun m fault _ => hraised _ m fault) fun _ _ _ _ => trivial
  | host name => exact host_keeps L hcall (hcalled _) (hanswers _) trivial

end Contract

end ArrayExpr
