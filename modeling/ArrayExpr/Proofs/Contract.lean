import ArrayExpr.Evaluation
import ArrayExpr.Proofs.Run
import ArrayExpr.Proofs.Scope
import ArrayExpr.Proofs.TokenTree

/-!
Contracts: what a run promises, whatever program it evaluates. A contract speaks of the tokens that
are evaluated, of the values that are met on the way, and of what becomes of the machine. `Lawful`
lists what a contract has to allow because evaluation does it; that evaluation then keeps the
contract is proved once, in `ArrayExpr.Proofs.Evaluation`.

Changes are stated between moments, that is machines together with the fault that is on its way.
Raising a fault and catching it are then changes like all others, and a contract holds of runs that
fail just as of those that give a value.
-/

namespace ArrayExpr

/-- A machine in the middle of a run, and the fault that is on its way if there is one. -/
structure Moment where
  machine : Machine
  fault : Option Fault := none

/-- The moment at which a computation ends. -/
def Run.ending {α : Type} (x : Run α) (m : Machine) : Moment where
  machine := (x.run m).2
  fault :=
    match (x.run m).1 with
    | .ok _ => none
    | .error fault => some fault

/-- What is promised about runs. A change is stated for evaluations in a scope of their own, or for
those that have none and bind no name. -/
structure Contract where
  token : Token → Prop
  value : Machine → Value → Prop
  change : (own : Option Nat) → Moment → Moment → Prop

namespace Contract

def Store (C : Contract) (m : Machine) : Prop :=
  ∀ s ∈ m.scopes, ∀ e ∈ s, C.value m e.2

/-- From a machine whose scopes are as promised, a computation keeps the contract and ends with `Q`
if it does not fail. -/
def Keeps {α : Type} (C : Contract) (own : Option Nat) (m : Machine) (x : Run α)
    (Q : Machine → α → Prop) : Prop :=
  C.Store m →
    C.change own ⟨m, none⟩ (x.ending m) ∧ C.Store (x.run m).2 ∧
      ∀ a, (x.run m).1 = .ok a → Q (x.run m).2 a

/-- The changes that evaluation makes. Calls are caught at the tokens that make them. -/
structure Allows (token : Token → Prop) (change : Option Nat → Moment → Moment → Prop) : Prop where
  refl (own : Option Nat) (a : Moment) : change own a a
  trans {own : Option Nat} {a b c : Moment} : change own a b → change own b c → change own a c
  widen {own : Option Nat} {a b : Moment} : change none a b → change own a b
  /-- An evaluation in a scope that was opened for it has no scope of its own among the others. -/
  opened {m : Machine} {s : Scope} {b : Moment} :
    change (some m.scopes.length) ⟨m.addScope s, none⟩ b → change none ⟨m, none⟩ b
  bound (m : Machine) (i : Nat) (name : String) (v : Value) :
    change (some i) ⟨m, none⟩ ⟨m.bind i (.str name) v, none⟩
  marked (m : Machine) (mark : Nat) : change none ⟨m, none⟩ ⟨{ m with mark }, none⟩
  warned (m : Machine) (text : String) (details : List String) :
    change none ⟨m, none⟩ ⟨{ m with report := m.report.warn text details }, none⟩
  raised (m : Machine) (fault : Fault) :
    change none ⟨m, none⟩ ⟨m.noteFault none fault, some fault⟩
  caught (m : Machine) {t : Token} (fault : Fault) : token t → t.isCall →
    change none ⟨m, some fault⟩ ⟨{ m with report := m.report.issue t.span fault.report }, none⟩

/-- A contract that evaluation can keep: it allows the changes that evaluation makes, which take
nothing back that was promised of a value, and it promises no more of the values that evaluation
forms than of those that it takes apart. -/
structure Lawful (C : Contract) : Prop extends Allows C.token C.change where
  child {t c : Token} : C.token t → c ∈ t.children → C.token c
  stable {own : Option Nat} {a b : Moment} {v : Value} :
    C.change own a b → C.value a.machine v → C.value b.machine v
  none (m : Machine) : C.value m .none
  str (m : Machine) (s : String) : C.value m (.str s)
  undefined (m : Machine) (u : Undefined) : C.value m (.undefined u)
  passThrough (m : Machine) : C.value m (.foreign .passThrough)
  literal (m : Machine) {s : Span} {j : Json} : C.token (.literal s j) → C.value m (.ofJson j)
  failure (m : Machine) (s : Span) (fault : Fault) :
    C.value { m with report := m.report.issue s fault.report } .failure
  closure (m : Machine) {p : Json} {b : Token} {i : Nat} : C.token b → C.value m (.closure p b i)
  body {m : Machine} {p : Json} {b : Token} {i : Nat} : C.value m (.closure p b i) → C.token b
  composition {m : Machine} (names : List String) {fs : List Value} :
    (∀ f ∈ fs, C.value m f) → C.value m (.composition names fs)
  stage {m : Machine} {names : List String} {fs : List Value} :
    C.value m (.composition names fs) → ∀ f ∈ fs, C.value m f
  dict {m : Machine} {entries : List (Key × Value)} :
    (∀ e ∈ entries, C.value m e.1.toValue ∧ C.value m e.2) → C.value m (.dict entries)
  entry {m : Machine} {entries : List (Key × Value)} :
    C.value m (.dict entries) → ∀ e ∈ entries, C.value m e.2
  member {m : Machine} {v : Value} {vs : List Value} :
    C.value m v → v.members? = some vs → ∀ w ∈ vs, C.value m w

def ofChange (change : Option Nat → Moment → Moment → Prop) : Contract where
  token _ := True
  value _ _ := True
  change

theorem ofChange_lawful {change : Option Nat → Moment → Moment → Prop}
    (h : Allows (fun _ => True) change) : (ofChange change).Lawful where
  toAllows := h
  child _ _ := trivial
  stable _ _ := trivial
  none _ := trivial
  str _ _ := trivial
  undefined _ _ := trivial
  passThrough _ := trivial
  literal _ _ _ _ := trivial
  failure _ _ _ := trivial
  closure _ _ _ _ _ := trivial
  body _ := trivial
  composition _ _ _ := trivial
  stage _ _ _ := trivial
  dict _ := trivial
  entry _ _ _ := trivial
  member _ _ _ _ := trivial

end Contract

/-! ### Keeping a contract, step by step -/

section Rules

variable {α β : Type} {m m' : Machine}

theorem Run.ending_ok {x : Run α} {a : α} (h : x.run m = (.ok a, m')) :
    x.ending m = ⟨m', none⟩ := by
  simp [Run.ending, h]

theorem Run.ending_error {x : Run α} {fault : Fault} (h : x.run m = (.error fault, m')) :
    x.ending m = ⟨m', some fault⟩ := by
  simp [Run.ending, h]

namespace Contract

variable {C : Contract} {own : Option Nat} {Q : Machine → α → Prop} {R : Machine → β → Prop}
  {x : Run α}

/-- A change that leaves the scopes alone keeps what is promised of their values. -/
theorem Store.of_change (L : C.Lawful) {fault fault' : Option Fault} (hstore : C.Store m)
    (hchange : C.change own ⟨m, fault⟩ ⟨m', fault'⟩) (hscopes : m'.scopes = m.scopes) :
    C.Store m' := by
  intro s hs e he
  rw [hscopes] at hs
  exact L.stable hchange (hstore s hs e he)

namespace Keeps

theorem of_ok {a : α} (hrun : x.run m = (.ok a, m')) (hchange : C.change own ⟨m, none⟩ ⟨m', none⟩)
    (hstore : C.Store m → C.Store m') (ha : C.Store m → Q m' a) : C.Keeps own m x Q := by
  intro hm
  rw [Run.ending_ok hrun, hrun]
  refine ⟨hchange, hstore hm, ?_⟩
  rintro b ⟨⟩
  exact ha hm

theorem of_error {fault : Fault} (hrun : x.run m = (.error fault, m'))
    (hchange : C.change own ⟨m, none⟩ ⟨m', some fault⟩) (hstore : C.Store m → C.Store m') :
    C.Keeps own m x Q := by
  intro hm
  rw [Run.ending_error hrun, hrun]
  refine ⟨hchange, hstore hm, ?_⟩
  rintro b ⟨⟩

theorem done (L : C.Lawful) {a : α} (ha : C.Store m → Q m a) : C.Keeps own m (pure a) Q :=
  of_ok rfl (L.refl own _) id ha

theorem raise (L : C.Lawful) (fault : Fault) : C.Keeps own m (Run.raise none fault) Q :=
  have hraised := L.raised m fault
  of_error rfl (L.widen hraised) fun hm => hm.of_change L hraised rfl

theorem widen (L : C.Lawful) (hx : C.Keeps none m x Q) : C.Keeps own m x Q := by
  intro hm
  obtain ⟨hchange, hrest⟩ := hx hm
  exact ⟨L.widen hchange, hrest⟩

/-- The second part of a computation may use what the first one has promised, and that the machine
has come to where it is by a change. -/
theorem andThen (L : C.Lawful) {f : α → Run β} (hx : C.Keeps own m x Q)
    (hf : ∀ a m', C.change own ⟨m, none⟩ ⟨m', none⟩ → Q m' a → C.Keeps own m' (f a) R) :
    C.Keeps own m (x >>= f) R := by
  intro hm
  obtain ⟨hchange, hstore, hQ⟩ := hx hm
  cases hrun : x.run m with
  | mk r m' =>
      cases r with
      | ok a =>
          rw [Run.ending_ok hrun] at hchange
          rw [hrun] at hstore hQ
          have hbind : (x >>= f).run m = (f a).run m' := by rw [Run.run_bind, hrun]
          have hending : (x >>= f).ending m = (f a).ending m' := by simp only [Run.ending, hbind]
          obtain ⟨hnext, hrest⟩ := hf a m' hchange (hQ a rfl) hstore
          rw [hending, hbind]
          exact ⟨L.trans hchange hnext, hrest⟩
      | error fault =>
          rw [Run.ending_error hrun] at hchange
          rw [hrun] at hstore
          have hbind : (x >>= f).run m = (.error fault, m') := by rw [Run.run_bind, hrun]
          exact of_error hbind hchange (fun _ => hstore) hm

theorem reading {f : Machine → Run β} (hf : C.Keeps own m (f m) R) :
    C.Keeps own m (get >>= f) R :=
  hf

/-- A step that changes something else than the scopes. -/
theorem step (L : C.Lawful) {f : Machine → Machine}
    (hchange : C.change own ⟨m, none⟩ ⟨f m, none⟩) (hscopes : (f m).scopes = m.scopes) :
    C.Keeps own m (modify f) fun _ _ => True :=
  of_ok (Run.run_modify m f) hchange (fun hm => hm.of_change L hchange hscopes) fun _ => trivial

end Keeps

theorem lift_andThen (L : C.Lawful) {result : Except Fault α} {f : α → Run β}
    (hok : ∀ a, result = .ok a → C.Keeps own m (f a) R) :
    C.Keeps own m (Run.lift result >>= f) R := by
  cases result with
  | ok a => exact hok a rfl
  | error fault => exact Keeps.raise L fault

theorem marking_keeps (L : C.Lawful) {f : Nat → Except Fault (α × Nat)}
    (hok : ∀ a mark, f m.mark = .ok (a, mark) → Q { m with mark } a) :
    C.Keeps own m (Run.marking f) Q := by
  refine Keeps.reading (lift_andThen L fun r hr => ?_)
  obtain ⟨a, mark⟩ := r
  exact Keeps.of_ok (Run.run_bind m _ _) (L.widen (L.marked m mark))
    (fun hm => hm.of_change L (L.marked m mark) rfl) fun _ => hok a mark hr

theorem warn_keeps (L : C.Lawful) (text : String) (details : List String) :
    C.Keeps own m (Run.reportBy (·.warn text details)) fun _ _ => True :=
  Keeps.step L (L.widen (L.warned m text details)) rfl

/-- Calls by `call` keep a contract if what is called and the arguments are as promised. -/
def Calls (C : Contract) (call : Value → List Value → Run Value) : Prop :=
  ∀ m f arguments, C.value m f → (∀ a ∈ arguments, C.value m a) →
    C.Keeps none m (call f arguments) C.value

end Contract

end Rules

end ArrayExpr
