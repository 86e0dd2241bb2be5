import ArrayExpr.Proofs.Foreign
import ArrayExpr.Proofs.Marking

/-!
Two computations in lockstep. Machines are alike if scopes that stand for each other have values that
are alike, and if their reports and calls compare as asked; a comparison says what is asked. From
machines that are alike, two computations in lockstep come to machines that are alike, and to results
that are alike or to the same fault. Both open scopes and make undefined numbers at the same time, so
that the link between them is fixed in advance.
-/

namespace ArrayExpr

/-- A link among the scopes and the undefined numbers that two machines have so far. -/
def Link.among (L : Link) (m m' : Machine) : Link :=
  L.below m.scopes.length m'.scopes.length m.mark m'.mark

def Link.Exclusive (L : Link) (scope scope' : Nat) : Prop :=
  ∀ i j, L.scopes i j → (i = scope ↔ j = scope')

/-- What is asked of two machines beside that their values are alike. -/
structure Comparison where
  scope : (Value → Value → Prop) → Scope → Scope → Prop
  report : Report → Report → Prop
  calls : List Foreign → List Foreign → Prop

/-- Machines that are alike. Scopes that are not open yet are going to be opened in step, and
undefined numbers that are not made yet are going to be made in step. -/
structure Machine.Alike (C : Comparison) (L : Link) (m m' : Machine) : Prop where
  scope : ∀ i j, (L.among m m').scopes i j →
    C.scope (Value.Alike (L.among m m')) (m.scope i) (m'.scope j)
  opened : ∀ c, L.scopes (m.scopes.length + c) (m'.scopes.length + c)
  paired : ∀ i j, L.scopes i j → m.scopes.length ≤ i ∨ m'.scopes.length ≤ j →
    ∃ c, i = m.scopes.length + c ∧ j = m'.scopes.length + c
  distinguishes : L.Distinguishes
  inStep : L.InStep m.mark m'.mark
  report : C.report m.report m'.report
  calls : C.calls m.calls m'.calls

/-- Scopes are only added, and so are undefined numbers. -/
structure Machine.Grows (m m₁ : Machine) : Prop where
  scopes : m.scopes.length ≤ m₁.scopes.length
  mark : m.mark ≤ m₁.mark

namespace Machine.Grows

theorem refl (m : Machine) : m.Grows m :=
  ⟨Nat.le_refl _, Nat.le_refl _⟩

theorem trans {m m₁ m₂ : Machine} (h : m.Grows m₁) (h' : m₁.Grows m₂) : m.Grows m₂ :=
  ⟨Nat.le_trans h.scopes h'.scopes, Nat.le_trans h.mark h'.mark⟩

end Machine.Grows

theorem Link.among_le_among (L : Link) {m m' m₁ m₁' : Machine} (h : m.Grows m₁) (h' : m'.Grows m₁') :
    L.among m m' ≤ L.among m₁ m₁' :=
  below_le_below h.scopes h'.scopes h.mark h'.mark

/-- Responses that are alike: they give values that are alike or fail in the same way, make calls that
are alike, and are alike in all that follows. `calls` says which histories they may not tell apart. -/
inductive Response.Alike (calls : List Foreign → List Foreign → Prop) :
    Link → Response → Response → Prop where
  | ok {K : Link} {v v' : Value} : v.Alike K v' → Alike calls K (.ok v) (.ok v')
  | error {K : Link} (fault : Fault) : Alike calls K (.error fault) (.error fault)
  | call {K : Link} {f f' : Value} {arguments arguments' : List Value} {handles : Fault → Bool}
      {next next' : Except Fault Value → Response} : f.Alike K f' →
      Value.ItemsAlike K arguments arguments' →
      (∀ K' r r', K ≤ K' → K'.Distinguishes → ResultsAlike (Value.Alike K') r r' →
        Alike calls K' (next r) (next' r')) →
      Alike calls K (.call f arguments handles next) (.call f' arguments' handles next')
  | review {K : Link} {next next' : List Foreign → Response} :
      (∀ history history', calls history history' →
        Alike calls K (next history) (next' history')) →
      Alike calls K (.review next) (.review next')

/-- A runtime that does not tell values apart that are alike, nor histories of calls that are related
by `calls`. The values that it binds are its own: they refer to nothing that a run has made. -/
structure Runtime.Uniform (rt : Runtime) (calls : List Foreign → List Foreign → Prop) : Prop where
  binding (K : Link) : ∀ e ∈ rt.bindings, e.2.Alike K e.2
  host {K : Link} (name : String) {v v' : Value} : K.Distinguishes → v.Alike K v' →
    (rt.host name v).Alike calls K (rt.host name v')

/-- A comparison that evaluation on a runtime keeps: binding a name, warnings, issues and calls
preserve it, and names are found alike. -/
structure Comparison.Fits (C : Comparison) (rt : Runtime) : Prop extends rt.Uniform C.calls where
  mono {R R' : Value → Value → Prop} {s s' : Scope} : (∀ v v', R v v' → R' v v') →
    C.scope R s s' → C.scope R' s s'
  insert {R : Value → Value → Prop} {s s' : Scope} {v v' : Value} (key : Key) : C.scope R s s' →
    R v v' → C.scope R (key.insert v s) (key.insert v' s')
  lookup {R : Value → Value → Prop} {s s' : Scope} (key : Key) : (∀ e ∈ rt.bindings, R e.2 e.2) →
    C.scope R s s' → Option.Rel R (key.lookup? (rt.merged s)) (key.lookup? (rt.merged s'))
  names {R : Value → Value → Prop} {s s' : Scope} : C.scope R s s' →
    sortedNames (rt.merged s) = sortedNames (rt.merged s')
  warned {r r' : Report} (text : String) (details : List String) : C.report r r' →
    C.report (r.warn text details) (r'.warn text details)
  issued {r r' : Report} (span : Span) (text : String) : C.report r r' →
    C.report (r.issue span text) (r'.issue span text)
  called {history history' : List Foreign} (f : Foreign) : C.calls history history' →
    C.calls (history ++ [f]) (history' ++ [f])

/-- From machines that are alike, two computations come to machines that are alike, and to results
related by `Q` or to the same fault. -/
def Comparison.Lockstep {α β : Type} (C : Comparison) (L : Link) (m m' : Machine) (x : Run α)
    (x' : Run β) (Q : Link → α → β → Prop) : Prop :=
  m.Alike C L m' →
    (x.run m).2.Alike C L (x'.run m').2 ∧ m.Grows (x.run m).2 ∧ m'.Grows (x'.run m').2 ∧
      ResultsAlike (Q (L.among (x.run m).2 (x'.run m').2)) (x.run m).1 (x'.run m').1

/-! ### Machines -/

namespace Machine.Alike

variable {C : Comparison} {L : Link} {rt : Runtime} {m m' m₁ m₁' : Machine}

/-- A change of something else than the scopes and the marks. -/
theorem of_same (h : m.Alike C L m') (hscopes : m₁.scopes = m.scopes) (hmark : m₁.mark = m.mark)
    (hscopes' : m₁'.scopes = m'.scopes) (hmark' : m₁'.mark = m'.mark)
    (hreport : C.report m₁.report m₁'.report) (hcalls : C.calls m₁.calls m₁'.calls) :
    m₁.Alike C L m₁' := by
  have hamong : L.among m₁ m₁' = L.among m m' := by
    simp only [Link.among, hscopes, hmark, hscopes', hmark']
  have hscope : ∀ i, m₁.scope i = m.scope i := fun i => by simp only [Machine.scope, hscopes]
  have hscope' : ∀ j, m₁'.scope j = m'.scope j := fun j => by simp only [Machine.scope, hscopes']
  constructor
  · intro i j hij
    rw [hamong] at hij ⊢
    rw [hscope, hscope']
    exact h.scope i j hij
  · rw [hscopes, hscopes']
    exact h.opened
  · rw [hscopes, hscopes']
    exact h.paired
  · exact h.distinguishes
  · rw [hmark, hmark']
    exact h.inStep
  · exact hreport
  · exact hcalls

/-- Undefined numbers are made in step. -/
theorem advance (fits : C.Fits rt) (h : m.Alike C L m') (c : Nat) :
    Alike C L { m with mark := m.mark + c } { m' with mark := m'.mark + c } where
  scope i j hij := by
    have hle : L.among m m' ≤ L.among { m with mark := m.mark + c } { m' with mark := m'.mark + c } :=
      Link.le_advanced c
    exact fits.mono (fun _ _ hv => hv.mono hle) (h.scope i j hij)
  opened := h.opened
  paired := h.paired
  distinguishes := h.distinguishes
  inStep := h.inStep.add c
  report := h.report
  calls := h.calls

/-- The scopes that are opened next stand for each other and for nothing else. -/
theorem exclusive_next (h : m.Alike C L m') : L.Exclusive m.scopes.length m'.scopes.length := by
  intro i j hij
  constructor
  · rintro rfl
    obtain ⟨c, hc, rfl⟩ := h.paired _ j hij (.inl (Nat.le_refl _))
    omega
  · rintro rfl
    obtain ⟨c, rfl, hc⟩ := h.paired i _ hij (.inr (Nat.le_refl _))
    omega

theorem addScope (fits : C.Fits rt) (h : m.Alike C L m') {s s' : Scope}
    (hs : C.scope (Value.Alike (L.among m m')) s s') :
    (m.addScope s).Alike C L (m'.addScope s') := by
  have hgrows : m.Grows (m.addScope s) := ⟨by simp, Nat.le_refl _⟩
  have hgrows' : m'.Grows (m'.addScope s') := ⟨by simp, Nat.le_refl _⟩
  have hmono := fun v v' (hv : Value.Alike (L.among m m') v v') =>
    hv.mono (L.among_le_among hgrows hgrows')
  constructor
  · rintro i j ⟨hij, hi, hj⟩
    rw [m.length_addScope] at hi
    rw [m'.length_addScope] at hj
    by_cases hold : i < m.scopes.length ∧ j < m'.scopes.length
    · rw [m.scope_addScope_of_lt s hold.1, m'.scope_addScope_of_lt s' hold.2]
      exact fits.mono hmono (h.scope i j ⟨hij, hold⟩)
    · -- One of the two is the new scope, so both are.
      have hnew : i = m.scopes.length ∧ j = m'.scopes.length := by
        have hiff := h.exclusive_next i j hij
        omega
      obtain ⟨rfl, rfl⟩ := hnew
      rw [m.scope_addScope, m'.scope_addScope]
      exact fits.mono hmono hs
  · intro c
    have hpair := h.opened (1 + c)
    rwa [← Nat.add_assoc, ← Nat.add_assoc, ← m.length_addScope s, ← m'.length_addScope s'] at hpair
  · intro i j hij hlate
    rw [m.length_addScope, m'.length_addScope] at hlate ⊢
    obtain ⟨c, rfl, rfl⟩ := h.paired i j hij (by omega)
    exact ⟨c - 1, by omega, by omega⟩
  · exact h.distinguishes
  · exact h.inStep
  · exact h.report
  · exact h.calls

theorem bind (fits : C.Fits rt) (h : m.Alike C L m') {scope scope' : Nat}
    (hscope : (L.among m m').scopes scope scope') (hexclusive : L.Exclusive scope scope') (key : Key)
    {v v' : Value} (hv : v.Alike (L.among m m') v') :
    (m.bind scope key v).Alike C L (m'.bind scope' key v') := by
  have hamong : L.among (m.bind scope key v) (m'.bind scope' key v') = L.among m m' := by
    simp [Link.among, Machine.bind]
  constructor
  · intro i j hij
    rw [hamong] at hij ⊢
    have hiff := hexclusive i j hij.1
    by_cases hi : i = scope
    · obtain rfl := hi
      obtain rfl := hiff.mp rfl
      rw [m.scope_bind_self hscope.2.1, m'.scope_bind_self hscope.2.2]
      exact fits.insert key (h.scope _ _ hscope) hv
    · have hj : j ≠ scope' := fun hj => hi (hiff.mpr hj)
      rw [m.scope_bind_of_ne (Ne.symm hi), m'.scope_bind_of_ne (Ne.symm hj)]
      exact h.scope i j hij
  · rw [m.length_bind, m'.length_bind]
    exact h.opened
  · rw [m.length_bind, m'.length_bind]
    exact h.paired
  · exact h.distinguishes
  · exact h.inStep
  · exact h.report
  · exact h.calls

end Machine.Alike

/-! ### Rules -/

namespace Comparison.Lockstep

variable {α β γ δ : Type} {C : Comparison} {L : Link} {rt : Runtime} {m m' m₁ m₁' : Machine}
  {x : Run α} {x' : Run β} {Q : Link → α → β → Prop} {R : Link → γ → δ → Prop}

theorem of_ok {a : α} {b : β} (hrun : x.run m = (.ok a, m₁)) (hrun' : x'.run m' = (.ok b, m₁'))
    (hgrows : m.Grows m₁) (hgrows' : m'.Grows m₁')
    (halike : m.Alike C L m' → m₁.Alike C L m₁') (hQ : m.Alike C L m' → Q (L.among m₁ m₁') a b) :
    C.Lockstep L m m' x x' Q := by
  intro hm
  rw [hrun, hrun']
  exact ⟨halike hm, hgrows, hgrows', .ok (hQ hm)⟩

theorem of_error {fault : Fault} (hrun : x.run m = (.error fault, m₁))
    (hrun' : x'.run m' = (.error fault, m₁')) (hgrows : m.Grows m₁) (hgrows' : m'.Grows m₁')
    (halike : m.Alike C L m' → m₁.Alike C L m₁') : C.Lockstep L m m' x x' Q := by
  intro hm
  rw [hrun, hrun']
  exact ⟨halike hm, hgrows, hgrows', .error fault⟩

theorem done {a : α} {b : β} (hQ : m.Alike C L m' → Q (L.among m m') a b) :
    C.Lockstep L m m' (pure a) (pure b) Q :=
  of_ok rfl rfl (.refl m) (.refl m') id hQ

theorem raise (source : Option Foreign) (fault : Fault) :
    C.Lockstep L m m' (Run.raise source fault) (Run.raise source fault) Q :=
  of_error rfl rfl ⟨Nat.le_refl _, Nat.le_refl _⟩ ⟨Nat.le_refl _, Nat.le_refl _⟩ fun hm =>
    hm.of_same rfl rfl rfl rfl hm.report hm.calls

/-- The second parts go on from where the first ones have ended. -/
theorem andThen {f : α → Run γ} {f' : β → Run δ} (hx : C.Lockstep L m m' x x' Q)
    (hf : ∀ a b m₁ m₁', m.Grows m₁ → m'.Grows m₁' → Q (L.among m₁ m₁') a b →
      C.Lockstep L m₁ m₁' (f a) (f' b) R) :
    C.Lockstep L m m' (x >>= f) (x' >>= f') R := by
  intro hm
  obtain ⟨halike, hgrows, hgrows', hresults⟩ := hx hm
  rw [Run.run_bind, Run.run_bind]
  generalize x.run m = ran, x'.run m' = ran' at halike hgrows hgrows' hresults ⊢
  obtain ⟨r, m₁⟩ := ran
  obtain ⟨r', m₁'⟩ := ran'
  cases hresults with
  | error fault => exact ⟨halike, hgrows, hgrows', .error fault⟩
  | ok hQ =>
      obtain ⟨hlater, hmore, hmore', hresults⟩ := hf _ _ m₁ m₁' hgrows hgrows' hQ halike
      exact ⟨hlater, hgrows.trans hmore, hgrows'.trans hmore', hresults⟩

theorem reading {f : Machine → Run γ} {f' : Machine → Run δ}
    (hf : m.Alike C L m' → C.Lockstep L m m' (f m) (f' m') R) :
    C.Lockstep L m m' (get >>= f) (get >>= f') R :=
  fun hm => hf hm hm

theorem lift_andThen {r : Except Fault α} {f : α → Run γ} {f' : α → Run δ}
    (hok : ∀ a, r = .ok a → C.Lockstep L m m' (f a) (f' a) R) :
    C.Lockstep L m m' (Run.lift r >>= f) (Run.lift r >>= f') R := by
  cases r with
  | ok a => exact hok a rfl
  | error fault => exact raise none fault

/-- What is made with marks is made in step. -/
theorem marking (fits : C.Fits rt) {f : Nat → Except Fault (α × Nat)}
    {f' : Nat → Except Fault (β × Nat)}
    (hf : m.Alike C L m' → ResultsAlike
      (L.Made m.scopes.length m'.scopes.length m.mark m'.mark Q) (f m.mark) (f' m'.mark)) :
    C.Lockstep L m m' (Run.marking f) (Run.marking f') Q := by
  intro hm
  have hresults := hf hm
  rw [Run.run_marking, Run.run_marking]
  generalize f m.mark = r, f' m'.mark = r' at hresults ⊢
  cases hresults with
  | error fault =>
      have halike : (m.noteFault none fault).Alike C L (m'.noteFault none fault) :=
        hm.of_same rfl rfl rfl rfl hm.report hm.calls
      exact ⟨halike, ⟨Nat.le_refl _, Nat.le_refl _⟩, ⟨Nat.le_refl _, Nat.le_refl _⟩, .error fault⟩
  | @ok r r' hmade =>
      obtain ⟨a, mark⟩ := r
      obtain ⟨b, mark'⟩ := r'
      obtain ⟨c, rfl, rfl, hQ⟩ := hmade
      exact ⟨hm.advance fits c, ⟨Nat.le_refl _, Nat.le_add_right _ _⟩,
        ⟨Nat.le_refl _, Nat.le_add_right _ _⟩, .ok hQ⟩

theorem warn (fits : C.Fits rt) (text : String) (details : List String) :
    C.Lockstep L m m' (Run.reportBy (·.warn text details)) (Run.reportBy (·.warn text details))
      fun _ _ _ => True :=
  of_ok rfl rfl ⟨Nat.le_refl _, Nat.le_refl _⟩ ⟨Nat.le_refl _, Nat.le_refl _⟩
    (fun hm => hm.of_same rfl rfl rfl rfl (fits.warned text details hm.report) hm.calls)
    fun _ => trivial

theorem attempt (handles : Fault → Bool) (hx : C.Lockstep L m m' x x' Q) :
    C.Lockstep L m m' (Run.attempt handles x) (Run.attempt handles x')
      fun K => ResultsAlike (Q K) := by
  intro hm
  obtain ⟨halike, hgrows, hgrows', hresults⟩ := hx hm
  rw [Run.run_attempt, Run.run_attempt]
  generalize x.run m = ran, x'.run m' = ran' at halike hgrows hgrows' hresults ⊢
  obtain ⟨r, m₁⟩ := ran
  obtain ⟨r', m₁'⟩ := ran'
  cases hresults with
  | ok hQ => exact ⟨halike, hgrows, hgrows', .ok (.ok hQ)⟩
  | error fault =>
      dsimp only at halike hgrows hgrows' ⊢
      split
      · exact ⟨halike, hgrows, hgrows', .ok (.error fault)⟩
      · exact ⟨halike, hgrows, hgrows', .error fault⟩

/-- Guarded computations get the same issue or none. -/
theorem safely (fits : C.Fits rt) (span : Span) {x x' : Run Value}
    (hx : C.Lockstep L m m' x x' Value.Alike) :
    C.Lockstep L m m' (Run.safely span x) (Run.safely span x') Value.Alike := by
  intro hm
  obtain ⟨halike, hgrows, hgrows', hresults⟩ := hx hm
  rw [Run.safely, Run.safely, Run.run_tryCatch, Run.run_tryCatch]
  generalize x.run m = ran, x'.run m' = ran' at halike hgrows hgrows' hresults ⊢
  obtain ⟨r, m₁⟩ := ran
  obtain ⟨r', m₁'⟩ := ran'
  cases hresults with
  | ok hQ => exact ⟨halike, hgrows, hgrows', .ok hQ⟩
  | error fault =>
      have hissued := fits.issued span fault.report halike.report
      exact ⟨halike.of_same rfl rfl rfl rfl hissued halike.calls, ⟨hgrows.scopes, hgrows.mark⟩,
        ⟨hgrows'.scopes, hgrows'.mark⟩, .ok (.atom rfl)⟩

theorem noteCall (fits : C.Fits rt) (f : Foreign) :
    C.Lockstep L m m' (modify (·.noteCall f)) (modify (·.noteCall f)) fun _ _ _ => True :=
  of_ok (Run.run_modify m _) (Run.run_modify m' _) ⟨Nat.le_refl _, Nat.le_refl _⟩
    ⟨Nat.le_refl _, Nat.le_refl _⟩
    (fun hm => hm.of_same rfl rfl rfl rfl hm.report (fits.called f hm.calls)) fun _ => trivial

end Comparison.Lockstep

end ArrayExpr
