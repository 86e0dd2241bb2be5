import ArrayExpr.Proofs.Correspondence

/-!
Values of two machines that are alike: they correspond, and closures that correspond have the same
body.
-/

namespace ArrayExpr

mutual

/-- Values that are the same up to a link. -/
inductive Value.Alike (K : Link) : Value → Value → Prop where
  | atom {v : Value} : v.isAtom = true → Value.Alike K v v
  | undefined {a b : Nat} {isElement : Bool} : K.marks a b →
      Value.Alike K (.undefined ⟨a, isElement⟩) (.undefined ⟨b, isElement⟩)
  | list {vs vs' : List Value} : Value.ItemsAlike K vs vs' → Value.Alike K (.list vs) (.list vs')
  | dict {es es' : List (Key × Value)} : Value.EntriesAlike K es es' →
      Value.Alike K (.dict es) (.dict es')
  | closure {parameter : Json} {body : Token} {i j : Nat} : K.scopes i j →
      Value.Alike K (.closure parameter body i) (.closure parameter body j)
  | composition {names : List String} {fs fs' : List Value} : Value.ItemsAlike K fs fs' →
      Value.Alike K (.composition names fs) (.composition names fs')

inductive Value.ItemsAlike (K : Link) : List Value → List Value → Prop where
  | nil : Value.ItemsAlike K [] []
  | cons {v v' : Value} {vs vs' : List Value} : Value.Alike K v v' → Value.ItemsAlike K vs vs' →
      Value.ItemsAlike K (v :: vs) (v' :: vs')

inductive Value.EntriesAlike (K : Link) : List (Key × Value) → List (Key × Value) → Prop where
  | nil : Value.EntriesAlike K [] []
  | cons {k k' : Key} {v v' : Value} {es es' : List (Key × Value)} : k.Alike K k' →
      Value.Alike K v v' → Value.EntriesAlike K es es' →
      Value.EntriesAlike K ((k, v) :: es) ((k', v') :: es')

end

variable {K K' : Link}

namespace Value

mutual

theorem Alike.corresponds {v v' : Value} (h : v.Alike K v') : v.Corresponds K Eq v' := by
  cases h with
  | atom hv => exact .atom hv
  | undefined hmark => exact .undefined hmark
  | list hitems => exact .list (ItemsAlike.correspond hitems)
  | dict hentries => exact .dict (EntriesAlike.correspond hentries)
  | closure hscope => exact .closure rfl hscope
  | composition hfs => exact .composition (ItemsAlike.correspond hfs)

theorem ItemsAlike.correspond {vs vs' : List Value} (h : ItemsAlike K vs vs') :
    ItemsCorrespond K Eq vs vs' := by
  cases h with
  | nil => exact .nil
  | cons hv hvs => exact .cons (Alike.corresponds hv) (ItemsAlike.correspond hvs)

theorem EntriesAlike.correspond {es es' : List (Key × Value)} (h : EntriesAlike K es es') :
    EntriesCorrespond K Eq es es' := by
  cases h with
  | nil => exact .nil
  | cons hk hv hes => exact .cons hk (Alike.corresponds hv) (EntriesAlike.correspond hes)

end

mutual

theorem Corresponds.alike {v v' : Value} (h : v.Corresponds K Eq v') : v.Alike K v' := by
  cases h with
  | atom hv => exact .atom hv
  | undefined hmark => exact .undefined hmark
  | list hitems => exact .list (ItemsCorrespond.alike hitems)
  | dict hentries => exact .dict (EntriesCorrespond.alike hentries)
  | closure hbody hscope => cases hbody; exact .closure hscope
  | composition hfs => exact .composition (ItemsCorrespond.alike hfs)

theorem ItemsCorrespond.alike {vs vs' : List Value} (h : ItemsCorrespond K Eq vs vs') :
    ItemsAlike K vs vs' := by
  cases h with
  | nil => exact .nil
  | cons hv hvs => exact .cons (Corresponds.alike hv) (ItemsCorrespond.alike hvs)

theorem EntriesCorrespond.alike {es es' : List (Key × Value)} (h : EntriesCorrespond K Eq es es') :
    EntriesAlike K es es' := by
  cases h with
  | nil => exact .nil
  | cons hk hv hes => exact .cons hk (Corresponds.alike hv) (EntriesCorrespond.alike hes)

end

theorem Alike.mono (hle : K ≤ K') {v v' : Value} (h : v.Alike K v') : v.Alike K' v' :=
  (h.corresponds.mono hle).alike

theorem ItemsAlike.mono (hle : K ≤ K') {vs vs' : List Value} (h : ItemsAlike K vs vs') :
    ItemsAlike K' vs vs' :=
  (h.correspond.mono hle).alike

theorem EntriesAlike.mono (hle : K ≤ K') {es es' : List (Key × Value)} (h : EntriesAlike K es es') :
    EntriesAlike K' es es' :=
  (h.correspond.mono hle).alike

theorem itemsAlike_iff {vs vs' : List Value} :
    ItemsAlike K vs vs' ↔ List.Forall₂ (Alike K) vs vs' := by
  constructor
  · exact fun h => (itemsCorrespond_iff.mp h.correspond).imp fun _ _ hv => hv.alike
  · exact fun h => (itemsCorrespond_iff.mpr (h.imp fun _ _ hv => hv.corresponds)).alike

/-- Plain data is like itself, whatever stands for what. -/
theorem Data.alike_self {v : Value} (h : v.Plain) : v.Alike K v :=
  (corresponds_self h).alike

theorem Alike.shownWithin_eq {v v' : Value} (h : v.Alike K v') (room : Nat) :
    v.shownWithin room = v'.shownWithin room :=
  h.corresponds.shownWithin_eq (congrArg Token.kind) room

theorem ItemsAlike.length_eq {vs vs' : List Value} (h : ItemsAlike K vs vs') :
    vs.length = vs'.length :=
  h.correspond.length_eq

end Value

/-- A capability does not tell values apart that are alike. -/
theorem Capability.run_eq (hK : K.Distinguishes) (c : Capability) {v v' : Value} (h : v.Alike K v') :
    c.run v = c.run v' :=
  c.run_eq_of_corresponds hK (congrArg Token.kind) h.corresponds

end ArrayExpr
