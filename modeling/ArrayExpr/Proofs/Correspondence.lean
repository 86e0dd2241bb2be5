import ArrayExpr.Proofs.Data
import ArrayExpr.Proofs.Scope
import Mathlib.Data.List.Forall2

/-!
Values of two machines that correspond. Two machines number their scopes and mark the undefined numbers
they make, each in its own way; a link says which of them stand for each other. The bodies of closures
may differ as well, in a way that a relation between tokens allows. Values correspond if they are the
same up to that. As long as bodies that stand for each other are of the same kind, no text, no number
and no element of a tensor tells such values apart.
-/

namespace ArrayExpr

/-- Which scopes and which undefined numbers of two machines stand for each other. -/
@[ext]
structure Link where
  scopes : Nat → Nat → Prop
  marks : Nat → Nat → Prop

namespace Link

instance : LE Link where
  le K K' := (∀ i j, K.scopes i j → K'.scopes i j) ∧ ∀ a b, K.marks a b → K'.marks a b

/-- No undefined number stands for two. -/
def Distinguishes (K : Link) : Prop :=
  ∀ a b a' b', K.marks a b → K.marks a' b' → (a = a' ↔ b = b')

def identity : Link where
  scopes := Eq
  marks := Eq

theorem distinguishes_identity : identity.Distinguishes := by
  rintro a _ a' _ rfl rfl
  rfl

end Link

def Key.isUndefined : Key → Bool
  | .undefined _ => true
  | _ => false

/-- Keys that are the same up to a link. -/
inductive Key.Alike (K : Link) : Key → Key → Prop where
  | refl {k : Key} : k.isUndefined = false → Alike K k k
  | undefined {a b : Nat} {isElement : Bool} : K.marks a b →
      Alike K (.undefined ⟨a, isElement⟩) (.undefined ⟨b, isElement⟩)

mutual

/-- Values that are the same up to a link and a relation between the bodies of closures. -/
inductive Value.Corresponds (K : Link) (B : Token → Token → Prop) : Value → Value → Prop where
  | atom {v : Value} : v.isAtom = true → Value.Corresponds K B v v
  | undefined {a b : Nat} {isElement : Bool} : K.marks a b →
      Value.Corresponds K B (.undefined ⟨a, isElement⟩) (.undefined ⟨b, isElement⟩)
  | list {vs vs' : List Value} : Value.ItemsCorrespond K B vs vs' →
      Value.Corresponds K B (.list vs) (.list vs')
  | dict {es es' : List (Key × Value)} : Value.EntriesCorrespond K B es es' →
      Value.Corresponds K B (.dict es) (.dict es')
  | closure {parameter : Json} {body body' : Token} {i j : Nat} : B body body' → K.scopes i j →
      Value.Corresponds K B (.closure parameter body i) (.closure parameter body' j)
  | composition {names : List String} {fs fs' : List Value} : Value.ItemsCorrespond K B fs fs' →
      Value.Corresponds K B (.composition names fs) (.composition names fs')

inductive Value.ItemsCorrespond (K : Link) (B : Token → Token → Prop) :
    List Value → List Value → Prop where
  | nil : Value.ItemsCorrespond K B [] []
  | cons {v v' : Value} {vs vs' : List Value} : Value.Corresponds K B v v' →
      Value.ItemsCorrespond K B vs vs' → Value.ItemsCorrespond K B (v :: vs) (v' :: vs')

inductive Value.EntriesCorrespond (K : Link) (B : Token → Token → Prop) :
    List (Key × Value) → List (Key × Value) → Prop where
  | nil : Value.EntriesCorrespond K B [] []
  | cons {k k' : Key} {v v' : Value} {es es' : List (Key × Value)} : k.Alike K k' →
      Value.Corresponds K B v v' → Value.EntriesCorrespond K B es es' →
      Value.EntriesCorrespond K B ((k, v) :: es) ((k', v') :: es')

end

variable {K K' : Link} {B : Token → Token → Prop}

/-! ### Keys -/

namespace Key

/-- An undefined number is no other kind of key. -/
theorem same_undefined {k : Key} (h : k.isUndefined = false) (u : Undefined) :
    k.same (.undefined u) = false := by
  rw [Bool.eq_false_iff, ne_eq, same_iff]
  intro hidentity
  rw [eq_of_identity_eq rfl hidentity] at h
  cases h

theorem Alike.mono (hle : K ≤ K') {k k' : Key} (h : k.Alike K k') : k.Alike K' k' := by
  cases h with
  | refl hk => exact .refl hk
  | undefined hmark => exact .undefined (hle.2 _ _ hmark)

theorem Alike.str (s : String) : (Key.str s).Alike K (.str s) :=
  .refl rfl

/-- Keys that are alike are told apart from others in the same way. -/
theorem Alike.same_eq (hK : K.Distinguishes) {k k' l l' : Key} (hk : k.Alike K k')
    (hl : l.Alike K l') : k.same l = k'.same l' := by
  cases hk with
  | refl hk =>
      cases hl with
      | refl => rfl
      | undefined => rw [same_undefined hk, same_undefined hk]
  | undefined hmark =>
      cases hl with
      | refl hl => rw [same_comm, same_comm _ l, same_undefined hl, same_undefined hl]
      | undefined hmark' =>
          rw [Bool.eq_iff_iff, same_iff, same_iff]
          simp [identity, hK _ _ _ _ hmark hmark']

theorem Alike.quoted_eq {k k' : Key} (h : k.Alike K k') : k.quoted = k'.quoted := by
  cases h <;> rfl

theorem Alike.obstacle?_eq {k k' : Key} (h : k.Alike K k') : k.obstacle? = k'.obstacle? := by
  cases h <;> rfl

theorem alike_identity_iff {k k' : Key} : k.Alike .identity k' ↔ k = k' := by
  constructor
  · rintro (_ | ⟨rfl⟩)
    · rfl
    · rfl
  · rintro rfl
    cases k with
    | undefined => exact .undefined rfl
    | _ => exact .refl rfl

end Key

/-! ### Entries of mappings -/

namespace Key

variable {α : Type} {κ : Key → Key → Prop} {R : α → α → Prop} {entries entries' : List (Key × α)}

/-- Entries whose keys and values are related one by one. -/
abbrev Related (κ : Key → Key → Prop) (R : α → α → Prop) :
    List (Key × α) → List (Key × α) → Prop :=
  List.Forall₂ fun e e' => κ e.1 e'.1 ∧ R e.2 e'.2

/-- A relation between keys by which they are told apart in the same way. -/
def Respects (κ : Key → Key → Prop) : Prop :=
  ∀ {k k' l l' : Key}, κ k k' → κ l l' → k.same l = k'.same l'

theorem respects_eq : Respects Eq := by
  rintro _ _ _ _ rfl rfl
  rfl

theorem keys_eq_of_related (h : Related Eq R entries entries') :
    entries.map Prod.fst = entries'.map Prod.fst := by
  induction h with
  | nil => rfl
  | cons he _ ih => rw [List.map_cons, List.map_cons, he.1, ih]

theorem lookup?_related (hκ : Respects κ) (h : Related κ R entries entries') {k k' : Key}
    (hk : κ k k') : Option.Rel R (k.lookup? entries) (k'.lookup? entries') := by
  induction h with
  | nil => exact .none
  | @cons e e' rest rest' he _ ih =>
      have hsame : e.1.same k = e'.1.same k' := hκ he.1 hk
      unfold lookup? at ih ⊢
      rw [List.find?_cons, List.find?_cons, hsame]
      cases e'.1.same k' with
      | true => exact .some he.2
      | false => exact ih

theorem insert_related (hκ : Respects κ) (h : Related κ R entries entries') {k k' : Key}
    (hk : κ k k') {v v' : α} (hv : R v v') : Related κ R (k.insert v entries) (k'.insert v' entries') := by
  induction h with
  | nil => exact .cons ⟨hk, hv⟩ .nil
  | @cons e e' rest rest' he hrest ih =>
      obtain ⟨l, w⟩ := e
      obtain ⟨l', w'⟩ := e'
      have hsame : l.same k = l'.same k' := hκ he.1 hk
      rw [insert, insert, hsame]
      split
      · exact .cons ⟨he.1, hv⟩ hrest
      · exact .cons he ih

theorem insertAll_related (hκ : Respects κ) {news news' : List (Key × α)}
    (hnews : Related κ R news news') (h : Related κ R entries entries') :
    Related κ R (insertAll news entries) (insertAll news' entries') := by
  induction hnews generalizing entries entries' with
  | nil => exact h
  | cons he _ ih => exact ih (insert_related hκ h he.1 he.2)

end Key

/-! ### Values -/

namespace Value

mutual

theorem Corresponds.mono (hle : K ≤ K') {v v' : Value} (h : v.Corresponds K B v') :
    v.Corresponds K' B v' := by
  cases h with
  | atom hv => exact .atom hv
  | undefined hmark => exact .undefined (hle.2 _ _ hmark)
  | list hitems => exact .list (ItemsCorrespond.mono hle hitems)
  | dict hentries => exact .dict (EntriesCorrespond.mono hle hentries)
  | closure hbody hscope => exact .closure hbody (hle.1 _ _ hscope)
  | composition hfs => exact .composition (ItemsCorrespond.mono hle hfs)

theorem ItemsCorrespond.mono (hle : K ≤ K') {vs vs' : List Value} (h : ItemsCorrespond K B vs vs') :
    ItemsCorrespond K' B vs vs' := by
  cases h with
  | nil => exact .nil
  | cons hv hvs => exact .cons (Corresponds.mono hle hv) (ItemsCorrespond.mono hle hvs)

theorem EntriesCorrespond.mono (hle : K ≤ K') {es es' : List (Key × Value)}
    (h : EntriesCorrespond K B es es') : EntriesCorrespond K' B es es' := by
  cases h with
  | nil => exact .nil
  | cons hk hv hes =>
      exact .cons (hk.mono hle) (Corresponds.mono hle hv) (EntriesCorrespond.mono hle hes)

end

theorem itemsCorrespond_iff {vs vs' : List Value} :
    ItemsCorrespond K B vs vs' ↔ List.Forall₂ (Corresponds K B) vs vs' := by
  constructor
  · intro h
    induction vs generalizing vs' with
    | nil => cases h; exact .nil
    | cons v vs ih =>
        cases h with
        | cons hv hvs => exact .cons hv (ih hvs)
  · intro h
    induction h with
    | nil => exact .nil
    | cons hv _ ih => exact .cons hv ih

theorem entriesCorrespond_iff {es es' : List (Key × Value)} :
    EntriesCorrespond K B es es' ↔ Key.Related (Key.Alike K) (Corresponds K B) es es' := by
  constructor
  · intro h
    induction es generalizing es' with
    | nil => cases h; exact .nil
    | cons e es ih =>
        cases h with
        | cons hk hv hes => exact .cons ⟨hk, hv⟩ (ih hes)
  · intro h
    induction h with
    | nil => exact .nil
    | cons he _ ih => exact .cons he.1 he.2 ih

theorem ItemsCorrespond.length_eq {vs vs' : List Value} (h : ItemsCorrespond K B vs vs') :
    vs.length = vs'.length :=
  (itemsCorrespond_iff.mp h).length_eq

/-- Plain data corresponds to itself, whatever stands for what. -/
theorem Data.corresponds_self {v : Value} (h : v.Plain) : v.Corresponds K B v := by
  induction h with
  | undefined hu => cases hu
  | list _ ih => exact .list (itemsCorrespond_iff.mpr (List.forall₂_same.mpr ih))
  | dict hkeys _ ih =>
      refine .dict (entriesCorrespond_iff.mpr (List.forall₂_same.mpr fun e he => ⟨?_, ih e he⟩))
      obtain ⟨s, hs⟩ := hkeys e he
      exact hs ▸ .str s
  | _ => exact .atom rfl

theorem itemsCorrespond_self {vs : List Value} (h : ∀ w ∈ vs, w.Plain) :
    ItemsCorrespond K B vs vs :=
  itemsCorrespond_iff.mpr (List.forall₂_same.mpr fun w hw => (h w hw).corresponds_self)

/-! ### Values of one machine -/

mutual

theorem corresponds_refl (hB : ∀ b, B b b) (v : Value) : v.Corresponds .identity B v := by
  match v with
  | .list items => exact .list (itemsCorrespond_refl hB items)
  | .dict entries => exact .dict (entriesCorrespond_refl hB entries)
  | .undefined u => exact .undefined rfl
  | .closure _ body _ => exact .closure (hB body) rfl
  | .composition _ fs => exact .composition (itemsCorrespond_refl hB fs)
  | .none | .bool _ | .int _ | .float _ | .str _ | .tensor _ | .scalar _ | .failure | .foreign _ =>
      exact .atom rfl

theorem itemsCorrespond_refl (hB : ∀ b, B b b) (vs : List Value) :
    ItemsCorrespond .identity B vs vs := by
  match vs with
  | [] => exact .nil
  | v :: vs => exact .cons (corresponds_refl hB v) (itemsCorrespond_refl hB vs)

theorem entriesCorrespond_refl (hB : ∀ b, B b b) (es : List (Key × Value)) :
    EntriesCorrespond .identity B es es := by
  match es with
  | [] => exact .nil
  | (k, v) :: es =>
      exact .cons (Key.alike_identity_iff.mpr rfl) (corresponds_refl hB v)
        (entriesCorrespond_refl hB es)

end

mutual

/-- Where everything stands for itself, and so do the bodies, values that correspond are equal. -/
theorem Corresponds.eq {v v' : Value} (h : v.Corresponds .identity Eq v') : v = v' := by
  cases h with
  | atom => rfl
  | undefined hmark => cases hmark; rfl
  | list hitems => rw [ItemsCorrespond.eq hitems]
  | dict hentries => rw [EntriesCorrespond.eq hentries]
  | closure hbody hscope => cases hbody; cases hscope; rfl
  | composition hfs => rw [ItemsCorrespond.eq hfs]

theorem ItemsCorrespond.eq {vs vs' : List Value} (h : ItemsCorrespond .identity Eq vs vs') :
    vs = vs' := by
  cases h with
  | nil => rfl
  | cons hv hvs => rw [Corresponds.eq hv, ItemsCorrespond.eq hvs]

theorem EntriesCorrespond.eq {es es' : List (Key × Value)}
    (h : EntriesCorrespond .identity Eq es es') : es = es' := by
  cases h with
  | nil => rfl
  | cons hk hv hes =>
      rw [Key.alike_identity_iff.mp hk, Corresponds.eq hv, EntriesCorrespond.eq hes]

end

end Value

/-! ### Texts and tensors -/

def Token.KeepsKind (B : Token → Token → Prop) : Prop :=
  ∀ {b b' : Token}, B b b' → b.kind = b'.kind

namespace Value

mutual

theorem Corresponds.quoted_eq (hB : Token.KeepsKind B) {v v' : Value} (h : v.Corresponds K B v') :
    v.quoted = v'.quoted := by
  cases h with
  | atom | undefined | composition => rfl
  | list hitems => rw [quoted, quoted, ItemsCorrespond.quoted_eq hB hitems]
  | dict hentries => rw [quoted, quoted, EntriesCorrespond.quoted_eq hB hentries]
  | closure hbody => rw [quoted, quoted, hB hbody]

theorem ItemsCorrespond.quoted_eq (hB : Token.KeepsKind B) {vs vs' : List Value}
    (h : ItemsCorrespond K B vs vs') : quotedItems vs = quotedItems vs' := by
  cases h with
  | nil => rfl
  | cons hv hvs =>
      rw [quotedItems, quotedItems, Corresponds.quoted_eq hB hv, ItemsCorrespond.quoted_eq hB hvs]

theorem EntriesCorrespond.quoted_eq (hB : Token.KeepsKind B) {es es' : List (Key × Value)}
    (h : EntriesCorrespond K B es es') : quotedEntries es = quotedEntries es' := by
  cases h with
  | nil => rfl
  | cons hk hv hes =>
      rw [quotedEntries, quotedEntries, hk.quoted_eq, Corresponds.quoted_eq hB hv,
        EntriesCorrespond.quoted_eq hB hes]

end

theorem Corresponds.shown_eq (hB : Token.KeepsKind B) {v v' : Value} (h : v.Corresponds K B v') :
    v.shown = v'.shown := by
  have hquoted := h.quoted_eq hB
  cases h with
  | atom | undefined => rfl
  | list | dict | closure | composition => exact hquoted

mutual

theorem Corresponds.obstacle?_eq {v v' : Value} (h : v.Corresponds K B v') (room : Nat) :
    v.obstacle? room = v'.obstacle? room := by
  cases h with
  | atom | undefined | composition => rfl
  | list hitems =>
      cases room with
      | zero => rfl
      | succ room => rw [obstacle?, obstacle?, ItemsCorrespond.obstacle?_eq hitems room]
  | dict hentries =>
      cases room with
      | zero => rfl
      | succ room => rw [obstacle?, obstacle?, EntriesCorrespond.obstacle?_eq hentries room]
  | closure => rw [obstacle?, obstacle?]

theorem ItemsCorrespond.obstacle?_eq {vs vs' : List Value} (h : ItemsCorrespond K B vs vs')
    (room : Nat) : obstacleOfItems? room vs = obstacleOfItems? room vs' := by
  cases h with
  | nil => rfl
  | cons hv hvs =>
      rw [obstacleOfItems?, obstacleOfItems?, Corresponds.obstacle?_eq hv room,
        ItemsCorrespond.obstacle?_eq hvs room]

theorem EntriesCorrespond.obstacle?_eq {es es' : List (Key × Value)}
    (h : EntriesCorrespond K B es es') (room : Nat) :
    obstacleOfEntries? room es = obstacleOfEntries? room es' := by
  cases h with
  | nil => rfl
  | cons hk hv hes =>
      rw [obstacleOfEntries?, obstacleOfEntries?, hk.obstacle?_eq, Corresponds.obstacle?_eq hv room,
        EntriesCorrespond.obstacle?_eq hes room]

end

theorem Corresponds.quotedWithin_eq (hB : Token.KeepsKind B) {v v' : Value}
    (h : v.Corresponds K B v') (room : Nat) : v.quotedWithin room = v'.quotedWithin room := by
  rw [quotedWithin, quotedWithin, h.quoted_eq hB, h.obstacle?_eq room]

theorem Corresponds.shownWithin_eq (hB : Token.KeepsKind B) {v v' : Value}
    (h : v.Corresponds K B v') (room : Nat) : v.shownWithin room = v'.shownWithin room := by
  rw [shownWithin, shownWithin, h.shown_eq hB, h.obstacle?_eq room]

mutual

theorem Corresponds.extent_eq {v v' : Value} (h : v.Corresponds K B v') (axes : Nat) :
    v.extent axes = v'.extent axes := by
  cases h with
  | atom | undefined | dict | closure | composition => rfl
  | list hitems =>
      cases axes with
      | zero => rfl
      | succ axes => rw [extent, extent, hitems.length_eq, ItemsCorrespond.extents_eq hitems axes]

theorem ItemsCorrespond.extents_eq {vs vs' : List Value} (h : ItemsCorrespond K B vs vs')
    (axes : Nat) : extents axes vs = extents axes vs' := by
  cases h with
  | nil => rfl
  | cons hv hvs =>
      rw [extents, extents, Corresponds.extent_eq hv axes, ItemsCorrespond.extents_eq hvs axes]

end

mutual

theorem Corresponds.leaves?_eq {v v' : Value} (h : v.Corresponds K B v') :
    v.leaves? = v'.leaves? := by
  cases h with
  | atom | undefined | dict | closure | composition => rfl
  | list hitems => rw [leaves?, leaves?, ItemsCorrespond.leavesOf?_eq hitems]

theorem ItemsCorrespond.leavesOf?_eq {vs vs' : List Value} (h : ItemsCorrespond K B vs vs') :
    leavesOf? vs = leavesOf? vs' := by
  cases h with
  | nil => rfl
  | cons hv hvs =>
      rw [leavesOf?, leavesOf?, Corresponds.leaves?_eq hv, ItemsCorrespond.leavesOf?_eq hvs]

end

/-- Values that correspond stand for the same tensor, or for none with the same complaint. -/
theorem Corresponds.toTensor_eq (hB : Token.KeepsKind B) {v v' : Value} (h : v.Corresponds K B v') :
    v.toTensor = v'.toTensor := by
  have hextent := h.extent_eq maxAxes
  have hleaves := h.leaves?_eq
  have hquoted := h.quotedWithin_eq hB textLimit
  cases h with
  | atom => rfl
  | undefined | list | dict | closure | composition =>
      simp only [toTensor, hextent, hleaves, hquoted]

end Value

/-! ### Capabilities -/

/-- Two results that are related, or twice the same fault. -/
inductive ResultsAlike {α β : Type} (Q : α → β → Prop) : Except Fault α → Except Fault β → Prop where
  | ok {a : α} {b : β} : Q a b → ResultsAlike Q (.ok a) (.ok b)
  | error (fault : Fault) : ResultsAlike Q (.error fault) (.error fault)

theorem ResultsAlike.imp {α β : Type} {Q Q' : α → β → Prop} {r : Except Fault α} {r' : Except Fault β}
    (h : ResultsAlike Q r r') (himp : ∀ a b, Q a b → Q' a b) : ResultsAlike Q' r r' := by
  cases h with
  | ok hab => exact .ok (himp _ _ hab)
  | error fault => exact .error fault

theorem ResultsAlike.eq {α : Type} {r r' : Except Fault α} (h : ResultsAlike Eq r r') : r = r' := by
  cases h with
  | ok hab => rw [hab]
  | error fault => rfl

namespace Capability

theorem operands_correspond (hK : K.Distinguishes) (c : Capability) {v v' : Value}
    (h : v.Corresponds K B v') :
    ResultsAlike (fun p p' => p.1.Corresponds K B p'.1 ∧ p.2.Corresponds K B p'.2) (c.operands v)
      (c.operands v') := by
  cases h with
  | atom hv =>
      cases v with
      | list | dict | undefined | closure | composition => cases hv
      | _ => exact .error _
  | @undefined a b isElement _ => cases isElement <;> exact .error _
  | list | closure | composition => exact .error _
  | @dict es es' hentries =>
      have hrelated := Value.entriesCorrespond_iff.mp hentries
      have ha := Key.lookup?_related (fun hk hl => hk.same_eq hK hl) hrelated (.str "a")
      have hb := Key.lookup?_related (fun hk hl => hk.same_eq hK hl) hrelated (.str "b")
      unfold operands
      dsimp only
      generalize Key.lookup? (.str "a") es = a, Key.lookup? (.str "a") es' = a' at ha ⊢
      generalize Key.lookup? (.str "b") es = b, Key.lookup? (.str "b") es' = b' at hb ⊢
      cases ha with
      | none => exact .error _
      | some ha =>
          cases hb with
          | none => exact .error _
          | some hb => exact .ok ⟨ha, hb⟩

/-- A capability does not tell values apart that correspond. -/
theorem run_eq_of_corresponds (hK : K.Distinguishes) (hB : Token.KeepsKind B) (c : Capability)
    {v v' : Value} (h : v.Corresponds K B v') : c.run v = c.run v' := by
  have hone : ∀ f, onOne f v = onOne f v' := fun f => by
    rw [onOne, onOne, h.toTensor_eq hB]
  have hpair : ∀ f, c.onPair f v = c.onPair f v' := fun f => by
    unfold onPair
    generalize hr : c.operands v = r, hr' : c.operands v' = r'
    have hoperands := c.operands_correspond hK h
    rw [hr, hr'] at hoperands
    cases hoperands with
    | error fault => rfl
    | @ok p p' hp =>
        show (do let x ← p.1.toTensor; let y ← p.2.toTensor; let t ← f x y; return Value.ofResult t) =
          (do let x ← p'.1.toTensor; let y ← p'.2.toTensor; let t ← f x y; return Value.ofResult t)
        rw [hp.1.toTensor_eq hB, hp.2.toTensor_eq hB]
  cases c with
  | add | subtract | multiply | divide | power | modulus | matrixMultiply => exact hpair _
  | _ => exact hone _

end Capability

end ArrayExpr
