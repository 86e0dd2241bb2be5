import ArrayExpr.Token.Basic

/-!
Views of token trees: the tokens below a token, how deep a tree nests, the tokens that make a call, and
whether a name may be bound when a token is evaluated.
-/

namespace ArrayExpr.Token

/-- The tokens directly below a token. -/
def children : Token → List Token
  | .program _ members => members
  | .assignment _ name value => [name, value]
  | .reference _ name => [name]
  | .function _ _ body => [body]
  | .application _ _ argument => [argument]
  | .binary _ _ left right => [left, right]
  | .unary _ _ operand | .conversion _ operand => [operand]
  | .object _ content => [content]
  | .path .. | .composition .. | .literal .. | .unknown .. => []

mutual

/-- What holds of a token if it holds of the tokens directly below it holds of every token. -/
@[elab_as_elim]
theorem children_induction {P : Token → Prop} (h : ∀ t, (∀ c ∈ t.children, P c) → P t)
    (t : Token) : P t := by
  refine h t ?_
  match t with
  | .program _ members => exact forall_mem_of_children h members
  | .assignment _ left right | .binary _ _ left right =>
      exact List.forall_mem_cons.mpr ⟨children_induction h left,
        List.forall_mem_singleton.mpr (children_induction h right)⟩
  | .reference _ c | .function _ _ c | .application _ _ c | .unary _ _ c | .conversion _ c
  | .object _ c => exact List.forall_mem_singleton.mpr (children_induction h c)
  | .path .. | .composition .. | .literal .. | .unknown .. => exact nofun

theorem forall_mem_of_children {P : Token → Prop} (h : ∀ t, (∀ c ∈ t.children, P c) → P t)
    (ts : List Token) : ∀ t ∈ ts, P t := by
  match ts with
  | [] => exact nofun
  | t :: ts =>
      exact List.forall_mem_cons.mpr ⟨children_induction h t, forall_mem_of_children h ts⟩

end

mutual

/-- How deep a token tree nests. -/
def height : Token → Nat
  | .program _ members => heightOfAll members + 1
  | .assignment _ left right | .binary _ _ left right => max left.height right.height + 1
  | .reference _ t | .function _ _ t | .application _ _ t | .unary _ _ t | .conversion _ t
  | .object _ t => t.height + 1
  | .path .. | .composition .. | .literal .. | .unknown .. => 1

def heightOfAll : List Token → Nat
  | [] => 0
  | t :: ts => max t.height (heightOfAll ts)

end

theorem heightOfAll_le_iff {ts : List Token} {depth : Nat} :
    heightOfAll ts ≤ depth ↔ ∀ t ∈ ts, t.height ≤ depth := by
  induction ts with
  | nil => simp [heightOfAll]
  | cons t ts ih => rw [heightOfAll, Nat.max_le, ih, List.forall_mem_cons]

/-- A token tree nests one level deeper than the trees below it. -/
theorem height_le_succ_iff {t : Token} {depth : Nat} :
    t.height ≤ depth + 1 ↔ ∀ c ∈ t.children, c.height ≤ depth := by
  cases t <;> simp only [height, children, heightOfAll_le_iff, Nat.add_le_add_iff_right, Nat.max_le,
    List.forall_mem_cons, List.not_mem_nil, false_imp_iff, implies_true, and_true, Nat.le_add_left]

theorem height_pos (t : Token) : 0 < t.height := by
  cases t <;> simp [height]

/-- The tokens below a token that are evaluated along with it: the body of a function is not. -/
def parts : Token → List Token
  | .function .. => []
  | t => t.children

theorem mem_children_of_mem_parts {t part : Token} (h : part ∈ t.parts) : part ∈ t.children := by
  cases t with
  | function => cases h
  | _ => exact h

mutual

/-- Whether something holds of a token and of all tokens that are evaluated along with it. -/
def throughout (p : Token → Bool) : Token → Bool
  | .program s members => p (.program s members) && throughoutAll p members
  | .assignment s left right =>
    p (.assignment s left right) && left.throughout p && right.throughout p
  | .binary s operator left right =>
    p (.binary s operator left right) && left.throughout p && right.throughout p
  | .reference s t => p (.reference s t) && t.throughout p
  | .application s name t => p (.application s name t) && t.throughout p
  | .unary s operator t => p (.unary s operator t) && t.throughout p
  | .conversion s t => p (.conversion s t) && t.throughout p
  | .object s t => p (.object s t) && t.throughout p
  | t => p t

def throughoutAll (p : Token → Bool) : List Token → Bool
  | [] => true
  | t :: ts => t.throughout p && throughoutAll p ts

end

theorem throughoutAll_iff {p : Token → Bool} {ts : List Token} :
    throughoutAll p ts = true ↔ ∀ t ∈ ts, t.throughout p = true := by
  induction ts with
  | nil => simp [throughoutAll]
  | cons t ts ih => rw [throughoutAll, Bool.and_eq_true, ih, List.forall_mem_cons]

theorem throughout_iff {p : Token → Bool} {t : Token} :
    t.throughout p = true ↔ p t = true ∧ ∀ part ∈ t.parts, part.throughout p = true := by
  cases t <;> simp [throughout, parts, children, throughoutAll_iff, and_assoc]

def isCall : Token → Bool
  | .application .. | .binary .. | .unary .. | .conversion .. => true
  | _ => false

mutual

/-- Whether an assignment occurs in a token, function bodies left aside. -/
def assigns : Token → Bool
  | .assignment .. => true
  | .program _ members => assignsAny members
  | .reference _ t | .application _ _ t | .unary _ _ t | .conversion _ t | .object _ t => t.assigns
  | .binary _ _ left right => left.assigns || right.assigns
  | .path .. | .function .. | .composition .. | .literal .. | .unknown .. => false

/-- Whether an assignment occurs in one of several tokens, function bodies left aside. -/
def assignsAny : List Token → Bool
  | [] => false
  | t :: ts => t.assigns || assignsAny ts

end

theorem assignsAny_of_mem {t : Token} {ts : List Token} (ht : t ∈ ts) (h : t.assigns = true) :
    assignsAny ts = true := by
  induction ts with
  | nil => cases ht
  | cons u us ih =>
      rcases List.mem_cons.mp ht with rfl | ht
      · simp [assignsAny, h]
      · simp [assignsAny, ih ht]

theorem assigns_of_mem_parts {t part : Token} (hpart : part ∈ t.parts)
    (h : part.assigns = true) : t.assigns = true := by
  cases t with
  | program s members => exact assignsAny_of_mem hpart h
  | assignment => rfl
  | binary s operator left right =>
      rcases List.mem_cons.mp hpart with rfl | hright
      · simp [assigns, h]
      · rw [List.mem_singleton.mp hright] at h
        simp [assigns, h]
  | reference | application | unary | conversion | object =>
      rw [List.mem_singleton.mp hpart] at h
      exact h
  | path | function | composition | literal | unknown => cases hpart

/-- The scope in which evaluating a token may bind names, if it may bind any. -/
def own (t : Token) (scope : Nat) : Option Nat :=
  if t.assigns then some scope else none

end ArrayExpr.Token
