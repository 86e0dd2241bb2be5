import ArrayExpr.Proofs.Likeness

/-!
Undefined numbers that are made in step. Two computations that are alike make undefined numbers at the
same time, so what they make stands for each other from their marks on, along a link that grows with
what is made. What a capability gives is marked in step, and so are the keys that are made in merging
values that correspond.
-/

namespace ArrayExpr

variable {K : Link}

namespace Link

/-- A link among the first scopes and the first undefined numbers of either side. -/
def below (L : Link) (n n' mark mark' : Nat) : Link where
  scopes i j := L.scopes i j ∧ i < n ∧ j < n'
  marks a b := L.marks a b ∧ a < mark ∧ b < mark'

variable {L : Link} {n n' mark mark' : Nat}

theorem below_le_below {m m' next next' : Nat} (hn : n ≤ m) (hn' : n' ≤ m') (hmark : mark ≤ next)
    (hmark' : mark' ≤ next') : L.below n n' mark mark' ≤ L.below m m' next next' := by
  constructor
  · rintro i j ⟨hscope, hi, hj⟩
    exact ⟨hscope, Nat.lt_of_lt_of_le hi hn, Nat.lt_of_lt_of_le hj hn'⟩
  · rintro a b ⟨hpair, ha, hb⟩
    exact ⟨hpair, Nat.lt_of_lt_of_le ha hmark, Nat.lt_of_lt_of_le hb hmark'⟩

/-- What either side makes from some mark on stands for what the other makes from its mark on, in the
order in which they are made. -/
def InStep (L : Link) (mark mark' : Nat) : Prop :=
  ∀ c, L.marks (mark + c) (mark' + c)

theorem InStep.add (h : L.InStep mark mark') (c : Nat) : L.InStep (mark + c) (mark' + c) := by
  intro d
  have hpair := h (c + d)
  rwa [← Nat.add_assoc, ← Nat.add_assoc] at hpair

theorem Distinguishes.below (h : L.Distinguishes) : (L.below n n' mark mark').Distinguishes :=
  fun _ _ _ _ hpair hpair' => h _ _ _ _ hpair.1 hpair'.1

theorem le_advanced (c : Nat) : L.below n n' mark mark' ≤ L.below n n' (mark + c) (mark' + c) :=
  below_le_below (Nat.le_refl n) (Nat.le_refl n') (Nat.le_add_right _ _) (Nat.le_add_right _ _)

def Made {α β : Type} (L : Link) (n n' mark mark' : Nat) (Q : Link → α → β → Prop) (r : α × Nat)
    (r' : β × Nat) : Prop :=
  ∃ c, r.2 = mark + c ∧ r'.2 = mark' + c ∧ Q (L.below n n' (mark + c) (mark' + c)) r.1 r'.1

/-- Links that grow with the undefined numbers that are made on both sides, one on each at a time. -/
structure Grows (K : Nat → Link) (mark mark' : Nat) : Prop where
  le (c : Nat) : K c ≤ K (c + 1)
  made (c : Nat) : (K (c + 1)).marks (mark + c) (mark' + c)
  distinguishes (c : Nat) : (K c).Distinguishes

/-- What is made with marks on both sides along links that grow, in step and related. -/
def MadeAlong {α β : Type} (K : Nat → Link) (mark mark' : Nat) (Q : Link → α → β → Prop)
    (r : α × Nat) (r' : β × Nat) : Prop :=
  ∃ c, r.2 = mark + c ∧ r'.2 = mark' + c ∧ Q (K c) r.1 r'.1

theorem grows_below (hL : L.Distinguishes) (hstep : L.InStep mark mark') :
    Grows (fun c => L.below n n' (mark + c) (mark' + c)) mark mark' where
  le _ := le_advanced 1
  made c := ⟨hstep c, Nat.lt_succ_self _, Nat.lt_succ_self _⟩
  distinguishes _ := hL.below

theorem grows_identity (mark : Nat) : Grows (fun _ => identity) mark mark where
  le _ := ⟨fun _ _ => id, fun _ _ => id⟩
  made _ := rfl
  distinguishes _ := distinguishes_identity

namespace Grows

variable {K : Nat → Link}

theorem le_first (h : Grows K mark mark') (c : Nat) : K 0 ≤ K c := by
  induction c with
  | zero => exact ⟨fun _ _ => id, fun _ _ => id⟩
  | succ c ih => exact ⟨fun i j hij => (h.le c).1 i j (ih.1 i j hij),
      fun a b hab => (h.le c).2 a b (ih.2 a b hab)⟩

theorem advance (h : Grows K mark mark') (c : Nat) :
    Grows (fun d => K (c + d)) (mark + c) (mark' + c) where
  le d := h.le (c + d)
  made d := by
    rw [Nat.add_assoc, Nat.add_assoc]
    exact h.made (c + d)
  distinguishes d := h.distinguishes (c + d)

end Grows

theorem MadeAlong.of_advanced {α β : Type} {K : Nat → Link} {Q : Link → α → β → Prop} {r : α × Nat}
    {r' : β × Nat} {c : Nat} (h : MadeAlong (fun d => K (c + d)) (mark + c) (mark' + c) Q r r') :
    MadeAlong K mark mark' Q r r' := by
  obtain ⟨d, hnext, hnext', hQ⟩ := h
  rw [Nat.add_assoc] at hnext hnext'
  exact ⟨c + d, hnext, hnext', hQ⟩

end Link

namespace Value

open Link

variable {L : Link} {n n' : Nat}

mutual

/-- The undefined numbers of plain data are marked in step. -/
theorem marked_alike {mark mark' : Nat} (hstep : L.InStep mark mark') (v : Value) (h : v.Plain) :
    L.Made n n' mark mark' (fun K v v' => v.Alike K v') (v.marked mark) (v.marked mark') := by
  match v with
  | .float x =>
      rw [marked, marked]
      split
      · exact ⟨1, rfl, rfl, .undefined ⟨hstep 0, Nat.lt_succ_self _, Nat.lt_succ_self _⟩⟩
      · exact ⟨0, rfl, rfl, .atom rfl⟩
  | .list items =>
      rw [marked, marked]
      cases h with
      | list hitems =>
          obtain ⟨c, hnext, hnext', halike⟩ := markedItems_alike hstep items hitems
          exact ⟨c, hnext, hnext', .list halike⟩
  | .none | .bool _ | .int _ | .str _ | .dict _ | .tensor _ | .scalar _ | .undefined _ | .failure
  | .closure .. | .composition .. | .foreign _ =>
      exact ⟨0, by simp only [marked, Nat.add_zero], by simp only [marked, Nat.add_zero],
        by simpa only [marked] using h.alike_self⟩

theorem markedItems_alike {mark mark' : Nat} (hstep : L.InStep mark mark') (items : List Value)
    (h : ∀ v ∈ items, v.Plain) :
    L.Made n n' mark mark' ItemsAlike (markedItems mark items) (markedItems mark' items) := by
  match items with
  | [] => exact ⟨0, rfl, rfl, .nil⟩
  | v :: vs =>
      rw [markedItems, markedItems]
      have hv := List.forall_mem_cons.mp h
      obtain ⟨c, hnext, hnext', halike⟩ := marked_alike hstep v hv.1
      obtain ⟨d, hlast, hlast', hrest⟩ := markedItems_alike (hstep.add c) vs hv.2
      refine ⟨c + d, ?_, ?_, .cons ?_ ?_⟩
      · rw [← Nat.add_assoc, ← hlast, ← hnext]
      · rw [← Nat.add_assoc, ← hlast', ← hnext']
      · rw [← Nat.add_assoc, ← Nat.add_assoc]
        exact halike.mono (le_advanced d)
      · rw [← Nat.add_assoc, ← Nat.add_assoc, hnext, hnext']
        exact hrest

end

end Value

/-! ### Merging -/

theorem Key.Alike.toValue {B : Token → Token → Prop} {k k' : Key} (h : k.Alike K k') :
    k.toValue.Corresponds K B k'.toValue := by
  cases h with
  | refl hk =>
      cases k with
      | undefined => cases hk
      | _ => exact .atom rfl
  | undefined hmark => exact .undefined hmark

namespace Value

open Link

variable {B : Token → Token → Prop}

theorem parts_correspond (t : Tensor) : ItemsCorrespond K B (parts t) (parts t) := by
  refine itemsCorrespond_self fun w hw => ?_
  obtain ⟨row, -, rfl⟩ := List.mem_map.mp hw
  exact plain_ofResult row

theorem members?_correspond {v v' : Value} (h : v.Corresponds K B v') :
    Option.Rel (ItemsCorrespond K B) v.members? v'.members? := by
  cases h with
  | atom hv =>
      cases v with
      | str s =>
          refine .some (itemsCorrespond_self fun w hw => ?_)
          obtain ⟨c, -, rfl⟩ := List.mem_map.mp hw
          exact .str _
      | tensor t =>
          unfold members?
          dsimp only
          split
          · exact .none
          · exact .some (parts_correspond t)
      | list | dict | undefined | closure | composition => cases hv
      | _ => exact .none
  | undefined | closure | composition => exact .none
  | list hitems => exact .some hitems
  | dict hentries =>
      refine .some (itemsCorrespond_iff.mpr ?_)
      rw [List.forall₂_map_left_iff, List.forall₂_map_right_iff]
      exact (entriesCorrespond_iff.mp hentries).imp fun _ _ he => he.1.toValue

theorem toKey_of_corresponds {v v' : Value} (h : v.Corresponds K B v') :
    ResultsAlike (Key.Alike K) v.toKey v'.toKey := by
  cases h with
  | atom hv =>
      cases v with
      | list | dict | undefined | closure | composition => cases hv
      | tensor => exact .error _
      | _ => exact .ok (.refl rfl)
  | undefined hmark => exact .ok (.undefined hmark)
  | list | dict | closure | composition => exact .error _

section Links

variable {K : Nat → Link} {mark mark' : Nat}

theorem toMarkedKey_of_corresponds (hK : Grows K mark mark') {v v' : Value}
    (h : v.Corresponds (K 0) B v') :
    ResultsAlike (MadeAlong K mark mark' Key.Alike) (v.toMarkedKey mark) (v'.toMarkedKey mark') := by
  have hplain : ∀ {w w' : Value}, w.Corresponds (K 0) B w' →
      ResultsAlike (MadeAlong K mark mark' Key.Alike) (do return (← w.toKey, mark))
        (do return (← w'.toKey, mark')) := by
    intro w w' hw
    have hkey := toKey_of_corresponds hw
    generalize w.toKey = r, w'.toKey = r' at hkey ⊢
    cases hkey with
    | ok hk => exact .ok ⟨0, rfl, rfl, hk⟩
    | error fault => exact .error fault
  cases h with
  | atom hv =>
      cases v with
      | scalar s =>
          cases s with
          | float x =>
              refine .ok ?_
              split
              · exact ⟨1, rfl, rfl, .undefined (hK.made 0)⟩
              · exact ⟨0, rfl, rfl, .refl rfl⟩
          | bool | int => exact hplain (.atom hv)
      | _ => exact hplain (.atom hv)
  | undefined hmark => exact hplain (.undefined hmark)
  | list hitems => exact hplain (.list hitems)
  | dict hentries => exact hplain (.dict hentries)
  | closure hbody hscope => exact hplain (.closure hbody hscope)
  | composition hfs => exact hplain (.composition hfs)

theorem mergePairs_correspond (hK : Grows K mark mark') (position : Nat)
    {entries entries' : List (Key × Value)} {items items' : List Value}
    (hentries : EntriesCorrespond (K 0) B entries entries')
    (hitems : ItemsCorrespond (K 0) B items items') :
    ResultsAlike (MadeAlong K mark mark' fun K => EntriesCorrespond K B)
      (mergePairs mark position entries items) (mergePairs mark' position entries' items') := by
  induction items generalizing items' K mark mark' position entries entries' with
  | nil =>
      cases hitems
      exact .ok ⟨0, rfl, rfl, hentries⟩
  | cons item items ih =>
      cases hitems with
      | @cons _ item' _ items' hitem hrest =>
      have hmembers := members?_correspond hitem
      unfold mergePairs
      generalize item.members? = pair, item'.members? = pair' at hmembers ⊢
      cases hmembers with
      | none => exact .error _
      | some hpair =>
          rcases hpair with _ | @⟨k, k', _, _, hk, _ | ⟨hv, _ | ⟨_, hmore⟩⟩⟩
          · exact .error _
          · exact .error _
          · have hkey := toMarkedKey_of_corresponds hK hk
            show ResultsAlike _
              (k.toMarkedKey mark >>= fun r => mergePairs r.2 _ (r.1.insert _ entries) items)
              (k'.toMarkedKey mark' >>= fun r => mergePairs r.2 _ (r.1.insert _ entries') items')
            generalize k.toMarkedKey mark = r, k'.toMarkedKey mark' = r' at hkey ⊢
            cases hkey with
            | error fault => exact .error fault
            | @ok r r' hmade =>
                obtain ⟨key, next⟩ := r
                obtain ⟨key', next'⟩ := r'
                obtain ⟨c, rfl, rfl, hk⟩ := hmade
                have hle := hK.le_first c
                have hinserted := Key.insert_related
                  (fun hk hl => hk.same_eq (hK.distinguishes c) hl)
                  (entriesCorrespond_iff.mp (hentries.mono hle)) hk (hv.mono hle)
                have hmerged := ih (hK.advance c) (position + 1)
                  (entriesCorrespond_iff.mpr hinserted) (hrest.mono hle)
                exact hmerged.imp fun _ _ hmade => hmade.of_advanced
          · simp only [List.length_cons, hmore.length_eq]
            exact .error _

/-- Merging values that correspond into mappings that correspond gives mappings that correspond. -/
theorem merge_corresponds (hK : Grows K mark mark') {entries entries' : List (Key × Value)}
    {v v' : Value} (hentries : EntriesCorrespond (K 0) B entries entries')
    (h : v.Corresponds (K 0) B v') :
    ResultsAlike (MadeAlong K mark mark' fun K => EntriesCorrespond K B) (merge mark entries v)
      (merge mark' entries' v') := by
  have hpairs : ∀ {items items' : List Value}, ItemsCorrespond (K 0) B items items' →
      ResultsAlike (MadeAlong K mark mark' fun K => EntriesCorrespond K B)
        (mergePairs mark 0 entries items) (mergePairs mark' 0 entries' items') :=
    fun hitems => mergePairs_correspond hK 0 hentries hitems
  cases h with
  | dict hnews =>
      refine .ok ⟨0, rfl, rfl, entriesCorrespond_iff.mpr ?_⟩
      exact Key.insertAll_related (fun hk hl => hk.same_eq (hK.distinguishes 0) hl)
        (entriesCorrespond_iff.mp hnews) (entriesCorrespond_iff.mp hentries)
  | list hitems => exact hpairs hitems
  | undefined hmark => exact .error _
  | closure | composition => exact .error _
  | atom hv =>
      cases v with
      | list | dict | undefined | closure | composition => cases hv
      | str s =>
          have hmembers := members?_correspond (K := K 0) (B := B) (v := .str s) (.atom hv)
          cases hmembers with
          | some hitems => exact hpairs hitems
      | tensor t =>
          unfold merge
          dsimp only
          split
          · exact .error _
          · exact hpairs (parts_correspond t)
      | _ => exact .error _

end Links

/-- Merging values that are alike into mappings that are alike gives mappings that are alike. -/
theorem merge_alike {L : Link} {n n' mark mark' : Nat} (hL : L.Distinguishes)
    (hstep : L.InStep mark mark') {entries entries' : List (Key × Value)} {v v' : Value}
    (hentries : EntriesAlike (L.below n n' mark mark') entries entries')
    (h : v.Alike (L.below n n' mark mark') v') :
    ResultsAlike (L.Made n n' mark mark' EntriesAlike) (merge mark entries v)
      (merge mark' entries' v') := by
  have hmerged := merge_corresponds (grows_below hL hstep) hentries.correspond h.corresponds
  refine hmerged.imp ?_
  rintro r r' ⟨c, hnext, hnext', hall⟩
  exact ⟨c, hnext, hnext', hall.alike⟩

end Value

end ArrayExpr
