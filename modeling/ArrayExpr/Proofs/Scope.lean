import ArrayExpr.Proofs.Run
import ArrayExpr.Resolution
import ArrayExpr.Value.Merge

/-!
Entries of mappings and scopes of machines: when keys are the same, what is found after a key was set
and which keys there are, in which order names are listed, that merging brings in members of what is
merged, that a machine with a scope added or a name bound has its other scopes as they were, and that
what a runtime binds is found in the runtime.
-/

namespace ArrayExpr

namespace Key

variable {α : Type}

theorem same_iff {a b : Key} : a.same b = true ↔ a.identity = b.identity := by
  simp [same]

theorem same_comm (a b : Key) : a.same b = b.same a := by
  rw [Bool.eq_iff_iff, same_iff, same_iff]
  exact eq_comm

@[simp]
theorem same_self (k : Key) : k.same k = true :=
  same_iff.mpr rfl

theorem same_trans {a b c : Key} (hab : a.same b = true) (hbc : b.same c = true) :
    a.same c = true :=
  same_iff.mpr ((same_iff.mp hab).trans (same_iff.mp hbc))

/-- Whether a key is a number; numbers of several kinds can be the same key. -/
def isNumber : Key → Bool
  | .bool _ | .int _ | .float _ | .scalar _ => true
  | .none | .str _ | .undefined _ | .failure | .foreign _ => false

theorem Identity.ofFloat_eq (x : Float) :
    (∃ n, Identity.ofFloat x = .whole n) ∨ ∃ y, Identity.ofFloat x = .double y := by
  unfold ofFloat
  split
  · exact .inl ⟨_, rfl⟩
  · exact .inr ⟨_, rfl⟩

/-- What is no number is the same key as itself only. -/
theorem eq_of_identity_eq {k l : Key} (hl : l.isNumber = false) (h : k.identity = l.identity) :
    k = l := by
  have hfloat : ∀ x, Identity.ofFloat x ≠ l.identity := by
    intro x hx
    cases l with
    | bool | int | float | scalar => cases hl
    | none | str | undefined | failure | foreign =>
        obtain ⟨_, hnumber⟩ | ⟨_, hnumber⟩ := Identity.ofFloat_eq x
        all_goals cases hnumber.symm.trans hx
  cases k with
  | float x => exact absurd h (hfloat x)
  | scalar s =>
      cases s with
      | float x => exact absurd h (hfloat x)
      | bool | int => cases l <;> simp_all [identity, isNumber]
  | _ => cases l <;> simp_all [identity, isNumber]

theorem same_str {k : Key} {s : String} : k.same (.str s) = true ↔ k = .str s :=
  ⟨fun h => eq_of_identity_eq rfl (same_iff.mp h), fun h => h ▸ same_self _⟩

/-- What holds of all values of a mapping holds of a value that is found in it. -/
theorem lookup?_all {P : α → Prop} {entries : List (Key × α)} (hall : ∀ e ∈ entries, P e.2)
    {key : Key} {value : α} (hfound : key.lookup? entries = some value) : P value := by
  obtain ⟨e, he, rfl⟩ := Option.map_eq_some_iff.mp hfound
  exact hall e (List.mem_of_find?_eq_some he)

theorem insert_all {P : α → Prop} {entries : List (Key × α)} (hall : ∀ e ∈ entries, P e.2)
    (key : Key) {value : α} (hvalue : P value) : ∀ e ∈ key.insert value entries, P e.2 := by
  induction entries with
  | nil => simpa [insert] using hvalue
  | cons first rest ih =>
      obtain ⟨k, v⟩ := first
      have hrest : ∀ e ∈ rest, P e.2 := fun e he => hall e (List.mem_cons_of_mem _ he)
      have hv : P v := hall (k, v) List.mem_cons_self
      intro e he
      unfold insert at he
      split at he
      · rcases List.mem_cons.mp he with rfl | he
        · exact hvalue
        · exact hrest e he
      · rcases List.mem_cons.mp he with rfl | he
        · exact hv
        · exact ih hrest e he

theorem insertAll_all {P : α → Prop} {news entries : List (Key × α)} (hnews : ∀ e ∈ news, P e.2)
    (hall : ∀ e ∈ entries, P e.2) : ∀ e ∈ insertAll news entries, P e.2 := by
  induction news generalizing entries with
  | nil => exact hall
  | cons first rest ih =>
      have hrest : ∀ e ∈ rest, P e.2 := fun e he => hnews e (List.mem_cons_of_mem _ he)
      exact ih hrest (insert_all hall first.1 (hnews first List.mem_cons_self))

theorem lookup?_cons (key k : Key) (v : α) (rest : List (Key × α)) :
    key.lookup? ((k, v) :: rest) = if k.same key then some v else key.lookup? rest := by
  unfold lookup?
  rw [List.find?_cons]
  cases k.same key <;> rfl

/-- Setting a key changes what is found under it and nothing else. -/
theorem lookup?_insert (key other : Key) (value : α) (entries : List (Key × α)) :
    other.lookup? (key.insert value entries) =
      if key.same other then some value else other.lookup? entries := by
  induction entries with
  | nil => rw [insert, lookup?_cons]
  | cons first rest ih =>
      obtain ⟨k, v⟩ := first
      rw [insert]
      split
      · rename_i hkey
        rw [lookup?_cons, lookup?_cons]
        by_cases hother : key.same other = true
        · rw [if_pos (same_trans hkey hother), if_pos hother]
        · have hk : ¬ k.same other = true := fun hk =>
            hother (same_trans ((same_comm key k).trans hkey) hk)
          rw [if_neg hk, if_neg hother, if_neg hk]
      · rename_i hkey
        rw [lookup?_cons, lookup?_cons, ih]
        by_cases hk : k.same other = true
        · have hother : ¬ key.same other = true := fun hother =>
            hkey (same_trans hk ((same_comm other key).trans hother))
          rw [if_pos hk, if_neg hother, if_pos hk]
        · rw [if_neg hk, if_neg hk]

theorem lookup?_eq_none {key : Key} {entries : List (Key × α)} :
    key.lookup? entries = .none ↔ ∀ k ∈ entries.map Prod.fst, k.same key = false := by
  simp [lookup?, List.find?_eq_none]

theorem lookup?_concat (key : Key) (entries : List (Key × α)) (e : Key × α) :
    key.lookup? (entries ++ [e]) =
      (key.lookup? entries).or (if e.1.same key then some e.2 else .none) := by
  unfold lookup?
  rw [List.find?_append, Option.map_or, List.find?_singleton]
  split <;> rfl

/-- Of the keys that are set together the last one counts. -/
theorem lookup?_insertAll (key : Key) (news entries : List (Key × α)) :
    key.lookup? (insertAll news entries) = (key.lookup? news.reverse).or (key.lookup? entries) := by
  induction news generalizing entries with
  | nil => rfl
  | cons e rest ih =>
      rw [insertAll, List.foldl_cons, ← insertAll, ih, List.reverse_cons, lookup?_concat,
        lookup?_insert, Option.or_assoc]
      split <;> rfl

/-- Setting a key adds it at the end, unless it is there. -/
theorem keys_insert (key : Key) (value : α) (entries : List (Key × α)) :
    (key.insert value entries).map Prod.fst =
      if (key.lookup? entries).isSome then entries.map Prod.fst
      else entries.map Prod.fst ++ [key] := by
  induction entries with
  | nil => rfl
  | cons first rest ih =>
      obtain ⟨k, v⟩ := first
      rw [insert, lookup?_cons]
      split
      · rfl
      · rw [List.map_cons, ih]
        split <;> rfl

theorem mem_keys_insert (key : Key) (value : α) (entries : List (Key × α)) (k : Key) :
    k ∈ (key.insert value entries).map Prod.fst ↔
      k ∈ entries.map Prod.fst ∨ key.lookup? entries = .none ∧ k = key := by
  rw [keys_insert]
  cases key.lookup? entries <;> simp

/-- What holds of all entries of a mapping, of its keys and of its values, holds of them once an entry
is set of which it holds. -/
theorem insert_entries_all (P : Key → Prop) {Q : α → Prop} {entries : List (Key × α)}
    (hall : ∀ e ∈ entries, P e.1 ∧ Q e.2) {key : Key} {value : α} (hkey : P key)
    (hvalue : Q value) : ∀ e ∈ key.insert value entries, P e.1 ∧ Q e.2 := by
  intro e he
  constructor
  · rcases (mem_keys_insert key value entries e.1).mp (List.mem_map_of_mem he) with hold | hnew
    · obtain ⟨old, hmem, hkeys⟩ := List.mem_map.mp hold
      exact hkeys ▸ (hall old hmem).1
    · exact hnew.2 ▸ hkey
  · exact insert_all (fun e he => (hall e he).2) key hvalue e he

theorem insertAll_entries_all (P : Key → Prop) {Q : α → Prop} {news entries : List (Key × α)}
    (hnews : ∀ e ∈ news, P e.1 ∧ Q e.2) (hall : ∀ e ∈ entries, P e.1 ∧ Q e.2) :
    ∀ e ∈ insertAll news entries, P e.1 ∧ Q e.2 := by
  induction news generalizing entries with
  | nil => exact hall
  | cons first rest ih =>
      obtain ⟨hfirst, hrest⟩ := List.forall_mem_cons.mp hnews
      exact ih hrest (insert_entries_all P hall hfirst.1 hfirst.2)

theorem mem_keys_insert_str (name : String) (value : α) (entries : List (Key × α)) (k : Key) :
    k ∈ ((Key.str name).insert value entries).map Prod.fst ↔
      k ∈ entries.map Prod.fst ∨ k = .str name := by
  rw [mem_keys_insert]
  refine ⟨fun hk => hk.imp_right And.right, fun hk => ?_⟩
  rcases hk with hk | rfl
  · exact .inl hk
  · -- A text that is not added is there.
    by_cases hnone : (Key.str name).lookup? entries = .none
    · exact .inr ⟨hnone, rfl⟩
    · simp only [lookup?_eq_none, Classical.not_forall, Bool.not_eq_false, same_str] at hnone
      obtain ⟨k, hk, rfl⟩ := hnone
      exact .inl hk

theorem mem_keys_insertAll_str {news : List (Key × α)} (hnews : ∀ e ∈ news, ∃ name, e.1 = .str name)
    (entries : List (Key × α)) (k : Key) :
    k ∈ (insertAll news entries).map Prod.fst ↔
      k ∈ entries.map Prod.fst ∨ k ∈ news.map Prod.fst := by
  induction news generalizing entries with
  | nil => simp [insertAll]
  | cons e rest ih =>
      obtain ⟨name, hname⟩ := hnews e List.mem_cons_self
      have hrest : ∀ e ∈ rest, ∃ name, e.1 = .str name := fun e he =>
        hnews e (List.mem_cons_of_mem _ he)
      rw [insertAll, List.foldl_cons, ← insertAll, ih hrest, hname, mem_keys_insert_str,
        List.map_cons, List.mem_cons, hname, or_assoc]

/-- No key stands in a mapping twice. -/
def Distinct (entries : List (Key × α)) : Prop :=
  (entries.map Prod.fst).Pairwise fun k l => k.same l = false

theorem Distinct.insert {entries : List (Key × α)} (h : Distinct entries) (key : Key) (value : α) :
    Distinct (key.insert value entries) := by
  unfold Distinct
  rw [keys_insert]
  split
  · exact h
  · rename_i habsent
    have hnone : key.lookup? entries = .none := by simpa using habsent
    refine List.pairwise_append.mpr ⟨h, List.pairwise_singleton _ _, fun k hk l hl => ?_⟩
    rw [List.mem_singleton.mp hl]
    exact lookup?_eq_none.mp hnone k hk

theorem Distinct.nodup {entries : List (Key × α)} (h : Distinct entries) :
    (entries.map Prod.fst).Nodup := by
  refine List.Pairwise.imp (fun {k l} hkl hne => ?_) h
  rw [hne, same_self] at hkl
  cases hkl

theorem Distinct.insertAll {news entries : List (Key × α)} (h : Distinct entries) :
    Distinct (insertAll news entries) := by
  induction news generalizing entries with
  | nil => exact h
  | cons e rest ih => exact ih (h.insert e.1 e.2)

/-- Where no key stands twice, it does not matter from which end one looks. -/
theorem Distinct.lookup?_reverse {entries : List (Key × α)} (h : Distinct entries) (key : Key) :
    key.lookup? entries.reverse = key.lookup? entries := by
  induction entries with
  | nil => rfl
  | cons e rest ih =>
      obtain ⟨k, v⟩ := e
      obtain ⟨hfirst, hrest⟩ := List.pairwise_cons.mp h
      rw [List.reverse_cons, lookup?_concat, ih hrest, lookup?_cons]
      split
      · rename_i hsame
        have habsent : key.lookup? rest = .none := by
          refine lookup?_eq_none.mpr fun l hl => Bool.eq_false_iff.mpr fun hl' => ?_
          have hboth : k.same l = true := same_trans hsame ((same_comm key l).trans hl')
          rw [hfirst l hl] at hboth
          cases hboth
        rw [habsent, Option.none_or]
      · rw [Option.or_none]

/-- Setting a key keeps the keys that are there, each at its place. -/
theorem keys_prefix_insert (key : Key) (value : α) (entries : List (Key × α)) :
    entries.map Prod.fst <+: (key.insert value entries).map Prod.fst := by
  induction entries with
  | nil => exact List.nil_prefix
  | cons first rest ih =>
      obtain ⟨k, v⟩ := first
      unfold insert
      split
      · exact List.prefix_refl _
      · exact List.cons_prefix_cons.mpr ⟨rfl, ih⟩

end Key

/-- Names are listed in the same order, whatever the order in which they were bound. -/
theorem sortedNames_eq_of_perm {s s' : Scope} (h : (s.map Prod.fst).Perm (s'.map Prod.fst)) :
    sortedNames s = sortedNames s' := by
  have hperm : (s.map fun e => e.1.shown).Perm (s'.map fun e => e.1.shown) := by
    have hshown := h.map Key.shown
    rwa [List.map_map, List.map_map] at hshown
  have hall : (s.all fun e => e.1.obstacle?.isNone) = s'.all fun e => e.1.obstacle?.isNone := by
    have hkeys (t : Scope) :
        (t.all fun e => e.1.obstacle?.isNone) = (t.map Prod.fst).all (·.obstacle?.isNone) := by
      rw [List.all_map]
      rfl
    rw [hkeys, hkeys]
    exact h.all_eq
  have hsorted (l : List String) :
      (l.mergeSort fun a b => !(b < a)).Pairwise fun a b => (!(b < a)) = true := by
    refine List.pairwise_mergeSort (fun a b c hab hbc => ?_) (fun a b => ?_) l
    · simp only [Bool.not_eq_eq_eq_not, Bool.not_true, decide_eq_false_iff_not, String.not_lt] at *
      exact String.le_trans hab hbc
    · simp only [Bool.or_eq_true, Bool.not_eq_eq_eq_not, Bool.not_true, decide_eq_false_iff_not,
        String.not_lt]
      exact String.le_total a b
  unfold sortedNames
  rw [hall]
  refine ite_congr rfl (fun _ => congrArg Except.ok ?_) fun _ => rfl
  refine List.Perm.eq_of_pairwise (fun a b _ _ hab hba => ?_) (hsorted _) (hsorted _) ?_
  · simp only [Bool.not_eq_eq_eq_not, Bool.not_true, decide_eq_false_iff_not, String.not_lt] at *
    exact String.le_antisymm hab hba
  · exact ((List.mergeSort_perm _ _).trans hperm).trans (List.mergeSort_perm _ _).symm

namespace Value

variable {P : Value → Prop}

theorem toValue_of_toKey {v : Value} {key : Key} (h : v.toKey = .ok key) : key.toValue = v := by
  unfold toKey at h
  split at h <;> cases h <;> rfl

/-- A key is the value it is made of, or an undefined number. -/
theorem toMarkedKey_all (hundefined : ∀ u, P (.undefined u)) {mark : Nat} {v : Value}
    {r : Key × Nat} (hv : P v) (h : v.toMarkedKey mark = .ok r) : P r.1.toValue := by
  unfold toMarkedKey at h
  split at h
  · cases h
    split
    · exact hundefined _
    · exact hv
  · obtain ⟨key, hkey, h⟩ := exists_of_bind_eq_ok h
    cases h
    rw [toValue_of_toKey hkey]
    exact hv

/-- What passes from a value to its members passes to the entries made of pairs of them. -/
theorem mergePairs_all (hmembers : ∀ v vs, P v → members? v = some vs → ∀ w ∈ vs, P w)
    (hundefined : ∀ u, P (.undefined u)) {mark position : Nat} {entries : List (Key × Value)}
    {items : List Value} {merged : List (Key × Value) × Nat}
    (hentries : ∀ e ∈ entries, P e.1.toValue ∧ P e.2) (hitems : ∀ v ∈ items, P v)
    (h : mergePairs mark position entries items = .ok merged) :
    ∀ e ∈ merged.1, P e.1.toValue ∧ P e.2 := by
  induction items generalizing mark position entries with
  | nil =>
      cases h
      exact hentries
  | cons item items ih =>
      have hitem : P item := hitems item List.mem_cons_self
      have hrest : ∀ v ∈ items, P v := fun v hv => hitems v (List.mem_cons_of_mem _ hv)
      unfold mergePairs at h
      split at h
      · cases h
      · rename_i k v hpair
        have hk : P k := hmembers item [k, v] hitem hpair k (by simp)
        have hv : P v := hmembers item [k, v] hitem hpair v (by simp)
        obtain ⟨r, hr, h⟩ := exists_of_bind_eq_ok h
        have hkey : P r.1.toValue := toMarkedKey_all hundefined hk hr
        exact ih (Key.insert_entries_all (P ·.toValue) hentries hkey hv) hrest h
      · cases h

theorem merge_all (hmembers : ∀ v vs, P v → members? v = some vs → ∀ w ∈ vs, P w)
    (hundefined : ∀ u, P (.undefined u)) (hdict : ∀ news, P (.dict news) → ∀ e ∈ news, P e.2)
    {mark : Nat} {entries : List (Key × Value)} {value : Value}
    {merged : List (Key × Value) × Nat} (hentries : ∀ e ∈ entries, P e.1.toValue ∧ P e.2)
    (hvalue : P value) (h : merge mark entries value = .ok merged) :
    ∀ e ∈ merged.1, P e.1.toValue ∧ P e.2 := by
  unfold merge at h
  split at h
  · rename_i news
    cases h
    -- The keys of a mapping are what it is a sequence of.
    have hkeys : ∀ e ∈ news, P e.1.toValue := fun e he =>
      hmembers _ _ hvalue rfl _ (List.mem_map_of_mem he)
    have hnews : ∀ e ∈ news, P e.1.toValue ∧ P e.2 := fun e he =>
      ⟨hkeys e he, hdict _ hvalue e he⟩
    exact Key.insertAll_entries_all (P ·.toValue) hnews hentries
  · rename_i t
    split at h
    · cases h
    · rename_i hshape
      have hparts : members? (.tensor t) = some (parts t) := by simp [members?, hshape]
      exact mergePairs_all hmembers hundefined hentries (hmembers _ _ hvalue hparts) h
  · split at h
    · rename_i items hitems
      exact mergePairs_all hmembers hundefined hentries (hmembers _ _ hvalue hitems) h
    · cases h

end Value

namespace Machine

variable (m : Machine)

@[simp]
theorem length_addScope (s : Scope) : (m.addScope s).scopes.length = m.scopes.length + 1 := by
  simp [addScope]

@[simp]
theorem length_bind (i : Nat) (key : Key) (value : Value) :
    (m.bind i key value).scopes.length = m.scopes.length := by
  simp [bind]

theorem scope_addScope_of_lt (s : Scope) {j : Nat} (hj : j < m.scopes.length) :
    (m.addScope s).scope j = m.scope j := by
  simp [scope, addScope, List.getElem?_append_left hj]

theorem scope_addScope (s : Scope) : (m.addScope s).scope m.scopes.length = s := by
  simp [scope, addScope]

theorem scope_bind_self {i : Nat} (hi : i < m.scopes.length) (key : Key) (value : Value) :
    (m.bind i key value).scope i = key.insert value (m.scope i) := by
  simp [scope, bind, hi]

theorem scope_bind_of_ne {i j : Nat} (hne : i ≠ j) (key : Key) (value : Value) :
    (m.bind i key value).scope j = m.scope j := by
  simp [scope, bind, hne]

/-- Binding a name keeps the names of every scope. -/
theorem keys_prefix_bind (i j : Nat) (key : Key) (value : Value) :
    (m.scope j).map Prod.fst <+: ((m.bind i key value).scope j).map Prod.fst := by
  by_cases hne : i = j
  · subst hne
    simp only [scope, bind, List.getD_eq_getElem?_getD, List.getElem?_modify]
    cases m.scopes[i]? with
    | none => exact List.nil_prefix
    | some s => simpa using Key.keys_prefix_insert key value s
  · have hsame := scope_bind_of_ne m hne key value
    exact hsame ▸ List.prefix_refl _

/-- What holds of all entries of a scope and of those of the runtime holds of both merged. -/
theorem merged_all {P : Value → Prop} {rt : Runtime} (hrt : ∀ e ∈ rt.bindings, P e.2) {s : Scope}
    (hs : ∀ e ∈ s, P e.2) : ∀ e ∈ rt.merged s, P e.2 :=
  Key.insertAll_all hrt hs

theorem scope_all {P : Value → Prop} (hall : ∀ s ∈ m.scopes, ∀ e ∈ s, P e.2) (i : Nat) :
    ∀ e ∈ m.scope i, P e.2 := by
  unfold scope
  rw [List.getD_eq_getElem?_getD]
  cases h : m.scopes[i]? with
  | none => simp
  | some s => exact hall s (List.mem_of_getElem? h)

theorem bind_all {P : Value → Prop} (hall : ∀ s ∈ m.scopes, ∀ e ∈ s, P e.2) (i : Nat) (key : Key)
    {value : Value} (hvalue : P value) : ∀ s ∈ (m.bind i key value).scopes, ∀ e ∈ s, P e.2 := by
  intro s hs
  obtain ⟨j, hj⟩ := List.getElem?_of_mem hs
  simp only [bind, List.getElem?_modify] at hj
  obtain ⟨old, hold, rfl⟩ := Option.map_eq_some_iff.mp hj
  have hold' := hall old (List.mem_of_getElem? hold)
  split
  · exact Key.insert_all hold' key hvalue
  · exact hold'

theorem addScope_all {P : Value → Prop} (hall : ∀ s ∈ m.scopes, ∀ e ∈ s, P e.2) {s : Scope}
    (hs : ∀ e ∈ s, P e.2) : ∀ t ∈ (m.addScope s).scopes, ∀ e ∈ t, P e.2 := by
  intro t ht
  rcases List.mem_append.mp ht with ht | ht
  · exact hall t ht
  · rw [List.mem_singleton.mp ht]
    exact hs

end Machine

/-! ### Plain data as keys -/

def Json.isKey : Json → Bool
  | .list _ | .object _ => false
  | _ => true

/-! ### Names of a runtime -/

namespace Runtime

variable {rt : Runtime}

def binds (rt : Runtime) (key : Key) : Bool :=
  (key.lookup? rt.bindings).isSome

theorem exists_name_of_mem_bindings {e : Key × Value} (he : e ∈ rt.bindings) :
    ∃ name, e.1 = .str name := by
  obtain ⟨bound, -, rfl⟩ := List.mem_map.mp he
  exact ⟨bound.1, rfl⟩

theorem bindings_distinct (rt : Runtime) : Key.Distinct rt.bindings := by
  rw [Key.Distinct, bindings, List.map_map, List.pairwise_map]
  refine (List.pairwise_map.mp rt.bound_nodup).imp fun {a b} hne => Bool.eq_false_iff.mpr fun hsame => ?_
  exact hne (Key.str.inj (Key.same_str.mp hsame))

theorem binds_iff {key : Key} : rt.binds key = true ↔ ∃ e ∈ rt.bindings, e.1.same key = true := by
  simp [binds, Key.lookup?]

/-- A name is looked for in the runtime first. -/
theorem lookup?_merged (key : Key) (s : Scope) :
    key.lookup? (rt.merged s) = (key.lookup? rt.bindings).or (key.lookup? s) := by
  rw [merged, Key.lookup?_insertAll, rt.bindings_distinct.lookup?_reverse]

theorem lookup?_merged_of_binds {key : Key} (h : rt.binds key = true) (s : Scope) :
    key.lookup? (rt.merged s) = key.lookup? rt.bindings := by
  obtain ⟨v, hv⟩ := Option.isSome_iff_exists.mp h
  rw [lookup?_merged, hv, Option.some_or]

theorem lookup?_merged_of_not_binds {key : Key} (h : ¬ rt.binds key = true) (s : Scope) :
    key.lookup? (rt.merged s) = key.lookup? s := by
  have hnone : key.lookup? rt.bindings = none := by simpa [binds] using h
  rw [lookup?_merged, hnone, Option.none_or]

end Runtime

end ArrayExpr
