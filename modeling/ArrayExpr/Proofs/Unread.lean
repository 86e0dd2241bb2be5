import ArrayExpr.Proofs.Grammar
import Mathlib.Data.List.Nodup
import Mathlib.Logic.Relation

/-!
Reading a token tree pays no attention to what it does not read. Of a mapping of a known kind it reads
the type, the location and the fields of the kind, and it finds each by its key. So the entries may
stand in any order, and there may be others, which belong to no kind or to another one: what is read,
be it a token tree or a fault, stays the same (`decode_eq_of_edited`).
-/

namespace ArrayExpr

def Field.name : Field → String
  | .part name | .parts name | .names name | .data name => name

def Field.keysRead (fields : List Field) : List String :=
  "type" :: "location" :: fields.map Field.name

/-- One change to plain data that is read as a token tree. A mapping of a known kind has its entries
in another order and others added to them that are not read; or such a change is made to one of the
tokens that its fields hold. -/
inductive Json.Edited : Json → Json → Prop where
  | rearranged {entries added entries' : List (String × Json)} {kind : String} {fields : List Field} :
      lookup? "type" entries = some (.str kind) → Field.ofKind? kind = some fields →
      (∀ e ∈ added, e.1 ∉ Field.keysRead fields) → entries'.Perm (entries ++ added) →
      (entries'.map Prod.fst).Nodup → Edited (.object entries) (.object entries')
  | part {entries : List (String × Json)} {kind name : String} {fields : List Field} {j j' : Json} :
      lookup? "type" entries = some (.str kind) → Field.ofKind? kind = some fields →
      .part name ∈ fields → lookup? name entries = some j → Edited j j' →
      Edited (.object entries) (.object (insert name j' entries))
  | member {entries : List (String × Json)} {kind name : String} {fields : List Field}
      {before after : List Json} {j j' : Json} :
      lookup? "type" entries = some (.str kind) → Field.ofKind? kind = some fields →
      .parts name ∈ fields → lookup? name entries = some (.list (before ++ j :: after)) →
      Edited j j' →
      Edited (.object entries) (.object (insert name (.list (before ++ j' :: after)) entries))

/-! ### Finding entries by their keys -/

namespace Json

theorem lookup?_cons (key k : String) (v : Json) (rest : List (String × Json)) :
    lookup? key ((k, v) :: rest) = if k = key then some v else lookup? key rest := by
  by_cases h : k = key
  · simp [lookup?, h]
  · simp [lookup?, h, List.find?_cons_of_neg]

/-- Where no key stands twice, every entry is found. -/
theorem lookup?_eq_some_iff {entries : List (String × Json)} (h : (entries.map Prod.fst).Nodup)
    {key : String} {value : Json} : lookup? key entries = some value ↔ (key, value) ∈ entries := by
  induction entries with
  | nil => simp [lookup?]
  | cons first rest ih =>
      obtain ⟨k, v⟩ := first
      obtain ⟨hfirst, hrest⟩ := List.nodup_cons.mp h
      rw [lookup?_cons, List.mem_cons, Prod.mk.injEq]
      by_cases hkey : k = key
      · subst hkey
        have hmem : (k, value) ∉ rest := by
          intro hmem
          exact hfirst (List.mem_map.mpr ⟨(k, value), hmem, rfl⟩)
        simp [hmem, eq_comm]
      · rw [if_neg hkey, ih hrest]
        simp [Ne.symm hkey]

theorem lookup?_eq_of_perm {entries entries' : List (String × Json)} (h : entries'.Perm entries)
    (hnodup : (entries'.map Prod.fst).Nodup) (key : String) :
    lookup? key entries' = lookup? key entries := by
  have hnodup' : (entries.map Prod.fst).Nodup := (h.map Prod.fst).nodup_iff.mp hnodup
  apply Option.ext
  intro value
  rw [lookup?_eq_some_iff hnodup, lookup?_eq_some_iff hnodup', h.mem_iff]

theorem lookup?_append_of_not_mem (entries : List (String × Json)) {added : List (String × Json)}
    {key : String} (h : ∀ e ∈ added, e.1 ≠ key) :
    lookup? key (entries ++ added) = lookup? key entries := by
  have hnone : added.find? (fun e => e.1 == key) = none := by
    simpa [List.find?_eq_none] using h
  rw [lookup?, List.find?_append, hnone, Option.or_none, lookup?]

theorem lookup?_insert (key other : String) (value : Json) (entries : List (String × Json)) :
    lookup? other (insert key value entries) =
      if key = other then some value else lookup? other entries := by
  induction entries with
  | nil => exact lookup?_cons other key value []
  | cons first rest ih =>
      obtain ⟨k, v⟩ := first
      rw [insert]
      by_cases hkey : k = key
      · rw [if_pos (beq_iff_eq.mpr hkey), lookup?_cons, lookup?_cons, hkey]
        by_cases hother : key = other
        · rw [if_pos hother, if_pos hother]
        · rw [if_neg hother, if_neg hother, if_neg hother]
      · rw [if_neg (mt beq_iff_eq.mp hkey), lookup?_cons, lookup?_cons, ih]
        by_cases hk : k = other
        · have hne : key ≠ other := fun h => hkey (hk.trans h.symm)
          rw [if_pos hk, if_pos hk, if_neg hne]
        · rw [if_neg hk, if_neg hk]

end Json

/-! ### Mappings that are read alike -/

namespace Field

/-- Fields of one kind differ in their names, and none is named as the type or the location. -/
theorem nodup_keysRead {kind : String} {fields : List Field} (h : ofKind? kind = some fields) :
    (keysRead fields).Nodup := by
  unfold ofKind? at h
  split at h
  all_goals cases h
  all_goals decide

/-- A field that two mappings fill alike, as far as reading its parts by `sub` can tell. -/
def Agrees (room : Nat) (sub : Json → Except Fault Token) (kind : String)
    (entries entries' : List (String × Json)) : Field → Prop
  | .part name =>
    (do sub (← Token.needed kind name entries')) = (do sub (← Token.needed kind name entries))
  | .parts name =>
    (do (← (← Token.needed kind name entries').members).mapM sub) =
      (do (← (← Token.needed kind name entries).members).mapM sub)
  | .names name => Token.namesOf room name entries' = Token.namesOf room name entries
  | .data name => Token.optional name entries' = Token.optional name entries

theorem agrees_of_lookup?_eq (room : Nat) (sub : Json → Except Fault Token) (kind : String)
    {entries entries' : List (String × Json)} {f : Field}
    (h : Json.lookup? f.name entries' = Json.lookup? f.name entries) :
    f.Agrees room sub kind entries entries' := by
  cases f with
  | part name | parts name =>
      change Json.lookup? name entries' = Json.lookup? name entries at h
      simp only [Agrees, Token.needed, h]
  | names name =>
      change Json.lookup? name entries' = Json.lookup? name entries at h
      rw [Agrees, Token.namesOf, Token.namesOf, h]
  | data name =>
      change Json.lookup? name entries' = Json.lookup? name entries at h
      rw [Agrees, Token.optional, Token.optional, h]

end Field

namespace Token

variable {depth : Nat}

theorem needed_eq_ok {kind name : String} {entries : List (String × Json)} {j : Json}
    (h : Json.lookup? name entries = some j) : needed kind name entries = .ok j := by
  rw [needed, h]

/-- The fields of a kind are all that is read for it. -/
theorem ofFields?_eq_of_agrees {room : Nat} {sub : Json → Except Fault Token}
    {entries entries' : List (String × Json)} {kind : String} {fields : List Field}
    (h : Field.ofKind? kind = some fields)
    (hagrees : ∀ f ∈ fields, f.Agrees room sub kind entries entries') (span? : Option Span) :
    ofFields? room sub span? entries' kind = ofFields? room sub span? entries kind := by
  unfold Field.ofKind? at h
  split at h
  all_goals cases h
  all_goals simp only [List.forall_mem_cons, Field.Agrees] at hagrees
  all_goals simp only [ofFields?, hagrees]
  -- Only a program does more than hand on what its field holds.
  have hmembers := congrArg (fun r => r >>= fun ms => pure (program (located span? ms) ms)) hagrees.1
  simp only [bind_assoc] at hmembers
  exact congrArg some hmembers

/-- A mapping of a known kind is read by its type, its location and its fields. -/
theorem decode_eq_of_agrees {entries entries' : List (String × Json)} {kind : String}
    {fields : List Field} (htype : Json.lookup? "type" entries = some (.str kind))
    (hkind : Field.ofKind? kind = some fields)
    (htype' : Json.lookup? "type" entries' = Json.lookup? "type" entries)
    (hlocation : Json.lookup? "location" entries' = Json.lookup? "location" entries)
    (hagrees : ∀ f ∈ fields, f.Agrees (writingRoom depth) (decode depth) kind entries entries') :
    decode (depth + 1) (.object entries') = decode (depth + 1) (.object entries) := by
  have hspan : spanOf? (writingRoom depth) entries' (.str kind) =
      spanOf? (writingRoom depth) entries (.str kind) := by
    rw [spanOf?, spanOf?, hlocation]
  simp only [decode, htype', htype, ofTagged, hspan]
  refine bind_congr fun span? => ?_
  obtain ⟨r, hr, -⟩ := ofFields?_eq_some (writingRoom depth) (decode depth) entries hkind span?
  simp only [ofFields?_eq_of_agrees hkind hagrees, hr]

/-- Setting a field of a mapping makes no difference if what is set is read as what was there. -/
theorem decode_insert {entries : List (String × Json)} {kind name : String} {fields : List Field}
    {value : Json} {g : Field} (htype : Json.lookup? "type" entries = some (.str kind))
    (hkind : Field.ofKind? kind = some fields) (hg : g ∈ fields) (hname : g.name = name)
    (hagrees : g.Agrees (writingRoom depth) (decode depth) kind entries (Json.insert name value entries)) :
    decode (depth + 1) (.object (Json.insert name value entries)) =
      decode (depth + 1) (.object entries) := by
  have hread := Field.nodup_keysRead hkind
  obtain ⟨hnotType, hread⟩ := List.nodup_cons.mp hread
  obtain ⟨hnotLocation, hnames⟩ := List.nodup_cons.mp hread
  have hmem : name ∈ fields.map Field.name := hname ▸ List.mem_map_of_mem hg
  have hothers : ∀ key, key ≠ name →
      Json.lookup? key (Json.insert name value entries) = Json.lookup? key entries := by
    intro key hkey
    rw [Json.lookup?_insert, if_neg (Ne.symm hkey)]
  refine decode_eq_of_agrees htype hkind (hothers _ ?_) (hothers _ ?_) fun f hf => ?_
  · rintro rfl
    exact hnotType (List.mem_cons_of_mem _ hmem)
  · rintro rfl
    exact hnotLocation hmem
  · by_cases hfg : f.name = name
    · have hsame : f = g := List.inj_on_of_nodup_map hnames hf hg (hfg.trans hname.symm)
      exact hsame ▸ hagrees
    · exact Field.agrees_of_lookup?_eq _ _ kind (hothers _ hfg)

/-- One change to what is not read makes no difference. -/
theorem decode_edited {v v' : Json} (h : v.Edited v') (depth : Nat) :
    decode depth v' = decode depth v := by
  -- The change is made at one mapping; the induction is on the way there.
  induction h generalizing depth with
  | @rearranged entries added entries' kind fields htype hkind hadded hperm hnodup =>
      cases depth with
      | zero => rfl
      | succ depth =>
          have hlookup : ∀ key ∈ Field.keysRead fields,
              Json.lookup? key entries' = Json.lookup? key entries := by
            intro key hkey
            rw [Json.lookup?_eq_of_perm hperm hnodup]
            apply Json.lookup?_append_of_not_mem
            rintro e he rfl
            exact hadded e he hkey
          apply decode_eq_of_agrees htype hkind
          · exact hlookup _ (by simp [Field.keysRead])
          · exact hlookup _ (by simp [Field.keysRead])
          · intro f hf
            apply Field.agrees_of_lookup?_eq
            apply hlookup
            exact List.mem_cons_of_mem _ (List.mem_cons_of_mem _ (List.mem_map_of_mem hf))
  | @part entries kind name fields j j' htype hkind hname hj _ ih =>
      cases depth with
      | zero => rfl
      | succ depth =>
          refine decode_insert htype hkind hname (rfl : (Field.part name).name = name) ?_
          have hj' : Json.lookup? name (Json.insert name j' entries) = some j' := by
            rw [Json.lookup?_insert, if_pos rfl]
          simp only [Field.Agrees, needed_eq_ok hj, needed_eq_ok hj']
          exact ih depth
  | @member entries kind name fields before after j j' htype hkind hname hj _ ih =>
      cases depth with
      | zero => rfl
      | succ depth =>
          refine decode_insert htype hkind hname (rfl : (Field.parts name).name = name) ?_
          have hj' : Json.lookup? name
              (Json.insert name (.list (before ++ j' :: after)) entries) =
                some (.list (before ++ j' :: after)) := by
            rw [Json.lookup?_insert, if_pos rfl]
          simp only [Field.Agrees, needed_eq_ok hj, needed_eq_ok hj']
          show (before ++ j' :: after).mapM (decode depth) = (before ++ j :: after).mapM (decode depth)
          rw [List.mapM_append, List.mapM_append, List.mapM_cons, List.mapM_cons, ih depth]

/-- **What is not read does not matter.** Let the entries of any number of mappings that stand in the
place of tokens of known kinds be put in another order, and let entries under keys that are not read of
those kinds be added to them. Then reading comes to the same at every depth: to the same token tree, the
spans included, or else to the same fault. -/
theorem decode_eq_of_edited {v v' : Json} (h : Relation.ReflTransGen Json.Edited v v')
    (depth : Nat) : decode depth v' = decode depth v := by
  induction h with
  | refl => rfl
  | tail _ hlast ih => rw [decode_edited hlast, ih]

/-- An operation and the path from which it takes its span get entries that compositions and assignments
read; those of the path are also turned round. -/
theorem decode_eq_of_edited_operation :
    let place : Json := .object [("startLine", .int 2), ("startColumn", .int 5)]
    let extra : List (String × Json) := [("list", .null), ("path", .int 3)]
    let name : List (String × Json) :=
      [("type", .str "Path"), ("value", .str "ab"), ("location", place)]
    let operation (left : List (String × Json)) : List (String × Json) :=
      [("type", .str "BinaryOperation"), ("left", .object left),
        ("right", .object [("type", .str "Tensor")])]
    let program (member : List (String × Json)) : Json :=
      .object [("value", .list [.object member]), ("type", .str "Program")]
    let v := program (operation name)
    let v' := program (extra ++ operation (name ++ extra).reverse)
    let t : Token :=
      .program ⟨2, 5, 2, 5⟩
        [.binary ⟨2, 5, 2, 5⟩ .null (.path ⟨2, 5, 2, 5⟩ ["a", "b"]) (.literal .nowhere .null)]
    Relation.ReflTransGen Json.Edited v v' ∧ decode 4 v = .ok t ∧ decode 4 v' = .ok t := by
  intro place extra name operation program v v' t
  have hname : Json.Edited (.object name) (.object (name ++ extra).reverse) :=
    .rearranged rfl rfl (by decide) (List.reverse_perm _) (by decide)
  have hleft : Json.Edited (.object (operation name)) (.object (operation (name ++ extra).reverse)) :=
    @Json.Edited.part (operation name) "BinaryOperation" "left"
      [.data "operator", .part "left", .part "right"] _ _ rfl rfl (by simp) rfl hname
  have hoperation : Json.Edited (.object (operation (name ++ extra).reverse))
      (.object (extra ++ operation (name ++ extra).reverse)) :=
    .rearranged rfl rfl (by decide) List.perm_append_comm (by decide)
  have hmember {m m' : List (String × Json)} (h : Json.Edited (.object m) (.object m')) :
      Json.Edited (program m) (program m') :=
    @Json.Edited.member [("value", .list [.object m]), ("type", .str "Program")] "Program" "value"
      [.parts "value"] [] [] _ _ rfl rfl (by simp) rfl h
  have hedited : Relation.ReflTransGen Json.Edited v v' :=
    (Relation.ReflTransGen.single (hmember hleft)).tail (hmember hoperation)
  have hread : decode 4 v = .ok t := rfl
  exact ⟨hedited, hread, (decode_eq_of_edited hedited 4).trans hread⟩

end Token

end ArrayExpr
