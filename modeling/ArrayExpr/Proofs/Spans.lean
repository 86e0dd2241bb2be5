import ArrayExpr.Proofs.Blame
import ArrayExpr.Proofs.Defects
import Mathlib.Data.List.Forall2

/-!
The spans of the tokens of a tree that is read. A token whose mapping has a location gets the span of
that location. All other tokens cover their parts, which may be without a location themselves, level by
level. In the end such a token reaches from the first to the last of the located tokens nearest below it,
those left aside that are at no known place (`span_of_decode`).
-/

namespace ArrayExpr

/-! ### Covering -/

def Span.upTo (first last : Span) : Span :=
  ⟨first.startLine, first.startColumn, last.endLine, last.endColumn⟩

/-- The span that holds together a sequence of spans: it goes from the start of the first that is known
to the end of the last that is known, and is itself not known if none of them is. -/
inductive Span.Hull (spans : List Span) : Span → Prop where
  | known {first last : Span} : spans.find? isKnown = some first →
      spans.reverse.find? isKnown = some last → Hull spans (first.upTo last)
  | unknown {s : Span} : (∀ t ∈ spans, t.isKnown = false) → s.isKnown = false → Hull spans s

namespace Span

variable {xs ys : List Span} {a b : Span}

theorem cover_of_unknown_left (h : a.isKnown = false) (b : Span) : cover a b = b := by
  simp [cover, h]

theorem cover_of_unknown_right (ha : a.isKnown = true) (hb : b.isKnown = false) : cover a b = a := by
  simp [cover, ha, hb]

theorem cover_of_known (ha : a.isKnown = true) (hb : b.isKnown = true) : cover a b = a.upTo b := by
  simp [cover, upTo, ha, hb]

/-- A span is known by its start. -/
theorem isKnown_upTo (ha : a.isKnown = true) (b : Span) : (a.upTo b).isKnown = true :=
  ha

theorem upTo_upTo (a b c d : Span) : (a.upTo b).upTo (c.upTo d) = a.upTo d := rfl

theorem find?_isKnown_eq_none (h : ∀ t ∈ xs, t.isKnown = false) : xs.find? isKnown = none := by
  simpa [List.find?_eq_none] using h

theorem find?_reverse_isKnown_eq_none (h : ∀ t ∈ xs, t.isKnown = false) :
    xs.reverse.find? isKnown = none :=
  find?_isKnown_eq_none fun t ht => h t (List.mem_reverse.mp ht)

theorem hull_nil : Hull [] nowhere :=
  .unknown nofun rfl

theorem hull_singleton (s : Span) : Hull [s] s := by
  by_cases h : s.isKnown = true
  · have hfirst : [s].find? isKnown = some s := by simp [h]
    exact .known hfirst hfirst
  · have hunknown : s.isKnown = false := by simpa using h
    exact .unknown (by simpa using hunknown) hunknown

/-- Two sequences of spans are held together by covering what holds together each of them. -/
theorem Hull.append (ha : Hull xs a) (hb : Hull ys b) : Hull (xs ++ ys) (cover a b) := by
  cases ha with
  | unknown hxs ha =>
      rw [cover_of_unknown_left ha]
      cases hb with
      | unknown hys hb =>
          refine .unknown ?_ hb
          intro t ht
          rcases List.mem_append.mp ht with ht | ht
          · exact hxs t ht
          · exact hys t ht
      | known hfirst hlast =>
          apply Hull.known
          · rw [List.find?_append, find?_isKnown_eq_none hxs, Option.none_or, hfirst]
          · rw [List.reverse_append, List.find?_append, hlast, Option.some_or]
  | @known first last hfirst hlast =>
      have hknown : (first.upTo last).isKnown = true := isKnown_upTo (List.find?_some hfirst) last
      have hfirst' : (xs ++ ys).find? isKnown = some first := by
        rw [List.find?_append, hfirst, Option.some_or]
      cases hb with
      | unknown hys hb =>
          rw [cover_of_unknown_right hknown hb]
          apply Hull.known hfirst'
          rw [List.reverse_append, List.find?_append, find?_reverse_isKnown_eq_none hys,
            Option.none_or, hlast]
      | @known second final hsecond hfinal =>
          have hknown' : (second.upTo final).isKnown = true :=
            isKnown_upTo (List.find?_some hsecond) final
          rw [cover_of_known hknown hknown', upTo_upTo]
          apply Hull.known hfirst'
          rw [List.reverse_append, List.find?_append, hfinal, Option.some_or]

/-- Covering spans one after the other holds together all that each of them holds together. -/
theorem hull_foldl {spanss : List (List Span)} {spans : List Span}
    (h : List.Forall₂ Hull spanss spans) (ha : Hull xs a) :
    Hull (xs ++ spanss.flatten) (spans.foldl cover a) := by
  induction h generalizing xs a with
  | nil => simpa using ha
  | cons hfirst _ ih =>
      rw [List.flatten_cons, ← List.append_assoc, List.foldl_cons]
      exact ih (ha.append hfirst)

theorem hull_coverAll {spanss : List (List Span)} {spans : List Span}
    (h : List.Forall₂ Hull spanss spans) : Hull spanss.flatten (coverAll spans) :=
  hull_foldl h hull_nil

end Span

/-! ### Located tokens -/

namespace Json

/-- The location that a mapping gives to its token, unless it counts as absent. -/
def location? : Json → Option Json
  | .object entries => (lookup? "location" entries).filter isPresent
  | _ => none

def heldBy (entries : List (String × Json)) : Field → List Json
  | .part name => (lookup? name entries).toList
  | .parts name => ((lookup? name entries).bind fun j => j.members.toOption).getD []
  | .names _ | .data _ => []

def fields (entries : List (String × Json)) : List Field :=
  ((lookup? "type" entries).map Token.fieldsOf).getD []

/-- What stands in the places of the tokens directly below that of a mapping, from left to right. -/
def parts : Json → List Json
  | .object entries => (fields entries).flatMap (heldBy entries)
  | _ => []

theorem height_lt_of_mem_heldBy {entries : List (String × Json)} {f : Field} {p : Json}
    (h : p ∈ heldBy entries f) : p.height < (Json.object entries).height := by
  cases f with
  | part name =>
      simp only [heldBy, Option.mem_toList] at h
      exact height_lt_of_lookup? h
  | parts name =>
      simp only [heldBy] at h
      cases hvalue : lookup? name entries with
      | none => simp [hvalue] at h
      | some value =>
          cases hmembers : value.members with
          | error fault => simp [hvalue, hmembers, Except.toOption] at h
          | ok js =>
              have hp : p ∈ js := by simpa [hvalue, hmembers, Except.toOption] using h
              have hlt := height_lt_of_lookup? hvalue
              have hle := height_le_of_mem_members hmembers hp
              omega
  | names | data => cases h

theorem height_lt_of_mem_parts {j p : Json} (h : p ∈ j.parts) : p.height < j.height := by
  cases j with
  | object entries =>
      obtain ⟨f, -, hp⟩ := List.mem_flatMap.mp h
      exact height_lt_of_mem_heldBy hp
  | _ => cases h

/-- The spans of the located tokens nearest to the place of a token, from left to right: its own, if it
is located, and otherwise those nearest to the places directly below it. -/
def nearest (j : Json) : List Span :=
  match j.location? with
  | some location => (Span.ofJson location).toOption.toList
  | none => j.parts.attach.flatMap fun p => nearest p.1
termination_by j.height
decreasing_by exact height_lt_of_mem_parts p.2

theorem nearest_of_location? {j location : Json} {s : Span} (h : j.location? = some location)
    (hs : Span.ofJson location = .ok s) : j.nearest = [s] := by
  rw [nearest, h]
  simp [hs, Except.toOption]

theorem nearest_of_unlocated {j : Json} (h : j.location? = none) :
    j.nearest = j.parts.flatMap nearest := by
  rw [nearest, h]
  simp

end Json

/-! ### Reading in parallel -/

namespace Token

variable {depth : Nat}

/-- Plain data that stands in the place of a token, and the token in the same place of a token tree. -/
inductive Placed (j : Json) (t : Token) : Json → Token → Prop where
  | root : Placed j t j t
  | part {k p : Json} {u c : Token} : Placed j t k u → (p, c) ∈ k.parts.zip u.children →
      Placed j t p c

theorem forall₂_of_mapM_eq_ok {sub : Json → Except Fault Token} {js : List Json} {ts : List Token}
    (h : js.mapM sub = .ok ts) : List.Forall₂ (fun p c => sub p = .ok c) js ts := by
  induction js generalizing ts with
  | nil =>
      cases h
      exact .nil
  | cons j js ih =>
      rw [List.mapM_cons] at h
      obtain ⟨t, ht, h⟩ := exists_of_bind_eq_ok h
      obtain ⟨us, hus, h⟩ := exists_of_bind_eq_ok h
      cases h
      exact .cons ht (ih hus)

/-- Reads the tokens that a field holds. -/
def readParts (room : Nat) (sub : Json → Except Fault Token) (kind : String)
    (entries : List (String × Json)) : Field → Except Fault (List Token)
  | .part name => do return [← sub (← needed kind name entries)]
  | .parts name => do (← (← needed kind name entries).members).mapM sub
  | .names name => do
    let _ ← namesOf room name entries
    return []
  | .data _ => return []

/-- What is read from the fields of a mapping are the tokens directly below its own, which covers them
unless it is located. -/
theorem ofFields?_span_children (room : Nat) (sub : Json → Except Fault Token)
    (entries : List (String × Json)) {kind : String} {fields : List Field}
    (h : Field.ofKind? kind = some fields) (span? : Option Span) :
    ∃ r, ofFields? room sub span? entries kind = some r ∧
      (do let t ← r; return (t.span, t.children)) =
        (do
          let children := (← fields.mapM (readParts room sub kind entries)).flatten
          return (located span? children, children)) := by
  unfold Field.ofKind? at h
  split at h
  all_goals cases h
  all_goals refine ⟨_, rfl, ?_⟩
  all_goals
    simp only [readParts, List.mapM_cons, List.mapM_nil, bind_assoc, pure_bind,
      List.flatten_cons, List.flatten_nil, List.cons_append, List.nil_append, List.append_nil,
      Token.span, children]
  rfl

theorem forall₂_of_readParts {room : Nat} {sub : Json → Except Fault Token} {kind : String}
    {entries : List (String × Json)} {f : Field} {ts : List Token}
    (h : readParts room sub kind entries f = .ok ts) :
    List.Forall₂ (fun p c => sub p = .ok c) (Json.heldBy entries f) ts := by
  have hneeded {name : String} {j : Json} (h : needed kind name entries = .ok j) :
      Json.lookup? name entries = some j := by
    unfold needed at h
    split at h
    · cases h
      assumption
    · cases h
  cases f with
  | part name =>
      obtain ⟨j, hj, h⟩ := exists_of_bind_eq_ok h
      obtain ⟨t, ht, h⟩ := exists_of_bind_eq_ok h
      cases h
      rw [Json.heldBy, hneeded hj]
      exact .cons ht .nil
  | parts name =>
      obtain ⟨j, hj, h⟩ := exists_of_bind_eq_ok h
      obtain ⟨js, hjs, h⟩ := exists_of_bind_eq_ok h
      have hheld : Json.heldBy entries (.parts name) = js := by
        simp [Json.heldBy, hneeded hj, hjs, Except.toOption]
      rw [hheld]
      exact forall₂_of_mapM_eq_ok h
  | names name =>
      obtain ⟨names, -, h⟩ := exists_of_bind_eq_ok h
      cases h
      exact .nil
  | data name =>
      cases h
      exact .nil

theorem forall₂_of_mapM_readParts {room : Nat} {sub : Json → Except Fault Token} {kind : String}
    {entries : List (String × Json)} {fields : List Field} {tss : List (List Token)}
    (h : fields.mapM (readParts room sub kind entries) = .ok tss) :
    List.Forall₂ (fun p c => sub p = .ok c) (fields.flatMap (Json.heldBy entries)) tss.flatten := by
  induction fields generalizing tss with
  | nil =>
      cases h
      exact .nil
  | cons f fields ih =>
      rw [List.mapM_cons] at h
      obtain ⟨ts, hts, h⟩ := exists_of_bind_eq_ok h
      obtain ⟨rest, hrest, h⟩ := exists_of_bind_eq_ok h
      cases h
      rw [List.flatMap_cons, List.flatten_cons]
      exact List.rel_append (forall₂_of_readParts hts) (ih hrest)

/-- A mapping gives its token a span by its location, if it has one. -/
theorem spanOf?_eq_ok {room : Nat} {entries : List (String × Json)} {type : Json}
    {span? : Option Span} (h : spanOf? room entries type = .ok span?) :
    (∀ location, (Json.object entries).location? = some location →
      ∃ s, span? = some s ∧ Span.ofJson location = .ok s) ∧
    ((Json.object entries).location? = none → span? = none) := by
  have hspan := spanOf?_eq_ok_iff.mp h
  simp only [Json.location?]
  cases hlocation : (Json.lookup? "location" entries).filter Json.isPresent with
  | none =>
      rw [hlocation] at hspan
      exact ⟨nofun, fun _ => hspan⟩
  | some location =>
      rw [hlocation] at hspan
      obtain ⟨span, hread, rfl⟩ := hspan
      refine ⟨?_, nofun⟩
      rintro _ ⟨⟩
      exact ⟨span, rfl, hread⟩

/-- The tokens directly below a token are read from what stands in their places, and the token gets the
span of its location, or covers them if it has none. -/
theorem span_children_of_decode {j : Json} {t : Token} (h : decode (depth + 1) j = .ok t) :
    List.Forall₂ (fun p c => decode depth p = .ok c) j.parts t.children ∧
      (∀ location, j.location? = some location → Span.ofJson location = .ok t.span) ∧
      (j.location? = none → t.span = Span.coverAll (t.children.map Token.span)) := by
  cases j with
  | object entries =>
      cases htype : Json.lookup? "type" entries with
      | none =>
          simp only [decode, htype] at h
          exact absurd h (untagged_ne_ok _ _ t)
      | some type =>
          simp only [decode, htype] at h
          obtain ⟨span?, hspan, h⟩ := exists_of_bind_eq_ok h
          obtain ⟨hlocated, hunlocated⟩ := spanOf?_eq_ok hspan
          suffices hread : t.span = located span? t.children ∧
              List.Forall₂ (fun p c => decode depth p = .ok c) (Json.object entries).parts
                t.children by
            obtain ⟨hcover, hparts⟩ := hread
            refine ⟨hparts, fun location hlocation => ?_, fun hnone => ?_⟩
            · obtain ⟨s, rfl, hs⟩ := hlocated location hlocation
              rw [hs, hcover, located, Option.getD_some]
            · rw [hcover, hunlocated hnone, located, Option.getD_none]
          have hfields : Json.fields entries = fieldsOf type := by
            rw [Json.fields, htype, Option.map_some, Option.getD_some]
          rw [Json.parts, hfields]
          cases type with
          | list | object => cases h
          | str kind =>
              cases hkind : Field.ofKind? kind with
              | none =>
                  simp only [ofFields?_eq_none hkind] at h
                  cases h
                  rw [fieldsOf, hkind]
                  exact ⟨rfl, .nil⟩
              | some fields =>
                  obtain ⟨r, hr, hread⟩ :=
                    ofFields?_span_children (writingRoom depth) (decode depth) entries hkind span?
                  simp only [hr] at h
                  subst h
                  obtain ⟨tss, htss, heq⟩ := exists_of_bind_eq_ok hread.symm
                  obtain ⟨hcover, hchildren⟩ := Prod.mk.inj (Except.ok.inj heq)
                  rw [fieldsOf, hkind, Option.getD_some, ← hchildren]
                  exact ⟨hcover.symm, forall₂_of_mapM_readParts htss⟩
          | null | bool | int | float =>
              obtain ⟨text, -, h⟩ := exists_of_bind_eq_ok h
              cases h
              exact ⟨rfl, .nil⟩
  | null | bool | int | float | str | list => exact absurd h (untagged_ne_ok _ _ t)

/-- A token that is not located holds together what is nearest to the places directly below it, if each
of the tokens there holds together what is nearest to its own. -/
theorem hull_parts {j : Json} {t : Token} (h : decode (depth + 1) j = .ok t)
    (hparts : ∀ p c, decode depth p = .ok c → Span.Hull p.nearest c.span)
    (hnone : j.location? = none) : Span.Hull (j.parts.flatMap Json.nearest) t.span := by
  obtain ⟨hchildren, -, hcover⟩ := span_children_of_decode h
  rw [hcover hnone, List.flatMap_def]
  apply Span.hull_coverAll
  rw [List.forall₂_map_left_iff, List.forall₂_map_right_iff]
  exact hchildren.imp hparts

theorem hull_nearest {j : Json} {t : Token} (h : decode depth j = .ok t) :
    Span.Hull j.nearest t.span := by
  induction depth generalizing j t with
  | zero => cases h
  | succ depth ih =>
      cases hlocation : j.location? with
      | some location =>
          obtain ⟨-, hlocated, -⟩ := span_children_of_decode h
          rw [Json.nearest_of_location? hlocation (hlocated location hlocation)]
          exact Span.hull_singleton t.span
      | none =>
          rw [Json.nearest_of_unlocated hlocation]
          exact hull_parts h (fun p c hc => ih hc) hlocation

/-- What stands in the place of a token is read as that token. -/
theorem Placed.exists_decode {j k : Json} {t u : Token} (hplaced : Placed j t k u)
    (h : decode depth j = .ok t) : ∃ d, decode (d + 1) k = .ok u := by
  induction hplaced with
  | root =>
      cases depth with
      | zero => cases h
      | succ depth => exact ⟨depth, h⟩
  | part _ hmem ih =>
      obtain ⟨d, hd⟩ := ih
      obtain ⟨hchildren, -⟩ := span_children_of_decode hd
      have hc := List.forall₂_zip hchildren hmem
      cases d with
      | zero => cases hc
      | succ d => exact ⟨d, hc⟩

theorem exists_mem_zip {xs : List Json} {ts : List Token} {r : Json → Token → Prop}
    (h : List.Forall₂ r xs ts) {t : Token} (ht : t ∈ ts) : ∃ x, (x, t) ∈ xs.zip ts := by
  have hzip : (xs.zip ts).map Prod.snd = ts := List.map_snd_zip (Nat.le_of_eq h.length_eq.symm)
  rw [← hzip] at ht
  obtain ⟨⟨x, _⟩, hmem, rfl⟩ := List.mem_map.mp ht
  exact ⟨x, hmem⟩

/-- Every token of a tree has its place in what the tree is read from. -/
theorem Within.exists_placed {j : Json} {t u : Token} (hwithin : t.Within u)
    (h : decode depth j = .ok t) : ∃ k, Placed j t k u := by
  induction hwithin with
  | root => exact ⟨j, .root⟩
  | @child u c _ hc ih =>
      obtain ⟨k, hk⟩ := ih
      obtain ⟨d, hd⟩ := hk.exists_decode h
      obtain ⟨hchildren, -⟩ := span_children_of_decode hd
      obtain ⟨p, hmem⟩ := exists_mem_zip hchildren hc
      exact ⟨p, hk.part hmem⟩

/-- **The span of a token is that of its location, or reaches over the nearest located tokens.** Let a
token tree be read from plain data. Every token of the tree was read from data in the same place. If
that data has a location, the token has the span of that location. If it has none, the token starts
where the first and ends where the last of the nearest located tokens below it does, those left aside
whose places are not known; and if no place is known, the place of the token is not known. -/
theorem span_of_decode {j : Json} {t : Token} (h : decode depth j = .ok t) :
    (∀ u, t.Within u → ∃ k, Placed j t k u) ∧
    ∀ k u, Placed j t k u →
      (∃ d, decode d k = .ok u) ∧
      (∀ location, k.location? = some location → Span.ofJson location = .ok u.span) ∧
      (k.location? = none → Span.Hull (k.parts.flatMap Json.nearest) u.span) := by
  refine ⟨fun u hu => hu.exists_placed h, fun k u hplaced => ?_⟩
  obtain ⟨d, hd⟩ := hplaced.exists_decode h
  obtain ⟨-, hlocated, -⟩ := span_children_of_decode hd
  exact ⟨⟨d + 1, hd⟩, hlocated, hull_parts hd fun p c hc => hull_nearest hc⟩

/-- A program that is not located. The first of its members holds a path whose place is not known, the
second is located itself, the third holds the last place that is known, and the last holds none. -/
theorem span_of_decode_program :
    let tagged (kind : String) (fields : List (String × Json)) : Json :=
      .object (("type", .str kind) :: fields)
    let place (line column : Int) : String × Json :=
      ("location", .object [("startLine", .int line), ("startColumn", .int column)])
    let path (line column : Int) : Json := tagged "Path" [place line column]
    let wrapped (content : Json) : Json := tagged "Object" [("value", content)]
    let reference : Json := tagged "Reference" [place 2 7, ("value", path 9 9)]
    let members : List Json :=
      [wrapped (path (-3) 5), reference, wrapped (wrapped (path 4 1)), tagged "Tensor" []]
    let j : Json := tagged "Program" [("value", .list members)]
    let spans : List Span := [⟨-3, 5, -3, 5⟩, ⟨2, 7, 2, 7⟩, ⟨4, 1, 4, 1⟩]
    j.parts.flatMap Json.nearest = spans ∧
      ∃ t, decode 4 j = .ok t ∧ t.span = ⟨2, 7, 4, 1⟩ ∧ Span.Hull spans t.span := by
  intro tagged place path wrapped reference members j spans
  have hpath (line column : Int) : (path line column).nearest = [⟨line, column, line, column⟩] :=
    Json.nearest_of_location? rfl rfl
  have hreference : reference.nearest = [⟨2, 7, 2, 7⟩] := Json.nearest_of_location? rfl rfl
  have hwrapped (content : Json) : (wrapped content).nearest = content.nearest := by
    have hparts : (wrapped content).parts = [content] := rfl
    rw [Json.nearest_of_unlocated rfl, hparts, List.flatMap_singleton]
  have hliteral : (tagged "Tensor" []).nearest = [] := Json.nearest_of_unlocated rfl
  have hspans : j.parts.flatMap Json.nearest = spans := by
    have hparts : j.parts = members := rfl
    simp [hparts, members, spans, hwrapped, hpath, hreference, hliteral]
  have hread : ∃ t, decode 4 j = .ok t ∧ t.span = ⟨2, 7, 4, 1⟩ := ⟨_, rfl, rfl⟩
  obtain ⟨t, ht, hspan⟩ := hread
  obtain ⟨-, hplaces⟩ := span_of_decode ht
  obtain ⟨-, -, hhull⟩ := hplaces j t .root
  exact ⟨hspans, t, ht, hspan, hspans ▸ hhull rfl⟩

end Token

end ArrayExpr
