import ArrayExpr.Proofs.Grammar

/-!
The defects of plain data in the place of a token tree. `Token.defects` lists them in the order in
which the data is read, each mapping before its parts: the tag, the ends of the location, the type, and
then field by field what is wrong with the field or with the parts that it holds. The list is complete
(`mem_defects_iff`): it holds the flaws of all that stands in the place of a token, and no others.
-/

namespace ArrayExpr

/-- Whether plain data is a double without bound. -/
def Json.isInfinite : Json → Bool
  | .float x =>
    match Decimal.Binary64.ofFloat x with
    | .infinite _ => true
    | _ => false
  | _ => false

namespace Token

/-- What can be wrong with plain data in the place of a token, its parts left aside. -/
inductive Flaw where
  /-- It is not a mapping that has a type. -/
  | untagged
  /-- Its location is not a mapping. -/
  | location
  /-- This end of its location is not a whole number. -/
  | locationEnd (key : String)
  /-- Its type is a list or a mapping. -/
  | type
  /-- It lacks this field of its kind. -/
  | missing (field : String)
  /-- This field has no members, where it should have some. -/
  | notIterable (field : String)
  deriving DecidableEq, Repr

/-- Plain data in the place of a token, and something that is wrong with it. -/
structure Defect where
  subject : Json
  flaw : Flaw

def locationEnds : List String :=
  ["startLine", "startColumn", "endLine", "endColumn"]

/-- What is wrong with the location of a mapping. -/
def locationFlaws (entries : List (String × Json)) : List Flaw :=
  match (Json.lookup? "location" entries).filter Json.isPresent with
  | none => []
  | some (.object ends) =>
    (locationEnds.filter fun key => (Json.lookup? key ends).any fun j => !j.toWhole.isOk).map
      .locationEnd
  | some _ => [.location]

def typeFlaws (type : Json) : List Flaw :=
  if type.isKey then [] else [.type]

def namesFlaws (name : String) (entries : List (String × Json)) : List Flaw :=
  if (Json.lookup? name entries).any fun j => !j.members.isOk then [.notIterable name] else []

def fieldsOf : Json → List Field
  | .str kind => (Field.ofKind? kind).getD []
  | _ => []

mutual

/-- All defects of plain data in the place of a token. A mapping comes before its parts, and what is
wrong with the mapping or its parts comes in the order in which they are read. -/
def defects : Json → List Defect
  | .object entries =>
    match Json.lookup? "type" entries with
    | none => [⟨.object entries, .untagged⟩]
    | some type =>
      (locationFlaws entries ++ typeFlaws type).map (Defect.mk (.object entries)) ++
        (fieldsOf type).flatMap fun
          | .part name => partDefects (.object entries) name entries
          | .parts name => partsDefects (.object entries) name entries
          | .names name => (namesFlaws name entries).map (Defect.mk (.object entries))
          | .data _ => []
  | j => [⟨j, .untagged⟩]

def partDefects (subject : Json) (name : String) : List (String × Json) → List Defect
  | [] => [⟨subject, .missing name⟩]
  | (key, j) :: rest => if key == name then defects j else partDefects subject name rest

def partsDefects (subject : Json) (name : String) : List (String × Json) → List Defect
  | [] => [⟨subject, .missing name⟩]
  | (key, j) :: rest =>
    if key == name then memberDefects subject name j else partsDefects subject name rest

def memberDefects (subject : Json) (name : String) : Json → List Defect
  | .list items => itemDefects items
  | .str s => s.toList.map fun c => ⟨.str (String.ofList [c]), .untagged⟩
  | .object entries => entries.map fun e => ⟨.str e.1, .untagged⟩
  | _ => [⟨subject, .notIterable name⟩]

def itemDefects : List Json → List Defect
  | [] => []
  | j :: js => defects j ++ itemDefects js

end

namespace Defect

def entry (d : Defect) (name : String) : Json :=
  (d.subject.field? name).getD .null

def hasInfiniteEnd (d : Defect) (key : String) : Bool :=
  ((d.entry "location").field? key).any Json.isInfinite

/-- The fault that a defect leads to, which names the type of the mapping that has the defect. -/
def fault (d : Defect) : Fault :=
  match d.flaw with
  | .untagged => .untagged d.subject.quoted
  | .location => .badLocation (d.entry "location").quoted (d.entry "type").shown
  | .locationEnd key =>
    if d.hasInfiniteEnd key then .infiniteNumber
    else .badLocation (d.entry "location").quoted (d.entry "type").shown
  | .type => .unhashable (d.entry "type").typeName
  | .missing field => .lacksField (d.entry "type").shown field
  | .notIterable field => .notIterable (d.entry field).typeName

end Defect

/-- Plain data that has a flaw. -/
inductive Flawed (j : Json) : Flaw → Prop where
  | untagged : j.field? "type" = none → Flawed j .untagged
  | location {type location : Json} : j.field? "type" = some type →
      j.field? "location" = some location → location.isPresent = true →
      (∀ ends, location ≠ .object ends) → Flawed j .location
  | locationEnd {type e : Json} {ends : List (String × Json)} {key : String} :
      j.field? "type" = some type → j.field? "location" = some (.object ends) →
      key ∈ locationEnds → Json.lookup? key ends = some e → ¬ e.Whole → Flawed j (.locationEnd key)
  | type {type : Json} : j.field? "type" = some type → type.isKey = false → Flawed j .type
  | missing {kind name : String} {fields : List Field} : j.field? "type" = some (.str kind) →
      Field.ofKind? kind = some fields → .part name ∈ fields ∨ .parts name ∈ fields →
      j.field? name = none → Flawed j (.missing name)
  | notIterable {kind name : String} {fields : List Field} {value : Json} :
      j.field? "type" = some (.str kind) → Field.ofKind? kind = some fields →
      .parts name ∈ fields ∨ .names name ∈ fields → j.field? name = some value →
      value.members.isOk = false → Flawed j (.notIterable name)

/-- Plain data that stands in the place of a token in other plain data. -/
inductive StandsIn (k : Json) : Json → Prop where
  | self : StandsIn k k
  | part {entries : List (String × Json)} {kind name : String} {fields : List Field} {j : Json} :
      Json.lookup? "type" entries = some (.str kind) → Field.ofKind? kind = some fields →
      .part name ∈ fields → Json.lookup? name entries = some j → StandsIn k j →
      StandsIn k (.object entries)
  | member {entries : List (String × Json)} {kind name : String} {fields : List Field}
      {value j : Json} {js : List Json} :
      Json.lookup? "type" entries = some (.str kind) → Field.ofKind? kind = some fields →
      .parts name ∈ fields → Json.lookup? name entries = some value → value.members = .ok js →
      j ∈ js → StandsIn k j → StandsIn k (.object entries)

/-- The defects of a field of a mapping. -/
def fieldDefects (entries : List (String × Json)) : Field → List Defect
  | .part name =>
    match Json.lookup? name entries with
    | some j => defects j
    | none => [⟨.object entries, .missing name⟩]
  | .parts name =>
    match Json.lookup? name entries with
    | some value =>
      match value.members with
      | .ok js => js.flatMap defects
      | .error _ => [⟨.object entries, .notIterable name⟩]
    | none => [⟨.object entries, .missing name⟩]
  | .names name => (namesFlaws name entries).map (Defect.mk (.object entries))
  | .data _ => []

theorem itemDefects_eq (items : List Json) : itemDefects items = items.flatMap defects := by
  induction items with
  | nil => rw [itemDefects]; rfl
  | cons j js ih => rw [itemDefects, ih, List.flatMap_cons]

theorem memberDefects_eq (subject value : Json) (name : String) :
    memberDefects subject name value =
      match value.members with
      | .ok js => js.flatMap defects
      | .error _ => [⟨subject, .notIterable name⟩] := by
  cases value with
  | list items => exact itemDefects_eq items
  | str s =>
      simp only [memberDefects, Json.members, List.flatMap_map, defects]
      exact List.map_eq_flatMap
  | object entries =>
      simp only [memberDefects, Json.members, List.flatMap_map, defects]
      exact List.map_eq_flatMap
  | null | bool | int | float => rfl

theorem partDefects_eq (subject : Json) (name : String) (entries : List (String × Json)) :
    partDefects subject name entries =
      match Json.lookup? name entries with
      | some j => defects j
      | none => [⟨subject, .missing name⟩] := by
  induction entries with
  | nil => rfl
  | cons first rest ih =>
      obtain ⟨key, j⟩ := first
      rw [partDefects, ih]
      by_cases h : (key == name) = true
      · simp [Json.lookup?, h]
      · simp [Json.lookup?, h]

theorem partsDefects_eq (subject : Json) (name : String) (entries : List (String × Json)) :
    partsDefects subject name entries =
      match Json.lookup? name entries with
      | some value => memberDefects subject name value
      | none => [⟨subject, .missing name⟩] := by
  induction entries with
  | nil => rfl
  | cons first rest ih =>
      obtain ⟨key, j⟩ := first
      rw [partsDefects, ih]
      by_cases h : (key == name) = true
      · simp [Json.lookup?, h]
      · simp [Json.lookup?, h]

/-- The defects of a mapping are its own flaws and then, field by field, those of its parts. -/
theorem defects_object {entries : List (String × Json)} {type : Json}
    (h : Json.lookup? "type" entries = some type) :
    defects (.object entries) =
      (locationFlaws entries ++ typeFlaws type).map (Defect.mk (.object entries)) ++
        (fieldsOf type).flatMap (fieldDefects entries) := by
  have hfields : (fun
      | .part name => partDefects (.object entries) name entries
      | .parts name => partsDefects (.object entries) name entries
      | .names name => (namesFlaws name entries).map (Defect.mk (.object entries))
      | .data _ => []) = fieldDefects entries := by
    funext f
    cases f with
    | part name => exact partDefects_eq _ name entries
    | parts name =>
        simp only [fieldDefects, partsDefects_eq, memberDefects_eq]
    | names | data => rfl
  rw [defects, h]
  simp only [hfields]

/-! ### The list of defects is complete -/

theorem isOk_toWhole_iff (j : Json) : j.toWhole.isOk = true ↔ j.Whole := by
  rw [← Json.toWhole_ok_iff]
  cases j.toWhole with
  | ok n => simp [Except.isOk, Except.toBool]
  | error fault => simp [Except.isOk, Except.toBool]

section Own

variable {entries : List (String × Json)} {type : Json}

theorem flawed_of_mem_locationFlaws (htype : Json.lookup? "type" entries = some type) {flaw : Flaw}
    (h : flaw ∈ locationFlaws entries) : Flawed (.object entries) flaw := by
  unfold locationFlaws at h
  cases hlocation : Json.lookup? "location" entries with
  | none =>
      rw [hlocation] at h
      cases h
  | some location =>
      by_cases hpresent : location.isPresent = true
      · simp only [hlocation, Option.filter_some, hpresent, if_true] at h
        cases location with
        | object ends =>
            obtain ⟨key, hkey, rfl⟩ := List.mem_map.mp h
            obtain ⟨hends, hbad⟩ := List.mem_filter.mp hkey
            obtain ⟨e, he, hwhole⟩ := (Option.any_eq_true _ _).mp hbad
            have hnone : ¬ e.Whole := by simpa [← isOk_toWhole_iff] using hwhole
            exact .locationEnd htype hlocation hends he hnone
        | null | bool | int | float | str | list =>
            cases List.mem_singleton.mp h
            exact .location htype hlocation hpresent nofun
      · simp only [hlocation, Option.filter_some, hpresent] at h
        cases h

theorem location_mem_locationFlaws {location : Json}
    (hlocation : Json.lookup? "location" entries = some location)
    (hpresent : location.isPresent = true) (hends : ∀ ends, location ≠ .object ends) :
    .location ∈ locationFlaws entries := by
  simp only [locationFlaws, hlocation, Option.filter_some, hpresent, if_true]
  cases location with
  | object ends => exact absurd rfl (hends ends)
  | null | bool | int | float | str | list => exact List.mem_singleton.mpr rfl

theorem locationEnd_mem_locationFlaws {ends : List (String × Json)} {key : String} {e : Json}
    (hlocation : Json.lookup? "location" entries = some (.object ends)) (hkey : key ∈ locationEnds)
    (he : Json.lookup? key ends = some e) (hwhole : ¬ e.Whole) :
    .locationEnd key ∈ locationFlaws entries := by
  have hpresent : (Json.object ends).isPresent = true := by
    cases ends with
    | nil => cases he
    | cons => rfl
  simp only [locationFlaws, hlocation, Option.filter_some, hpresent, if_true]
  apply List.mem_map_of_mem
  apply List.mem_filter.mpr
  simpa [hkey, he, ← isOk_toWhole_iff] using hwhole

theorem mem_typeFlaws_iff (flaw : Flaw) :
    flaw ∈ typeFlaws type ↔ flaw = .type ∧ type.isKey = false := by
  unfold typeFlaws
  cases type.isKey <;> simp

theorem mem_namesFlaws_iff (name : String) (flaw : Flaw) :
    flaw ∈ namesFlaws name entries ↔ flaw = .notIterable name ∧
      ∃ value, Json.lookup? name entries = some value ∧ value.members.isOk = false := by
  unfold namesFlaws
  cases Json.lookup? name entries with
  | none => simp
  | some value => cases h : value.members.isOk <;> simp [h]

theorem mem_fieldsOf_iff {f : Field} :
    f ∈ fieldsOf type ↔
      ∃ kind fields, type = .str kind ∧ Field.ofKind? kind = some fields ∧ f ∈ fields := by
  cases type with
  | str kind =>
      cases h : Field.ofKind? kind with
      | none => simp [fieldsOf, h]
      | some fields => simp [fieldsOf, h]
  | null | bool | int | float | list | object => simp [fieldsOf]

end Own

/-- A defect of data that stands in the place of a token in `j`. -/
def Defect.FoundIn (d : Defect) (j : Json) : Prop :=
  StandsIn d.subject j ∧ Flawed d.subject d.flaw

theorem foundIn_of_mem_fieldDefects {d : Defect} {entries : List (String × Json)} {kind : String}
    {fields : List Field} {f : Field} (htype : Json.lookup? "type" entries = some (.str kind))
    (hkind : Field.ofKind? kind = some fields) (hf : f ∈ fields)
    (hparts : ∀ j, j.height < (Json.object entries).height → d ∈ defects j → d.FoundIn j)
    (hd : d ∈ fieldDefects entries f) : d.FoundIn (.object entries) := by
  cases f with
  | part name =>
      rw [fieldDefects] at hd
      cases hname : Json.lookup? name entries with
      | none =>
          rw [hname] at hd
          cases List.mem_singleton.mp hd
          exact ⟨.self, .missing htype hkind (.inl hf) hname⟩
      | some part =>
          rw [hname] at hd
          obtain ⟨hstands, hflawed⟩ := hparts part (Json.height_lt_of_lookup? hname) hd
          exact ⟨.part htype hkind hf hname hstands, hflawed⟩
  | parts name =>
      rw [fieldDefects] at hd
      cases hname : Json.lookup? name entries with
      | none =>
          rw [hname] at hd
          cases List.mem_singleton.mp hd
          exact ⟨.self, .missing htype hkind (.inr hf) hname⟩
      | some value =>
          cases hmembers : value.members with
          | error fault =>
              simp only [hname, hmembers] at hd
              cases List.mem_singleton.mp hd
              exact ⟨.self, .notIterable htype hkind (.inl hf) hname (by rw [hmembers]; rfl)⟩
          | ok js =>
              simp only [hname, hmembers] at hd
              obtain ⟨k, hk, hd⟩ := List.mem_flatMap.mp hd
              have hvalue := Json.height_lt_of_lookup? hname
              have hmember := Json.height_le_of_mem_members hmembers hk
              obtain ⟨hstands, hflawed⟩ := hparts k (by omega) hd
              exact ⟨.member htype hkind hf hname hmembers hk hstands, hflawed⟩
  | names name =>
      obtain ⟨flaw, hflaw, rfl⟩ := List.mem_map.mp hd
      obtain ⟨rfl, value, hname, hmembers⟩ := (mem_namesFlaws_iff name flaw).mp hflaw
      exact ⟨.self, .notIterable htype hkind (.inr hf) hname hmembers⟩
  | data name => cases hd

theorem foundIn_of_mem_defects {d : Defect} {j : Json} (h : d ∈ defects j) : d.FoundIn j := by
  -- The parts of a mapping nest less deep than the mapping.
  induction hheight : j.height using Nat.strong_induction_on generalizing j with
  | _ height ih =>
    subst hheight
    cases j with
    | null | bool | int | float | str | list =>
        cases List.mem_singleton.mp h
        exact ⟨.self, .untagged rfl⟩
    | object entries =>
        cases htype : Json.lookup? "type" entries with
        | none =>
            rw [defects, htype] at h
            cases List.mem_singleton.mp h
            exact ⟨.self, .untagged htype⟩
        | some type =>
            rw [defects_object htype] at h
            rcases List.mem_append.mp h with hown | hfields
            · obtain ⟨flaw, hflaw, rfl⟩ := List.mem_map.mp hown
              rcases List.mem_append.mp hflaw with hflaw | hflaw
              · exact ⟨.self, flawed_of_mem_locationFlaws htype hflaw⟩
              · obtain ⟨rfl, hkey⟩ := (mem_typeFlaws_iff flaw).mp hflaw
                exact ⟨.self, .type htype hkey⟩
            · obtain ⟨f, hf, hd⟩ := List.mem_flatMap.mp hfields
              obtain ⟨kind, fields, rfl, hkind, hf⟩ := mem_fieldsOf_iff.mp hf
              exact foundIn_of_mem_fieldDefects htype hkind hf (fun k hk hd => ih _ hk hd rfl) hd

theorem mem_defects_of_mem_fieldDefects {d : Defect} {entries : List (String × Json)}
    {kind : String} {fields : List Field} {f : Field}
    (htype : Json.lookup? "type" entries = some (.str kind))
    (hkind : Field.ofKind? kind = some fields) (hf : f ∈ fields) (hd : d ∈ fieldDefects entries f) :
    d ∈ defects (.object entries) := by
  rw [defects_object htype]
  have hfields : f ∈ fieldsOf (.str kind) := mem_fieldsOf_iff.mpr ⟨kind, fields, rfl, hkind, hf⟩
  exact List.mem_append_right _ (List.mem_flatMap.mpr ⟨f, hfields, hd⟩)

theorem mem_defects_of_mem_flaws {entries : List (String × Json)} {type : Json} {flaw : Flaw}
    (htype : Json.lookup? "type" entries = some type)
    (hflaw : flaw ∈ locationFlaws entries ++ typeFlaws type) :
    ⟨.object entries, flaw⟩ ∈ defects (.object entries) := by
  rw [defects_object htype]
  exact List.mem_append_left _ (List.mem_map_of_mem hflaw)

/-- Plain data with a type is a mapping. -/
theorem exists_entries_of_field? {j value : Json} {name : String} (h : j.field? name = some value) :
    ∃ entries, j = .object entries := by
  cases j with
  | object entries => exact ⟨entries, rfl⟩
  | null | bool | int | float | str | list => cases h

theorem mem_defects_of_flawed {j : Json} {flaw : Flaw} (h : Flawed j flaw) :
    ⟨j, flaw⟩ ∈ defects j := by
  cases h with
  | untagged htype =>
      cases j with
      | object entries =>
          have hnone : Json.lookup? "type" entries = none := htype
          rw [defects, hnone]
          exact List.mem_singleton.mpr rfl
      | null | bool | int | float | str | list => exact List.mem_singleton.mpr rfl
  | location htype hlocation hpresent hends =>
      obtain ⟨entries, rfl⟩ := exists_entries_of_field? htype
      apply mem_defects_of_mem_flaws htype
      exact List.mem_append_left _ (location_mem_locationFlaws hlocation hpresent hends)
  | locationEnd htype hlocation hkey he hwhole =>
      obtain ⟨entries, rfl⟩ := exists_entries_of_field? htype
      apply mem_defects_of_mem_flaws htype
      exact List.mem_append_left _ (locationEnd_mem_locationFlaws hlocation hkey he hwhole)
  | type htype hkey =>
      obtain ⟨entries, rfl⟩ := exists_entries_of_field? htype
      apply mem_defects_of_mem_flaws htype
      exact List.mem_append_right _ ((mem_typeFlaws_iff _).mpr ⟨rfl, hkey⟩)
  | @missing kind name fields htype hkind hf hname =>
      obtain ⟨entries, rfl⟩ := exists_entries_of_field? htype
      have hnone : Json.lookup? name entries = none := hname
      rcases hf with hf | hf
      · apply mem_defects_of_mem_fieldDefects htype hkind hf
        simp [fieldDefects, hnone]
      · apply mem_defects_of_mem_fieldDefects htype hkind hf
        simp [fieldDefects, hnone]
  | @notIterable kind name fields value htype hkind hf hname hmembers =>
      obtain ⟨entries, rfl⟩ := exists_entries_of_field? htype
      have hsome : Json.lookup? name entries = some value := hname
      rcases hf with hf | hf
      · apply mem_defects_of_mem_fieldDefects htype hkind hf
        cases h : value.members with
        | ok js =>
            rw [h] at hmembers
            cases hmembers
        | error fault => simp [fieldDefects, hsome, h]
      · apply mem_defects_of_mem_fieldDefects htype hkind hf
        exact List.mem_map_of_mem ((mem_namesFlaws_iff name _).mpr ⟨rfl, value, hsome, hmembers⟩)

/-- The list holds exactly the defects of data that stands in the place of a token. -/
theorem mem_defects_iff (d : Defect) (j : Json) : d ∈ defects j ↔ d.FoundIn j := by
  constructor
  · exact foundIn_of_mem_defects
  · rintro ⟨hstands, hflawed⟩
    induction hstands with
    | self => exact mem_defects_of_flawed hflawed
    | part htype hkind hf hname _ ih =>
        apply mem_defects_of_mem_fieldDefects htype hkind hf
        simpa [fieldDefects, hname] using ih
    | @member entries kind name fields value j js htype hkind hf hname hmembers hj _ ih =>
        apply mem_defects_of_mem_fieldDefects htype hkind hf
        simp only [fieldDefects, hname, hmembers]
        exact List.mem_flatMap.mpr ⟨j, hj, ih⟩

end Token

end ArrayExpr
