import ArrayExpr.Proofs.Causes
import ArrayExpr.Proofs.Numerals
import ArrayExpr.Proofs.Scope
import ArrayExpr.Token.Decode

/-!
The grammar of tagged mappings. Every kind of token has its fields; a field holds a token, several
tokens, names, or plain data that is kept as it is. `Json.WellFormed` says which plain data is a token
tree, and reading a token tree accepts exactly that, unless it meets a limit
(`decode_ok_iff_wellFormed`). It meets none on data that nests less deep and whose whole numbers have few
enough digits.
-/

namespace ArrayExpr

/-! ### The grammar -/

/-- A field of a token, by what it holds. -/
inductive Field where
  | part (name : String)
  | parts (name : String)
  | names (name : String)
  | data (name : String)

/-- The fields of the tokens of a kind, in the order in which they are read. -/
def Field.ofKind? : String → Option (List Field)
  | "Program" => some [.parts "value"]
  | "Assignment" => some [.part "path", .part "value"]
  | "Reference" => some [.part "value"]
  | "Path" => some [.names "value"]
  | "Function" => some [.data "argument", .part "value"]
  | "FunctionApplication" => some [.data "functionName", .part "argument"]
  | "FunctionComposition" => some [.names "list"]
  | "BinaryOperation" => some [.data "operator", .part "left", .part "right"]
  | "UnaryOperation" => some [.data "operator", .part "value"]
  | "ImplicitConversion" => some [.part "value"]
  | "Tensor" => some [.data "value"]
  | "Object" => some [.part "value"]
  | _ => none

/-- A mapping whose location, if it is there and does not count as absent, is a mapping in which the
ends of the span are whole numbers as far as they are given. -/
def Json.WellLocated (entries : List (String × Json)) : Prop :=
  ∀ location, lookup? "location" entries = some location → location.isPresent = true →
    ∃ ends, location = .object ends ∧
      ∀ key ∈ ["startLine", "startColumn", "endLine", "endColumn"], ∀ j,
        lookup? key ends = some j → j.Whole

mutual

/-- Plain data that is a token tree. A mapping of a kind that is not known may hold whatever it likes
beside its type and its location. -/
inductive Json.WellFormed : Json → Prop where
  | known {entries : List (String × Json)} {kind : String} {fields : List Field} :
      Json.lookup? "type" entries = some (.str kind) → Json.WellLocated entries →
      Field.ofKind? kind = some fields → (∀ f ∈ fields, f.Filled entries) →
      Json.WellFormed (.object entries)
  | unknown {entries : List (String × Json)} {type : Json} :
      Json.lookup? "type" entries = some type → Json.WellLocated entries → type.isKey = true →
      (∀ kind, type = .str kind → Field.ofKind? kind = none) → Json.WellFormed (.object entries)

/-- A field of a mapping that is filled as it should be. In the place of several tokens an empty text
or mapping counts as none. Names may be missing, and may be the items of a list, the characters of a
text or the keys of a mapping. -/
inductive Field.Filled : Field → List (String × Json) → Prop where
  | part {entries : List (String × Json)} {name : String} {j : Json} :
      Json.lookup? name entries = some j → Json.WellFormed j → Field.Filled (.part name) entries
  | parts {entries : List (String × Json)} {name : String} {items : List Json} :
      Json.lookup? name entries = some (.list items) → (∀ j ∈ items, Json.WellFormed j) →
      Field.Filled (.parts name) entries
  | noText {entries : List (String × Json)} {name : String} :
      Json.lookup? name entries = some (.str "") → Field.Filled (.parts name) entries
  | noEntries {entries : List (String × Json)} {name : String} :
      Json.lookup? name entries = some (.object []) → Field.Filled (.parts name) entries
  | noNames {entries : List (String × Json)} {name : String} :
      Json.lookup? name entries = none → Field.Filled (.names name) entries
  | items {entries : List (String × Json)} {name : String} {items : List Json} :
      Json.lookup? name entries = some (.list items) → Field.Filled (.names name) entries
  | characters {entries : List (String × Json)} {name s : String} :
      Json.lookup? name entries = some (.str s) → Field.Filled (.names name) entries
  | keys {entries : List (String × Json)} {name : String} {es : List (String × Json)} :
      Json.lookup? name entries = some (.object es) → Field.Filled (.names name) entries
  | data {entries : List (String × Json)} (name : String) : Field.Filled (.data name) entries

end

mutual

def Json.height : Json → Nat
  | .list items => itemsHeight items + 1
  | .object entries => entriesHeight entries + 1
  | _ => 1

def Json.itemsHeight : List Json → Nat
  | [] => 0
  | j :: js => max j.height (itemsHeight js)

def Json.entriesHeight : List (String × Json) → Nat
  | [] => 0
  | (_, j) :: rest => max j.height (entriesHeight rest)

end

namespace Json

theorem height_pos (j : Json) : 0 < j.height := by
  cases j <;> simp [height]

theorem height_le_itemsHeight {j : Json} {items : List Json} (h : j ∈ items) :
    j.height ≤ itemsHeight items := by
  induction items with
  | nil => cases h
  | cons first rest ih =>
      rw [itemsHeight]
      rcases List.mem_cons.mp h with rfl | h
      · exact Nat.le_max_left _ _
      · exact Nat.le_trans (ih h) (Nat.le_max_right _ _)

theorem height_lt_of_lookup? {name : String} {entries : List (String × Json)} {j : Json}
    (h : lookup? name entries = some j) : j.height < (Json.object entries).height := by
  rw [height]
  refine Nat.lt_succ_of_le ?_
  obtain ⟨e, he, rfl⟩ := Option.map_eq_some_iff.mp h
  have hmem := List.mem_of_find?_eq_some he
  clear h he
  induction entries with
  | nil => cases hmem
  | cons first rest ih =>
      rw [entriesHeight]
      rcases List.mem_cons.mp hmem with rfl | hmem
      · exact Nat.le_max_left _ _
      · exact Nat.le_trans (ih hmem) (Nat.le_max_right _ _)

/-- Members nest no deeper than what they are members of. -/
theorem height_le_of_mem_members {j member : Json} {js : List Json} (hmembers : j.members = .ok js)
    (h : member ∈ js) : member.height ≤ j.height := by
  cases j with
  | list items =>
      cases hmembers
      exact Nat.le_succ_of_le (height_le_itemsHeight h)
  | str s =>
      cases hmembers
      obtain ⟨c, -, rfl⟩ := List.mem_map.mp h
      exact height_pos _
  | object entries =>
      cases hmembers
      obtain ⟨e, -, rfl⟩ := List.mem_map.mp h
      exact height_pos _
  | null | bool | int | float => cases hmembers

end Json

/-! ### Limits -/

mutual

/-- Whether a whole number in plain data has too many digits to be written. -/
def Json.hasLongNumeral : Json → Bool
  | .int n => (numeralObstacle? n).isSome
  | .list items => anyLongNumeral items
  | .object entries => anyLongEntry entries
  | _ => false

def Json.anyLongNumeral : List Json → Bool
  | [] => false
  | j :: js => j.hasLongNumeral || anyLongNumeral js

def Json.anyLongEntry : List (String × Json) → Bool
  | [] => false
  | (_, j) :: rest => j.hasLongNumeral || anyLongEntry rest

end

def Fault.isLimit (fault : Fault) : Bool :=
  fault.isTooDeep || fault.isUnwritable

/-- The limits that reading plain data to a depth may meet: the tree nests deeper, a text in it nests as
deep, or a number in it is too long. -/
inductive Json.Exceeds (j : Json) (depth : Nat) : Fault → Prop where
  | tree : depth < j.height → Exceeds j depth .tooDeep
  | text : depth ≤ j.height → Exceeds j depth .deepText
  | numeral : j.hasLongNumeral = true → Exceeds j depth .longNumeral

namespace Json

theorem Exceeds.isLimit {j : Json} {depth : Nat} {fault : Fault} (h : j.Exceeds depth fault) :
    fault.isLimit = true := by
  cases h <;> rfl

theorem anyLongNumeral_of_mem {j : Json} {items : List Json} (h : j ∈ items)
    (hj : j.hasLongNumeral = true) : anyLongNumeral items = true := by
  induction items with
  | nil => cases h
  | cons first rest ih =>
      rw [anyLongNumeral, Bool.or_eq_true]
      rcases List.mem_cons.mp h with rfl | h
      · exact .inl hj
      · exact .inr (ih h)

theorem anyLongEntry_of_mem {e : String × Json} {entries : List (String × Json)} (h : e ∈ entries)
    (he : e.2.hasLongNumeral = true) : anyLongEntry entries = true := by
  induction entries with
  | nil => cases h
  | cons first rest ih =>
      rw [anyLongEntry, Bool.or_eq_true]
      rcases List.mem_cons.mp h with rfl | h
      · exact .inl he
      · exact .inr (ih h)

/-- Plain data that nests no deeper than other plain data and has a number that is too long only if the
other has one. -/
structure Within (part j : Json) : Prop where
  height : part.height ≤ j.height
  numerals : part.hasLongNumeral = true → j.hasLongNumeral = true

theorem Within.trans {a b c : Json} (h : a.Within b) (h' : b.Within c) : a.Within c :=
  ⟨Nat.le_trans h.height h'.height, fun ha => h'.numerals (h.numerals ha)⟩

theorem within_of_lookup? {name : String} {entries : List (String × Json)} {j : Json}
    (h : lookup? name entries = some j) : j.Within (.object entries) := by
  refine ⟨Nat.le_of_lt (height_lt_of_lookup? h), fun hj => ?_⟩
  obtain ⟨e, he, rfl⟩ := Option.map_eq_some_iff.mp h
  exact anyLongEntry_of_mem (List.mem_of_find?_eq_some he) hj

theorem within_of_mem_members {j member : Json} {js : List Json} (hmembers : j.members = .ok js)
    (h : member ∈ js) : member.Within j := by
  refine ⟨height_le_of_mem_members hmembers h, fun hlong => ?_⟩
  cases j with
  | list items =>
      cases hmembers
      exact anyLongNumeral_of_mem h hlong
  | str s =>
      cases hmembers
      obtain ⟨c, -, rfl⟩ := List.mem_map.mp h
      cases hlong
  | object entries =>
      cases hmembers
      obtain ⟨e, -, rfl⟩ := List.mem_map.mp h
      cases hlong
  | null | bool | int | float => cases hmembers

/-- What a text with little room exceeds: it nests deeper than there is room, or a number in it is too
long. -/
inductive Overflows (j : Json) (room : Nat) : Fault → Prop where
  | deep : room < j.height → Overflows j room .deepText
  | long : j.hasLongNumeral = true → Overflows j room .longNumeral

mutual

theorem overflows_of_obstacle? {room : Nat} (j : Json) {fault : Fault}
    (h : j.obstacle? room = some fault) : j.Overflows room fault := by
  match j with
  | .null | .bool _ | .float _ | .str _ => cases h
  | .int n =>
      have hlong : (Json.int n).hasLongNumeral = true := Option.isSome_of_eq_some h
      cases numeralObstacle?_eq_some h
      exact .long hlong
  | .list items =>
      cases room with
      | zero =>
          cases h
          exact .deep (height_pos _)
      | succ room =>
          obtain ⟨rfl, hdeep⟩ | ⟨rfl, hlong⟩ := overflow_of_obstacleOfItems? items h
          · exact .deep (Nat.succ_lt_succ hdeep)
          · exact .long hlong
  | .object entries =>
      cases room with
      | zero =>
          cases h
          exact .deep (height_pos _)
      | succ room =>
          obtain ⟨rfl, hdeep⟩ | ⟨rfl, hlong⟩ := overflow_of_obstacleOfEntries? entries h
          · exact .deep (Nat.succ_lt_succ hdeep)
          · exact .long hlong

theorem overflow_of_obstacleOfItems? {room : Nat} (items : List Json) {fault : Fault}
    (h : obstacleOfItems? room items = some fault) :
    fault = .deepText ∧ room < itemsHeight items ∨
      fault = .longNumeral ∧ anyLongNumeral items = true := by
  match items with
  | [] => cases h
  | j :: js =>
      rw [itemsHeight, anyLongNumeral, Bool.or_eq_true]
      rcases Option.or_eq_some_iff.mp h with hj | ⟨-, hjs⟩
      · cases overflows_of_obstacle? j hj with
        | deep hdeep => exact .inl ⟨rfl, Nat.lt_of_lt_of_le hdeep (Nat.le_max_left _ _)⟩
        | long hlong => exact .inr ⟨rfl, .inl hlong⟩
      · obtain ⟨hfault, hdeep⟩ | ⟨hfault, hlong⟩ := overflow_of_obstacleOfItems? js hjs
        · exact .inl ⟨hfault, Nat.lt_of_lt_of_le hdeep (Nat.le_max_right _ _)⟩
        · exact .inr ⟨hfault, .inr hlong⟩

theorem overflow_of_obstacleOfEntries? {room : Nat} (entries : List (String × Json)) {fault : Fault}
    (h : obstacleOfEntries? room entries = some fault) :
    fault = .deepText ∧ room < entriesHeight entries ∨
      fault = .longNumeral ∧ anyLongEntry entries = true := by
  match entries with
  | [] => cases h
  | (_, j) :: rest =>
      rw [entriesHeight, anyLongEntry, Bool.or_eq_true]
      rcases Option.or_eq_some_iff.mp h with hj | ⟨-, hrest⟩
      · cases overflows_of_obstacle? j hj with
        | deep hdeep => exact .inl ⟨rfl, Nat.lt_of_lt_of_le hdeep (Nat.le_max_left _ _)⟩
        | long hlong => exact .inr ⟨rfl, .inl hlong⟩
      · obtain ⟨hfault, hdeep⟩ | ⟨hfault, hlong⟩ := overflow_of_obstacleOfEntries? rest hrest
        · exact .inl ⟨hfault, Nat.lt_of_lt_of_le hdeep (Nat.le_max_right _ _)⟩
        · exact .inr ⟨hfault, .inr hlong⟩

end

/-- Whatever there is no room for below a tree is too much for the tree. -/
theorem Overflows.exceeds {part j : Json} {depth : Nat} {fault : Fault}
    (h : part.Overflows (writingRoom depth) fault) (hpart : part.Within j) :
    j.Exceeds (depth + 1) fault := by
  cases h with
  | deep hdeep =>
      have hheight := hpart.height
      simp only [writingRoom] at hdeep
      exact .text (by omega)
  | long hlong => exact .numeral (hpart.numerals hlong)

/-- A part of a mapping exceeds no limit that the mapping does not. -/
theorem Exceeds.of_part {part value : Json} {name : String} {entries : List (String × Json)}
    {depth : Nat} {fault : Fault} (h : part.Exceeds depth fault)
    (hfound : lookup? name entries = some value)
    (hpart : part = value ∨ ∃ js, value.members = .ok js ∧ part ∈ js) :
    (Json.object entries).Exceeds (depth + 1) fault := by
  have hwithin : part.Within value := by
    rcases hpart with rfl | ⟨js, hmembers, hpart⟩
    · exact ⟨Nat.le_refl _, id⟩
    · exact within_of_mem_members hmembers hpart
  have hheight := hwithin.height
  have hvalue := height_lt_of_lookup? hfound
  cases h with
  | tree hdeep => exact .tree (by omega)
  | text hdeep => exact .text (by omega)
  | numeral hlong => exact .numeral ((hwithin.trans (within_of_lookup? hfound)).numerals hlong)

end Json

/-! ### Verdicts -/

/-- What the end of a reading says about what is read: a result, that it is good; a limit, that it
exceeds the limit; and every other fault, that it is not good. -/
inductive Judged {α : Type} (limit : Fault → Prop) (good : Prop) : Except Fault α → Prop where
  | ok {a : α} : good → Judged limit good (.ok a)
  | limited {fault : Fault} : limit fault → Judged limit good (.error fault)
  | refused {fault : Fault} : fault.isLimit = false → ¬ good → Judged limit good (.error fault)

namespace Judged

variable {α β : Type} {limit limit' : Fault → Prop} {good good' : Prop} {x : Except Fault α}

theorem imp (h : Judged limit good x) (hlimit : ∀ fault, limit fault → limit' fault)
    (hgood : good ↔ good') : Judged limit' good' x := by
  cases h with
  | ok h => exact .ok (hgood.mp h)
  | limited h => exact .limited (hlimit _ h)
  | refused hfault h => exact .refused hfault (mt hgood.mpr h)

theorem iff (h : Judged limit good x) (hgood : good ↔ good') : Judged limit good' x :=
  h.imp (fun _ h => h) hgood

/-- The first fault decides. -/
theorem bind {f : α → Except Fault β} (hx : Judged limit good x)
    (hf : ∀ a, x = .ok a → Judged limit good' (f a)) : Judged limit (good ∧ good') (x >>= f) := by
  cases hx with
  | @ok a h => exact (hf a rfl).iff (by simp [h])
  | limited h => exact .limited h
  | refused hfault h => exact .refused hfault fun hboth => h hboth.1

/-- What comes after the last fault that there may be does not count. -/
theorem andThen {f : α → Except Fault β} (hx : Judged limit good x)
    (hf : ∀ a, x = .ok a → Judged limit True (f a)) : Judged limit good (x >>= f) :=
  (hx.bind hf).iff (and_iff_left trivial)

theorem mapM {f : Json → Except Fault α} {P : Json → Prop} {js : List Json}
    (h : ∀ j ∈ js, Judged limit (P j) (f j)) : Judged limit (∀ j ∈ js, P j) (js.mapM f) := by
  induction js with
  | nil => exact .ok nofun
  | cons j js ih =>
      obtain ⟨hj, hjs⟩ := List.forall_mem_cons.mp h
      rw [List.mapM_cons]
      refine (bind hj fun a _ => andThen (ih hjs) fun as _ => .ok trivial).iff ?_
      exact List.forall_mem_cons.symm

theorem forM {f : Field → Except Fault Unit} {P : Field → Prop} {fields : List Field}
    (h : ∀ field ∈ fields, Judged limit (P field) (f field)) :
    Judged limit (∀ field ∈ fields, P field) (fields.forM f) := by
  induction fields with
  | nil => exact .ok nofun
  | cons field fields ih =>
      obtain ⟨hfield, hfields⟩ := List.forall_mem_cons.mp h
      exact (bind hfield fun _ _ => ih hfields).iff List.forall_mem_cons.symm

/-- What is done with the result does not count. -/
theorem of_andThen (h : Judged limit good (do let _ ← x)) : Judged limit good x := by
  cases x with
  | ok a =>
      cases h with
      | ok h => exact .ok h
  | error fault =>
      cases h with
      | limited h => exact .limited h
      | refused hfault h => exact .refused hfault h

theorem ok_iff (h : Judged limit good x) (hlimit : ∀ fault, x = .error fault → ¬ limit fault) :
    (∃ a, x = .ok a) ↔ good := by
  cases h with
  | ok h => exact ⟨fun _ => h, fun _ => ⟨_, rfl⟩⟩
  | limited h => exact absurd h (hlimit _ rfl)
  | refused _ h => exact ⟨nofun, fun hgood => absurd hgood h⟩

theorem limit_of_isLimit (h : Judged limit good x) {fault : Fault} (hx : x = .error fault)
    (hfault : fault.isLimit = true) : limit fault := by
  cases h with
  | ok => cases hx
  | limited h =>
      cases hx
      exact h
  | refused hother _ =>
      cases hx
      rw [hother] at hfault
      cases hfault

end Judged

/-! ### Locations -/

theorem exists_bind_eq_ok {α β : Type} {x : Except Fault α} {f : α → Except Fault β} :
    (∃ b, x >>= f = .ok b) ↔ ∃ a, x = .ok a ∧ ∃ b, f a = .ok b := by
  constructor
  · rintro ⟨b, h⟩
    obtain ⟨a, ha, hb⟩ := exists_of_bind_eq_ok h
    exact ⟨a, ha, b, hb⟩
  · rintro ⟨a, rfl, b, hb⟩
    exact ⟨b, hb⟩

/-- Whether an entry can be read does not depend on what would stand in for it. -/
theorem Json.wholeField_ok_iff (key : String) (entries : List (String × Json)) (default : Int) :
    (∃ n, wholeField key entries default = .ok n) ↔ ∀ j, lookup? key entries = some j → j.Whole := by
  unfold wholeField
  cases lookup? key entries with
  | none => exact ⟨fun _ => nofun, fun _ => ⟨default, rfl⟩⟩
  | some j => simp only [toWhole_ok_iff, Option.some.injEq, forall_eq']

theorem Span.ofJson_ok_iff (ends : List (String × Json)) :
    (∃ span, Span.ofJson (.object ends) = .ok span) ↔
      ∀ key ∈ ["startLine", "startColumn", "endLine", "endColumn"], ∀ j,
        Json.lookup? key ends = some j → j.Whole := by
  have hlast : ∀ span : Span, ∃ s, (pure span : Except Fault Span) = .ok s := fun span => ⟨span, rfl⟩
  simp only [Span.ofJson, exists_bind_eq_ok, hlast, and_true, Json.wholeField_ok_iff,
    exists_and_right, List.forall_mem_cons, List.not_mem_nil, false_imp_iff, implies_true]

theorem Json.wellLocated_of_absent {entries : List (String × Json)}
    (h : (lookup? "location" entries).all fun location => !location.isPresent) :
    WellLocated entries := by
  intro location hlocation hpresent
  simp [hlocation, hpresent] at h

theorem Json.wellLocated_iff {entries : List (String × Json)} {location : Json}
    (hlocation : lookup? "location" entries = some location) (hpresent : location.isPresent = true) :
    WellLocated entries ↔ ∃ span, Span.ofJson location = .ok span := by
  simp only [WellLocated, hlocation, Option.some.injEq, forall_eq', forall_prop_of_true hpresent]
  cases location with
  | object ends => simp [Span.ofJson_ok_iff]
  | _ => exact ⟨nofun, nofun⟩

namespace Token

section Fields

variable {sub : Json → Except Fault Token} {limit : Fault → Prop} {room : Nat}
  {entries : List (String × Json)}

def Limits (limit : Fault → Prop) (room : Nat) (entries : List (String × Json)) : Prop :=
  ∀ part : Json, part.Within (.object entries) → ∀ fault, part.Overflows room fault → limit fault

theorem Limits.text_judged (hlimit : Limits limit room entries) {part : Json}
    (hpart : part.Within (.object entries)) (text : String) :
    Judged limit True (written text (part.obstacle? room)) := by
  cases h : part.obstacle? room with
  | none => exact .ok trivial
  | some fault => exact .limited (hlimit part hpart fault (Json.overflows_of_obstacle? part h))

theorem spanOf?_judged (hlimit : Limits limit room entries) {type : Json}
    (htype : type.Within (.object entries)) :
    Judged limit (Json.WellLocated entries) (spanOf? room entries type) := by
  unfold spanOf?
  cases hlocation : Json.lookup? "location" entries with
  | none => exact .ok (Json.wellLocated_of_absent (by simp [hlocation]))
  | some location =>
      dsimp only
      split
      · rename_i hpresent
        rw [Json.wellLocated_iff hlocation hpresent]
        split
        · rename_i span hspan
          exact .ok ⟨span, hspan⟩
        · rename_i hspan
          exact .refused rfl (by simp [hspan])
        · rename_i fault _ hspan
          have hbad : ¬ ∃ span, Span.ofJson location = .ok span := by simp [hspan]
          refine ((hlimit.text_judged (Json.within_of_lookup? hlocation) _).bind fun shown _ => ?_).iff
            (and_iff_right trivial)
          refine ((hlimit.text_judged htype _).bind fun shownType _ => ?_).iff (and_iff_right trivial)
          exact .refused rfl hbad
      · rename_i habsent
        exact .ok (Json.wellLocated_of_absent (by simp [hlocation, habsent]))

/-- The span that can be read is that of the location, if there is one. Nothing is written then. -/
theorem spanOf?_eq_ok_iff {type : Json} {span? : Option Span} :
    spanOf? room entries type = .ok span? ↔
      match (Json.lookup? "location" entries).filter Json.isPresent with
      | some location => ∃ span, Span.ofJson location = .ok span ∧ span? = some span
      | none => span? = none := by
  unfold spanOf?
  cases hlocation : Json.lookup? "location" entries with
  | none => simp [eq_comm]
  | some location =>
      by_cases hpresent : location.isPresent = true
      · simp only [hpresent, if_true, Option.filter_some]
        cases hspan : Span.ofJson location with
        | ok span => simp [eq_comm]
        | error fault =>
            have hbad : ∀ x : Except Fault String, ∀ y : Except Fault String,
                (do
                  let location ← x
                  let type ← y
                  .error (.badLocation location type)) ≠ Except.ok span? := by
              intro x y h
              obtain ⟨_, -, h⟩ := exists_of_bind_eq_ok h
              obtain ⟨_, -, h⟩ := exists_of_bind_eq_ok h
              cases h
            split
            · rename_i heq
              cases heq
            · simp
            · simp [hbad]
      · simp only [hpresent, Option.filter_some]
        simp [eq_comm]

theorem exists_spanOf?_eq_ok (h : Json.WellLocated entries) (room : Nat) (type : Json) :
    ∃ span?, spanOf? room entries type = .ok span? := by
  simp only [spanOf?_eq_ok_iff]
  cases hlocation : Json.lookup? "location" entries with
  | none => exact ⟨none, rfl⟩
  | some location =>
      by_cases hpresent : location.isPresent = true
      · obtain ⟨span, hspan⟩ := (Json.wellLocated_iff hlocation hpresent).mp h
        rw [Option.filter_some_pos hpresent]
        exact ⟨some span, span, hspan, rfl⟩
      · rw [Option.filter_some_neg (Bool.eq_false_iff.mpr hpresent)]
        exact ⟨none, rfl⟩

/-! ### Fields -/

/-- Whatever may be read as a token from the fields of a mapping is judged. -/
def Judges (sub : Json → Except Fault Token) (limit : Fault → Prop)
    (entries : List (String × Json)) : Prop :=
  ∀ name value j, Json.lookup? name entries = some value →
    (j = value ∨ ∃ js, value.members = .ok js ∧ j ∈ js) → Judged limit j.WellFormed (sub j)

theorem part_judged (hsub : Judges sub limit entries) (kind name : String) :
    Judged limit ((Field.part name).Filled entries) (do sub (← needed kind name entries)) := by
  unfold needed
  cases h : Json.lookup? name entries with
  | none =>
      refine .refused rfl ?_
      rintro ⟨hfound, -⟩
      rw [h] at hfound
      cases hfound
  | some j =>
      refine (hsub name j j h (.inl rfl)).iff ⟨.part h, ?_⟩
      rintro ⟨hfound, hj⟩
      rw [h] at hfound
      cases hfound
      exact hj

/-- Characters and keys are no tokens, so that only an empty text and an empty mapping will do in the
place of several tokens. -/
theorem filled_parts_iff {name : String} {value : Json}
    (h : Json.lookup? name entries = some value) :
    (Field.parts name).Filled entries ↔
      ∃ js, value.members = .ok js ∧ ∀ j ∈ js, j.WellFormed := by
  have hstr : ∀ s, ¬ (Json.str s).WellFormed := nofun
  constructor
  · rintro (_ | ⟨hfound, hitems⟩ | hfound | hfound)
    all_goals rw [h] at hfound; cases hfound
    · exact ⟨_, rfl, hitems⟩
    · exact ⟨[], rfl, nofun⟩
    · exact ⟨[], rfl, nofun⟩
  · rintro ⟨js, hmembers, hjs⟩
    cases value with
    | list items =>
        cases hmembers
        exact .parts h hjs
    | str s =>
        cases hmembers
        cases hs : s.toList with
        | nil => exact .noText (h.trans (by rw [String.toList_eq_nil_iff.mp hs]))
        | cons c cs =>
            rw [hs] at hjs
            exact absurd (hjs _ List.mem_cons_self) (hstr _)
    | object es =>
        cases hmembers
        cases es with
        | nil => exact .noEntries h
        | cons e es => exact absurd (hjs _ List.mem_cons_self) (hstr _)
    | null | bool | int | float => cases hmembers

theorem parts_judged (hsub : Judges sub limit entries) (kind name : String) :
    Judged limit ((Field.parts name).Filled entries)
      (do (← (← needed kind name entries).members).mapM sub) := by
  unfold needed
  cases h : Json.lookup? name entries with
  | none =>
      refine .refused rfl ?_
      rintro (_ | ⟨hfound, -⟩ | hfound | hfound)
      all_goals rw [h] at hfound; cases hfound
  | some value =>
      rw [filled_parts_iff h]
      show Judged limit _ (value.members >>= (List.mapM sub ·))
      cases hmembers : value.members with
      | ok js =>
          have hjs := Judged.mapM fun j hj => hsub name value j h (.inr ⟨js, hmembers, hj⟩)
          exact hjs.iff (by simp)
      | error fault =>
          have hfault : fault.isLimit = false := by
            cases value <;> cases hmembers <;> rfl
          exact .refused hfault (by simp)

theorem names_judged (hlimit : Limits limit room entries) (name : String) :
    Judged limit ((Field.names name).Filled entries) (namesOf room name entries) := by
  unfold namesOf
  cases h : Json.lookup? name entries with
  | none => exact .ok (.noNames h)
  | some value =>
      have hnames : ∀ {js : List Json}, value.members = .ok js →
          Judged limit True (js.mapM (Json.shownWithin room)) := by
        intro js hmembers
        refine (Judged.mapM (P := fun _ => True) fun j hj => ?_).iff (by simp)
        exact hlimit.text_judged ((Json.within_of_mem_members hmembers hj).trans
          (Json.within_of_lookup? h)) _
      cases value with
      | list => exact (hnames rfl).iff (iff_of_true trivial (.items h))
      | str => exact (hnames rfl).iff (iff_of_true trivial (.characters h))
      | object => exact (hnames rfl).iff (iff_of_true trivial (.keys h))
      | null | bool | int | float =>
          refine .refused rfl ?_
          rintro (_ | _ | _ | _ | hfound | hfound | hfound | hfound)
          all_goals rw [h] at hfound; cases hfound

/-- Reads a field and forgets what it holds. -/
def readField (room : Nat) (sub : Json → Except Fault Token) (kind : String)
    (entries : List (String × Json)) : Field → Except Fault Unit
  | .part name => do let _ ← sub (← needed kind name entries)
  | .parts name => do let _ ← (← (← needed kind name entries).members).mapM sub
  | .names name => do let _ ← namesOf room name entries
  | .data _ => pure ()

/-- A token of a known kind is read field by field. -/
theorem ofFields?_eq_some (room : Nat) (sub : Json → Except Fault Token)
    (entries : List (String × Json)) {kind : String} {fields : List Field}
    (h : Field.ofKind? kind = some fields) (span? : Option Span) :
    ∃ r, ofFields? room sub span? entries kind = some r ∧
      (do let _ ← r) = fields.forM (readField room sub kind entries) := by
  unfold Field.ofKind? at h
  split at h
  all_goals cases h
  all_goals refine ⟨_, rfl, ?_⟩
  all_goals
    simp only [readField, List.forM_eq_forM, List.forM_cons, List.forM_nil, bind_assoc, pure_bind]
  rfl

theorem readField_judged (hlimit : Limits limit room entries) (hsub : Judges sub limit entries)
    (kind : String) (f : Field) :
    Judged limit (f.Filled entries) (readField room sub kind entries f) := by
  cases f with
  | part name =>
      have hread := (part_judged hsub kind name).andThen fun _ _ =>
        (.ok trivial : Judged limit True (pure ()))
      rw [bind_assoc] at hread
      exact hread
  | parts name =>
      have hread := (parts_judged hsub kind name).andThen fun _ _ =>
        (.ok trivial : Judged limit True (pure ()))
      simp only [bind_assoc] at hread
      exact hread
  | names name => exact (names_judged hlimit name).andThen fun _ _ => .ok trivial
  | data name => exact .ok (.data name)

/-- The fields of a token of a known kind can be read if all of them are filled as they should be. -/
theorem ofFields?_judged (hlimit : Limits limit room entries) (hsub : Judges sub limit entries)
    {kind : String} {fields : List Field} (h : Field.ofKind? kind = some fields)
    (span? : Option Span) :
    ∃ r, ofFields? room sub span? entries kind = some r ∧
      Judged limit (∀ f ∈ fields, f.Filled entries) r := by
  obtain ⟨r, hr, hfields⟩ := ofFields?_eq_some room sub entries h span?
  refine ⟨r, hr, Judged.of_andThen (hfields ▸ ?_)⟩
  exact Judged.forM fun f _ => readField_judged hlimit hsub kind f

theorem ofFields?_eq_none {kind : String} (h : Field.ofKind? kind = none) (span? : Option Span) :
    ofFields? room sub span? entries kind = none := by
  unfold Field.ofKind? at h
  split at h
  all_goals try cases h
  unfold ofFields?
  split
  all_goals simp_all

end Fields

/-! ### Token trees -/

/-- A mapping is a token tree if it is well located and the fields of its kind, if that is known, are
filled as they should be. -/
theorem wellFormed_iff {entries : List (String × Json)} {type : Json}
    (h : Json.lookup? "type" entries = some type) :
    (Json.object entries).WellFormed ↔
      Json.WellLocated entries ∧ type.isKey = true ∧
        ∀ kind fields, type = .str kind → Field.ofKind? kind = some fields →
          ∀ f ∈ fields, f.Filled entries := by
  constructor
  · rintro (⟨htype, hlocated, hkind, hfilled⟩ | ⟨htype, hlocated, hkey, hunknown⟩)
    · rw [h] at htype
      cases htype
      refine ⟨hlocated, rfl, ?_⟩
      rintro _ fields ⟨⟩ hfields
      rw [hkind] at hfields
      cases hfields
      exact hfilled
    · rw [h] at htype
      cases htype
      refine ⟨hlocated, hkey, fun kind fields htype hfields => ?_⟩
      rw [hunknown kind htype] at hfields
      cases hfields
  · rintro ⟨hlocated, hkey, hfilled⟩
    by_cases hknown : ∃ kind fields, type = .str kind ∧ Field.ofKind? kind = some fields
    · obtain ⟨kind, fields, rfl, hfields⟩ := hknown
      exact .known h hlocated hfields (hfilled kind fields rfl hfields)
    · refine .unknown h hlocated hkey fun kind htype => ?_
      cases hfields : Field.ofKind? kind with
      | none => rfl
      | some fields => exact absurd ⟨kind, fields, htype, hfields⟩ hknown

theorem limits_decode (depth : Nat) (entries : List (String × Json)) :
    Limits ((Json.object entries).Exceeds (depth + 1)) (writingRoom depth) entries :=
  fun _ hpart _ h => h.exceeds hpart

theorem judges_decode {depth : Nat}
    (ih : ∀ j : Json, Judged (j.Exceeds depth) j.WellFormed (decode depth j))
    (entries : List (String × Json)) :
    Judges (decode depth) ((Json.object entries).Exceeds (depth + 1)) entries := by
  intro name value j hfound hj
  exact (ih j).imp (fun _ h => h.of_part hfound hj) Iff.rfl

theorem untagged_ne_ok (room : Nat) (j : Json) (t : Token) : untagged room j ≠ .ok t := by
  intro h
  obtain ⟨text, -, h⟩ := exists_of_bind_eq_ok h
  cases h

/-- What is no mapping with a type is refused, whether there is room to show it or not. -/
theorem untagged_judged (depth : Nat) {j : Json} (hj : ¬ j.WellFormed) :
    Judged (j.Exceeds (depth + 1)) j.WellFormed (untagged (writingRoom depth) j) := by
  unfold untagged Json.quotedWithin
  cases h : j.obstacle? (writingRoom depth) with
  | none => exact .refused rfl hj
  | some fault =>
      exact .limited ((Json.overflows_of_obstacle? j h).exceeds ⟨Nat.le_refl _, id⟩)

theorem decode_judged (depth : Nat) (j : Json) :
    Judged (j.Exceeds depth) j.WellFormed (decode depth j) := by
  induction depth generalizing j with
  | zero => exact .limited (.tree j.height_pos)
  | succ depth ih =>
      cases j with
      | object entries =>
          have hlimit := limits_decode depth entries
          cases htype : Json.lookup? "type" entries with
          | none =>
              simp only [decode, htype]
              refine untagged_judged depth ?_
              rintro (⟨hfound, -⟩ | ⟨hfound, -⟩)
              all_goals rw [htype] at hfound; cases hfound
          | some type =>
              have hwithin := Json.within_of_lookup? htype
              simp only [decode, htype]
              refine ((spanOf?_judged hlimit hwithin).bind fun span? _ => ?_).iff
                (wellFormed_iff htype).symm
              cases type with
              | list | object => exact .refused rfl fun h => absurd h.1 nofun
              | str kind =>
                  cases hfields : Field.ofKind? kind with
                  | none =>
                      simp only [ofFields?_eq_none hfields]
                      refine .ok ⟨rfl, ?_⟩
                      rintro _ fields ⟨⟩ hknown
                      rw [hfields] at hknown
                      cases hknown
                  | some fields =>
                      obtain ⟨r, hr, hjudged⟩ :=
                        ofFields?_judged hlimit (judges_decode ih entries) hfields span?
                      simp only [hr]
                      refine hjudged.iff ⟨fun hfilled => ⟨rfl, ?_⟩, fun h => h.2 kind fields rfl hfields⟩
                      rintro _ fields' ⟨⟩ hknown
                      rw [hfields] at hknown
                      cases hknown
                      exact hfilled
              | _ =>
                  refine ((hlimit.text_judged hwithin _).andThen fun _ _ => .ok trivial).iff ?_
                  exact iff_of_true trivial ⟨rfl, nofun⟩
      | _ => exact untagged_judged depth nofun

/-- A mapping of a kind that is not known is kept as it is. -/
theorem decode_unknown {entries : List (String × Json)} {type : Json}
    (htype : Json.lookup? "type" entries = some type) (hlocated : Json.WellLocated entries)
    (hkey : type.isKey = true) (hunknown : ∀ kind, type = .str kind → Field.ofKind? kind = none)
    (hlong : type.hasLongNumeral = false) (depth : Nat) :
    ∃ span, decode (depth + 1) (.object entries) = .ok (.unknown span type.shown entries) := by
  obtain ⟨span?, hspan⟩ := exists_spanOf?_eq_ok hlocated (writingRoom depth) type
  simp only [decode, htype, ofTagged, hspan, bind, Except.bind]
  cases type with
  | list | object => cases hkey
  | str kind =>
      simp only [ofFields?_eq_none (hunknown kind rfl)]
      exact ⟨_, rfl⟩
  | int n =>
      have hshort : numeralObstacle? n = none :=
        Option.isNone_iff_eq_none.mp (Option.isSome_eq_false_iff.mp hlong)
      simp only [Json.shownWithin, Json.obstacle?, hshort]
      exact ⟨_, rfl⟩
  | null | bool | float => exact ⟨_, rfl⟩

/-- **Exactly well-formed data is read as a token tree**, unless a limit is met. The tree has to nest
deeper for it than the given depth, a text in it as deep, or a number in it has to be too long to be
written. A mapping whose type is no known kind is kept as an unknown token, whatever its other fields
hold. -/
theorem decode_ok_iff_wellFormed (j : Json) :
    (∀ depth, (∀ fault, decode depth j = .error fault → fault.isLimit = false) →
      ((∃ token, decode depth j = .ok token) ↔ j.WellFormed)) ∧
    (∀ depth fault, decode depth j = .error fault → fault.isLimit = true → j.Exceeds depth fault) ∧
    ∀ entries type, j = .object entries → Json.lookup? "type" entries = some type →
      Json.WellLocated entries → type.isKey = true →
      (∀ kind, type = .str kind → Field.ofKind? kind = none) → type.hasLongNumeral = false →
      ∀ depth, ∃ span, decode (depth + 1) j = .ok (.unknown span type.shown entries) := by
  refine ⟨fun depth hlimit => ?_, fun depth fault h => (decode_judged depth j).limit_of_isLimit h, ?_⟩
  · refine (decode_judged depth j).ok_iff fun fault h hexceeds => ?_
    have hfault := hexceeds.isLimit
    rw [hlimit fault h] at hfault
    cases hfault
  · rintro entries type rfl htype hlocated hkey hunknown hlong depth
    exact decode_unknown htype hlocated hkey hunknown hlong depth

/-- A program with a path that is given as a text, and with a mapping whose type is a number. The
location has one end only, and that as a text. -/
theorem decode_ok_iff_wellFormed_program :
    let stray : List (String × Json) := [("type", .int 7), ("value", .null)]
    let j : Json :=
      .object
        [("type", .str "Program"), ("location", .object [("startLine", .str " +1_0 ")]),
          ("value", .list [.object [("type", .str "Path"), ("value", .str "ab")], .object stray])]
    j.WellFormed ∧ (∃ token, decode 4 j = .ok token) ∧
      decode 1 j = .error .tooDeep ∧ j.Exceeds 1 .tooDeep ∧
      ∃ span, decode 1 (.object stray) = .ok (.unknown span "7" stray) := by
  intro stray j
  have hread : ∃ token, decode 4 j = .ok token := ⟨_, rfl⟩
  obtain ⟨haccepts, hlimit, -⟩ := decode_ok_iff_wellFormed j
  obtain ⟨-, -, hunknown⟩ := decode_ok_iff_wellFormed (.object stray)
  have hlocated : Json.WellLocated stray := nofun
  refine ⟨(haccepts 4 fun fault h => ?_).mp hread, hread, rfl, hlimit 1 .tooDeep rfl rfl,
    hunknown stray (.int 7) rfl rfl hlocated rfl nofun rfl 0⟩
  obtain ⟨token, htoken⟩ := hread
  cases htoken.symm.trans h

end Token

end ArrayExpr
