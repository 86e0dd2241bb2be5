import ArrayExpr.Proofs.Defects
import ArrayExpr.Proofs.Doubles

/-!
Reading a token tree fails with the first defect of the data (`decode_fails_at_first_defect`). What is
read after a part that has defects is never reached, so the fault of a sequence is that of its first
part with defects, and the list of defects is in the order of reading. Only three kinds of defects lead
to another fault than that the data is malformed.
-/

namespace ArrayExpr

/-- Of what is no whole number, only a double without bound has a fault of its own. -/
theorem Json.toWhole_eq_infiniteNumber_iff (j : Json) :
    j.toWhole = .error .infiniteNumber ↔ j.isInfinite = true := by
  cases j with
  | float x =>
      rw [toWhole, isInfinite]
      cases hx : Decimal.Binary64.ofFloat x with
      | finite => simp [Decimal.truncate?, hx]
      | infinite negative =>
          have hnan : ¬ x.isNaN = true := by
            rw [Decimal.isNaN_iff, hx]
            rintro ⟨⟩
          simp only [Decimal.truncate?, hx, if_neg hnan]
      | nan =>
          have hnan : x.isNaN = true := (Decimal.isNaN_iff x).mpr hx
          simp only [Decimal.truncate?, hx, if_pos hnan]
          simp
  | str s =>
      simp only [toWhole, isInfinite, Bool.false_eq_true, iff_false]
      unfold Numeral.read
      dsimp only
      split
      · simp
      · split
        · simp
        · split <;> simp
  | int | bool | null | list | object => simp [toWhole, isInfinite]

/-! ### First faults -/

/-- A reading that ends with the first of a list of faults, or gives a result if there is none. It may
meet a limit before. -/
inductive Reports {α : Type} (limit : Fault → Prop) : List Fault → Except Fault α → Prop where
  | ok {a : α} : Reports limit [] (.ok a)
  | limited {fault : Fault} {faults : List Fault} : limit fault → Reports limit faults (.error fault)
  | first {fault : Fault} {rest : List Fault} : Reports limit (fault :: rest) (.error fault)

namespace Reports

variable {α β : Type} {limit limit' : Fault → Prop} {faults faults' : List Fault} {x : Except Fault α}

theorem imp (h : Reports limit faults x) (hlimit : ∀ fault, limit fault → limit' fault) :
    Reports limit' faults x := by
  cases h with
  | ok => exact .ok
  | limited h => exact .limited (hlimit _ h)
  | first => exact .first

theorem bind {f : α → Except Fault β} (hx : Reports limit faults x)
    (hf : ∀ a, x = .ok a → Reports limit faults' (f a)) :
    Reports limit (faults ++ faults') (x >>= f) := by
  cases hx with
  | @ok a => exact hf a rfl
  | limited h => exact .limited h
  | first => exact .first

/-- What comes after the last fault that there may be does not count. -/
theorem andThen {f : α → Except Fault β} (hx : Reports limit faults x)
    (hf : ∀ a, ∃ b, f a = .ok b) : Reports limit faults (x >>= f) := by
  rw [← List.append_nil faults]
  refine bind hx fun a _ => ?_
  obtain ⟨b, hb⟩ := hf a
  rw [hb]
  exact .ok

theorem of_andThen (h : Reports limit faults (do let _ ← x)) : Reports limit faults x := by
  cases x with
  | ok a =>
      cases h with
      | ok => exact .ok
  | error fault =>
      cases h with
      | limited h => exact .limited h
      | first => exact .first

theorem mapM {f : Json → Except Fault α} {g : Json → List Fault} {js : List Json}
    (h : ∀ j ∈ js, Reports limit (g j) (f j)) : Reports limit (js.flatMap g) (js.mapM f) := by
  induction js with
  | nil => exact .ok
  | cons j js ih =>
      obtain ⟨hj, hjs⟩ := List.forall_mem_cons.mp h
      rw [List.mapM_cons, List.flatMap_cons]
      exact bind hj fun a _ => andThen (ih hjs) fun as => ⟨a :: as, rfl⟩

theorem forM {f : Field → Except Fault Unit} {g : Field → List Fault} {fields : List Field}
    (h : ∀ field ∈ fields, Reports limit (g field) (f field)) :
    Reports limit (fields.flatMap g) (fields.forM f) := by
  induction fields with
  | nil => exact .ok
  | cons field fields ih =>
      obtain ⟨hfield, hfields⟩ := List.forall_mem_cons.mp h
      rw [List.flatMap_cons]
      exact bind hfield fun _ _ => ih hfields

/-- Where no limit is met, the first fault decides. -/
theorem eq_error_iff (h : Reports limit faults x) (hlimit : ∀ fault, x = .error fault → ¬ limit fault)
    (fault : Fault) : x = .error fault ↔ faults.head? = some fault := by
  cases h with
  | ok => simp
  | limited h => exact absurd h (hlimit _ rfl)
  | first => simp

end Reports

/-! ### Reading reports the first defect -/

namespace Token

/-- The fault of an entry that should be a whole number. -/
def endFaults (ends : List (String × Json)) (key : String) : List Fault :=
  match Json.lookup? key ends with
  | none => []
  | some j =>
    match j.toWhole with
    | .ok _ => []
    | .error fault => [fault]

theorem wholeField_reports (key : String) (ends : List (String × Json)) (default : Int) :
    Reports (fun _ => False) (endFaults ends key) (Json.wholeField key ends default) := by
  unfold Json.wholeField endFaults
  cases Json.lookup? key ends with
  | none => exact .ok
  | some j =>
      cases h : j.toWhole with
      | ok n => simp only [h]; exact .ok
      | error fault => simp only [h]; exact .first

theorem ofJson_reports (ends : List (String × Json)) :
    Reports (fun _ => False) (locationEnds.flatMap (endFaults ends)) (Span.ofJson (.object ends)) := by
  simp only [locationEnds, List.flatMap_cons, List.flatMap_nil, Span.ofJson]
  refine (wholeField_reports _ ends _).bind fun _ _ => ?_
  refine (wholeField_reports _ ends _).bind fun _ _ => ?_
  refine (wholeField_reports _ ends _).bind fun _ _ => ?_
  exact (wholeField_reports _ ends _).bind fun _ _ => .ok

def locationFault (location type : Json) (fault : Fault) : Fault :=
  if fault = .infiniteNumber then .infiniteNumber else .badLocation location.quoted type.shown

/-- The fault of a flaw of the ends is that of the first end that is no whole number. -/
theorem endFlaws_fault {entries ends : List (String × Json)} {type : Json}
    (htype : Json.lookup? "type" entries = some type)
    (hlocation : Json.lookup? "location" entries = some (.object ends)) (keys : List String) :
    ((keys.filter fun key => (Json.lookup? key ends).any fun j => !j.toWhole.isOk).map
        fun key => (Defect.mk (.object entries) (.locationEnd key)).fault) =
      (keys.flatMap (endFaults ends)).map (locationFault (.object ends) type) := by
  induction keys with
  | nil => rfl
  | cons key keys ih =>
      rw [List.filter_cons, List.flatMap_cons, List.map_append, ← ih]
      unfold endFaults
      cases hkey : Json.lookup? key ends with
      | none => simp
      | some j =>
          cases hj : j.toWhole with
          | ok n => simp [hj, Except.isOk, Except.toBool]
          | error fault =>
              have hinfinite := j.toWhole_eq_infiniteNumber_iff
              rw [hj, Except.error.injEq] at hinfinite
              simp [hj, Except.isOk, Except.toBool, locationFault, hinfinite, Defect.fault,
                Defect.hasInfiniteEnd, Defect.entry, Json.field?, htype, hlocation, hkey]

section Fields

variable {sub : Json → Except Fault Token} {limit : Fault → Prop} {room : Nat}
  {entries : List (String × Json)}

/-- A text is written as it is, or meets a limit. -/
theorem Limits.text_reports (hlimit : Limits limit room entries) {part : Json}
    (hpart : part.Within (.object entries)) (text : String) {α : Type}
    {f : String → Except Fault α} {faults : List Fault} (hf : Reports limit faults (f text)) :
    Reports limit faults (written text (part.obstacle? room) >>= f) := by
  cases h : part.obstacle? room with
  | none => exact hf
  | some fault => exact .limited (hlimit part hpart fault (Json.overflows_of_obstacle? part h))

/-- A complaint about a location shows it and the type, or meets a limit. -/
theorem Limits.badLocation_reports (hlimit : Limits limit room entries) {location type : Json}
    (hlocation : Json.lookup? "location" entries = some location)
    (htype : Json.lookup? "type" entries = some type) (rest : List Fault) :
    Reports limit (.badLocation location.quoted type.shown :: rest) (do
      let location ← location.quotedWithin room
      let type ← type.shownWithin room
      (.error (.badLocation location type) : Except Fault (Option Span))) :=
  hlimit.text_reports (Json.within_of_lookup? hlocation) _
    (hlimit.text_reports (Json.within_of_lookup? htype) _ .first)

/-- The location of a mapping is at fault as its first flaw says. -/
theorem spanOf?_reports (hlimit : Limits limit room entries) {type : Json}
    (htype : Json.lookup? "type" entries = some type) :
    Reports limit (((locationFlaws entries).map (Defect.mk (.object entries))).map Defect.fault)
      (spanOf? room entries type) := by
  unfold spanOf? locationFlaws
  cases hlocation : Json.lookup? "location" entries with
  | none => exact .ok
  | some location =>
      by_cases hpresent : location.isPresent = true
      · simp only [hpresent, Option.filter_some, if_true]
        cases location with
        | object ends =>
            have hends := endFlaws_fault htype hlocation locationEnds
            have hread := ofJson_reports ends
            simp only [List.map_map, Function.comp_def] at hends ⊢
            rw [hends]
            generalize locationEnds.flatMap (endFaults ends) = faults at hread
            generalize Span.ofJson (.object ends) = span at hread
            cases hread with
            | ok => exact .ok
            | limited h => exact h.elim
            | @first fault rest =>
                by_cases hfault : fault = .infiniteNumber
                · simp only [hfault, locationFault, if_true, List.map_cons]
                  exact .first
                · simp only [hfault, locationFault, if_false, List.map_cons]
                  exact hlimit.badLocation_reports hlocation htype _
        | null | bool | int | float | str | list =>
            simp only [Span.ofJson, List.map_cons, List.map_nil, Defect.fault, Defect.entry,
              Json.field?, htype, hlocation, Option.getD_some]
            exact hlimit.badLocation_reports hlocation htype _
      · simp only [hpresent, Option.filter_some]
        exact .ok

/-- Whatever may be read as a token from the fields of a mapping reports its first defect. -/
def ReportsParts (sub : Json → Except Fault Token) (limit : Fault → Prop)
    (entries : List (String × Json)) : Prop :=
  ∀ name value j, Json.lookup? name entries = some value →
    (j = value ∨ ∃ js, value.members = .ok js ∧ j ∈ js) →
      Reports limit ((defects j).map Defect.fault) (sub j)

theorem members_eq_error {value : Json} {fault : Fault} (h : value.members = .error fault) :
    fault = .notIterable value.typeName := by
  cases value <;> cases h
  all_goals rfl

theorem fault_notIterable {name : String} {value : Json}
    (h : Json.lookup? name entries = some value) :
    (Defect.mk (.object entries) (.notIterable name)).fault = .notIterable value.typeName := by
  simp [Defect.fault, Defect.entry, Json.field?, h]

theorem fault_missing {kind : String} (htype : Json.lookup? "type" entries = some (.str kind))
    (name : String) :
    (Defect.mk (.object entries) (.missing name)).fault = .lacksField kind name := by
  simp [Defect.fault, Defect.entry, Json.field?, htype, Json.shown]

theorem readField_reports (hlimit : Limits limit room entries) (hsub : ReportsParts sub limit entries)
    {kind : String} (htype : Json.lookup? "type" entries = some (.str kind)) (f : Field) :
    Reports limit ((fieldDefects entries f).map Defect.fault) (readField room sub kind entries f) := by
  cases f with
  | part name =>
      simp only [readField, fieldDefects, needed]
      cases h : Json.lookup? name entries with
      | none =>
          simp only [List.map_cons, List.map_nil, fault_missing htype]
          exact .first
      | some j => exact (hsub name j j h (.inl rfl)).andThen fun _ => ⟨(), rfl⟩
  | parts name =>
      simp only [readField, fieldDefects, needed]
      cases h : Json.lookup? name entries with
      | none =>
          simp only [List.map_cons, List.map_nil, fault_missing htype]
          exact .first
      | some value =>
          show Reports limit _ (value.members >>= fun js => do let _ ← js.mapM sub)
          cases hmembers : value.members with
          | ok js =>
              have hjs := Reports.mapM fun j hj => hsub name value j h (.inr ⟨js, hmembers, hj⟩)
              simp only [hmembers, List.map_flatMap]
              exact hjs.andThen fun _ => ⟨(), rfl⟩
          | error fault =>
              simp only [hmembers, List.map_cons, List.map_nil, fault_notIterable h,
                members_eq_error hmembers]
              exact .first
  | names name =>
      simp only [readField, fieldDefects, namesFlaws, namesOf]
      cases h : Json.lookup? name entries with
      | none => exact .ok
      | some value =>
          cases hmembers : value.members with
          | ok js =>
              have hnames : Reports limit (js.flatMap fun _ => []) (js.mapM (Json.shownWithin room)) := by
                refine Reports.mapM fun j hj => ?_
                have hj := (Json.within_of_mem_members hmembers hj).trans (Json.within_of_lookup? h)
                rw [← bind_pure (Json.shownWithin room j)]
                exact hlimit.text_reports hj _ .ok
              rw [List.flatMap_eq_nil_iff.mpr fun _ _ => rfl] at hnames
              simp only [hmembers, Option.any_some, Except.isOk, Except.toBool]
              exact hnames.andThen fun _ => ⟨(), rfl⟩
          | error fault =>
              simp only [hmembers, Option.any_some, Except.isOk, Except.toBool, Bool.not_false,
                if_true, List.map_cons, List.map_nil, fault_notIterable h, members_eq_error hmembers]
              exact .first
  | data name => exact .ok

end Fields

theorem reportsParts_decode {depth : Nat}
    (ih : ∀ j : Json, Reports (j.Exceeds depth) ((defects j).map Defect.fault) (decode depth j))
    (entries : List (String × Json)) :
    ReportsParts (decode depth) ((Json.object entries).Exceeds (depth + 1)) entries :=
  fun _ _ j hfound hj => (ih j).imp fun _ h => h.of_part hfound hj

theorem untagged_reports (depth : Nat) (j : Json) :
    Reports (j.Exceeds (depth + 1)) [(Defect.mk j .untagged).fault] (untagged (writingRoom depth) j) := by
  unfold untagged Json.quotedWithin
  cases h : j.obstacle? (writingRoom depth) with
  | none => exact .first
  | some fault =>
      exact .limited ((Json.overflows_of_obstacle? j h).exceeds ⟨Nat.le_refl _, id⟩)

/-- Reading ends with the fault of the first defect. -/
theorem decode_reports (depth : Nat) (j : Json) :
    Reports (j.Exceeds depth) ((defects j).map Defect.fault) (decode depth j) := by
  induction depth generalizing j with
  | zero => exact .limited (.tree j.height_pos)
  | succ depth ih =>
      cases j with
      | object entries =>
          have hlimit := limits_decode depth entries
          cases htype : Json.lookup? "type" entries with
          | none =>
              simp only [decode, defects, htype]
              exact untagged_reports depth _
          | some type =>
              simp only [decode, defects_object htype, htype, List.map_append, List.append_assoc]
              refine (spanOf?_reports hlimit htype).bind fun span? _ => ?_
              cases type with
              | list | object =>
                  simp only [typeFlaws, Json.isKey, Bool.false_eq_true, if_false, List.map_cons,
                    Defect.fault, Defect.entry, Json.field?, htype, Option.getD_some]
                  exact .first
              | str kind =>
                  cases hfields : Field.ofKind? kind with
                  | none =>
                      simp only [ofFields?_eq_none hfields, typeFlaws, fieldsOf, hfields]
                      exact .ok
                  | some fields =>
                      obtain ⟨r, hr, hread⟩ :=
                        ofFields?_eq_some (writingRoom depth) (decode depth) entries hfields span?
                      simp only [hr, typeFlaws, fieldsOf, hfields]
                      refine Reports.of_andThen (hread ▸ ?_)
                      simp only [Option.getD_some, List.map_flatMap]
                      exact Reports.forM fun f _ =>
                        readField_reports hlimit (reportsParts_decode ih entries) htype f
              | null | bool | int | float =>
                  exact hlimit.text_reports (Json.within_of_lookup? htype) _ .ok
      | null | bool | int | float | str | list => exact untagged_reports depth _

/-! ### The faults of defects -/

/-- The fields of tokens that have to have members, by the kinds of the tokens. -/
def iterableFields : List (String × String) :=
  [("Program", "value"), ("Path", "value"), ("FunctionComposition", "list")]

/-- The defects that lead to another fault than that the data is malformed. -/
inductive Defect.Leaks (d : Defect) : Fault → Prop where
  | infiniteEnd {ends : List (String × Json)} {key : String} {e : Json} :
      d.flaw = .locationEnd key → d.subject.field? "location" = some (.object ends) →
      Json.lookup? key ends = some e → e.isInfinite = true → Leaks d .infiniteNumber
  | type {type : Json} : d.flaw = .type → d.subject.field? "type" = some type →
      (∃ items, type = .list items) ∨ (∃ entries, type = .object entries) →
      Leaks d (.unhashable type.typeName)
  | notIterable {kind name : String} {value : Json} : d.flaw = .notIterable name →
      d.subject.field? "type" = some (.str kind) → (kind, name) ∈ iterableFields →
      d.subject.field? name = some value →
      value = .null ∨ (∃ b, value = .bool b) ∨ (∃ n, value = .int n) ∨ (∃ x, value = .float x) →
      Leaks d (.notIterable value.typeName)

theorem mem_iterableFields {kind name : String} {fields : List Field}
    (hkind : Field.ofKind? kind = some fields) (hf : .parts name ∈ fields ∨ .names name ∈ fields) :
    (kind, name) ∈ iterableFields := by
  unfold Field.ofKind? at hkind
  split at hkind
  all_goals cases hkind
  all_goals simp at hf
  all_goals subst hf; decide

theorem Defect.hasInfiniteEnd_eq {d : Defect} {ends : List (String × Json)} {key : String} {e : Json}
    (hlocation : d.subject.field? "location" = some (.object ends))
    (he : Json.lookup? key ends = some e) : d.hasInfiniteEnd key = e.isInfinite := by
  have hend : (d.entry "location").field? key = some e := by
    rw [entry, hlocation]
    exact he
  rw [hasInfiniteEnd, hend, Option.any_some]

theorem Defect.Leaks.fault_eq {d : Defect} {fault : Fault} (h : d.Leaks fault) : d.fault = fault := by
  cases h with
  | infiniteEnd hflaw hlocation he hinfinite =>
      simp [Defect.fault, hflaw, hasInfiniteEnd_eq hlocation he, hinfinite]
  | type hflaw htype _ => simp [Defect.fault, hflaw, entry, htype]
  | notIterable hflaw _ _ hvalue _ => simp [Defect.fault, hflaw, entry, hvalue]

/-- A defect says that the data is malformed or is one of the three that do not. -/
theorem malformed_or_leaks {j : Json} {flaw : Flaw} (h : Flawed j flaw) :
    (Defect.mk j flaw).fault.className = "MalformedToken" ∨
      (Defect.mk j flaw).Leaks (Defect.mk j flaw).fault := by
  cases h with
  | untagged | location | missing => exact .inl rfl
  | @locationEnd type e ends key htype hlocation hkey he hwhole =>
      by_cases hinfinite : e.isInfinite = true
      · have hleak : (Defect.mk j (.locationEnd key)).Leaks .infiniteNumber :=
          .infiniteEnd rfl hlocation he hinfinite
        exact .inr (hleak.fault_eq.symm ▸ hleak)
      · have hend : (Defect.mk j (.locationEnd key)).hasInfiniteEnd key = e.isInfinite :=
          Defect.hasInfiniteEnd_eq hlocation he
        left
        simp [Defect.fault, hend, hinfinite, Fault.className]
  | @type type htype hkey =>
      have hleak : (Defect.mk j .type).Leaks (.unhashable type.typeName) := by
        apply Defect.Leaks.type rfl htype
        cases type with
        | list items => exact .inl ⟨items, rfl⟩
        | object entries => exact .inr ⟨entries, rfl⟩
        | null | bool | int | float | str => cases hkey
      exact .inr (hleak.fault_eq.symm ▸ hleak)
  | @notIterable kind name fields value htype hkind hf hvalue hmembers =>
      have hleak : (Defect.mk j (.notIterable name)).Leaks (.notIterable value.typeName) := by
        apply Defect.Leaks.notIterable rfl htype (mem_iterableFields hkind hf) hvalue
        cases value with
        | null => simp
        | bool | int | float => simp
        | str | list | object => cases hmembers
      exact .inr (hleak.fault_eq.symm ▸ hleak)

theorem Defect.Leaks.className_eq {d : Defect} {fault : Fault} (h : d.Leaks fault) :
    fault.className = if fault = .infiniteNumber then "OverflowError" else "TypeError" := by
  cases h <;> rfl

theorem lacks_of_fault_eq {j : Json} {flaw : Flaw} (h : Flawed j flaw) {kind field : String}
    (hfault : (Defect.mk j flaw).fault = .lacksField kind field) :
    j.field? "type" = some (.str kind) ∧ j.field? field = none := by
  cases h with
  | missing htype _ _ hname =>
      simp only [Defect.fault, Defect.entry, htype, Option.getD_some, Json.shown,
        Fault.lacksField.injEq] at hfault
      obtain ⟨rfl, rfl⟩ := hfault
      exact ⟨htype, hname⟩
  | locationEnd =>
      simp only [Defect.fault] at hfault
      split at hfault <;> cases hfault
  | untagged | location | type | notIterable => cases hfault

/-- **Reading a token tree fails with the first defect**, unless a limit is met. The tree has to nest
deeper for it than the given depth, a text in it as deep, or a number in it has to be too long to be
written. The list holds exactly the flaws of what stands in the place of a token. A defect leads to the
fault that the data is malformed, except for an infinite end of a location, a type that is a list or a
mapping, and an atom in place of members, each of which has a fault of its own. A missing field is put
down to the mapping that lacks it. -/
theorem decode_fails_at_first_defect (j : Json) :
    (∀ depth, (∀ fault, decode depth j = .error fault → fault.isLimit = false) → ∀ fault,
      (decode depth j = .error fault ↔ (defects j).head?.map Defect.fault = some fault)) ∧
    (∀ depth fault, decode depth j = .error fault → fault.isLimit = true → j.Exceeds depth fault) ∧
    (∀ d, d ∈ defects j ↔ StandsIn d.subject j ∧ Flawed d.subject d.flaw) ∧
    ∀ d ∈ defects j,
      (d.fault.className = "MalformedToken" ↔ ¬ ∃ fault, d.Leaks fault) ∧
      (∀ fault, d.Leaks fault → d.fault = fault ∧
        fault.className = if fault = .infiniteNumber then "OverflowError" else "TypeError") ∧
      ∀ kind field, d.fault = .lacksField kind field →
        d.subject.field? "type" = some (.str kind) ∧ d.subject.field? field = none := by
  have hlimit : ∀ depth fault, decode depth j = .error fault → fault.isLimit = true →
      j.Exceeds depth fault := fun depth fault h => (decode_judged depth j).limit_of_isLimit h
  refine ⟨fun depth hlimits fault => ?_, hlimit, fun d => mem_defects_iff d j, fun d hd => ?_⟩
  · have hfirst := (decode_reports depth j).eq_error_iff fun fault h hexceeds => by
      have hfault := hexceeds.isLimit
      rw [hlimits fault h] at hfault
      cases hfault
    rw [hfirst, List.head?_map]
  · obtain ⟨-, hflawed⟩ := foundIn_of_mem_defects hd
    refine ⟨?_, fun fault hleak => ⟨hleak.fault_eq, hleak.className_eq⟩,
      fun kind field => lacks_of_fault_eq hflawed⟩
    constructor
    · rintro hmalformed ⟨fault, hleak⟩
      rw [hleak.fault_eq, hleak.className_eq] at hmalformed
      split at hmalformed <;> simp at hmalformed
    · intro hnone
      rcases malformed_or_leaks hflawed with hmalformed | hleak
      · exact hmalformed
      · exact absurd ⟨_, hleak⟩ hnone

/-- An assignment to a call that has no argument. The assignment has a value that is no token, and the
next member of the program has a list for a type. -/
theorem decode_fails_at_first_defect_call :
    let call : Json := .object [("type", .str "FunctionApplication")]
    let j : Json :=
      .object
        [("type", .str "Program"),
          ("value", .list
            [.object [("type", .str "Assignment"), ("value", .int 1), ("path", call)],
              .object [("type", .list [])]])]
    j.height < 6 ∧ j.hasLongNumeral = false ∧
      decode 6 j = .error (.lacksField "FunctionApplication" "argument") ∧
      (∃ rest, defects j = ⟨call, .missing "argument"⟩ :: rest) ∧ StandsIn call j ∧
      call.field? "type" = some (.str "FunctionApplication") ∧ call.field? "argument" = none := by
  intro call j
  obtain ⟨hfirst, hlimit, hfound, hfaults⟩ := decode_fails_at_first_defect j
  have hheight : j.height < 6 := by decide
  have hlong : j.hasLongNumeral = false := by decide
  have hhead : ∃ rest, defects j = ⟨call, .missing "argument"⟩ :: rest := ⟨_, rfl⟩
  obtain ⟨rest, hrest⟩ := hhead
  have hmem : ⟨call, .missing "argument"⟩ ∈ defects j := by
    rw [hrest]
    exact List.mem_cons_self
  obtain ⟨-, -, hlacks⟩ := hfaults _ hmem
  -- The data nests less deep than it may, and its one number is short.
  have hunlimited : ∀ fault, decode 6 j = .error fault → fault.isLimit = false := by
    refine fun fault h => Bool.eq_false_iff.mpr fun hfault => ?_
    cases hlimit 6 fault h hfault with
    | tree hdeep | text hdeep => omega
    | numeral hnumeral => rw [hlong] at hnumeral; cases hnumeral
  refine ⟨hheight, hlong, (hfirst 6 hunlimited _).mpr ?_, ⟨rest, hrest⟩, ((hfound _).mp hmem).1,
    hlacks _ _ rfl⟩
  rw [hrest]
  rfl

end Token

end ArrayExpr
