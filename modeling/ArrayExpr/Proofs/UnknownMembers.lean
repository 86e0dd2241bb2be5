import ArrayExpr.Proofs.Outcome

/-!
Tokens of unknown kinds among the members of a program. Such a token gives a text, and a text has no
entries to merge into those of the program, so that the program ends there with a fault, if not for want
of room for the text. A program of assignments is therefore harmed by unknown tokens unless it ends before
the first of them anyway (`keptBy_iff_stops_before_unknown`).
-/

namespace ArrayExpr

def Token.isAssignment : Token → Bool
  | .assignment .. => true
  | _ => false

/-- Tokens, and the same tokens with others of unknown kinds in between. -/
inductive Token.Inserted : List Token → List Token → Prop where
  | nil : Inserted [] []
  | keep {t : Token} {ts us : List Token} : Inserted ts us → Inserted (t :: ts) (t :: us)
  | insert {span : Span} {kind : String} {raw : List (String × Json)} {ts us : List Token} :
      Inserted ts us → Inserted ts (.unknown span kind raw :: us)

/-- What a run comes to is kept by another run: that one has no fault of its own, and where the first
comes to a result it has the same state and the same issues. -/
structure Outcome.KeptBy (o o' : Outcome) : Prop where
  faults : ∀ fault, o'.result = .error fault → o.result = .error fault
  same : ∀ v, o.result = .ok v → o'.state = o.state ∧ o'.issues = o.issues

/-- A fault ends the evaluation of the program that consists of the members. -/
def Stops (rt : Runtime) (verbose : Bool) (members : List Token) (fault : Fault) : Prop :=
  ((evaluate rt nestingLimit (.program .nowhere members) 0).run (.initial verbose)).1 = .error fault

namespace Token

/-- The fault with which the members of a program end at a token of an unknown kind: its text is no
mapping, if it can be written at all. -/
def unknownFault (raw : List (String × Json)) : Fault :=
  match (Json.object raw).quotedWithin (writingRoom (nestingLimit - 2)) with
  | .ok _ => .notPair 0 1
  | .error fault => fault

/-- What is not left as it was has a first unknown token. -/
theorem Inserted.eq_or_split {ts us : List Token} (h : Inserted ts us) :
    us = ts ∨ ∃ before span kind raw after rest,
      ts = before ++ after ∧ us = before ++ .unknown span kind raw :: rest := by
  induction h with
  | nil => exact .inl rfl
  | @keep t ts us _ ih =>
      rcases ih with rfl | ⟨before, span, kind, raw, after, rest, rfl, rfl⟩
      · exact .inl rfl
      · exact .inr ⟨t :: before, span, kind, raw, after, rest, rfl, rfl⟩
  | @insert span kind raw ts us _ _ => exact .inr ⟨[], span, kind, raw, ts, us, rfl, rfl⟩

theorem takeWhile_isAssignment {before rest : List Token} {span : Span} {kind : String}
    {raw : List (String × Json)} (h : ∀ t ∈ before, t.isAssignment = true) :
    (before ++ .unknown span kind raw :: rest).takeWhile isAssignment = before := by
  rw [List.takeWhile_append_of_pos h, List.takeWhile_cons_of_neg (by simp [isAssignment]),
    List.append_nil]

end Token

/-! ### Members in sequence -/

section Members

variable {rt : Runtime} {depth scope : Nat} {m : Machine}

theorem mergeMembers_append (evaluate : Token → Run Value) (entries : Scope) (ts us : List Token) :
    mergeMembers evaluate entries (ts ++ us) =
      mergeMembers evaluate entries ts >>= fun entries => mergeMembers evaluate entries us := by
  induction ts generalizing entries with
  | nil => simp [mergeMembers]
  | cons t ts ih => simp only [List.cons_append, mergeMembers, bind_assoc, ih]

/-- Where a text has a first character, that is not a pair. -/
theorem merge_str {s : String} (hs : s ≠ "") (mark : Nat) (entries : Scope) :
    Value.merge mark entries (.str s) = .error (.notPair 0 1) := by
  cases h : s.toList with
  | nil => exact absurd (String.toList_eq_nil_iff.mp h) hs
  | cons c cs =>
      simp [Value.merge, Value.members?, h, Value.mergePairs]

/-- A token of an unknown kind ends a sequence of members. -/
theorem run_mergeMembers_unknown (span : Span) (kind : String) (raw : List (String × Json))
    (entries : Scope) (rest : List Token) :
    (mergeMembers (evaluate rt (nestingLimit - 1) · scope) entries (.unknown span kind raw :: rest)).run m =
      (.error (Token.unknownFault raw), m.noteFault none (Token.unknownFault raw)) := by
  have hevaluate : evaluate rt (nestingLimit - 1) (.unknown span kind raw) scope = do
      let text ← Run.lift ((Json.object raw).quotedWithin (writingRoom (nestingLimit - 2)))
      return .str ("Unrecognized token: " ++ kind ++ ", rest: " ++ text) := rfl
  rw [mergeMembers, hevaluate, Token.unknownFault]
  cases (Json.object raw).quotedWithin (writingRoom (nestingLimit - 2)) with
  | error fault => rfl
  | ok text =>
      have htext : "Unrecognized token: " ++ kind ++ ", rest: " ++ text ≠ "" := by
        simp [String.append_assoc, ← String.toList_inj]
      rw [show Run.lift (.ok text) = pure text from rfl, pure_bind, pure_bind, Run.run_bind,
        Run.run_marking, merge_str htext]

theorem run_program (span : Span) (members : List Token) :
    (evaluate rt (depth + 1) (.program span members) scope).run m =
      (((mergeMembers (evaluate rt depth · scope) [] members).run m).1.map Value.dict,
        ((mergeMembers (evaluate rt depth · scope) [] members).run m).2) := by
  rw [evaluate, evaluateBy, bind_pure_comp, Run.run_map]

end Members

section Programs

variable {rt : Runtime} {verbose : Bool}

def membersEnd (rt : Runtime) (verbose : Bool) (members : List Token) : Except Fault Scope × Machine :=
  (mergeMembers (evaluate rt (nestingLimit - 1) · 0) [] members).run (.initial verbose)

theorem stops_iff (members : List Token) (fault : Fault) :
    Stops rt verbose members fault ↔ (membersEnd rt verbose members).1 = .error fault := by
  have hdepth : nestingLimit = nestingLimit - 1 + 1 := rfl
  rw [Stops, hdepth, run_program, ← membersEnd]
  cases (membersEnd rt verbose members).1 with
  | ok entries => simp [Except.map]
  | error fault => simp [Except.map]

theorem interpretToken_program (span : Span) (members : List Token) :
    interpretToken rt verbose (.program span members) =
      match membersEnd rt verbose members with
      | (.ok entries, m) => .finished m (.program .nowhere []) (.dict entries)
      | (.error fault, m) => if fault.isTooDeep then .tooDeep m span else ⟨.error fault, m⟩ := by
  have hrun : (evaluate rt nestingLimit (.program span members) 0).run (.initial verbose) =
      ((membersEnd rt verbose members).1.map Value.dict, (membersEnd rt verbose members).2) :=
    run_program span members
  unfold interpretToken
  rw [← Machine.initial, hrun]
  obtain ⟨r, m⟩ := membersEnd rt verbose members
  cases r with
  | ok entries => rfl
  | error fault => rfl

theorem interpretToken_of_fault {members : List Token} {fault : Fault} {m : Machine}
    (hlimit : fault.isTooDeep = false) (h : membersEnd rt verbose members = (.error fault, m))
    (span : Span) : interpretToken rt verbose (.program span members) = ⟨.error fault, m⟩ := by
  rw [interpretToken_program, h]
  simp [hlimit]

theorem interpretToken_of_limit {members : List Token} {fault : Fault} {m : Machine}
    (hlimit : fault.isTooDeep = true) (h : membersEnd rt verbose members = (.error fault, m))
    (span : Span) : interpretToken rt verbose (.program span members) = .tooDeep m span := by
  rw [interpretToken_program, h]
  simp [hlimit]

/-- Only a fault that ends the members is the result of a program. -/
theorem result_eq_error_iff (span : Span) (members : List Token) {fault : Fault}
    (hlimit : fault.isTooDeep = false) :
    (interpretToken rt verbose (.program span members)).result = .error fault ↔
      Stops rt verbose members fault := by
  rw [stops_iff]
  cases hend : membersEnd rt verbose members with
  | mk r m =>
      cases r with
      | ok entries =>
          rw [interpretToken_program, hend]
          exact ⟨nofun, nofun⟩
      | error other =>
          cases hother : other.isTooDeep with
          | true =>
              rw [interpretToken_of_limit hother hend]
              refine ⟨nofun, fun h => ?_⟩
              rw [Except.error.inj h, hlimit] at hother
              cases hother
          | false => simp only [interpretToken_of_fault hother hend, Except.error.injEq]

/-- Programs whose members end alike differ only in where the nesting limit is said to be met. -/
theorem keptBy_iff_of_membersEnd_eq {members extended : List Token} (span span' : Span)
    (h : membersEnd rt verbose extended = membersEnd rt verbose members) :
    (interpretToken rt verbose (.program span members)).KeptBy
        (interpretToken rt verbose (.program span' extended)) ↔
      ∀ fault, Stops rt verbose members fault → fault.isTooDeep = true → span' = span := by
  have hself (o : Outcome) : o.KeptBy o := ⟨fun _ h => h, fun _ _ => ⟨rfl, rfl⟩⟩
  simp only [stops_iff]
  cases hend : membersEnd rt verbose members with
  | mk r m =>
      rw [hend] at h
      cases r with
      | ok entries =>
          rw [interpretToken_program, interpretToken_program, hend, h]
          exact ⟨fun _ => nofun, fun _ => hself _⟩
      | error fault =>
          cases hfault : fault.isTooDeep with
          | true =>
              rw [interpretToken_of_limit hfault hend, interpretToken_of_limit hfault h]
              constructor
              · intro hkept _ _ _
                have hissues := (hkept.same .failure rfl).2
                simpa [Outcome.issues, Outcome.tooDeep, Report.issue] using hissues
              · intro hspan
                rw [hspan fault rfl hfault]
                exact hself _
          | false =>
              rw [interpretToken_of_fault hfault hend, interpretToken_of_fault hfault h]
              refine ⟨fun _ other hother hlimit => ?_, fun _ => hself _⟩
              rw [← Except.error.inj hother, hfault] at hlimit
              cases hlimit

theorem membersEnd_append_of_ok {before : List Token} {entries : Scope} {m : Machine}
    (h : membersEnd rt verbose before = (.ok entries, m)) (after : List Token) :
    membersEnd rt verbose (before ++ after) =
      (mergeMembers (evaluate rt (nestingLimit - 1) · 0) entries after).run m := by
  rw [membersEnd, mergeMembers_append, Run.run_bind, ← membersEnd, h]

theorem membersEnd_append_of_error {before : List Token} {fault : Fault} {m : Machine}
    (h : membersEnd rt verbose before = (.error fault, m)) (after : List Token) :
    membersEnd rt verbose (before ++ after) = (.error fault, m) := by
  rw [membersEnd, mergeMembers_append, Run.run_bind, ← membersEnd, h]

/-- After members that come to an end by themselves, a token of an unknown kind ends the program. -/
theorem membersEnd_append_unknown {before : List Token} {entries : Scope} {m : Machine}
    (h : membersEnd rt verbose before = (.ok entries, m)) (span : Span) (kind : String)
    (raw : List (String × Json)) (rest : List Token) :
    membersEnd rt verbose (before ++ .unknown span kind raw :: rest) =
      (.error (Token.unknownFault raw), m.noteFault none (Token.unknownFault raw)) := by
  rw [membersEnd_append_of_ok h, run_mergeMembers_unknown]

/-- Where the members before a token of an unknown kind come to an end by themselves, the program is
kept only if it ends with the fault of that token anyway. -/
theorem keptBy_append_unknown_iff {before : List Token} {entries : Scope} {m : Machine}
    (hend : membersEnd rt verbose before = (.ok entries, m)) {raw : List (String × Json)}
    (hlimit : (Token.unknownFault raw).isTooDeep = false) (span span' span₁ : Span) (kind : String)
    (after rest : List Token) :
    (interpretToken rt verbose (.program span (before ++ after))).KeptBy
        (interpretToken rt verbose (.program span' (before ++ .unknown span₁ kind raw :: rest))) ↔
      (∀ fault, Stops rt verbose (before ++ after) fault → fault.isTooDeep = true → span' = span) ∧
        ∃ fault, Stops rt verbose (before ++ .unknown span₁ kind raw :: rest) fault ∧
          Stops rt verbose (before ++ after) fault := by
  have hend' := membersEnd_append_unknown hend span₁ kind raw rest
  have hstops' : Stops rt verbose (before ++ .unknown span₁ kind raw :: rest)
      (Token.unknownFault raw) := by rw [stops_iff, hend']
  rw [interpretToken_of_fault hlimit hend']
  constructor
  · intro hkept
    have hstops := (result_eq_error_iff span _ hlimit).mp (hkept.faults _ rfl)
    refine ⟨fun fault hfault hdeep => ?_, _, hstops', hstops⟩
    rw [stops_iff] at hstops hfault
    rw [← Except.error.inj (hstops.symm.trans hfault), hlimit] at hdeep
    cases hdeep
  · rintro ⟨-, fault, hfault, hstops⟩
    rw [stops_iff] at hstops' hfault
    rw [← Except.error.inj (hstops'.symm.trans hfault), ← result_eq_error_iff span _ hlimit] at hstops
    constructor
    · rintro _ ⟨⟩
      exact hstops
    · intro v hv
      rw [hstops] at hv
      cases hv

/-- What the program comes to then, and what it leaves: the state and the issues of the program that the
members before the token make, with one more issue if the token is nested too deep. -/
theorem interpretToken_append_unknown {before : List Token} {entries : Scope} {m : Machine}
    (hend : membersEnd rt verbose before = (.ok entries, m)) (raw : List (String × Json))
    (span span' span₁ : Span) (kind : String) (rest : List Token) :
    let o := interpretToken rt verbose (.program span' (before ++ .unknown span₁ kind raw :: rest))
    o.result = (if (Token.unknownFault raw).isTooDeep then .ok .failure
      else .error (Token.unknownFault raw)) ∧
      ∀ p : Outcome, p.From rt verbose (.program span before) →
        o.state = p.state ∧ p.issues <+: o.issues ∧
          ((Token.unknownFault raw).isTooDeep = false → o.issues = p.issues) := by
  intro o
  have hend' := membersEnd_append_unknown hend span₁ kind raw rest
  have hbefore {p : Outcome} (hp : p.From rt verbose (.program span before)) :
      p.state = m.scope 0 ∧ p.issues = m.report.issues := by
    rw [hp.eq_interpretToken, interpretToken_program, hend]
    exact ⟨rfl, m.report.issues_info _⟩
  cases hlimit : (Token.unknownFault raw).isTooDeep with
  | true =>
      have ho : o = _ := interpretToken_of_limit hlimit hend' span'
      rw [ho]
      refine ⟨rfl, fun p hp => ?_⟩
      rw [(hbefore hp).1, (hbefore hp).2]
      exact ⟨rfl, List.prefix_append _ _, nofun⟩
  | false =>
      have ho : o = _ := interpretToken_of_fault hlimit hend' span'
      rw [ho]
      refine ⟨rfl, fun p hp => ?_⟩
      rw [(hbefore hp).1, (hbefore hp).2]
      exact ⟨rfl, List.prefix_refl _, fun _ => rfl⟩

/-- **Unknown tokens among the members of a program end it.** Let tokens of unknown kinds be inserted
into a program of assignments, none of them nested too deep for its text. What the program comes to is
kept, in its faults, its state and its issues, only if nothing is inserted, or the assignments before the
first inserted token end with a fault by themselves, or the program ends with the very fault of the
extended program anyway. Meeting a limit on nesting is an issue at the place of the program, which has to
stay the same then.
In all other cases the program ends at an inserted token: with the fault of merging a text that is no
mapping, if the text can be written, and with the state and the issues that the assignments before it
leave. Only where there is no room for the text, the limit is one more issue. -/
theorem keptBy_iff_stops_before_unknown {members extended : List Token} {span span' : Span}
    {o o' : Outcome} (hmembers : ∀ t ∈ members, t.isAssignment = true)
    (hinserted : Token.Inserted members extended) (ho : o.From rt verbose (.program span members))
    (ho' : o'.From rt verbose (.program span' extended)) :
    ((∀ span kind raw, Token.unknown span kind raw ∈ extended →
        (Token.unknownFault raw).isTooDeep = false) →
      (o.KeptBy o' ↔
        (∀ fault, Stops rt verbose members fault → fault.isTooDeep = true → span' = span) ∧
          (extended = members ∨
            (∃ fault, Stops rt verbose (extended.takeWhile Token.isAssignment) fault) ∨
            ∃ fault, Stops rt verbose extended fault ∧ Stops rt verbose members fault))) ∧
    (extended ≠ members →
      (∀ fault, ¬ Stops rt verbose (extended.takeWhile Token.isAssignment) fault) →
      ∃ span₁ kind raw, Token.unknown span₁ kind raw ∈ extended ∧
        o'.result = (if (Token.unknownFault raw).isTooDeep then .ok .failure
          else .error (Token.unknownFault raw)) ∧
        ∀ p : Outcome, p.From rt verbose (.program span (extended.takeWhile Token.isAssignment)) →
          o'.state = p.state ∧ p.issues <+: o'.issues ∧
            ((Token.unknownFault raw).isTooDeep = false → o'.issues = p.issues)) := by
  rw [ho.eq_interpretToken, ho'.eq_interpretToken]
  rcases hinserted.eq_or_split with rfl | ⟨before, span₁, kind, raw, after, rest, rfl, rfl⟩
  · refine ⟨fun _ => ?_, fun hne => absurd rfl hne⟩
    rw [keptBy_iff_of_membersEnd_eq span span' rfl]
    simp
  · have hne : before ++ .unknown span₁ kind raw :: rest ≠ before ++ after := by
      intro h
      have hafter : .unknown span₁ kind raw :: rest = after := List.append_cancel_left h
      have hunknown := hmembers (.unknown span₁ kind raw) (by simp [← hafter])
      cases hunknown
    have hmem : Token.unknown span₁ kind raw ∈ before ++ .unknown span₁ kind raw :: rest := by simp
    rw [Token.takeWhile_isAssignment fun t ht => hmembers t (List.mem_append_left after ht)]
    simp only [hne, false_or, ne_eq, not_false_eq_true, true_imp_iff]
    cases hend : membersEnd rt verbose before with
    | mk r m =>
        cases r with
        | error fault =>
            -- Neither program gets further than the members before the first unknown token.
            have hstops : Stops rt verbose before fault := by rw [stops_iff, hend]
            have hsame : membersEnd rt verbose (before ++ .unknown span₁ kind raw :: rest) =
                membersEnd rt verbose (before ++ after) := by
              rw [membersEnd_append_of_error hend, membersEnd_append_of_error hend]
            constructor
            · intro _
              rw [keptBy_iff_of_membersEnd_eq span span' hsame]
              exact ⟨fun hlimit => ⟨hlimit, .inl ⟨fault, hstops⟩⟩, fun h => h.1⟩
            · exact fun hnone => absurd hstops (hnone fault)
        | ok entries =>
            have hnone : ¬ ∃ fault, Stops rt verbose before fault := by
              simp [stops_iff, hend]
            constructor
            · intro hwritten
              rw [keptBy_append_unknown_iff hend (hwritten span₁ kind raw hmem), or_iff_right hnone]
            · intro _
              exact ⟨span₁, kind, raw, hmem,
                interpretToken_append_unknown hend raw span span' span₁ kind rest⟩

/-- A comment between two assignments: the second is lost, and the run ends with a fault. -/
theorem keptBy_iff_stops_before_unknown_comment :
    let a : Token := .assignment .nowhere (.path .nowhere ["a"]) (.literal .nowhere (.int 1))
    let b : Token := .assignment .nowhere (.path .nowhere ["b"]) (.literal .nowhere (.int 2))
    let comment : Token := .unknown .nowhere "Comment" [("type", .str "Comment")]
    let o := interpretToken .standard false (.program .nowhere [a, b])
    let o' := interpretToken .standard false (.program .nowhere [a, comment, b])
    Token.Inserted [a, b] [a, comment, b] ∧ ¬ o.KeptBy o' ∧ o'.result = .error (.notPair 0 1) ∧
      o'.state = (interpretToken .standard false (.program .nowhere [a])).state := by
  intro a b comment o o'
  have hinserted : Token.Inserted [a, b] [a, comment, b] := .keep (.insert (.keep .nil))
  have hmembers : ∀ t ∈ [a, b], t.isAssignment = true := by simp [a, b, Token.isAssignment]
  obtain ⟨hkept, hfault⟩ :=
    @keptBy_iff_stops_before_unknown .standard false [a, b] [a, comment, b] .nowhere .nowhere o o'
      hmembers hinserted .token .token
  have hne : [a, comment, b] ≠ [a, b] := by simp
  have hbefore : ∀ fault, ¬ Stops .standard false [a] fault := by
    intro fault h
    cases h
  have hends : ∀ fault, ¬ Stops .standard false [a, b] fault := by
    intro fault h
    cases h
  have hcomment : ∀ span kind raw, Token.unknown span kind raw ∈ [a, comment, b] →
      Token.unknownFault raw = .notPair 0 1 := by
    intro span kind raw h
    simp only [List.mem_cons, List.not_mem_nil, or_false, reduceCtorEq, false_or, a, b, comment,
      Token.unknown.injEq] at h
    rw [h.2.2]
    rfl
  obtain ⟨span, kind, raw, hmem, hresult, hstate⟩ := hfault hne hbefore
  have hraw := hcomment span kind raw hmem
  rw [hraw] at hresult
  refine ⟨hinserted, ?_, hresult, (hstate _ .token).1⟩
  rw [hkept fun span kind raw h => hcomment span kind raw h ▸ rfl]
  rintro ⟨-, h | ⟨fault, h⟩ | ⟨fault, -, h⟩⟩
  · exact hne h
  · exact hbefore fault h
  · exact hends fault h

end Programs

end ArrayExpr
