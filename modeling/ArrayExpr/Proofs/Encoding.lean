import ArrayExpr.Proofs.Grammar
import ArrayExpr.Proofs.TokenTree

/-!
Token trees as tagged mappings. `Token.encode` writes a token as the mapping that a parser hands over:
the kind, the fields of the kind and the location with all four ends. An unknown token is written as
the mapping it was made from. What is written can be read again, and gives the same token tree
(`decode_encode`): so every token tree can be read from some mapping, and reading, writing and reading
again gives what reading once gives.
-/

namespace ArrayExpr

def Span.toJson (s : Span) : Json :=
  .object
    [("startLine", .int s.startLine), ("startColumn", .int s.startColumn),
      ("endLine", .int s.endLine), ("endColumn", .int s.endColumn)]

namespace Token

def tagged (kind : String) (span : Span) (fields : List (String × Json)) : Json :=
  .object (("type", .str kind) :: fields ++ [("location", span.toJson)])

mutual

/-- A token as a tagged mapping. -/
def encode : Token → Json
  | .program s members => tagged "Program" s [("value", .list (encodeAll members))]
  | .assignment s name value =>
    tagged "Assignment" s [("path", name.encode), ("value", value.encode)]
  | .reference s name => tagged "Reference" s [("value", name.encode)]
  | .path s segments => tagged "Path" s [("value", .list (segments.map .str))]
  | .function s parameter body =>
    tagged "Function" s [("argument", parameter), ("value", body.encode)]
  | .application s name argument =>
    tagged "FunctionApplication" s [("functionName", name), ("argument", argument.encode)]
  | .composition s names => tagged "FunctionComposition" s [("list", .list (names.map .str))]
  | .binary s operator left right =>
    tagged "BinaryOperation" s
      [("operator", operator), ("left", left.encode), ("right", right.encode)]
  | .unary s operator operand =>
    tagged "UnaryOperation" s [("operator", operator), ("value", operand.encode)]
  | .conversion s operand => tagged "ImplicitConversion" s [("value", operand.encode)]
  | .literal s value => tagged "Tensor" s [("value", value)]
  | .object s content => tagged "Object" s [("value", content.encode)]
  | .unknown _ _ raw => .object raw

def encodeAll : List Token → List Json
  | [] => []
  | t :: ts => t.encode :: encodeAll ts

end

/-- A token tree in which every unknown token was read from plain data. -/
inductive Genuine : Token → Prop where
  | node {t : Token} : (∀ span kind raw, t ≠ .unknown span kind raw) → (∀ c ∈ t.children, Genuine c) →
      Genuine t
  | read {depth : Nat} {j : Json} {span : Span} {kind : String} {raw : List (String × Json)} :
      decode depth j = .ok (.unknown span kind raw) → Genuine (.unknown span kind raw)

/-! ### Reading what was written -/

variable {depth : Nat}

/-- A mapping that was written is read by its fields, and has the span that was written. -/
theorem decode_tagged {kind : String} {s : Span} {fields : List (String × Json)}
    (hfields : ∀ e ∈ fields, e.1 ≠ "location") {r : Except Fault Token}
    (hr : ofFields? (writingRoom depth) (decode depth) (some s)
      (("type", .str kind) :: fields ++ [("location", s.toJson)]) kind = some r) :
    decode (depth + 1) (tagged kind s fields) = r := by
  have hnone : fields.find? (fun e => e.1 == "location") = none := by
    simpa [List.find?_eq_none] using hfields
  have hlocation :
      Json.lookup? "location" (("type", .str kind) :: fields ++ [("location", s.toJson)]) =
        some s.toJson := by
    simp [Json.lookup?, List.find?_append, hnone]
  have hspan : spanOf? (writingRoom depth)
      (("type", .str kind) :: fields ++ [("location", s.toJson)]) (.str kind) = .ok (some s) := by
    simp only [spanOf?, hlocation]
    rfl
  have htype : Json.lookup? "type" (("type", .str kind) :: fields ++ [("location", s.toJson)]) =
      some (.str kind) := rfl
  simp only [tagged, decode, htype, ofTagged, hspan, bind, Except.bind, hr]

theorem mapM_encodeAll {ts : List Token} (h : ∀ t ∈ ts, decode depth t.encode = .ok t) :
    (encodeAll ts).mapM (decode depth) = .ok ts := by
  induction ts with
  | nil => rfl
  | cons t ts ih =>
      obtain ⟨ht, hts⟩ := List.forall_mem_cons.mp h
      rw [encodeAll, List.mapM_cons, ht, ih hts]
      rfl

theorem mapM_shownWithin_str (room : Nat) (names : List String) :
    (names.map Json.str).mapM (Json.shownWithin room) = .ok names := by
  induction names with
  | nil => rfl
  | cons name names ih =>
      rw [List.map_cons, List.mapM_cons, ih]
      rfl

/-- Reading a token that was written comes down to reading the tokens below it. -/
theorem decode_encode_of_children {t : Token}
    (hknown : ∀ span kind raw, t ≠ .unknown span kind raw)
    (h : ∀ c ∈ t.children, decode depth c.encode = .ok c) :
    decode (depth + 1) t.encode = .ok t := by
  cases t with
  | program s members =>
      refine decode_tagged (by simp) (congrArg some ?_)
      show ((encodeAll members).mapM (decode depth) >>= fun ts => _) = _
      have hmembers : (encodeAll members).mapM (decode depth) = .ok members := mapM_encodeAll h
      rw [hmembers]
      rfl
  | assignment s name value =>
      refine decode_tagged (by simp) (congrArg some ?_)
      show (decode depth name.encode >>= fun t => _) = _
      rw [h name (by simp [children])]
      show (decode depth value.encode >>= fun t => _) = _
      rw [h value (by simp [children])]
      rfl
  | path s segments =>
      refine decode_tagged (by simp) (congrArg some ?_)
      show ((segments.map Json.str).mapM (Json.shownWithin (writingRoom depth)) >>= fun names => _) = _
      rw [mapM_shownWithin_str]
      rfl
  | composition s names =>
      refine decode_tagged (by simp) (congrArg some ?_)
      show ((names.map Json.str).mapM (Json.shownWithin (writingRoom depth)) >>= fun names => _) = _
      rw [mapM_shownWithin_str]
      rfl
  | binary s operator left right =>
      refine decode_tagged (by simp) (congrArg some ?_)
      show (decode depth left.encode >>= fun t => _) = _
      rw [h left (by simp [children])]
      show (decode depth right.encode >>= fun t => _) = _
      rw [h right (by simp [children])]
      rfl
  | reference s child | function s _ child | application s _ child | unary s _ child
  | conversion s child | object s child =>
      refine decode_tagged (by simp) (congrArg some ?_)
      show (decode depth child.encode >>= fun t => _) = _
      rw [h child (by simp [children])]
      rfl
  | literal s value => exact decode_tagged (by simp) rfl
  | unknown s kind raw => exact absurd rfl (hknown s kind raw)

/-! ### What can be read -/

theorem exists_of_mapM_eq_ok {sub : Json → Except Fault Token} {js : List Json} {ts : List Token}
    (h : js.mapM sub = .ok ts) : ∀ t ∈ ts, ∃ j, sub j = .ok t := by
  induction js generalizing ts with
  | nil =>
      cases h
      exact nofun
  | cons j js ih =>
      rw [List.mapM_cons] at h
      obtain ⟨t, ht, h⟩ := exists_of_bind_eq_ok h
      obtain ⟨us, hus, h⟩ := exists_of_bind_eq_ok h
      cases h
      exact List.forall_mem_cons.mpr ⟨⟨j, ht⟩, ih hus⟩

/-- A token that is read from its fields is of a known kind, and the tokens below it are read too. -/
theorem children_of_ofFields? {room : Nat} {sub : Json → Except Fault Token} {span? : Option Span}
    {entries : List (String × Json)} {kind : String} {t : Token}
    (h : ofFields? room sub span? entries kind = some (.ok t)) :
    (∀ span kind raw, t ≠ .unknown span kind raw) ∧ ∀ c ∈ t.children, ∃ j, sub j = .ok c := by
  have hone {name : String} {f : Token → Token}
      (h : some (do let t ← (do sub (← needed kind name entries)); return f t) = some (.ok t)) :
      ∃ c, t = f c ∧ ∃ j, sub j = .ok c := by
    obtain ⟨c, hc, h⟩ := exists_of_bind_eq_ok (Option.some.inj h)
    obtain ⟨j, -, hj⟩ := exists_of_bind_eq_ok hc
    cases h
    exact ⟨c, rfl, j, hj⟩
  have htwo {name name' : String} {f : Token → Token → Token}
      (h : some (do let t ← (do sub (← needed kind name entries))
                    let t' ← (do sub (← needed kind name' entries))
                    return f t t') = some (.ok t)) :
      ∃ c c', t = f c c' ∧ (∃ j, sub j = .ok c) ∧ ∃ j, sub j = .ok c' := by
    obtain ⟨c, hc, h⟩ := exists_of_bind_eq_ok (Option.some.inj h)
    obtain ⟨c', hc', h⟩ := exists_of_bind_eq_ok h
    obtain ⟨j, -, hj⟩ := exists_of_bind_eq_ok hc
    obtain ⟨j', -, hj'⟩ := exists_of_bind_eq_ok hc'
    cases h
    exact ⟨c, c', rfl, ⟨j, hj⟩, j', hj'⟩
  unfold ofFields? at h
  dsimp only at h
  split at h
  · obtain ⟨j, -, h⟩ := exists_of_bind_eq_ok (Option.some.inj h)
    obtain ⟨js, -, h⟩ := exists_of_bind_eq_ok h
    obtain ⟨members, hmembers, h⟩ := exists_of_bind_eq_ok h
    cases h
    exact ⟨by simp, exists_of_mapM_eq_ok hmembers⟩
  · obtain ⟨name, value, rfl, hname, hvalue⟩ := htwo h
    simp [children, hname, hvalue]
  · obtain ⟨c, rfl, hc⟩ := hone h
    simp [children, hc]
  · obtain ⟨segments, -, h⟩ := exists_of_bind_eq_ok (Option.some.inj h)
    cases h
    simp [children]
  · obtain ⟨c, rfl, hc⟩ := hone h
    simp [children, hc]
  · obtain ⟨c, rfl, hc⟩ := hone h
    simp [children, hc]
  · obtain ⟨names, -, h⟩ := exists_of_bind_eq_ok (Option.some.inj h)
    cases h
    simp [children]
  · obtain ⟨left, right, rfl, hleft, hright⟩ := htwo h
    simp [children, hleft, hright]
  · obtain ⟨c, rfl, hc⟩ := hone h
    simp [children, hc]
  · obtain ⟨c, rfl, hc⟩ := hone h
    simp [children, hc]
  · cases h
    simp [children]
  · obtain ⟨c, rfl, hc⟩ := hone h
    simp [children, hc]
  · cases h

/-- What is read is a token whose fields are read at the depth below, or an unknown token that keeps
its mapping and is read at every depth. -/
theorem decode_eq_ok_cases {j : Json} {t : Token} (h : decode (depth + 1) j = .ok t) :
    (∃ span? entries kind,
      ofFields? (writingRoom depth) (decode depth) span? entries kind = some (.ok t)) ∨
    ∃ span kind raw, t = .unknown span kind raw ∧ ∀ n, decode (n + 1) (.object raw) = .ok t := by
  cases j with
  | object entries =>
      cases htype : Json.lookup? "type" entries with
      | none =>
          simp only [decode, htype] at h
          exact absurd h (untagged_ne_ok _ _ t)
      | some type =>
          simp only [decode, htype] at h
          obtain ⟨span?, hspan, h⟩ := exists_of_bind_eq_ok h
          have hspan : ∀ n, spanOf? (writingRoom n) entries type = .ok span? :=
            fun n => spanOf?_eq_ok_iff.mpr (spanOf?_eq_ok_iff.mp hspan)
          cases type with
          | list | object => cases h
          | str kind =>
              cases hfields : Field.ofKind? kind with
              | none =>
                  simp only [ofFields?_eq_none hfields] at h
                  cases h
                  refine .inr ⟨_, _, _, rfl, fun n => ?_⟩
                  simp only [decode, htype, ofTagged, hspan, bind, Except.bind,
                    ofFields?_eq_none hfields]
                  rfl
              | some fields =>
                  obtain ⟨r, hr, -⟩ :=
                    ofFields?_eq_some (writingRoom depth) (decode depth) entries hfields span?
                  simp only [hr] at h
                  exact .inl ⟨span?, entries, kind, h ▸ hr⟩
          | null | bool | int | float =>
              -- The text of an atom takes no room.
              obtain ⟨text, htext, h⟩ := exists_of_bind_eq_ok h
              cases h
              refine .inr ⟨_, _, _, rfl, fun n => ?_⟩
              have htext : Json.shownWithin (writingRoom n) _ = .ok text := htext
              simp only [decode, htype, ofTagged, hspan, bind, Except.bind, htext]
              rfl
  | _ => exact absurd h (untagged_ne_ok _ _ t)

/-- An unknown token that was read is read again from the mapping that it keeps. -/
theorem decode_raw {j : Json} {span : Span} {kind : String} {raw : List (String × Json)}
    (h : decode depth j = .ok (.unknown span kind raw)) (n : Nat) :
    decode (n + 1) (.object raw) = .ok (.unknown span kind raw) := by
  cases depth with
  | zero => cases h
  | succ depth =>
      rcases decode_eq_ok_cases h with ⟨span?, entries, k, hfields⟩ | ⟨span', kind', raw', heq, hagain⟩
      · exact absurd rfl ((children_of_ofFields? hfields).1 span kind raw)
      · cases heq
        exact hagain n

theorem genuine_of_decode {j : Json} {t : Token} (h : decode depth j = .ok t) :
    t.Genuine ∧ t.height ≤ depth := by
  induction depth generalizing j t with
  | zero => cases h
  | succ depth ih =>
      rcases decode_eq_ok_cases h with ⟨span?, entries, kind, hfields⟩ | ⟨span, kind, raw, rfl, -⟩
      · obtain ⟨hknown, hchildren⟩ := children_of_ofFields? hfields
        have hbelow : ∀ c ∈ t.children, c.Genuine ∧ c.height ≤ depth := by
          intro c hc
          obtain ⟨j, hj⟩ := hchildren c hc
          exact ih hj
        exact ⟨.node hknown fun c hc => (hbelow c hc).1,
          height_le_succ_iff.mpr fun c hc => (hbelow c hc).2⟩
      · exact ⟨.read h, height_le_succ_iff.mpr (by simp [children])⟩

theorem decode_encode_of_genuine {t : Token} (h : t.Genuine) (hdepth : t.height ≤ depth) :
    decode depth t.encode = .ok t := by
  induction depth generalizing t with
  | zero => exact absurd t.height_pos (by omega)
  | succ depth ih =>
      cases h with
      | node hknown hchildren =>
          refine decode_encode_of_children hknown fun c hc => ?_
          exact ih (hchildren c hc) (height_le_succ_iff.mp hdepth c hc)
      | read hread => exact decode_raw hread depth

/-- **Reading what was written gives the token tree back**, for every token tree that nests no deeper
than the reader goes: the kinds, the fields and the spans are those that were written. Whatever can
be read is such a token tree, so that reading, writing and reading again gives what reading gave. -/
theorem decode_encode (depth : Nat) :
    (∀ t : Token, t.Genuine → t.height ≤ depth → decode depth t.encode = .ok t) ∧
    ∀ j t, decode depth j = .ok t →
      t.Genuine ∧ t.height ≤ depth ∧ decode depth t.encode = .ok t := by
  refine ⟨fun t ht hdepth => decode_encode_of_genuine ht hdepth, fun j t h => ?_⟩
  obtain ⟨ht, hdepth⟩ := genuine_of_decode h
  exact ⟨ht, hdepth, decode_encode_of_genuine ht hdepth⟩

/-- A literal that looks like a token is not read as one, a span may run backwards, and an unknown
token keeps what it was read from. -/
theorem decode_encode_literal :
    let raw : List (String × Json) := [("type", .int 7), ("value", .null)]
    let t : Token :=
      .program ⟨3, 1, -2, 0⟩
        [.literal ⟨1, 2, 3, 4⟩ (.object [("type", .str "Object")]), .unknown .nowhere "7" raw]
    t.Genuine ∧ t.height ≤ 2 ∧ decode 2 t.encode = .ok t := by
  intro raw t
  have hread : decode 1 (.object raw) = .ok (.unknown .nowhere "7" raw) := rfl
  have hgenuine : t.Genuine := by
    refine .node (by simp [t]) ?_
    simp only [t, children, List.forall_mem_cons]
    exact ⟨.node (by simp) (by simp [children]), .read hread, by simp⟩
  have hheight : t.height ≤ 2 := by decide
  exact ⟨hgenuine, hheight, (decode_encode 2).1 t hgenuine hheight⟩

end Token

end ArrayExpr
