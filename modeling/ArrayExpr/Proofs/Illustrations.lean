import ArrayExpr.Report

/-!
Illustrations show the line that they name. A place is turned into an offset by counting through the
lines of a text, and the offset back into a row and a column by counting through its rows. Lines and
rows are cut at different characters, but where the line feed is the only one of them that occurs they
are the same, and the two conversions undo each other. What is drawn is then the line of the number in the
margin, with carets from the named column on (`illustrate_shows_named_line`).
-/

namespace ArrayExpr

namespace Text

/-- The pieces of a text that was cut after its line feeds: only the last piece may be without one. -/
inductive Lined : List (List Char) → Prop where
  | nil : Lined []
  | last {line : List Char} : line ≠ [] → '\n' ∉ line → Lined [line]
  | cons {body : List Char} {rest : List (List Char)} : '\n' ∉ body → Lined rest →
      Lined ((body ++ ['\n']) :: rest)

/-- A numbered line of a text, between what stands before it and what stands after it. Lines are counted
from one by the line feeds before them, and a line is complete: it goes up to the next line feed, or to
the end of the text. -/
structure LineAt (text : List Char) (number : Int) (before line after : List Char) : Prop where
  text_eq : text = before ++ (line ++ after)
  number_eq : number = before.count '\n' + 1
  starts : ∀ c ∈ before.getLast?, c = '\n'
  ends : (∃ body, line = body ++ ['\n'] ∧ '\n' ∉ body) ∨ line ≠ [] ∧ '\n' ∉ line ∧ after = []

/-! ### Cutting a text -/

theorem flatten_cutAfter (isBreak : Char → Bool) (text : List Char) :
    (cutAfter isBreak text).flatten = text := by
  fun_induction cutAfter isBreak text with
  | case1 => rfl
  | case2 cs ih => simp [ih]
  | case3 c cs _ hbreak ih => simp [ih]
  | case4 c cs _ hbreak hnil ih =>
      rw [hnil] at ih
      simp [← ih]
  | case5 c cs _ hbreak line lines hcons ih =>
      rw [hcons] at ih
      simp [← ih]

/-- What counts are the breaks that occur in the text. -/
theorem cutAfter_congr {p q : Char → Bool} {text : List Char} (h : ∀ c ∈ text, p c = q c) :
    cutAfter p text = cutAfter q text := by
  fun_induction cutAfter p text with
  | case1 => rfl
  | case2 cs ih => rw [cutAfter, ih fun c hc => h c (by simp [hc])]
  | case3 c cs hcrlf hbreak ih =>
      have hq : q c = true := (h c (by simp)).symm.trans hbreak
      rw [cutAfter.eq_3 _ _ _ hcrlf, if_pos hq, ih fun c hc => h c (by simp [hc])]
  | case4 c cs hcrlf hbreak hnil ih =>
      have hq : ¬ q c = true := fun hq => hbreak ((h c (by simp)).trans hq)
      rw [cutAfter.eq_3 _ _ _ hcrlf, if_neg hq, ← ih fun c hc => h c (by simp [hc]), hnil]
  | case5 c cs hcrlf hbreak line lines hcons ih =>
      have hq : ¬ q c = true := fun hq => hbreak ((h c (by simp)).trans hq)
      rw [cutAfter.eq_3 _ _ _ hcrlf, if_neg hq, ← ih fun c hc => h c (by simp [hc]), hcons]

theorem lined_cutAfter {isBreak : Char → Bool} {text : List Char}
    (hbreaks : ∀ c ∈ text, isBreak c = true ↔ c = '\n') (hreturn : '\r' ∉ text) :
    Lined (cutAfter isBreak text) := by
  fun_induction cutAfter isBreak text with
  | case1 => exact .nil
  | case2 cs ih => simp at hreturn
  | case3 c cs _ hbreak ih =>
      obtain ⟨hc, hcs⟩ := List.forall_mem_cons.mp hbreaks
      obtain rfl := hc.mp hbreak
      have hempty : '\n' ∉ ([] : List Char) := List.not_mem_nil
      exact .cons hempty (ih hcs (by simp_all))
  | case4 c cs _ hbreak hnil ih =>
      have hc : c ≠ '\n' := fun hc => hbreak ((hbreaks c (by simp)).mpr hc)
      exact .last (by simp) (by simpa using hc.symm)
  | case5 c cs _ hbreak line lines hcons ih =>
      have hc : c ≠ '\n' := fun hc => hbreak ((hbreaks c (by simp)).mpr hc)
      have hrest : Lined (line :: lines) :=
        hcons ▸ ih (fun d hd => hbreaks d (by simp [hd])) (by simp_all)
      cases hrest with
      | last hline hfeed => exact .last (by simp) (by simp [hc.symm, hfeed])
      | @cons body _ hbody hlines =>
          have hlonger : '\n' ∉ c :: body := by simp [hc.symm, hbody]
          exact .cons hlonger hlines

/-- The pieces of a text are its lines, by their numbers. -/
theorem Lined.lineAt {ls : List (List Char)} (h : Lined ls) {n : Nat} (hn : n < ls.length) :
    LineAt ls.flatten (n + 1) (ls.take n).flatten ls[n] (ls.drop (n + 1)).flatten := by
  induction h generalizing n with
  | nil => cases hn
  | @last line hline hfeed =>
      obtain rfl : n = 0 := by simpa using hn
      exact ⟨by simp, by simp, by simp, .inr ⟨hline, hfeed, rfl⟩⟩
  | @cons body rest hbody hrest ih =>
      cases n with
      | zero => exact ⟨by simp, by simp, by simp, .inl ⟨body, rfl, hbody⟩⟩
      | succ n =>
          have hlater := ih (Nat.lt_of_succ_lt_succ hn)
          have hcount : body.count '\n' = 0 := List.count_eq_zero.mpr hbody
          refine ⟨?_, ?_, ?_, hlater.ends⟩
          · have htext := hlater.text_eq
            simp only [List.flatten_cons, List.take_succ_cons, List.drop_succ_cons,
              List.getElem_cons_succ, List.append_assoc]
            rw [← htext]
          · have hnumber := hlater.number_eq
            simp only [List.take_succ_cons, List.flatten_cons, List.count_append, hcount,
              List.count_singleton_self]
            omega
          · have hstarts := hlater.starts
            simp only [List.take_succ_cons, List.flatten_cons, List.getLast?_append]
            cases hlast : (rest.take n).flatten.getLast? with
            | none => simp
            | some c => simpa [hlast] using hstarts

end Text

/-! ### From a place to an offset and back -/

namespace Illustration

theorem foldl_length (ls : List (List Char)) (start : Nat) :
    ls.foldl (fun n l => n + l.length) start = start + ls.flatten.length := by
  induction ls generalizing start with
  | nil => rfl
  | cons l ls ih => rw [List.foldl_cons, ih, List.flatten_cons, List.length_append, Nat.add_assoc]

theorem offset_eq (text : List Char) (span : Span) :
    offset text span =
      min (((Text.lines text).take (span.startLine - 1).toNat).flatten.length +
        (span.startColumn - 1).toNat) (text.length - 1) := by
  rw [offset, foldl_length, Nat.zero_add]

/-- An offset that is counted through the rows before a row leads into that row. -/
theorem locate_row (rows : List (List Char)) {n column : Nat} (hn : n < rows.length)
    (hcolumn : column < rows[n].length) :
    locate rows ((rows.take n).flatten.length + column) = (rows[n], column) := by
  induction rows generalizing n with
  | nil => cases hn
  | cons row rows ih =>
      cases n with
      | zero =>
          have hinside : column < row.length := hcolumn
          simp [locate, hinside]
      | succ n =>
          have hrows : n < rows.length := Nat.lt_of_succ_lt_succ hn
          have hrest : rows ≠ [] := List.ne_nil_of_length_pos (by omega)
          simp only [List.take_succ_cons, List.flatten_cons, List.length_append,
            List.getElem_cons_succ] at hcolumn ⊢
          rw [locate, if_neg (by simp [hrest]; omega), ← ih hrows hcolumn]
          congr 1
          omega

theorem offset_le (text : List Char) (span : Span) : offset text span ≤ text.length - 1 :=
  Nat.min_le_right _ _

/-! ### What is drawn -/

/-- A picture of a line with a mark from a column on, in two rows. The first shows the number of the line
at the right of six columns, behind at least one blank, a bar, and the line up to its last character that
is not blank. The second has blanks below the margin and below the columns before the mark, where tabs are
kept, then carets, and the caption. -/
structure Drawn (row : List Char) (number column : Nat) (width : Int) (caption : String)
    (picture front shown trailing under : List Char) (carets : Nat) : Prop where
  picture_eq : picture = front ++ shown ++ '\n' :: (List.replicate front.length ' ' ++ under ++
    List.replicate carets '^' ++ ' ' :: caption.toList)
  front_eq : front = List.replicate (max 1 (6 - (Nat.toDigits 10 number).length)) ' ' ++
    Nat.toDigits 10 number ++ [' ', '|']
  row_eq : row = shown ++ trailing
  trailing_blank : ∀ c ∈ trailing, Text.isBlank c = true
  shown_ends : ∀ c ∈ shown.getLast?, Text.isBlank c = false
  under_length : under.length = column
  under_eq : ∀ k < column, under[k]? = row[k]?.map fun c => if c = '\t' then '\t' else ' '
  carets_eq : carets = max 1 (min width.toNat (row.length - column))

theorem margin_eq (number : Nat) :
    margin number = List.replicate (max 1 (6 - (Nat.toDigits 10 number).length)) ' ' ++
      Nat.toDigits 10 number ++ [' ', '|'] := by
  have hdigits : (Decimal.intText number).toList = Nat.toDigits 10 number := by
    have hsign : ¬ ((number : Int) < 0) := by omega
    simp [Decimal.intText, Decimal.signed, hsign]
  have hpad : max 1 (6 - (Nat.toDigits 10 number).length) =
      6 - ((Nat.toDigits 10 number).length + 1) + 1 := by omega
  rw [margin, hdigits, hpad, List.replicate_succ']
  simp

theorem stripEnd_append (row : List Char) :
    row = Text.stripEnd row ++ (row.reverse.takeWhile Text.isBlank).reverse := by
  rw [Text.stripEnd, ← List.reverse_append, List.takeWhile_append_dropWhile, List.reverse_reverse]

theorem isBlank_of_mem_getLast?_stripEnd {row : List Char} :
    ∀ c ∈ (Text.stripEnd row).getLast?, Text.isBlank c = false := by
  intro c hc
  have hhead := List.head?_dropWhile_not Text.isBlank row.reverse
  rw [Text.stripEnd, List.getLast?_reverse, Option.mem_def] at hc
  rw [hc] at hhead
  exact hhead

theorem picture_drawn {row : List Char} {column : Nat} (hcolumn : column ≤ row.length) (width : Int)
    (number : Nat) (caption : String) :
    ∃ front shown trailing under carets, Drawn row number column width caption
      (picture row column width number caption).toList front shown trailing under carets := by
  refine ⟨margin number, Text.stripEnd row, (row.reverse.takeWhile Text.isBlank).reverse,
    blanksUnder (row.take column), max 1 (min width.toNat (row.length - column)), ?_⟩
  exact {
    picture_eq := by simp [picture]
    front_eq := margin_eq number
    row_eq := stripEnd_append row
    trailing_blank := by
      intro c hc
      have hall := List.all_takeWhile (p := Text.isBlank) (l := row.reverse)
      exact List.all_eq_true.mp hall c (List.mem_reverse.mp hc)
    shown_ends := isBlank_of_mem_getLast?_stripEnd
    under_length := by simp [blanksUnder, hcolumn]
    under_eq := by
      intro k hk
      simp [blanksUnder, hk]
    carets_eq := rfl }

end Illustration

/-- Where the line feed is the only line break that occurs, lines are the pieces between line feeds, and
rows are the same. -/
theorem Text.lined_lines {text : List Char} (h : ∀ c ∈ text, isLineBreak c = true → c = '\n') :
    Lined (lines text) ∧ rows text = lines text := by
  have hreturn : '\r' ∉ text := fun hc => absurd (h '\r' hc (by decide)) (by decide)
  have hline : ∀ c ∈ text, isLineBreak c = true ↔ c = '\n' := by
    refine fun c hc => ⟨h c hc, ?_⟩
    rintro rfl
    decide
  refine ⟨lined_cutAfter hline hreturn, cutAfter_congr fun c hc => ?_⟩
  have hne : c ≠ '\r' := fun heq => hreturn (heq ▸ hc)
  rw [Bool.eq_iff_iff, hline c hc]
  simp [isRowBreak, hne]

/-- **Illustrations show the line that they name.** Let the line feed be the only line break that occurs
in a text, and let an issue start on one of the lines of the text and in one of the columns of that line,
its line feed counted. Then the offset of the issue is the one of that line and column, and leads back to
them: the row that is drawn is the line of that number, which stands in the margin, and the first column
to be marked is the one before which there are as many as the issue says. In every text, the offset of a
known span lies inside the text. -/
theorem illustrate_shows_named_line :
    (∀ (text : List Char) (i : Issue), (∀ c ∈ text, Text.isLineBreak c = true → c = '\n') →
      1 ≤ i.span.startLine → i.span.startLine ≤ (Text.lines text).length →
      ∃ before line after, Text.LineAt text i.span.startLine before line after ∧
        (Text.rows text)[(i.span.startLine - 1).toNat]? = some line ∧
        (1 ≤ i.span.startColumn → i.span.startColumn ≤ line.length →
          (Illustration.offset text i.span : Int) = before.length + (i.span.startColumn - 1) ∧
          Illustration.locate (Text.rows text) (Illustration.offset text i.span) =
            (line, (i.span.startColumn - 1).toNat) ∧
          ∃ front shown trailing under carets,
            Illustration.Drawn line i.span.startLine.toNat (i.span.startColumn - 1).toNat i.span.width
              i.message (i.illustrate text).toList front shown trailing under carets)) ∧
    ∀ (text : List Char) (span : Span), span.isKnown = true →
      0 ≤ (Illustration.offset text span : Int) ∧
        (Illustration.offset text span : Int) ≤ max (text.length - 1) 0 := by
  refine ⟨fun text i hbreaks hfirst hlast => ?_, fun text span _ => ?_⟩
  · obtain ⟨hlined, hrows⟩ := Text.lined_lines hbreaks
    obtain ⟨n, hn⟩ : ∃ n : Nat, i.span.startLine = n + 1 := ⟨(i.span.startLine - 1).toNat, by omega⟩
    have hindex : (i.span.startLine - 1).toNat = n := by omega
    have hlines : n < (Text.lines text).length := by omega
    have hrow : (Text.rows text)[(i.span.startLine - 1).toNat]? = some (Text.lines text)[n] := by
      rw [hrows, hindex, List.getElem?_eq_getElem hlines]
    have hflatten : (Text.lines text).flatten = text := Text.flatten_cutAfter _ text
    have hlineAt := hlined.lineAt hlines
    rw [hflatten, ← hn] at hlineAt
    refine ⟨_, _, _, hlineAt, hrow, fun hcolumn hcolumn' => ?_⟩
    obtain ⟨c, hc⟩ : ∃ c : Nat, i.span.startColumn = c + 1 := ⟨(i.span.startColumn - 1).toNat, by omega⟩
    have hinside : c < (Text.lines text)[n].length := by omega
    have hoffset : Illustration.offset text i.span = ((Text.lines text).take n).flatten.length + c := by
      have hlength := congrArg List.length hlineAt.text_eq
      simp only [List.length_append] at hlength
      rw [Illustration.offset_eq, hindex]
      omega
    have hlocate : Illustration.locate (Text.rows text) (Illustration.offset text i.span) =
        ((Text.lines text)[n], (i.span.startColumn - 1).toNat) := by
      rw [hrows, hoffset, Illustration.locate_row _ hlines hinside, hc]
      simp
    have hknown : i.span.isKnown = true := decide_eq_true (by omega)
    have hnumber : i.span.startLine = (i.span.startLine.toNat : Int) := by omega
    have hpicture : i.illustrate text = Illustration.picture (Text.lines text)[n]
        (i.span.startColumn - 1).toNat i.span.width i.span.startLine.toNat i.message := by
      rw [Issue.illustrate, if_pos hknown, hlocate, ← hnumber]
    refine ⟨by omega, hlocate, ?_⟩
    rw [hpicture]
    exact Illustration.picture_drawn (by omega) _ _ _
  · have hle := Illustration.offset_le text span
    omega

/-- The third of three lines has no line feed; the mark stands under its second column. -/
theorem illustrate_shows_named_line_last :
    let text : List Char := ['a', '\n', '\n', 'b', 'c']
    let i : Issue := { span := ⟨3, 2, 3, 3⟩, message := "here" }
    (∀ c ∈ text, Text.isLineBreak c = true → c = '\n') ∧ i.span.startLine ≤ (Text.lines text).length ∧
      i.illustrate text = "     3 |bc\n         ^ here" ∧
      ∃ front shown trailing under carets,
        Illustration.Drawn ['b', 'c'] 3 1 1 "here" (i.illustrate text).toList front shown trailing under
          carets := by
  intro text i
  have hbreaks : ∀ c ∈ text, Text.isLineBreak c = true → c = '\n' := by
    simp only [text, List.forall_mem_cons]
    exact ⟨by decide, fun _ => trivial, fun _ => trivial, by decide, by decide, List.forall_mem_nil _⟩
  have hlast : i.span.startLine ≤ (Text.lines text).length := by decide
  obtain ⟨before, line, after, -, hrow, hshown⟩ :=
    illustrate_shows_named_line.1 text i hbreaks (by decide) hlast
  obtain rfl : ['b', 'c'] = line := Option.some.inj hrow
  obtain ⟨-, -, hdrawn⟩ := hshown (by decide) (by decide)
  exact ⟨hbreaks, hlast, by decide +kernel, hdrawn⟩

end ArrayExpr
