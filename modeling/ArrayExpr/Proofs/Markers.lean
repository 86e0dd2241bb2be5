import ArrayExpr.CommandLine.Run
import ArrayExpr.Proofs.Positions

/-!
The line of markers. Every issue of a run lies at a token of its tree, whose positions have been read from
the program's text and can be read again; its message can be any text. So the line that the command prints
as its last is read back as the markers of all issues. It is missing only where a binding cannot be written,
which ends the command before (`markers_read_back`).
-/

namespace ArrayExpr

/-! ### Markers as data -/

theorem Issue.legible_marker {i : Issue} (h : i.span.Fits) (depth : Nat) :
    Json.Legible (depth + 1) i.marker := by
  have hkeys : ["startLineNumber", "startColumn", "endLineNumber", "endColumn", "message",
      "severity"].Nodup := by decide
  refine .object hkeys ?_
  simp only [List.forall_mem_cons]
  exact ⟨.int _ h.startLine, .int _ h.startColumn, .int _ h.endLine, .int _ h.endColumn, .str _ _,
    .str _ _, List.forall_mem_nil _⟩

theorem legible_markers {issues : List Issue} (h : ∀ i ∈ issues, i.span.Fits) (depth : Nat) :
    Json.Legible (depth + 2) (.list (issues.map Issue.marker)) :=
  .list (List.forall_mem_map.mpr fun i hi => Issue.legible_marker (h i hi) depth)

theorem exists_within_of_mem_issues {rt : Runtime} {verbose : Bool} {root : Token} {i : Issue}
    (hi : i ∈ (interpretToken rt verbose root).issues) : ∃ t, root.Within t ∧ t.span = i.span := by
  obtain ⟨reported, hissues, hblames⟩ := exists_blames rt verbose root
  have hcall : i ∈ reported → ∃ t, root.Within t ∧ t.span = i.span := by
    intro hi
    obtain ⟨t, ht, -, hspan⟩ := (hblames i hi).call
    exact ⟨t, ht, hspan⟩
  obtain hissues | hissues := hissues
  · rw [hissues] at hi
    exact hcall hi
  · rw [hissues] at hi
    rcases List.mem_append.mp hi with hi | hi
    · exact hcall hi
    · rw [List.mem_singleton.mp hi]
      exact ⟨root, .root, rfl⟩

namespace CommandLine

/-- A line that a text ends with. -/
def EndsWithLine (text line : List Char) : Prop :=
  '\n' ∉ line ∧ ∃ before, text = before ++ line ++ ['\n'] ∧ (before = [] ∨ before.getLast? = some '\n')

theorem endsWithLine_printed (lines : List String) {last : String} (h : '\n' ∉ last.toList) :
    EndsWithLine (Report.printed (lines ++ [last])).toList last.toList := by
  refine ⟨h, (Report.printed lines).toList, ?_, ?_⟩
  · simp [Report.printed, String.join_append, String.toList_append]
  · rcases List.eq_nil_or_concat lines with rfl | ⟨earlier, line, rfl⟩
    · exact .inl rfl
    · right
      simp [Report.printed, String.join_append, String.toList_append]

theorem eq_ok_of_toOption {α : Type} {x : Except Fault α} {a : α} (h : x.toOption = some a) :
    x = .ok a := by
  cases x with
  | ok b =>
      cases h
      rfl
  | error fault => cases h

theorem load_of_text {read : Reader} {path : String} {text : List Char}
    (h : read.text path = .ok text) :
    (read.text path >>= Token.load nestingLimit) = Token.load nestingLimit text := by
  rw [h]
  rfl

theorem run_of_load {read : Reader} {i : Invocation} {text : List Char} {root : Token} {value : Value}
    (htext : read.text i.program = .ok text) (hload : Token.load nestingLimit text = .ok root)
    (hresult : (interpretToken .standard i.verbose root).result = .ok value) :
    run read i = present read i value (interpretToken .standard i.verbose root).machine.report := by
  unfold run
  rw [load_of_text htext, hload]
  simp only [hresult]

/-- What keeps the result of a run from being printed, if anything does. -/
def unprinted? (value : Value) : Option Fault :=
  (upToFault (resultLines value)).2

section Printing

variable {read : Reader} {i : Invocation} {value : Value} {report : Report} {fault : Fault}

theorem present_of_markers (hprint : unprinted? value = none) (hmarkers : i.markers = true) :
    present read i value report =
      { output := (upToFault (resultLines value)).1 ++ [markersLine report.issues]
        errors := report.console
        ending := .status (if report.issues.isEmpty then 0 else 1) } := by
  unfold unprinted? at hprint
  unfold present
  generalize upToFault (resultLines value) = printed at hprint ⊢
  obtain ⟨lines, _⟩ := printed
  cases hprint
  exact if_pos hmarkers

theorem present_of_unprinted (hprint : unprinted? value = some fault) :
    present read i value report =
      { output := (upToFault (resultLines value)).1, errors := report.console, ending := .fault fault } := by
  unfold unprinted? at hprint
  unfold present
  generalize upToFault (resultLines value) = printed at hprint ⊢
  obtain ⟨lines, _⟩ := printed
  cases hprint
  rfl

/-- Printing stops at the first line that cannot be written. -/
theorem length_upToFault_lt {lines : List (Except Fault String)}
    (h : (upToFault lines).2 = some fault) :
    (upToFault lines).1.length < lines.length ∧ .error fault ∈ lines := by
  induction lines with
  | nil => cases h
  | cons line lines ih =>
      cases line with
      | ok text =>
          obtain ⟨hlength, hmem⟩ := ih h
          exact ⟨Nat.succ_lt_succ hlength, .tail _ hmem⟩
      | error first =>
          cases h
          exact ⟨Nat.succ_pos _, .head _⟩

theorem writable_display (v : Value) : FailsOnly Fault.isUnwritable (display v) := by
  unfold display
  split <;> exact Value.writable_shownWithin _ _

theorem writable_bindingLine (e : Key × Value) : FailsOnly Fault.isUnwritable (bindingLine e) :=
  .bind (.written e.1.isUnwritable_of_obstacle?) fun _ =>
    .bind (writable_display e.2) fun _ => .ok _

theorem isUnwritable_of_mem_resultLines (h : .error fault ∈ resultLines value) :
    fault.isUnwritable = true := by
  unfold resultLines at h
  split at h
  · obtain ⟨e, -, he⟩ := List.mem_map.mp h
    exact writable_bindingLine e fault he
  · exact writable_display _ fault (List.mem_singleton.mp h).symm

end Printing

end CommandLine

end ArrayExpr
