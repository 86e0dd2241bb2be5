import ArrayExpr.Proofs.Evaluation

/-!
A report is only appended to. Whatever is evaluated or called, and however that ends, the issues, the
warnings and the console text that were there before stand at the start of those that are there
afterwards.
-/

namespace ArrayExpr

/-- A report with what another one has to say after it. -/
instance : Append Report where
  append r added :=
    { r with
      issues := r.issues ++ added.issues
      warnings := r.warnings ++ added.warnings
      console := r.console ++ added.console }

namespace Report

theorem append_def (r added : Report) :
    r ++ added =
      { r with
        issues := r.issues ++ added.issues
        warnings := r.warnings ++ added.warnings
        console := r.console ++ added.console } :=
  rfl

theorem append_empty (r : Report) (verbose : Bool) : r ++ { verbose : Report } = r := by
  simp only [append_def, List.append_nil]

theorem append_assoc (r s t : Report) : r ++ s ++ t = r ++ (s ++ t) := by
  simp only [append_def, List.append_assoc]

theorem issue_append (r added : Report) (span : Span) (text : String) :
    (r ++ added).issue span text = r ++ added.issue span text := by
  simp only [append_def, issue, List.append_assoc]

theorem warn_append (r added : Report) (h : added.verbose = r.verbose) (text : String)
    (details : List String) : (r ++ added).warn text details = r ++ added.warn text details := by
  simp only [append_def, warn, List.append_assoc, h]

/-- A report to which something was appended. -/
def Precedes (r r' : Report) : Prop :=
  ∃ added : Report, r' = r ++ added

namespace Precedes

variable {r r' r'' : Report}

theorem refl (r : Report) : r.Precedes r :=
  ⟨{}, (append_empty r false).symm⟩

theorem trans (h : r.Precedes r') (h' : r'.Precedes r'') : r.Precedes r'' := by
  obtain ⟨added, rfl⟩ := h
  obtain ⟨added', rfl⟩ := h'
  exact ⟨added ++ added', append_assoc r added added'⟩

theorem issue (r : Report) (span : Span) (text : String) : r.Precedes (r.issue span text) := by
  refine ⟨Report.issue {} span text, ?_⟩
  rw [← issue_append, append_empty]

theorem warn (r : Report) (text : String) (details : List String) :
    r.Precedes (r.warn text details) := by
  refine ⟨Report.warn { verbose := r.verbose } text details, ?_⟩
  rw [← warn_append r { verbose := r.verbose } rfl, append_empty]

theorem verbose (h : r.Precedes r') : r'.verbose = r.verbose := by
  obtain ⟨added, rfl⟩ := h
  rfl

theorem issues (h : r.Precedes r') : r.issues <+: r'.issues := by
  obtain ⟨added, rfl⟩ := h
  exact List.prefix_append _ _

theorem warnings (h : r.Precedes r') : r.warnings <+: r'.warnings := by
  obtain ⟨added, rfl⟩ := h
  exact List.prefix_append _ _

end Precedes

end Report

def appending : Contract :=
  .ofChange fun _ a b => a.machine.report.Precedes b.machine.report

theorem appending_admits (rt : Runtime) : appending.Admits rt := by
  refine Contract.ofChange_admits ?_ (fun _ _ => .refl _) (fun _ _ _ => .refl _)
    (fun _ _ => .refl _) rt
  exact
    { refl := fun _ _ => .refl _
      trans := fun h h' => h.trans h'
      widen := fun h => h
      opened := fun h => h
      bound := fun _ _ _ _ => .refl _
      marked := fun _ _ => .refl _
      warned := fun m text details => .warn m.report text details
      raised := fun _ _ => .refl _
      caught := fun m t fault _ _ => .issue m.report t.span fault.report }

variable (rt : Runtime) (depth : Nat) (m : Machine)

theorem evaluate_precedes (token : Token) (scope : Nat) :
    m.report.Precedes ((evaluate rt depth token scope).run m).2.report :=
  ((Contract.keeps (appending_admits rt) depth).1 token scope m trivial fun _ _ _ _ => trivial).1

theorem call_precedes (f : Value) (arguments : List Value) :
    m.report.Precedes ((call rt depth f arguments).run m).2.report :=
  ((Contract.keeps (appending_admits rt) depth).2 m f arguments trivial (fun _ _ => trivial)
    fun _ _ _ _ => trivial).1

end ArrayExpr
