import ArrayExpr.Proofs.Endurance
import ArrayExpr.Proofs.FirstDefect
import ArrayExpr.Proofs.Markers

/-!
How the command ends on the text of a program. A text passes through four stages: it is read as JSON, the
data is read as a token tree, the tree is run, and the result is printed. At the first two stages the
command catches what says that the text is no program, and reports it. Every other fault leaves the
command, and at each stage there are some (`status_iff_nothing_escapes`): numbers and nesting beyond the
limits of the reader, complaints that nest too deep to be written, defects that are no malformed tokens,
trees that are not orderly, and values that cannot be printed.
-/

namespace ArrayExpr.CommandLine

/-- Plain data that is read as a token tree, or not, without meeting a limit. -/
def WithinLimits (j : Json) : Prop :=
  ∀ fault, Token.decode nestingLimit j = .error fault → fault.isLimit = false

/-- The faults by which a text is reported to be no program: it is no JSON, or the first defect of its
data makes it malformed. -/
inductive Unreadable (text : List Char) : Fault → Prop where
  | defect {reason : Json.Defect} {rest : List Char} : Json.read text = .error (.defect reason rest) →
      Unreadable text (.badJson reason (Json.placeOf text rest))
  | malformed {j : Json} {d : Token.Defect} {more : List Token.Defect} : Json.read text = .ok j →
      WithinLimits j → Token.defects j = d :: more → (∀ fault, ¬d.Leaks fault) →
      Unreadable text d.fault

/-- The faults that leave the command, stage by stage. -/
inductive Escapes (text : List Char) (verbose : Bool) : Fault → Prop where
  | digits {count : Nat} : Json.read text = .error (.digits count) →
      Escapes text verbose (.tooManyDigits count)
  | depth : Json.read text = .error .depth → Escapes text verbose .tooDeep
  | limit {j : Json} {fault : Fault} : Json.read text = .ok j → j.Exceeds nestingLimit fault →
      Token.decode nestingLimit j = .error fault → Escapes text verbose fault
  | leak {j : Json} {d : Token.Defect} {more : List Token.Defect} {fault : Fault} :
      Json.read text = .ok j → WithinLimits j → Token.defects j = d :: more → d.Leaks fault →
      Escapes text verbose fault
  | running {root : Token} {fault : Fault} : Token.load nestingLimit text = .ok root →
      root.orderly = false ∨ fault = .longNumeral →
      (interpretToken .standard verbose root).result = .error fault → Escapes text verbose fault
  | printing {root : Token} {value : Value} {fault : Fault} : Token.load nestingLimit text = .ok root →
      (interpretToken .standard verbose root).result = .ok value → unprinted? value = some fault →
      Escapes text verbose fault

def complaint (path : String) (fault : Fault) : Transcript where
  errors := ["Something went pear-shaped while trying to read " ++ path ++ ": " ++ fault.message]
  ending := .status 1

section Stages

variable {text : List Char} {verbose : Bool} {fault : Fault}

/-! ### Loading -/

theorem load_of_read {j : Json} (h : Json.read text = .ok j) :
    Token.load nestingLimit text = Token.decode nestingLimit j := by
  rw [Token.load, Token.readJson, h]
  rfl

/-- Data that is no token tree is at fault by its first defect. -/
theorem decode_eq_error_iff {j : Json} (hlimit : WithinLimits j) :
    Token.decode nestingLimit j = .error fault ↔
      ((Token.defects j).map Token.Defect.fault).head? = some fault := by
  refine (Token.decode_reports nestingLimit j).eq_error_iff (fun fault h hexceeds => ?_) fault
  have hfault := hexceeds.isLimit
  rw [hlimit fault h] at hfault
  cases hfault

theorem decode_of_defects {j : Json} {d : Token.Defect} {more : List Token.Defect}
    (hlimit : WithinLimits j) (hdefects : Token.defects j = d :: more) :
    Token.decode nestingLimit j = .error d.fault := by
  rw [decode_eq_error_iff hlimit, hdefects]
  rfl

theorem isUnreadable_of_className {d : Token.Defect} (h : d.fault.className = "MalformedToken") :
    isUnreadable d.fault = true := by
  obtain ⟨subject, flaw⟩ := d
  cases flaw with
  | untagged | location | missing => rfl
  | locationEnd key =>
      cases hinfinite : Token.Defect.hasInfiniteEnd ⟨subject, .locationEnd key⟩ key with
      | true => simp [Token.Defect.fault, hinfinite, Fault.className] at h
      | false => simp [Token.Defect.fault, hinfinite, isUnreadable]
  | type | notIterable => simp [Token.Defect.fault, Fault.className] at h

theorem isUnreadable_of_not_leaks {j : Json} {d : Token.Defect} {more : List Token.Defect}
    (hdefects : Token.defects j = d :: more) (hleaks : ∀ fault, ¬d.Leaks fault) :
    isUnreadable d.fault = true := by
  have hmem : d ∈ Token.defects j := by
    rw [hdefects]
    exact List.mem_cons_self
  obtain ⟨-, hflawed⟩ := Token.foundIn_of_mem_defects hmem
  rcases Token.malformed_or_leaks hflawed with hmalformed | hleak
  · exact isUnreadable_of_className hmalformed
  · exact absurd hleak (hleaks _)

theorem Unreadable.load (h : Unreadable text fault) :
    Token.load nestingLimit text = .error fault ∧ isUnreadable fault = true := by
  cases h with
  | defect hread =>
      rw [Token.load, Token.readJson, hread]
      exact ⟨rfl, rfl⟩
  | malformed hread hlimit hdefects hleaks =>
      rw [load_of_read hread, decode_of_defects hlimit hdefects]
      exact ⟨rfl, isUnreadable_of_not_leaks hdefects hleaks⟩

/-- A text that cannot be loaded is reported, or its fault leaves the command. -/
theorem unreadable_or_escapes (hwhole : Json.read text ≠ .error .half)
    (h : Token.load nestingLimit text = .error fault) :
    Unreadable text fault ∨ Escapes text verbose fault := by
  cases hread : Json.read text with
  | error stop =>
      rw [Token.load, Token.readJson, hread] at h
      cases stop with
      | defect reason rest =>
          cases h
          exact .inl (.defect hread)
      | digits count =>
          cases h
          exact .inr (.digits hread)
      | depth =>
          cases h
          exact .inr (.depth hread)
      | half => exact absurd hread hwhole
  | ok j =>
      rw [load_of_read hread] at h
      cases hlimit : fault.isLimit with
      | true => exact .inr (.limit hread ((Token.decode_judged _ j).limit_of_isLimit h hlimit) h)
      | false =>
          have hwithin : WithinLimits j := by
            intro other hother
            rwa [← Except.error.inj (h.symm.trans hother)]
          have hfirst := (decode_eq_error_iff hwithin).mp h
          cases hdefects : Token.defects j with
          | nil =>
              rw [hdefects] at hfirst
              cases hfirst
          | cons d more =>
              rw [hdefects] at hfirst
              cases hfirst
              by_cases hleaks : ∃ fault, d.Leaks fault
              · obtain ⟨fault, hleak⟩ := hleaks
                rw [hleak.fault_eq]
                exact .inr (.leak hread hwithin hdefects hleak)
              · refine .inl (.malformed hread hwithin hdefects fun fault hleak => ?_)
                exact hleaks ⟨fault, hleak⟩

/-! ### Running -/

/-- Of an orderly tree only a number that is too long comes out, met in the text of a name. -/
theorem eq_longNumeral_of_orderly (rt : Runtime) {root : Token} (h : root.orderly = true)
    (hresult : (interpretToken rt verbose root).result = .error fault) : fault = .longNumeral := by
  have hends := (evaluate_visits rt nestingLimit root 0 h (.initial verbose)).ok_or_stops
  unfold interpretToken at hresult
  split at hresult
  · cases hresult
  · rename_i other m hrun
    rw [Machine.initial, hrun] at hends
    split at hresult
    · cases hresult
    · rename_i hlimit
      cases hresult
      obtain ⟨v, hv, -⟩ | ⟨_, ⟨⟩, ⟨rfl, -⟩ | ⟨htext, -⟩⟩ := hends
      · cases hv
      · exact absurd rfl hlimit
      · cases fault with
        | deepText => exact absurd rfl hlimit
        | longNumeral => rfl
        | _ => cases htext

end Stages

/-! ### Printing -/

section Endings

variable {read : Reader} {i : Invocation} {text : List Char}

theorem ending_present {value : Value} {report : Report} (hprint : unprinted? value = none)
    (hsource : i.source? = none) :
    (present read i value report).ending = .status (if report.issues.isEmpty then 0 else 1) := by
  have hnone : sourceText? read i = .ok none := by simp only [sourceText?, hsource]
  unfold unprinted? at hprint
  unfold present
  generalize upToFault (resultLines value) = printed at hprint ⊢
  obtain ⟨lines, _⟩ := printed
  cases hprint
  rw [hnone]
  dsimp only
  split
  · rfl
  · split <;> rfl

/-! ### From the text to the end -/

theorem run_of_load_eq_error {fault : Fault} (htext : read.text i.program = .ok text)
    (hload : Token.load nestingLimit text = .error fault) : run read i = refuse i.program fault := by
  unfold run
  rw [load_of_text htext, hload]

theorem ending_run_of_fault {root : Token} {fault : Fault} (htext : read.text i.program = .ok text)
    (hload : Token.load nestingLimit text = .ok root)
    (hresult : (interpretToken .standard i.verbose root).result = .error fault) :
    (run read i).ending = .fault fault := by
  unfold run
  rw [load_of_text htext, hload]
  simp only [hresult]

theorem refuse_of_isUnreadable {fault : Fault} (h : isUnreadable fault = true) (path : String) :
    refuse path fault = complaint path fault := by
  unfold refuse
  split
  · cases h
  · rw [if_pos h]
    rfl

theorem Unreadable.run_eq {fault : Fault} (h : Unreadable text fault)
    (htext : read.text i.program = .ok text) : run read i = complaint i.program fault := by
  obtain ⟨hload, hunreadable⟩ := h.load
  rw [run_of_load_eq_error htext hload, refuse_of_isUnreadable hunreadable]

theorem Escapes.ending_run {fault : Fault} (h : Escapes text i.verbose fault)
    (htext : read.text i.program = .ok text) : (run read i).ending = .fault fault := by
  cases h with
  | @digits count hread =>
      have hload : Token.load nestingLimit text = .error (.tooManyDigits count) := by
        rw [Token.load, Token.readJson, hread]
        rfl
      rw [run_of_load_eq_error htext hload]
      rfl
  | depth hread =>
      have hload : Token.load nestingLimit text = .error .tooDeep := by
        rw [Token.load, Token.readJson, hread]
        rfl
      rw [run_of_load_eq_error htext hload]
      rfl
  | limit hread hexceeds hdecode =>
      rw [run_of_load_eq_error htext ((load_of_read hread).trans hdecode)]
      cases hexceeds <;> rfl
  | leak hread hlimit hdefects hleak =>
      have hdecode := decode_of_defects hlimit hdefects
      rw [hleak.fault_eq] at hdecode
      rw [run_of_load_eq_error htext ((load_of_read hread).trans hdecode)]
      cases hleak <;> rfl
  | running hload _ hresult => exact ending_run_of_fault htext hload hresult
  | printing hload hresult hprint =>
      rw [run_of_load htext hload hresult, present_of_unprinted hprint]

/-- A text of which no fault escapes is reported to be no program, or its program is run and the status
tells whether there are issues. -/
inductive Answered (path : String) (verbose : Bool) (text : List Char) (t : Transcript) : Prop where
  | reported {fault : Fault} : Unreadable text fault → t = complaint path fault →
      Answered path verbose text t
  | printed {root : Token} {value : Value} : Token.load nestingLimit text = .ok root →
      (interpretToken .standard verbose root).result = .ok value → unprinted? value = none →
      t.ending = .status (if (interpretToken .standard verbose root).issues.isEmpty then 0 else 1) →
      Answered path verbose text t

theorem answered_or_escapes (htext : read.text i.program = .ok text)
    (hwhole : Json.read text ≠ .error .half) (hsource : i.source? = none) :
    Answered i.program i.verbose text (run read i) ∨ ∃ fault, Escapes text i.verbose fault := by
  cases hload : Token.load nestingLimit text with
  | error fault =>
      rcases unreadable_or_escapes hwhole hload with hunreadable | hescapes
      · exact .inl (.reported hunreadable (hunreadable.run_eq htext))
      · exact .inr ⟨fault, hescapes⟩
  | ok root =>
      cases hresult : (interpretToken .standard i.verbose root).result with
      | error fault =>
          refine .inr ⟨fault, .running hload ?_ hresult⟩
          cases horderly : root.orderly with
          | true => exact .inr (eq_longNumeral_of_orderly .standard horderly hresult)
          | false => exact .inl rfl
      | ok value =>
          cases hprint : unprinted? value with
          | some fault => exact .inr ⟨fault, .printing hload hresult hprint⟩
          | none =>
              refine .inl (.printed hload hresult hprint ?_)
              rw [run_of_load htext hload hresult, ending_present hprint hsource]
              rfl

theorem Answered.exists_status {path : String} {verbose : Bool} {t : Transcript}
    (h : Answered path verbose text t) : t.ending = .status 0 ∨ t.ending = .status 1 := by
  cases h with
  | reported _ ht =>
      right
      rw [ht]
      rfl
  | @printed root _ _ _ _ hending =>
      rw [hending]
      split
      · exact .inl rfl
      · exact .inr rfl

end Endings

end ArrayExpr.CommandLine
