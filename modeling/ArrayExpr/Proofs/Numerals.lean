import ArrayExpr.Token.Location
import Mathlib.Data.List.TakeWhile

/-!
What stands for a whole number. A numeral is a text of figures with an optional sign before them and
white space around; figures are digits of any script, with at most one underscore between two of them.
Beside numerals, the numbers that are neither infinite nor undefined and the truth values stand for a
whole number, and no other plain data does (`Json.toWhole_ok_iff`).
-/

namespace ArrayExpr

namespace Numeral

def isDigit (c : Char) : Bool :=
  (Text.digitValue? c).isSome

/-- Decimal digits, with at most one underscore between two of them. -/
inductive Figures : List Char → Prop where
  | last {c : Char} : isDigit c = true → Figures [c]
  | next {c : Char} {cs : List Char} : isDigit c = true → Figures cs → Figures (c :: cs)
  | spaced {c : Char} {cs : List Char} : isDigit c = true → Figures cs → Figures (c :: '_' :: cs)

/-- A whole number as a text. There is a limit to the number of its digits. -/
inductive Written : List Char → Prop where
  | intro {before sign figures after : List Char} : (∀ c ∈ before, Text.isMargin c = true) →
      sign ∈ [[], ['+'], ['-']] → Figures figures → (digits figures).length ≤ Json.digitLimit →
      (∀ c ∈ after, Text.isMargin c = true) → Written (before ++ (sign ++ (figures ++ after)))

/-! ### Characters -/

theorem isFigure_iff {c : Char} : isFigure c = true ↔ c = '_' ∨ isDigit c = true := by
  simp [isFigure, isDigit]

/-- No digit is white space. -/
theorem isMargin_of_isDigit {c : Char} (h : isDigit c = true) : Text.isMargin c = false := by
  obtain ⟨z, hz⟩ : ∃ z, Text.zeroDigits.find? (fun z => z ≤ c.toNat && c.toNat < z + 10) = some z := by
    simpa [isDigit, Text.digitValue?, Option.isSome_iff_exists] using h
  have hrange := List.find?_some hz
  simp only [Bool.and_eq_true, decide_eq_true_eq] at hrange
  -- The digits of a script are ten characters from its zero on, and none of them is a blank.
  have hdigits : ∀ z ∈ Text.zeroDigits, ∀ k < 10,
      ((9 ≤ z + k && z + k ≤ 13) || (28 ≤ z + k && z + k ≤ 32) || z + k == 0x85 || z + k == 0xa0 ||
        z + k == 0x1680 || (0x2000 ≤ z + k && z + k ≤ 0x200a) || z + k == 0x2028 || z + k == 0x2029 ||
        z + k == 0x202f || z + k == 0x205f || z + k == 0x3000) = false := by
    decide +kernel
  have hblank := hdigits z (List.mem_of_find?_eq_some hz) (c.toNat - z) (by omega)
  rw [Nat.add_sub_cancel' hrange.1] at hblank
  simp only [Text.isMargin, Text.isBlank, hblank, Bool.false_and]

theorem isFigure_of_isMargin {c : Char} (h : Text.isMargin c = true) : isFigure c = false := by
  rw [Bool.eq_false_iff, ne_eq, isFigure_iff]
  rintro (rfl | hdigit)
  · exact absurd h (by decide)
  · rw [isMargin_of_isDigit hdigit] at h
    cases h

theorem ne_of_isDigit {c d : Char} (h : isDigit c = true) (hd : isDigit d = false) : c ≠ d := by
  rintro rfl
  rw [h] at hd
  cases hd

/-! ### Figures -/

theorem Figures.isFigure {cs : List Char} (h : Figures cs) : ∀ c ∈ cs, isFigure c = true := by
  induction h with
  | last hc => simpa [isFigure_iff] using .inr hc
  | next hc _ ih => exact List.forall_mem_cons.mpr ⟨isFigure_iff.mpr (.inr hc), ih⟩
  | spaced hc _ ih =>
      refine List.forall_mem_cons.mpr ⟨isFigure_iff.mpr (.inr hc), ?_⟩
      exact List.forall_mem_cons.mpr ⟨isFigure_iff.mpr (.inl rfl), ih⟩

/-- Figures start with a digit. -/
theorem Figures.exists_cons {cs : List Char} (h : Figures cs) :
    ∃ c rest, cs = c :: rest ∧ isDigit c = true := by
  cases h with
  | last hc | next hc _ | spaced hc _ => exact ⟨_, _, rfl, hc⟩

theorem Figures.wellSpaced {cs : List Char} (h : Figures cs) (free : Bool) :
    wellSpaced free cs = true := by
  have hunderscore : isDigit '_' = false := by decide +kernel
  induction h generalizing free with
  | last hc => simp [Numeral.wellSpaced, ne_of_isDigit hc hunderscore]
  | next hc _ ih => simp [Numeral.wellSpaced, ne_of_isDigit hc hunderscore, ih]
  | spaced hc _ ih => simp [Numeral.wellSpaced, ne_of_isDigit hc hunderscore, ih]

/-- Where an underscore may come next there may be an underscore with figures behind it, figures, or
nothing more. -/
theorem figures_of_wellSpaced {cs : List Char} (hall : ∀ c ∈ cs, isFigure c = true) :
    (wellSpaced false cs = true → Figures cs) ∧
      (wellSpaced true cs = true →
        cs = [] ∨ Figures cs ∨ ∃ rest, cs = '_' :: rest ∧ Figures rest) := by
  induction cs with
  | nil => exact ⟨nofun, fun _ => .inl rfl⟩
  | cons c cs ih =>
      obtain ⟨hc, hcs⟩ := List.forall_mem_cons.mp hall
      obtain ⟨ihFalse, ihTrue⟩ := ih hcs
      rcases isFigure_iff.mp hc with rfl | hdigit
      · exact ⟨nofun, fun h => .inr (.inr ⟨cs, rfl, ihFalse (by simpa [wellSpaced] using h)⟩)⟩
      · have hne : c ≠ '_' := ne_of_isDigit hdigit (by decide +kernel)
        have hfigures : wellSpaced true cs = true → Figures (c :: cs) := by
          intro h
          rcases ihTrue h with rfl | hrest | ⟨rest, rfl, hrest⟩
          · exact .last hdigit
          · exact .next hdigit hrest
          · exact .spaced hdigit hrest
        simp only [wellSpaced, beq_iff_eq, hne, if_false]
        exact ⟨hfigures, fun h => .inr (.inl (hfigures h))⟩

/-! ### Numerals -/

/-- A sign is split off, if there is one. -/
theorem exists_sign (cs : List Char) : ∃ s ∈ [[], ['+'], ['-']], cs = s ++ (sign cs).2 := by
  unfold sign
  split
  · exact ⟨['-'], by simp, rfl⟩
  · exact ⟨['+'], by simp, rfl⟩
  · exact ⟨[], by simp, rfl⟩

theorem sign_append {s cs : List Char} (hs : s ∈ [[], ['+'], ['-']]) {c : Char}
    (hc : isDigit c = true) : (sign (s ++ c :: cs)).2 = c :: cs := by
  have hminus : c ≠ '-' := ne_of_isDigit hc (by decide +kernel)
  have hplus : c ≠ '+' := ne_of_isDigit hc (by decide +kernel)
  simp only [List.mem_cons, List.not_mem_nil, or_false] at hs
  rcases hs with rfl | rfl | rfl
  · simp [sign, hminus, hplus]
  · rfl
  · rfl

theorem dropWhile_isMargin {before cs : List Char} (hbefore : ∀ c ∈ before, Text.isMargin c = true)
    {c : Char} (hc : Text.isMargin c = false) :
    (before ++ c :: cs).dropWhile Text.isMargin = c :: cs := by
  rw [List.dropWhile_append_of_pos hbefore, List.dropWhile_cons_of_neg (by simp [hc])]

/-- A sign and the first figure after it are no white space. -/
theorem exists_cons_of_sign {s figures : List Char} (hs : s ∈ [[], ['+'], ['-']])
    (hfigures : Figures figures) (after : List Char) :
    ∃ c rest, s ++ (figures ++ after) = c :: rest ∧ Text.isMargin c = false := by
  obtain ⟨d, more, rfl, hd⟩ := hfigures.exists_cons
  simp only [List.mem_cons, List.not_mem_nil, or_false] at hs
  rcases hs with rfl | rfl | rfl
  · exact ⟨d, more ++ after, rfl, isMargin_of_isDigit hd⟩
  · exact ⟨'+', _, rfl, by decide⟩
  · exact ⟨'-', _, rfl, by decide⟩

/-- The figures of a numeral are read up to the white space behind them. -/
theorem span_figures {figures after : List Char} (hfigures : ∀ c ∈ figures, isFigure c = true)
    (hafter : ∀ c ∈ after, Text.isMargin c = true) :
    (figures ++ after).takeWhile isFigure = figures ∧
      (figures ++ after).dropWhile isFigure = after := by
  rw [List.takeWhile_append_of_pos hfigures, List.dropWhile_append_of_pos hfigures]
  cases after with
  | nil => simp
  | cons c cs =>
      have hc := isFigure_of_isMargin (hafter c List.mem_cons_self)
      simp [hc]

/-- Exactly numerals are read. -/
theorem read_ok_iff (text : String) : (∃ n, read text = .ok n) ↔ Written text.toList := by
  unfold read
  constructor
  · rintro ⟨n, h⟩
    obtain ⟨s, hs, hsign⟩ := exists_sign (text.toList.dropWhile Text.isMargin)
    dsimp only at h
    generalize (sign (text.toList.dropWhile Text.isMargin)).2 = cs at h hsign
    have hcs := List.takeWhile_append_dropWhile (p := isFigure) (l := cs)
    have htext : text.toList =
        text.toList.takeWhile Text.isMargin ++ (s ++ (cs.takeWhile isFigure ++ cs.dropWhile isFigure)) := by
      rw [hcs, ← hsign, List.takeWhile_append_dropWhile]
    split at h
    · cases h
    · split at h
      · cases h
      · rename_i hspaced hlimit
        split at h
        · rename_i hrest
          rw [htext]
          refine .intro (fun _ => List.mem_takeWhile_imp) hs ?_ (Nat.le_of_not_lt hlimit) ?_
          · exact (figures_of_wellSpaced fun _ => List.mem_takeWhile_imp).1 (by simpa using hspaced)
          · exact List.all_eq_true.mp hrest
        · cases h
  · intro h
    generalize text.toList = cs at h
    cases h with
    | @intro before s figures after hbefore hs hfigures hlimit hafter =>
        obtain ⟨c, rest, hcons, hc⟩ := exists_cons_of_sign hs hfigures after
        obtain ⟨htake, hdrop⟩ := span_figures hfigures.isFigure hafter
        obtain ⟨d, more, rfl, hd⟩ := hfigures.exists_cons
        have hstart : (before ++ (s ++ (d :: more ++ after))).dropWhile Text.isMargin =
            s ++ (d :: more ++ after) := by
          rw [hcons, dropWhile_isMargin hbefore hc]
        have hsign : (sign (s ++ (d :: more ++ after))).2 = d :: more ++ after := sign_append hs hd
        have hrest : after.all Text.isMargin = true := List.all_eq_true.mpr hafter
        refine ⟨Decimal.signedNat (sign (s ++ (d :: more ++ after))).1 (valueOf (digits (d :: more))), ?_⟩
        simp only [hstart, hsign, htake, hdrop, hfigures.wellSpaced, Nat.not_lt.mpr hlimit, hrest,
          Bool.not_true, Bool.false_eq_true, if_false, if_true]

end Numeral

/-- Plain data that stands for a whole number. -/
inductive Json.Whole : Json → Prop where
  | int (n : Int) : Whole (.int n)
  | bool (b : Bool) : Whole (.bool b)
  | float {x : Float} {negative : Bool} {mantissa : Nat} {exponent : Int} :
      Decimal.Binary64.ofFloat x = .finite negative mantissa exponent → Whole (.float x)
  | str {s : String} : Numeral.Written s.toList → Whole (.str s)

theorem Json.toWhole_ok_iff (j : Json) : (∃ n, j.toWhole = .ok n) ↔ j.Whole := by
  cases j with
  | null | list | object => exact ⟨nofun, nofun⟩
  | bool b => exact ⟨fun _ => .bool b, fun _ => ⟨_, rfl⟩⟩
  | int n => exact ⟨fun _ => .int n, fun _ => ⟨n, rfl⟩⟩
  | str s =>
      rw [toWhole, Numeral.read_ok_iff]
      exact ⟨.str, fun | .str h => h⟩
  | float x =>
      rw [toWhole]
      cases h : Decimal.Binary64.ofFloat x with
      | finite negative m e =>
          refine ⟨fun _ => .float h, fun _ => ?_⟩
          simp only [Decimal.truncate?, h]
          exact ⟨_, rfl⟩
      | nan | infinite =>
          constructor
          · rintro ⟨n, hn⟩
            simp only [Decimal.truncate?, h] at hn
            cases hn
          · rintro (_ | _ | hfinite | _)
            rw [h] at hfinite
            cases hfinite

end ArrayExpr
