import ArrayExpr.Proofs.ReadBack
import ArrayExpr.Proofs.Spans

/-!
Positions that can be written and read again. A text has no whole numbers that are too long for the reader,
and neither does anything that is made of them on the way to the span of a token: doubles are cut off far
below that limit, numerals have a limit of their own, and a span that covers others takes over their ends.
So every position in a tree that was loaded from a text has no more digits than can be read
(`Token.fits_span_of_load`).
-/

namespace ArrayExpr

namespace Json

/-! ### Numbers of limited length -/

theorem natAbs_signedNat (negative : Bool) (n : Nat) : (Decimal.signedNat negative n).natAbs = n := by
  cases negative
  · rfl
  · exact Int.natAbs_neg n

theorem fits_signedNat {n k : Nat} (h : n < Nat.pow 10 k) (hpos : 0 < k) (hlimit : k ≤ digitLimit)
    (negative : Bool) : Fits (Decimal.signedNat negative n) := by
  have hlength : (Nat.toDigits 10 n).length ≤ k := (Nat.length_toDigits_le_iff (by decide) hpos).mpr h
  rw [Fits, natAbs_signedNat]
  exact Nat.le_trans hlength hlimit

/-- A number is below the power of ten that has one digit more. -/
theorem valueOf_lt {ds : List Nat} (h : ∀ d ∈ ds, d < 10) :
    Numeral.valueOf ds < Nat.pow 10 ds.length := by
  have hfold : ∀ start, ds.foldl (fun n d => n * 10 + d) start + 1 ≤
      (start + 1) * Nat.pow 10 ds.length := by
    induction ds with
    | nil => simp
    | cons d ds ih =>
        intro start
        have hd := h d List.mem_cons_self
        have hstep := ih (fun e he => h e (List.mem_cons_of_mem _ he)) (start * 10 + d)
        calc
          (d :: ds).foldl (fun n d => n * 10 + d) start + 1
              ≤ (start * 10 + d + 1) * Nat.pow 10 ds.length := hstep
          _ ≤ ((start + 1) * 10) * Nat.pow 10 ds.length := Nat.mul_le_mul_right _ (by omega)
          _ = (start + 1) * Nat.pow 10 (d :: ds).length := by
            rw [List.length_cons, Nat.mul_assoc, Nat.mul_comm 10]
            rfl
  have hvalue := hfold 0
  rw [Nat.zero_add, Nat.one_mul] at hvalue
  exact hvalue

theorem fits_valueOf {ds : List Nat} (h : ∀ d ∈ ds, d < 10) (hlength : ds.length ≤ digitLimit)
    (negative : Bool) : Fits (Decimal.signedNat negative (Numeral.valueOf ds)) := by
  have hvalue : Numeral.valueOf ds < Nat.pow 10 (max 1 ds.length) :=
    Nat.lt_of_lt_of_le (valueOf_lt h) (Nat.pow_le_pow_right (by decide) (Nat.le_max_right ..))
  refine fits_signedNat hvalue (by omega) ?_ negative
  exact Nat.max_le.mpr ⟨by decide, hlength⟩

theorem fits_digitsValue {cs : List Char} (h : ∀ c ∈ cs, c.isDigit = true)
    (hlength : cs.length ≤ digitLimit) (negative : Bool) :
    Fits (Decimal.signedNat negative (digitsValue cs)) := by
  have hvalue : digitsValue cs = Numeral.valueOf (cs.map fun c => c.toNat - 48) := by
    rw [digitsValue, Numeral.valueOf, List.foldl_map]
  rw [hvalue]
  apply fits_valueOf
  · intro d hd
    obtain ⟨c, hc, rfl⟩ := List.mem_map.mp hd
    have hrange : 48 ≤ c.toNat ∧ c.toNat ≤ 57 := Char.isDigit_iff_toNat.mp (h c hc)
    omega
  · rwa [List.length_map]

theorem floor_ofBinary_lt {m p k : Nat} {e : Int} (hm : m < Nat.pow 2 p) (he : e ≤ k) :
    (Decimal.Fraction.ofBinary m e).floor < Nat.pow 10 (p + k) := by
  have hpos : 0 < Nat.pow 2 k := Nat.pow_pos (by decide)
  suffices h : (Decimal.Fraction.ofBinary m e).floor < Nat.pow 2 p * Nat.pow 2 k by
    calc
      (Decimal.Fraction.ofBinary m e).floor < Nat.pow 2 p * Nat.pow 2 k := h
      _ = Nat.pow 2 (p + k) := (Nat.pow_add 2 p k).symm
      _ ≤ Nat.pow 10 (p + k) := Nat.pow_le_pow_left (by decide) _
  unfold Decimal.Fraction.ofBinary
  split
  · have hpower : Nat.pow 2 e.toNat ≤ Nat.pow 2 k := Nat.pow_le_pow_right (by decide) (by omega)
    rw [Decimal.Fraction.floor, Nat.div_one]
    exact Nat.mul_lt_mul_of_lt_of_le hm hpower hpos
  · calc
      m / Nat.pow 2 (-e).toNat ≤ m := Nat.div_le_self ..
      _ < Nat.pow 2 p := hm
      _ ≤ Nat.pow 2 p * Nat.pow 2 k := Nat.le_mul_of_pos_right _ hpos

theorem ofBits_eq_finite {bits m : Nat} {negative : Bool} {e : Int}
    (h : Decimal.Binary64.ofBits bits = .finite negative m e) : m < Nat.pow 2 53 ∧ e ≤ (971 : Nat) := by
  have hfraction : bits % Nat.pow 2 52 < Nat.pow 2 52 := Nat.mod_lt _ (by decide)
  have hfield : bits / Nat.pow 2 52 % Nat.pow 2 11 < Nat.pow 2 11 := Nat.mod_lt _ (by decide)
  have hdouble : Nat.pow 2 53 = 2 * Nat.pow 2 52 := by decide
  have heleven : Nat.pow 2 11 = 2048 := by decide
  simp only [Decimal.Binary64.ofBits] at h
  split at h
  · split at h <;> cases h
  · rename_i hfinite
    have hfinite' : bits / Nat.pow 2 52 % Nat.pow 2 11 ≠ 2047 := by simpa using hfinite
    split at h
    · cases h
      exact ⟨by omega, by omega⟩
    · cases h
      exact ⟨by omega, by omega⟩

/-- A double is cut off to a number with far fewer digits than can be read. -/
theorem fits_truncate? {x : Float} {n : Int} (h : Decimal.truncate? x = some n) : Fits n := by
  unfold Decimal.truncate? at h
  split at h
  · rename_i negative m e hfinite
    obtain ⟨hm, he⟩ := ofBits_eq_finite hfinite
    cases h
    exact fits_signedNat (floor_ofBinary_lt hm he) (by decide) (by decide) negative
  · cases h

theorem digitValue?_lt {c : Char} {d : Nat} (h : Text.digitValue? c = some d) : d < 10 := by
  obtain ⟨first, hfirst, rfl⟩ := Option.map_eq_some_iff.mp h
  have hrange : first ≤ c.toNat ∧ c.toNat < first + 10 := by simpa using List.find?_some hfirst
  omega

theorem fits_numeral {s : String} {n : Int} (h : Numeral.read s = .ok n) : Fits n := by
  simp only [Numeral.read] at h
  split at h
  · cases h
  · split at h
    · cases h
    · rename_i hlength
      split at h
      · cases h
        refine fits_valueOf ?_ (by omega) _
        intro d hd
        obtain ⟨c, -, hc⟩ := List.mem_filterMap.mp hd
        exact digitValue?_lt hc
      · cases h

/-! ### What is read -/

/-- Data in which no whole number is too long to be read. -/
inductive Sized : Json → Prop where
  | null : Sized .null
  | bool (b : Bool) : Sized (.bool b)
  | int {n : Int} : Fits n → Sized (.int n)
  | float (x : Float) : Sized (.float x)
  | str (s : String) : Sized (.str s)
  | list {items : List Json} : (∀ j ∈ items, Sized j) → Sized (.list items)
  | object {entries : List (String × Json)} : (∀ e ∈ entries, Sized e.2) → Sized (.object entries)

theorem isDigit_of_mem_wholeDigits {c : Char} {cs : List Char} (h : c ∈ wholeDigits cs) :
    c.isDigit = true := by
  unfold wholeDigits at h
  split at h
  · rw [List.mem_singleton.mp h]
    rfl
  · exact List.mem_takeWhile_imp h

theorem sized_number {start rest : List Char} {j : Json} (h : number start = .ok (j, rest)) :
    j.Sized := by
  simp only [number] at h
  split at h
  · cases h
  · split at h
    · cases h
      exact .float _
    · split at h
      · split at h
        · cases h
        · rename_i hlength
          cases h
          exact .int (fits_digitsValue (fun c => isDigit_of_mem_wholeDigits) (by omega) _)
      · cases h
        exact .float _

theorem sized_constants : ∀ c ∈ constants, c.2.Sized := by
  simp only [constants, List.forall_mem_cons]
  exact ⟨.null, .bool _, .bool _, .float _, .float _, .float _, List.forall_mem_nil _⟩

theorem sized_atom {cs rest : List Char} {j : Json} (h : atom cs = .ok (j, rest)) : j.Sized := by
  unfold atom at h
  split at h
  · obtain ⟨⟨s, out⟩, -, h⟩ := exists_of_bind_eq_ok h
    cases h
    exact .str s
  · split at h
    · rename_i name value hfind
      cases h
      exact sized_constants _ (List.mem_of_find?_eq_some hfind)
    · exact sized_number h

section Loops

variable {value : List Char → Except Stop (Json × List Char)}

theorem sized_items (hvalue : ∀ {cs rest j}, value cs = .ok (j, rest) → j.Sized) {fuel : Nat}
    {cs out : List Char} {js : List Json} (h : items value fuel cs = .ok (js, out)) :
    ∀ j ∈ js, j.Sized := by
  induction fuel generalizing cs js with
  | zero => cases h
  | succ fuel ih =>
      obtain ⟨⟨j, rest⟩, hj, h⟩ := exists_of_bind_eq_ok h
      simp only at h
      split at h
      · cases h
        simpa using hvalue hj
      · obtain ⟨⟨more, out'⟩, hmore, h⟩ := exists_of_bind_eq_ok h
        cases h
        exact List.forall_mem_cons.mpr ⟨hvalue hj, ih hmore⟩
      · cases h

theorem sized_entries (hvalue : ∀ {cs rest j}, value cs = .ok (j, rest) → j.Sized) {fuel : Nat}
    {cs out : List Char} {es : List (String × Json)} (h : entries value fuel cs = .ok (es, out)) :
    ∀ e ∈ es, e.2.Sized := by
  induction fuel generalizing cs es with
  | zero => cases h
  | succ fuel ih =>
      unfold entries at h
      split at h
      · obtain ⟨⟨key, rest⟩, -, h⟩ := exists_of_bind_eq_ok h
        simp only at h
        split at h
        · obtain ⟨⟨j, rest'⟩, hj, h⟩ := exists_of_bind_eq_ok h
          simp only at h
          split at h
          · cases h
            simpa using hvalue hj
          · obtain ⟨⟨more, out'⟩, hmore, h⟩ := exists_of_bind_eq_ok h
            cases h
            exact List.forall_mem_cons.mpr ⟨hvalue hj, ih hmore⟩
          · cases h
        · cases h
      · cases h

end Loops

theorem sized_insert {key : String} {j : Json} (hj : j.Sized) {es : List (String × Json)}
    (h : ∀ e ∈ es, e.2.Sized) : ∀ e ∈ insert key j es, e.2.Sized := by
  induction es with
  | nil => simpa [insert] using hj
  | cons e es ih =>
      obtain ⟨hfirst, hrest⟩ := List.forall_mem_cons.mp h
      unfold insert
      split
      · exact List.forall_mem_cons.mpr ⟨hj, hrest⟩
      · exact List.forall_mem_cons.mpr ⟨hfirst, ih hrest⟩

theorem sized_collect {es : List (String × Json)} (h : ∀ e ∈ es, e.2.Sized) :
    ∀ e ∈ collect es, e.2.Sized := by
  have hfold : ∀ taken : List (String × Json), (∀ e ∈ taken, e.2.Sized) →
      ∀ e ∈ es.foldl (fun taken p => insert p.1 p.2 taken) taken, e.2.Sized := by
    induction es with
    | nil => exact fun taken htaken => htaken
    | cons e es ih =>
        intro taken htaken
        obtain ⟨hfirst, hrest⟩ := List.forall_mem_cons.mp h
        exact ih hrest _ (sized_insert hfirst htaken)
  exact hfold [] (List.forall_mem_nil _)

/-- Reading gives no whole number with more digits than its limit. -/
theorem sized_value (depth : Nat) {cs rest : List Char} {j : Json}
    (h : value depth cs = .ok (j, rest)) : j.Sized := by
  induction depth generalizing cs rest j with
  | zero =>
      unfold value at h
      split at h
      · cases h
      · cases h
      · exact sized_atom h
  | succ depth ih =>
      unfold value at h
      split at h
      · split at h
        · cases h
          exact .list (List.forall_mem_nil _)
        · obtain ⟨⟨js, out⟩, hjs, h⟩ := exists_of_bind_eq_ok h
          cases h
          exact .list (sized_items ih hjs)
      · split at h
        · cases h
          exact .object (List.forall_mem_nil _)
        · obtain ⟨⟨es, out⟩, hes, h⟩ := exists_of_bind_eq_ok h
          cases h
          exact .object (sized_collect (sized_entries ih hes))
      · exact sized_atom h

theorem sized_read {cs : List Char} {j : Json} (h : read cs = .ok j) : j.Sized := by
  unfold read at h
  split at h
  · cases h
  · obtain ⟨⟨j', rest⟩, hj, h⟩ := exists_of_bind_eq_ok h
    simp only at h
    split at h
    · cases h
      exact sized_value _ hj
    · cases h

/-! ### Parts of what is read -/

theorem Sized.lookup? {entries : List (String × Json)} (h : (Json.object entries).Sized) {key : String}
    {j : Json} (hj : lookup? key entries = some j) : j.Sized := by
  cases h with
  | object h =>
      obtain ⟨e, he, rfl⟩ := Option.map_eq_some_iff.mp hj
      exact h e (List.mem_of_find?_eq_some he)

theorem Sized.location? {j location : Json} (h : j.Sized) (hlocation : j.location? = some location) :
    location.Sized := by
  cases j with
  | object entries => exact h.lookup? (Option.eq_some_of_filter_eq_some hlocation)
  | _ => cases hlocation

theorem Sized.members {j : Json} (h : j.Sized) {js : List Json} (hjs : j.members = .ok js) :
    ∀ p ∈ js, p.Sized := by
  cases j with
  | list items =>
      cases hjs
      cases h with
      | list h => exact h
  | str s =>
      cases hjs
      exact List.forall_mem_map.mpr fun c _ => .str _
  | object entries =>
      cases hjs
      exact List.forall_mem_map.mpr fun e _ => .str _
  | _ => cases hjs

theorem Sized.parts {j p : Json} (h : j.Sized) (hp : p ∈ j.parts) : p.Sized := by
  cases j with
  | object entries =>
      obtain ⟨f, -, hp⟩ := List.mem_flatMap.mp hp
      cases f with
      | part name =>
          simp only [heldBy, Option.mem_toList] at hp
          exact h.lookup? hp
      | parts name =>
          simp only [heldBy] at hp
          cases hvalue : Json.lookup? name entries with
          | none => simp [hvalue] at hp
          | some value =>
              cases hmembers : value.members with
              | error fault => simp [hvalue, hmembers, Except.toOption] at hp
              | ok js =>
                  have hp : p ∈ js := by simpa [hvalue, hmembers, Except.toOption] using hp
                  exact (h.lookup? hvalue).members hmembers p hp
      | names | data => cases hp
  | _ => cases hp

theorem Sized.toWhole {j : Json} (h : j.Sized) {n : Int} (hn : j.toWhole = .ok n) : Fits n := by
  cases h with
  | int h =>
      cases hn
      exact h
  | bool b =>
      cases hn
      cases b <;> decide
  | float x =>
      simp only [Json.toWhole] at hn
      split at hn
      · rename_i hwhole
        cases hn
        exact fits_truncate? hwhole
      · cases hn
  | str s => exact fits_numeral hn
  | _ => cases hn

theorem Sized.wholeField {entries : List (String × Json)} (h : (Json.object entries).Sized)
    {key : String} {default n : Int} (hdefault : Fits default)
    (hn : wholeField key entries default = .ok n) : Fits n := by
  unfold Json.wholeField at hn
  split at hn
  · rename_i hvalue
    exact (h.lookup? hvalue).toWhole hn
  · cases hn
    exact hdefault

end Json

/-! ### Spans -/

/-- A span of which every position has no more digits than can be read. -/
structure Span.Fits (s : Span) : Prop where
  startLine : Json.Fits s.startLine
  startColumn : Json.Fits s.startColumn
  endLine : Json.Fits s.endLine
  endColumn : Json.Fits s.endColumn

namespace Span

theorem fits_zero : Json.Fits 0 := by
  decide

theorem fits_nowhere : nowhere.Fits :=
  ⟨fits_zero, fits_zero, fits_zero, fits_zero⟩

theorem Fits.cover {first last : Span} (hfirst : first.Fits) (hlast : last.Fits) :
    (first.cover last).Fits := by
  unfold Span.cover
  split
  · exact hlast
  · split
    · exact hfirst
    · exact ⟨hfirst.startLine, hfirst.startColumn, hlast.endLine, hlast.endColumn⟩

theorem fits_coverAll {spans : List Span} (h : ∀ s ∈ spans, s.Fits) : (coverAll spans).Fits := by
  have hfold : ∀ start : Span, start.Fits → (spans.foldl Span.cover start).Fits := by
    induction spans with
    | nil => exact fun start hstart => hstart
    | cons s spans ih =>
        intro start hstart
        obtain ⟨hs, hspans⟩ := List.forall_mem_cons.mp h
        exact ih hspans _ (hstart.cover hs)
  exact hfold nowhere fits_nowhere

theorem fits_ofJson {j : Json} (hj : j.Sized) {s : Span} (h : ofJson j = .ok s) : s.Fits := by
  cases j with
  | object entries =>
      obtain ⟨startLine, hstartLine, h⟩ := exists_of_bind_eq_ok h
      obtain ⟨startColumn, hstartColumn, h⟩ := exists_of_bind_eq_ok h
      obtain ⟨endLine, hendLine, h⟩ := exists_of_bind_eq_ok h
      obtain ⟨endColumn, hendColumn, h⟩ := exists_of_bind_eq_ok h
      cases h
      have hline := hj.wholeField fits_zero hstartLine
      have hcolumn := hj.wholeField fits_zero hstartColumn
      exact ⟨hline, hcolumn, hj.wholeField hline hendLine, hj.wholeField hcolumn hendColumn⟩
  | _ => cases h

end Span

namespace Token

variable {depth : Nat}

theorem fits_span {j : Json} (hj : j.Sized) {t : Token} (h : decode depth j = .ok t) :
    t.span.Fits := by
  induction depth generalizing j t with
  | zero => cases h
  | succ depth ih =>
      obtain ⟨hparts, hlocated, hcover⟩ := span_children_of_decode h
      cases hlocation : j.location? with
      | some location => exact Span.fits_ofJson (hj.location? hlocation) (hlocated location hlocation)
      | none =>
          rw [hcover hlocation]
          refine Span.fits_coverAll (List.forall_mem_map.mpr fun c hc => ?_)
          obtain ⟨p, hmem⟩ := exists_mem_zip hparts hc
          exact ih (hj.parts (List.of_mem_zip hmem).1) (List.forall₂_zip hparts hmem)

theorem Placed.sized {j k : Json} {t u : Token} (hplaced : Placed j t k u) (hj : j.Sized) :
    k.Sized := by
  induction hplaced with
  | root => exact hj
  | part _ hmem ih => exact ih.parts (List.of_mem_zip hmem).1

theorem readJson_eq_ok {text : List Char} {j : Json} (h : readJson text = .ok j) :
    Json.read text = .ok j := by
  unfold readJson at h
  split at h <;> cases h
  assumption

/-- **Every position in a tree that was loaded can be written and read again.** -/
theorem fits_span_of_load {text : List Char} {root t : Token} (h : load depth text = .ok root)
    (ht : root.Within t) : t.span.Fits := by
  obtain ⟨j, hread, hdecode⟩ := exists_of_bind_eq_ok h
  have hj : j.Sized := Json.sized_read (readJson_eq_ok hread)
  obtain ⟨k, hplaced⟩ := ht.exists_placed hdecode
  obtain ⟨d, hd⟩ := hplaced.exists_decode hdecode
  exact fits_span (hplaced.sized hj) hd

end Token

end ArrayExpr
