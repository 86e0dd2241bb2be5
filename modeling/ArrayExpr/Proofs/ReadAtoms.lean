import ArrayExpr.Json.Basic
import ArrayExpr.Json.Reader

/-!
Strings and whole numbers that are read back from their texts. A character of a string is written as
itself, as a short escape, or as one or two escapes of sixteen bits; reading splits the text into the
same units, and joins them to the same characters (`string_writeString`). A whole number is written in
digits without a leading zero, and is read back as long as it has no more of them than can be read and
the text does not go on like a number (`atom_intText`).
-/

namespace ArrayExpr.Json

/-! ### Strings -/

/-- The sixteen-bit units of a character: two for a character beyond the basic plane. -/
def unitsOf (c : Char) : List Nat :=
  if c.toNat < 0x10000 then [c.toNat]
  else [0xd800 + (c.toNat - 0x10000) / 0x400, 0xdc00 + (c.toNat - 0x10000) % 0x400]

theorem toNat_lt (c : Char) : c.toNat < 0x110000 ∧ ¬(0xd800 ≤ c.toNat ∧ c.toNat < 0xe000) := by
  have h : c.toNat < 0xd800 ∨ (0xdfff < c.toNat ∧ c.toNat < 0x110000) := c.valid
  omega

theorem joinUnits?_unitsOf (c : Char) (ns : List Nat) :
    joinUnits? (unitsOf c ++ ns) = (joinUnits? ns).map (c :: ·) := by
  -- No character is half of a pair, so that one of the basic plane is joined to nothing.
  obtain ⟨hbound, hhalf⟩ := toNat_lt c
  by_cases hplane : c.toNat < 0x10000
  · have hhigh : ¬(0xd800 ≤ c.toNat ∧ c.toNat < 0xdc00) := by omega
    have hlow : ¬(0xdc00 ≤ c.toNat ∧ c.toNat < 0xe000) := by omega
    rw [unitsOf, if_pos hplane, List.singleton_append, joinUnits?.eq_def]
    simp [hhigh, hlow, Char.ofNat_toNat]
  · rw [unitsOf, if_neg hplane]
    obtain ⟨n, hn⟩ : ∃ n, c.toNat = 0x10000 + n := ⟨c.toNat - 0x10000, by omega⟩
    have hhigh : 0xd800 + n / 0x400 < 0xdc00 := by omega
    have hlow : 0xdc00 + n % 0x400 < 0xe000 := by omega
    have hjoin : 0x10000 + n / 0x400 * 0x400 + n % 0x400 = c.toNat := by omega
    have hsub : c.toNat - 0x10000 = n := by omega
    rw [hsub, List.cons_append, List.singleton_append, joinUnits?]
    simp [hhigh, hlow, hjoin, Char.ofNat_toNat]

theorem joinUnits?_flatMap_unitsOf (cs : List Char) :
    joinUnits? (cs.flatMap unitsOf) = some cs := by
  induction cs with
  | nil => rfl
  | cons c cs ih => rw [List.flatMap_cons, joinUnits?_unitsOf, ih, Option.map_some]

theorem hexValue?_digitChar : ∀ d < 16, hexValue? (Nat.digitChar d) = some d := by
  decide

theorem toList_hex_one {n : Nat} (h : n < 16) : (Text.hex 1 n).toList = [Nat.digitChar n] := by
  rw [Text.hex, Nat.toDigits_of_lt_base h, String.toList_ofList]
  rfl

theorem toList_hex_succ (width n : Nat) :
    (Text.hex (width + 2) n).toList =
      (Text.hex (width + 1) (n / 16)).toList ++ [Nat.digitChar (n % 16)] := by
  simp only [Text.hex, String.toList_ofList]
  by_cases h : n < 16
  · have hquotient : n / 16 = 0 := by omega
    have hremainder : n % 16 = n := by omega
    rw [hquotient, hremainder, Nat.toDigits_of_lt_base h, Nat.toDigits_zero]
    simp [List.replicate_succ']
  · rw [Nat.toDigits_of_base_le (by decide) (by omega)]
    simp [List.append_assoc]

/-- Four hexadecimal digits hold a unit. -/
theorem toList_hex_four {n : Nat} (h : n < 0x10000) :
    (Text.hex 4 n).toList =
      [Nat.digitChar (n / 0x1000), Nat.digitChar (n / 0x100 % 16), Nat.digitChar (n / 16 % 16),
        Nat.digitChar (n % 16)] := by
  rw [toList_hex_succ, toList_hex_succ, toList_hex_succ, toList_hex_one (by omega)]
  simp only [Nat.div_div_eq_div_mul]
  rfl

theorem hexUnit?_digitChars {n : Nat} (h : n < 0x10000) :
    hexUnit? (Nat.digitChar (n / 0x1000)) (Nat.digitChar (n / 0x100 % 16))
      (Nat.digitChar (n / 16 % 16)) (Nat.digitChar (n % 16)) = some n := by
  have hvalue : ((n / 0x1000 * 16 + n / 0x100 % 16) * 16 + n / 16 % 16) * 16 + n % 16 = n := by omega
  rw [hexUnit?, hexValue?_digitChar _ (by omega), hexValue?_digitChar _ (by omega),
    hexValue?_digitChar _ (by omega), hexValue?_digitChar _ (by omega)]
  simp [hvalue]

/-- An escape of sixteen bits is read as its unit. The reader wants a character after it. -/
theorem units_unitEscape {opening rest out : List Char} {ns : List Nat} {n : Nat} (h : n < 0x10000)
    (hrest : units opening rest = .ok (ns, out)) :
    units opening ((unitEscape n).toList ++ rest) = .ok (n :: ns, out) := by
  cases rest with
  | nil => cases hrest
  | cons next rest =>
      have htext : (unitEscape n).toList ++ next :: rest =
          '\\' :: 'u' :: Nat.digitChar (n / 0x1000) :: Nat.digitChar (n / 0x100 % 16) ::
            Nat.digitChar (n / 16 % 16) :: Nat.digitChar (n % 16) :: next :: rest := by
        rw [unitEscape, String.toList_append, toList_hex_four h]
        rfl
      rw [htext, units]
      simp [hexUnit?_digitChars h, hrest, bind, Except.bind, pure, Except.pure]

theorem units_escape {opening rest out : List Char} {ns : List Nat} {e c : Char} (he : e ≠ 'u')
    (hc : escaped? e = some c) (hrest : units opening rest = .ok (ns, out)) :
    units opening ('\\' :: e :: rest) = .ok (c.toNat :: ns, out) := by
  rw [units.eq_def]
  simp [he, hc, hrest, bind, Except.bind, pure, Except.pure]

theorem units_plain {opening rest out : List Char} {ns : List Nat} {c : Char} (hquote : c ≠ '"')
    (hslash : c ≠ '\\') (hcontrol : 32 ≤ c.toNat) (hrest : units opening rest = .ok (ns, out)) :
    units opening (c :: rest) = .ok (c.toNat :: ns, out) := by
  have hcontrol' : ¬c.toNat < 32 := by omega
  rw [units.eq_def]
  simp [hquote, hslash, hcontrol', hrest, bind, Except.bind, pure, Except.pure]

/-- A character of plain ASCII, other than those that control. -/
def isPlain (c : Char) : Bool :=
  32 ≤ c.toNat && c.toNat < 127

/-- The forms that a character takes inside a string. -/
inductive Form (c : Char) : List Char → Prop where
  | short {e : Char} : e ≠ 'u' → escaped? e = some c → isPlain e = true → c.toNat < 0x10000 →
      Form c ['\\', e]
  | plain : c ≠ '"' → c ≠ '\\' → isPlain c = true → Form c [c]
  | unit : c.toNat < 0x10000 → Form c (unitEscape c.toNat).toList
  | pair : ¬c.toNat < 0x10000 →
      Form c ((unitEscape (0xd800 + (c.toNat - 0x10000) / 0x400)).toList ++
        (unitEscape (0xdc00 + (c.toNat - 0x10000) % 0x400)).toList)

theorem form_writeChar (c : Char) : Form c (writeChar c).toList := by
  have hshort : ∀ e x : Char, c = x → e ≠ 'u' → escaped? e = some x → isPlain e = true →
      x.toNat < 0x10000 → Form c ['\\', e] := by
    rintro e x rfl he hx hplain hbound
    exact .short he hx hplain hbound
  unfold writeChar
  iterate 7
    split
    · rename_i h
      exact hshort _ _ (beq_iff_eq.mp h) (by decide) rfl (by decide) (by decide)
  split
  · rename_i hquote hslash _ _ _ _ _ hplain
    rw [String.toList_ofList]
    exact .plain (by simpa using hquote) (by simpa using hslash) hplain
  · split
    · rename_i h
      exact .unit h
    · rename_i h
      rw [String.toList_append]
      exact .pair h

theorem units_writeChar {opening rest out : List Char} {ns : List Nat} (c : Char)
    (hrest : units opening rest = .ok (ns, out)) :
    units opening ((writeChar c).toList ++ rest) = .ok (unitsOf c ++ ns, out) := by
  have hbound := (toNat_lt c).1
  have hform := form_writeChar c
  generalize (writeChar c).toList = text at hform
  cases hform with
  | short he hc _ hplane =>
      rw [unitsOf, if_pos hplane]
      exact units_escape he hc hrest
  | plain hquote hslash hplain =>
      have hrange : 32 ≤ c.toNat ∧ c.toNat < 127 := by simpa [isPlain] using hplain
      rw [unitsOf, if_pos (by omega)]
      exact units_plain hquote hslash hrange.1 hrest
  | unit hplane =>
      rw [unitsOf, if_pos hplane]
      exact units_unitEscape hplane hrest
  | pair hplane =>
      rw [unitsOf, if_neg hplane, List.append_assoc]
      exact units_unitEscape (by omega) (units_unitEscape (by omega) hrest)

theorem units_flatMap_writeChar (opening rest cs : List Char) :
    units opening ((cs.flatMap fun c => (writeChar c).toList) ++ '"' :: rest) =
      .ok (cs.flatMap unitsOf, rest) := by
  induction cs with
  | nil => rw [List.flatMap_nil, List.nil_append, units.eq_def]; rfl
  | cons c cs ih =>
      rw [List.flatMap_cons, List.append_assoc, List.flatMap_cons]
      exact units_writeChar c ih

theorem toList_writeString (s : String) :
    (writeString s).toList =
      '"' :: ((s.toList.flatMap fun c => (writeChar c).toList) ++ ['"']) := by
  rw [writeString, String.toList_append, String.toList_append, String.toList_join,
    List.flatMap_map]
  rfl

theorem string_writeString (opening rest : List Char) (s : String) :
    string opening ((s.toList.flatMap fun c => (writeChar c).toList) ++ '"' :: rest) =
      .ok (s, rest) := by
  rw [string, units_flatMap_writeChar]
  simp [bind, Except.bind, pure, Except.pure, joinUnits?_flatMap_unitsOf]

/-! ### Whole numbers -/

/-- A whole number with no more digits than can be read. -/
def Fits (n : Int) : Prop :=
  (Nat.toDigits 10 n.natAbs).length ≤ digitLimit

instance (n : Int) : Decidable (Fits n) :=
  inferInstanceAs (Decidable (_ ≤ _))

/-- The end of a number: no digit, point or exponent follows. -/
def EndsNumber (rest : List Char) : Prop :=
  ∀ c cs, rest = c :: cs → c.isDigit = false ∧ c ≠ '.' ∧ c ≠ 'e' ∧ c ≠ 'E'

theorem digitsValue_toDigits (n : Nat) : digitsValue (Nat.toDigits 10 n) = n := by
  have hfold : digitsValue (Nat.toDigits 10 n) = Nat.ofDigitChars 10 (Nat.toDigits 10 n) 0 := by
    rw [Nat.ofDigitChars_eq_foldl, digitsValue]
    simp only [Nat.mul_comm]
    rfl
  rw [hfold, Nat.ofDigitChars_ten_toDigits]

/-- The digits of a number start with a digit, and with a zero only for zero. -/
theorem exists_toDigits_eq_cons (n : Nat) :
    ∃ d ds, Nat.toDigits 10 n = d :: ds ∧ d.isDigit = true ∧ (d = '0' → ds = []) := by
  induction n using Nat.strongRecOn with
  | ind n ih =>
      by_cases h : n < 10
      · refine ⟨Nat.digitChar n, [], Nat.toDigits_of_lt_base h, ?_, fun _ => rfl⟩
        rw [Nat.isDigit_digitChar, decide_eq_true h]
      · obtain ⟨d, ds, hdigits, hd, hzero⟩ := ih (n / 10) (by omega)
        refine ⟨d, ds ++ [Nat.digitChar (n % 10)], ?_, hd, ?_⟩
        · rw [Nat.toDigits_of_base_le (by decide) (by omega), hdigits, List.cons_append]
        · -- A leading zero would make the number ten times smaller zero.
          rintro rfl
          have hvalue := digitsValue_toDigits (n / 10)
          rw [hdigits, hzero rfl] at hvalue
          have : n / 10 = 0 := hvalue.symm
          omega

theorem takeWhile_isDigit {ds rest : List Char} (hds : ∀ c ∈ ds, c.isDigit = true)
    (hrest : EndsNumber rest) : (ds ++ rest).takeWhile Char.isDigit = ds := by
  rw [List.takeWhile_append_of_pos hds]
  cases rest with
  | nil => simp
  | cons c cs => simp [(hrest c cs rfl).1]

theorem places_of_endsNumber {rest : List Char} (h : EndsNumber rest) : places rest = none := by
  unfold places
  split
  · exact absurd rfl (h _ _ rfl).2.1
  · rfl

theorem exponent_of_endsNumber {rest : List Char} (h : EndsNumber rest) : exponent rest = none := by
  cases rest with
  | nil => rfl
  | cons c cs =>
      obtain ⟨-, -, he, hE⟩ := h c cs rfl
      simp [exponent, he, hE]

theorem signedNat_natAbs (n : Int) : Decimal.signedNat (n < 0) n.natAbs = n := by
  by_cases h : n < 0
  · rw [Decimal.signedNat, decide_eq_true h, if_pos rfl]
    omega
  · rw [Decimal.signedNat, decide_eq_false h, if_neg Bool.false_ne_true]
    omega

theorem toList_intText (n : Int) :
    (Decimal.intText n).toList =
      if n < 0 then '-' :: Nat.toDigits 10 n.natAbs else Nat.toDigits 10 n.natAbs := by
  rw [Decimal.intText, Decimal.signed, String.toList_ofList]
  simp only [decide_eq_true_eq]

theorem minus_of_isDigit {d : Char} (h : d.isDigit = true) (cs : List Char) :
    minus (d :: cs) = (false, d :: cs) := by
  unfold minus
  split
  · rename_i heq
    cases heq
    cases h
  · rfl

theorem wholeDigits_append {d : Char} {ds rest : List Char} (hzero : d = '0' → ds = [])
    (hall : ∀ c ∈ d :: ds, c.isDigit = true) (hrest : EndsNumber rest) :
    wholeDigits (d :: ds ++ rest) = d :: ds := by
  unfold wholeDigits
  split
  · rename_i heq
    obtain ⟨rfl, -⟩ := List.cons.inj heq
    rw [hzero rfl]
  · exact takeWhile_isDigit hall hrest

/-- A number of digits alone is read as a whole number. -/
theorem number_eq_ok {start whole rest : List Char} {negative : Bool}
    (hstart : minus start = (negative, whole ++ rest)) (hwhole : wholeDigits (whole ++ rest) = whole)
    (hne : whole ≠ []) (hlength : whole.length ≤ digitLimit) (hrest : EndsNumber rest) :
    number start = .ok (.int (Decimal.signedNat negative (digitsValue whole)), rest) := by
  have hdrop : (whole ++ rest).drop whole.length = rest := List.drop_left
  have hnotEmpty : whole.isEmpty = false := by simpa using hne
  have hlength' : ¬digitLimit < whole.length := by omega
  simp only [number, hstart, hwhole, hdrop, hnotEmpty, places_of_endsNumber hrest, Option.getD_none,
    exponent_of_endsNumber hrest, List.isEmpty_nil, Bool.false_eq_true, if_false, if_true, hlength']

theorem exists_toList_intText (n : Int) :
    ∃ c cs, (Decimal.intText n).toList = c :: cs ∧ (c = '-' ∨ c.isDigit = true) := by
  obtain ⟨d, ds, hdigits, hd, -⟩ := exists_toDigits_eq_cons n.natAbs
  rw [toList_intText, hdigits]
  by_cases hneg : n < 0
  · exact ⟨'-', d :: ds, if_pos hneg, .inl rfl⟩
  · exact ⟨d, ds, if_neg hneg, .inr hd⟩

theorem number_intText {n : Int} (hn : Fits n) {rest : List Char} (hrest : EndsNumber rest) :
    number ((Decimal.intText n).toList ++ rest) = .ok (.int n, rest) := by
  obtain ⟨d, ds, hdigits, hd, hzero⟩ := exists_toDigits_eq_cons n.natAbs
  have hall : ∀ c ∈ d :: ds, c.isDigit = true := by
    intro c hc
    exact Nat.isDigit_of_mem_toDigits (by decide) (by decide) (hdigits ▸ hc)
  have hlength : (d :: ds).length ≤ digitLimit := hdigits ▸ hn
  have hstart : minus ((Decimal.intText n).toList ++ rest) = (decide (n < 0), d :: ds ++ rest) := by
    rw [toList_intText, hdigits]
    by_cases hneg : n < 0
    · rw [if_pos hneg, decide_eq_true hneg]
      rfl
    · rw [if_neg hneg, decide_eq_false hneg]
      exact minus_of_isDigit hd _
  rw [number_eq_ok hstart (wholeDigits_append hzero hall hrest) (List.cons_ne_nil d ds) hlength hrest,
    ← hdigits, digitsValue_toDigits, signedNat_natAbs]

/-- A name does not start like a number, but for the sign of one of them. -/
theorem find?_constants {d : Char} (hd : d.isDigit = true) (ds : List Char) :
    (constants.find? fun c => c.1.isPrefixOf (d :: ds)) = none ∧
      (constants.find? fun c => c.1.isPrefixOf ('-' :: d :: ds)) = none := by
  have hne : ∀ c : Char, c.isDigit = false → (c == d) = false := by
    intro c hc
    apply beq_false_of_ne
    rintro rfl
    rw [hd] at hc
    cases hc
  simp [constants, List.isPrefixOf, hne 'n' rfl, hne 't' rfl, hne 'f' rfl, hne 'N' rfl, hne 'I' rfl,
    hne '-' rfl]

theorem atom_of_find?_eq_none {c : Char} {cs : List Char} (hquote : c ≠ '"')
    (hname : (constants.find? fun n => n.1.isPrefixOf (c :: cs)) = none) :
    atom (c :: cs) = number (c :: cs) := by
  unfold atom
  split
  · rename_i heq
    cases heq
    cases hquote rfl
  · rw [hname]

theorem atom_intText {n : Int} (hn : Fits n) {rest : List Char} (hrest : EndsNumber rest) :
    atom ((Decimal.intText n).toList ++ rest) = .ok (.int n, rest) := by
  rw [← number_intText hn hrest, toList_intText]
  obtain ⟨d, ds, hdigits, hd, -⟩ := exists_toDigits_eq_cons n.natAbs
  obtain ⟨hplain, hsigned⟩ := find?_constants hd (ds ++ rest)
  rw [hdigits]
  by_cases hneg : n < 0
  · rw [if_pos hneg]
    exact atom_of_find?_eq_none (by decide) hsigned
  · rw [if_neg hneg]
    refine atom_of_find?_eq_none ?_ hplain
    rintro rfl
    cases hd

end ArrayExpr.Json
