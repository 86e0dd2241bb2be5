import ArrayExpr.Decimal.Binary64

/-!
What doubles stand for, by the logical model that the language gives them. A double is made of its
fields, and one that is finite is a multiple of `2 ^ -1074`. An integer of 64 bits is converted to the
double nearest to it, and of two that are as near to the one whose last bit is zero
(`isNearest_floatOfInt`).
-/

namespace ArrayExpr.Decimal

open Float.Model

/-! ### Fields -/

section Fields

variable (b : BitVec Format.binary64.numBits)

theorem toNat_unpackMantissa :
    (@UnpackedFloat.unpackMantissa Format.binary64 b).toNat = b.toNat % Nat.pow 2 52 := by
  simp [UnpackedFloat.unpackMantissa, Format.binary64]

theorem toNat_unpackExponent :
    (@UnpackedFloat.unpackExponent Format.binary64 b).toNat =
      b.toNat / Nat.pow 2 52 % Nat.pow 2 11 := by
  simp [UnpackedFloat.unpackExponent, Format.binary64, Nat.shiftRight_eq_div_pow]

theorem toNat_unpackSign :
    (@UnpackedFloat.unpackSign Format.binary64 b).toNat = b.toNat / Nat.pow 2 63 % 2 := by
  change (b.toNat >>> 63) % 2 = _
  rw [Nat.shiftRight_eq_div_pow]

/-- The mantissa together with the leading one that is not written. -/
theorem toNat_leading :
    (1#1 ++ @UnpackedFloat.unpackMantissa Format.binary64 b).toNat =
      Nat.pow 2 52 + b.toNat % Nat.pow 2 52 := by
  rw [BitVec.toNat_append, ← Nat.shiftLeft_add_eq_or_of_lt (BitVec.isLt _), toNat_unpackMantissa]
  rfl

end Fields

/-- What a double stands for by its fields: without bound, not a number, or finite with 53 bits. -/
theorem unpack_cases (b : BitVec Format.binary64.numBits) :
    (UnpackedFloat.unpackExponent b = -1#_ ∧ UnpackedFloat.unpackMantissa b = 0#_ ∧
      ∃ sign, UnpackedFloat.unpack Format.binary64 b = .infinity sign) ∨
    (UnpackedFloat.unpackExponent b = -1#_ ∧ UnpackedFloat.unpackMantissa b ≠ 0#_ ∧
      UnpackedFloat.unpack Format.binary64 b = .notANumber) ∨
    (UnpackedFloat.unpackExponent b ≠ -1#_ ∧
      ((∃ sign, UnpackedFloat.unpack Format.binary64 b = .zero sign) ∨
        ∃ (sign : UnpackedFloat.Sign) (m : Nat) (e : Int) (hpos : 0 < m), m < Nat.pow 2 53 ∧
          UnpackedFloat.unpack Format.binary64 b = .finite sign m e hpos)) := by
  unfold UnpackedFloat.unpack
  dsimp only
  by_cases hexponent : UnpackedFloat.unpackExponent b = -1#_
  · rw [if_pos hexponent]
    by_cases hmantissa : UnpackedFloat.unpackMantissa b = 0#_
    · rw [if_pos hmantissa]
      exact .inl ⟨hexponent, hmantissa, _, rfl⟩
    · rw [if_neg hmantissa]
      exact .inr (.inl ⟨hexponent, hmantissa, rfl⟩)
  · rw [if_neg hexponent]
    refine .inr (.inr ⟨hexponent, ?_⟩)
    by_cases hzero : UnpackedFloat.unpackExponent b = 0#_
    · rw [if_pos hzero]
      by_cases hmantissa : UnpackedFloat.unpackMantissa b = 0#_
      · rw [dif_pos hmantissa]
        exact .inl ⟨_, rfl⟩
      · rw [dif_neg hmantissa]
        have hpos : 0 < (UnpackedFloat.unpackMantissa b).toNat :=
          Nat.pos_of_ne_zero fun h => hmantissa (BitVec.eq_of_toNat_eq h)
        exact .inr ⟨_, _, _, hpos, Nat.lt_of_lt_of_le (BitVec.isLt _) (by decide), rfl⟩
    · rw [if_neg hzero]
      have hpos : 0 < (1#1 ++ UnpackedFloat.unpackMantissa b).toNat :=
        (toNat_leading b).symm ▸ Nat.add_pos_left (by decide) _
      exact .inr ⟨_, _, _, hpos, BitVec.isLt _, rfl⟩

theorem isNaN_unpack_iff (b : BitVec Format.binary64.numBits) :
    (UnpackedFloat.unpack Format.binary64 b).isNaN = true ↔
      UnpackedFloat.unpackExponent b = -1#_ ∧ UnpackedFloat.unpackMantissa b ≠ 0#_ := by
  rcases unpack_cases b with ⟨-, hmantissa, sign, h⟩ | ⟨hexponent, hmantissa, h⟩ | ⟨hexponent, h⟩
  · rw [h]
    exact iff_of_false Bool.false_ne_true fun hnan => hnan.2 hmantissa
  · rw [h]
    exact iff_of_true rfl ⟨hexponent, hmantissa⟩
  · refine iff_of_false ?_ fun hnan => hexponent hnan.1
    rcases h with ⟨sign, h⟩ | ⟨sign, m, e, hpos, -, h⟩
    · rw [h]
      exact Bool.false_ne_true
    · rw [h]
      exact Bool.false_ne_true

theorem Binary64.ofBits_eq_nan_iff (bits : Nat) :
    Binary64.ofBits bits = .nan ↔
      bits / Nat.pow 2 52 % Nat.pow 2 11 = 2047 ∧ bits % Nat.pow 2 52 ≠ 0 := by
  simp only [Binary64.ofBits, beq_iff_eq]
  split
  · split <;> simp [*]
  · split <;> simp [*]

/-- The exact value of a double is undefined where the double is not a number. -/
theorem isNaN_iff (x : Float) : x.isNaN = true ↔ Binary64.ofFloat x = .nan := by
  have hexponent : @UnpackedFloat.unpackExponent Format.binary64 x.toBits.toBitVec = -1#_ ↔
      x.toBits.toNat / Nat.pow 2 52 % Nat.pow 2 11 = 2047 := by
    rw [← BitVec.toNat_inj, toNat_unpackExponent]
    rfl
  have hmantissa : @UnpackedFloat.unpackMantissa Format.binary64 x.toBits.toBitVec = 0#_ ↔
      x.toBits.toNat % Nat.pow 2 52 = 0 := by
    rw [← BitVec.toNat_inj, toNat_unpackMantissa]
    rfl
  calc x.isNaN = true
      ↔ (UnpackedFloat.unpack Format.binary64 x.toBits.toBitVec).isNaN = true := Iff.rfl
    _ ↔ x.toBits.toNat / Nat.pow 2 52 % Nat.pow 2 11 = 2047 ∧ x.toBits.toNat % Nat.pow 2 52 ≠ 0 :=
      (isNaN_unpack_iff _).trans (and_congr hexponent (not_congr hmantissa))
    _ ↔ Binary64.ofFloat x = .nan := (Binary64.ofBits_eq_nan_iff _).symm

theorem toBitVec_ofBitVec (b : BitVec 1) : (UnpackedFloat.Sign.ofBitVec b).toBitVec = b := by
  revert b
  decide

/-- A double is made of its fields. -/
theorem packComponents_unpack (b : BitVec Format.binary64.numBits) :
    UnpackedFloat.packComponents Format.binary64
      (.ofBitVec (UnpackedFloat.unpackSign b)) (UnpackedFloat.unpackExponent b)
      (UnpackedFloat.unpackMantissa b) = b := by
  apply BitVec.eq_of_toNat_eq
  rw [UnpackedFloat.packComponents, toBitVec_ofBitVec, BitVec.toNat_append, BitVec.toNat_append,
    ← Nat.shiftLeft_add_eq_or_of_lt (BitVec.isLt _), ← Nat.shiftLeft_add_eq_or_of_lt (BitVec.isLt _),
    toNat_unpackSign, toNat_unpackExponent, toNat_unpackMantissa, Nat.shiftLeft_eq, Nat.shiftLeft_eq]
  have hb : b.toNat < 18446744073709551616 := b.isLt
  have h11 : Nat.pow 2 11 = 2048 := rfl
  have h52 : Nat.pow 2 52 = 4503599627370496 := rfl
  have h63 : Nat.pow 2 63 = 9223372036854775808 := rfl
  rw [h11, h52, h63]
  dsimp only
  omega

theorem unpack_of_normal {b : BitVec Format.binary64.numBits}
    (hlow : b.toNat / Nat.pow 2 52 % Nat.pow 2 11 ≠ 0)
    (hhigh : b.toNat / Nat.pow 2 52 % Nat.pow 2 11 ≠ 2047) :
    ∃ hpos, UnpackedFloat.unpack Format.binary64 b =
      .finite (.ofBitVec (UnpackedFloat.unpackSign b)) (Nat.pow 2 52 + b.toNat % Nat.pow 2 52)
        ((b.toNat / Nat.pow 2 52 % Nat.pow 2 11 : Nat) - 1075) hpos := by
  have hzero : @UnpackedFloat.unpackExponent Format.binary64 b ≠ 0#_ := by
    rw [← toNat_unpackExponent] at hlow
    exact fun h => hlow (congrArg BitVec.toNat h)
  have hones : @UnpackedFloat.unpackExponent Format.binary64 b ≠ -1#_ := by
    rw [← toNat_unpackExponent] at hhigh
    exact fun h => hhigh (congrArg BitVec.toNat h)
  have hexponent : ((@UnpackedFloat.unpackExponent Format.binary64 b).toNat : Int) - 1075 =
      ((b.toNat / Nat.pow 2 52 % Nat.pow 2 11 : Nat) : Int) - 1075 := by
    rw [toNat_unpackExponent]
  have hfinite {sign : UnpackedFloat.Sign} {m m' : Nat} {e e' : Int} (hpos : 0 < m) (hm : m = m')
      (he : e = e') : ∃ hpos', UnpackedFloat.finite sign m e hpos = .finite sign m' e' hpos' := by
    subst hm he
    exact ⟨hpos, rfl⟩
  unfold UnpackedFloat.unpack
  dsimp only
  rw [if_neg hones, if_neg hzero]
  exact hfinite _ (toNat_leading b) hexponent

theorem pack_finite {sign : UnpackedFloat.Sign} {m : Nat} {e : Int} {hpos : 0 < m}
    (hlog : m.log2 = 52) (hexponent : (e + 1075).toNat + 1 < Nat.pow 2 11) :
    UnpackedFloat.pack Format.binary64 (.finite sign m e hpos) =
      UnpackedFloat.packComponents Format.binary64 sign (BitVec.ofNat 11 (e + 1075).toNat)
        (BitVec.ofNat 52 m) := by
  have hbiased : e + (1023 : Nat) + (52 : Nat) = e + 1075 := by omega
  change (if Nat.pow 2 11 ≤ (e + (1023 : Nat) + (52 : Nat)).toNat + 1 then _ else
    if m.log2 + 1 = 53 then UnpackedFloat.packComponents Format.binary64 sign
      (BitVec.ofNat 11 (e + (1023 : Nat) + (52 : Nat)).toNat) (BitVec.ofNat 52 m) else _) = _
  rw [hbiased, if_neg (Nat.not_le.mpr hexponent), hlog, if_pos rfl]

/-- A double with a leading one keeps its fields. -/
theorem pack_unpack_of_normal {b : BitVec Format.binary64.numBits}
    (hlow : b.toNat / Nat.pow 2 52 % Nat.pow 2 11 ≠ 0)
    (hhigh : b.toNat / Nat.pow 2 52 % Nat.pow 2 11 ≠ 2047) :
    UnpackedFloat.pack Format.binary64 (UnpackedFloat.unpack Format.binary64 b) = b := by
  obtain ⟨hpos, hunpack⟩ := unpack_of_normal hlow hhigh
  have hexponent : b.toNat / Nat.pow 2 52 % Nat.pow 2 11 < Nat.pow 2 11 := Nat.mod_lt _ (by decide)
  have hmantissa : b.toNat % Nat.pow 2 52 < Nat.pow 2 52 := Nat.mod_lt _ (by decide)
  have hlog : (Nat.pow 2 52 + b.toNat % Nat.pow 2 52).log2 = 52 :=
    (Nat.log2_eq_iff (Nat.ne_of_gt hpos)).mpr
      ⟨Nat.le_add_right _ _, Nat.add_lt_add_left hmantissa (Nat.pow 2 52)⟩
  have hbiased : (((b.toNat / Nat.pow 2 52 % Nat.pow 2 11 : Nat) : Int) - 1075 + 1075).toNat =
      b.toNat / Nat.pow 2 52 % Nat.pow 2 11 := by
    rw [Int.sub_add_cancel, Int.toNat_natCast]
  have hfield : BitVec.ofNat 11 (b.toNat / Nat.pow 2 52 % Nat.pow 2 11) =
      @UnpackedFloat.unpackExponent Format.binary64 b := by
    apply BitVec.eq_of_toNat_eq
    rw [BitVec.toNat_ofNat, toNat_unpackExponent]
    exact Nat.mod_eq_of_lt hexponent
  have hfraction : BitVec.ofNat 52 (Nat.pow 2 52 + b.toNat % Nat.pow 2 52) =
      @UnpackedFloat.unpackMantissa Format.binary64 b := by
    apply BitVec.eq_of_toNat_eq
    rw [BitVec.toNat_ofNat, toNat_unpackMantissa]
    exact (Nat.add_mod_left _ _).trans (Nat.mod_eq_of_lt hmantissa)
  rw [hunpack, pack_finite hlog, hbiased, hfield, hfraction]
  · exact packComponents_unpack b
  · have h11 : Nat.pow 2 11 = 2048 := rfl
    rw [hbiased]
    omega

theorem toBits_ofBits_of_normal {b : UInt64} (hlow : b.toNat / Nat.pow 2 52 % Nat.pow 2 11 ≠ 0)
    (hhigh : b.toNat / Nat.pow 2 52 % Nat.pow 2 11 ≠ 2047) : (Float.ofBits b).toBits = b :=
  congrArg UInt64.ofBitVec (pack_unpack_of_normal hlow hhigh)

/-! ### The value of a double -/

/-- The value of a finite double in units of `2 ^ -1074`, of which every finite double is a multiple. -/
def units? (x : Float) : Option Int :=
  match UnpackedFloat.unpack Format.binary64 x.toBits.toBitVec with
  | .zero _ => some 0
  | .finite .positive m e _ => some (m * Nat.pow 2 (e + 1074).toNat : Nat)
  | .finite .negative m e _ => some (-(m * Nat.pow 2 (e + 1074).toNat : Nat))
  | .infinity _ | .notANumber => none

/-- How far a number of units is from an integer. -/
def unitsFrom (n w : Int) : Nat :=
  (n * Nat.pow 2 1074 - w).natAbs

/-- The double nearest to an integer: every other finite double is further away, or as far and then the
last bit is zero. Zero has no sign. -/
def IsNearest (n : Int) (x : Float) : Prop :=
  (n = 0 → x.toBits = 0) ∧ ∃ v, units? x = some v ∧ ∀ y w, units? y = some w → w ≠ v →
    unitsFrom n v < unitsFrom n w ∨ (unitsFrom n v = unitsFrom n w ∧ x.toBits.toNat % 2 = 0)

/-- A finite double is a number of 53 bits times a power of two. -/
theorem exists_of_units? {x : Float} {v : Int} (h : units? x = some v) :
    ∃ m q : Nat, m < Nat.pow 2 53 ∧ v.natAbs = m * Nat.pow 2 q := by
  unfold units? at h
  rcases unpack_cases x.toBits.toBitVec with ⟨-, -, sign, hunpack⟩ | ⟨-, -, hunpack⟩ |
    ⟨-, ⟨sign, hunpack⟩ | ⟨sign, m, e, hpos, hm, hunpack⟩⟩
  · rw [hunpack] at h
    cases h
  · rw [hunpack] at h
    cases h
  · rw [hunpack] at h
    cases h
    exact ⟨0, 0, by decide, rfl⟩
  · rw [hunpack] at h
    cases sign with
    | positive =>
        cases h
        exact ⟨m, _, hm, Int.natAbs_natCast _⟩
    | negative =>
        cases h
        exact ⟨m, _, hm, (Int.natAbs_neg _).trans (Int.natAbs_natCast _)⟩

/-- A mantissa with its leading one, at an exponent that doubles have. -/
structure IsNormal (m : Nat) (e : Int) : Prop where
  leading : Nat.pow 2 52 ≤ m
  bits : m < Nat.pow 2 53
  least : -1074 ≤ e
  greatest : e ≤ 971

namespace IsNormal

variable {m : Nat} {e : Int}

theorem fields (h : IsNormal m e) {negative : Bool} {b : Nat}
    (hb : b = (Binary64.finite negative m e).toBits) :
    b < Nat.pow 2 64 ∧ b / Nat.pow 2 63 % 2 = negative.toNat ∧
      b / Nat.pow 2 52 % Nat.pow 2 11 = (e + 1075).toNat ∧ b % Nat.pow 2 52 = m - Nat.pow 2 52 := by
  obtain ⟨hm, hm', he, he'⟩ := h
  have h11 : Nat.pow 2 11 = 2048 := rfl
  have h52 : Nat.pow 2 52 = 4503599627370496 := rfl
  have h53 : Nat.pow 2 53 = 9007199254740992 := rfl
  have h63 : Nat.pow 2 63 = 9223372036854775808 := rfl
  have h64 : Nat.pow 2 64 = 18446744073709551616 := rfl
  rw [Binary64.toBits, if_neg (Nat.not_lt.mpr hm), h52, h63] at hb
  rw [h52] at hm
  rw [h53] at hm'
  rw [h11, h52, h63, h64]
  cases negative with
  | true =>
      rw [if_pos rfl] at hb
      rw [Bool.toNat_true]
      omega
  | false =>
      rw [if_neg Bool.false_ne_true] at hb
      rw [Bool.toNat_false]
      omega

theorem toNat_toBits (h : IsNormal m e) (negative : Bool) :
    (Binary64.finite negative m e).toFloat.toBits.toNat = (Binary64.finite negative m e).toBits := by
  obtain ⟨hlt, -, hfield, -⟩ := h.fields (Eq.refl (Binary64.finite negative m e).toBits)
  have hleast := h.least
  have hgreatest := h.greatest
  have htoNat : (UInt64.ofNat (Binary64.finite negative m e).toBits).toNat =
      (Binary64.finite negative m e).toBits := UInt64.toNat_ofNat_of_lt' hlt
  rw [Binary64.toFloat, toBits_ofBits_of_normal, htoNat]
  · rw [htoNat, hfield]
    omega
  · rw [htoNat, hfield]
    omega

theorem toBits_mod_two (h : IsNormal m e) (negative : Bool) :
    (Binary64.finite negative m e).toFloat.toBits.toNat % 2 = m % 2 := by
  obtain ⟨-, -, -, hfraction⟩ := h.fields (h.toNat_toBits negative)
  have hm := h.leading
  have h52 : Nat.pow 2 52 = 4503599627370496 := rfl
  rw [h52] at hfraction hm
  omega

theorem units? (h : IsNormal m e) (negative : Bool) :
    units? (Binary64.finite negative m e).toFloat =
      some (signedNat negative (m * Nat.pow 2 (e + 1074).toNat)) := by
  obtain ⟨-, hsign, hfield, hfraction⟩ := h.fields (h.toNat_toBits negative)
  obtain ⟨hm, -, he, he'⟩ := h
  generalize (Binary64.finite negative m e).toFloat = x at *
  have hunpack := @unpack_of_normal x.toBits.toBitVec
    (by rw [UInt64.toNat_toBitVec, hfield]; omega) (by rw [UInt64.toNat_toBitVec, hfield]; omega)
  have hexponent : ((e + 1075).toNat : Int) - 1075 = e := by omega
  rw [UInt64.toNat_toBitVec, hfield, hfraction, Nat.add_sub_cancel' hm, hexponent] at hunpack
  obtain ⟨hpos, hunpack⟩ := hunpack
  have hbit : @UnpackedFloat.unpackSign Format.binary64 x.toBits.toBitVec =
      BitVec.ofNat 1 negative.toNat := by
    apply BitVec.eq_of_toNat_eq
    rw [toNat_unpackSign, UInt64.toNat_toBitVec, hsign, BitVec.toNat_ofNat]
    cases negative <;> rfl
  unfold Decimal.units?
  rw [hunpack, hbit]
  cases negative <;> rfl

end IsNormal

/-! ### Rounding -/

/-- `r` is the integer nearest to `n / d`, and even where two are. -/
structure RoundsTo (n d r : Nat) : Prop where
  below : 2 * n ≤ 2 * (r * d) + d
  above : 2 * (r * d) ≤ 2 * n + d
  even : 2 * n = 2 * (r * d) + d ∨ 2 * (r * d) = 2 * n + d → r % 2 = 0

theorem Fraction.round_spec (v : Fraction) (h : 0 < v.den) : RoundsTo v.num v.den v.round := by
  have hdiv : v.num / v.den * v.den + v.num % v.den = v.num := Nat.div_add_mod' v.num v.den
  have hmod : v.num % v.den < v.den := Nat.mod_lt _ h
  have hsucc : (v.num / v.den + 1) * v.den = v.num / v.den * v.den + v.den := Nat.succ_mul _ _
  unfold Fraction.round Fraction.floor
  dsimp only
  split
  · constructor <;> omega
  · split
    · constructor <;> rw [hsucc] <;> omega
    · split
      · rename_i heven
        have := beq_iff_eq.mp heven
        constructor <;> omega
      · rename_i hodd
        have : ¬ v.num / v.den % 2 = 0 := fun h => hodd (beq_iff_eq.mpr h)
        constructor <;> rw [hsucc] <;> omega

namespace RoundsTo

variable {n d r : Nat}

theorem scale (h : RoundsTo n d r) {c : Nat} (hc : 0 < c) : RoundsTo (n * c) (d * c) r := by
  have hleft (x : Nat) : 2 * (x * c) = 2 * x * c := (Nat.mul_assoc 2 x c).symm
  have hright : 2 * (r * (d * c)) = 2 * (r * d) * c := by
    rw [← Nat.mul_assoc r d c, hleft]
  refine ⟨?_, ?_, fun htie => h.even ?_⟩
  · rw [hleft, hright, ← Nat.add_mul]
    exact Nat.mul_le_mul_right c h.below
  · rw [hleft, hright, ← Nat.add_mul]
    exact Nat.mul_le_mul_right c h.above
  · rw [hleft, hright, ← Nat.add_mul, ← Nat.add_mul] at htie
    exact htie.imp (Nat.eq_of_mul_eq_mul_right hc) (Nat.eq_of_mul_eq_mul_right hc)

/-- Another multiple is further away, or as far and then the nearest one is even. -/
theorem nearest (h : RoundsTo n d r) {c : Int} (hc : c ≠ r) :
    ((n : Int) - (r * d : Nat)).natAbs < ((n : Int) - c * d).natAbs ∨
      ((n : Int) - (r * d : Nat)).natAbs = ((n : Int) - c * d).natAbs ∧ r % 2 = 0 := by
  have hapart : c * d + d ≤ (r * d : Nat) ∨ (r * d : Nat) + (d : Int) ≤ c * d := by
    have hsucc (a b : Int) (hlt : a < b) : a * d + d ≤ b * d := by
      have := Int.mul_le_mul_of_nonneg_right (Int.add_one_le_of_lt hlt) (Int.natCast_nonneg d)
      rwa [Int.add_mul, Int.one_mul] at this
    rw [Int.natCast_mul]
    exact (Int.lt_or_gt_of_ne hc).imp (hsucc c r) (hsucc r c)
  have hbelow := h.below
  have habove := h.above
  have heven := h.even
  generalize c * (d : Int) = w at *
  generalize r * d = v at *
  omega

/-- Of the numbers of 53 bits none is nearer. -/
theorem nearest_of_bits {t s r : Nat} (h : RoundsTo t (Nat.pow 2 s) r)
    (hlow : Nat.pow 2 52 * Nat.pow 2 s ≤ t) {w : Int} {m q : Nat} (hm : m < Nat.pow 2 53)
    (hw : w.natAbs = m * Nat.pow 2 q) (hne : w ≠ (r * Nat.pow 2 s : Nat)) :
    ((t : Int) - (r * Nat.pow 2 s : Nat)).natAbs < ((t : Int) - w).natAbs ∨
      ((t : Int) - (r * Nat.pow 2 s : Nat)).natAbs = ((t : Int) - w).natAbs ∧ r % 2 = 0 := by
  by_cases hless : w < (Nat.pow 2 52 * Nat.pow 2 s : Nat)
  · left
    by_cases hr : ((Nat.pow 2 52 : Nat) : Int) = r
    · rw [← Int.natCast_inj.mp hr]
      omega
    · have := h.nearest hr
      rw [← Int.natCast_mul] at this
      omega
  · have hq : s ≤ q := by
      refine Nat.le_of_not_lt fun hlt => hless ?_
      have hpow : 2 * Nat.pow 2 q ≤ Nat.pow 2 s :=
        calc 2 * Nat.pow 2 q = Nat.pow 2 (q + 1) := Nat.mul_comm 2 _
          _ ≤ Nat.pow 2 s := Nat.pow_le_pow_right (by decide) hlt
      have hlt : m * Nat.pow 2 q < Nat.pow 2 52 * Nat.pow 2 s :=
        calc m * Nat.pow 2 q < Nat.pow 2 53 * Nat.pow 2 q :=
              Nat.mul_lt_mul_of_pos_right hm (Nat.pow_pos (by decide))
          _ = Nat.pow 2 52 * (2 * Nat.pow 2 q) := Nat.mul_assoc (Nat.pow 2 52) 2 _
          _ ≤ Nat.pow 2 52 * Nat.pow 2 s := Nat.mul_le_mul_left _ hpow
      omega
    -- The number has the unit of the rounding as a factor.
    have hw' : w = ((m * Nat.pow 2 (q - s) : Nat) : Int) * (Nat.pow 2 s : Nat) := by
      have hfactor : m * Nat.pow 2 (q - s) * Nat.pow 2 s = m * Nat.pow 2 q :=
        calc m * Nat.pow 2 (q - s) * Nat.pow 2 s = m * (Nat.pow 2 (q - s) * Nat.pow 2 s) :=
              Nat.mul_assoc _ _ _
          _ = m * Nat.pow 2 (q - s + s) := congrArg (m * ·) (Nat.pow_add 2 _ _).symm
          _ = m * Nat.pow 2 q := by rw [Nat.sub_add_cancel hq]
      rw [← Int.natCast_mul, hfactor]
      omega
    rw [hw'] at hne ⊢
    refine h.nearest fun hc => hne ?_
    rw [hc, Int.natCast_mul]

theorem bounds (h : RoundsTo n d r) {low high : Nat} (hlow : low * d ≤ n) (hhigh : n < high * d) :
    low ≤ r ∧ r ≤ high := by
  have hd : 0 < d := Nat.pos_of_mul_pos_left (Nat.lt_of_le_of_lt (Nat.zero_le n) hhigh)
  have hbelow := h.below
  have habove := h.above
  constructor
  · refine Nat.le_of_not_lt fun hlt => ?_
    have hnext := Nat.mul_le_mul_right d hlt
    rw [Nat.succ_mul] at hnext
    omega
  · refine Nat.le_of_not_lt fun hlt => ?_
    have hnext := Nat.mul_le_mul_right d hlt
    rw [Nat.succ_mul] at hnext
    omega

end RoundsTo

theorem binaryMagnitude_whole {a : Nat} (h : a ≠ 0) :
    (Fraction.mk a 1).binaryMagnitude = a.log2 := by
  have hguess : (a.log2 : Int) - (Nat.log2 1 : Nat) = a.log2 := by
    rw [show Nat.log2 1 = 0 by decide]
    exact Int.sub_zero _
  have hscaled : (Fraction.mk a 1).unscaleBinary a.log2 = ⟨a, 1 * Nat.pow 2 a.log2⟩ :=
    if_pos (Int.natCast_nonneg _)
  unfold Fraction.binaryMagnitude
  dsimp only
  rw [hguess, hscaled]
  exact if_pos ((Nat.one_mul _).symm ▸ Nat.log2_self_le h)

theorem pow_two_mul (j k : Nat) : Nat.pow 2 j * Nat.pow 2 k = Nat.pow 2 (j + k) :=
  (Nat.pow_add 2 j k).symm

/-- Dividing an integer by a power of two and rounding gives the nearest multiple of that power. -/
theorem round_unscaleBinary (a : Nat) {k : Nat} {e : Int} (he : -k ≤ e) :
    RoundsTo (a * Nat.pow 2 k) (Nat.pow 2 (e + k).toNat)
      ((Fraction.mk a 1).unscaleBinary e).round := by
  have hpos (j : Nat) : 0 < Nat.pow 2 j := Nat.pow_pos (by decide)
  unfold Fraction.unscaleBinary
  by_cases hsign : 0 ≤ e
  · have h := (Fraction.round_spec ⟨a, 1 * Nat.pow 2 e.toNat⟩
      ((Nat.one_mul _).symm ▸ hpos _)).scale (hpos k)
    have hden : 1 * Nat.pow 2 e.toNat * Nat.pow 2 k = Nat.pow 2 (e + k).toNat := by
      rw [Nat.one_mul, pow_two_mul, Int.toNat_add_nat hsign]
    rw [if_pos hsign]
    rwa [hden] at h
  · have h := (Fraction.round_spec ⟨a * Nat.pow 2 (-e).toNat, 1⟩ Nat.one_pos).scale
      (hpos (e + k).toNat)
    have hnum : a * Nat.pow 2 (-e).toNat * Nat.pow 2 (e + k).toNat = a * Nat.pow 2 k := by
      rw [Nat.mul_assoc, pow_two_mul]
      congr 2
      omega
    rw [if_neg hsign]
    rwa [hnum, Nat.one_mul] at h

/-- A positive integer of 64 bits is rounded to a multiple of `2 ^ s` units, and the integer itself is
at least `2 ^ 52` of them. -/
theorem nearest_whole (negative : Bool) {a k : Nat} (hk : k = 1074) (hpos : a ≠ 0)
    (hlt : a < Nat.pow 2 64) :
    ∃ r s m e, Binary64.nearest negative ⟨a, 1⟩ = .finite negative m e ∧ IsNormal m e ∧
      RoundsTo (a * Nat.pow 2 k) (Nat.pow 2 s) r ∧ Nat.pow 2 52 * Nat.pow 2 s ≤ a * Nat.pow 2 k ∧
      m * Nat.pow 2 (e + 1074).toNat = r * Nat.pow 2 s ∧ (r % 2 = 0 → m % 2 = 0) := by
  have hlog : a.log2 < 64 := (Nat.log2_lt hpos).mpr hlt
  have hexponent : max ((Fraction.mk a 1).binaryMagnitude - 52) (-1074) = (a.log2 : Int) - 52 := by
    rw [binaryMagnitude_whole hpos]
    omega
  obtain ⟨s, hs⟩ : ∃ s : Nat, (a.log2 : Int) - 52 + 1074 = s := ⟨a.log2 + 1022, by omega⟩
  have hround : RoundsTo (a * Nat.pow 2 k) (Nat.pow 2 s)
      ((Fraction.mk a 1).unscaleBinary (a.log2 - 52)).round := by
    have h := @round_unscaleBinary a k (a.log2 - 52) (by omega)
    rwa [show ((a.log2 : Int) - 52 + k).toNat = s by omega] at h
  have hlow : Nat.pow 2 52 * Nat.pow 2 s ≤ a * Nat.pow 2 k :=
    calc Nat.pow 2 52 * Nat.pow 2 s = Nat.pow 2 a.log2 * Nat.pow 2 k := by
          rw [pow_two_mul, pow_two_mul, show 52 + s = a.log2 + k by omega]
      _ ≤ a * Nat.pow 2 k := Nat.mul_le_mul_right _ (Nat.log2_self_le hpos)
  have hhigh : a * Nat.pow 2 k < Nat.pow 2 53 * Nat.pow 2 s :=
    calc a * Nat.pow 2 k < Nat.pow 2 (a.log2 + 1) * Nat.pow 2 k :=
          Nat.mul_lt_mul_of_pos_right Nat.lt_log2_self (Nat.pow_pos (by decide))
      _ = Nat.pow 2 53 * Nat.pow 2 s := by
          rw [pow_two_mul, pow_two_mul, show 53 + s = a.log2 + 1 + k by omega]
  obtain ⟨hleast, hmost⟩ := hround.bounds hlow hhigh
  unfold Binary64.nearest
  rw [if_neg (by simpa using hpos)]
  dsimp only
  rw [hexponent]
  by_cases hcarry : ((Fraction.mk a 1).unscaleBinary (a.log2 - 52)).round = Nat.pow 2 53
  · -- The rounding reaches the next power of two, whose mantissa is even.
    rw [if_pos (beq_iff_eq.mpr hcarry)]
    refine ⟨_, s, Nat.pow 2 52, (a.log2 : Int) - 52 + 1, if_neg (by omega),
      ⟨Nat.le_refl _, by decide, by omega, by omega⟩, hround, hlow, ?_, fun _ => by decide⟩
    rw [hcarry, show ((a.log2 : Int) - 52 + 1 + 1074).toNat = 1 + s by omega, pow_two_mul, pow_two_mul,
      ← Nat.add_assoc]
  · rw [if_neg (fun h => hcarry (beq_iff_eq.mp h))]
    exact ⟨_, s, _, _, if_neg (by omega), ⟨hleast, by omega, by omega, by omega⟩, hround, hlow,
      by rw [hs]; rfl, id⟩

theorem isNearest_zero : IsNearest 0 (floatOfInt 0) := by
  have hbits : (floatOfInt 0).toBits = 0 := by decide
  refine ⟨fun _ => hbits, 0, by decide, fun y w _ hne => .inl ?_⟩
  unfold unitsFrom
  rw [Int.zero_mul]
  omega

/-- Changing both signs keeps the distance. -/
theorem natAbs_mul_sub (n w : Int) (p : Nat) :
    (n * p - w).natAbs = (((n.natAbs * p : Nat) : Int) - if n < 0 then -w else w).natAbs := by
  rw [Int.natCast_mul]
  split
  · rw [Int.ofNat_natAbs_of_nonpos (by omega), Int.neg_mul]
    omega
  · rw [Int.natAbs_of_nonneg (by omega)]

/-- **An integer of 64 bits converts to the nearest double.** -/
theorem isNearest_floatOfInt {n : Int} (h : n.natAbs < Nat.pow 2 64) :
    IsNearest n (floatOfInt n) := by
  by_cases hzero : n = 0
  · exact hzero ▸ isNearest_zero
  · -- The power of two that makes one out of units is too large to be computed, so it gets a name.
    obtain ⟨k, hk⟩ : ∃ k : Nat, k = 1074 := ⟨_, rfl⟩
    obtain ⟨r, s, m, e, hnearest, hnormal, hround, hlow, hvalue, heven⟩ :=
      nearest_whole (decide (n < 0)) hk (Int.natAbs_ne_zero.mpr hzero) h
    unfold floatOfInt IsNearest unitsFrom
    rw [hnearest, ← hk]
    refine ⟨fun h => absurd h hzero, _, hnormal.units? _, fun y w hw hne => ?_⟩
    rw [hvalue] at hne ⊢
    obtain ⟨m', q, hbits, hw'⟩ := exists_of_units? hw
    have hsigned : (if n < 0 then -signedNat (decide (n < 0)) (r * Nat.pow 2 s)
        else signedNat (decide (n < 0)) (r * Nat.pow 2 s)) = (r * Nat.pow 2 s : Nat) := by
      by_cases hn : n < 0 <;> simp [signedNat, hn]
    have hother : (if n < 0 then -w else w).natAbs = m' * Nat.pow 2 q := by
      split
      · rwa [Int.natAbs_neg]
      · exact hw'
    have hne' : (if n < 0 then -w else w) ≠ (r * Nat.pow 2 s : Nat) := by
      rw [← hsigned]
      split <;> omega
    rw [natAbs_mul_sub n w, natAbs_mul_sub n, hsigned, hnormal.toBits_mod_two]
    exact (hround.nearest_of_bits hlow hbits hother hne').imp_right (And.imp_right heven)

end ArrayExpr.Decimal
