import Mathlib.Data.Rat.Defs
import HttpContract.Schema.Coercion

/-!
# Numbers without a fraction

A binary64 number is a whole number if and only if its denominator divides its numerator, and it is
then its own integer part (`Binary64.toRat_eq_intCast_iff`). Except for the two zeros, different
numbers denote different reals (`Binary64.eq_of_toRat_eq`). So the conversion of texts to integers
can be compared with the numbers that the texts denote (`Coercion.coerce?_integer_text`): it keeps
the number, with one exception. The greatest signed word is no binary64 number, and the bound it is
rounded to, `2 ^ 63`, is converted to the word itself.
-/

namespace HttpContract

/-! ## Whole numbers -/

namespace Binary64

variable {x y : Binary64} {i : Int}

/-- The numerator with its sign. -/
def signedNum (x : Binary64) : Int :=
  if x.negative then -(x.magnitudeNum : Int) else x.magnitudeNum

theorem natAbs_signedNum (x : Binary64) : x.signedNum.natAbs = x.magnitudeNum := by
  unfold signedNum
  split <;> omega

theorem magnitudeDen_pos (x : Binary64) : 0 < x.magnitudeDen := Nat.pow_pos (by decide)

theorem toRat_eq_intCast_iff_mul : x.toRat = (i : Rat) ↔ x.signedNum = i * x.magnitudeDen := by
  rw [← Rat.mkRat_one, toRat, Rat.mkRat_eq_iff x.magnitudeDen_pos.ne' (by decide), signedNum,
    Int.natCast_one, Int.mul_one]

theorem toRat_of_isIntegral (h : x.isIntegral = true) : x.toRat = (x.truncate : Rat) := by
  have hdvd : x.magnitudeDen ∣ x.magnitudeNum := Nat.dvd_of_mod_eq_zero (eq_of_beq h)
  have hcancel : ((x.magnitudeNum / x.magnitudeDen : Nat) : Int) * x.magnitudeDen =
      x.magnitudeNum := by
    exact_mod_cast Nat.div_mul_cancel hdvd
  rw [toRat_eq_intCast_iff_mul, signedNum, truncate]
  split
  · rw [Int.neg_mul, hcancel]
  · exact hcancel.symm

theorem isIntegral_of_toRat (h : x.toRat = (i : Rat)) : x.isIntegral = true := by
  have habs : x.magnitudeNum = i.natAbs * x.magnitudeDen := by
    rw [← natAbs_signedNum, toRat_eq_intCast_iff_mul.mp h, Int.natAbs_mul, Int.natAbs_natCast]
  rw [isIntegral, habs, Nat.mul_mod_left]
  rfl

/-- A whole number is its integer part. -/
theorem toRat_eq_intCast_iff : x.toRat = (i : Rat) ↔ x.isIntegral = true ∧ x.truncate = i := by
  constructor
  · intro h
    have hintegral := isIntegral_of_toRat h
    exact ⟨hintegral, Rat.intCast_inj.mp ((toRat_of_isIntegral hintegral).symm.trans h)⟩
  · rintro ⟨hintegral, rfl⟩
    exact toRat_of_isIntegral hintegral

/-! ## One number for each value -/

/-- Of two equal magnitudes the one with the lesser exponent cannot have more bits than there are. -/
theorem magnitude_inj_of_le (hle : x.exponent ≤ y.exponent)
    (heq : x.magnitudeNum * y.magnitudeDen = y.magnitudeNum * x.magnitudeDen) :
    x.significand = y.significand ∧ x.exponent = y.exponent := by
  obtain ⟨hlt, hleast, -, -⟩ := x.canonical
  obtain ⟨-, -, -, hbits⟩ := y.canonical
  obtain ⟨k, hk⟩ := Int.eq_ofNat_of_zero_le (Int.sub_nonneg.mpr hle)
  have hpow : 2 ^ y.exponent.toNat * 2 ^ (-x.exponent).toNat =
      2 ^ k * (2 ^ x.exponent.toNat * 2 ^ (-y.exponent).toNat) := by
    rw [← Nat.pow_add, ← Nat.pow_add, ← Nat.pow_add]
    congr 1
    omega
  have hshift : x.significand = y.significand * 2 ^ k := by
    change x.significand * 2 ^ x.exponent.toNat * 2 ^ (-y.exponent).toNat =
      y.significand * 2 ^ y.exponent.toNat * 2 ^ (-x.exponent).toNat at heq
    rw [Nat.mul_assoc, Nat.mul_assoc, hpow, ← Nat.mul_assoc y.significand] at heq
    exact Nat.eq_of_mul_eq_mul_right (Nat.mul_pos (Nat.pow_pos (by decide))
      (Nat.pow_pos (by decide))) heq
  -- Were the exponents different, `x` would have twice the significand of `y` or more. So `y` would
  -- have the least exponent of all, and `x` one below it.
  cases k with
  | zero =>
    exact ⟨by rw [hshift, Nat.pow_zero, Nat.mul_one], by omega⟩
  | succ k =>
    have hdouble : y.significand * 2 ≤ x.significand := by
      rw [hshift, Nat.pow_succ]
      exact Nat.mul_le_mul_left y.significand
        (Nat.le_mul_of_pos_left 2 (Nat.pow_pos (by decide)))
    have hlimit : significandLimit = leastSignificand * 2 := rfl
    have hfirst : y.exponent = -1074 := hbits.resolve_left (by omega)
    omega

theorem magnitude_inj (heq : x.magnitudeNum * y.magnitudeDen = y.magnitudeNum * x.magnitudeDen) :
    x.significand = y.significand ∧ x.exponent = y.exponent := by
  rcases Int.le_total x.exponent y.exponent with hle | hle
  · exact magnitude_inj_of_le hle heq
  · obtain ⟨hm, he⟩ := magnitude_inj_of_le hle heq.symm
    exact ⟨hm.symm, he.symm⟩

/-- Numbers that denote the same are the same, unless they are zero. -/
theorem eq_of_toRat_eq (hx : x.significand ≠ 0) (h : x.toRat = y.toRat) : x = y := by
  have hcross : x.signedNum * y.magnitudeDen = y.signedNum * x.magnitudeDen :=
    (Rat.mkRat_eq_iff x.magnitudeDen_pos.ne' y.magnitudeDen_pos.ne').mp h
  have hmagnitude : x.magnitudeNum * y.magnitudeDen = y.magnitudeNum * x.magnitudeDen := by
    simpa [Int.natAbs_mul, natAbs_signedNum] using congrArg Int.natAbs hcross
  obtain ⟨hm, he⟩ := magnitude_inj hmagnitude
  -- Equal products of different signs are zero, so here the sign needs that `x` is not.
  have hsign : x.negative = y.negative := by
    have hpositive : 0 < x.magnitudeNum * y.magnitudeDen :=
      Nat.mul_pos (Nat.mul_pos (Nat.pos_of_ne_zero hx) (Nat.pow_pos (by decide)))
        y.magnitudeDen_pos
    have hleft : 0 < (x.magnitudeNum : Int) * y.magnitudeDen := by exact_mod_cast hpositive
    have hright : 0 < (y.magnitudeNum : Int) * x.magnitudeDen := by
      exact_mod_cast hmagnitude ▸ hpositive
    unfold signedNum at hcross
    cases hn : x.negative <;> cases hn' : y.negative <;>
      simp only [hn, hn', if_true, if_false, Bool.false_eq_true, Int.neg_mul] at hcross ⊢ <;> omega
  obtain ⟨negative, m, e, hc⟩ := x
  obtain ⟨negative', m', e', hc'⟩ := y
  obtain rfl : negative = negative' := hsign
  obtain rfl : m = m' := hm
  obtain rfl : e = e' := he
  rfl

end Binary64

/-! ## The integers of texts -/

namespace Coercion

variable {n x : Json.Number} {i : Json.Integer}

/-- The binary64 number `2 ^ 63`, which the greatest signed word is rounded to. -/
def signedEnd : Binary64 := ⟨false, Binary64.leastSignificand, 11, by decide⟩

/-- What is made of a number where an integer is asked for. -/
inductive Converts : Json.Number → Json.Integer → Prop
  /-- An integer stays as it is. -/
  | integer (i : Json.Integer) : Converts (.int i) i
  /-- A whole number below `2 ^ 63` is the integer it denotes. -/
  | whole {x : Binary64} {i : Json.Integer} (hvalue : x.toRat = (i.val : Rat))
      (hlt : i.val < signedLimit) : Converts (.float x) i
  /-- The number `2 ^ 63` becomes the greatest signed word. -/
  | last {i : Json.Integer} (hi : i.val = signedLimit - 1) : Converts (.float signedEnd) i

theorem toRat_signedEnd : signedEnd.toRat = (signedLimit : Rat) :=
  Binary64.toRat_eq_intCast_iff.mpr ⟨by decide, by decide⟩

theorem eq_signedEnd {x : Binary64} (h : x.toRat = (signedLimit : Rat)) : x = signedEnd :=
  (Binary64.eq_of_toRat_eq (by decide) (toRat_signedEnd.trans h.symm)).symm

theorem clampSigned_eq_self {k : Int} (hlower : -signedLimit ≤ k) (hupper : k < signedLimit) :
    clampSigned k = k := by
  unfold clampSigned
  omega

theorem converts_of_toInteger? {x : Binary64} (h : toInteger? (.float x) = some n) :
    ∃ i, n = .int i ∧ Converts (.float x) i := by
  rw [toInteger?] at h
  by_cases hrange : x.isIntegral = true ∧ -signedLimit ≤ x.truncate ∧ x.truncate ≤ signedLimit
  · rw [if_pos hrange] at h
    obtain ⟨i, hclamp, rfl⟩ := Option.map_eq_some_iff.mp h
    rw [Json.Integer.ofInt?_eq_some_iff] at hclamp
    obtain ⟨hintegral, hlower, hupper⟩ := hrange
    have hvalue := Binary64.toRat_of_isIntegral hintegral
    refine ⟨i, rfl, ?_⟩
    -- The comparison lets the bound itself through, and only there clamping changes anything.
    rcases Int.lt_or_eq_of_le hupper with hlt | heq
    · rw [clampSigned_eq_self hlower hlt] at hclamp
      exact .whole (hclamp ▸ hvalue) (hclamp ▸ hlt)
    · rw [heq] at hvalue hclamp
      rw [eq_signedEnd hvalue]
      exact .last hclamp
  · rw [if_neg hrange] at h
    cases h

theorem toInteger?_of_converts (h : Converts x i) : toInteger? x = some (.int i) := by
  cases h with
  | integer => rfl
  | @whole x _ hvalue hlt =>
    obtain ⟨hintegral, htruncate⟩ := Binary64.toRat_eq_intCast_iff.mp hvalue
    have hlower : -signedLimit ≤ i.val := i.lower
    have hrange : x.isIntegral = true ∧ -signedLimit ≤ x.truncate ∧ x.truncate ≤ signedLimit := by
      rw [htruncate]
      exact ⟨hintegral, hlower, Int.le_of_lt hlt⟩
    rw [toInteger?, if_pos hrange, htruncate, clampSigned_eq_self hlower hlt,
      Json.Integer.ofInt?_val]
    rfl
  | last hi =>
    have hclamp : Json.Integer.ofInt? (clampSigned signedEnd.truncate) = some i :=
      Json.Integer.ofInt?_eq_some_iff.mpr hi
    rw [toInteger?, if_pos (by decide), hclamp]
    rfl

theorem toInteger?_eq_some_iff :
    toInteger? x = some n ↔ ∃ i, n = .int i ∧ Converts x i := by
  constructor
  · intro h
    cases x with
    | int i => exact ⟨i, (Option.some.inj h).symm, .integer i⟩
    | float x => exact converts_of_toInteger? h
  · rintro ⟨i, rfl, h⟩
    exact toInteger?_of_converts h

/-- A conversion keeps the number, but for the one beyond the words. -/
theorem Converts.toRat_eq_iff (h : Converts x i) :
    x.toRat = (i.val : Rat) ↔ x ≠ .float signedEnd := by
  cases h with
  | integer i => exact iff_of_true rfl Json.Number.noConfusion
  | whole hvalue hlt =>
    refine iff_of_true hvalue ?_
    rintro ⟨⟩
    have heq := Rat.intCast_inj.mp (toRat_signedEnd.symm.trans hvalue)
    omega
  | last hi =>
    refine iff_of_false ?_ (fun hne => hne rfl)
    intro heq
    have hlimit := Rat.intCast_inj.mp (toRat_signedEnd.symm.trans heq)
    omega

/-- A text becomes an integer if and only if it is read as a number that is converted to one, and
the integer is then the number read, unless that is `2 ^ 63` with a point or an exponent. -/
theorem coerce?_integer_text (s : String) :
    (∀ w, coerce? (.str s) .integer = some w ↔
      ∃ x i, NumberText.read? s = some x ∧ Converts x i ∧ w = .num (.int i)) ∧
    ∀ x i, NumberText.read? s = some x → coerce? (.str s) .integer = some (.num (.int i)) →
      (x.toRat = (i.val : Rat) ↔ x ≠ .float signedEnd) := by
  have hcoerce : coerce? (.str s) .integer =
      ((NumberText.read? s).bind toInteger?).map .num := rfl
  constructor
  · intro w
    rw [hcoerce]
    constructor
    · intro h
      obtain ⟨n, hn, rfl⟩ := Option.map_eq_some_iff.mp h
      obtain ⟨x, hx, hinteger⟩ := Option.bind_eq_some_iff.mp hn
      obtain ⟨i, rfl, hconverts⟩ := toInteger?_eq_some_iff.mp hinteger
      exact ⟨x, i, hx, hconverts, rfl⟩
    · rintro ⟨x, i, hx, hconverts, rfl⟩
      rw [hx, Option.bind_some, toInteger?_of_converts hconverts]
      rfl
  · intro x i hx h
    have hinteger : toInteger? x = some (.int i) := by
      rw [hcoerce, hx, Option.bind_some] at h
      obtain ⟨n, hn, heq⟩ := Option.map_eq_some_iff.mp h
      cases heq
      exact hn
    obtain ⟨_, heq, hconverts⟩ := toInteger?_eq_some_iff.mp hinteger
    cases heq
    exact hconverts.toRat_eq_iff

/-- The bound is read as itself and converted to the word before it. -/
theorem coerce?_integer_clamped :
    NumberText.read? "9223372036854775808.0" = some (.float signedEnd) ∧
    coerce? (.str "9223372036854775808.0") .integer =
      some (.num (.int ⟨0x7fffffffffffffff, by decide, by decide⟩)) ∧
    signedEnd.toRat ≠ ((0x7fffffffffffffff : Int) : Rat) := by
  decide +kernel

end Coercion

end HttpContract
