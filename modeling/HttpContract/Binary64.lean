/-!
# Finite binary64 numbers

`Binary64` holds a finite number of the IEEE 754 format binary64 as sign, significand and exponent.
Every operation is exact arithmetic on naturals followed by one rounding to the nearest such
number, of two equally near ones the one with the even significand (`ofRatio?`). A result beyond
the finite range is `none`: infinities and NaNs are no numbers here.
-/

namespace HttpContract

/-- Significands have 53 bits: they stay below this power of two. -/
abbrev Binary64.significandLimit : Nat := 0x20000000000000

/-- The least significand, half of the limit, except of the numbers with the least exponent. -/
abbrev Binary64.leastSignificand : Nat := 0x10000000000000

/-- The pairs of significand and exponent that stand for a finite magnitude, one per magnitude. -/
def Binary64.Canonical (significand : Nat) (exponent : Int) : Prop :=
  significand < Binary64.significandLimit ∧ -1074 ≤ exponent ∧ exponent ≤ 971 ∧
    (Binary64.leastSignificand ≤ significand ∨ exponent = -1074)

instance (m : Nat) (e : Int) : Decidable (Binary64.Canonical m e) := by
  unfold Binary64.Canonical; infer_instance

/-- The finite number `± significand * 2 ^ exponent`; zero has a sign. -/
structure Binary64 where
  negative : Bool
  significand : Nat
  exponent : Int
  canonical : Binary64.Canonical significand exponent
deriving DecidableEq

namespace Binary64

/-- Zero with the given sign. -/
def zero (negative : Bool) : Binary64 := ⟨negative, 0, -1074, by decide⟩

instance : Inhabited Binary64 := ⟨zero false⟩

/-- Positive and negative zero. -/
def isZero (x : Binary64) : Bool := x.significand == 0

/-- The numerator of the magnitude. -/
def magnitudeNum (x : Binary64) : Nat := x.significand * Nat.pow 2 x.exponent.toNat

/-- The denominator of the magnitude, a power of two. -/
def magnitudeDen (x : Binary64) : Nat := Nat.pow 2 (-x.exponent).toNat

/-- The real number denoted. -/
def toRat (x : Binary64) : Rat :=
  mkRat (if x.negative then -(x.magnitudeNum : Int) else x.magnitudeNum) x.magnitudeDen

/-- Whether the number has no fraction. -/
def isIntegral (x : Binary64) : Bool := x.magnitudeNum % x.magnitudeDen == 0

/-- The integer part, toward zero. -/
def truncate (x : Binary64) : Int :=
  let magnitude : Int := (x.magnitudeNum / x.magnitudeDen : Nat)
  if x.negative then -magnitude else magnitude

/-- Change the sign. -/
def neg (x : Binary64) : Binary64 := { x with negative := !x.negative }

/-! ## Rounding -/

/-- The natural nearest to `num / den`; a tie goes to the even neighbour. -/
def roundQuotient (num den : Nat) : Nat :=
  let q := num / den
  let r := num % den
  if 2 * r < den then q
  else if den < 2 * r then q + 1
  else if q % 2 = 0 then q else q + 1

/-- The quotient `num / den / 2 ^ e` as numerator and denominator. -/
def scaleDown (num den : Nat) (e : Int) : Nat × Nat :=
  (num * Nat.pow 2 (-e).toNat, den * Nat.pow 2 e.toNat)

/-- The exponent of the power of two at or below the positive quotient `num / den`. -/
def floorLog2 (num den : Nat) : Int :=
  let k : Int := (num.log2 : Int) - (den.log2 : Int)
  let (n, d) := scaleDown num den k
  if d ≤ n then k else k - 1

/-- The number nearest to `± num / den`, or `none` beyond the finite range. -/
def ofRatio? (negative : Bool) (num den : Nat) : Option Binary64 :=
  if num = 0 then some (zero negative)
  else
    let e := max (floorLog2 num den - 52) (-1074)
    let (n, d) := scaleDown num den e
    let q := roundQuotient n d
    let (m, e) := if q = significandLimit then (leastSignificand, e + 1) else (q, e)
    if h : Canonical m e then some ⟨negative, m, e, h⟩ else none

/-- The number nearest to an integer. -/
def ofInt? (n : Int) : Option Binary64 := ofRatio? (n < 0) n.natAbs 1

/-- The product, rounded once. -/
def mul? (x y : Binary64) : Option Binary64 :=
  ofRatio? (x.negative != y.negative) (x.magnitudeNum * y.magnitudeNum)
    (x.magnitudeDen * y.magnitudeDen)

/-- The quotient by a non-zero number, rounded once. -/
def div? (x y : Binary64) : Option Binary64 :=
  ofRatio? (x.negative != y.negative) (x.magnitudeNum * y.magnitudeDen)
    (x.magnitudeDen * y.magnitudeNum)

/-- The number nearest to a power of ten with a small exponent. -/
def tenPow (k : Nat) : Binary64 := (ofRatio? false (Nat.pow 10 k) 1).getD (zero false)

/-! ## Decimals -/

/-- How many decimal digits a natural has; zero has one. -/
def decimalLength (n : Nat) : Nat := (Nat.toDigits 10 n).length

/-- The number nearest to `± digits * 10 ^ exponent`. Exponents far outside the format's range are
settled without computing the power. -/
def ofDecimal? (negative : Bool) (digits : Nat) (exponent : Int) : Option Binary64 :=
  let scale := (decimalLength digits : Int) + exponent
  if digits = 0 ∨ scale < -400 then some (zero negative)
  else if 400 < scale then none
  else ofRatio? negative (digits * Nat.pow 10 exponent.toNat) (Nat.pow 10 (-exponent).toNat)

end Binary64

end HttpContract
