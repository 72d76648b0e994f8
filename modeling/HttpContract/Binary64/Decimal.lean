import HttpContract.Binary64

/-!
# The decimal text of a binary64 number

A number is written with the fewest digits that read back as itself, of two such decimals the
nearer one. `shortest` finds the digits by exact arithmetic: the reals that round to a number form
an interval around it, and the coarsest decimal grid with a point in that interval has one next to
the number. `DecimalLayout` says how the digits are set out.
-/

namespace HttpContract.Binary64

/-- The exponent of the power of ten at or below the positive quotient `num / den`. -/
def floorLog10 (num den : Nat) : Int :=
  let k : Int := (decimalLength num : Int) - (decimalLength den : Int)
  if den * Nat.pow 10 k.toNat ≤ num * Nat.pow 10 (-k).toNat then k else k - 1

/-- The reals that round to a positive number, in quarters of its last place. The ends belong to
the interval when the significand is even. -/
structure RoundingInterval where
  lower : Nat
  upper : Nat
  closed : Bool

/-- Below a power of two the neighbours are twice as dense as above it. -/
def roundingInterval (x : Binary64) : RoundingInterval :=
  { lower := if x.significand = leastSignificand ∧ x.exponent ≠ -1074 then 4 * x.significand - 1
      else 4 * x.significand - 2
    upper := 4 * x.significand + 2
    closed := x.significand % 2 == 0 }

/-- Whether `d * 10 ^ p` rounds to `x`. -/
def roundsTo (x : Binary64) (d : Nat) (p : Int) : Bool :=
  let i := roundingInterval x
  let unit := Nat.pow 2 (x.exponent - 2).toNat * Nat.pow 10 (-p).toNat
  let point := d * Nat.pow 10 p.toNat * Nat.pow 2 (2 - x.exponent).toNat
  if i.closed then i.lower * unit ≤ point && point ≤ i.upper * unit
  else i.lower * unit < point && point < i.upper * unit

/-- The point of the grid `10 ^ p` that rounds to `x`, of two the nearer, of two equally near the
even one. -/
def nearestOnGrid? (x : Binary64) (p : Int) : Option Nat :=
  let num := x.magnitudeNum * Nat.pow 10 (-p).toNat
  let den := x.magnitudeDen * Nat.pow 10 p.toNat
  let below := num / den
  match roundsTo x below p, roundsTo x (below + 1) p with
  | false, false => none
  | true, false => some below
  | false, true => some (below + 1)
  | true, true => some (roundQuotient num den)

/-- Divide out factors of ten, at most `fuel` of them. -/
def dropTrailingZeros : Nat → Nat → Int → Nat × Int
  | 0, d, p => (d, p)
  | fuel + 1, d, p => if d % 10 = 0 ∧ d ≠ 0 then dropTrailingZeros fuel (d / 10) (p + 1) else (d, p)

/-- Digits `d` and exponent `p` of the shortest decimal `d * 10 ^ p` that reads back as the
magnitude. Seventeen digits always suffice. -/
def shortest (x : Binary64) : Nat × Int :=
  if x.significand = 0 then (0, 0)
  else
    let top := floorLog10 x.magnitudeNum x.magnitudeDen
    let grid := fun (n : Nat) =>
      let p := top - (n : Int)
      (nearestOnGrid? x p).map (fun d => dropTrailingZeros 20 d p)
    ((List.range 17).findSome? grid).getD (0, 0)

/-- How the digits of a number are set out. -/
structure DecimalLayout where
  /-- Whether a number whose leading digit stands at `10 ^ k` is written without an exponent. -/
  positional : Int → Bool
  /-- Whether a number without a fraction ends in `.0` when written positionally. -/
  pointZero : Bool
  /-- Whether an exponent above zero has a sign. -/
  plusSign : Bool

/-- The text of `digits * 10 ^ p` without an exponent. -/
def positionalText (digits : String) (p : Int) (pointZero : Bool) : String :=
  let point := (digits.length : Int) + p
  if 0 ≤ p then
    digits ++ String.ofList (List.replicate p.toNat '0') ++ (if pointZero then ".0" else "")
  else if 0 < point then
    String.ofList (digits.toList.take point.toNat) ++ "." ++
      String.ofList (digits.toList.drop point.toNat)
  else "0." ++ String.ofList (List.replicate (-point).toNat '0') ++ digits

/-- The text of `digits * 10 ^ p` as one leading digit, a fraction and an exponent. -/
def exponentText (digits : String) (p : Int) (plusSign : Bool) : String :=
  let k := (digits.length : Int) + p - 1
  let mantissa := match digits.toList with
    | d :: f :: rest => String.ofList (d :: '.' :: f :: rest)
    | short => String.ofList short
  mantissa ++ (if k < 0 then "e-" else if plusSign then "e+" else "e") ++ toString k.natAbs

/-- The text of a number in a layout. -/
def textIn (layout : DecimalLayout) (x : Binary64) : String :=
  let (d, p) := shortest x
  let digits := toString d
  let magnitude :=
    if d = 0 ∨ layout.positional ((digits.length : Int) + p - 1) then
      positionalText digits p layout.pointZero
    else exponentText digits p layout.plusSign
  if x.negative then "-" ++ magnitude else magnitude

/-- Positional from `10 ^ -5` up to below `10 ^ 16`, and never taken for an integer. -/
def documentLayout : DecimalLayout := ⟨fun k => -5 ≤ k && k < 16, true, true⟩

/-- Always positional; a number without a fraction is written like an integer. -/
def plainLayout : DecimalLayout := ⟨fun _ => true, false, true⟩

/-- Always positional, and never taken for an integer. -/
def pointedLayout : DecimalLayout := ⟨fun _ => true, true, true⟩

/-- The text of a number in a document. -/
def text (x : Binary64) : String := textIn documentLayout x

end HttpContract.Binary64
