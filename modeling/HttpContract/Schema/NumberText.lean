import HttpContract.Json

/-!
# Numbers written as texts

Query strings, path parameters and headers carry numbers as texts. A text is first read as an
integer of 64 bits and, where it is none, as a decimal rounded to the nearest binary64 number.
Blanks, digit separators and other bases are not accepted, and neither are the names of infinities.
-/

namespace HttpContract.NumberText

/-- The value of a text of decimal digits; the empty one has none. -/
def digits? (cs : List Char) : Option Nat :=
  if cs.isEmpty ∨ !cs.all Char.isDigit then none
  else some (cs.foldl (fun n c => n * 10 + (c.toNat - 48)) 0)

/-- Split a sign off; `true` is minus. -/
def splitSign : List Char → Bool × List Char
  | '-' :: rest => (true, rest)
  | '+' :: rest => (false, rest)
  | cs => (false, cs)

/-- An optionally signed integer. -/
def integer? (cs : List Char) : Option Int :=
  let (negative, rest) := splitSign cs
  (digits? rest).map (fun n => if negative then -(n : Int) else n)

/-- A decimal `± digits * 10 ^ exponent` as written. -/
structure Decimal where
  negative : Bool
  digits : Nat
  exponent : Int
deriving DecidableEq, Repr

/-- An optionally signed decimal: digits with at most one point among or beside them, at least one
digit, and an optional exponent. -/
def decimal? (cs : List Char) : Option Decimal :=
  let (negative, rest) := splitSign cs
  let whole := rest.takeWhile Char.isDigit
  let rest := rest.dropWhile Char.isDigit
  let (fraction, rest) := match rest with
    | '.' :: more => (more.takeWhile Char.isDigit, more.dropWhile Char.isDigit)
    | more => ([], more)
  let exponent : Option Int := match rest with
    | [] => some 0
    | 'e' :: more => integer? more
    | 'E' :: more => integer? more
    | _ => none
  match digits? (whole ++ fraction), exponent with
  | some d, some e => some ⟨negative, d, e - fraction.length⟩
  | _, _ => none

/-- The number a text denotes. -/
def read? (s : String) : Option Json.Number :=
  match (integer? s.toList).bind Json.Integer.ofInt? with
  | some n => some (.int n)
  | none =>
    match decimal? s.toList with
    | some d => (Binary64.ofDecimal? d.negative d.digits d.exponent).map .float
    | none => none

end HttpContract.NumberText
