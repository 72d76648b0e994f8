/-!
# Naturals written in a base

Digits beyond nine are letters in either case. A number has at least one digit.
-/

namespace HttpContract.Radix

/-- The value of a character as a digit; of others than digits and letters, the base itself. -/
def weight (base : Nat) (c : Char) : Nat :=
  if c.isDigit then c.toNat - 48
  else if 'a' ≤ c ∧ c ≤ 'z' then c.toNat - 87
  else if 'A' ≤ c ∧ c ≤ 'Z' then c.toNat - 55
  else base

/-- The value of a digit, if it is below the base. -/
def digit? (base : Nat) (c : Char) : Option Nat :=
  if weight base c < base then some (weight base c) else none

/-- The number written by digits. -/
def read? (base : Nat) : List Char → Option Nat
  | [] => none
  | digits => digits.foldlM (fun n c => (digit? base c).map (fun d => n * base + d)) 0

end HttpContract.Radix
