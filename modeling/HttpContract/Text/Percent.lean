import HttpContract.Text.Utf8

/-!
# Percent-encoded bytes

`decode` replaces each percent sign with two hexadecimal digits by the byte they name; any other
percent sign stays.
-/

namespace HttpContract.Percent

/-- The value of a hexadecimal digit. -/
def hexValue? (b : UInt8) : Option UInt8 :=
  if 0x30 ≤ b ∧ b ≤ 0x39 then some (b - 0x30)
  else if 0x61 ≤ b ∧ b ≤ 0x66 then some (b - 0x61 + 10)
  else if 0x41 ≤ b ∧ b ≤ 0x46 then some (b - 0x41 + 10)
  else none

/-- The bytes behind their percent-encoded form. -/
def decode : List UInt8 → List UInt8
  | [] => []
  | 0x25 :: a :: b :: rest =>
    match hexValue? a, hexValue? b with
    | some x, some y => (x * 16 + y) :: decode rest
    | _, _ => 0x25 :: decode (a :: b :: rest)
  | c :: rest => c :: decode rest

/-- The text behind its percent-encoded form, if the bytes are well-formed. -/
def decodeText? (s : String) : Option String := Utf8.decode? (decode (Utf8.encode s))

end HttpContract.Percent
