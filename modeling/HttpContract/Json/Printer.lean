import HttpContract.Json
import HttpContract.Binary64.Decimal

/-!
# The compact text of a document

No blanks, members in key order, and every character as it is but for the quotation mark, the
backslash and the control characters below the space.
-/

namespace HttpContract.Json

/-- The text of a number. -/
def Number.text : Number → String
  | .int n => toString n.val
  | .float x => x.text

/-- A digit of the hexadecimal system, in lower case. -/
def hexDigit (n : Nat) : Char := (n.digitChar).toLower

/-- How one character stands in a quoted text. -/
def escapeChar (c : Char) : List Char :=
  if c = '\x22' then ['\\', '\x22']
  else if c = '\\' then ['\\', '\\']
  else if c = '\n' then ['\\', 'n']
  else if c = '\r' then ['\\', 'r']
  else if c = '\t' then ['\\', 't']
  else if c = '\x08' then ['\\', 'b']
  else if c = '\x0c' then ['\\', 'f']
  else if c.toNat < 32 then ['\\', 'u', '0', '0', hexDigit (c.toNat / 16), hexDigit (c.toNat % 16)]
  else [c]

/-- A text in quotation marks. -/
def quote (s : String) : String :=
  String.ofList ('\x22' :: s.toList.flatMap escapeChar ++ ['\x22'])

mutual

/-- The compact text of a document. -/
def render : Json → String
  | .null => "null"
  | .bool true => "true"
  | .bool false => "false"
  | .num n => n.text
  | .str s => quote s
  | .arr xs => "[" ++ renderItems xs ++ "]"
  | .obj ms => "\x7b" ++ renderMembers ms ++ "\x7d"
termination_by structural v => v

/-- The items, separated by commas. -/
def renderItems : List Json → String
  | [] => ""
  | [x] => render x
  | x :: xs => render x ++ "," ++ renderItems xs
termination_by structural v => v

/-- The members, separated by commas. -/
def renderMembers : List (String × Json) → String
  | [] => ""
  | [(k, x)] => quote k ++ ":" ++ render x
  | (k, x) :: xs => quote k ++ ":" ++ render x ++ "," ++ renderMembers xs
termination_by structural v => v

end

end HttpContract.Json
