import HttpContract.Text.Category

/-!
# Texts made visible

A text in double quotation marks in which nothing is hidden: control characters, blanks other than
the space, unassigned characters and marks that combine with the character before them are written
as escapes, as are the quotation mark and the backslash.
-/

namespace HttpContract.Visible

/-- Characters that extend the one before them although their category does not tell. -/
def isJoiner (c : Char) : Bool :=
  [0x9be, 0x9d7, 0xb3e, 0xb57, 0xbbe, 0xbd7, 0xcc2, 0xcd5, 0xcd6, 0xd3e, 0xd57, 0xdcf, 0xddf,
    0x1b35, 0x302e, 0x302f, 0xff9e, 0xff9f, 0x1133e, 0x11357, 0x114b0, 0x114bd, 0x115af, 0x11930,
    0x1d165, 0x1d16e, 0x1d16f, 0x1d170, 0x1d171, 0x1d172].contains c.toNat

/-- The categories of control characters, blanks, unassigned characters and marks. -/
def hiddenCategories : List String :=
  ["Cc", "Cf", "Cn", "Co", "Cs", "Zl", "Zp", "Zs", "Mn", "Me"]

/-- Whether a character is seen as it is. -/
def isVisible (c : Char) : Bool :=
  c == ' '
    || !(hiddenCategories.contains (Category.of c) || isJoiner c)

/-- The visible form of a character within quotation marks. -/
def escapeChar (c : Char) : String :=
  match c with
  | '\x22' => "\\\x22"
  | '\\' => "\\\\"
  | '\t' => "\\t"
  | '\n' => "\\n"
  | '\r' => "\\r"
  | '\x00' => "\\0"
  | c =>
    if isVisible c then c.toString
    else "\\u\x7b" ++ String.ofList (Nat.toDigits 16 c.toNat) ++ "\x7d"

/-- The visible form of a text. -/
def quote (s : String) : String := "\x22" ++ String.join (s.toList.map escapeChar) ++ "\x22"

end HttpContract.Visible
