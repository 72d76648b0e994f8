/-!
# Positions in a YAML stream

A cursor is what is left of a stream together with the line and the column it starts at. Five
characters break lines; a carriage return and a line feed break one line together.
-/

namespace HttpContract.Yaml

/-- Whether a character may occur in a stream: no control characters but the blank ones. -/
def isAllowed (c : Char) : Bool :=
  c == '\t' || c == '\n' || c == '\r' || c == '\u0085'
    || ('\u0020' ≤ c && c ≤ '\u007e') || ('\u00a0' ≤ c && c ≤ '\ufffd') || 0x10000 ≤ c.toNat

/-- Whether a character breaks a line. -/
def isBreak (c : Char) : Bool :=
  c == '\n' || c == '\r' || c == '\u0085' || c == '\u2028' || c == '\u2029'

/-- Whether a character is a space or a tab. -/
def isBlank (c : Char) : Bool := c == ' ' || c == '\t'

/-- Whether a character can occur in the name of an anchor or a directive. -/
def isWord (c : Char) : Bool := c.isAlphanum || c == '_' || c == '-'

/-- Whether what is left starts with a line break or is empty. -/
def breaksOff : List Char → Bool
  | [] => true
  | c :: _ => isBreak c

/-- Whether what is left starts with a blank or a line break or is empty. -/
def endsWord : List Char → Bool
  | [] => true
  | c :: _ => isBlank c || isBreak c

/-- What is left of a stream, and where. -/
structure Cursor where
  rest : List Char
  /-- How many characters are read. -/
  index : Nat
  line : Nat
  column : Nat

namespace Cursor

/-- The start of a stream. -/
def start (stream : List Char) : Cursor := ⟨stream, 0, 0, 0⟩

/-- The character at the cursor. -/
def peek? (c : Cursor) : Option Char := c.rest.head?

/-- Whether a character stands at the cursor. -/
def sees (c : Cursor) (x : Char) : Bool := c.rest.head? == some x

/-- Whether a character stands at the cursor that satisfies a test. -/
def seesSome (c : Cursor) (p : Char → Bool) : Bool := c.rest.head?.any p

/-- Go past characters of the line. -/
def skip (c : Cursor) (n : Nat) : Cursor :=
  ⟨c.rest.drop n, c.index + n, c.line, c.column + n⟩

/-- Go past a line break. -/
def skipBreak (c : Cursor) : Cursor :=
  match c.rest with
  | '\r' :: '\n' :: more => ⟨more, c.index + 2, c.line + 1, 0⟩
  | _ :: more => ⟨more, c.index + 1, c.line + 1, 0⟩
  | [] => c

/-- What the line break at the cursor adds to a text: a line feed, or the separator itself. -/
def breakText (c : Cursor) : List Char :=
  match c.rest with
  | '\u2028' :: _ => ['\u2028']
  | '\u2029' :: _ => ['\u2029']
  | _ :: _ => ['\n']
  | [] => []

/-- Go past the characters of the line that satisfy a test. -/
def skipWhile (p : Char → Bool) (c : Cursor) : Cursor := c.skip (c.rest.takeWhile p).length

/-- Go past the rest of the line. -/
def skipLine (c : Cursor) : Cursor := c.skipWhile (fun x => !isBreak x)

/-- Go past blanks and a comment. -/
def skipComment (c : Cursor) : Cursor :=
  let c := c.skipWhile isBlank
  if c.sees '#' then c.skipLine else c

/-- Whether three characters stand at the start of a line as a word. -/
def atMarker (c : Cursor) (mark : Char) : Bool :=
  c.column == 0 && c.rest.take 3 == [mark, mark, mark] && endsWord (c.rest.drop 3)

/-- Whether a document starts or ends here. -/
def atDocumentMarker (c : Cursor) : Bool := c.atMarker '-' || c.atMarker '.'

end Cursor

end HttpContract.Yaml
