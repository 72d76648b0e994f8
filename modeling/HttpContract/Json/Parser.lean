import HttpContract.Json
import HttpContract.Text.Utf8

/-!
# Reading documents

`parse` reads one document from bytes. A failure names its cause and the place where reading
stopped, as a line and a column counted in bytes (`ParseError.message`).

Numbers without fraction and exponent that fit 64 bits are integers. Of every other number the
leading digits that fit an unsigned word of 64 bits are kept, further digits only move the decimal
point, and the result is multiplied or divided by a power of ten: two roundings at most, each to
nearest. Of two members with one key the later stays. Lists and objects nest below 128 levels.
-/

namespace HttpContract.Json

/-- Why bytes are no document. -/
inductive ParseError.Cause where
  | endInList
  | endInObject
  | endInString
  | endInValue
  | expectedColon
  | expectedListEnd
  | expectedObjectEnd
  | expectedWord
  | expectedValue
  | invalidEscape
  | invalidNumber
  | numberRange
  | invalidUtf8
  | controlCharacter
  | expectedKey
  | loneSurrogate
  | trailingComma
  | trailingCharacters
  | unfinishedSurrogate
  | tooDeep
deriving DecidableEq, Repr

/-- The wording of a cause. -/
def ParseError.Cause.message : ParseError.Cause → String
  | .endInList => "EOF while parsing a list"
  | .endInObject => "EOF while parsing an object"
  | .endInString => "EOF while parsing a string"
  | .endInValue => "EOF while parsing a value"
  | .expectedColon => "expected \x60:\x60"
  | .expectedListEnd => "expected \x60,\x60 or \x60]\x60"
  | .expectedObjectEnd => "expected \x60,\x60 or \x60\x7d\x60"
  | .expectedWord => "expected ident"
  | .expectedValue => "expected value"
  | .invalidEscape => "invalid escape"
  | .invalidNumber => "invalid number"
  | .numberRange => "number out of range"
  | .invalidUtf8 => "invalid unicode code point"
  | .controlCharacter => "control character (\\u0000-\\u001F) found while parsing a string"
  | .expectedKey => "key must be a string"
  | .loneSurrogate => "lone leading surrogate in hex escape"
  | .trailingComma => "trailing comma"
  | .trailingCharacters => "trailing characters"
  | .unfinishedSurrogate => "unexpected end of hex escape"
  | .tooDeep => "recursion limit exceeded"

/-- Why and where reading failed. -/
structure ParseError where
  cause : ParseError.Cause
  line : Nat
  column : Nat
deriving DecidableEq, Repr

/-- The wording of a failure. -/
def ParseError.message (e : ParseError) : String :=
  e.cause.message ++ " at line " ++ toString e.line ++ " column " ++ toString e.column

namespace Parser

/-- A cause together with the number of bytes that were left when it arose. -/
structure Failure where
  cause : ParseError.Cause
  left : Nat

/-- A reader takes something off the front of the bytes. -/
abbrev Result (α : Type) := Except Failure (α × List UInt8)

/-- Fail before the next byte. -/
def failAt {α : Type} (cause : ParseError.Cause) (rest : List UInt8) : Except Failure α :=
  .error ⟨cause, rest.length⟩

/-- Fail behind the next byte, or at the end. -/
def failAfter {α : Type} (cause : ParseError.Cause) (rest : List UInt8) : Except Failure α :=
  .error ⟨cause, rest.length - 1⟩

/-- The four blank bytes. -/
def isBlank (b : UInt8) : Bool := b == 0x20 || b == 0x0A || b == 0x0D || b == 0x09

/-- What follows the blanks in front. -/
def skipBlanks (bytes : List UInt8) : List UInt8 := bytes.dropWhile isBlank

/-! ## Numbers -/

/-- Whether a byte is a decimal digit. -/
def isDigit (b : UInt8) : Bool := 0x30 ≤ b && b ≤ 0x39

/-- Extend a significand by digits as long as it fits 64 bits; the digits that do not are
returned. -/
def absorb : Nat → List UInt8 → Nat × List UInt8
  | s, [] => (s, [])
  | s, b :: rest =>
    let t := s * 10 + (b.toNat - 0x30)
    if t < 0x10000000000000000 then absorb t rest else (s, b :: rest)

/-- Multiply or divide by a power of ten. Powers beyond the largest finite one are divided out in
steps, each rounded, until nothing is left. -/
def scaleByTen : Nat → Binary64 → Int → Option Binary64
  | 0, x, _ => some (Binary64.zero x.negative)
  | steps + 1, x, e =>
    if e.natAbs ≤ 308 then
      if 0 ≤ e then x.mul? (Binary64.tenPow e.natAbs) else x.div? (Binary64.tenPow e.natAbs)
    else if x.isZero then some x
    else if 0 ≤ e then none
    else (x.div? (Binary64.tenPow 308)).bind (fun y => scaleByTen steps y (e + 308))

/-- The number `± significand * 10 ^ exponent`. -/
def assemble (negative : Bool) (significand : Nat) (exponent : Int) (rest : List UInt8) :
    Result Number :=
  match (Binary64.ofRatio? false significand 1).bind (fun x => scaleByTen 8 x exponent) with
  | some x => .ok (.float (if negative then x.neg else x), rest)
  | none => failAt .numberRange rest

/-- Read the digits of an exponent; `none` once they exceed 31 bits, with what follows the digit
that does. -/
def exponentValue : Nat → List UInt8 → Option Nat × List UInt8
  | e, [] => (some e, [])
  | e, b :: rest =>
    if isDigit b then
      let t := e * 10 + (b.toNat - 0x30)
      if t < 0x80000000 then exponentValue t rest else (none, rest)
    else (some e, b :: rest)

/-- Read what follows the letter of an exponent. -/
def exponentPart (negative : Bool) (significand : Nat) (scale : Int) (bytes : List UInt8) :
    Result Number :=
  let (down, digits) := match bytes with
    | 0x2B :: rest => (false, rest)
    | 0x2D :: rest => (true, rest)
    | rest => (false, rest)
  match digits with
  | [] => failAt .endInValue []
  | b :: _ =>
    if isDigit b then
      match exponentValue 0 digits with
      | (some e, rest) =>
        assemble negative significand (if down then scale - e else scale + e) rest
      | (none, rest) =>
        if significand ≠ 0 ∧ !down then failAt .numberRange rest
        else .ok (.float (Binary64.zero negative), rest.dropWhile isDigit)
    else failAfter .invalidNumber digits

/-- Whether a byte announces an exponent. -/
def isExponentMark (b : UInt8) : Bool := b == 0x65 || b == 0x45

/-- Read what follows the decimal point. -/
def fractionPart (negative : Bool) (significand : Nat) (scale : Int) (bytes : List UInt8) :
    Result Number :=
  let digits := bytes.takeWhile isDigit
  let rest := bytes.dropWhile isDigit
  if digits.isEmpty then
    if rest.isEmpty then failAt .endInValue [] else failAfter .invalidNumber rest
  else
    let (s, ignored) := absorb significand digits
    let scale := scale - ((digits.length - ignored.length : Nat) : Int)
    match rest with
    | b :: more =>
      if isExponentMark b then exponentPart negative s scale more
      else assemble negative s scale rest
    | [] => assemble negative s scale []

/-- The integer with the given sign and magnitude; a negative zero and what does not fit are
floating point numbers. -/
def wholeNumber (negative : Bool) (magnitude : Nat) : Number :=
  let float : Number := .float ((Binary64.ofRatio? negative magnitude 1).getD (Binary64.zero false))
  if negative ∧ magnitude = 0 then float
  else
    match Integer.ofInt? (if negative then -(magnitude : Int) else magnitude) with
    | some n => .int n
    | none => float

/-- Read a number behind its sign. -/
def number (negative : Bool) (bytes : List UInt8) : Result Number :=
  match bytes with
  | [] => failAt .endInValue []
  | b :: tail =>
    if !isDigit b then failAfter .invalidNumber bytes
    else if b == 0x30 ∧ (tail.headD 0x20 |> isDigit) then failAfter .invalidNumber tail
    else
      let digits := bytes.takeWhile isDigit
      let rest := bytes.dropWhile isDigit
      let (s, ignored) := absorb 0 digits
      match rest with
      | c :: more =>
        if c == 0x2E then fractionPart negative s ignored.length more
        else if isExponentMark c then exponentPart negative s ignored.length more
        else if ignored.isEmpty then .ok (wholeNumber negative s, rest)
        else assemble negative s ignored.length rest
      | [] =>
        if ignored.isEmpty then .ok (wholeNumber negative s, [])
        else assemble negative s ignored.length []

/-! ## Texts -/

/-- The value of a hexadecimal digit. -/
def hexValue? (b : UInt8) : Option Nat :=
  if isDigit b then some (b.toNat - 0x30)
  else if 0x61 ≤ b ∧ b ≤ 0x66 then some (b.toNat - 0x61 + 10)
  else if 0x41 ≤ b ∧ b ≤ 0x46 then some (b.toNat - 0x41 + 10)
  else none

/-- The value of four hexadecimal digits. -/
def hexValue4? (a b c d : UInt8) : Option Nat := do
  return ((((← hexValue? a) * 16 + (← hexValue? b)) * 16 + (← hexValue? c)) * 16 + (← hexValue? d))

/-- The character a one-letter escape stands for. -/
def simpleEscape? (b : UInt8) : Option UInt8 :=
  if b == 0x22 ∨ b == 0x5C ∨ b == 0x2F then some b
  else if b == 0x62 then some 0x08
  else if b == 0x66 then some 0x0C
  else if b == 0x6E then some 0x0A
  else if b == 0x72 then some 0x0D
  else if b == 0x74 then some 0x09
  else none

/-- The bytes of the character with number `n`, last byte first. -/
def encodeReversed (n : Nat) : List UInt8 :=
  (Utf8.encode (String.singleton (Char.ofNat n))).reverse

/-- Whether a 16-bit unit is the first of a surrogate pair. -/
def isLeadingSurrogate (n : Nat) : Bool := 0xD800 ≤ n && n ≤ 0xDBFF

/-- Whether a 16-bit unit is the second of a surrogate pair. -/
def isTrailingSurrogate (n : Nat) : Bool := 0xDC00 ≤ n && n ≤ 0xDFFF

/-- Read a text behind its opening quotation mark, given the bytes read so far in reverse. -/
def stringBody (acc : List UInt8) : List UInt8 → Result String
  | [] => failAt .endInString []
  | 0x22 :: rest =>
    match Utf8.decode? acc.reverse with
    | some s => .ok (s, rest)
    | none => failAt .invalidUtf8 (0x22 :: rest)
  | 0x5C :: rest =>
    match rest with
    | [] => failAt .endInString []
    | 0x75 :: hex =>
      match hex with
      | a :: b :: c :: d :: rest =>
        match hexValue4? a b c d with
        | none => failAt .invalidEscape rest
        | some n =>
          if isTrailingSurrogate n then failAt .loneSurrogate rest
          else if !isLeadingSurrogate n then stringBody (encodeReversed n ++ acc) rest
          else
            match rest with
            | [] => failAt .endInString []
            | 0x5C :: [] => failAt .endInString []
            | 0x5C :: 0x75 :: a :: b :: c :: d :: rest =>
              match hexValue4? a b c d with
              | none => failAt .invalidEscape rest
              | some m =>
                if isTrailingSurrogate m then
                  let code := (n - 0xD800) * 0x400 + (m - 0xDC00) + 0x10000
                  stringBody (encodeReversed code ++ acc) rest
                else failAt .loneSurrogate rest
            | 0x5C :: 0x75 :: _ => failAt .endInString []
            | 0x5C :: rest => failAfter .unfinishedSurrogate rest
            | rest => failAfter .unfinishedSurrogate rest
      | _ => failAt .endInString []
    | e :: rest =>
      match simpleEscape? e with
      | some c => stringBody (c :: acc) rest
      | none => failAt .invalidEscape rest
  | b :: rest =>
    if b < 0x20 then failAt .controlCharacter rest
    else stringBody (b :: acc) rest

/-! ## Documents -/

/-- Read the rest of a word. -/
def word (letters : List UInt8) (value : Json) (bytes : List UInt8) : Result Json :=
  match letters, bytes with
  | [], rest => .ok (value, rest)
  | _ :: _, [] => failAt .endInValue []
  | l :: ls, b :: rest => if l == b then word ls value rest else failAt .expectedWord rest

mutual

/-- Read a document; `levels` more lists and objects may open before the limit is hit. -/
def value : (fuel levels : Nat) → List UInt8 → Result Json
  | 0, _, bytes => failAt .tooDeep bytes
  | fuel + 1, levels, bytes =>
    match skipBlanks bytes with
    | [] => failAt .endInValue []
    | b :: rest =>
      if b == 0x6E then word [0x75, 0x6C, 0x6C] .null rest
      else if b == 0x74 then word [0x72, 0x75, 0x65] (.bool true) rest
      else if b == 0x66 then word [0x61, 0x6C, 0x73, 0x65] (.bool false) rest
      else if b == 0x2D then (number true rest).map (fun (n, r) => (.num n, r))
      else if isDigit b then (number false (b :: rest)).map (fun (n, r) => (.num n, r))
      else if b == 0x22 then (stringBody [] rest).map (fun (s, r) => (.str s, r))
      else if b == 0x5B then
        match levels with
        | 0 | 1 => failAt .tooDeep rest
        | levels + 1 => (items fuel levels true [] rest).map (fun (xs, r) => (.arr xs, r))
      else if b == 0x7B then
        match levels with
        | 0 | 1 => failAt .tooDeep rest
        | levels + 1 => (members fuel levels true [] rest).map (fun (ms, r) => (.obj ms, r))
      else failAt .expectedValue rest

/-- Read the items of a list up to its closing bracket; the items so far come in reverse. -/
def items : (fuel levels : Nat) → (first : Bool) → List Json → List UInt8 → Result (List Json)
  | 0, _, _, _, bytes => failAt .tooDeep bytes
  | fuel + 1, levels, first, acc, bytes =>
    match skipBlanks bytes with
    | [] => failAt .endInList []
    | b :: rest =>
      if b == 0x5D then .ok (acc.reverse, rest)
      else if first then item fuel levels acc (b :: rest)
      else if b == 0x2C then
        match skipBlanks rest with
        | [] => failAt .endInValue []
        | 0x5D :: more => failAt .trailingComma more
        | next => item fuel levels acc next
      else failAt .expectedListEnd rest

/-- Read one item and those behind it. -/
def item : (fuel levels : Nat) → List Json → List UInt8 → Result (List Json)
  | 0, _, _, bytes => failAt .tooDeep bytes
  | fuel + 1, levels, acc, bytes =>
    match value fuel levels bytes with
    | .error e => .error e
    | .ok (v, rest) => items fuel levels false (v :: acc) rest

/-- Read the members of an object up to its closing brace. -/
def members : (fuel levels : Nat) → (first : Bool) → Fields Json → List UInt8 →
    Result (Fields Json)
  | 0, _, _, _, bytes => failAt .tooDeep bytes
  | fuel + 1, levels, first, acc, bytes =>
    match skipBlanks bytes with
    | [] => failAt .endInObject []
    | b :: rest =>
      if b == 0x7D then .ok (acc, rest)
      else if first then
        if b == 0x22 then member fuel levels acc rest else failAt .expectedKey rest
      else if b == 0x2C then
        match skipBlanks rest with
        | [] => failAt .endInValue []
        | 0x22 :: more => member fuel levels acc more
        | 0x7D :: more => failAt .trailingComma more
        | _ :: more => failAt .expectedKey more
      else failAt .expectedObjectEnd rest

/-- Read one member behind the opening quotation mark of its key, and those behind it. -/
def member : (fuel levels : Nat) → Fields Json → List UInt8 → Result (Fields Json)
  | 0, _, _, bytes => failAt .tooDeep bytes
  | fuel + 1, levels, acc, bytes =>
    match stringBody [] bytes with
    | .error e => .error e
    | .ok (key, rest) =>
      match skipBlanks rest with
      | [] => failAt .endInObject []
      | 0x3A :: rest =>
        match value fuel levels rest with
        | .error e => .error e
        | .ok (v, rest) => members fuel levels false (Fields.insert acc key v) rest
      | _ :: rest => failAt .expectedColon rest

end

/-- How many lists and objects may be nested, one more than is allowed. -/
def levelLimit : Nat := 128

/-- The line and column reached after `count` bytes: both start at the last line break. -/
def position (bytes : List UInt8) (count : Nat) : Nat × Nat :=
  (bytes.take count).foldl
    (fun (p : Nat × Nat) (b : UInt8) => if b == 0x0A then (p.1 + 1, 0) else (p.1, p.2 + 1)) (1, 0)

/-- Read one document, and nothing but blanks behind it. -/
def document (bytes : List UInt8) : Except Failure Json :=
  match value (3 * bytes.length + 3) levelLimit bytes with
  | .error e => .error e
  | .ok (v, rest) =>
    match skipBlanks rest with
    | [] => .ok v
    | more => failAfter .trailingCharacters more

end Parser

/-- Read one document from bytes. -/
def parse (bytes : List UInt8) : Except ParseError Json :=
  match Parser.document bytes with
  | .ok v => .ok v
  | .error e =>
    let (line, column) := Parser.position bytes (bytes.length - e.left)
    .error ⟨e.cause, line, column⟩

/-- Read one document from a text. -/
def parseText (s : String) : Except ParseError Json := parse (Utf8.encode s)

end HttpContract.Json
