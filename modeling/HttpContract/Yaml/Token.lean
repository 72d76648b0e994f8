import HttpContract.Text.Percent
import HttpContract.Text.Uri
import HttpContract.Yaml.Scalar

/-!
# Tokens of a YAML stream

The tokens of a stream make its indentation explicit: a block collection starts with a token of its
own and ends with `blockEnd`. They also mark its keys: `key` stands before a key even where the
stream tells only by the colon behind it that it was one.
-/

namespace HttpContract.Yaml

/-- A tag as it is written: a handle, which may be empty, and what follows it. -/
structure WrittenTag where
  handle : String
  suffix : String
deriving DecidableEq, Repr

/-- A token. -/
inductive Token where
  | version (major minor : Nat)
  /-- The handle stands for the beginning of tags. -/
  | shorthand (handle beginning : String)
  | documentStart
  | documentEnd
  | sequenceStart
  | mappingStart
  | blockEnd
  | flowSequenceStart
  | flowSequenceEnd
  | flowMappingStart
  | flowMappingEnd
  | blockEntry
  | flowEntry
  | key
  | value
  | alias (name : String)
  | anchor (name : String)
  | tag (t : WrittenTag)
  | scalar (text : String) (style : Style)
deriving DecidableEq, Repr

/-! ## Directives, anchors and tags -/

namespace Token

/-- A number of at most nine digits. -/
def versionNumber (c : Cursor) : Option (Nat × Cursor) :=
  let digits := c.rest.takeWhile Char.isDigit
  if 9 < digits.length then none
  else (Radix.read? 10 digits).map (fun n => (n, c.skip digits.length))

/-- Whether a character can occur in a tag. Brackets and commas can only within angle brackets. -/
def isTagChar (enclosed : Bool) (c : Char) : Bool :=
  isWord c || ";/?:@&=+$.!~*()%\x27".contains c || (enclosed && (c == ',' || c == '[' || c == ']'))

/-- The text behind percent-encoded characters; every percent sign has to start one. -/
def decodedTag? (text : List Char) : Option String :=
  if Uri.allEncoded (· != '%') text then Percent.decodeText? (String.ofList text) else none

/-- The characters of a tag at the cursor. -/
def tagText (enclosed : Bool) (c : Cursor) : Option (String × Cursor) :=
  let text := c.rest.takeWhile (isTagChar enclosed)
  (decodedTag? text).map (fun s => (s, c.skip text.length))

/-- The handle of a tag at the cursor: a mark, or word characters between two marks. -/
def tagHandle (c : Cursor) : Option (String × Cursor) :=
  if !c.sees '!' then none
  else
    let word := (c.rest.drop 1).takeWhile isWord
    let c' := c.skip (1 + word.length)
    if c'.sees '!' then some (String.ofList ('!' :: word ++ ['!']), c'.skip 1)
    else some (String.ofList ('!' :: word), c')

/-- A directive behind its mark, up to the end of its line. -/
def directive (c : Cursor) : Option (Token × Cursor) := do
  let name := c.rest.takeWhile isWord
  let c := c.skip name.length
  if name.isEmpty || !endsWord c.rest then none
  let c := c.skipWhile isBlank
  let (token, c) ←
    if name == "YAML".toList then do
      let (major, c) ← versionNumber c
      if !c.sees '.' then none
      let (minor, c) ← versionNumber (c.skip 1)
      pure (version major minor, c)
    else if name == "TAG".toList then do
      let (handle, c) ← tagHandle c
      if handle != "!" && !handle.endsWith "!" then none
      if !c.seesSome isBlank then none
      let (beginning, c) ← tagText true (c.skipWhile isBlank)
      if beginning.isEmpty || !endsWord c.rest then none
      pure (shorthand handle beginning, c)
    else none
  let c := c.skipComment
  if breaksOff c.rest then return (token, c.skipBreak) else none

/-- An anchor or an alias behind its mark. -/
def anchorName (c : Cursor) : Option (String × Cursor) :=
  let name := c.rest.takeWhile isWord
  let c := c.skip name.length
  if !name.isEmpty && (endsWord c.rest || c.seesSome (fun x => "?:,]\x7d%@\x60".contains x)) then
    some (String.ofList name, c)
  else none

/-- A tag at its mark. -/
def writtenTag (flow : Bool) (c : Cursor) : Option (WrittenTag × Cursor) := do
  let (t, c) ←
    if (c.skip 1).sees '<' then do
      let (suffix, c) ← tagText true (c.skip 2)
      if suffix.isEmpty || !c.sees '>' then none else pure (⟨"", suffix⟩, c.skip 1)
    else do
      let (handle, c) ← tagHandle c
      if 1 < handle.length && handle.endsWith "!" then
        let (suffix, c) ← tagText false c
        if suffix.isEmpty then none else pure (⟨handle, suffix⟩, c)
      else
        let (more, c) ← tagText false c
        let suffix := String.ofList (handle.toList.drop 1) ++ more
        pure (if suffix.isEmpty then ⟨"", "!"⟩ else ⟨"!", suffix⟩, c)
  if (flow && c.sees ',') || endsWord c.rest then return (t, c) else none

end Token

/-! ## Indentation and keys -/

/-- A place that becomes a key if a colon follows on the same line. -/
structure PossibleKey where
  /-- Whether nothing but a key can stand there. -/
  required : Bool
  /-- How many tokens come before it. -/
  token : Nat
  index : Nat
  line : Nat
  column : Nat

/-- A stream that has been split in part. -/
structure Lexer where
  cursor : Cursor
  tokens : Array Token
  /-- The columns of the open block collections, the innermost first. -/
  columns : List Nat
  /-- The possible key of the innermost brackets, or of the block. -/
  key : Option PossibleKey
  /-- The possible keys of the block and of the brackets around the innermost ones. -/
  outerKeys : List (Option PossibleKey)
  /-- Whether a key can start here. -/
  keyAllowed : Bool

namespace Lexer

/-- The least column of a line that continues the innermost block collection. -/
def inner (l : Lexer) : Nat :=
  match l.columns with
  | column :: _ => column + 1
  | [] => 0

/-- Whether the cursor stands within brackets. -/
def flow (l : Lexer) : Bool := !l.outerKeys.isEmpty

/-- Add a token. -/
def push (l : Lexer) (t : Token) : Lexer := { l with tokens := l.tokens.push t }

/-- Add a token and go past its characters. -/
def take (l : Lexer) (t : Token) (n : Nat) : Lexer := { l.push t with cursor := l.cursor.skip n }

/-- Close the block collections at a column or beyond. -/
def closeFrom (l : Lexer) (column : Nat) : Lexer :=
  if l.flow then l
  else
    let closed := (l.columns.takeWhile (fun c => decide (column ≤ c))).length
    { l with
      tokens := l.tokens ++ Array.replicate closed Token.blockEnd
      columns := l.columns.drop closed }

/-- Open a block collection at a column, unless it is open, with its token at a place. -/
def openAt (l : Lexer) (column place : Nat) (t : Token) : Lexer :=
  if l.flow || column < l.inner then l
  else { l with tokens := l.tokens.insertIdxIfInBounds place t, columns := column :: l.columns }

/-- Give a possible key up; a required one cannot be. -/
def dropKey (l : Lexer) : Option Lexer :=
  match l.key with
  | some k => if k.required then none else some { l with key := none }
  | none => some l

/-- A possible key that is not out of reach; a required one must not be. -/
def inReach (c : Cursor) : Option PossibleKey → Option (Option PossibleKey)
  | none => some none
  | some k =>
    if k.line < c.line || k.index + 1024 < c.index then if k.required then none else some none
    else some (some k)

/-- Forget the possible keys out of reach. -/
def dropStale (l : Lexer) : Option Lexer := do
  let key ← inReach l.cursor l.key
  let outerKeys ← l.outerKeys.mapM (inReach l.cursor)
  return { l with key := key, outerKeys := outerKeys }

/-- Note that a key may start here. -/
def noteKey (l : Lexer) : Option Lexer :=
  if l.keyAllowed then
    l.dropKey.map (fun l =>
      { l with
        key := some ⟨!l.flow && l.inner == l.cursor.column + 1, l.tokens.size, l.cursor.index,
          l.cursor.line, l.cursor.column⟩ })
  else some l

/-- Allow or forbid a key at the cursor. -/
def allowKey (l : Lexer) (allowed : Bool) : Lexer := { l with keyAllowed := allowed }

/-! ## Tokens -/

/-- Go to the start of the next token. Tabs do not indent blocks. -/
def toNextToken : (fuel : Nat) → Lexer → Lexer
  | 0, l => l
  | fuel + 1, l =>
    let c := if l.cursor.index == 0 && l.cursor.sees '\ufeff' then l.cursor.skip 1 else l.cursor
    let tabs := l.flow || !l.keyAllowed
    let c := c.skipWhile (fun x => x == ' ' || (tabs && x == '\t'))
    let c := if c.sees '#' then c.skipLine else c
    if c.seesSome isBreak then
      toNextToken fuel { l with cursor := c.skipBreak, keyAllowed := l.keyAllowed || !l.flow }
    else { l with cursor := c }

/-- A token that ends all block collections. -/
def outermost (l : Lexer) : Option Lexer := (l.closeFrom 0).dropKey.map (allowKey · false)

/-- An opening bracket. -/
def openBracket (l : Lexer) (t : Token) : Option Lexer :=
  l.noteKey.map (fun l =>
    { l.take t 1 with key := none, outerKeys := l.key :: l.outerKeys, keyAllowed := true })

/-- A closing bracket. -/
def closeBracket (l : Lexer) (t : Token) : Option Lexer :=
  l.dropKey.map (fun l =>
    let l := (l.take t 1).allowKey false
    match l.outerKeys with
    | k :: more => { l with key := k, outerKeys := more }
    | [] => l)

/-- The mark of an entry of a block sequence. -/
def blockEntry (l : Lexer) : Option Lexer :=
  if !l.flow && !l.keyAllowed then none
  else (l.openAt l.cursor.column l.tokens.size .sequenceStart).dropKey.map
    (fun l => (l.take .blockEntry 1).allowKey true)

/-- The mark of a key. -/
def keyMark (l : Lexer) : Option Lexer :=
  if !l.flow && !l.keyAllowed then none
  else (l.openAt l.cursor.column l.tokens.size .mappingStart).dropKey.map
    (fun l => (l.take .key 1).allowKey !l.flow)

/-- The mark of a value. It makes the possible key a key. -/
def valueMark (l : Lexer) : Option Lexer :=
  match l.key with
  | some k =>
    let l := { l with tokens := l.tokens.insertIdxIfInBounds k.token .key, key := none }
    some (((l.openAt k.column k.token .mappingStart).take .value 1).allowKey false)
  | none =>
    if !l.flow && !l.keyAllowed then none
    else
      let l := l.openAt l.cursor.column l.tokens.size .mappingStart
      some ((l.take .value 1).allowKey !l.flow)

/-- A token that can start a key, read by a function from the cursor. -/
def keyStart (l : Lexer) (read : Cursor → Option (Token × Cursor)) : Option Lexer := do
  let l ← l.noteKey
  let (t, c) ← read l.cursor
  return { l.push t with cursor := c, keyAllowed := false }

/-- A quoted scalar at its opening mark. -/
def quotedScalar (mark : Char) (c : Cursor) : Option (Token × Cursor) :=
  (quoted mark (c.rest.length + 1) (c.skip 1) []).map
    (fun (text, c) => (.scalar (String.ofList text) .quoted, c))

/-- A block scalar at its mark. -/
def blockScalar (l : Lexer) (fold : Bool) : Option Lexer := do
  let l ← l.dropKey
  let (text, c) ← block fold l.inner (l.cursor.skip 1)
  let style := if fold then Style.folded else Style.literal
  return { l.push (.scalar (String.ofList text) style) with cursor := c, keyAllowed := true }

/-- A plain scalar. Behind one of several lines a key can start. -/
def plainScalar (l : Lexer) : Option Lexer := do
  let l ← l.noteKey
  let e ← plain l.flow l.inner (l.cursor.rest.length + 1) l.cursor Gap.empty []
  return { l.push (.scalar (String.ofList e.text) .plain) with
    cursor := e.cursor, keyAllowed := e.newLine }

/-- Characters that start no plain scalar. -/
def isIndicator (c : Char) : Bool := "-?:,[]\x7b\x7d#&*!|>\x27\x22%@\x60".contains c

/-- Whether a plain scalar starts with the given character before the given rest. -/
def startsPlain (flow : Bool) (x : Char) (rest : List Char) : Bool :=
  !(isIndicator x || isBlank x) || (x == '-' && !rest.head?.any isBlank)
    || (!flow && (x == '?' || x == ':') && !endsWord rest)

/-- Read the token at the cursor, which starts with the given character. -/
def token (l : Lexer) (x : Char) (rest : List Char) : Option Lexer :=
  let c := l.cursor
  if c.column == 0 && x == '%' then do
    let l ← l.outermost
    let (t, c) ← Token.directive (c.skip 1)
    return { l.push t with cursor := c }
  else if c.atMarker '-' then l.outermost.map (fun l => l.take .documentStart 3)
  else if c.atMarker '.' then l.outermost.map (fun l => l.take .documentEnd 3)
  else if x == '[' then l.openBracket .flowSequenceStart
  else if x == '\x7b' then l.openBracket .flowMappingStart
  else if x == ']' then l.closeBracket .flowSequenceEnd
  else if x == '\x7d' then l.closeBracket .flowMappingEnd
  else if x == ',' then l.dropKey.map (fun l => (l.take .flowEntry 1).allowKey true)
  else if x == '-' && endsWord rest then l.blockEntry
  else if x == '?' && (l.flow || endsWord rest) then l.keyMark
  else if x == ':' && (l.flow || endsWord rest) then l.valueMark
  else if x == '*' then
    l.keyStart (fun c => (Token.anchorName (c.skip 1)).map (fun (name, c) => (.alias name, c)))
  else if x == '&' then
    l.keyStart (fun c => (Token.anchorName (c.skip 1)).map (fun (name, c) => (.anchor name, c)))
  else if x == '!' then
    l.keyStart (fun c => (Token.writtenTag l.flow c).map (fun (t, c) => (.tag t, c)))
  else if x == '|' && !l.flow then l.blockScalar false
  else if x == '>' && !l.flow then l.blockScalar true
  else if x == '\x27' || x == '\x22' then l.keyStart (quotedScalar x)
  else if startsPlain l.flow x rest then l.plainScalar
  else none

/-- Split the rest of the stream. -/
def run : (fuel : Nat) → Lexer → Option (Array Token)
  | 0, _ => none
  | fuel + 1, l => do
    let l := toNextToken (l.cursor.rest.length + 1) l
    let l ← l.dropStale
    let l := l.closeFrom (l.cursor.column + 1)
    match l.cursor.rest with
    | [] => (← (l.closeFrom 0).dropKey).tokens
    | x :: rest => run fuel (← l.token x rest)

/-- The start of a stream. -/
def start (stream : List Char) : Lexer := ⟨Cursor.start stream, #[], [], none, [], true⟩

end Lexer

/-- The tokens of a stream, or nothing if it is malformed. A byte order mark at the start is not
part of the text. -/
def Token.scan? (stream : String) : Option (List Token) :=
  let text := match stream.toList with
    | '\ufeff' :: rest => rest
    | text => text
  if text.all isAllowed then ((Lexer.start text).run (text.length + 1)).map Array.toList else none

end HttpContract.Yaml
