import HttpContract.Text.Category

/-!
# Patterns

The patterns of the keyword `pattern`: regular expressions with classes, counted repetition, groups,
look-around and references back to groups. `Pattern.compile?` reads one and `Pattern.search` looks
for a match anywhere in a text.

`\d`, `\w` and `\s` are the ASCII digits, the ASCII word characters and the blanks of ECMAScript; a
dot is anything but a line feed, and `$` stands at the very end only. Matching keeps the set of
positions that a piece of the pattern can lead to, so no pattern takes more than polynomially many
steps unless it refers back to groups.
-/

namespace HttpContract

namespace Pattern

/-! ## Syntax trees -/

/-- A set of characters. -/
inductive CharClass where
  | empty
  | range (low high : Char)
  | category (name : String)
  | union (a b : CharClass)
  | inter (a b : CharClass)
  | complement (a : CharClass)

/-- A character in the other cases it has. -/
def caseVariants (c : Char) : List Char :=
  let n := c.toNat
  let shifted := fun (low high low' : Nat) =>
    (if low ≤ n ∧ n ≤ high then [Char.ofNat (n - low + low')] else [])
      ++ (if low' ≤ n ∧ n ≤ low' + (high - low) then [Char.ofNat (n - low' + low)] else [])
  let paired := fun (low high : Nat) =>
    if low ≤ n ∧ n ≤ high then [Char.ofNat (if n % 2 = 0 then n + 1 else n - 1)] else []
  c :: (shifted 65 90 97 ++ (if n = 0xD7 ∨ n = 0xF7 then [] else shifted 0xC0 0xDE 0xE0)
    ++ paired 0x100 0x12F ++ paired 0x14A 0x177 ++ shifted 0x391 0x3A9 0x3B1
    ++ shifted 0x410 0x42F 0x430 ++ shifted 0x400 0x40F 0x450
    ++ (if n = 0x4B ∨ n = 0x6B then ['\u212A'] else []) ++ (if n = 0x212A then ['k', 'K'] else [])
    ++ (if n = 0x53 ∨ n = 0x73 then ['\u017F'] else []) ++ (if n = 0x17F then ['s', 'S'] else []))

/-- Whether a character is in a set; on request in any of its cases. -/
def CharClass.has (ignoreCase : Bool) : CharClass → Char → Bool
  | .empty, _ => false
  | .range low high, c =>
    if ignoreCase then (caseVariants c).any (fun v => low ≤ v && v ≤ high) else low ≤ c && c ≤ high
  | .category name, c =>
    if ignoreCase then (caseVariants c).any (Category.belongs name) else Category.belongs name c
  | .union a b, c => a.has ignoreCase c || b.has ignoreCase c
  | .inter a b, c => a.has ignoreCase c && b.has ignoreCase c
  | .complement a, c => !a.has ignoreCase c

namespace CharClass

/-- The set of one character. -/
def single (c : Char) : CharClass := .range c c

/-- The union of ranges. -/
def ofRanges (ranges : List (Char × Char)) : CharClass :=
  ranges.foldr (fun r acc => .union (.range r.1 r.2) acc) .empty

/-- The decimal digits. -/
def digit : CharClass := .range '0' '9'

/-- Letters, digits and the underscore. -/
def word : CharClass := ofRanges [('0', '9'), ('A', 'Z'), ('_', '_'), ('a', 'z')]

/-- The blanks and line ends of ECMAScript. -/
def blank : CharClass :=
  ofRanges
    [('\t', '\x0d'), (' ', ' '), ('\u00A0', '\u00A0'), ('\u1680', '\u1680'), ('\u2000', '\u200A'),
      ('\u2028', '\u2029'), ('\u202F', '\u202F'), ('\u205F', '\u205F'), ('\u3000', '\u3000'),
      ('\uFEFF', '\uFEFF')]

/-- The named sets of ASCII characters. -/
def named? : String → Option CharClass
  | "alnum" => some (ofRanges [('0', '9'), ('A', 'Z'), ('a', 'z')])
  | "alpha" => some (ofRanges [('A', 'Z'), ('a', 'z')])
  | "ascii" => some (.range '\x00' '\x7f')
  | "blank" => some (ofRanges [('\t', '\t'), (' ', ' ')])
  | "cntrl" => some (ofRanges [('\x00', '\x1f'), ('\x7f', '\x7f')])
  | "digit" => some digit
  | "graph" => some (.range '!' '~')
  | "lower" => some (.range 'a' 'z')
  | "print" => some (.range ' ' '~')
  | "punct" => some (ofRanges [('!', '/'), (':', '@'), ('[', '\x60'), ('\x7b', '~')])
  | "space" => some (ofRanges [('\t', '\x0d'), (' ', ' ')])
  | "upper" => some (.range 'A' 'Z')
  | "word" => some word
  | "xdigit" => some (ofRanges [('0', '9'), ('A', 'F'), ('a', 'f')])
  | _ => none

end CharClass

/-- A place between characters. -/
inductive Anchor where
  | textStart
  | textEnd
  | lineStart
  | lineEnd
  | wordBoundary
  | notWordBoundary
deriving DecidableEq

/-- A pattern. -/
inductive Expr where
  | empty
  | set (ignoreCase : Bool) (chars : CharClass)
  | anchor (a : Anchor)
  | cat (a b : Expr)
  | alt (a b : Expr)
  | loop (e : Expr) (least : Nat) (greatest : Option Nat) (greedy : Bool)
  | group (index : Nat) (e : Expr)
  | same (ignoreCase : Bool) (index : Nat)
  | look (ahead holds : Bool) (e : Expr)
  | atomic (e : Expr)

/-! ## Matching -/

/-- How far matching has got: a position, and the spans of the groups matched so far. -/
structure Progress where
  pos : Nat
  groups : List (Nat × Nat × Nat)
deriving DecidableEq

/-- Drop later repetitions. -/
def distinct (ps : List Progress) : List Progress :=
  (ps.foldl (fun acc p => if acc.contains p then acc else p :: acc) []).reverse

/-- The span of a group. -/
def Progress.span? (p : Progress) (index : Nat) : Option (Nat × Nat) :=
  (p.groups.find? (fun g => g.1 == index)).map (·.2)

/-- Remember the span of a group. -/
def Progress.store (p : Progress) (index start : Nat) : Progress :=
  { p with groups := (index, start, p.pos) :: p.groups.filter (fun g => g.1 != index) }

/-- Whether an anchor holds at a position. -/
def Anchor.holds (text : Array Char) (pos : Nat) : Anchor → Bool
  | .textStart => pos == 0
  | .textEnd => pos == text.size
  | .lineStart => pos == 0 || text[pos - 1]? == some '\n'
  | .lineEnd => pos == text.size || text[pos]? == some '\n'
  | .wordBoundary => boundary
  | .notWordBoundary => !boundary
where
  /-- Whether exactly one neighbour is part of a word. -/
  boundary : Bool :=
    let before := if pos = 0 then false else ((text[pos - 1]?).map Category.isWord).getD false
    let after := ((text[pos]?).map Category.isWord).getD false
    before != after

/-- Apply a step to everything reached, again and again, until nothing new is reached; each round
must get further, so `rounds` need not exceed the length of the text. The results of later rounds
come last. -/
def iterate (step : Progress → List Progress) : Nat → List Progress → List (List Progress)
  | 0, front => [front]
  | rounds + 1, front =>
    if front.isEmpty then []
    else
      let next := distinct (front.flatMap (fun p => (step p).filter (fun q => p.pos != q.pos)))
      front :: iterate step rounds next

/-- Apply a step exactly so many times to everything reached. -/
def times (step : Progress → List Progress) : Nat → List Progress → List Progress
  | 0, front => front
  | n + 1, front => times step n (distinct (front.flatMap step))

/-- Everything a pattern leads to from a position, the preferred outcomes first. -/
def Expr.run (text : Array Char) : Expr → Progress → List Progress
  | .empty, p => [p]
  | .set ignoreCase chars, p =>
    match text[p.pos]? with
    | some c => if chars.has ignoreCase c then [{ p with pos := p.pos + 1 }] else []
    | none => []
  | .anchor a, p => if a.holds text p.pos then [p] else []
  | .cat a b, p => distinct ((a.run text p).flatMap (b.run text))
  | .alt a b, p => distinct (a.run text p ++ b.run text p)
  | .loop e least greatest greedy, p =>
    let start := times (e.run text) (min least (text.size + 1)) [p]
    let more := match greatest with
      | some g => min (g - least) (text.size + 1)
      | none => text.size + 1
    let layers := iterate (e.run text) more start
    distinct (if greedy then layers.reverse.flatten else layers.flatten)
  | .group index e, p => (e.run text p).map (fun q => q.store index p.pos)
  | .same ignoreCase index, p =>
    match p.span? index with
    | none => []
    | some (start, stop) =>
      let length := stop - start
      let agree := fun (i : Nat) =>
        match text[start + i]?, text[p.pos + i]? with
        | some a, some b => a == b || (ignoreCase && (caseVariants a).contains b)
        | _, _ => false
      if (List.range length).all agree then [{ p with pos := p.pos + length }] else []
  | .look true holds e, p =>
    match e.run text p with
    | q :: _ => if holds then [{ q with pos := p.pos }] else []
    | [] => if holds then [] else [p]
  | .look false holds e, p =>
    let ends := (List.range (p.pos + 1)).flatMap (fun back =>
      (e.run text { p with pos := p.pos - back }).filter (fun q => q.pos == p.pos))
    match ends with
    | q :: _ => if holds then [q] else []
    | [] => if holds then [] else [p]
  | .atomic e, p => (e.run text p).take 1

/-! ## Reading -/

/-- The modes a pattern can switch. -/
structure Modes where
  ignoreCase : Bool
  multiLine : Bool
  dotAll : Bool
  swapGreed : Bool
  verbose : Bool

/-- What is left to read, the groups opened so far, and the modes in force. -/
structure Reader where
  rest : List Char
  groups : Nat
  names : List (String × Nat)
  modes : Modes

/-- A reader that can fail. -/
abbrev Read := StateT Reader Option

namespace Read

/-- The next character, left in place. -/
def peek : Read (Option Char) := return (← get).rest.head?

/-- Drop characters. -/
def skip (n : Nat) : Read Unit := modify (fun r => { r with rest := r.rest.drop n })

/-- Take the next character. -/
def next : Read Char := do
  match (← get).rest with
  | c :: rest => modify (fun r => { r with rest := rest }); return c
  | [] => failure

/-- Whether the text goes on with the given characters; if so, they are taken. -/
def accept (s : String) : Read Bool := do
  let r ← get
  if s.toList.isPrefixOf r.rest then
    set { r with rest := r.rest.drop s.length }
    return true
  else return false

/-- Take characters as long as they satisfy a test. -/
def takeWhile (p : Char → Bool) : Read (List Char) := do
  let r ← get
  set { r with rest := r.rest.dropWhile p }
  return r.rest.takeWhile p

/-- Take exactly so many hexadecimal digits. -/
def hexDigits (n : Nat) : Read Nat := do
  let r ← get
  let digits := r.rest.take n
  if digits.length = n ∧ digits.all isHex then
    set { r with rest := r.rest.drop n }
    return value digits
  else failure
where
  /-- Whether a character is a hexadecimal digit. -/
  isHex (c : Char) : Bool := c.isDigit || ('a' ≤ c && c ≤ 'f') || ('A' ≤ c && c ≤ 'F')
  /-- The value of hexadecimal digits. -/
  value (cs : List Char) : Nat :=
    cs.foldl (fun n c => n * 16 + (if c.isDigit then c.toNat - 48 else c.toLower.toNat - 87)) 0

/-- The character with a given number. -/
def char (n : Nat) : Read Char := if n.isValidChar then return Char.ofNat n else failure

/-- A character number in braces, or of the given fixed length. -/
def hexChar (length : Nat) : Read Char := do
  if ← accept "\x7b" then
    let digits ← takeWhile hexDigits.isHex
    if digits.isEmpty ∨ !(← accept "\x7d") then failure
    char (hexDigits.value digits)
  else char (← hexDigits length)

end Read

/-- A letter of an escape that stands for one character. -/
def controlEscape? : Char → Option Char
  | 'a' => some '\x07'
  | 'f' => some '\x0c'
  | 't' => some '\t'
  | 'n' => some '\n'
  | 'r' => some '\r'
  | 'v' => some '\x0b'
  | _ => none

/-- Characters that stand for themselves behind a backslash. -/
def isEscapable (c : Char) : Bool := c.toNat < 128 && !c.isAlphanum && c != '<' && c != '>'

/-- Read the name of a property behind `\p` or `\P`. -/
def readProperty : Read CharClass := do
  if ← Read.accept "\x7b" then
    let negated ← Read.accept "^"
    let name ← Read.takeWhile (· != '\x7d')
    if !(← Read.accept "\x7d") then failure
    let plain := (String.ofList name).toLower
    let value := ((plain.splitOn "=").getLast?).getD plain
    let set ← if value == "any" then pure (.complement .empty)
      else if value == "ascii" then pure (.range '\x00' '\x7f')
      else match Category.ofName? value with
        | some category => pure (.category category)
        | none => failure
    return if negated then .complement set else set
  else
    match Category.ofName? (String.singleton (← Read.next)) with
    | some category => return .category category
    | none => failure

/-- Read an escape that means a set of characters, behind its backslash. -/
def readClassEscape? (c : Char) : Read (Option CharClass) :=
  match c with
  | 'd' => return some .digit
  | 'D' => return some (.complement .digit)
  | 'w' => return some .word
  | 'W' => return some (.complement .word)
  | 's' => return some .blank
  | 'S' => return some (.complement .blank)
  | 'p' => return some (← readProperty)
  | 'P' => return some (.complement (← readProperty))
  | _ => return none

/-- Read an escape that means one character, given the letter behind the backslash. -/
def readCharEscape (c : Char) : Read Char := do
  match controlEscape? c with
  | some r => return r
  | none =>
    match c with
    | 'x' => Read.hexChar 2
    | 'u' => Read.hexChar 4
    | 'U' => Read.hexChar 8
    | 'c' =>
      let letter ← Read.next
      if letter.isAlpha then Read.char (letter.toUpper.toNat - 64) else failure
    | _ => if isEscapable c then return c else failure

/-- Read one member of a bracketed set that may begin a range. -/
def readSetItem : Read (Char ⊕ CharClass) := do
  let c ← Read.next
  if c = '\\' then
    let e ← Read.next
    match ← readClassEscape? e with
    | some set => return .inr set
    | none => return .inl (← readCharEscape e)
  else return .inl c

/-- Read a set behind its opening bracket, up to and including the closing one. -/
def readSet : (fuel : Nat) → Read CharClass
  | 0 => failure
  | fuel + 1 => do
    let negated ← Read.accept "^"
    let first ← if ← Read.accept "]" then pure (CharClass.single ']') else pure .empty
    let set ← members fuel first
    return if negated then .complement set else set
where
  /-- Read members and join them to those read before. -/
  members : (fuel : Nat) → CharClass → Read CharClass
    | 0, _ => failure
    | fuel + 1, acc => do
      match ← Read.peek with
      | none => failure
      | some ']' => Read.skip 1; return acc
      | some '[' =>
        Read.skip 1
        if ← Read.accept ":" then
          let negated ← Read.accept "^"
          let name ← Read.takeWhile Char.isAlpha
          if !(← Read.accept ":]") then failure
          match CharClass.named? (String.ofList name) with
          | some set => members fuel (.union acc (if negated then .complement set else set))
          | none => failure
        else
          let inner ← readSet fuel
          members fuel (.union acc inner)
      | some _ =>
        if ← Read.accept "&&" then return .inter acc (← members fuel .empty)
        else if ← Read.accept "--" then return .inter acc (.complement (← members fuel .empty))
        else if ← Read.accept "~~" then
          let other ← members fuel .empty
          return .union (.inter acc (.complement other)) (.inter other (.complement acc))
        else
          match ← readSetItem with
          | .inr set =>
            let r ← get
            if r.rest.head? = some '-' ∧ r.rest[1]? ≠ some ']' ∧ r.rest[1]? ≠ some '-' then failure
            members fuel (.union acc set)
          | .inl low =>
            let r ← get
            if r.rest.head? = some '-' ∧ r.rest[1]? ≠ some ']' ∧ r.rest[1]? ≠ some '-' then
              Read.skip 1
              match ← readSetItem with
              | .inl high =>
                if low ≤ high then members fuel (.union acc (.range low high)) else failure
              | .inr _ => failure
            else members fuel (.union acc (.single low))

/-- Read a decimal number. -/
def readNumber? : Read (Option Nat) := do
  let digits ← Read.takeWhile Char.isDigit
  return if digits.isEmpty then none
    else some (digits.foldl (fun n c => n * 10 + (c.toNat - 48)) 0)

/-- Read the bounds of a repetition, if one follows. -/
def readBounds? : Read (Option (Nat × Option Nat)) := do
  if ← Read.accept "*" then return some (0, none)
  else if ← Read.accept "+" then return some (1, none)
  else if ← Read.accept "?" then return some (0, some 1)
  else if ← Read.accept "\x7b" then
    let least ← readNumber?
    if ← Read.accept "," then
      let greatest ← readNumber?
      if !(← Read.accept "\x7d") then failure
      match least, greatest with
      | some l, some g => if l ≤ g then return some (l, some g) else failure
      | some l, none => return some (l, none)
      | none, some g => return some (0, some g)
      | none, none => failure
    else
      if !(← Read.accept "\x7d") then failure
      match least with
      | some l => return some (l, some l)
      | none => failure
  else return none

/-- Read the repetitions behind a piece of a pattern. -/
def readLoops : (fuel : Nat) → Expr → Read Expr
  | 0, _ => failure
  | fuel + 1, e => do
    match ← readBounds? with
    | none => return e
    | some (least, greatest) =>
      let swap := (← get).modes.swapGreed
      if ← Read.accept "?" then readLoops fuel (.loop e least greatest swap)
      else if ← Read.accept "+" then readLoops fuel (.atomic (.loop e least greatest true))
      else readLoops fuel (.loop e least greatest (!swap))

/-- Read switches of modes, up to a colon or a closing parenthesis, which is returned. -/
def readModes : (fuel : Nat) → (on : Bool) → Read Char
  | 0, _ => failure
  | fuel + 1, on => do
    let c ← Read.next
    let switch := fun (f : Modes → Modes) => do
      modify (fun r => { r with modes := f r.modes })
      readModes fuel on
    match c with
    | ')' => return c
    | ':' => return c
    | '-' => if on then readModes fuel false else failure
    | 'i' => switch ({ · with ignoreCase := on })
    | 'm' => switch ({ · with multiLine := on })
    | 's' => switch ({ · with dotAll := on })
    | 'U' => switch ({ · with swapGreed := on })
    | 'x' => switch ({ · with verbose := on })
    | 'u' => readModes fuel on
    | _ => failure

/-- Read the name of a group up to its closing mark. -/
def readName (close : Char) : Read String := do
  let name ← Read.takeWhile (fun c => c.isAlphanum || c == '_' || c == '.' || c == '[' || c == ']')
  if name.isEmpty ∨ ((name.head?).getD '0').isDigit then failure
  if (← Read.next) ≠ close then failure
  return String.ofList name

/-- Read a reference to a named group. -/
def readNamedReference (close : Char) : Read Expr := do
  let name ← readName close
  let r ← get
  match r.names.find? (fun e => e.1 == name) with
  | some e => return .same r.modes.ignoreCase e.2
  | none => failure

/-- Read an escape outside a bracketed set, behind its backslash. A number refers to a group opened
before. -/
def readEscape : Read Expr := do
  let modes := (← get).modes
  let c ← Read.next
  match c with
  | 'b' => return .anchor .wordBoundary
  | 'B' => return .anchor .notWordBoundary
  | 'A' => return .anchor .textStart
  | 'z' => return .anchor .textEnd
  | 'k' => if ← Read.accept "<" then readNamedReference '>' else failure
  | _ =>
    if c.isDigit then
      let more ← Read.takeWhile Char.isDigit
      let index := (c :: more).foldl (fun n d => n * 10 + (d.toNat - 48)) 0
      if index = 0 ∨ (← get).groups < index then failure
      return .same modes.ignoreCase index
    match ← readClassEscape? c with
    | some set => return .set modes.ignoreCase set
    | none => return .set modes.ignoreCase (.single (← readCharEscape c))

mutual

/-- Read alternatives up to the end or a closing parenthesis. -/
def readAlternatives : (fuel : Nat) → Read Expr
  | 0 => failure
  | fuel + 1 => do
    let first ← readSequence fuel .empty
    if ← Read.accept "|" then return .alt first (← readAlternatives fuel) else return first

/-- Read pieces up to the end of an alternative and join them to those read before. -/
def readSequence : (fuel : Nat) → Expr → Read Expr
  | 0, _ => failure
  | fuel + 1, acc => do
    let modes := (← get).modes
    match ← Read.peek with
    | none => return acc
    | some '|' => return acc
    | some ')' => return acc
    | some '#' =>
      if modes.verbose then
        let _ ← Read.takeWhile (· != '\n')
        readSequence fuel acc
      else piece fuel acc
    | some c =>
      if modes.verbose && c.isWhitespace then
        Read.skip 1
        readSequence fuel acc
      else piece fuel acc

/-- Read one piece with its repetitions, and those behind it. -/
def piece : (fuel : Nat) → Expr → Read Expr
  | 0, _ => failure
  | fuel + 1, acc => do
    let e ← readAtom fuel
    let e ← readLoops fuel e
    readSequence fuel (.cat acc e)

/-- Read one piece. -/
def readAtom : (fuel : Nat) → Read Expr
  | 0 => failure
  | fuel + 1 => do
    let modes := (← get).modes
    let c ← Read.next
    match c with
    | '(' => readGroup fuel
    | '[' => return .set modes.ignoreCase (← readSet fuel)
    | '.' => return .set false (.complement (if modes.dotAll then .empty else .single '\n'))
    | '^' => return .anchor (if modes.multiLine then .lineStart else .textStart)
    | '$' => return .anchor (if modes.multiLine then .lineEnd else .textEnd)
    | '\\' => readEscape
    | '*' => failure
    | '+' => failure
    | '?' => failure
    | '\x7b' => failure
    | _ => return .set modes.ignoreCase (.single c)

/-- Read a group behind its opening parenthesis. -/
def readGroup : (fuel : Nat) → Read Expr
  | 0 => failure
  | fuel + 1 => do
    if ← Read.accept "?:" then body fuel id
    else if ← Read.accept "?=" then body fuel (.look true true)
    else if ← Read.accept "?!" then body fuel (.look true false)
    else if ← Read.accept "?<=" then body fuel (.look false true)
    else if ← Read.accept "?<!" then body fuel (.look false false)
    else if ← Read.accept "?>" then body fuel .atomic
    else if ← Read.accept "?P=" then readNamedReference ')'
    else if ← Read.accept "?P<" then captured fuel (some (← readName '>'))
    else if ← Read.accept "?<" then captured fuel (some (← readName '>'))
    else if ← Read.accept "?" then
      let outer := (← get).modes
      let stop ← readModes fuel true
      if stop = ')' then return .empty
      let e ← readAlternatives fuel
      if !(← Read.accept ")") then failure
      modify (fun r => { r with modes := outer })
      return e
    else captured fuel none

/-- Read the inside of a group and wrap it; modes switched inside end with it. -/
def body : (fuel : Nat) → (Expr → Expr) → Read Expr
  | 0, _ => failure
  | fuel + 1, wrap => do
    let outer := (← get).modes
    let e ← readAlternatives fuel
    if !(← Read.accept ")") then failure
    modify (fun r => { r with modes := outer })
    return wrap e

/-- Read the inside of a numbered group. -/
def captured : (fuel : Nat) → Option String → Read Expr
  | 0, _ => failure
  | fuel + 1, name => do
    let r ← get
    let index := r.groups + 1
    if (name.map (fun n => r.names.any (fun e => e.1 == n))).getD false then failure
    set { r with groups := index, names := (name.map (fun n => (n, index))).toList ++ r.names }
    body fuel (.group index)

end

end Pattern

/-- A pattern ready for use. -/
structure Pattern where
  expr : Pattern.Expr

namespace Pattern

/-- Read a pattern; `none` if it is malformed. -/
def compile? (source : String) : Option Pattern :=
  let reader : Reader := ⟨source.toList, 0, [], ⟨false, false, false, false, false⟩⟩
  match (readAlternatives (8 * source.length + 8)).run reader with
  | some (e, r) => if r.rest.isEmpty then some ⟨e⟩ else none
  | none => none

/-- Whether the pattern matches somewhere in a text. -/
def search (p : Pattern) (s : String) : Bool :=
  let text := s.toList.toArray
  (List.range (text.size + 1)).any (fun start => !(p.expr.run text ⟨start, []⟩).isEmpty)

/-- Whether a pattern is well formed and matches somewhere in a text. -/
def found (source : String) (s : String) : Bool := ((compile? source).map (·.search s)).getD false

end Pattern

end HttpContract
