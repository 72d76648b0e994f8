import HttpContract.Yaml.Cursor
import HttpContract.Text.Radix

/-!
# Scalars of a YAML stream

A scalar is written plainly, in quotation marks of two kinds, or as an indented block of two kinds.
Plain and quoted scalars fold their lines: blanks around a line break are dropped, a single break
reads as a space, and of several the first is dropped. A block keeps its lines, or folds those that
do not start with a blank; an indicator behind its mark says what becomes of its last breaks.
-/

namespace HttpContract.Yaml

/-- How a scalar is written. -/
inductive Style where
  | plain
  | quoted
  | literal
  | folded
deriving DecidableEq, Repr

/-! ## Gaps between words -/

/-- Blanks and line breaks between two words of a scalar. -/
structure Gap where
  /-- Blanks on the line of the first word, if no break follows. -/
  blanks : List Char
  /-- Whether there is a line break, written or escaped. -/
  broken : Bool
  /-- The first break. -/
  first : List Char
  /-- The other breaks. -/
  others : List Char

namespace Gap

/-- A gap without anything in it. -/
def empty : Gap := ⟨[], false, [], []⟩

/-- A gap that starts with an escaped line break. -/
def escaped : Gap := ⟨[], true, [], []⟩

/-- What a gap adds to a text. -/
def text (g : Gap) : List Char :=
  if g.broken then
    if g.first = ['\n'] then (if g.others.isEmpty then [' '] else g.others)
    else g.first ++ g.others
  else g.blanks

/-- Read a gap. A tab that indents a continuation line is an error before the given column. -/
def read (column : Nat) : (fuel : Nat) → Cursor → Gap → Option (Gap × Cursor)
  | 0, c, g => some (g, c)
  | fuel + 1, c, g =>
    match c.peek? with
    | none => some (g, c)
    | some x =>
      if isBlank x then
        if g.broken && x == '\t' && decide (c.column < column) then none
        else
          read column fuel (c.skip 1) (if g.broken then g else { g with blanks := g.blanks ++ [x] })
      else if isBreak x then
        let added := c.breakText
        read column fuel c.skipBreak
          (if g.broken then { g with others := g.others ++ added }
            else { g with blanks := [], broken := true, first := added })
      else some (g, c)

end Gap

/-! ## Quoted scalars -/

/-- The character with a number of so many hexadecimal digits. -/
def hexChar? (length : Nat) (text : List Char) : Option Char :=
  let digits := text.take length
  if digits.length < length then none
  else
    (Radix.read? 16 digits).bind
      (fun n => if h : n.isValidChar then some (Char.ofNatAux n h) else none)

/-- The character that an escape stands for, and the length of the escape behind its backslash. -/
def escape? : List Char → Option (Char × Nat)
  | [] => none
  | x :: rest =>
    let hex := fun (n : Nat) => (hexChar? n rest).map (fun c => (c, n + 1))
    let one := fun (c : Char) => some (c, 1)
    match x with
    | '0' => one '\u0000'
    | 'a' => one '\u0007'
    | 'b' => one '\u0008'
    | 't' => one '\t'
    | '\t' => one '\t'
    | 'n' => one '\n'
    | 'v' => one '\u000b'
    | 'f' => one '\u000c'
    | 'r' => one '\r'
    | 'e' => one '\u001b'
    | ' ' => one ' '
    | '\x22' => one '\x22'
    | '/' => one '/'
    | '\\' => one '\\'
    | 'N' => one '\u0085'
    | '_' => one '\u00a0'
    | 'L' => one '\u2028'
    | 'P' => one '\u2029'
    | 'x' => hex 2
    | 'u' => hex 4
    | 'U' => hex 8
    | _ => none

/-- Read a quoted scalar behind its opening mark; `done` is what has been read, last first. -/
def quoted (mark : Char) : (fuel : Nat) → Cursor → (done : List Char) → Option (List Char × Cursor)
  | 0, _, _ => none
  | fuel + 1, c, done =>
    let gap := fun (g : Gap) (c : Cursor) => do
      let (g, c) ← Gap.read 0 (c.rest.length + 1) c g
      if c.atDocumentMarker then none else quoted mark fuel c (g.text.reverse ++ done)
    match c.rest with
    | [] => none
    | x :: rest =>
      if x == mark then
        if mark == '\x27' && rest.head? == some mark then quoted mark fuel (c.skip 2) (mark :: done)
        else some (done.reverse, c.skip 1)
      else if x == '\\' && mark == '\x22' then
        if rest.head?.any isBreak then gap Gap.escaped (c.skip 1).skipBreak
        else
          match escape? rest with
          | some (y, n) => quoted mark fuel (c.skip (n + 1)) (y :: done)
          | none => none
      else if isBlank x || isBreak x then gap Gap.empty c
      else quoted mark fuel (c.skip 1) (x :: done)

/-! ## Plain scalars -/

/-- Characters that end a plain scalar within brackets. -/
def isFlowMark (c : Char) : Bool := c == ',' || c == '[' || c == ']' || c == '{' || c == '}'

/-- Whether a plain scalar ends before the given rest. -/
def endsPlain (flow : Bool) : List Char → Bool
  | [] => true
  | x :: rest =>
    isBlank x || isBreak x || (x == ':' && endsWord rest) || (flow && isFlowMark x)

/-- Whether a colon stands where no key can end: before a bracket, a comma or a question mark. -/
def strayColon (flow : Bool) : List Char → Bool
  | ':' :: y :: _ => flow && (isFlowMark y || y == '?')
  | _ => false

/-- The end of a plain scalar. -/
structure PlainEnd where
  text : List Char
  cursor : Cursor
  /-- Whether line breaks follow the last word, so that a new line has begun. -/
  newLine : Bool

/-- Read a plain scalar from the start of a word. Continuation lines are indented to the given
column, except within brackets. `done` is what has been read, last first, and `pending` the gap
before the word. -/
def plain (flow : Bool) (column : Nat) : (fuel : Nat) → Cursor → (pending : Gap) →
    (done : List Char) → Option PlainEnd
  | 0, _, _, _ => none
  | fuel + 1, c, pending, done =>
    let close := some ⟨done.reverse, c, pending.broken⟩
    if strayColon flow c.rest then none
    else
      match c.rest with
      | [] => close
      | x :: _ =>
        if isBlank x || isBreak x then do
          let (g, c) ← Gap.read column (c.rest.length + 1) c Gap.empty
          if c.atDocumentMarker || c.sees '#' || (!flow && decide (c.column < column)) then
            some ⟨done.reverse, c, g.broken⟩
          else if endsPlain flow c.rest then some ⟨done.reverse, c, g.broken⟩
          else plain flow column fuel c g done
        else if endsPlain flow c.rest then close
        else plain flow column fuel (c.skip 1) Gap.empty (x :: (pending.text.reverse ++ done))

/-! ## Block scalars -/

/-- What becomes of the line breaks at the end of a block. -/
inductive Chomping where
  | strip
  | clip
  | keep
deriving DecidableEq, Repr

/-- Read the indicators behind the mark of a block, the chomping and the indentation, in any
order. -/
def blockHeader (c : Cursor) : Option (Chomping × Option Nat × Cursor) :=
  let chomping := fun (c : Cursor) =>
    if c.sees '+' then (Chomping.keep, c.skip 1)
    else if c.sees '-' then (Chomping.strip, c.skip 1)
    else (Chomping.clip, c)
  let indentation := fun (c : Cursor) =>
    match c.peek? with
    | some d =>
      if d == '0' then none
      else if d.isDigit then some (some (d.toNat - 48), c.skip 1)
      else some (none, c)
    | none => some (none, c)
  if c.seesSome (fun x => x == '+' || x == '-') then do
    let (m, c) := chomping c
    let (n, c) ← indentation c
    return (m, n, c)
  else do
    let (n, c) ← indentation c
    match n with
    | none => return (.clip, none, c)
    | some _ =>
      let (m, c) := chomping c
      return (m, n, c)

/-- The end of the indentation and empty lines before a line of a block. -/
structure BlockGap where
  breaks : List Char
  widest : Nat
  cursor : Cursor

/-- Read indentation and empty lines. Up to the column of the block, or as far as there are spaces
if it is not known yet, spaces are skipped; a tab there is an error. -/
def blockGap (column : Option Nat) : (fuel : Nat) → BlockGap → Option BlockGap
  | 0, g => some g
  | fuel + 1, g =>
    let spaces := (g.cursor.rest.takeWhile (· == ' ')).length
    let spaces := match column with
      | some n => min spaces (n - g.cursor.column)
      | none => spaces
    let c := g.cursor.skip spaces
    let widest := max g.widest c.column
    if (column.all (fun n => decide (c.column < n))) && c.sees '\t' then none
    else if c.seesSome isBreak then
      blockGap column fuel ⟨g.breaks ++ c.breakText, widest, c.skipBreak⟩
    else some ⟨g.breaks, widest, c⟩

/-- Read the lines of a block; `done` is what has been read, `last` the break behind the last line
and `breaks` those of empty lines behind it. -/
def blockLines (fold : Bool) (chomping : Chomping) (column : Nat) : (fuel : Nat) → Cursor →
    (done last breaks : List Char) → (indented : Bool) → Option (List Char × Cursor)
  | 0, _, _, _, _, _ => none
  | fuel + 1, c, done, last, breaks, indented =>
    if c.column == column && !c.rest.isEmpty then do
      let blank := c.seesSome isBlank
      let folded := fold && last == ['\n'] && !indented && !blank
      let between := if folded then (if breaks.isEmpty then [' '] else []) else last
      let line := c.rest.takeWhile (fun x => !isBreak x)
      let c := c.skip line.length
      let g ← blockGap (some column) (c.rest.length + 1) ⟨[], 0, c.skipBreak⟩
      blockLines fold chomping column fuel g.cursor (done ++ between ++ breaks ++ line) c.breakText
        g.breaks blank
    else
      some (done ++ (if chomping = .strip then [] else last)
        ++ (if chomping = .keep then breaks else []), c)

/-- Read a block behind its mark, in a collection indented to the column before `outer`. -/
def block (fold : Bool) (outer : Nat) (c : Cursor) : Option (List Char × Cursor) := do
  let (chomping, step, c) ← blockHeader c
  let c := c.skipComment
  if !breaksOff c.rest then none
  else
    let c := c.skipBreak
    let fuel := c.rest.length + 1
    let g ← blockGap (step.map (fun n => outer - 1 + n)) fuel ⟨[], 0, c⟩
    let column := match step with
      | some n => outer - 1 + n
      | none => max g.widest (max outer 1)
    blockLines fold chomping column fuel g.cursor [] [] g.breaks false

end HttpContract.Yaml
