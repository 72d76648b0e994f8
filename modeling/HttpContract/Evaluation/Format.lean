import HttpContract.Evaluation.Pattern
import HttpContract.Text.Uri
import HttpContract.Text.Utf8

/-!
# Formats

The keyword `format` names a form that a text has to have. Unknown names demand nothing.
-/

namespace HttpContract.Format

/-- The value of two decimal digits. -/
def twoDigits? : List Char → Option Nat
  | [a, b] =>
    if a.isDigit ∧ b.isDigit then some ((a.toNat - 48) * 10 + (b.toNat - 48)) else none
  | _ => none

/-- Whether a year has a 29th of February. -/
def isLeapYear (y : Nat) : Bool := y % 4 == 0 && (y % 100 != 0 || y % 400 == 0)

/-- The number of days of a month. -/
def daysOfMonth (y m : Nat) : Nat :=
  if m = 2 then (if isLeapYear y then 29 else 28)
  else if m = 4 ∨ m = 6 ∨ m = 9 ∨ m = 11 then 30 else 31

/-- A full date: year, month and day. -/
def isDate : List Char → Bool
  | [a, b, c, d, '-', e, f, '-', g, h] =>
    match twoDigits? [a, b], twoDigits? [c, d], twoDigits? [e, f], twoDigits? [g, h] with
    | some century, some year, some month, some day =>
      1 ≤ month && month ≤ 12 && 1 ≤ day && day ≤ daysOfMonth (century * 100 + year) month
    | _, _, _, _ => false
  | _ => false

/-- What may follow the seconds of a time: a fraction and an offset, which is returned as minutes
east of the prime meridian. -/
def offset? (cs : List Char) : Option Int :=
  let rest : Option (List Char) := match cs with
    | '.' :: d :: more => if d.isDigit then some (more.dropWhile Char.isDigit) else none
    | '.' :: [] => none
    | other => some other
  match rest with
  | some ['Z'] => some 0
  | some ['z'] => some 0
  | some [sign, a, b, ':', c, d] =>
    match twoDigits? [a, b], twoDigits? [c, d] with
    | some h, some m =>
      let minutes : Int := (h * 60 + m : Nat)
      if 23 < h ∨ 59 < m then none
      else if sign = '+' then some minutes
      else if sign = '-' then some (-minutes) else none
    | _, _ => none
  | _ => none

/-- A full time with offset; a leap second stands at the end of a day in universal time only. -/
def isTime : List Char → Bool
  | a :: b :: ':' :: c :: d :: ':' :: e :: f :: rest =>
    match twoDigits? [a, b], twoDigits? [c, d], twoDigits? [e, f], offset? rest with
    | some h, some m, some s, some off =>
      h ≤ 23 && m ≤ 59 && s ≤ 60
        && (s < 60 || ((h * 60 + m : Nat) - off).emod 1440 == 1439)
    | _, _, _, _ => false
  | _ => false

/-- A date and a time with the letter `T` between them. -/
def isDateTime (cs : List Char) : Bool :=
  isDate (cs.take 10) && (cs[10]? == some 'T' || cs[10]? == some 't') && isTime (cs.drop 11)

/-- The components of a duration: counts with units, each unit behind the one before it. -/
def isDurationPart : (fuel : Nat) → (units : List Char) → List Char → Bool
  | 0, _, _ => false
  | fuel + 1, units, cs =>
    let rest := cs.dropWhile Char.isDigit
    if rest.length = cs.length then false
    else
      match rest with
      | [] => false
      | u :: more =>
        match units.dropWhile (· != u) with
        | [] => false
        | _ :: later => more.isEmpty || isDurationPart fuel later more

/-- A duration: years, months and days, then hours, minutes and seconds; or weeks alone. -/
def isDuration : List Char → Bool
  | 'P' :: rest =>
    let date := rest.takeWhile (· != 'T')
    let dateOk := isDurationPart rest.length ['Y', 'M', 'D'] date
    match rest.dropWhile (· != 'T') with
    | [] => dateOk || isDurationPart rest.length ['W'] date
    | _ :: time => (date.isEmpty || dateOk) && isDurationPart rest.length ['H', 'M', 'S'] time
  | _ => false

/-- A label of a host name. -/
def isLabel (s : String) : Bool :=
  s != "" && s.length ≤ 63 && s.all (fun c => c.isAlphanum || c == '-')
    && !s.startsWith "-" && !s.endsWith "-"

/-- A host name: labels between dots. -/
def isHostname (s : String) : Bool := s.length ≤ 253 && (s.splitOn ".").all isLabel

/-- Characters of an unquoted local part. -/
def isAtomChar (c : Char) : Bool :=
  c.isAlphanum || "!#$%&'*+-/=?^_\x60\x7b|\x7d~".contains c || 128 ≤ c.toNat

/-- Whether a character is a visible ASCII character. -/
def isVisibleAscii (c : Char) : Bool := '!' ≤ c && c ≤ '~'

/-- The inside of a quoted local part: blanks, and any visible character, of which the quotation
mark and the backslash come behind a backslash. -/
def isQuoted : List Char → Bool
  | [] => true
  | '\\' :: c :: rest => isVisibleAscii c && isQuoted rest
  | c :: rest =>
    (c == ' ' || c == '\t' || 128 ≤ c.toNat || (isVisibleAscii c && c != '\\' && c != '\x22'))
      && isQuoted rest

/-- The part of a mail address before its last at sign. -/
def isLocalPart (s : String) : Bool :=
  let cs := s.toList
  s != "" && (Utf8.encode s).length ≤ 64
    && (if cs.head? = some '\x22' ∧ cs.getLast? = some '\x22' then
          2 < cs.length && isQuoted ((cs.drop 1).dropLast)
        else (s.splitOn ".").all (fun part => part != "" && part.all isAtomChar))

/-- The part of a mail address behind its last at sign: a host name or a bracketed address. -/
def isMailDomain (s : String) : Bool :=
  match s.toList with
  | '[' :: rest =>
    rest.getLast? == some ']' &&
      (let inner := String.ofList rest.dropLast
       if inner.startsWith "IPv6:" then Uri.isIpv6 (String.ofList (inner.toList.drop 5))
       else Uri.isIpv4 inner)
  | _ => isHostname s

/-- The address in angle brackets behind a display name, or the whole text if there is no such
name. A bracket that is not closed at the end makes the text malformed. -/
def withoutDisplayName? (s : String) : Option String :=
  match (s.splitOn " <").reverse with
  | last :: _ :: _ =>
    match (last.toList.reverse.dropWhile Char.isWhitespace) with
    | '>' :: inner => some (String.ofList (inner.reverse.dropWhile Char.isWhitespace))
    | _ => none
  | _ => some s

/-- A mail address, with or without a display name before it. -/
def isEmail (s : String) : Bool :=
  match ((((withoutDisplayName? s).getD "").splitOn "@").reverse) with
  | domain :: front@(_ :: _) => isLocalPart ("@".intercalate front.reverse) && isMailDomain domain
  | _ => false

/-- An identifier of 32 hexadecimal digits in five groups. -/
def isUuid (s : String) : Bool :=
  let groups := s.splitOn "-"
  groups.map String.length == [8, 4, 4, 4, 12] && groups.all (fun g => g.all Uri.isHex)

/-- The pattern of pointers. -/
def pointerPattern : String := "^(/(([^/~])|(~[01]))*)*$"

/-- The pattern of pointers with a number of steps upward. -/
def relativePointerPattern : String := "^(?:0|[1-9][0-9]*)(?:#|(?:/(?:[^/~]|~[01])*)*)$"

/-- The pattern of templates for references. -/
def templatePattern : String :=
  let literal := "(?:[^\\x00-\\x20\x22'<>%\\\\^\x60\x7b|\x7d]|%[0-9a-f]\x7b2\x7d)"
  let name := "(?:[a-z0-9_]|%[0-9a-f]\x7b2\x7d)+(?::[1-9][0-9]\x7b0,3\x7d|\\*)?"
  let expression := "\\\x7b[+#./;?&=,!@|]?" ++ name ++ "(?:," ++ name ++ ")*\\\x7d"
  "^(?:" ++ literal ++ "|" ++ expression ++ ")*$"

/-- The check of a format, if its name is known. -/
def check? (name : String) : Option (String → Bool) :=
  match name with
  | "date" => some (fun s => isDate s.toList)
  | "time" => some (fun s => isTime s.toList)
  | "date-time" => some (fun s => isDateTime s.toList)
  | "duration" => some (fun s => isDuration s.toList)
  | "email" => some isEmail
  | "idn-email" => some isEmail
  | "hostname" => some isHostname
  | "ipv4" => some Uri.isIpv4
  | "ipv6" => some Uri.isIpv6
  | "uuid" => some isUuid
  | "uri" => some Uri.isAbsolute
  | "uri-reference" => some Uri.isReference
  | "uri-template" => some (Pattern.found templatePattern)
  | "json-pointer" => some (Pattern.found pointerPattern)
  | "relative-json-pointer" => some (Pattern.found relativePointerPattern)
  | "regex" => some (fun s => (Pattern.compile? s).isSome)
  | _ => none

/-- Whether a text has the named form. -/
def holds (name s : String) : Bool := ((check? name).map (· s)).getD true

end HttpContract.Format
