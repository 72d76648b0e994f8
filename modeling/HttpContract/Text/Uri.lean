/-!
# Uniform resource identifiers

The generic syntax of RFC 3986: `Uri.split` takes a reference apart, `Uri.isReference` and
`Uri.isAbsolute` check its characters, and `Uri.resolve` resolves it against a base.
-/

namespace HttpContract

/-- The components of a reference. -/
structure Uri where
  scheme : Option String
  authority : Option String
  path : String
  query : Option String
  fragment : Option String
deriving DecidableEq, Repr

namespace Uri

/-- Cut a text at the first character that satisfies a test, which is dropped. -/
def cutAt (p : Char → Bool) (cs : List Char) : List Char × Option (List Char) :=
  match cs.dropWhile (fun c => !p c) with
  | [] => (cs, none)
  | _ :: rest => (cs.takeWhile (fun c => !p c), some rest)

/-- Whether characters can be the name of a scheme. -/
def isScheme (cs : List Char) : Bool :=
  match cs with
  | c :: rest => c.isAlpha && rest.all (fun d => d.isAlphanum || d == '+' || d == '-' || d == '.')
  | [] => false

/-- Take a reference apart. -/
def split (s : String) : Uri :=
  let (rest, fragment) := cutAt (· == '#') s.toList
  let (rest, query) := cutAt (· == '?') rest
  let (scheme, rest) := match cutAt (fun c => c == ':' || c == '/') rest with
    | (name, some after) =>
      if isScheme name ∧ rest[name.length]? = some ':' then (some name, after) else (none, rest)
    | (_, none) => (none, rest)
  let (authority, path) := match rest with
    | '/' :: '/' :: more => (some (more.takeWhile (· != '/')), more.dropWhile (· != '/'))
    | path => (none, path)
  { scheme := scheme.map String.ofList
    authority := authority.map String.ofList
    path := String.ofList path
    query := query.map String.ofList
    fragment := fragment.map String.ofList }

/-- Put the components together again. -/
def text (u : Uri) : String :=
  ((u.scheme.map (· ++ ":")).getD "") ++ ((u.authority.map ("//" ++ ·)).getD "") ++ u.path
    ++ ((u.query.map ("?" ++ ·)).getD "") ++ ((u.fragment.map ("#" ++ ·)).getD "")

/-! ## Characters -/

/-- Whether a character is a hexadecimal digit. -/
def isHex (c : Char) : Bool := c.isDigit || ('a' ≤ c && c ≤ 'f') || ('A' ≤ c && c ≤ 'F')

/-- Letters, digits and four marks. -/
def isUnreserved (c : Char) : Bool :=
  c.isAlphanum || c == '-' || c == '.' || c == '_' || c == '~'

/-- Delimiters that can occur within a component. -/
def isSubDelimiter (c : Char) : Bool := "!$&'()*+,;=".contains c

/-- Whether characters are allowed ones or percent-encoded bytes. -/
def allEncoded (allowed : Char → Bool) : List Char → Bool
  | [] => true
  | '%' :: a :: b :: rest => isHex a && isHex b && allEncoded allowed rest
  | c :: rest => c != '%' && allowed c && allEncoded allowed rest

/-- The characters of a path segment. -/
def isSegmentChar (c : Char) : Bool := isUnreserved c || isSubDelimiter c || c == ':' || c == '@'

/-- Whether a path has allowed characters only. -/
def isPath (s : String) : Bool := allEncoded (fun c => isSegmentChar c || c == '/') s.toList

/-- Whether a query or fragment has allowed characters only. -/
def isQuery (s : String) : Bool :=
  allEncoded (fun c => isSegmentChar c || c == '/' || c == '?') s.toList

/-! ## Addresses -/

/-- Whether a text is a byte in decimal, without superfluous zeros. -/
def isDecimalByte (s : String) : Bool :=
  s.length ≤ 3 && s != "" && s.all Char.isDigit && !(s.length > 1 && s.startsWith "0")
    && (s.toNat?.getD 256) ≤ 255

/-- Whether a text is an address of four bytes. -/
def isIpv4 (s : String) : Bool :=
  let parts := s.splitOn "."
  parts.length == 4 && parts.all isDecimalByte

/-- How many groups of 16 bits colon-separated parts make; the last part can be an address of four
bytes, if allowed. -/
def groupCount? (allowIpv4 : Bool) : List String → Option Nat
  | [] => some 0
  | [last] =>
    if last != "" && last.length ≤ 4 && last.all isHex then some 1
    else if allowIpv4 && isIpv4 last then some 2 else none
  | p :: rest =>
    if p != "" && p.length ≤ 4 && p.all isHex then (groupCount? allowIpv4 rest).map (· + 1)
    else none

/-- Whether a text is an address of eight groups of 16 bits, one run of zero groups left out. -/
def isIpv6 (s : String) : Bool :=
  let groups := fun (allowIpv4 : Bool) (part : String) =>
    if part == "" then some 0 else groupCount? allowIpv4 (part.splitOn ":")
  match s.splitOn "::" with
  | [whole] => groups true whole == some 8
  | [before, after] =>
    match groups false before, groups true after with
    | some a, some b => a + b ≤ 7
    | _, _ => false
  | _ => false

/-- Whether a text is an address of a later version: the letter `v`, the version, a dot and the
address. -/
def isFutureAddress (s : String) : Bool :=
  match s.toList with
  | c :: rest =>
    match cutAt (· == '.') rest with
    | (version, some address) =>
      (c == 'v' || c == 'V') && !version.isEmpty && version.all isHex && !address.isEmpty
        && address.all (fun d => isUnreserved d || isSubDelimiter d || d == ':')
    | (_, none) => false
  | [] => false

/-- Whether an authority is a well-formed host, with user information before it and a number behind
it or without. -/
def isAuthority (s : String) : Bool :=
  let cs := s.toList
  let (user, host) := match cs.reverse.dropWhile (· != '@') with
    | [] => ([], cs)
    | _ :: front => (front.reverse, (cs.reverse.takeWhile (· != '@')).reverse)
  let userOk := allEncoded (fun c => isUnreserved c || isSubDelimiter c || c == ':') user
  let numberOk := fun (behind : List Char) => match behind with
    | [] => true
    | ':' :: digits => digits.all Char.isDigit
    | _ => false
  let hostOk := match host with
    | '[' :: rest =>
      match cutAt (· == ']') rest with
      | (literal, some behind) =>
        let address := String.ofList literal
        (isIpv6 address || isFutureAddress address) && numberOk behind
      | (_, none) => false
    | _ =>
      allEncoded (fun c => isUnreserved c || isSubDelimiter c) (host.takeWhile (· != ':'))
        && numberOk (host.dropWhile (· != ':'))
  userOk && hostOk

/-- Whether all components are well formed. -/
def wellFormed (u : Uri) : Bool :=
  (u.authority.map isAuthority).getD true && isPath u.path
    && (u.query.map isQuery).getD true && (u.fragment.map isQuery).getD true
    && (u.scheme.isSome || !((u.path.splitOn "/").headD "").contains ':' || u.authority.isSome)

/-- Whether a text is a reference, absolute or relative. -/
def isReference (s : String) : Bool := wellFormed (split s)

/-- Whether a text is a reference with a scheme. -/
def isAbsolute (s : String) : Bool :=
  let u := split s
  u.scheme.isSome && wellFormed u

/-! ## Resolution -/

/-- Drop the segments `.` and `..`, the latter with the segment before it; the segments kept so far
come in reverse. -/
def dropDots : List String → List String → List String
  | kept, [] => kept.reverse
  | kept, ["."] => ("" :: kept).reverse
  | kept, [".."] => ("" :: kept.drop 1).reverse
  | kept, "." :: rest => dropDots kept rest
  | kept, ".." :: rest => dropDots (kept.drop 1) rest
  | kept, s :: rest => dropDots (s :: kept) rest

/-- The texts between the slashes of a path. -/
def segments (path : String) : List String := (path.toList.splitOn '/').map String.ofList

/-- A path without the segments `.` and `..`. -/
def normalPath (path : String) : String :=
  match segments path with
  | "" :: segments => "/" ++ "/".intercalate (dropDots [] segments)
  | segments => "/".intercalate (dropDots [] segments)

/-- The path of a relative reference behind the last slash of the base's path. -/
def mergePath (base : Uri) (path : String) : String :=
  if base.authority.isSome ∧ base.path = "" then "/" ++ path
  else "/".intercalate ((segments base.path).dropLast ++ [path])

/-- Resolve a reference against a base. -/
def resolve (base reference : Uri) : Uri :=
  if reference.scheme.isSome then { reference with path := normalPath reference.path }
  else if reference.authority.isSome then
    { reference with scheme := base.scheme, path := normalPath reference.path }
  else if reference.path = "" then
    { base with query := reference.query.or base.query, fragment := reference.fragment }
  else
    let path :=
      if reference.path.startsWith "/" then reference.path else mergePath base reference.path
    { base with path := normalPath path, query := reference.query, fragment := reference.fragment }

end Uri

end HttpContract
