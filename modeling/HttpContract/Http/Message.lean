import HttpContract.Json.Printer
import HttpContract.Text.Utf8

/-!
# Requests and responses

A body is a sequence of bytes or a stream that fails while it is read. Header names are in lower
case; a name can occur several times.
-/

namespace HttpContract.Http

/-- The contents of a message. -/
inductive Body where
  | bytes (b : List UInt8)
  /-- A stream that fails with the given text. -/
  | failing (reason : String)
deriving DecidableEq

/-- Header names and values in their order. -/
abbrev Headers := List (String × List UInt8)

/-- The values of a header in their order. -/
def Headers.values (h : Headers) (name : String) : List (List UInt8) :=
  (h.filter (fun e => e.1 == name)).map (·.2)

/-- The first value of a header. -/
def Headers.first? (h : Headers) (name : String) : Option (List UInt8) :=
  (Headers.values h name).head?

/-- Drop all values of a header. -/
def Headers.remove (h : Headers) (name : String) : Headers := h.filter (fun e => e.1 != name)

/-- Replace all values of a header by one. -/
def Headers.replace (h : Headers) (name : String) (value : List UInt8) : Headers :=
  if h.any (fun e => e.1 == name) then
    replaceFirst (fun e => e.1 == name) (name, value) h
  else h ++ [(name, value)]
where
  /-- Put an entry in the place of the first that satisfies a test, and drop the others. -/
  replaceFirst (p : String × List UInt8 → Bool) (new : String × List UInt8) : Headers → Headers
    | [] => []
    | e :: rest => if p e then new :: rest.filter (fun e => !p e) else e :: replaceFirst p new rest

/-- A request to a handler. -/
structure Request where
  method : String
  target : String
  headers : Headers
  body : Body
deriving DecidableEq

/-- The answer of a handler. -/
structure Response where
  status : Nat
  headers : Headers
  body : Body
deriving DecidableEq

/-- The content type of documents. -/
def jsonType : String := "application/json"

namespace Response

/-- A response with nothing in it. -/
def empty (status : Nat) : Response := ⟨status, [], .bytes []⟩

/-- A response with a document. -/
def json (status : Nat) (v : Json) : Response :=
  ⟨status, [("content-type", Utf8.encode jsonType)], .bytes (Utf8.encode v.render)⟩

/-- A response with plain text. -/
def plain (status : Nat) (text : String) : Response :=
  ⟨status, [("content-type", Utf8.encode "text/plain; charset=utf-8")], .bytes (Utf8.encode text)⟩

end Response

end HttpContract.Http
