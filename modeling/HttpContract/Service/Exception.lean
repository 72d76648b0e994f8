import HttpContract.Http.Message
import HttpContract.Report

/-!
# Exceptions, rejections and their handlers

When data violate a schema an exception is raised. A handler decides what becomes of it: it rejects
the exchange, or lets it go on.
-/

namespace HttpContract

/-- Which side of an exchange violated its schema. -/
inductive Phase where
  | request
  | response
deriving DecidableEq, Repr

/-- The name of a phase. -/
def Phase.name : Phase → String
  | .request => "request"
  | .response => "response"

/-- Raised when data violate a schema. -/
structure Exception where
  phase : Phase
  operation : String
  /-- The violating part of the request; none in the response phase. -/
  slot : Option RequestSlot
  errors : List FieldError
  /-- The data before normalization. -/
  given : Json
deriving DecidableEq

namespace Exception

/-- The name of an exception. -/
def name (e : Exception) : String :=
  match e.phase with
  | .request => "ValidationException"
  | .response => "ResponseValidationException"

/-- The violations in one line. -/
def text (e : Exception) : String := errorsText e.errors

/-- The exception in one line. -/
def display (e : Exception) : String := e.name ++ ": " ++ e.text

/-- What a client is told first: the first violation. -/
def headline (e : Exception) : String :=
  match e.errors with
  | first :: _ => first.message
  | [] => e.text

end Exception

/-- What a client is told. -/
structure Rejection where
  message : String
  phase : Phase
  errors : List FieldError
  given : Json
  status : Nat
  /-- Whether the client is told all violations. -/
  exposeErrors : Bool
deriving DecidableEq

namespace Rejection

/-- The name of a rejection. -/
def name : String := "ValidationError"

/-- A rejection that tells the message alone, as a fault of the server. -/
def of (message : String) (phase : Phase) (errors : List FieldError) (given : Json) : Rejection :=
  ⟨message, phase, errors, given, 500, false⟩

/-- The rejection as a response. -/
def toResponse (r : Rejection) : Http.Response :=
  .json r.status <| .ofMembers <|
    [("message", .str r.message)]
      ++ (if r.exposeErrors then [("errors", .arr (r.errors.map FieldError.toJson))] else [])

end Rejection

/-- Decides about an exception: the rejection, or nothing to let the exchange go on. -/
abbrev Handler := Exception → Option Rejection

namespace Handler

/-- Reject with the first violation as the message. -/
def rejecting : Handler := fun e => some (Rejection.of e.headline e.phase e.errors e.given)

/-- Let everything go on. -/
def reportOnly : Handler := fun _ => none

end Handler

/-- Failures that keep validation from being done at all. -/
inductive ServiceError where
  | badRequest (reason : String)
  | payloadTooLarge (reason : String)
  | internal (reason : String)
deriving DecidableEq, Repr

namespace ServiceError

/-- The wording of a failure. -/
def message : ServiceError → String
  | badRequest reason => "bad request: " ++ reason
  | payloadTooLarge reason => "payload too large: " ++ reason
  | internal reason => "internal error: " ++ reason

/-- The status and the code of a failure. -/
def statusAndCode : ServiceError → Nat × String
  | badRequest _ => (400, "BAD_REQUEST")
  | payloadTooLarge _ => (413, "PAYLOAD_TOO_LARGE")
  | internal _ => (500, "INTERNAL_ERROR")

/-- What clients are told; the reason of an internal failure is not for them. -/
def publicMessage : ServiceError → String
  | internal _ => "An internal error occurred"
  | e => e.message

/-- The failure as a response. -/
def toResponse (e : ServiceError) : Http.Response :=
  let (status, code) := e.statusAndCode
  .json status <| .ofMembers
    [("error", .ofMembers [("code", .str code), ("message", .str e.publicMessage)])]

end ServiceError

end HttpContract
