import HttpContract.Service.Exception
import HttpContract.Service.Repository

/-!
# The gate

The gate stands on both sides of a route handler. Before it the four parts of the request are
validated, all of them, and for each that fails an exception is handed to the error handler; behind
it the response body is validated, or rendered by its schema. Every step also lists the exceptions
it handed over.
-/

namespace HttpContract

/-- The values of the four parts of a request. -/
structure RequestData where
  parameters : Json
  query : Json
  headers : Json
  body : Json
deriving DecidableEq

namespace RequestData

/-- The value of a part. -/
def slot (d : RequestData) : RequestSlot → Json
  | .parameters => d.parameters
  | .query => d.query
  | .headers => d.headers
  | .body => d.body

/-- Replace the value of a part. -/
def withSlot (d : RequestData) (slot : RequestSlot) (v : Json) : RequestData :=
  match slot with
  | .parameters => { d with parameters := v }
  | .query => { d with query := v }
  | .headers => { d with headers := v }
  | .body => { d with body := v }

end RequestData

/-- The verdict on each part of a request, in the order of the parts. -/
abbrev RequestReport := List (RequestSlot × Verdict)

namespace RequestReport

/-- The verdict on a part. -/
def get? (r : RequestReport) (slot : RequestSlot) : Option Verdict :=
  (r.find? (fun e => e.1 == slot)).map (·.2)

/-- Whether no part failed. -/
def success (r : RequestReport) : Bool := r.all (fun e => e.2.success)

/-- The report as a document. -/
def toJson (r : RequestReport) : Json :=
  .ofMembers [("results", .ofMembers (r.map (fun e => (e.1.name, e.2.toJson))))]

end RequestReport

/-- What became of a response body. -/
inductive ResponseOutcome where
  /-- No schema covers the status; the body is untouched. -/
  | passthrough (body : Json)
  /-- The body was validated and normalized. -/
  | validated (body : Json)
  /-- The body was rendered by its schema. -/
  | serialized (text : String)
deriving DecidableEq

namespace Gate

/-- The outcome of a step, with the exceptions handed over to the handler. -/
structure Step (α : Type) where
  outcome : Except Rejection α
  raised : List Exception

/-- Hand exceptions over, one after the other; the first rejection counts. -/
def handAll (handler : Handler) (exceptions : List Exception) : Option Rejection :=
  (exceptions.filterMap handler).head?

/-- The validation of one part of a request. -/
structure SlotCheck where
  slot : RequestSlot
  verdict : Verdict
  given : Json
  value : Json

/-- Validate one part of a request; without a schema nothing happens. -/
def checkSlot (r : Repository) (operation : String) (d : RequestData) (slot : RequestSlot) :
    SlotCheck :=
  let v := d.slot slot
  match r.request? slot operation with
  | none => ⟨slot, Verdict.notValidated, v, v⟩
  | some s =>
    let w := r.engine.validate s v
    ⟨slot, w.verdict, v, w.value⟩

/-- The exception of a part that failed. -/
def SlotCheck.exception? (operation : String) (c : SlotCheck) : Option Exception :=
  if c.verdict.success then none
  else some ⟨.request, operation, some c.slot, c.verdict.errors, c.given⟩

/-- Validate all parts of a request. The data afterwards do not depend on the handler. -/
def before (r : Repository) (handler : Handler) (operation : String) (d : RequestData) :
    Step RequestReport × RequestData :=
  let checks := RequestSlot.all.map (checkSlot r operation d)
  let exceptions := checks.filterMap (SlotCheck.exception? operation)
  let data := checks.foldl (fun d c => d.withSlot c.slot c.value) d
  let report := checks.map (fun c => (c.slot, c.verdict))
  match handAll handler exceptions with
  | some rejection => (⟨.error rejection, exceptions⟩, data)
  | none => (⟨.ok report, exceptions⟩, data)

/-- Hand one exception of the response phase over and go on if it is let through. -/
def raise {α : Type} (handler : Handler) (operation : String) (errors : List FieldError)
    (given : Json) (go : α) : Step α :=
  let e : Exception := ⟨.response, operation, none, errors, given⟩
  match handler e with
  | some rejection => ⟨.error rejection, [e]⟩
  | none => ⟨.ok go, [e]⟩

/-- Validate or render the response body of a route handler. A body that cannot be rendered is
normalized instead, if the handler lets it through. -/
def after (r : Repository) (handler : Handler) (operation : String) (status : Nat) (body : Json) :
    Step ResponseOutcome :=
  match r.response? status operation with
  | none => ⟨.ok (.passthrough body), []⟩
  | some (.validator s) =>
    let w := r.engine.validate s body
    if w.verdict.success then ⟨.ok (.validated w.value), []⟩
    else raise handler operation w.verdict.errors body (.validated w.value)
  | some (.stringifier s) =>
    match r.engine.stringify s body with
    | .ok text => ⟨.ok (.serialized text), []⟩
    | .error e =>
      raise handler operation [FieldError.ofMessage e.message] body
        (.validated (r.engine.validate s body).value)

/-- Report a response body that a schema covers but that cannot be read. -/
def unreadable (handler : Handler) (operation : String) (reason : String) (given : Json) :
    Step Unit :=
  raise handler operation [FieldError.ofMessage reason] given ()

end Gate

end HttpContract
