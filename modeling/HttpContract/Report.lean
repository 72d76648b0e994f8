import HttpContract.Json

/-!
# Outcomes of validation

A check has one of three outcomes, which are kept apart: there was no schema, so nothing was
checked; there was one and the data satisfied it; there was one and the data violated it.
-/

namespace HttpContract

/-- The parts of a request that can be checked. -/
inductive RequestSlot where
  | parameters
  | query
  | headers
  | body
deriving DecidableEq, Repr

namespace RequestSlot

/-- All slots in the order in which they are checked. -/
def all : List RequestSlot := [.parameters, .query, .headers, .body]

/-- The name of a slot in tables and messages. -/
def name : RequestSlot → String
  | .parameters => "parameters"
  | .query => "query"
  | .headers => "headers"
  | .body => "body"

theorem mem_all (s : RequestSlot) : s ∈ all := by cases s <;> simp [all]

end RequestSlot

/-- One violation: what is wrong, where in the data, and by which keyword of the schema. Both places
are pointers, empty at the root. -/
structure FieldError where
  message : String
  instancePath : String
  schemaPath : String
deriving DecidableEq, Repr

namespace FieldError

/-- A violation with no place. -/
def ofMessage (message : String) : FieldError := ⟨message, "", ""⟩

/-- The violation as one line. -/
def display (e : FieldError) : String :=
  (if e.instancePath = "" then "(root)" else e.instancePath) ++ ": " ++ e.message

/-- The violation in a summary. -/
def summary (e : FieldError) : String :=
  if e.instancePath = "" then e.message else e.instancePath ++ " " ++ e.message

/-- The violation as a document; empty places are left out. -/
def toJson (e : FieldError) : Json :=
  .ofMembers <|
    [("message", .str e.message)]
      ++ (if e.instancePath = "" then [] else [("instance_path", .str e.instancePath)])
      ++ (if e.schemaPath = "" then [] else [("schema_path", .str e.schemaPath)])

end FieldError

/-- All violations in one line. -/
def errorsText (errors : List FieldError) : String :=
  if errors.isEmpty then "No errors" else ", ".intercalate (errors.map FieldError.summary)

/-- The outcome of one check. -/
structure Verdict where
  /-- False only if there was a schema and the data violated it. -/
  success : Bool
  /-- False only if there was no schema. -/
  validated : Bool
  errors : List FieldError
deriving DecidableEq, Repr

namespace Verdict

/-- There was no schema. -/
def notValidated : Verdict := ⟨true, false, []⟩

/-- The data satisfied the schema. -/
def passed : Verdict := ⟨true, true, []⟩

/-- The data violated the schema. -/
def failed (errors : List FieldError) : Verdict := ⟨false, true, errors⟩

/-- The outcome of a check that found the given violations. -/
def ofErrors (errors : List FieldError) : Verdict :=
  if errors.isEmpty then passed else failed errors

/-- The violations in one line. -/
def text (v : Verdict) : String := errorsText v.errors

/-- The outcome as a document. -/
def toJson (v : Verdict) : Json :=
  .ofMembers
    [("success", .bool v.success), ("validated", .bool v.validated),
      ("errors", .arr (v.errors.map FieldError.toJson))]

@[simp] theorem ofErrors_success (errors : List FieldError) :
    (ofErrors errors).success = errors.isEmpty := by
  unfold ofErrors
  split <;> simp_all [passed, failed]

@[simp] theorem ofErrors_errors (errors : List FieldError) : (ofErrors errors).errors = errors := by
  unfold ofErrors
  split <;> simp_all [passed, failed]

end Verdict

end HttpContract
