import HttpContract.Binary64.Decimal
import HttpContract.Service.Exchange
import HttpContract.Text.Visible

/-!
# Extraction of validated parts

A route handler takes a part of the validated request as a document, or as integers under names. A
part that is not of that shape makes a bad request, and without a validated request the service is
at fault.
-/

namespace HttpContract

/-- A document is not of the shape that is asked for. -/
inductive ExtractionError where
  /-- The document is not of the expected kind. -/
  | kind (found : Json) (expected : String)
  /-- An integer is out of range. -/
  | range (found : Json.Integer)
deriving DecidableEq

namespace ExtractionError

/-- A document as it is named in a message. -/
def found : Json → String
  | .null => "null"
  | .bool b => "boolean \x60" ++ toString b ++ "\x60"
  | .num (.int n) => "integer \x60" ++ toString n.val ++ "\x60"
  | .num (.float x) => "floating point \x60" ++ Binary64.textIn Binary64.pointedLayout x ++ "\x60"
  | .str s => "string " ++ Visible.quote s
  | .arr _ => "sequence"
  | .obj _ => "map"

/-- The wording of the error. -/
def message : ExtractionError → String
  | kind v expected => "invalid type: " ++ found v ++ ", expected " ++ expected
  | range n => "invalid value: " ++ found (.num (.int n)) ++ ", expected i64"

end ExtractionError

namespace Extraction

/-- A signed integer of 64 bits. -/
def integer (v : Json) : Except ExtractionError Int :=
  match v with
  | .num (.int n) => if n.val < 0x8000000000000000 then .ok n.val else .error (.range n)
  | other => .error (.kind other "i64")

/-- Integers under names. -/
def integers (v : Json) : Except ExtractionError (Fields Int) :=
  match v with
  | .obj members => members.mapM (fun (k, x) => (integer x).map (fun n => (k, n)))
  | other => .error (.kind other "a map")

/-- The name of a part in messages. -/
def partName : RequestSlot → String
  | .parameters => "path parameters"
  | slot => slot.name

/-- The validated request, if there is one. -/
def request (v : Option ValidatedRequest) : Except ServiceError ValidatedRequest :=
  match v with
  | some v => .ok v
  | none => .error (.internal "validation middleware did not run for this route")

/-- A part of the validated request in the shape that `read` asks for. -/
def part {α : Type} (read : Json → Except ExtractionError α) (slot : RequestSlot)
    (v : Option ValidatedRequest) : Except ServiceError α := do
  let validated ← request v
  match read (validated.data.slot slot) with
  | .ok x => return x
  | .error e => throw (.badRequest s!"invalid {partName slot}: {e.message}")

end Extraction

end HttpContract
