import HttpContract.Report
import HttpContract.Schema.Fragment

/-!
# The schemas declared for an operation

An operation declares at most one fragment for each part of its request and, under status keys,
fragments for its response bodies. `OperationSchemas.ofJson` reads a declaration and names what is
wrong with it; `OperationSchemas.decode?` is the stricter reading of what `toJson` writes, which
also takes a list of the five parts in order.
-/

namespace HttpContract

/-- Declared schemas of one operation. -/
structure OperationSchemas where
  parameters : Option Fragment
  query : Option Fragment
  headers : Option Fragment
  body : Option Fragment
  /-- Response body schemas under status keys; a key may stand without a schema. -/
  responses : Fields (Option Fragment)
deriving DecidableEq

/-- What is wrong with a declaration. -/
inductive DeclarationError where
  /-- The table of operations is no object. -/
  | table (found : String)
  /-- The declaration of an operation is no object. -/
  | operation (operation : String) (found : String)
  /-- A slot holds something that is no schema. -/
  | schema (operation slot : String) (reason : FragmentError)
  /-- The responses are no object. -/
  | responses (operation : String) (found : String)
deriving DecidableEq, Repr

/-- The wording of a faulty declaration. -/
def DeclarationError.message : DeclarationError → String
  | .table found => s!"fail loading schemas: schema table must be an object, found {found}"
  | .operation op found =>
    s!"fail loading schemas: operation {op} must map to an object, found {found}"
  | .schema op slot reason =>
    s!"fail loading schemas: operation {op} has an invalid {slot} schema: {reason.message}"
  | .responses op found =>
    s!"fail loading schemas: operation {op} has invalid responses: "
      ++ s!"expected an object, found {found}"

namespace OperationSchemas

/-- Nothing declared. -/
def empty : OperationSchemas := ⟨none, none, none, none, []⟩

instance : Inhabited OperationSchemas := ⟨empty⟩

/-- The fragment declared for a slot. -/
def slot (s : OperationSchemas) : RequestSlot → Option Fragment
  | .parameters => s.parameters
  | .query => s.query
  | .headers => s.headers
  | .body => s.body

/-- Declare a fragment for a slot, or none. -/
def withSlot (s : OperationSchemas) (slot : RequestSlot) (f : Option Fragment) : OperationSchemas :=
  match slot with
  | .parameters => { s with parameters := f }
  | .query => { s with query := f }
  | .headers => { s with headers := f }
  | .body => { s with body := f }

/-! ## Reading -/

/-- The fragment at a place that may be empty: a missing value and null are none. -/
def optionalFragment (operation slot : String) :
    Option Json → Except DeclarationError (Option Fragment)
  | none => .ok none
  | some .null => .ok none
  | some v =>
    match Fragment.ofJson v with
    | .ok f => .ok (some f)
    | .error e => .error (.schema operation slot e)

/-- The fragments of an object of responses, in key order. -/
def responsesOf (operation : String) :
    Fields Json → Except DeclarationError (Fields (Option Fragment))
  | [] => .ok []
  | (status, v) :: rest => do
    let f ← optionalFragment operation ("responses/" ++ status) (some v)
    let others ← responsesOf operation rest
    return (status, f) :: others

/-- Read the declaration of an operation. Null declares nothing. -/
def ofJson (operation : String) (v : Json) : Except DeclarationError OperationSchemas :=
  match v with
  | .null => .ok empty
  | .obj members => do
    let at? := fun (s : RequestSlot) =>
      optionalFragment operation s.name (Fields.get? members s.name)
    let parameters ← at? .parameters
    let query ← at? .query
    let headers ← at? .headers
    let body ← at? .body
    let responses ← match Fields.get? members "responses" with
      | none => .ok []
      | some .null => .ok []
      | some (.obj entries) => responsesOf operation entries
      | some other => .error (.responses operation other.kindName)
    return ⟨parameters, query, headers, body, responses⟩
  | other => .error (.operation operation other.kindName)

/-- The fragment of an optional place, or failure. -/
def decodeFragment? : Json → Option (Option Fragment)
  | .null => some none
  | v => ((Fragment.ofJson v).toOption).map some

/-- The fragments under status keys, or failure. -/
def decodeResponses? : Fields Json → Option (Fields (Option Fragment))
  | [] => some []
  | (status, v) :: rest => do
    let f ← decodeFragment? v
    let others ← decodeResponses? rest
    return (status, f) :: others

/-- Read an encoded declaration from its five places; a missing place is empty. -/
def decodePlaces? (places : Nat → Option Json) : Option OperationSchemas := do
  let at? := fun (i : Nat) => match places i with
    | none => some none
    | some v => decodeFragment? v
  let parameters ← at? 0
  let query ← at? 1
  let headers ← at? 2
  let body ← at? 3
  let responses ← match places 4 with
    | none => some []
    | some (.obj entries) => decodeResponses? entries
    | some _ => none
  return ⟨parameters, query, headers, body, responses⟩

/-- The names of the places. -/
def placeNames : List String := ["parameters", "query", "headers", "body", "responses"]

/-- Read an encoded declaration: an object, in which other members are ignored, or a list of at most
five places. -/
def decode? : Json → Option OperationSchemas
  | .obj members => decodePlaces? (fun i => (placeNames[i]?).bind (Fields.get? members))
  | .arr items =>
    if items.length ≤ placeNames.length then decodePlaces? (fun i => items[i]?) else none
  | _ => none

/-! ## Writing -/

/-- The document of a place. -/
def place (name : String) : Option Fragment → List (String × Json)
  | none => []
  | some f => [(name, f.document)]

/-- The document of a response. -/
def responseDocument : Option Fragment → Json
  | none => .null
  | some f => f.document

/-- Write a declaration; empty places are left out. -/
def toJson (s : OperationSchemas) : Json :=
  .ofMembers <|
    place "parameters" s.parameters ++ place "query" s.query ++ place "headers" s.headers
      ++ place "body" s.body
      ++ (if s.responses.isEmpty then []
          else [("responses", .obj (Fields.mapValues responseDocument s.responses))])

end OperationSchemas

end HttpContract
