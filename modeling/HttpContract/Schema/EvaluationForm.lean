import HttpContract.Schema.Registry
import HttpContract.Json.Pointer

/-!
# Schemas in the form that evaluators read

Evaluators know references by identifier, not markers. `EvaluationForm.rewrite` replaces a marker
for a handle by a reference to the document of that handle and a marker that carries a schema by the
schema. Data in a schema is left alone.
-/

namespace HttpContract.EvaluationForm

/-- Keywords whose values are data and never schemas. -/
def dataKeywords : List String := ["default", "const", "enum", "examples"]

/-- Keywords whose schemas apply to the same place of the value. -/
def inPlaceKeywords : List String := ["allOf", "anyOf", "oneOf", "not", "if", "then", "else"]

/-- The identifier of the document of a handle. -/
def resourceUri (handle : Nat) : String := "urn:routeguard:schema:" ++ toString handle

/-- A reference to the document of a handle. -/
def reference (handle : Nat) : Json := .obj [("$ref", .str (resourceUri handle))]

/-- Reject a handle that has no schema. -/
def requireDefined (defined : List Bool) (handle : Nat) (path : String) :
    Except CompileError Unit :=
  if defined[handle]?.getD false then .ok () else .error (.undefinedReference handle path)

/-- Reject a place with a malformed marker. -/
def malformed {α : Type} (path : String) (e : MarkerError) : Except CompileError α :=
  .error (.invalidSchema path (.marker e))

variable (defined : List Bool)

mutual

/-- Replace the markers in a document. The second component lists the handles that are referred to
at the same place of the value, which is known to hold while `inPlace` does. -/
def rewrite : Json → (path : String) → (inPlace : Bool) → Except CompileError (Json × List Nat)
  | .obj members, path, inPlace =>
    match Marker.ofMembers? members with
    | some (.error e) => malformed path e
    | some (.ok (.deferred handle)) => do
      requireDefined defined handle path
      return (reference handle, if inPlace then [handle] else [])
    | some (.ok (.inline _)) => rewriteTarget members path inPlace
    | none => do
      let (rewritten, applied) ← rewriteMembers members path inPlace
      return (.obj rewritten, applied)
  | .arr items, path, inPlace => do
    let (rewritten, applied) ← rewriteItems items path 0 inPlace
    return (.arr rewritten, applied)
  | other, _, _ => return (other, [])
termination_by structural v => v

/-- Replace the markers in the schema that a marker carries. -/
def rewriteTarget : List (String × Json) → (path : String) → (inPlace : Bool) →
    Except CompileError (Json × List Nat)
  | [], _, _ => return (.null, [])
  | (_, inner) :: _, path, inPlace => rewrite inner (Json.Pointer.child path Marker.key) inPlace
termination_by structural members => members

/-- Replace the markers in the values of members. -/
def rewriteMembers : List (String × Json) → (path : String) → (inPlace : Bool) →
    Except CompileError (List (String × Json) × List Nat)
  | [], _, _ => return ([], [])
  | (key, value) :: rest, path, inPlace => do
    if dataKeywords.contains key then
      let (others, applied) ← rewriteMembers rest path inPlace
      return ((key, value) :: others, applied)
    else
      let stays := inPlace && inPlaceKeywords.contains key
      let (rewritten, here) ← rewrite value (Json.Pointer.child path key) stays
      let (others, applied) ← rewriteMembers rest path inPlace
      return ((key, rewritten) :: others, here ++ applied)
termination_by structural members => members

/-- Replace the markers in items. -/
def rewriteItems : List Json → (path : String) → (index : Nat) → (inPlace : Bool) →
    Except CompileError (List Json × List Nat)
  | [], _, _, _ => return ([], [])
  | item :: rest, path, i, inPlace => do
    let (rewritten, here) ← rewrite item (Json.Pointer.childIndex path i) inPlace
    let (others, applied) ← rewriteItems rest path (i + 1) inPlace
    return (rewritten :: others, here ++ applied)
termination_by structural items => items

end

end HttpContract.EvaluationForm
