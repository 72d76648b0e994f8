import HttpContract.Json.Pointer
import HttpContract.Schema.CompileError

/-!
# Schemas of API descriptions

The schemas of an API description refer to component schemas by pointers into the description, and
know keywords of their own. `rewrite` makes fragments of them: a reference becomes the marker of the
component's handle, a nullable schema admits null by its types, an example becomes a list of
examples, and keywords without a meaning for validation are dropped.
-/

namespace HttpContract.OpenApi

/-- What is wrong with a part of a description. -/
inductive Fault where
  /-- A reference to something that cannot be referred to from its place. -/
  | unsupportedReference (reference : String)
  /-- A reference that leads nowhere. -/
  | unresolvedReference (reference : String)
  /-- References that lead to references, too many times. -/
  | deepReference (limit : Nat)
  | referenceNotText
  | unknownComponent (name : String)
  | notSchema (e : FragmentError)
  | definition (e : CompileError)
  | responsesNotObject
  | parametersNotList
  | unnamedParameter
  | unplacedParameter (name : String)
  | unknownPlace (name place : String)

/-- The wording of a fault. -/
def Fault.message : Fault → String
  | unsupportedReference reference => s!"unsupported $ref '{reference}'"
  | unresolvedReference reference => s!"unresolved $ref '{reference}'"
  | deepReference limit => s!"$ref chain deeper than {limit}"
  | referenceNotText => "$ref must be a string"
  | unknownComponent name => s!"unknown component schema '{name}'"
  | notSchema e => e.message
  | definition e => e.message
  | responsesNotObject => "responses must be an object"
  | parametersNotList => "parameters must be an array"
  | unnamedParameter => "parameter without a name"
  | unplacedParameter name => s!"parameter {name} without a location"
  | unknownPlace name place => s!"parameter {name} has unknown location '{place}'"

/-- The handles of the component schemas, under their names. -/
abbrev Components := Fields Nat

/-- Where component schemas are found in a description. -/
def schemasPointer : String := "#/components/schemas/"

/-- Keywords whose value is data. -/
def dataKeywords : List String := ["default", "enum", "const", "examples", "required"]

/-- Keywords whose value holds schemas under names. -/
def mapKeywords : List String :=
  ["properties", "patternProperties", "$defs", "definitions", "dependentSchemas"]

/-- Keywords that are left out. -/
def droppedKeywords : List String := ["discriminator", "xml", "externalDocs", "nullable"]

/-- What follows `start` at the beginning of a text. -/
def stripStart? (start text : String) : Option String :=
  if text.startsWith start then some (String.ofList (text.toList.drop start.length)) else none

/-- The name of the component schema that a reference means. -/
def componentName? (reference : String) : Option String :=
  (stripStart? schemasPointer reference).map
    (fun token => String.ofList (Json.Pointer.unescape token.toList))

/-- The marker that a reference to a component schema becomes. -/
def marker (components : Components) (reference : Json) : Except Fault Json :=
  match reference with
  | .str r =>
    match componentName? r with
    | none => .error (.unsupportedReference r)
    | some name =>
      match Fields.get? components name with
      | some handle => .ok (Marker.deferred handle).toJson
      | none => .error (.unknownComponent name)
  | _ => .error .referenceNotText

/-- The types of a nullable schema. -/
def withNull : Json → Json
  | .str t => .arr [.str t, .str "null"]
  | .arr ts => if ts.contains (.str "null") then .arr ts else .arr (ts ++ [.str "null"])
  | other => other

/-- Add null to the types of a schema that declares types. -/
def widen (members : Fields Json) : Fields Json :=
  match Fields.get? members "type" with
  | some types => Fields.insert members "type" (withNull types)
  | none => members

mutual

/-- Rewrite a schema. -/
def rewrite (components : Components) : Json → Except Fault Json
  | .obj members =>
    match Fields.get? members "$ref" with
    | some reference => marker components reference
    | none => do
      let entries ← rewriteMembers components (Fields.contains members "examples") members
      let rewritten := Fields.ofList entries
      return .obj (if Fields.get? members "nullable" = some (.bool true) then widen rewritten
        else rewritten)
  | v => .ok v
termination_by structural v => v

/-- Rewrite the members of a schema, which may have examples already. -/
def rewriteMembers (components : Components) (exemplified : Bool) :
    List (String × Json) → Except Fault (List (String × Json))
  | [] => .ok []
  | (k, v) :: rest => do
    if droppedKeywords.contains k then rewriteMembers components exemplified rest
    else if k = "example" then
      let others ← rewriteMembers components exemplified rest
      return (if exemplified then others else ("examples", .arr [v]) :: others)
    else
      let value ←
        if dataKeywords.contains k then .ok v
        else if mapKeywords.contains k then
          match v with
          | .obj schemas => (rewriteNamed components schemas).map .obj
          | other => .ok other
        else
          match v with
          | .arr items => (rewriteItems components items).map .arr
          | other => rewrite components other
      let others ← rewriteMembers components exemplified rest
      return (k, value) :: others
termination_by structural v => v

/-- Rewrite schemas under names. -/
def rewriteNamed (components : Components) :
    List (String × Json) → Except Fault (List (String × Json))
  | [] => .ok []
  | (name, v) :: rest => do
    let schema ← rewrite components v
    let others ← rewriteNamed components rest
    return (name, schema) :: others
termination_by structural v => v

/-- Rewrite the schemas of a list. -/
def rewriteItems (components : Components) : List Json → Except Fault (List Json)
  | [] => .ok []
  | v :: rest => do
    let schema ← rewrite components v
    let others ← rewriteItems components rest
    return schema :: others
termination_by structural v => v

end

/-- The fragment of a schema of the description. -/
def fragment (components : Components) (schema : Json) : Except Fault Fragment := do
  match Fragment.ofJson (← rewrite components schema) with
  | .ok f => return f
  | .error e => throw (.notSchema e)

end HttpContract.OpenApi
