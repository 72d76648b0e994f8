import HttpContract.Schema.CompileError
import HttpContract.Json.Pointer

/-!
# The strict check of keywords

In strict mode a schema may use known keywords only, at every depth: `Keywords.check` looks into all
schemas inside a schema, also into those that markers carry.
-/

namespace HttpContract.Keywords

/-- The keywords of the specification in force, spellings of earlier ones that are still in use, and
the member of markers. -/
def known : List String :=
  ["$schema", "$id", "$ref", "$anchor", "$dynamicRef", "$dynamicAnchor", "$defs", "$comment",
    "$vocabulary", "definitions", "type", "enum", "const", "multipleOf", "maximum",
    "exclusiveMaximum", "minimum", "exclusiveMinimum", "maxLength", "minLength", "pattern",
    "maxItems", "minItems", "uniqueItems", "maxContains", "minContains", "maxProperties",
    "minProperties", "required", "dependentRequired", "dependencies", "properties",
    "patternProperties", "additionalProperties", "propertyNames", "unevaluatedProperties",
    "items", "prefixItems", "additionalItems", "contains", "unevaluatedItems", "allOf", "anyOf",
    "oneOf", "not", "if", "then", "else", "dependentSchemas", "format", "contentEncoding",
    "contentMediaType", "contentSchema", "title", "description", "default", "deprecated",
    "readOnly", "writeOnly", "examples", "nullable", Marker.key]

/-- What a keyword holds. -/
inductive Content where
  | schemaMap
  | schemaList
  | schema
  /-- A schema or a list of schemas. -/
  | schemaOrList
  | other
deriving DecidableEq

/-- What the value of a keyword holds. -/
def contentOf (keyword : String) : Content :=
  if ["properties", "patternProperties", "$defs", "definitions",
    "dependentSchemas"].contains keyword then .schemaMap
  else if ["allOf", "anyOf", "oneOf", "prefixItems"].contains keyword then .schemaList
  else if keyword = "items" then .schemaOrList
  else if ["additionalProperties", "propertyNames", "unevaluatedProperties", "additionalItems",
    "contains", "unevaluatedItems", "not", "if", "then", "else", "contentSchema"].contains keyword
  then .schema
  else .other

mutual

/-- Reject the first unknown keyword of a schema at a place. -/
def check : Json → String → Except CompileError Unit
  | .obj members, path =>
    match Marker.ofMembers? members with
    | some (.ok (.inline _)) => checkTarget members path
    | _ => checkKeywords members path
  | _, _ => .ok ()
termination_by structural schema => schema

/-- Check the schema that a marker carries. -/
def checkTarget : List (String × Json) → String → Except CompileError Unit
  | [], _ => .ok ()
  | (_, inner) :: _, path => check inner (Json.Pointer.child path Marker.key)
termination_by structural members => members

/-- Check the keywords of a schema in their order. -/
def checkKeywords : List (String × Json) → String → Except CompileError Unit
  | [], _ => .ok ()
  | (keyword, value) :: rest, path =>
    if known.contains keyword then do
      checkValue (contentOf keyword) value (Json.Pointer.child path keyword)
      checkKeywords rest path
    else .error (.unknownKeyword keyword path)
termination_by structural members => members

/-- Check the schemas in the value of a keyword. -/
def checkValue : Content → Json → String → Except CompileError Unit
  | .schemaMap, .obj members, path => checkMembers members path
  | .schemaList, .arr items, path => checkItems items path 0
  | .schemaOrList, .arr items, path => checkItems items path 0
  | .schemaOrList, .obj members, path =>
    match Marker.ofMembers? members with
    | some (.ok (.inline _)) => checkTarget members path
    | _ => checkKeywords members path
  | .schema, .obj members, path =>
    match Marker.ofMembers? members with
    | some (.ok (.inline _)) => checkTarget members path
    | _ => checkKeywords members path
  | _, _, _ => .ok ()
termination_by structural _ value => value

/-- Check the schemas of an object. -/
def checkMembers : List (String × Json) → String → Except CompileError Unit
  | [], _ => .ok ()
  | (name, schema) :: rest, path => do
    check schema (Json.Pointer.child path name)
    checkMembers rest path
termination_by structural members => members

/-- Check the schemas of a list. -/
def checkItems : List Json → String → Nat → Except CompileError Unit
  | [], _, _ => .ok ()
  | schema :: rest, path, i => do
    check schema (Json.Pointer.childIndex path i)
    checkItems rest path (i + 1)
termination_by structural items => items

end

end HttpContract.Keywords
