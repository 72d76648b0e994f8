import HttpContract.Evaluation.Evaluator

/-!
# The schema of schemas

The schema that every schema of the specification in force satisfies, as the specification gives it:
one document that joins seven vocabularies.
-/

namespace HttpContract.Metaschema

/-- An object with the given members. -/
def object (members : List (String × Json)) : Json := .ofMembers members

/-- A reference. -/
def ref (target : String) : Json := object [("$ref", .str target)]

/-- A schema, judged by the outermost schema of schemas. -/
def schema : Json := object [("$dynamicRef", .str "#meta")]

/-- A demand for a type. -/
def typed (name : String) : Json := object [("type", .str name)]

/-- An object whose members satisfy a schema. -/
def mapOf (s : Json) : Json := object [("type", .str "object"), ("additionalProperties", s)]

/-- The identifier of a vocabulary. -/
def vocabularyUri (name : String) : String := "https://json-schema.org/draft/2020-12/meta/" ++ name

/-- A vocabulary: its keywords and the schemas shared by them. -/
def vocabulary (name : String) (keywords shared : List (String × Json)) : Resource :=
  { uri := vocabularyUri name
    contents := object <|
      [("$id", .str (vocabularyUri name)), ("$schema", .str Library.specification),
        ("$dynamicAnchor", .str "meta"), ("type", .arr [.str "object", .str "boolean"]),
        ("properties", object keywords)]
        ++ (if shared.isEmpty then [] else [("$defs", object shared)]) }

/-- Identifiers, references and definitions. -/
def core : Resource :=
  vocabulary "core"
    [("$id", object [("$ref", .str "#/$defs/uriReferenceString"), ("pattern", .str "^[^#]*#?$")]),
      ("$schema", ref "#/$defs/uriString"), ("$ref", ref "#/$defs/uriReferenceString"),
      ("$anchor", ref "#/$defs/anchorString"), ("$dynamicRef", ref "#/$defs/uriReferenceString"),
      ("$dynamicAnchor", ref "#/$defs/anchorString"),
      ("$vocabulary",
        object [("type", .str "object"), ("propertyNames", ref "#/$defs/uriString"),
          ("additionalProperties", typed "boolean")]),
      ("$comment", typed "string"), ("$defs", mapOf schema)]
    [("anchorString",
        object [("type", .str "string"), ("pattern", .str "^[A-Za-z_][-A-Za-z0-9._]*$")]),
      ("uriString", typed "string"), ("uriReferenceString", typed "string")]

/-- Schemas within schemas. -/
def applicator : Resource :=
  vocabulary "applicator"
    [("prefixItems", ref "#/$defs/schemaArray"), ("items", schema), ("contains", schema),
      ("additionalProperties", schema), ("properties", mapOf schema),
      ("patternProperties", mapOf schema), ("dependentSchemas", mapOf schema),
      ("propertyNames", schema), ("if", schema), ("then", schema), ("else", schema),
      ("allOf", ref "#/$defs/schemaArray"), ("anyOf", ref "#/$defs/schemaArray"),
      ("oneOf", ref "#/$defs/schemaArray"), ("not", schema)]
    [("schemaArray",
        object [("type", .str "array"), ("minItems", Json.ofNat 1), ("items", schema)])]

/-- Schemas for what others have not looked at. -/
def unevaluated : Resource :=
  vocabulary "unevaluated" [("unevaluatedItems", schema), ("unevaluatedProperties", schema)] []

/-- The name of a type, or a list of such names. -/
def typeNames : Json :=
  object [("anyOf", .arr [ref "#/$defs/simpleTypes",
    object [("type", .str "array"), ("items", ref "#/$defs/simpleTypes"),
      ("minItems", Json.ofNat 1), ("uniqueItems", .bool true)]])]

/-- Assertions. -/
def validation : Resource :=
  vocabulary "validation"
    [("type", typeNames), ("const", .bool true),
      ("enum", object [("type", .str "array"), ("items", .bool true)]),
      ("multipleOf", object [("type", .str "number"), ("exclusiveMinimum", Json.ofNat 0)]),
      ("maximum", typed "number"), ("exclusiveMaximum", typed "number"),
      ("minimum", typed "number"), ("exclusiveMinimum", typed "number"),
      ("maxLength", ref "#/$defs/nonNegativeInteger"),
      ("minLength", ref "#/$defs/nonNegativeInteger"), ("pattern", typed "string"),
      ("maxItems", ref "#/$defs/nonNegativeInteger"),
      ("minItems", ref "#/$defs/nonNegativeInteger"), ("uniqueItems", typed "boolean"),
      ("maxContains", ref "#/$defs/nonNegativeInteger"),
      ("minContains", ref "#/$defs/nonNegativeInteger"),
      ("maxProperties", ref "#/$defs/nonNegativeInteger"),
      ("minProperties", ref "#/$defs/nonNegativeInteger"), ("required", ref "#/$defs/stringArray"),
      ("dependentRequired", mapOf (ref "#/$defs/stringArray"))]
    [("nonNegativeInteger", object [("type", .str "integer"), ("minimum", Json.ofNat 0)]),
      ("simpleTypes",
        object [("enum", .arr (["array", "boolean", "integer", "null", "number", "object",
          "string"].map .str))]),
      ("stringArray",
        object [("type", .str "array"), ("items", typed "string"), ("uniqueItems", .bool true)])]

/-- Descriptions. -/
def metaData : Resource :=
  vocabulary "meta-data"
    [("title", typed "string"), ("description", typed "string"), ("default", .bool true),
      ("deprecated", typed "boolean"), ("readOnly", typed "boolean"),
      ("writeOnly", typed "boolean"),
      ("examples", object [("type", .str "array"), ("items", .bool true)])]
    []

/-- Names of formats. -/
def formatAnnotation : Resource := vocabulary "format-annotation" [("format", typed "string")] []

/-- Contents of texts. -/
def content : Resource :=
  vocabulary "content"
    [("contentEncoding", typed "string"), ("contentMediaType", typed "string"),
      ("contentSchema", schema)]
    []

/-- The vocabularies in the order in which they are checked. -/
def vocabularies : List Resource :=
  [core, applicator, unevaluated, validation, metaData, formatAnnotation, content]

/-- The document that joins the vocabularies. -/
def joined : Resource :=
  { uri := Library.specification
    contents := object
      [("$id", .str Library.specification), ("$schema", .str Library.specification),
        ("$dynamicAnchor", .str "meta"), ("allOf", .arr (vocabularies.map (fun v => ref v.uri))),
        ("type", .arr [.str "object", .str "boolean"]),
        ("properties",
          object [("definitions", mapOf schema),
            ("dependencies",
              mapOf (object [("anyOf",
                .arr [schema, ref (vocabularyUri "validation" ++ "#/$defs/stringArray")])])),
            ("$recursiveAnchor", ref (vocabularyUri "core" ++ "#/$defs/anchorString")),
            ("$recursiveRef", ref (vocabularyUri "core" ++ "#/$defs/uriReferenceString"))])] }

/-- The documents that make up the schema of schemas. -/
def documents : List Resource := joined :: vocabularies

/-- The library of these documents. Each declares one anchor, under which they stand in for each
other. -/
def library : Library :=
  ⟨documents, documents.map (fun r => ⟨r.uri, "meta", true, r.contents⟩)⟩

/-- The evaluator of schemas. -/
def evaluator : Evaluator := ⟨library, Library.specification, joined.contents⟩

end HttpContract.Metaschema
