import HttpContract.Evaluation.Metaschema
import HttpContract.Schema.Fragment

/-!
# Building evaluators

A schema is accepted if its references to other documents can be followed, if it satisfies the
schema of schemas, and if every schema that evaluation can reach from it has well-formed patterns
and references that lead somewhere. The first fault found, in this order, is reported.
-/

namespace HttpContract

/-- Why a schema is not accepted. -/
inductive SchemaFault where
  /-- It violates the schema of schemas. -/
  | violates (v : Violation)
  /-- A pattern is malformed. -/
  | badPattern (source : String)
  /-- A reference leads nowhere. -/
  | reference (e : ReferenceError)

/-- The wording of a fault. -/
def SchemaFault.message : SchemaFault → String
  | violates v => v.message
  | badPattern source => (Violation.format (.str source) "regex").message
  | reference e => e.message

namespace Evaluation

/-- The schemas and patterns that a keyword hands to evaluation. -/
structure Reached where
  patterns : List String
  references : List String
  schemas : List Json

/-- What evaluation reaches from a keyword of a schema. -/
def reachedFrom (members : Fields Json) (k : String) (arg : Json) : Reached :=
  let schemas := fun (ss : List Json) => (⟨[], [], ss⟩ : Reached)
  let values := fun (v : Json) => Fields.values ((v.members?).getD [])
  match k with
  | "$ref" => ⟨[], arg.text?.toList, []⟩
  | "$dynamicRef" => ⟨[], arg.text?.toList, []⟩
  | "pattern" => ⟨arg.text?.toList, [], []⟩
  | "patternProperties" => ⟨Fields.keys ((arg.members?).getD []), [], values arg⟩
  | "additionalProperties" => schemas [arg]
  | "allOf" => schemas ((arg.items?).getD [])
  | "anyOf" => schemas ((arg.items?).getD [])
  | "oneOf" => schemas ((arg.items?).getD [])
  | "prefixItems" => schemas ((arg.items?).getD [])
  | "contains" => schemas [arg]
  | "items" => schemas [arg]
  | "not" => schemas [arg]
  | "propertyNames" => schemas [arg]
  | "unevaluatedItems" => schemas [arg]
  | "unevaluatedProperties" => schemas [arg]
  | "dependencies" => schemas ((values arg).filter Json.isSchema)
  | "dependentSchemas" => schemas (values arg)
  | "properties" => schemas (values arg)
  | "if" =>
    let next := ["then", "else"].filterMap (Fields.get? members)
    schemas (if next.isEmpty then [] else arg :: next)
  | _ => ⟨[], [], []⟩

/-- Keywords whose value lists schemas, or lists of names, under names. -/
def namedKeywords : List String :=
  ["dependencies", "dependentRequired", "dependentSchemas", "patternProperties", "properties"]

/-- What is wrong with the value of a keyword by itself. -/
def misshapen? (k : String) (arg : Json) : Option Violation :=
  match arg with
  | .obj _ => none
  | _ => if namedKeywords.contains k then some (.type arg ["object"]) else none

/-- The references already followed, as documents with fragments. -/
abbrev Followed := List (String × String)

/-- Check everything that evaluation can reach from a schema. References already followed are not
followed again; `fuel` bounds the steps from schema to schema. -/
def verify (l : Library) : (fuel : Nat) → Library.Scope → Followed → Json →
    Except SchemaFault Followed
  | 0, _, followed, _ => .ok followed
  | fuel + 1, scope, followed, schema => do
    if !schema.isSchema then throw (.violates (.type schema ["boolean", "object"]))
    let scope := scope.within schema
    ((schema.members?).getD []).foldlM
      (fun followed (k, arg) => do
        if !scope.known && !universal.contains k then return followed
        if let some v := misshapen? k arg then throw (.violates v)
        let reached := reachedFrom ((schema.members?).getD []) k arg
        match reached.patterns.find? (fun source => (Pattern.compile? source).isNone) with
        | some source => throw (.badPattern source)
        | none =>
          let followed ← reached.references.foldlM
            (fun (followed : Followed) reference => do
              let key := (scope.base, reference)
              if followed.contains key then return followed
              match l.lookup scope reference with
              | .error e => throw (.reference e)
              | .ok (target, inner) => verify l fuel inner (key :: followed) target)
            followed
          reached.schemas.foldlM (verify l fuel scope) followed)
      followed

end Evaluation

namespace Evaluator

/-- The identifier of a schema that has none. -/
def defaultBase : String := "json-schema:///"

/-- The evaluator of a schema that may refer to the given resources. -/
def build (schema : Json) (resources : List Resource) : Except SchemaFault Evaluator := do
  let base := match Library.keywordText? schema "$id" with
    | some id => Library.trimmed id
    | none => defaultBase
  match Metaschema.library.extend (resources ++ [⟨base, schema⟩]) with
  | .error e => throw (.reference e)
  | .ok library =>
    match Metaschema.evaluator.findings schema with
    | f :: _ => throw (.violates f.violation)
    | [] =>
      let e : Evaluator := ⟨library, base, schema⟩
      let _ ← Evaluation.verify library (e.steps .null * e.steps .null) e.start.scope [] schema
      return e

end Evaluator

end HttpContract
