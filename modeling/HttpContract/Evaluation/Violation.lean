import HttpContract.Report
import HttpContract.Json.Printer
import HttpContract.Json.Pointer
import HttpContract.Schema.Coercion

/-!
# Violations of a schema

What a value can violate, with the wording of each violation, and where it was found.
-/

namespace HttpContract

/-- A demand of a schema that a value does not meet. -/
inductive Violation where
  | falseSchema (v : Json)
  | type (v : Json) (names : List String)
  | required (property : String)
  | enumeration (v options : Json)
  | constant (expected : Json)
  | minimum (v limit : Json)
  | maximum (v limit : Json)
  | exclusiveMinimum (v limit : Json)
  | exclusiveMaximum (v limit : Json)
  | multipleOf (v : Json) (divisor : Binary64)
  | minLength (v : Json) (limit : Nat)
  | maxLength (v : Json) (limit : Nat)
  | minItems (v : Json) (limit : Nat)
  | maxItems (v : Json) (limit : Nat)
  | minProperties (v : Json) (limit : Nat)
  | maxProperties (v : Json) (limit : Nat)
  | uniqueItems (v : Json)
  | pattern (v : Json) (source : String)
  | format (v : Json) (name : String)
  | contains (v : Json)
  | negated (schema v : Json)
  | anyOf (v : Json)
  | oneOfNone (v : Json)
  | oneOfSeveral (v : Json)
  | additionalProperties (names : List String)
  | unevaluatedProperties (names : List String)
  | unevaluatedItems (items : List Json)
  /-- Following references led back to the same schema without consuming any data. -/
  | unending

namespace Violation

/-- A count with its noun, in the singular for one. -/
def counted (n : Nat) (one many : String) : String :=
  toString n ++ " " ++ (if n = 1 then one else many)

/-- What was unexpected, each in single quotation marks. -/
def unexpected (names : List String) : String :=
  "(" ++ ", ".intercalate (names.map (fun n => "\x27" ++ n ++ "\x27"))
    ++ (if names.length = 1 then " was" else " were") ++ " unexpected)"

/-- The wording of a violation. -/
def message : Violation → String
  | falseSchema v => "False schema does not allow " ++ v.render
  | type v [name] => v.render ++ " is not of type " ++ Json.quote name
  | type v names => v.render ++ " is not of types " ++ ", ".intercalate (names.map Json.quote)
  | required property => Json.quote property ++ " is a required property"
  | enumeration v options => v.render ++ " is not one of " ++ options.render
  | constant expected => expected.render ++ " was expected"
  | minimum v limit => v.render ++ " is less than the minimum of " ++ limit.render
  | maximum v limit => v.render ++ " is greater than the maximum of " ++ limit.render
  | exclusiveMinimum v limit =>
    v.render ++ " is less than or equal to the minimum of " ++ limit.render
  | exclusiveMaximum v limit =>
    v.render ++ " is greater than or equal to the maximum of " ++ limit.render
  | multipleOf v divisor =>
    v.render ++ " is not a multiple of " ++ Binary64.textIn Binary64.plainLayout divisor
  | minLength v n => v.render ++ " is shorter than " ++ counted n "character" "characters"
  | maxLength v n => v.render ++ " is longer than " ++ counted n "character" "characters"
  | minItems v n => v.render ++ " has less than " ++ counted n "item" "items"
  | maxItems v n => v.render ++ " has more than " ++ counted n "item" "items"
  | minProperties v n => v.render ++ " has less than " ++ counted n "property" "properties"
  | maxProperties v n => v.render ++ " has more than " ++ counted n "property" "properties"
  | uniqueItems v => v.render ++ " has non-unique elements"
  | pattern v source => v.render ++ " does not match \x22" ++ source ++ "\x22"
  | format v name => v.render ++ " is not a \x22" ++ name ++ "\x22"
  | contains v => "None of " ++ v.render ++ " are valid under the given schema"
  | negated schema v => schema.render ++ " is not allowed for " ++ v.render
  | anyOf v =>
    v.render ++ " is not valid under any of the schemas listed in the \x27anyOf\x27 keyword"
  | oneOfNone v =>
    v.render ++ " is not valid under any of the schemas listed in the \x27oneOf\x27 keyword"
  | oneOfSeveral v =>
    v.render ++ " is valid under more than one of the schemas listed in the \x27oneOf\x27 keyword"
  | additionalProperties names => "Additional properties are not allowed " ++ unexpected names
  | unevaluatedProperties names => "Unevaluated properties are not allowed " ++ unexpected names
  | unevaluatedItems items =>
    "Unevaluated items are not allowed " ++ unexpected (items.map Json.render)
  | unending => "schema references itself at the same instance location"

end Violation

/-- A violation with the place of the value and the place of the keyword that demands more. -/
structure Finding where
  violation : Violation
  instancePath : String
  schemaPath : String

/-- The finding as it is reported. -/
def Finding.toFieldError (f : Finding) : FieldError :=
  ⟨f.violation.message, f.instancePath, f.schemaPath⟩

end HttpContract
