import HttpContract.Evaluation.Build
import HttpContract.Schema.Marker

/-!
# Errors of compilation and rendering
-/

namespace HttpContract

/-- Why a document cannot stand where it stands in a schema. -/
inductive InvalidReason where
  | marker (e : MarkerError)
  | unknownType
  | propertiesNoObject
  | patternPropertiesNoObject
  | noList
  | noSchema
  | evaluation (f : SchemaFault)

/-- The wording of the reason. -/
def InvalidReason.message : InvalidReason → String
  | marker e => e.message
  | unknownType => "unknown type"
  | propertiesNoObject => "properties must be an object"
  | patternPropertiesNoObject => "patternProperties must be an object"
  | noList => "expected an array of schemas"
  | noSchema => "expected an object or boolean schema"
  | evaluation f => f.message

/-- Why a schema cannot be compiled. Places are pointers into the schema. -/
inductive CompileError where
  | invalidSchema (path : String) (reason : InvalidReason)
  | unknownKeyword (keyword path : String)
  | undefinedReference (handle : Nat) (path : String)
  | unknownHandle (handle : Nat)
  | alreadyDefined (name : String)
  /-- Registry schemas refer to each other without consuming any data. -/
  | referenceCycle (name : String)

/-- The wording of the error. -/
def CompileError.message : CompileError → String
  | invalidSchema path reason => s!"invalid schema at '{path}': {reason.message}"
  | unknownKeyword keyword path => s!"unknown keyword '{keyword}' at '{path}'"
  | undefinedReference handle path =>
    s!"forward reference at '{path}' targets undefined schema #{handle}"
  | unknownHandle handle => s!"unknown schema handle #{handle}"
  | alreadyDefined name => s!"schema '{name}' is already defined"
  | referenceCycle name => s!"schema '{name}' references itself at the same instance location"

/-- Why a value cannot be rendered under a schema. Places are pointers into the value. -/
inductive RenderError where
  | missingRequired (path property : String)
  | coercion (path : String) (expected : List JsonType)
deriving DecidableEq, Repr

/-- The wording of the error. -/
def RenderError.message : RenderError → String
  | missingRequired path property => s!"'{property}' is required at '{path}'"
  | coercion path expected =>
    let types := "|".intercalate (expected.map JsonType.name)
    s!"value at '{path}' cannot be rendered as {types}"

end HttpContract
