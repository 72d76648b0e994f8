import HttpContract.Operation.Schemas
import HttpContract.Text.Ascii

/-!
# Routes, operation ids and tables of declarations

A route is a method and a path template. An identity derives from it the id under which the
declarations of the operation are stored and looked up; both sides have to use the same one. A
route table keeps declarations in the order in which they were made, a schema table keeps one
declaration per id.
-/

namespace HttpContract

/-- A method, in upper case, and the template of the paths it serves. -/
structure Route where
  method : String
  path : String
deriving DecidableEq, Repr

namespace Route

/-- The route of a method in any case. -/
def of (method path : String) : Route := ⟨Ascii.upper method, path⟩

/-- The route as one text. -/
def display (r : Route) : String := r.method ++ " " ++ r.path

end Route

/-- The derivation of operation ids from routes. -/
abbrev Identity := Route → String

/-- The id is the route as one text. -/
def Identity.methodPath : Identity := Route.display

/-- One declaration per operation id, in the order of the ids. -/
abbrev SchemaTable := Fields OperationSchemas

namespace SchemaTable

/-- The declarations of the members of an object. -/
def ofMembers : Fields Json → Except DeclarationError SchemaTable
  | [] => .ok []
  | (operation, v) :: rest => do
    let schemas ← OperationSchemas.ofJson operation v
    let others ← ofMembers rest
    return (operation, schemas) :: others

/-- Read an object of declarations. -/
def ofJson : Json → Except DeclarationError SchemaTable
  | .obj members => ofMembers members
  | other => .error (.table other.kindName)

end SchemaTable

/-- Declarations of routes, in the order in which they were made. -/
abbrev RouteTable := List (Route × OperationSchemas)

/-- Store declarations under their ids; of two with one id the later stays. -/
def RouteTable.toSchemaTable (routes : RouteTable) (identity : Identity) : SchemaTable :=
  routes.foldl (fun table e => Fields.insert table (identity e.1) e.2) []

end HttpContract
