import HttpContract.OpenApi.Rewriting
import HttpContract.Operation.Table
import HttpContract.Schema.Registry
import HttpContract.Yaml.Lowering

/-!
# Exploration of API descriptions

`explore` reads the operations of an OpenAPI 3 description as declarations of routes. The component
schemas go into a registry first: all names are declared and then all schemas defined, so they can
refer to each other in any way. The parameters of an operation are grouped by their places into
schemas of objects; those of the operation itself replace those of its path.

When exploration fails the registry keeps what had been declared and defined until then.
-/

namespace HttpContract.OpenApi

/-- Why a description cannot be explored. -/
inductive ExplorationError where
  | notObject
  | unsupportedVersion (version : Json)
  | componentsNotObject
  | component (name : String) (e : Fault)
  | pathsNotObject
  | path (path : String) (e : Fault)
  | operation (method path : String) (e : Fault)
  /-- The text of the description is no YAML. -/
  | notYaml
  | yamlKey (e : Yaml.KeyError)

/-- The wording of the error. -/
def ExplorationError.message (e : ExplorationError) : String :=
  "fail exploring api description: " ++
    match e with
    | notObject => "document must be an object"
    | unsupportedVersion version => "unsupported OpenAPI version " ++ version.render
    | componentsNotObject => "components/schemas must be an object"
    | component name e => s!"component schema {name}: {e.message}"
    | pathsNotObject => "paths must be an object"
    | path p e => s!"{p}: {e.message}"
    | operation method p e => s!"{method} {p}: {e.message}"
    | notYaml => "invalid YAML"
    | yamlKey e => e.message

/-! ## References -/

/-- How many references are followed one after the other. -/
def referenceLimit : Nat := 16

/-- A description and the handles of its component schemas. -/
structure Context where
  document : Json
  components : Components

/-- The text of a reference. -/
def reference? (v : Json) : Option String := (v.get? "$ref").bind Json.text?

/-- Follow at most so many references into the section of the description that starts with
`area`. -/
def follow (document : Json) (area : String) : (fuel : Nat) → Json → Except Fault Json
  | 0, _ => .error (.deepReference referenceLimit)
  | fuel + 1, v =>
    match reference? v with
    | none => .ok v
    | some r =>
      if !r.startsWith area then .error (.unsupportedReference r)
      else
        match Json.Pointer.resolve? document (String.ofList (r.toList.drop 1)) with
        | some target => follow document area fuel target
        | none => .error (.unresolvedReference r)

/-- What a value is or refers to within a section of the components. -/
def Context.resolve (c : Context) (area : String) (v : Json) : Except Fault Json :=
  follow c.document ("#/components/" ++ area ++ "/") referenceLimit v

/-! ## Parameters -/

/-- A parameter with its name and its place. -/
structure Parameter where
  name : String
  place : String
  contents : Json

/-- Read a parameter. The names of headers are in lower case. -/
def Context.parameter (c : Context) (v : Json) : Except Fault Parameter := do
  let contents ← c.resolve "parameters" v
  match (contents.get? "name").bind Json.text? with
  | none => throw .unnamedParameter
  | some name =>
    match (contents.get? "in").bind Json.text? with
    | none => throw (.unplacedParameter name)
    | some place => return ⟨if place = "header" then Ascii.lower name else name, place, contents⟩

/-- Add a parameter behind others; one with its name and place is replaced. -/
def addParameter (ps : List Parameter) (p : Parameter) : List Parameter :=
  ps.filter (fun q => !(q.name == p.name && q.place == p.place)) ++ [p]

/-- Add the parameters of a list. -/
def Context.addParameters (c : Context) (ps : List Parameter) : Option Json →
    Except Fault (List Parameter)
  | none => .ok ps
  | some (.arr items) =>
    items.foldlM (fun ps v => (c.parameter v).map (addParameter ps)) ps
  | some _ => .error .parametersNotList

/-- The part of the request that a place names; cookies are not looked at. -/
def slotOf (p : Parameter) : Except Fault (Option RequestSlot) :=
  match p.place with
  | "path" => .ok (some .parameters)
  | "query" => .ok (some .query)
  | "header" => .ok (some .headers)
  | "cookie" => .ok none
  | _ => .error (.unknownPlace p.name p.place)

/-- A parameter in its part of the request, with its schema. -/
structure Field where
  slot : RequestSlot
  name : String
  schema : Json
  required : Bool

/-- The field of a parameter. Path parameters are always required. -/
def Context.field? (c : Context) (p : Parameter) : Except Fault (Option Field) := do
  match ← slotOf p with
  | none => return none
  | some slot =>
    let schema ← match p.contents.get? "schema" with
      | some s => rewrite c.components s
      | none => pure (.bool true)
    return some ⟨slot, p.name, schema,
      p.place == "path" || decide (p.contents.get? "required" = some (.bool true))⟩

/-- The schema of an object with the given fields. -/
def objectSchema (fields : List Field) : Fragment :=
  let required := (fields.filter (·.required)).map (fun f => Json.str f.name)
  Fragment.ofMembers <| Fields.ofList <|
    [("type", .str "object"),
      ("properties", .ofMembers (fields.map (fun f => (f.name, f.schema))))]
      ++ (if required.isEmpty then [] else [("required", .arr required)])

/-- The schemas of the parts of the request that parameters declare. -/
def Context.parameters (c : Context) (shared own : Option Json) :
    Except Fault (RequestSlot → Option Fragment) := do
  let ps ← c.addParameters (← c.addParameters [] shared) own
  let fields := (← ps.mapM c.field?).filterMap id
  return fun slot =>
    let here := fields.filter (fun f => f.slot == slot)
    if here.isEmpty then none else some (objectSchema here)

/-! ## Operations -/

/-- The schema for JSON contents of a body, if there is one. -/
def Context.mediaSchema (c : Context) (holder : Json) : Except Fault (Option Fragment) :=
  match ((holder.get? "content").bind (·.get? jsonMedia)).bind (·.get? "schema") with
  | none => .ok none
  | some schema => (fragment c.components schema).map some
where
  /-- The media type of JSON. -/
  jsonMedia : String := "application/json"

/-- The schemas of responses that have one. -/
def Context.responses (c : Context) : Fields Json → Except Fault (Fields (Option Fragment))
  | [] => .ok []
  | (status, v) :: rest => do
    let f ← c.mediaSchema (← c.resolve "responses" v)
    let others ← c.responses rest
    return match f with
      | some f => (status, some f) :: others
      | none => others

/-- The declaration of an operation; `shared` are the parameters of its path. -/
def Context.operation (c : Context) (shared : Option Json) (v : Json) :
    Except Fault OperationSchemas := do
  let slots ← c.parameters shared (v.get? "parameters")
  let body ← match v.get? "requestBody" with
    | none => pure none
    | some b => c.mediaSchema (← c.resolve "requestBodies" b)
  let responses ← match v.get? "responses" with
    | none => pure []
    | some (.obj entries) => c.responses entries
    | some _ => throw .responsesNotObject
  return ⟨slots .parameters, slots .query, slots .headers, body, responses⟩

/-! ## Descriptions -/

/-- The methods of operations, in the order in which they are declared. -/
def methods : List String := ["get", "put", "post", "delete", "options", "head", "patch", "trace"]

/-- The declaration of the operation that a path has for a method, if there is one. -/
def Context.declaration? (c : Context) (path : String) (item : Json) (method : String) :
    Except ExplorationError (Option (Route × OperationSchemas)) :=
  match item.get? method with
  | none => .ok none
  | some operation =>
    match c.operation (item.get? "parameters") operation with
    | .ok schemas => .ok (some (Route.of method path, schemas))
    | .error e => .error (.operation (Ascii.upper method) path e)

/-- The operations of a path. -/
def Context.path (c : Context) (path : String) (v : Json) :
    Except ExplorationError RouteTable :=
  match c.resolve "pathItems" v with
  | .error e => .error (.path path e)
  | .ok item => (methods.mapM (c.declaration? path item)).map (·.filterMap id)

/-- Declare the names of component schemas. -/
def declareAll (registry : Registry) (names : List String) : Registry × Components :=
  names.foldl (fun (r, components) name =>
    ((r.declare name).1, Fields.insert components name (r.declare name).2)) (registry, [])

/-- Define component schemas one after the other, up to the first that cannot be. -/
def defineAll (components : Components) :
    Registry → Fields Json → Registry × Except ExplorationError Unit
  | r, [] => (r, .ok ())
  | r, (name, schema) :: rest =>
    match fragment components schema with
    | .error e => (r, .error (.component name e))
    | .ok f =>
      match r.define ((Fields.get? components name).getD 0) f with
      | .error e => (r, .error (.component name (.definition e)))
      | .ok r => defineAll components r rest

/-- Declare the names of component schemas and define the schemas, in the order of their names. -/
def register (registry : Registry) (schemas : Fields Json) :
    Registry × Except ExplorationError Components :=
  let (declared, components) := declareAll registry (Fields.keys schemas)
  let (defined, outcome) := defineAll components declared schemas
  (defined, outcome.map (fun _ => components))

/-- Whether a description is of a version that can be explored. -/
def checkVersion (members : Fields Json) : Except ExplorationError Unit :=
  match Fields.get? members "openapi" with
  | none => .ok ()
  | some version =>
    match version with
    | .str v => if v.startsWith "3" then .ok () else .error (.unsupportedVersion version)
    | _ => .error (.unsupportedVersion version)

/-- The component schemas of a description. -/
def componentSchemas (document : Json) : Except ExplorationError (Fields Json) :=
  match Json.Pointer.resolve? document "/components/schemas" with
  | none => .ok []
  | some .null => .ok []
  | some (.obj schemas) => .ok schemas
  | some _ => .error .componentsNotObject

/-- The operations of all paths, in the order of the paths. -/
def Context.paths (c : Context) (members : Fields Json) : Except ExplorationError RouteTable :=
  match Fields.get? members "paths" with
  | none => .ok []
  | some (.obj paths) => (paths.mapM (fun (p, v) => c.path p v)).map List.flatten
  | some _ => .error .pathsNotObject

/-- Explore a description. -/
def explore (document : Json) (registry : Registry) :
    Registry × Except ExplorationError RouteTable :=
  match document with
  | .obj members =>
    match (checkVersion members).bind (fun _ => componentSchemas document) with
    | .error e => (registry, .error e)
    | .ok schemas =>
      match register registry schemas with
      | (r, .error e) => (r, .error e)
      | (r, .ok components) => (r, (⟨document, components⟩ : Context).paths members)
  | _ => (registry, .error .notObject)

/-- Explore a description written in YAML. -/
def exploreYaml (source : String) (registry : Registry) :
    Registry × Except ExplorationError RouteTable :=
  match Yaml.Value.read? source with
  | none => (registry, .error .notYaml)
  | some v =>
    match v.toJson "" with
    | .error e => (registry, .error (.yamlKey e))
    | .ok document => explore document registry

end HttpContract.OpenApi
