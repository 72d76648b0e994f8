import HttpContract.Operation.Table
import HttpContract.Schema.Normalization
import HttpContract.Schema.Rendering
import HttpContract.Service.StatusKey

/-!
# Repositories of compiled operations

A repository holds the compiled schemas of every operation under its id. Loading a table compiles
all of it first and installs it then, so a table with a fault changes nothing.
-/

namespace HttpContract

/-- What is made of a response schema. -/
inductive ResponseArtifact where
  | validator (s : CompiledSchema)
  | stringifier (s : CompiledSchema)

/-- The schema an artifact was made of. -/
def ResponseArtifact.source : ResponseArtifact → Json
  | .validator s => s.source
  | .stringifier s => s.source

/-- The compiled schemas of one operation. -/
structure OperationContract where
  parameters : Option CompiledSchema
  query : Option CompiledSchema
  headers : Option CompiledSchema
  body : Option CompiledSchema
  /-- Response artifacts, ascending by their keys. -/
  responses : List (StatusKey × ResponseArtifact)

namespace OperationContract

/-- The compiled schema of a part of the request. -/
def request (c : OperationContract) : RequestSlot → Option CompiledSchema
  | .parameters => c.parameters
  | .query => c.query
  | .headers => c.headers
  | .body => c.body

/-- The artifact stored under a key. -/
def artifact? (c : OperationContract) (key : StatusKey) : Option ResponseArtifact :=
  (c.responses.find? (fun e => e.1 == key)).map (·.2)

/-- The artifact for a status: that of the code, else of its class, else the default one. -/
def response (c : OperationContract) (status : Nat) : Option ResponseArtifact :=
  ((c.artifact? (.exact status)).or (c.artifact? (StatusKey.classOf status))).or
    (c.artifact? .default)

/-- Whether any response schema is declared. -/
def hasResponses (c : OperationContract) : Bool := !c.responses.isEmpty

end OperationContract

/-- Why a table cannot be loaded. -/
inductive LoadError where
  | declaration (e : DeclarationError)
  | statusKey (operation key : String)
  | compile (operation slot : String) (e : CompileError)

/-- The wording of the error. -/
def LoadError.message : LoadError → String
  | declaration e => e.message
  | statusKey op key =>
    s!"fail loading schemas: operation {op} declares unknown status key '{key}'"
  | compile op slot e =>
    s!"fail loading schemas: operation {op} {slot} schema does not compile: {e.message}"

/-- The compiled operations under their ids. -/
structure Repository where
  engine : Engine
  entries : Fields OperationContract

namespace Repository

/-- A repository without operations. -/
def empty (e : Engine) : Repository := ⟨e, []⟩

/-- Compile the schema of a slot, if one is declared. -/
def compileSlot (e : Engine) (operation slot : String) : Option Fragment →
    Except LoadError (Option CompiledSchema)
  | none => .ok none
  | some f =>
    match e.compile f with
    | .ok s => .ok (some s)
    | .error err => .error (.compile operation slot err)

/-- Compile the responses in the order of their written keys; of two keys that mean the same the
later counts. -/
def compileResponses (e : Engine) (operation : String) (fast : Bool) :
    Fields (Option Fragment) → List (StatusKey × ResponseArtifact) →
    Except LoadError (List (StatusKey × ResponseArtifact))
  | [], acc => .ok acc
  | (key, f) :: rest, acc =>
    match StatusKey.read? key with
    | none => .error (.statusKey operation key)
    | some status =>
      match compileSlot e operation ("responses/" ++ key) f with
      | .error err => .error err
      | .ok none => compileResponses e operation fast rest acc
      | .ok (some s) =>
        let artifact := if fast then ResponseArtifact.stringifier s else .validator s
        compileResponses e operation fast rest (StatusKey.insert status artifact acc)

/-- Compile the schemas of an operation. -/
def compileOperation (e : Engine) (fast : Bool) (operation : String) (s : OperationSchemas) :
    Except LoadError OperationContract := do
  let parameters ← compileSlot e operation "parameters" s.parameters
  let query ← compileSlot e operation "query" s.query
  let headers ← compileSlot e operation "headers" s.headers
  let body ← compileSlot e operation "body" s.body
  let responses ← compileResponses e operation fast s.responses []
  return ⟨parameters, query, headers, body, responses⟩

/-- Compile all operations of a table. -/
def compileTable (e : Engine) (fast : Bool) :
    SchemaTable → Except LoadError (Fields OperationContract)
  | [] => .ok []
  | (id, s) :: rest => do
    let contract ← compileOperation e fast id s
    let others ← compileTable e fast rest
    return (id, contract) :: others

/-- Load a table: its operations replace those of the same ids, and others stay. -/
def load (r : Repository) (table : SchemaTable) (fast : Bool) : Except LoadError Repository :=
  match compileTable r.engine fast table with
  | .ok compiled =>
    .ok { r with entries := compiled.foldl (fun es e => Fields.insert es e.1 e.2) r.entries }
  | .error e => .error e

/-- The compiled schemas of an operation. -/
def get? (r : Repository) (id : String) : Option OperationContract := Fields.get? r.entries id

/-- The ids of the loaded operations, in ascending order. -/
def ids (r : Repository) : List String := Fields.keys r.entries

/-- The compiled schema of a part of the requests to an operation. -/
def request? (r : Repository) (slot : RequestSlot) (id : String) : Option CompiledSchema :=
  (r.get? id).bind (fun c => c.request slot)

/-- The artifact for responses of an operation with a status. -/
def response? (r : Repository) (status : Nat) (id : String) : Option ResponseArtifact :=
  (r.get? id).bind (fun c => c.response status)

end Repository

end HttpContract
