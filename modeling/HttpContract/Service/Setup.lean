import HttpContract.OpenApi.Exploration
import HttpContract.Service.Exception
import HttpContract.Service.Repository
import HttpContract.Service.Settings

/-!
# Setting up a service

A setup collects what a service is made of: settings, an identity, an error handler, a transport,
a registry and declarations. `build` compiles all of it or fails; what was declared by operation id
replaces what was declared for a route with the same id.
-/

namespace HttpContract

/-- What carries requests and responses. -/
structure Transport where
  name : String
  /-- Whether the content type of a response can be set. -/
  setsContentType : Bool
deriving DecidableEq, Repr

/-- The standard transport. -/
def Transport.standard : Transport := ⟨"standard", true⟩

/-- A service: everything that is needed to validate requests and responses. -/
structure Service where
  settings : Settings
  identity : Identity
  repository : Repository
  handler : Handler

/-- Why a service cannot be built. -/
inductive SetupError where
  | load (e : LoadError)
  | registry (e : CompileError)
  | unsupportedTransport (name : String)

/-- The wording of the error. -/
def SetupError.message : SetupError → String
  | load e => e.message
  | registry e => "fail compiling schema registry: " ++ e.message
  | unsupportedTransport name => s!"fast serialization is not supported by the '{name}' transport"

/-- What a service is made of. -/
structure Setup where
  settings : Settings
  identity : Identity
  handler : Handler
  transport : Transport
  registry : Registry
  routes : RouteTable
  table : SchemaTable

namespace Setup

/-- Nothing declared; exceptions are rejected. -/
def start (settings : Settings) : Setup :=
  ⟨settings, Identity.methodPath, Handler.rejecting, Transport.standard, Registry.empty, [], []⟩

/-- Declare the schemas of a route. -/
def addRoute (s : Setup) (route : Route) (schemas : OperationSchemas) : Setup :=
  { s with routes := s.routes ++ [(route, schemas)] }

/-- Declare the schemas of routes. -/
def addRoutes (s : Setup) (routes : RouteTable) : Setup := { s with routes := s.routes ++ routes }

/-- Declare schemas by operation ids; they replace what the table held for the same ids. -/
def addTable (s : Setup) (table : SchemaTable) : Setup :=
  { s with table := table.foldl (fun t e => Fields.insert t e.1 e.2) s.table }

/-- Declare the operations of an API description. -/
def addDescription (s : Setup) (document : Json) : Except OpenApi.ExplorationError Setup :=
  match OpenApi.explore document s.registry with
  | (registry, .ok routes) => .ok ({ s with registry := registry }.addRoutes routes)
  | (_, .error e) => .error e

/-- The declarations by operation ids. -/
def declarations (s : Setup) : SchemaTable :=
  s.table.foldl (fun t e => Fields.insert t e.1 e.2) (s.routes.toSchemaTable s.identity)

/-- Build the service. -/
def build (s : Setup) : Except SetupError Service :=
  if s.settings.fastSerialization && !s.transport.setsContentType then
    .error (.unsupportedTransport s.transport.name)
  else
    match Engine.ofRegistry s.settings.options s.registry with
    | .error e => .error (.registry e)
    | .ok engine =>
      match (Repository.empty engine).load s.declarations s.settings.fastSerialization with
      | .error e => .error (.load e)
      | .ok repository => .ok ⟨s.settings, s.identity, repository, s.handler⟩

end Setup

end HttpContract
