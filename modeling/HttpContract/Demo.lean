import HttpContract.Service.Handlers

/-!
# The demonstration service

A small service with schemas for every part of a request, two schemas that refer to each other, and
responses that are stripped of what their schemas do not declare.
-/

namespace HttpContract.Demo

open Http

/-- An object as a document. -/
def object (members : List (String × Json)) : Json := .ofMembers members

/-- The schema of a type. -/
def typed (name : String) : Json := object [("type", .str name)]

/-- The schema of an object with properties, of which some are required. -/
def objectOf (properties : List (String × Json)) (required : List String) : Fragment :=
  .ofMembers <| Fields.ofList <|
    [("type", .str "object"), ("properties", object properties)]
      ++ (if required.isEmpty then [] else [("required", .arr (required.map Json.str))])

/-- The schema that a marker stands for. -/
def reference (handle : Nat) : Fragment :=
  .ofMembers [(Marker.key, .ofNat handle)]

/-- The handle of the schema of cats. -/
def cat : Nat := 0

/-- The handle of the schema of users. -/
def user : Nat := 1

/-- The schemas of cats and of their owners. -/
def registry : Registry :=
  ⟨[⟨"Cat", some (objectOf
        [("name", typed "string"), ("owner", (reference user).document)] ["name"])⟩,
    ⟨"User", some (objectOf [("name", typed "string"), ("cat", (reference cat).document)] [])⟩]⟩

/-- A route with schemas for all parts of the request. -/
def simple : OperationSchemas :=
  { parameters := some (objectOf [("id", typed "integer")] [])
    query := some (objectOf
      [("limit", object [("type", .str "integer"), ("default", .ofNat 10)])] [])
    headers := some (objectOf [("some-test-header", typed "number")] [])
    body := some (objectOf [("foo", typed "number")] ["foo"])
    responses := [] }

/-- A route that takes a cat and gives it back. -/
def cats : OperationSchemas :=
  { OperationSchemas.empty with
    body := some (reference cat)
    responses := [("201", some (reference cat))] }

/-- A route with a small response. -/
def status : OperationSchemas :=
  { OperationSchemas.empty with
    responses := [("200", some (objectOf [("success", typed "boolean")] []))] }

/-- A route with a larger response. -/
def report : OperationSchemas :=
  { OperationSchemas.empty with
    responses := [("2XX", some (objectOf
      [("success", typed "boolean"), ("foo", typed "string"), ("hello", typed "string"),
        ("age", typed "integer")] []))] }

/-- The setup of the service. -/
def setup (settings : Settings) : Setup :=
  { Setup.start settings with
    registry := registry
    routes :=
      [(Route.of "POST" "/simple/{id}", simple), (Route.of "POST" "/cats", cats),
        (Route.of "GET" "/status", status), (Route.of "GET" "/report", report)] }

/-! ## Handlers -/

/-- Show the normalized parts of the request. -/
def createSimple : RouteHandler := fun _ v =>
  match Extraction.request v with
  | .ok v => .json 201 (object (RequestSlot.all.map (fun s => (s.name, v.data.slot s))))
  | .error e => e.toResponse

/-- Whether a media type is that of documents: its subtype, or what follows a plus sign, is JSON. -/
def isJsonMedia (text : String) : Bool :=
  let essence := Ascii.lower (String.ofList (text.toList.takeWhile (· != ';')))
  match essence.splitOn "/" with
  | ["application", subtype] =>
    subtype == "json" || (subtype.endsWith "+json" && subtype != "+json")
  | _ => false

/-- Give the cat back. -/
def createCat : RouteHandler := fun request _ =>
  if !((Exchange.contentType? request.headers).any isJsonMedia) then
    .plain 415 "Expected request with \x60Content-Type: application/json\x60"
  else
    match request.body with
    | .failing _ => .plain 400 "Failed to buffer the request body"
    | .bytes b =>
      match Json.parse b with
      | .ok v => .json 201 v
      | .error e => .plain 400 ("Failed to parse the request body as JSON: " ++ e.message)

/-- Tell that all is well, and more than the schema declares. -/
def showStatus : RouteHandler :=
  Handlers.fixed (.json 200 (object [("success", .bool true), ("extra", .str "x")]))

/-- Report more than the schema declares. -/
def showReport : RouteHandler :=
  Handlers.fixed <| .json 200 <| object
    [("success", .bool true), ("foo", .str "bar"), ("hello", .str "world"), ("age", .ofNat 42),
      ("extra", .str "should not be sent")]

/-- The routes of the service. -/
def routes : Routes RouteHandler :=
  [("/simple/{id}", [("POST", createSimple)]), ("/cats", [("POST", createCat)]),
    ("/status", [("GET", showStatus)]), ("/report", [("GET", showReport)]),
    ("/health", [("GET", Handlers.fixed (.plain 200 "ok"))])]

/-- Serve a request. -/
def serve (s : Service) (request : Request) : Http.Response :=
  (s.serve routes none request).response

end HttpContract.Demo
