import HttpContract.Http.Form
import HttpContract.Http.Routing
import HttpContract.Json.Parser
import HttpContract.Service.Gate
import HttpContract.Service.Setup
import HttpContract.Text.Visible

/-!
# Exchanges

In an exchange a request goes through the gate to a route handler and the response comes back
through it. Bodies are read only where a schema needs them. The handler is given the request with
its normalized body, and beside it the normalized values of all four parts.
-/

namespace HttpContract

/-- What the gate found out about a request. -/
structure ValidatedRequest where
  operation : String
  data : RequestData
  report : RequestReport
deriving DecidableEq

/-- Answers requests; those that went through the gate come with what it found out. -/
abbrev RouteHandler := Http.Request → Option ValidatedRequest → Http.Response

/-- An answered request, with the exceptions raised on the way. -/
structure Served where
  response : Http.Response
  raised : List Exception

/-- Why a body cannot be read. -/
inductive BodyError where
  | tooLong
  | failed (reason : String)
deriving DecidableEq, Repr

/-- The wording of the error. -/
def BodyError.message : BodyError → String
  | tooLong => "length limit exceeded"
  | failed reason => reason

/-- Read a body of at most so many bytes. -/
def Http.Body.read (limit : Nat) : Http.Body → Except BodyError (List UInt8)
  | .bytes b => if limit < b.length then .error .tooLong else .ok b
  | .failing reason => .error (.failed reason)

namespace Exchange

/-! ## The parts of a request -/

/-- Add a value under a name: the first stands alone, further ones are collected in a list. -/
def collect (members : Fields Json) (name value : String) : Fields Json :=
  Fields.insert members name <|
    match Fields.get? members name with
    | none => .str value
    | some (.arr values) => .arr (values ++ [.str value])
    | some single => .arr [single, .str value]

/-- The pairs of a query as a document. -/
def queryValue (pairs : List (String × String)) : Json :=
  .obj (pairs.foldl (fun members e => collect members e.1 e.2) [])

/-- Add a value of a header; further ones follow behind a comma. -/
def joinHeader (members : Fields String) (name value : String) : Fields String :=
  Fields.insert members name <|
    match Fields.get? members name with
    | none => value
    | some others => others ++ ", " ++ value

/-- Headers as a document. -/
def headersValue (headers : Http.Headers) : Json :=
  .obj (Fields.mapValues Json.str
    (headers.foldl (fun members e => joinHeader members e.1 (Utf8.decodeLossy e.2)) []))

/-- Path parameters as a document. -/
def parametersValue (m : Http.MatchedPath) : Json :=
  .ofMembers (m.decoded.map (fun e => (e.1, .str e.2)))

/-- The document in a body; an empty body is null. -/
def bodyValue (bytes : List UInt8) : Except Json.ParseError Json :=
  if bytes.isEmpty then .ok .null else Json.parse bytes

/-- The bytes of a document; null is an empty body. -/
def bodyBytes : Json → List UInt8
  | .null => []
  | v => Utf8.encode v.render

/-- Read the body of a request as a document. -/
def readBody (limit : Nat) (body : Http.Body) : Except ServiceError Json :=
  match body.read limit with
  | .error .tooLong => .error (.payloadTooLarge BodyError.tooLong.message)
  | .error e => .error (.badRequest ("unreadable request body: " ++ e.message))
  | .ok bytes =>
    match bodyValue bytes with
    | .ok v => .ok v
    | .error e => .error (.badRequest ("invalid JSON body: " ++ e.message))

/-- The request with a normalized body. -/
def withBody (request : Http.Request) (v : Json) : Http.Request :=
  let bytes := bodyBytes v
  { request with
    headers := request.headers.replace "content-length" (Utf8.encode (toString bytes.length))
    body := .bytes bytes }

/-! ## The way back -/

/-- The text of a header value, if all its characters are visible. -/
def visibleText? (value : List UInt8) : Option String :=
  if value.all (fun b => b == 0x09 || (0x20 ≤ b && b < 0x7F)) then Utf8.decode? value else none

/-- The content type, if it is given as a text. -/
def contentType? (headers : Http.Headers) : Option String :=
  (headers.first? "content-type").bind visibleText?

/-- Whether a body is taken for JSON: its content type says so, or it has none. -/
def isJson (headers : Http.Headers) : Bool :=
  match contentType? headers with
  | some t => t.contains "json"
  | none => true

/-- Why a body is no JSON by its headers. -/
def contentTypeReason (headers : Http.Headers) : String :=
  let shown := match contentType? headers with
    | some t => "Some(\x22" ++ t.replace "\x22" "\\\x22" ++ "\x22)"
    | none => "None"
  "response content type " ++ shown ++ " is not JSON"

/-- Read the body of a response as a document, or say why it is none. -/
def responseValue (headers : Http.Headers) (bytes : List UInt8) : Except String Json :=
  if !isJson headers then .error (contentTypeReason headers)
  else
    match bodyValue bytes with
    | .ok v => .ok v
    | .error e => .error ("response body is not valid JSON: " ++ e.message)

/-- The response with what became of its body. -/
def withOutcome (response : Http.Response) (bytes : List UInt8) : ResponseOutcome → Http.Response
  | .passthrough _ => { response with body := .bytes bytes }
  | .validated v =>
    if v = .null ∧ bytes.isEmpty then { response with body := .bytes bytes }
    else
      { response with
        headers := response.headers.remove "content-length"
        body := .bytes (Utf8.encode v.render) }
  | .serialized text =>
    { response with
      headers := (response.headers.remove "content-length").replace "content-type"
        (Utf8.encode Http.jsonType)
      body := .bytes (Utf8.encode text) }

end Exchange

namespace Service

open Exchange

/-- The operation that a request on a matched path belongs to. -/
def operationOf (s : Service) (m : Http.MatchedPath) (request : Http.Request) : String :=
  s.identity (Route.of request.method m.template)

/-- Take a response back through the gate. One that no schema covers is not touched. -/
def takeBack (s : Service) (operation : String) (response : Http.Response) : Served :=
  match s.repository.response? response.status operation with
  | none => ⟨response, []⟩
  | some _ =>
    match response.body.read s.settings.responseBodyLimit with
    | .error e =>
      ⟨(ServiceError.internal ("unreadable response body: " ++ e.message)).toResponse, []⟩
    | .ok bytes =>
      match responseValue response.headers bytes with
      | .error reason =>
        let step := Gate.unreadable s.handler operation reason (.str (Utf8.decodeLossy bytes))
        match step.outcome with
        | .error rejection => ⟨rejection.toResponse, step.raised⟩
        | .ok () => ⟨{ response with body := .bytes bytes }, step.raised⟩
      | .ok v =>
        let step := Gate.after s.repository s.handler operation response.status v
        match step.outcome with
        | .error rejection => ⟨rejection.toResponse, step.raised⟩
        | .ok outcome => ⟨withOutcome response bytes outcome, step.raised⟩

/-- Run an exchange on a matched path. Operations without schemas go past the gate. -/
def exchange (s : Service) (m : Http.MatchedPath) (request : Http.Request) (next : RouteHandler) :
    Served :=
  let operation := s.operationOf m request
  match s.repository.get? operation with
  | none => ⟨next request none, []⟩
  | some contract =>
    let payload :=
      if contract.body.isSome then readBody s.settings.bodyLimit request.body else .ok .null
    match payload with
    | .error e => ⟨e.toResponse, []⟩
    | .ok body =>
      let data : RequestData :=
        ⟨parametersValue m, queryValue (Http.Form.decode (Http.queryOf request.target)),
          headersValue request.headers, body⟩
      let (step, data) := Gate.before s.repository s.handler operation data
      match step.outcome with
      | .error rejection => ⟨rejection.toResponse, step.raised⟩
      | .ok report =>
        let handed := if contract.body.isSome then withBody request data.body else request
        let back := s.takeBack operation (next handed (some ⟨operation, data, report⟩))
        { back with raised := step.raised ++ back.raised }

/-- Serve a request by routes, and requests that match none of them by a fallback. -/
def serve (s : Service) (routes : Http.Routes RouteHandler) (fallback : Option RouteHandler)
    (request : Http.Request) : Served :=
  match routes.find? (Http.pathOf request.target) with
  | some (m, handlers) =>
    let next := (Http.Routes.handler? handlers request.method).getD
      (fun _ _ => Http.Response.methodNotAllowed)
    let served := s.exchange m request next
    { served with response := served.response.sent request.method }
  | none =>
    match fallback with
    | some handler => ⟨(handler request none).sent request.method, []⟩
    | none => ⟨Http.Response.notFound, []⟩

end Service

end HttpContract
