import HttpContract.Service.Extraction

/-!
# Ready-made route handlers

Handlers that show what reaches them, for probing a service.
-/

namespace HttpContract.Handlers

open Http

/-- The response of a handler that can fail. -/
def answer (r : Except ServiceError Json) : Response :=
  match r with
  | .ok v => .json 200 v
  | .error e => e.toResponse

/-- A handler without regard to the request. -/
def fixed (r : Response) : RouteHandler := fun _ _ => r

/-- Send the body back. -/
def echo (status : Nat) : RouteHandler := fun request _ =>
  match request.body with
  | .bytes b => ⟨status, [("content-type", Utf8.encode jsonType)], .bytes b⟩
  | .failing _ => .plain 418 "unreadable"

/-- Tell the length of the body, and what the headers say about it. -/
def length : RouteHandler := fun request _ =>
  match request.body with
  | .bytes b =>
    let header := (request.headers.first? "content-length").map Utf8.decodeLossy
    .json 200 <| .ofMembers
      [("content_length", (header.map Json.str).getD .null), ("bytes", .ofNat b.length)]
  | .failing _ => .plain 418 "unreadable"

/-- The validated request as a document. -/
def requestDocument (v : ValidatedRequest) : Json :=
  .ofMembers <|
    [("operation", .str v.operation), ("report", v.report.toJson)]
      ++ RequestSlot.all.map (fun s => (s.name, v.data.slot s))

/-- Show the validated request. -/
def validated : RouteHandler := fun _ v => answer ((Extraction.request v).map requestDocument)

/-- Show a part of the validated request. -/
def part (slot : RequestSlot) : RouteHandler := fun _ v => answer (Extraction.part .ok slot v)

/-- Show a part of the validated request that has to hold integers. -/
def integers (slot : RequestSlot) : RouteHandler := fun _ v =>
  answer <| (Extraction.part Extraction.integers slot v).map
    (fun members => .obj (members.map (fun (k, n) =>
      (k, ((Json.Integer.ofInt? n).map (fun i => Json.num (.int i))).getD .null))))

end HttpContract.Handlers
