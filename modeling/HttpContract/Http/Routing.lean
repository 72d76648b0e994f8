import HttpContract.Http.Message
import HttpContract.Text.Percent
import HttpContract.Text.Uri

/-!
# Routing

A template is a path whose segments are literal, or stand for one segment that is not empty, or, at
the end, for all that is left of the path. Of several templates that match a path the one counts
that is more specific at the first segment where they differ: a literal one before a parameter, and
a parameter before the rest of the path.
-/

namespace HttpContract.Http

/-- A segment of a template. -/
inductive Segment where
  | literal (text : String)
  /-- One segment of the path. -/
  | parameter (name : String)
  /-- The rest of the path. -/
  | rest (name : String)
deriving DecidableEq, Repr

namespace Segment

/-- Read a segment: names stand in braces, with an asterisk for the rest of the path. -/
def ofText (text : String) : Segment :=
  match text.toList with
  | '\x7b' :: inner =>
    if inner.getLast? = some '\x7d' then
      match inner.dropLast with
      | '*' :: name => rest (String.ofList name)
      | name => parameter (String.ofList name)
    else literal text
  | _ => literal text

/-- How specific a segment is; less is more so. -/
def rank : Segment → Nat
  | literal _ => 0
  | parameter _ => 1
  | rest _ => 2

/-- The segments of a path. -/
def split (path : String) : List String := (path.splitOn "/").drop 1

/-- The segments of a template. -/
def ofTemplate (template : String) : List Segment := (split template).map ofText

/-- Match segments against those of a path; the result pairs the names with what they stand for. -/
def match? : List Segment → List String → Option (List (String × String))
  | [], [] => some []
  | [rest name], p :: ps =>
    let all := "/".intercalate (p :: ps)
    if all.isEmpty then none else some [(name, all)]
  | literal text :: more, p :: ps => if text = p then match? more ps else none
  | parameter name :: more, p :: ps =>
    if p.isEmpty then none else (match? more ps).map ((name, p) :: ·)
  | _, _ => none

/-- Whether segments are more specific than others at the first difference. -/
def precedes : List Segment → List Segment → Bool
  | a :: as, b :: bs => a.rank < b.rank || (a.rank == b.rank && precedes as bs)
  | _, _ => false

end Segment

/-- The path of a target. -/
def pathOf (target : String) : String :=
  let path := (Uri.split target).path
  if path.isEmpty then "/" else path

/-- The query of a target. -/
def queryOf (target : String) : String := ((Uri.split target).query).getD ""

/-- A template that matched, with the parameters as they are written in the path. -/
structure MatchedPath where
  template : String
  parameters : List (String × String)
deriving DecidableEq, Repr

namespace MatchedPath

/-- The parameters without percent-encoding; none at all if one of them is no text. -/
def decoded (m : MatchedPath) : List (String × String) :=
  (m.parameters.mapM (fun e => (Percent.decodeText? e.2).map (fun v => (e.1, v)))).getD []

end MatchedPath

/-- Routes: under each template handlers for methods. -/
abbrev Routes (α : Type) := List (String × List (String × α))

namespace Routes

variable {α : Type}

/-- Add a handler for a template and a method. -/
def add (routes : Routes α) (template method : String) (handler : α) : Routes α :=
  if routes.any (fun r => r.1 == template) then
    routes.map (fun r => if r.1 == template then (r.1, r.2 ++ [(method, handler)]) else r)
  else routes ++ [(template, [(method, handler)])]

/-- The most specific template that matches a path, with its handlers. -/
def find? (routes : Routes α) (path : String) : Option (MatchedPath × List (String × α)) :=
  let found := routes.filterMap (fun (template, handlers) =>
    (Segment.match? (Segment.ofTemplate template) (Segment.split path)).map
      (fun parameters => ((⟨template, parameters⟩ : MatchedPath), handlers)))
  found.foldl
    (fun best next =>
      match best with
      | none => some next
      | some b =>
        if Segment.precedes (Segment.ofTemplate next.1.template) (Segment.ofTemplate b.1.template)
        then some next else best)
    none

/-- The handler for a method; `GET` also serves `HEAD`. -/
def handler? (handlers : List (String × α)) (method : String) : Option α :=
  let exactly := fun (m : String) => (handlers.find? (fun h => h.1 == m)).map (·.2)
  (exactly method).or (if method = "HEAD" then exactly "GET" else none)

end Routes

namespace Response

/-- The method is not served. -/
def methodNotAllowed : Response := empty 405

/-- No template matches. -/
def notFound : Response := empty 404

/-- A response as it is sent: with the length of its body, if that is known and no length is set,
and without the body in answer to `HEAD`. -/
def sent (method : String) (r : Response) : Response :=
  let headers :=
    match r.headers.first? "content-length", r.body with
    | none, .bytes b => r.headers ++ [("content-length", Utf8.encode (toString b.length))]
    | _, _ => r.headers
  { r with headers := headers, body := if method = "HEAD" then .bytes [] else r.body }

end Response

end HttpContract.Http
