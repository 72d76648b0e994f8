import HttpContract.Schema.EvaluationForm
import HttpContract.Schema.Keywords
import HttpContract.Schema.Options
import HttpContract.Schema.Plan

/-!
# Planning schemas

`Planning.node` reads a schema and gives its node together with the document for its evaluator, in
which the references that the node follows are `true`. `Planning.compile` adds the evaluator, and in
strict mode checks the keywords first.
-/

namespace HttpContract.Planning

/-- What schemas are planned against: which handles have a schema, and the documents that evaluators
can refer to. -/
structure Context where
  defined : List Bool
  resources : List Resource

/-- A place holds something that no schema can be. -/
def invalid {α : Type} (path : String) (reason : InvalidReason) : Except CompileError α :=
  .error (.invalidSchema path reason)

/-- The types named by a keyword, if all are known. -/
def types? : Json → Option (List JsonType)
  | .str name => (JsonType.ofName? name).map ([·])
  | .arr names => names.mapM (fun n => n.text?.bind JsonType.ofName?)
  | _ => none

/-- The texts in a list. -/
def texts (v : Json) : List String := ((v.items?).getD []).filterMap Json.text?

/-- Reject a malformed pattern. -/
def requirePattern (source path : String) : Except CompileError Unit :=
  if (Pattern.compile? source).isSome then .ok ()
  else invalid path (.evaluation (.badPattern source))

/-- Build the evaluator of a schema at a place. -/
def evaluator (c : Context) (document : Json) (path : String) : Except CompileError Evaluator :=
  match Evaluator.build document c.resources with
  | .ok e => .ok e
  | .error f => invalid path (.evaluation f)

variable (c : Context)

/-- The readings of a keyword's value: as a schema, as an object of schemas, whose names on request
have to be patterns, and as a list of schemas. Each gives nodes and the value for the evaluator. -/
structure Readings where
  node : Unit → Except CompileError (Node × Json)
  entries : (patterns : Bool) → InvalidReason → Except CompileError (List (String × Node) × Json)
  list : Unit → Except CompileError (List Node × Json)

/-- Add a keyword to a plan; the second component is its value for the evaluator. -/
def keyword (k : String) (v : Json) (here : String) (r : Readings) (plan : Plan Node) :
    Except CompileError (Plan Node × Json) :=
  match k with
  | "type" =>
    match types? v with
    | some ts => .ok ({ plan with types := ts }, v)
    | none => invalid here .unknownType
  | "default" => .ok ({ plan with default := some v }, v)
  | "required" => .ok ({ plan with required := texts v }, v)
  | "properties" => do
    let (nodes, document) ← r.entries false .propertiesNoObject
    return ({ plan with properties := nodes }, document)
  | "patternProperties" => do
    let (nodes, document) ← r.entries true .patternPropertiesNoObject
    return ({ plan with patterns := nodes }, document)
  | "additionalProperties" =>
    match v with
    | .bool true => .ok ({ plan with additional := .allowed }, v)
    | .bool false => .ok ({ plan with additional := .forbidden }, v)
    | _ => do
      let (n, document) ← r.node ()
      return ({ plan with additional := .schema n }, document)
  | "items" =>
    match v with
    | .arr _ => do
      let (nodes, document) ← r.list ()
      return ({ plan with leading := nodes, leadingKeyword := "items" }, document)
    | _ => do
      let (n, document) ← r.node ()
      return ({ plan with items := some n }, document)
  | "prefixItems" => do
    let (nodes, document) ← r.list ()
    return ({ plan with leading := nodes }, document)
  | "allOf" => do
    let (nodes, document) ← r.list ()
    return ({ plan with allOf := nodes }, document)
  | _ =>
    if EvaluationForm.dataKeywords.contains k then .ok (plan, v)
    else do
      let inPlace := EvaluationForm.inPlaceKeywords.contains k
      let (document, applied) ← EvaluationForm.rewrite c.defined v here inPlace
      return ({ plan with applied := plan.applied ++ applied }, document)

mutual

/-- The node of a schema, and the document for its evaluator. -/
def node : Json → (path : String) → Except CompileError (Node × Json)
  | .bool b, _ => .ok (.plan Plan.empty, .bool b)
  | .obj members, path =>
    match Marker.ofMembers? members with
    | some (.error e) => EvaluationForm.malformed path e
    | some (.ok (.deferred handle)) => do
      EvaluationForm.requireDefined c.defined handle path
      return (.deferred handle, .bool true)
    | some (.ok (.inline _)) => target members (Json.Pointer.child path Marker.key)
    | none => do
      let (plan, document) ← keywords members path Plan.empty
      return (.plan plan, .obj document)
  | _, path => invalid path .noSchema
termination_by structural schema => schema

/-- The node of a marker that carries a schema. -/
def target : List (String × Json) → (path : String) → Except CompileError (Node × Json)
  | [], path => invalid path .noSchema
  | (_, inner) :: _, path => do
    let (root, document) ← node inner path
    let e ← evaluator c document path
    return (.inline root e inner, .bool true)
termination_by structural members => members

/-- Add the keywords of a schema to a plan, in their order. -/
def keywords : List (String × Json) → (path : String) → Plan Node →
    Except CompileError (Plan Node × List (String × Json))
  | [], _, plan => .ok (plan, [])
  | (k, v) :: rest, path, plan => do
    let here := Json.Pointer.child path k
    let readings : Readings :=
      ⟨fun _ => node v here, fun patterns reason => entries v patterns reason here,
        fun _ => list v here⟩
    let (plan, document) ← keyword c k v here readings plan
    let (plan, others) ← keywords rest path plan
    return (plan, (k, document) :: others)
termination_by structural members => members

/-- The nodes of an object of schemas. -/
def entries : (v : Json) → (patterns : Bool) → InvalidReason → (here : String) →
    Except CompileError (List (String × Node) × Json)
  | .obj members, patterns, _, here => do
    let (nodes, document) ← memberNodes members patterns here
    return (nodes, .obj document)
  | _, _, reason, here => invalid here reason
termination_by structural v => v

/-- The nodes of the members of an object of schemas. -/
def memberNodes : List (String × Json) → (patterns : Bool) → (here : String) →
    Except CompileError (List (String × Node) × List (String × Json))
  | [], _, _ => .ok ([], [])
  | (name, v) :: rest, patterns, here => do
    let path := Json.Pointer.child here name
    if patterns then requirePattern name path
    let (n, document) ← node v path
    let (nodes, others) ← memberNodes rest patterns here
    return ((name, n) :: nodes, (name, document) :: others)
termination_by structural members => members

/-- The nodes of a list of schemas. -/
def list : (v : Json) → (here : String) → Except CompileError (List Node × Json)
  | .arr xs, here => do
    let (nodes, document) ← itemNodes xs here 0
    return (nodes, .arr document)
  | _, here => invalid here .noList
termination_by structural v => v

/-- The nodes of the items of a list of schemas. -/
def itemNodes : List Json → (here : String) → (index : Nat) →
    Except CompileError (List Node × List Json)
  | [], _, _ => .ok ([], [])
  | v :: rest, here, i => do
    let (n, document) ← node v (Json.Pointer.childIndex here i)
    let (nodes, others) ← itemNodes rest here (i + 1)
    return (n :: nodes, document :: others)
termination_by structural xs => xs

end

/-- Compile a schema without checking its keywords. -/
def compileUnchecked (schema : Json) (path : String) : Except CompileError CompiledSchema := do
  let (root, document) ← node c schema path
  let e ← evaluator c document path
  return ⟨root, e, schema⟩

/-- Compile a schema. -/
def compile (o : Options) (schema : Json) (path : String) : Except CompileError CompiledSchema := do
  if o.strict then Keywords.check schema path
  compileUnchecked c schema path

end HttpContract.Planning
