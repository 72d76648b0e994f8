import HttpContract.Schema.CompileError

/-!
# Plans of normalization

A compiled schema has two halves. Its plan holds what changes values: declared types, defaults, the
schemas of properties and items, the branches of `allOf`, and references. Its evaluator checks the
changed value against the same schema, in which every reference followed by the plan has been
replaced by `true`.

Plans follow references where one place of the value meets one schema: at the root and under
`properties`, `patternProperties`, `additionalProperties`, `items`, `prefixItems` and `allOf`.
-/

namespace HttpContract

/-- What a schema says about properties it does not declare. -/
inductive Additional (ν : Type) where
  | unspecified
  | allowed
  | forbidden
  | schema (node : ν)

/-- What a schema does to a value, with nodes `ν` for the schemas inside it. -/
structure Plan (ν : Type) where
  types : List JsonType
  default : Option Json
  required : List String
  properties : List (String × ν)
  /-- Nodes under the sources of their patterns. -/
  patterns : List (String × ν)
  additional : Additional ν
  /-- Nodes of the leading items. -/
  leading : List ν
  /-- The keyword under which the leading items are declared. -/
  leadingKeyword : String
  items : Option ν
  allOf : List ν
  /-- Handles that combining keywords other than `allOf` refer to at the same place of the value. -/
  applied : List Nat

/-- A schema inside a plan: a plan of its own, a reference that carries its schema, or a reference
to a handle. -/
inductive Node where
  | plan (p : Plan Node)
  | inline (root : Node) (evaluator : Evaluator) (source : Json)
  | deferred (handle : Nat)

/-- A plan with the evaluator of the same schema. -/
structure CompiledSchema where
  root : Node
  evaluator : Evaluator
  source : Json

namespace Plan

variable {ν : Type}

/-- The plan of a schema without keywords. -/
def empty : Plan ν := ⟨[], none, [], [], [], .unspecified, [], "prefixItems", none, [], []⟩

/-- Whether the schema declares properties by name or by pattern. -/
def hasObjectKeywords (p : Plan ν) : Bool := !p.properties.isEmpty || !p.patterns.isEmpty

/-- Whether the schema admits properties it does not declare. -/
def admitsAny (p : Plan ν) : Bool :=
  match p.additional with
  | .allowed => true
  | .schema _ => true
  | _ => false

/-- Whether undeclared properties are dropped. -/
def strips (p : Plan ν) : Bool := p.hasObjectKeywords && !p.admitsAny

/-- Whether the schema itself declares a property. -/
def declaresOwn (p : Plan ν) (key : String) : Bool :=
  Fields.contains p.properties key || p.patterns.any (fun e => Pattern.found e.1 key)

/-- The nodes of the patterns that match a property. -/
def matching (p : Plan ν) (key : String) : List (String × ν) :=
  p.patterns.filter (fun e => Pattern.found e.1 key)

end Plan

mutual

/-- Handles that a node refers to without going down into the value. -/
def Node.sameLocation : Node → List Nat
  | .deferred handle => [handle]
  | .inline root _ _ => Node.sameLocation root
  | .plan ⟨_, _, _, _, _, _, _, _, _, allOf, applied⟩ => applied ++ Node.sameLocationAll allOf
termination_by structural n => n

/-- Handles that some of the nodes refer to without going down into the value. -/
def Node.sameLocationAll : List Node → List Nat
  | [] => []
  | n :: rest => Node.sameLocation n ++ Node.sameLocationAll rest
termination_by structural n => n

end

end HttpContract
