import HttpContract.Schema.Engine

/-!
# Normalization and validation

Validation changes a value first and checks it then. The walk over the value follows the plan of the
schema: it converts scalars to declared types, fills in defaults, drops undeclared properties, and
starts a validation of its own wherever the plan refers to another schema. The evaluator then checks
the changed value, and the violations found on the way come behind its own.

The walk is given a number of steps from schema to schema. Without enough of them there is no
outcome (`none`); with enough, more of them do not change it. `Engine.validate` starts with a budget
that suffices unless defaults call for each other, and adds steps until they suffice.
-/

namespace HttpContract

namespace Normalization

/-- A value on its way, with the violations found so far. -/
structure Walked where
  value : Json
  errors : List FieldError
deriving DecidableEq

/-- Where the walk stands in the value and in the schema. -/
structure At where
  instancePath : String
  schemaPath : String

/-- The place of a schema within a keyword. -/
def At.entry (a : At) (k token : String) : At :=
  { a with schemaPath := Json.Pointer.child (Json.Pointer.child a.schemaPath k) token }

/-- The place of the schema of a keyword. -/
def At.keyword (a : At) (k : String) : At :=
  { a with schemaPath := Json.Pointer.child a.schemaPath k }

/-- The place of a part of the value. -/
def At.part (a : At) (token : String) : At :=
  { a with instancePath := Json.Pointer.child a.instancePath token }

/-- A walk over a value along a node; the flag says whether undeclared properties are dropped. -/
abbrev Walk := Node → At → (strip : Bool) → Json → Option Walked

variable (e : Engine)

/-! ## Declared properties -/

/-- Whether a node or one of the branches it is made of satisfies a test. -/
def anyPlan (test : Plan Node → Bool) : (fuel : Nat) → Node → Option Bool
  | 0, _ => none
  | fuel + 1, .plan p => if test p then some true else p.allOf.anyM (anyPlan test fuel)
  | fuel + 1, n =>
    match e.resolve? n with
    | some s => anyPlan test fuel s.root
    | none => some false

/-- Whether a node or one of the branches it is made of declares a property. -/
def declares (fuel : Nat) (n : Node) (key : String) : Option Bool :=
  anyPlan e (fun p => p.declaresOwn key) fuel n

/-- Whether a node or one of the branches it is made of admits undeclared properties. -/
def admits (fuel : Nat) (n : Node) : Option Bool := anyPlan e Plan.admitsAny fuel n

/-! ## The walk -/

/-- Walk along several nodes one after the other, over the same value. -/
def chain (walk : Walk) : List (Node × At × Bool) → Walked → Option Walked
  | [], w => some w
  | (n, a, strip) :: rest, w => do
    let next ← walk n a strip w.value
    chain walk rest ⟨next.value, w.errors ++ next.errors⟩

/-- Convert a value that has none of the declared types. -/
def coerced (o : Options) (types : List JsonType) (v : Json) : Json :=
  if o.coerceTypes ∧ !types.isEmpty ∧ !Coercion.admitted types v then (coerceAny? v types).getD v
  else v

/-- Fill in the defaults of absent properties. References have none. -/
def withDefaults (properties : List (String × Node)) (members : Fields Json) : Fields Json :=
  properties.foldl
    (fun ms (name, n) =>
      match n with
      | .plan p =>
        match p.default with
        | some d => if Fields.contains ms name then ms else Fields.insert ms name d
        | none => ms
      | _ => ms)
    members

/-- Keep the members that satisfy a test which may have no outcome. -/
def retain (test : String → Option Bool) : Fields Json → Option (Fields Json)
  | [] => some []
  | (key, v) :: rest => do
    let keep ← test key
    let others ← retain test rest
    return if keep then (key, v) :: others else others

/-- The nodes for a property: those that declare it by name or pattern, else the additional one. -/
def nodesFor (p : Plan Node) (a : At) (key : String) : List (Node × At × Bool) :=
  let here := a.part key
  let named := ((Fields.get? p.properties key).map
    (fun n => (n, here.entry "properties" key, true))).toList
  let matched := (p.matching key).map
    (fun (source, n) => (n, here.entry "patternProperties" source, true))
  match named ++ matched with
  | [] =>
    match p.additional with
    | .schema n => [(n, here.keyword "additionalProperties", true)]
    | _ => []
  | nodes => nodes

/-- Walk over the members of an object. -/
def walkMembers (walk : Walk) (p : Plan Node) (a : At) :
    List (String × Json) → Option (List (String × Json) × List FieldError)
  | [] => some ([], [])
  | (key, v) :: rest => do
    let w ← chain walk (nodesFor p a key) ⟨v, []⟩
    let (others, errors) ← walkMembers walk p a rest
    return ((key, w.value) :: others, w.errors ++ errors)

/-- The node for an item. -/
def nodeAt (p : Plan Node) (a : At) (index : Nat) : List (Node × At × Bool) :=
  let here := a.part (toString index)
  match p.leading[index]? with
  | some n => [(n, here.entry p.leadingKeyword (toString index), true)]
  | none =>
    match p.items with
    | some n => [(n, here.keyword "items", true)]
    | none => []

/-- Walk over the items of a list. -/
def walkItems (walk : Walk) (p : Plan Node) (a : At) :
    Nat → List Json → Option (List Json × List FieldError)
  | _, [] => some ([], [])
  | i, v :: rest => do
    let w ← chain walk (nodeAt p a i) ⟨v, []⟩
    let (others, errors) ← walkItems walk p a (i + 1) rest
    return (w.value :: others, w.errors ++ errors)

/-- The members of an object with defaults filled in, if the options ask for it. -/
def filled (p : Plan Node) (members : Fields Json) : Fields Json :=
  if e.options.useDefaults then withDefaults p.properties members else members

/-- Whether a plan or one of its branches declares a property. -/
def declared (fuel : Nat) (p : Plan Node) (key : String) : Option Bool :=
  if p.declaresOwn key then some true else p.allOf.anyM (fun n => declares e fuel n key)

/-- The members of an object with defaults filled in and undeclared ones dropped. Nothing is dropped
where a branch of `allOf` admits it. -/
def prepared (fuel : Nat) (p : Plan Node) (strip : Bool) (members : Fields Json) :
    Option (Fields Json) :=
  if strip ∧ e.options.removeAdditional ∧ p.strips then
    match p.allOf.anyM (admits e fuel) with
    | none => none
    | some true => some (filled e p members)
    | some false => retain (declared e fuel p) (filled e p members)
  else some (filled e p members)

/-- The steps along the branches of `allOf`, which drop nothing themselves. -/
def branchSteps (p : Plan Node) (a : At) : List (Node × At × Bool) :=
  ((List.range p.allOf.length).zip p.allOf).map
    (fun (i, n) => (n, a.entry "allOf" (toString i), false))

/-- Walk over the parts of a value: its members, once they are prepared, or its items. -/
def walkParts (fuel : Nat) (walk : Walk) (p : Plan Node) (a : At) (strip : Bool) (v : Json) :
    Option Walked :=
  match v with
  | .obj members => do
    let ready ← prepared e fuel p strip members
    let (ms, errors) ← walkMembers walk p a ready
    return ⟨.obj ms, errors⟩
  | .arr items => do
    let (xs, errors) ← walkItems walk p a 0 items
    return ⟨.arr xs, errors⟩
  | scalar => some ⟨scalar, []⟩

/-- Walk over a value along a plan: convert it, walk along the branches of `allOf`, then over its
parts. -/
def walkPlan (fuel : Nat) (walk : Walk) (p : Plan Node) (a : At) (strip : Bool) (v : Json) :
    Option Walked := do
  let w ← chain walk (branchSteps p a) ⟨coerced e.options p.types v, []⟩
  let parts ← walkParts e fuel walk p a strip w.value
  return ⟨parts.value, w.errors ++ parts.errors⟩

/-- Change a value along a compiled schema and check it. -/
def runWith (walk : Walk) (s : CompiledSchema) (strip : Bool) (v : Json) : Option Walked := do
  let w ← walk s.root ⟨"", ""⟩ strip v
  let found := e.options.limit ((s.evaluator.findings w.value).map Finding.toFieldError)
  return ⟨w.value, e.options.limit (found ++ w.errors)⟩

/-- A violation found by a validation that was started at a place. -/
def rebased (a : At) (f : FieldError) : FieldError :=
  { f with
    instancePath := a.instancePath ++ f.instancePath
    schemaPath := Json.Pointer.child a.schemaPath Marker.key ++ f.schemaPath }

/-- Walk over a value along a node. A reference starts a validation of its own. -/
def walk : (fuel : Nat) → Walk
  | 0, _, _, _, _ => none
  | fuel + 1, .plan p, a, strip, v =>
    walkPlan e fuel (fun n a strip v => walk fuel n a strip v) p a strip v
  | fuel + 1, n, a, strip, v =>
    match e.resolve? n with
    | none => some ⟨v, []⟩
    | some s => do
      let w ← runWith e (fun n a strip v => walk fuel n a strip v) s strip v
      return ⟨w.value, w.errors.map (rebased a)⟩

/-- Change a value along a compiled schema and check it, in at most so many steps. -/
def run (fuel : Nat) (s : CompiledSchema) (strip : Bool) (v : Json) : Option Walked :=
  runWith e (fun n a strip v => walk e fuel n a strip v) s strip v

end Normalization

/-- What validation leaves of a value. -/
structure Validated where
  verdict : Verdict
  value : Json
deriving DecidableEq

/-- Validate a value. Where the walk has no end, which takes defaults that call for each other
without end, neither has validation: the violation stands for that. -/
def Engine.validate (e : Engine) (s : CompiledSchema) (v : Json) : Validated :=
  match firstOutcome (fun fuel => Normalization.run e fuel s true v) (e.budget s v) with
  | some w => ⟨Verdict.ofErrors w.errors, w.value⟩
  | none => ⟨Verdict.failed [FieldError.ofMessage Violation.unending.message], v⟩

end HttpContract
