import HttpContract.Evaluation.Assertion
import HttpContract.Evaluation.Library

/-!
# Evaluation of values against schemas

An evaluator checks a value against a schema and lists every violation with its place. The keywords
of a schema are taken in ascending order, the items of a list by index and the members of an object
by name.

Evaluation is bounded: `rules n` follows at most `n` steps from schema to schema, and beyond that
reports the violation `unending`. `Evaluator.findings` allows for every schema at every level of the
value, so only references that lead back to themselves without consuming data get that far.
-/

namespace HttpContract

namespace Evaluation

/-- Where evaluation stands. -/
structure Place where
  scope : Library.Scope
  instancePath : String
  schemaPath : String

/-- The place of a keyword. -/
def Place.keyword (p : Place) (k : String) : Place :=
  { p with schemaPath := Json.Pointer.child p.schemaPath k }

/-- The place of a schema within the value of a keyword. -/
def Place.entry (p : Place) (k token : String) : Place := (p.keyword k).keyword token

/-- The place of a part of the value. -/
def Place.part (p : Place) (token : String) : Place :=
  { p with instancePath := Json.Pointer.child p.instancePath token }

/-- A violation found at a place. -/
def Place.report (p : Place) (v : Violation) : Finding := ⟨v, p.instancePath, p.schemaPath⟩

/-- How schemas are judged: what a value violates of a schema, and which of its members and items a
schema has looked at. -/
structure Rules where
  judge : Place → Json → Json → List Finding
  keys : Place → Json → Json → List String
  indices : Place → Json → Json → List Nat

/-- Whether a value violates nothing of a schema. -/
def Rules.valid (r : Rules) (p : Place) (schema v : Json) : Bool := (r.judge p schema v).isEmpty

variable (l : Library) (r : Rules)

/-! ## Lists and objects -/

/-- The list with the place of each item. -/
def indexed (xs : List Json) : List (Nat × Json) := (List.range xs.length).zip xs

/-- The schemas listed under a keyword, each with its place. -/
def branches (p : Place) (k : String) (arg : Json) : List (Place × Json) :=
  (indexed ((arg.items?).getD [])).map (fun (i, s) => (p.entry k (toString i), s))

/-- The keyword `properties`. -/
def properties (p : Place) (arg v : Json) : List Finding :=
  match v, arg with
  | .obj members, .obj schemas =>
    schemas.flatMap (fun (name, s) =>
      match Fields.get? members name with
      | some x => r.judge ((p.entry "properties" name).part name) s x
      | none => [])
  | _, _ => []

/-- The schemas of the patterns that match a name, each with its place. -/
def matching (p : Place) (patterns : Fields Json) (name : String) : List (Place × Json) :=
  (patterns.filter (fun e => Pattern.found e.1 name)).map
    (fun (source, s) => ((p.entry "patternProperties" source).part name, s))

/-- The keyword `patternProperties`. -/
def patternProperties (p : Place) (arg v : Json) : List Finding :=
  match v, arg with
  | .obj members, .obj patterns =>
    patterns.flatMap (fun (source, s) =>
      members.flatMap (fun (name, x) =>
        if Pattern.found source name then
          r.judge ((p.entry "patternProperties" source).part name) s x
        else []))
  | _, _ => []

/-- Whether the keyword `additionalProperties` takes the named and the matched properties over. -/
def takesOver (schema : Fields Json) : Bool :=
  match Fields.get? schema "additionalProperties" with
  | some (.bool false) => true
  | some (.obj _) => true
  | _ => false

/-- The keyword `additionalProperties`. Findings are grouped by the members of the value: the schema
of the name, those of the matching patterns, else the additional schema. Without named and matched
properties a false schema rejects the first member, otherwise it reports all unexpected names at
the end. -/
def additionalProperties (p : Place) (schema : Fields Json) (arg v : Json) : List Finding :=
  if !takesOver schema then []
  else
    match v with
    | .obj members =>
      let named := Fields.get? schema "properties"
      let patterns := Fields.get? schema "patternProperties"
      let here := p.keyword "additionalProperties"
      if named.isNone ∧ patterns.isNone ∧ arg = .bool false then
        match members with
        | (_, x) :: _ => [here.report (.falseSchema x)]
        | [] => []
      else
        let own := (named.bind Json.members?).getD []
        let sources := (patterns.bind Json.members?).getD []
        let declared := fun (name : String) (x : Json) =>
          (((Fields.get? own name).map (fun s => ((p.entry "properties" name).part name, s))).toList
            ++ matching p sources name).map (fun (q, s) => (q, s, x))
        let grouped := members.flatMap (fun (name, x) =>
          match declared name x with
          | [] => if arg = .bool false then [] else r.judge (here.part name) arg x
          | known => known.flatMap (fun (q, s, x) => r.judge q s x))
        let unexpected :=
          if arg = .bool false then
            (members.filter (fun (name, x) => (declared name x).isEmpty)).map (·.1)
          else []
        grouped
          ++ (if unexpected.isEmpty then []
              else [here.report (.additionalProperties unexpected)])
    | _ => []

/-- The keyword `propertyNames`: every name is judged as a text, at the place of the object. -/
def propertyNames (p : Place) (arg v : Json) : List Finding :=
  match v, arg with
  | .obj (_ :: _), .bool false => [(p.keyword "propertyNames").report (.falseSchema v)]
  | .obj members, .obj _ =>
    members.flatMap (fun (name, _) => r.judge (p.keyword "propertyNames") arg (.str name))
  | _, _ => []

/-- The keyword `prefixItems`. -/
def leadingItems (p : Place) (arg v : Json) : List Finding :=
  match v with
  | .arr xs =>
    ((branches p "prefixItems" arg).zip (indexed xs)).flatMap
      (fun ((q, s), (i, x)) => r.judge (q.part (toString i)) s x)
  | _ => []

/-- How many items the keyword `prefixItems` takes. -/
def leadingCount (schema : Fields Json) : Nat :=
  (((Fields.get? schema "prefixItems").bind Json.items?).getD []).length

/-- The keyword `items`: every item behind those of `prefixItems`. -/
def remainingItems (p : Place) (schema : Fields Json) (arg v : Json) : List Finding :=
  match v with
  | .arr xs =>
    ((indexed xs).drop (leadingCount schema)).flatMap
      (fun (i, x) => r.judge ((p.keyword "items").part (toString i)) arg x)
  | _ => []

/-- The keyword `contains` with its bounds on the number of matching items. -/
def contains (p : Place) (schema : Fields Json) (arg v : Json) : List Finding :=
  match v with
  | .arr xs =>
    let found := (xs.filter (r.valid (p.keyword "contains") arg)).length
    let least := (Fields.get? schema "minContains").bind Assertion.count?
    let most := (Fields.get? schema "maxContains").bind Assertion.count?
    let report := fun (k : String) => [(p.keyword k).report (.contains v)]
    match least, most with
    | none, none => if found = 0 then report "contains" else []
    | some n, none => if found < n then report "minContains" else []
    | none, some m => if found = 0 ∨ m < found then report "maxContains" else []
    | some n, some m =>
      if m < found then report "maxContains" else if found < n then report "minContains" else []
  | _ => []

/-- The keyword `dependentSchemas`. -/
def dependentSchemas (p : Place) (arg v : Json) : List Finding :=
  match v, arg with
  | .obj members, .obj schemas =>
    schemas.flatMap (fun (name, s) =>
      if Fields.contains members name then r.judge (p.entry "dependentSchemas" name) s v else [])
  | _, _ => []

/-- The keyword `dependencies`: lists of names and schemas. -/
def dependencies (p : Place) (arg v : Json) : List Finding :=
  match v, arg with
  | .obj members, .obj deps =>
    deps.flatMap (fun (name, d) =>
      if Fields.contains members name then
        match d with
        | .arr _ =>
          (Assertion.requiredViolations d v).map (p.keyword "dependencies").report
        | s => r.judge (p.entry "dependencies" name) s v
      else [])
  | _, _ => []

/-! ## Combinations -/

/-- The keyword `anyOf`. -/
def anyOf (p : Place) (arg v : Json) : List Finding :=
  if (branches p "anyOf" arg).any (fun (q, s) => r.valid q s v) then []
  else [(p.keyword "anyOf").report (.anyOf v)]

/-- The keyword `oneOf`. -/
def oneOf (p : Place) (arg v : Json) : List Finding :=
  match (branches p "oneOf" arg).filter (fun (q, s) => r.valid q s v) with
  | [] => [(p.keyword "oneOf").report (.oneOfNone v)]
  | [_] => []
  | _ => [(p.keyword "oneOf").report (.oneOfSeveral v)]

/-- The keyword `if` with its two continuations. -/
def conditional (p : Place) (schema : Fields Json) (arg v : Json) : List Finding :=
  let next := if r.valid (p.keyword "if") arg v then "then" else "else"
  match Fields.get? schema next with
  | some s => r.judge (p.keyword next) s v
  | none => []

/-- The schema a reference means, with its place. A schema that refers to itself demands nothing
more by that. -/
def target? (p : Place) (members : Fields Json) (k : String) (arg : Json) : Option (Place × Json) :=
  match arg with
  | .str reference =>
    match l.lookup p.scope reference with
    | .ok (s, scope) =>
      if s = .obj members then none else some ({ p.keyword k with scope := scope }, s)
    | .error _ => none
  | _ => none

/-- The keywords `$ref` and `$dynamicRef`. -/
def reference (p : Place) (members : Fields Json) (k : String) (arg v : Json) : List Finding :=
  match target? l p members k arg with
  | some (q, s) => r.judge q s v
  | none => []

/-! ## What has been looked at -/

/-- Everything the in-place keywords of a schema have looked at, given what single schemas have. Of
the schemas under `allOf` all have to hold, of those under `anyOf` the valid ones count, and under
`oneOf` the valid one, if there is just one. -/
def inPlace {α : Type} (seen : Place → Json → Json → List α) (p : Place) (schema : Fields Json)
    (v : Json) : List α :=
  let under := fun (k : String) => ((Fields.get? schema k).map (branches p k)).getD []
  let holds := fun (b : Place × Json) => r.valid b.1 b.2 v
  let look := fun (b : Place × Json) => seen b.1 b.2 v
  let refs := ["$ref", "$dynamicRef"].flatMap (fun k =>
    (((Fields.get? schema k).bind (target? l p schema k)).map look).getD [])
  let all := under "allOf"
  let one := (under "oneOf").filter holds
  refs
    ++ (if all.all holds then all.flatMap look else [])
    ++ ((under "anyOf").filter holds).flatMap look
    ++ (if one.length = 1 then one.flatMap look else [])
    ++ (match Fields.get? schema "if" with
        | some c =>
          let next := fun (k : String) =>
            ((Fields.get? schema k).map (fun s => seen (p.keyword k) s v)).getD []
          if r.valid (p.keyword "if") c v then seen (p.keyword "if") c v ++ next "then"
          else next "else"
        | none => [])

/-- The names of the members that a schema has looked at and found valid. -/
def seenKeys (p : Place) (schema v : Json) : List String :=
  match schema, v with
  | .obj members, .obj entries =>
    let p := { p with scope := p.scope.within schema }
    let passing := fun (q : Place) (s : Json) =>
      (entries.filter (fun (name, x) => r.valid (q.part name) s x)).map (·.1)
    let named := (((Fields.get? members "properties").bind Json.members?).getD []).flatMap
      (fun (name, s) =>
        match Fields.get? entries name with
        | some x => if r.valid ((p.entry "properties" name).part name) s x then [name] else []
        | none => [])
    let patterns := ((Fields.get? members "patternProperties").bind Json.members?).getD []
    let matched := entries.flatMap (fun (name, x) =>
      if (matching p patterns name).any (fun (q, s) => r.valid q s x) then [name] else [])
    let whole := ["additionalProperties", "unevaluatedProperties"].flatMap (fun k =>
      ((Fields.get? members k).map (passing (p.keyword k))).getD [])
    let dependent := (((Fields.get? members "dependentSchemas").bind Json.members?).getD []).flatMap
      (fun (name, s) =>
        if Fields.contains entries name then r.keys (p.entry "dependentSchemas" name) s v else [])
    named ++ matched ++ whole ++ dependent ++ inPlace l r r.keys p members v
  | _, _ => []

/-- The keyword `unevaluatedProperties`. -/
def unevaluatedProperties (p : Place) (schema v : Json) : List Finding :=
  match v with
  | .obj entries =>
    let seen := seenKeys l r p schema v
    let left := (Fields.keys entries).filter (fun name => !seen.contains name)
    if left.isEmpty then []
    else [(p.keyword "unevaluatedProperties").report (.unevaluatedProperties left)]
  | _ => []

/-- The indices of the items that a schema has looked at. -/
def seenIndices (p : Place) (schema v : Json) : List Nat :=
  match schema, v with
  | .obj members, .arr xs =>
    let p := { p with scope := p.scope.within schema }
    if Fields.contains members "items" then List.range xs.length
    else
      let whole := ["contains", "unevaluatedItems"].flatMap (fun k =>
        match Fields.get? members k with
        | some s =>
          ((indexed xs).filter
            (fun (i, x) => r.valid ((p.keyword k).part (toString i)) s x)).map (·.1)
        | none => [])
      List.range (leadingCount members) ++ whole ++ inPlace l r r.indices p members v
  | _, _ => []

/-- The keyword `unevaluatedItems`. -/
def unevaluatedItems (p : Place) (schema v : Json) : List Finding :=
  match v with
  | .arr xs =>
    let seen := seenIndices l r p schema v
    let left := (indexed xs).filter (fun (i, _) => !seen.contains i)
    if left.isEmpty then []
    else [(p.keyword "unevaluatedItems").report (.unevaluatedItems (left.map (·.2)))]
  | _ => []

/-! ## Schemas -/

/-- Keywords that mean something in a document of any specification. -/
def universal : List String := ["$ref", "$dynamicRef", "format"]

/-- What a value violates of one keyword. -/
def keywordFindings (p : Place) (members : Fields Json) (k : String) (arg v : Json) :
    List Finding :=
  if !p.scope.known && !universal.contains k then []
  else
    match k with
    | "$ref" => reference l r p members k arg v
    | "$dynamicRef" => reference l r p members k arg v
    | "additionalProperties" => additionalProperties r p members arg v
    | "allOf" => (branches p k arg).flatMap (fun (q, s) => r.judge q s v)
    | "anyOf" => anyOf r p arg v
    | "contains" => contains r p members arg v
    | "dependencies" => dependencies r p arg v
    | "dependentSchemas" => dependentSchemas r p arg v
    | "if" => conditional r p members arg v
    | "items" => remainingItems r p members arg v
    | "not" => if r.valid (p.keyword k) arg v then [(p.keyword k).report (.negated arg v)] else []
    | "oneOf" => oneOf r p arg v
    | "patternProperties" => if takesOver members then [] else patternProperties r p arg v
    | "prefixItems" => leadingItems r p arg v
    | "properties" => if takesOver members then [] else properties r p arg v
    | "propertyNames" => propertyNames r p arg v
    | "unevaluatedItems" => unevaluatedItems l r p (.obj members) v
    | "unevaluatedProperties" => unevaluatedProperties l r p (.obj members) v
    | _ => (Assertion.violations k arg v).map (p.keyword k).report

/-- What a value violates of a schema. -/
def findings (p : Place) (schema v : Json) : List Finding :=
  match schema with
  | .bool true => []
  | .bool false => [p.report (.falseSchema v)]
  | .obj members =>
    let p := { p with scope := p.scope.within schema }
    members.flatMap (fun (k, arg) => keywordFindings l r p members k arg v)
  | _ => []

/-- The rules that follow at most so many steps from schema to schema. -/
def rules : Nat → Rules
  | 0 => ⟨fun p _ _ => [p.report .unending], fun _ _ _ => [], fun _ _ _ => []⟩
  | n + 1 =>
    ⟨fun p schema v => findings l (rules n) p schema v,
      fun p schema v => seenKeys l (rules n) p schema v,
      fun p schema v => seenIndices l (rules n) p schema v⟩

end Evaluation

/-- A schema together with the library its references are read in. -/
structure Evaluator where
  library : Library
  base : String
  root : Json

namespace Evaluator

/-- The place of the root. -/
def start (e : Evaluator) : Evaluation.Place :=
  ⟨⟨e.base, [], Library.followsSpecification e.root⟩, "", ""⟩

/-- As many steps as there are schemas, for every level of the value. -/
def steps (e : Evaluator) (v : Json) : Nat := (v.depth + 2) * (e.library.size + e.root.size + 2)

/-- Everything a value violates. -/
def findings (e : Evaluator) (v : Json) : List Finding :=
  (Evaluation.rules e.library (e.steps v)).judge e.start e.root v

/-- Whether a value violates nothing. -/
def accepts (e : Evaluator) (v : Json) : Bool := (e.findings v).isEmpty

end Evaluator

end HttpContract
