import HttpContract.Schema.Engine

/-!
# Rendering by schema

A response body can be rendered by its schema instead of being validated. Declared properties come
first, in ascending order; others are kept only where a pattern or `additionalProperties` admits
them. Scalars are converted to their declared types, and required properties have to be there.

`Engine.stringify` writes the text piece by piece, as it goes through the value. `Engine.render`
gives the document that is written; its members stand in the order of writing.
-/

namespace HttpContract

namespace Rendering

/-- What a plan and the branches of its `allOf` say about an object. -/
structure Shape where
  /-- Whether anything is said at all. -/
  declared : Bool
  /-- Declared properties; the first declaration counts. -/
  properties : Fields Node
  patterns : List (String × Node)
  required : Fields Unit
  /-- The schema of other properties; the first one counts. -/
  additional : Option Node
  /-- Whether other properties are admitted as they are. -/
  allowAll : Bool

namespace Shape

/-- Nothing said. -/
def empty : Shape := ⟨false, [], [], [], none, false⟩

/-- Whether a plan itself says anything about objects. -/
def speaks (p : Plan Node) : Bool :=
  p.hasObjectKeywords || !p.required.isEmpty
    || (match p.additional with
        | .unspecified => false
        | _ => true)

/-- Add a declaration, unless the name is declared already. -/
def declare (known : Fields Node) (entry : String × Node) : Fields Node :=
  if Fields.contains known entry.1 then known else Fields.insert known entry.1 entry.2

/-- Add what a plan says itself. -/
def add (s : Shape) (p : Plan Node) : Shape :=
  { declared := s.declared || speaks p
    properties := p.properties.foldl declare s.properties
    patterns := s.patterns ++ p.patterns
    required := p.required.foldl (fun names name => Fields.insert names name ()) s.required
    additional := match s.additional, p.additional with
      | none, .schema n => some n
      | known, _ => known
    allowAll := s.allowAll || (match p.additional with
      | .allowed => true
      | _ => false) }

/-- How an undeclared member is rendered: along a node or as it is; `none` if it is left out. -/
def other? (s : Shape) (key : String) : Option (Option Node) :=
  match s.patterns.find? (fun e => Pattern.found e.1 key) with
  | some (_, n) => some (some n)
  | none =>
    match s.additional with
    | some n => some (some n)
    | none => if s.allowAll then some none else none

/-- The declared members that an object has, each with its node, in the order of declaration. -/
def declaredMembers (s : Shape) (members : Fields Json) : Fields (Option Node × Json) :=
  s.properties.filterMap
    (fun (name, n) => (Fields.get? members name).map (fun v => (name, some n, v)))

/-- The other members that are rendered, each with its node if it has one. -/
def otherMembers (s : Shape) (members : Fields Json) : Fields (Option Node × Json) :=
  members.filterMap (fun (key, v) =>
    if Fields.contains s.properties key then none
    else (s.other? key).map (fun n => (key, n, v)))

end Shape

/-- The outcome of rendering; `none` if the steps did not suffice. -/
abbrev Outcome (α : Type) := Option (Except RenderError α)

variable (e : Engine)

/-- Add what a node and its branches say to a shape. -/
def collect : (fuel : Nat) → Node → Shape → Option Shape
  | 0, _, _ => none
  | fuel + 1, .plan p, s => p.allOf.foldlM (fun s n => collect fuel n s) (s.add p)
  | fuel + 1, n, s =>
    match e.resolve? n with
    | some c => collect fuel c.root s
    | none => some s

/-- Render parts one after the other and stop at the first error. -/
def sequence {α β : Type} (write : α → Outcome β) : List α → Outcome (List β)
  | [] => some (.ok [])
  | x :: rest =>
    match write x with
    | none => none
    | some (.error err) => some (.error err)
    | some (.ok here) =>
      match sequence write rest with
      | none => none
      | some (.error err) => some (.error err)
      | some (.ok others) => some (.ok (here :: others))

/-- Render a member along its node; one without node stays as it is. -/
def member (write : Node → String → Json → Outcome Json) (path : String) :
    String × Option Node × Json → Outcome (String × Json)
  | (key, some n, v) =>
    (write n (Json.Pointer.child path key) v).map (fun r => r.map (fun x => (key, x)))
  | (key, none, v) => some (.ok (key, v))

/-- Render an object by its shape. -/
def object (write : Node → String → Json → Outcome Json) (s : Shape) (path : String)
    (members : Fields Json) : Outcome Json :=
  match (Fields.keys s.required).find? (fun name => !Fields.contains members name) with
  | some missing => some (.error (.missingRequired path missing))
  | none =>
    (sequence (member write path) (s.declaredMembers members ++ s.otherMembers members)).map
      (fun r => r.map .obj)

/-- Render an item along its node; one without node stays as it is. -/
def item (write : Node → String → Json → Outcome Json) (p : Plan Node) (path : String)
    (m : Nat × Json) : Outcome Json :=
  match (p.leading[m.1]?).or p.items with
  | some n => write n (Json.Pointer.childIndex path m.1) m.2
  | none => some (.ok m.2)

/-- Render the items of a list. -/
def list (write : Node → String → Json → Outcome Json) (p : Plan Node) (path : String)
    (items : List Json) : Outcome Json :=
  (sequence (item write p path) ((List.range items.length).zip items)).map
    (fun r => r.map .arr)

/-- Render a value along a node; a reference that leads nowhere leaves it as it is. -/
def write : (fuel : Nat) → Node → (path : String) → Json → Outcome Json
  | 0, _, _, _ => none
  | fuel + 1, .plan p, path, v =>
    let value? := if p.types.isEmpty then some v else coerceAny? v p.types
    match value? with
    | none => some (.error (.coercion path p.types))
    | some (.obj members) =>
      match collect e (fuel + 1) (.plan p) Shape.empty with
      | none => none
      | some shape =>
        if shape.declared then object (write fuel) shape path members else some (.ok (.obj members))
    | some (.arr items) =>
      if p.leading.isEmpty ∧ p.items.isNone then some (.ok (.arr items))
      else list (write fuel) p path items
    | some other => some (.ok other)
  | fuel + 1, n, path, v =>
    match e.resolve? n with
    | some s => write fuel s.root path v
    | none => some (.ok v)

/-! ## Texts -/

/-- Write a comma, unless nothing is to be separated yet. -/
def comma (first : Bool) (out : String) : String := if first then out else out ++ ","

/-- Write the key of a member. -/
def writeKey (key : String) (first : Bool) (out : String) : String :=
  comma first out ++ Json.quote key ++ ":"

/-- Write a value as it is. -/
def writeRaw (v : Json) (out : String) : String := out ++ v.render

/-- Write parts one after the other and stop at the first error. -/
def entriesText {α : Type} (put : (first : Bool) → α → (out : String) → Outcome String) :
    (first : Bool) → List α → (out : String) → Outcome String
  | _, [], out => some (.ok out)
  | first, x :: rest, out =>
    match put first x out with
    | some (.ok out) => entriesText put false rest out
    | stopped => stopped

/-- Write a member: its key, and its value along its node. -/
def memberText (put : Node → String → Json → String → Outcome String) (path : String)
    (first : Bool) : String × Option Node × Json → (out : String) → Outcome String
  | (key, some n, v), out => put n (Json.Pointer.child path key) v (writeKey key first out)
  | (key, none, v), out => some (.ok (writeRaw v (writeKey key first out)))

/-- Write an object by its shape. -/
def objectText (put : Node → String → Json → String → Outcome String) (s : Shape) (path : String)
    (members : Fields Json) (out : String) : Outcome String :=
  match (Fields.keys s.required).find? (fun name => !Fields.contains members name) with
  | some missing => some (.error (.missingRequired path missing))
  | none =>
    (entriesText (memberText put path) true (s.declaredMembers members ++ s.otherMembers members)
      (out ++ "\x7b")).map (fun r => r.map (fun out => out ++ "\x7d"))

/-- Write an item along its node. -/
def itemText (put : Node → String → Json → String → Outcome String) (p : Plan Node)
    (path : String) (first : Bool) (m : Nat × Json) (out : String) : Outcome String :=
  match (p.leading[m.1]?).or p.items with
  | some n => put n (Json.Pointer.childIndex path m.1) m.2 (comma first out)
  | none => some (.ok (writeRaw m.2 (comma first out)))

/-- Write the items of a list. -/
def listText (put : Node → String → Json → String → Outcome String) (p : Plan Node)
    (path : String) (items : List Json) (out : String) : Outcome String :=
  (entriesText (itemText put p path) true ((List.range items.length).zip items)
    (out ++ "[")).map (fun r => r.map (fun out => out ++ "]"))

/-- Write the text of a value along a node behind what is written already. -/
def text : (fuel : Nat) → Node → (path : String) → Json → (out : String) → Outcome String
  | 0, _, _, _, _ => none
  | fuel + 1, .plan p, path, v, out =>
    let value? := if p.types.isEmpty then some v else coerceAny? v p.types
    match value? with
    | none => some (.error (.coercion path p.types))
    | some (.obj members) =>
      match collect e (fuel + 1) (.plan p) Shape.empty with
      | none => none
      | some shape =>
        if shape.declared then objectText (text fuel) shape path members out
        else some (.ok (writeRaw (.obj members) out))
    | some (.arr items) =>
      if p.leading.isEmpty ∧ p.items.isNone then some (.ok (writeRaw (.arr items) out))
      else listText (text fuel) p path items out
    | some other => some (.ok (writeRaw other out))
  | fuel + 1, n, path, v, out =>
    match e.resolve? n with
    | some s => text fuel s.root path v out
    | none => some (.ok (writeRaw v out))

end Rendering

/-- The document written for a value under a schema. Rendering only goes down into the value, so it
ends for every accepted registry; an error would stand for that it does not. -/
def Engine.render (e : Engine) (s : CompiledSchema) (v : Json) : Except RenderError Json :=
  match firstOutcome (fun fuel => Rendering.write e fuel s.root "" v) (e.budget s v) with
  | some outcome => outcome
  | none => .error (.coercion "" [])

/-- The text written for a value under a schema. It ends for every accepted registry as well. -/
def Engine.stringify (e : Engine) (s : CompiledSchema) (v : Json) : Except RenderError String :=
  match firstOutcome (fun fuel => Rendering.text e fuel s.root "" v "") (e.budget s v) with
  | some outcome => outcome
  | none => .error (.coercion "" [])

end HttpContract
