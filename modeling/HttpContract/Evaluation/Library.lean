import HttpContract.Json.Pointer
import HttpContract.Text.Percent
import HttpContract.Text.Uri

/-!
# Libraries of schema documents

A library holds schema documents under their identifiers, together with the anchors declared in
them, so that references between schemas can be followed. It is closed: nothing is fetched, and a
reference to a document that is not in the library is an error.
-/

namespace HttpContract

/-- A schema document under its identifier. -/
structure Resource where
  uri : String
  contents : Json
deriving DecidableEq

/-- Why a reference leads nowhere. -/
inductive ReferenceError where
  | noPointer (pointer : String)
  | badIndex (pointer token : String)
  | noAnchor (name : String)
  | badAnchor (name : String)
  /-- No document has this identifier, and identifiers of this scheme cannot be fetched. -/
  | unknownScheme (uri scheme : String)
  /-- No document has this identifier, and the library is complete. -/
  | notPresent (uri : String)
deriving DecidableEq, Repr

/-- The wording of the error. -/
def ReferenceError.message : ReferenceError → String
  | .noPointer pointer => s!"Pointer '{pointer}' does not exist"
  | .badIndex pointer token => s!"Failed to parse array index '{token}' in pointer '{pointer}'"
  | .noAnchor name => s!"Anchor '{name}' does not exist"
  | .badAnchor name => s!"Anchor '{name}' is invalid"
  | .unknownScheme uri scheme =>
    s!"Resource '{uri}' is not present in a registry and retrieving it failed: "
      ++ s!"Unknown scheme {scheme}"
  | .notPresent uri =>
    s!"Resource '{uri}' is not present in a registry and retrieving it failed: " ++
      "Retrieving external resources is not supported once the registry is populated"

/-- A named place in a document; a dynamic anchor can be taken over by an outer document. -/
structure Anchor where
  uri : String
  name : String
  dynamic : Bool
  contents : Json

/-- Documents and anchors. -/
structure Library where
  documents : List Resource
  anchors : List Anchor

namespace Library

/-! ## Schemas within schemas -/

/-- Keywords whose value is a schema. -/
def schemaKeywords : List String :=
  ["additionalProperties", "contains", "contentSchema", "else", "if", "items", "not",
    "propertyNames", "then", "unevaluatedItems", "unevaluatedProperties"]

/-- Keywords whose value is a list of schemas. -/
def listKeywords : List String := ["allOf", "anyOf", "oneOf", "prefixItems"]

/-- Keywords whose value is an object of schemas. -/
def mapKeywords : List String :=
  ["$defs", "definitions", "dependentSchemas", "patternProperties", "properties"]

/-- The schemas directly within a schema. -/
def subschemas (schema : Json) : List Json :=
  ((schema.members?).getD []).flatMap (fun (k, v) =>
    if schemaKeywords.contains k then [v]
    else if listKeywords.contains k then (v.items?).getD []
    else if mapKeywords.contains k then Fields.values ((v.members?).getD [])
    else [])

/-- An identifier without an empty fragment. -/
def trimmed (uri : String) : String :=
  if uri.endsWith "#" then String.ofList uri.toList.dropLast else uri

/-- The identifier that a reference means within a document. -/
def absolute (base reference : String) : String :=
  trimmed (Uri.resolve (Uri.split base) (Uri.split reference)).text

/-- The text of a keyword. -/
def keywordText? (schema : Json) (keyword : String) : Option String :=
  (schema.get? keyword).bind Json.text?

/-- The identifier in force within a schema. -/
def baseOf (base : String) (schema : Json) : String :=
  match keywordText? schema "$id" with
  | some id => absolute base id
  | none => base

/-- What a document declares: documents within it, anchors, and references to other documents. -/
structure Declared where
  documents : List Resource
  anchors : List Anchor
  references : List String

/-- Join two lists of declarations. -/
def Declared.append (a b : Declared) : Declared :=
  ⟨a.documents ++ b.documents, a.anchors ++ b.anchors, a.references ++ b.references⟩

/-- Whether a reference stays within its document or names a known specification. -/
def isInternal (reference : String) : Bool :=
  reference.startsWith "#"
    || ["https://json-schema.org/draft/2020-12/", "https://json-schema.org/draft/2019-09/",
        "http://json-schema.org/draft-07/", "http://json-schema.org/draft-06/",
        "http://json-schema.org/draft-04/"].any (fun known => reference.startsWith known)

/-- What a schema declares itself, under the identifier in force within it. -/
def declaredHere (base : String) (schema : Json) : Declared :=
  { documents := if (keywordText? schema "$id").isSome then [⟨base, schema⟩] else []
    anchors :=
      ((keywordText? schema "$anchor").map (fun n => Anchor.mk base n false schema)).toList
        ++ ((keywordText? schema "$dynamicAnchor").map
              (fun n => Anchor.mk base n true schema)).toList
    references :=
      if (Uri.split base).scheme = some "urn" then []
      else
        ((keywordText? schema "$ref").toList ++ (keywordText? schema "$schema").toList).filterMap
          (fun r => if isInternal r then none else some (absolute base r)) }

/-- What a schema and the schemas within it declare; `fuel` bounds their nesting. -/
def declared : (fuel : Nat) → (base : String) → Json → Declared
  | 0, _, _ => ⟨[], [], []⟩
  | fuel + 1, base, schema =>
    let base := baseOf base schema
    (subschemas schema).foldl (fun acc s => acc.append (declared fuel base s))
      (declaredHere base schema)

/-! ## Building -/

/-- An identifier without its fragment. -/
def withoutFragment (uri : String) : String := { Uri.split uri with fragment := none }.text

/-- The document with the given identifier; of two the one added last. -/
def document? (l : Library) (uri : String) : Option Json :=
  (l.documents.find? (fun r => r.uri == uri)).map (·.contents)

/-- A library without documents. -/
def empty : Library := ⟨[], []⟩

/-- Add the given documents and those within them to a library. Every reference from one of them to
another document has to name one. -/
def extend (l : Library) (resources : List Resource) : Except ReferenceError Library :=
  let found := resources.foldl (fun (acc : Declared) r =>
    acc.append (declared (r.contents.depth + 1) r.uri r.contents)) ⟨[], [], []⟩
  let library : Library :=
    ⟨found.documents.reverse ++ resources.reverse ++ l.documents, found.anchors ++ l.anchors⟩
  match found.references.find? (fun r => (library.document? (withoutFragment r)).isNone) with
  | some r =>
    let uri := withoutFragment r
    .error (.unknownScheme uri (((Uri.split uri).scheme).getD ""))
  | none => .ok library

/-! ## Following references -/

/-- Where references are read: the identifier in force, the documents that led here, the innermost
first, and whether the document follows the specification in force. -/
structure Scope where
  base : String
  outer : List String
  known : Bool
deriving DecidableEq

/-- The scope within another document. -/
def Scope.enter (s : Scope) (uri : String) : Scope :=
  { s with
    base := uri
    outer := if s.base ≠ "" ∧ (s.outer.isEmpty ∨ s.base ≠ uri) then s.base :: s.outer else s.outer }

/-- The scope within a schema, which may have an identifier of its own. -/
def Scope.within (s : Scope) (schema : Json) : Scope :=
  match keywordText? schema "$id" with
  | some id => s.enter (absolute s.base id)
  | none => s

/-- The specification in force. -/
def specification : String := "https://json-schema.org/draft/2020-12/schema"

/-- Whether a document names the specification in force, or none. -/
def followsSpecification (schema : Json) : Bool :=
  match keywordText? schema "$schema" with
  | some s => trimmed s == specification
  | none => true

/-- Follow the tokens of a pointer. -/
def followPointer (pointer : String) :
    Json → Scope → List String → Except ReferenceError (Json × Scope)
  | v, s, [] => .ok (v, s)
  | v, s, token :: rest =>
    match v with
    | .arr xs =>
      match token.toNat? with
      | none => .error (.badIndex pointer token)
      | some i =>
        match xs[i]? with
        | some w => followPointer pointer w (s.within w) rest
        | none => .error (.noPointer pointer)
    | _ =>
      match v.get? (String.ofList (Json.Pointer.unescape token.toList)) with
      | some w => followPointer pointer w (s.within w) rest
      | none => .error (.noPointer pointer)

/-- The anchor with a name in a document. -/
def anchor? (l : Library) (uri name : String) : Option Anchor :=
  l.anchors.find? (fun a => a.uri == uri && a.name == name)

/-- The schema an anchor means: a dynamic one is taken over by the outermost document that declares
it too. -/
def anchored (l : Library) (a : Anchor) (s : Scope) : Json × Scope :=
  if a.dynamic then
    s.outer.foldl
      (fun acc uri =>
        match l.anchor? uri a.name with
        | some b => if b.dynamic then (b.contents, s.enter b.uri) else acc
        | none => acc)
      (a.contents, s)
  else (a.contents, s)

/-- The schema a reference means, and the scope within it. -/
def lookup (l : Library) (s : Scope) (reference : String) :
    Except ReferenceError (Json × Scope) := do
  let (front, fragment) := Uri.cutAt (· == '#') reference.toList
  let uri :=
    if front.isEmpty then s.base else withoutFragment (absolute s.base (String.ofList front))
  let fragment := String.ofList (fragment.getD [])
  match l.document? uri with
  | none => throw (.notPresent uri)
  | some contents =>
    let (target, scope) ←
      if fragment.startsWith "/" then
        let decoded := (Percent.decodeText? fragment).getD fragment
        followPointer fragment contents (s.enter uri) ((Uri.segments decoded).drop 1)
      else if fragment = "" then pure (contents, s.enter uri)
      else
        match l.anchor? uri fragment with
        | some a => pure (l.anchored a (s.enter uri))
        | none =>
          throw (if fragment.toList.contains '/' then .badAnchor fragment else .noAnchor fragment)
    return (target, { scope with known := followsSpecification target })

/-- How many schemas the documents hold at most. -/
def size (l : Library) : Nat := l.documents.foldl (fun n r => n + r.contents.size) 0

end Library

end HttpContract
