import HttpContract.Fields
import HttpContract.Yaml.Token

/-!
# Nodes of a YAML document

A document is a tree of scalars, sequences and mappings. A node can carry a tag and an anchor, and
an alias stands for the node with the anchor of its name. `Document.ofTokens?` reads the tokens of
a stream that holds one document at most.

Anchors are numbered. The number of an anchor is that of the names known before it, so an anchor
whose name was known already takes the number of the next new name, and the node that was numbered
last stands for all aliases of its number.
-/

namespace HttpContract.Yaml

/-- A node of a document. -/
inductive Node where
  | scalar (text : String) (style : Style) (tag : Option String)
  | sequence (items : List Node) (tag : Option String)
  | mapping (entries : List (Node × Node)) (tag : Option String)
  /-- The node that is numbered so. -/
  | alias (number : Nat)
deriving Inhabited

namespace Node

/-- A scalar that is left out. -/
def missing : Node := .scalar "" .plain none

mutual

/-- How many marks a node is made of: one for a scalar or an alias, two more for a collection. -/
def marks : Node → Nat
  | .sequence items _ => marksOfItems items + 2
  | .mapping entries _ => marksOfEntries entries + 2
  | _ => 1
termination_by structural n => n

/-- The marks of the items together. -/
def marksOfItems : List Node → Nat
  | [] => 0
  | n :: rest => marks n + marksOfItems rest
termination_by structural n => n

/-- The marks of the keys and the values together. -/
def marksOfEntries : List (Node × Node) → Nat
  | [] => 0
  | (k, v) :: rest => marks k + marks v + marksOfEntries rest
termination_by structural n => n

end

end Node

/-- A document. -/
structure Document where
  /-- None if the stream is empty. -/
  root : Option Node
  /-- The nodes with anchors, each with its number; later ones come first. -/
  numbered : List (Nat × Node)

namespace Document

/-! ## Anchors and tags -/

/-- What has been declared so far. -/
structure Names where
  /-- The numbers of the anchors' names. -/
  anchors : Fields Nat
  numbered : List (Nat × Node)
  /-- What the handles of tags stand for. -/
  handles : Fields String

/-- A reader of tokens. -/
abbrev Reader (α : Type) := Names → List Token → Option (α × Names × List Token)

/-- The properties of a node. -/
structure Properties where
  anchor : Option String
  tag : Option String

/-- The full form of a tag. -/
def fullTag? (names : Names) (t : WrittenTag) : Option String :=
  if t.handle.isEmpty then some t.suffix
  else (Fields.get? names.handles t.handle).map (· ++ t.suffix)

/-- Read an anchor and a tag, in any order, each of which can be left out. -/
def properties (names : Names) : List Token → Option (Properties × List Token)
  | .anchor a :: .tag t :: rest => (fullTag? names t).map (fun tag => (⟨some a, some tag⟩, rest))
  | .tag t :: .anchor a :: rest => (fullTag? names t).map (fun tag => (⟨some a, some tag⟩, rest))
  | .anchor a :: rest => some (⟨some a, none⟩, rest)
  | .tag t :: rest => (fullTag? names t).map (fun tag => (⟨none, some tag⟩, rest))
  | rest => some (⟨none, none⟩, rest)

/-- Give an anchor its number. -/
def Names.declare (names : Names) : Option String → Names × Option Nat
  | none => (names, none)
  | some a =>
    let number := names.anchors.length
    ({ names with anchors := Fields.insert names.anchors a number }, some number)

/-- Note the node of a number. -/
def Names.number (names : Names) (number : Option Nat) (n : Node) : Names :=
  match number with
  | some i => { names with numbered := (i, n) :: names.numbered }
  | none => names

/-- The tag of a scalar; a lone mark says as much as none. -/
def scalarTag (tag : Option String) : Option String := if tag = some "!" then none else tag

/-! ## Nodes -/

/-- Whether no node of a block mapping starts with a token. -/
def endsBlock : List Token → Bool
  | .key :: _ => true
  | .value :: _ => true
  | .blockEnd :: _ => true
  | _ => false

mutual

/-- Read a node. Block collections are possible in `block`; a sequence that is not indented more
than the mapping around it is possible as its key or value. -/
def node : (fuel : Nat) → (block unindented : Bool) → Reader Node
  | 0, _, _, _, _ => none
  | fuel + 1, block, unindented, names, tokens =>
    match tokens with
    | .alias name :: rest =>
      (Fields.get? names.anchors name).map (fun number => (.alias number, names, rest))
    | _ => do
      let (p, rest) ← properties names tokens
      let (names, number) := names.declare p.anchor
      let (n, names, rest) ←
        match rest with
        | .blockEntry :: _ =>
          if unindented then
            (unindentedItems fuel [] names rest).map (fun (xs, r) => (.sequence xs p.tag, r))
          else if p.anchor.isSome || p.tag.isSome then
            some (.scalar "" .plain (scalarTag p.tag), names, rest)
          else none
        | .scalar text style :: rest => some (.scalar text style (scalarTag p.tag), names, rest)
        | .flowSequenceStart :: rest =>
          (flowItems fuel true [] names rest).map (fun (xs, r) => (.sequence xs p.tag, r))
        | .flowMappingStart :: rest =>
          (flowEntries fuel true [] names rest).map (fun (xs, r) => (.mapping xs p.tag, r))
        | rest =>
          match block, rest with
          | true, .sequenceStart :: rest =>
            (blockItems fuel [] names rest).map (fun (xs, r) => (.sequence xs p.tag, r))
          | true, .mappingStart :: rest =>
            (blockEntries fuel [] names rest).map (fun (xs, r) => (.mapping xs p.tag, r))
          | _, _ =>
            if p.anchor.isSome || p.tag.isSome then
              some (.scalar "" .plain (scalarTag p.tag), names, rest)
            else none
      return (n, names.number number n, rest)

/-- Read the items of a block sequence up to its end. -/
def blockItems : (fuel : Nat) → List Node → Reader (List Node)
  | 0, _, _, _ => none
  | fuel + 1, done, names, tokens =>
    match tokens with
    | .blockEnd :: rest => some (done.reverse, names, rest)
    | .blockEntry :: rest =>
      match rest with
      | .blockEntry :: _ => blockItems fuel (.missing :: done) names rest
      | .blockEnd :: _ => blockItems fuel (.missing :: done) names rest
      | _ => do
        let (n, names, rest) ← node fuel true false names rest
        blockItems fuel (n :: done) names rest
    | _ => none

/-- Read the items of a sequence that is not indented. -/
def unindentedItems : (fuel : Nat) → List Node → Reader (List Node)
  | 0, _, _, _ => none
  | fuel + 1, done, names, tokens =>
    match tokens with
    | .blockEntry :: rest =>
      match rest with
      | .blockEntry :: _ => unindentedItems fuel (.missing :: done) names rest
      | _ =>
        if endsBlock rest then unindentedItems fuel (.missing :: done) names rest
        else do
          let (n, names, rest) ← node fuel true false names rest
          unindentedItems fuel (n :: done) names rest
    | rest => some (done.reverse, names, rest)

/-- Read the entries of a block mapping up to its end. -/
def blockEntries : (fuel : Nat) → List (Node × Node) → Reader (List (Node × Node))
  | 0, _, _, _ => none
  | fuel + 1, done, names, tokens =>
    match tokens with
    | .blockEnd :: rest => some (done.reverse, names, rest)
    | .key :: rest => do
      let (k, names, rest) ←
        if endsBlock rest then some (Node.missing, names, rest) else node fuel true true names rest
      let (v, names, rest) ← blockValue fuel names rest
      blockEntries fuel ((k, v) :: done) names rest
    | .value :: _ => none
    | _ => none

/-- Read the value of an entry of a block mapping. -/
def blockValue : (fuel : Nat) → Reader Node
  | 0, _, _ => none
  | fuel + 1, names, tokens =>
    match tokens with
    | .value :: rest =>
      if endsBlock rest then some (Node.missing, names, rest) else node fuel true true names rest
    | rest => some (Node.missing, names, rest)

/-- Read the items between brackets; behind the first, commas separate them. -/
def flowItems : (fuel : Nat) → (first : Bool) → List Node → Reader (List Node)
  | 0, _, _, _, _ => none
  | fuel + 1, first, done, names, tokens =>
    match first, tokens with
    | _, .flowSequenceEnd :: rest => some (done.reverse, names, rest)
    | true, rest => flowItem fuel done names rest
    | false, .flowEntry :: rest => flowItem fuel done names rest
    | false, _ => none

/-- Read an item between brackets, which can be a single entry of a mapping, or their end. -/
def flowItem : (fuel : Nat) → List Node → Reader (List Node)
  | 0, _, _, _ => none
  | fuel + 1, done, names, tokens =>
    match tokens with
    | .flowSequenceEnd :: rest => some (done.reverse, names, rest)
    | .key :: rest => do
      let (k, names, rest) ←
        match rest with
        | .value :: rest => some (Node.missing, names, rest)
        | .flowEntry :: rest => some (Node.missing, names, rest)
        | .flowSequenceEnd :: rest => some (Node.missing, names, rest)
        | rest => node fuel false false names rest
      let (v, names, rest) ←
        match rest with
        | .value :: rest =>
          match rest with
          | .flowEntry :: _ => some (Node.missing, names, rest)
          | .flowSequenceEnd :: _ => some (Node.missing, names, rest)
          | _ => node fuel false false names rest
        | rest => some (Node.missing, names, rest)
      flowItems fuel false (.mapping [(k, v)] none :: done) names rest
    | rest => do
      let (n, names, rest) ← node fuel false false names rest
      flowItems fuel false (n :: done) names rest

/-- Read the entries between braces; behind the first, commas separate them. -/
def flowEntries : (fuel : Nat) → (first : Bool) → List (Node × Node) → Reader (List (Node × Node))
  | 0, _, _, _, _ => none
  | fuel + 1, first, done, names, tokens =>
    match first, tokens with
    | _, .flowMappingEnd :: rest => some (done.reverse, names, rest)
    | true, rest => flowEntry fuel done names rest
    | false, .flowEntry :: rest => flowEntry fuel done names rest
    | false, _ => none

/-- Read an entry between braces, or their end. -/
def flowEntry : (fuel : Nat) → List (Node × Node) → Reader (List (Node × Node))
  | 0, _, _, _ => none
  | fuel + 1, done, names, tokens =>
    match tokens with
    | .flowMappingEnd :: rest => some (done.reverse, names, rest)
    | .key :: rest => do
      let (k, names, rest) ←
        match rest with
        | .value :: _ => some (Node.missing, names, rest)
        | .flowEntry :: _ => some (Node.missing, names, rest)
        | .flowMappingEnd :: _ => some (Node.missing, names, rest)
        | _ => node fuel false false names rest
      let (v, names, rest) ←
        match rest with
        | .value :: rest =>
          match rest with
          | .flowEntry :: _ => some (Node.missing, names, rest)
          | .flowMappingEnd :: _ => some (Node.missing, names, rest)
          | _ => node fuel false false names rest
        | rest => some (Node.missing, names, rest)
      flowEntries fuel false ((k, v) :: done) names rest
    | rest => do
      let (k, names, rest) ← node fuel false false names rest
      flowEntries fuel false ((k, .missing) :: done) names rest

end

/-! ## Documents -/

/-- Read the directives of a document: at most one version, which has to be known, and handles of
tags, each declared once. -/
def directives : (versions : Nat) → Fields String → List Token → Option (Fields String × List Token)
  | versions, handles, .version major minor :: rest =>
    if versions = 0 ∧ major = 1 ∧ (minor = 1 ∨ minor = 2) then directives 1 handles rest else none
  | versions, handles, .shorthand handle beginning :: rest =>
    if Fields.contains handles handle then none
    else directives versions (Fields.insert handles handle beginning) rest
  | _, handles, rest =>
    let standard := fun (m : Fields String) (handle beginning : String) =>
      if Fields.contains m handle then m else Fields.insert m handle beginning
    some (standard (standard handles "!" "!") "!!" "tag:yaml.org,2002:", rest)

/-- Whether the tokens start a document with directives or a mark. -/
def isExplicit : List Token → Bool
  | .version .. :: _ => true
  | .shorthand .. :: _ => true
  | .documentStart :: _ => true
  | _ => false

/-- Whether a document without contents ends before the tokens. -/
def isBare : List Token → Bool
  | [] => true
  | .documentEnd :: _ => true
  | rest => isExplicit rest

/-- Read the tokens of a stream of one document at most. -/
def ofTokens? (tokens : List Token) : Option Document :=
  if tokens.isEmpty then some ⟨none, []⟩
  else do
    let explicit := isExplicit tokens
    let (handles, rest) ← directives 0 [] tokens
    let rest ← match explicit, rest with
      | true, .documentStart :: rest => some rest
      | true, _ => none
      | false, rest => some rest
    let names : Names := ⟨[], [], handles⟩
    let (root, names, rest) ←
      if explicit && isBare rest then some (Node.missing, names, rest)
      else node (3 * rest.length + 3) true false names rest
    if rest.all (· == .documentEnd) then return ⟨some root, names.numbered⟩ else none

/-- Read a stream of one document at most, or nothing if it is malformed. -/
def read? (stream : String) : Option Document := (Token.scan? stream).bind ofTokens?

/-- The node of a number. -/
def node? (d : Document) (number : Nat) : Option Node :=
  (d.numbered.find? (fun e => e.1 == number)).map (·.2)

end Document

end HttpContract.Yaml
