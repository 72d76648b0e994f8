import HttpContract.Schema.CompileError

/-!
# Registries of named schemas

Schemas that refer to each other cannot be written down one inside the other. A registry breaks the
circle: names are declared first and get handles, schemas name handles through markers, and each
handle is given its schema once, in any order.
-/

namespace HttpContract

/-- A declared name and the schema defined for it, if any. -/
structure Registry.Entry where
  name : String
  schema : Option Fragment
deriving DecidableEq

/-- Declared names in the order of their handles. -/
structure Registry where
  entries : List Registry.Entry
deriving DecidableEq

namespace Registry

/-- Nothing declared. -/
def empty : Registry := ⟨[]⟩

instance : Inhabited Registry := ⟨empty⟩

/-- The handle of the first entry with a name. -/
def lookup (r : Registry) (name : String) : Option Nat :=
  r.entries.findIdx? (fun e => e.name == name)

/-- The name a handle was declared with. -/
def name? (r : Registry) (handle : Nat) : Option String := (r.entries[handle]?).map (·.name)

/-- The schema defined for a handle. -/
def get? (r : Registry) (handle : Nat) : Option Fragment := (r.entries[handle]?).bind (·.schema)

/-- Whether a handle has been given a schema. -/
def isDefined (r : Registry) (handle : Nat) : Bool := (r.get? handle).isSome

/-- Reserve a handle for a name; a name that is declared already keeps its handle. -/
def declare (r : Registry) (name : String) : Registry × Nat :=
  match r.lookup name with
  | some handle => (r, handle)
  | none => (⟨r.entries ++ [⟨name, none⟩]⟩, r.entries.length)

/-- Give a declared handle its schema. -/
def define (r : Registry) (handle : Nat) (schema : Fragment) : Except CompileError Registry :=
  match r.entries[handle]? with
  | none => .error (.unknownHandle handle)
  | some e =>
    if e.schema.isSome then .error (.alreadyDefined e.name)
    else .ok ⟨r.entries.set handle { e with schema := some schema }⟩

/-- Declare a name and define its schema; the declaration stays also if the definition fails. -/
def register (r : Registry) (name : String) (schema : Fragment) :
    Registry × Except CompileError Nat :=
  let (declared, handle) := r.declare name
  match declared.define handle schema with
  | .ok defined => (defined, .ok handle)
  | .error e => (declared, .error e)

/-- The number of declared names. -/
def size (r : Registry) : Nat := r.entries.length

/-- Which handles have been given a schema. -/
def definedFlags (r : Registry) : List Bool := r.entries.map (fun e => e.schema.isSome)

/-! ## Dependencies -/

mutual

/-- The handles named by markers anywhere in a document. -/
def deferredHandles : Json → List Nat
  | .obj members =>
    match Marker.ofMembers? members with
    | some (.ok (.deferred handle)) => [handle]
    | _ => deferredInMembers members
  | .arr items => deferredInItems items
  | _ => []
termination_by structural v => v

/-- The handles named by markers anywhere in the items. -/
def deferredInItems : List Json → List Nat
  | [] => []
  | v :: rest => deferredHandles v ++ deferredInItems rest
termination_by structural v => v

/-- The handles named by markers anywhere in the members. -/
def deferredInMembers : List (String × Json) → List Nat
  | [] => []
  | (_, v) :: rest => deferredHandles v ++ deferredInMembers rest
termination_by structural v => v

end

/-- Insert a number into an ascending list, unless it is there. -/
def insertHandle (n : Nat) : List Nat → List Nat
  | [] => [n]
  | m :: rest =>
    if n < m then n :: m :: rest
    else if n = m then m :: rest
    else m :: insertHandle n rest

/-- The handles that the schema of a handle refers to, in ascending order. -/
def dependencies (r : Registry) (handle : Nat) : List Nat :=
  match r.get? handle with
  | some f => (deferredHandles f.document).foldr insertHandle []
  | none => []

end Registry

end HttpContract
