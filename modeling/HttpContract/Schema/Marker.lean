import HttpContract.Schema.Fragment

/-!
# Markers for forward references

A marker stands where a schema is expected and refers to one: `{"forwardRef": 3}` to the schema
with handle 3 of a registry, `{"forwardRef": {...}}` to the schema it carries.
-/

namespace HttpContract

/-- The only member of a marker. -/
def Marker.key : String := "forwardRef"

/-- What a marker refers to. -/
inductive Marker where
  /-- The schema it carries. -/
  | inline (schema : Fragment)
  /-- The schema defined for a handle. -/
  | deferred (handle : Nat)
deriving DecidableEq

/-- What is wrong with a marker. -/
inductive MarkerError where
  | extraKeywords
  | badHandle
  | badTarget
deriving DecidableEq, Repr

/-- The wording of the error. -/
def MarkerError.message : MarkerError → String
  | .extraKeywords => "a forwardRef marker must not carry other keywords"
  | .badHandle => "forwardRef handle must be a non-negative integer"
  | .badTarget => "forwardRef must name a handle or carry a schema"

namespace Marker

/-- What the member of a marker refers to. -/
def ofTarget (target : Json) : Except MarkerError Marker :=
  match target with
  | .num n =>
    match n.toNat? with
    | some handle => .ok (.deferred handle)
    | none => .error .badHandle
  | v =>
    match Fragment.ofJson v with
    | .ok f => .ok (.inline f)
    | .error _ => .error .badTarget

/-- The marker with the given members; `none` if they make none. -/
def ofMembers? (members : Fields Json) : Option (Except MarkerError Marker) :=
  match Fields.get? members key with
  | none => none
  | some target => some (if 1 < members.length then .error .extraKeywords else ofTarget target)

/-- Read a document as a marker; `none` if it is none. -/
def read? : Json → Option (Except MarkerError Marker)
  | .obj members => ofMembers? members
  | _ => none

/-- The document of a marker. -/
def toJson : Marker → Json
  | .inline f => .obj [(key, f.document)]
  | .deferred handle => .obj [(key, Json.ofNat handle)]

end Marker

end HttpContract
