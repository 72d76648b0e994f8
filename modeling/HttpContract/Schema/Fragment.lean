import HttpContract.Json

/-!
# Schema fragments

A fragment is a document that can stand where a schema is expected: an object or a truth value.
-/

namespace HttpContract

/-- Whether a document can be a schema. -/
def Json.isSchema : Json → Bool
  | .obj _ => true
  | .bool _ => true
  | _ => false

/-- A document that can be a schema. -/
structure Fragment where
  document : Json
  isSchema : document.isSchema = true
deriving DecidableEq

instance : Inhabited Fragment := ⟨⟨.bool true, rfl⟩⟩

/-- The document is of a kind that no schema is. -/
structure FragmentError where
  found : String
deriving DecidableEq, Repr

/-- The wording of the error. -/
def FragmentError.message (e : FragmentError) : String :=
  "expected an object or boolean schema, found " ++ e.found

namespace Fragment

/-- Take a document as a fragment. -/
def ofJson (v : Json) : Except FragmentError Fragment :=
  if h : v.isSchema = true then .ok ⟨v, h⟩ else .error ⟨v.kindName⟩

/-- The fragment that every value satisfies. -/
def always : Fragment := ⟨.bool true, rfl⟩

/-- The fragment with the given members. -/
def ofMembers (members : Fields Json) : Fragment := ⟨.obj members, rfl⟩

@[simp] theorem ofJson_document (f : Fragment) : ofJson f.document = .ok f := by
  unfold ofJson
  rw [dif_pos f.isSchema]

end Fragment

end HttpContract
