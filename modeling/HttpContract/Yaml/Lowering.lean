import HttpContract.Json.Pointer
import HttpContract.Yaml.Value

/-!
# YAML values as documents

Keys of mappings become names: texts as they are, numbers and truth values as they are written.
Any other key is refused, with a pointer to its mapping. Tags are dropped, and numbers that are not
finite become null.
-/

namespace HttpContract.Yaml

/-- A key that is no scalar, in the mapping at a pointer. -/
structure KeyError where
  pointer : String
  key : Value

/-- The wording of the error. -/
def KeyError.message (e : KeyError) : String :=
  s!"mapping key at '{e.pointer}' must be a scalar, found {e.key.visible}"

/-- A number in a document. -/
def Number.toJson : Number → Json
  | .int n => .num (.int n)
  | .float x => .num (.float x)
  | .infinity _ => .null
  | .nan => .null

namespace Value

/-- The name that a key stands for. -/
def name? : Value → Option String
  | .str s => some s
  | .num n => some n.text
  | .bool b => some (toString b)
  | _ => none

mutual

/-- The document of a value at a pointer. -/
def toJson (pointer : String) : Value → Except KeyError Json
  | .null => .ok .null
  | .bool b => .ok (.bool b)
  | .num n => .ok n.toJson
  | .str s => .ok (.str s)
  | .seq items => (itemsToJson pointer 0 items).map .arr
  | .map entries => (entriesToJson pointer [] entries).map .obj
  | .tagged _ v => toJson pointer v
termination_by structural v => v

/-- The documents of items from an index on. -/
def itemsToJson (pointer : String) (index : Nat) : List Value → Except KeyError (List Json)
  | [] => .ok []
  | v :: rest => do
    let item ← toJson (Json.Pointer.childIndex pointer index) v
    let others ← itemsToJson pointer (index + 1) rest
    return item :: others
termination_by structural v => v

/-- The members of entries, beside those made before; of two with one name the later stays. -/
def entriesToJson (pointer : String) (done : Fields Json) :
    List (Value × Value) → Except KeyError (Fields Json)
  | [] => .ok done
  | (k, v) :: rest =>
    match k.name? with
    | none => .error ⟨pointer, k⟩
    | some name => do
      let value ← toJson (Json.Pointer.child pointer name) v
      entriesToJson pointer (Fields.insert done name value) rest
termination_by structural v => v

end

end Value

end HttpContract.Yaml
