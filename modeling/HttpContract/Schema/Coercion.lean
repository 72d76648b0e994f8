import HttpContract.Schema.NumberText
import HttpContract.Json.Printer

/-!
# Types and lossless coercion

A schema may name the types it admits. A scalar of another type is converted where nothing is lost
by it:

* to a number: numeric texts, truth values as one and zero, null as zero;
* to an integer: whatever converts to a number without a fraction;
* to a text: numbers, truth values, and null as the empty text;
* to a truth value: the texts `true` and `false`, one and zero, and null as false;
* to null: the empty text, zero and false.

Lists and objects are never converted, and a value that already has the type stays as it is.
-/

namespace HttpContract

/-- The types a schema can name. -/
inductive JsonType where
  | null
  | boolean
  | integer
  | number
  | string
  | array
  | object
deriving DecidableEq, Repr

namespace JsonType

/-- The type with a given name. -/
def ofName? : String → Option JsonType
  | "null" => some .null
  | "boolean" => some .boolean
  | "integer" => some .integer
  | "number" => some .number
  | "string" => some .string
  | "array" => some .array
  | "object" => some .object
  | _ => none

/-- The name of a type. -/
def name : JsonType → String
  | .null => "null"
  | .boolean => "boolean"
  | .integer => "integer"
  | .number => "number"
  | .string => "string"
  | .array => "array"
  | .object => "object"

@[simp] theorem ofName?_name (t : JsonType) : ofName? t.name = some t := by cases t <;> rfl

/-- Whether a value has the type. A floating point number without fraction is an integer. -/
def admits : JsonType → Json → Bool
  | .null, .null => true
  | .boolean, .bool _ => true
  | .integer, .num n => n.isIntegral
  | .number, .num _ => true
  | .string, .str _ => true
  | .array, .arr _ => true
  | .object, .obj _ => true
  | _, _ => false

end JsonType

namespace Coercion

/-- Whether one of the types admits the value. -/
def admitted (types : List JsonType) (v : Json) : Bool := types.any (fun t => t.admits v)

/-- The number a scalar stands for. -/
def toNumber? : Json → Option Json.Number
  | .str s => NumberText.read? s
  | .bool b => some (Json.Number.ofNat b.toNat)
  | .null => some (Json.Number.ofNat 0)
  | .num n => some n
  | _ => none

/-- The largest signed word, as a binary64 number: it is rounded up to `2 ^ 63`. -/
def signedLimit : Int := 0x8000000000000000

/-- The signed word nearest to an integer. -/
def clampSigned (n : Int) : Int := max (-signedLimit) (min n (signedLimit - 1))

/-- The integer a number without fraction denotes. A floating point number is converted to a signed
word, and only if it lies within the signed words rounded to binary64. -/
def toInteger? : Json.Number → Option Json.Number
  | .int n => some (.int n)
  | .float x =>
    if x.isIntegral ∧ -signedLimit ≤ x.truncate ∧ x.truncate ≤ signedLimit then
      (Json.Integer.ofInt? (clampSigned x.truncate)).map .int
    else none

/-- Whether a number denotes the given integer. -/
def denotes (n : Json.Number) (i : Int) : Bool := decide (n.toRat = (i : Rat))

/-- The conversion of a value that does not have the type already. -/
def convert? (v : Json) : JsonType → Option Json
  | .number => (toNumber? v).map .num
  | .integer => ((toNumber? v).bind toInteger?).map .num
  | .string =>
    match v with
    | .num n => some (.str n.text)
    | .bool b => some (.str (if b then "true" else "false"))
    | .null => some (.str "")
    | _ => none
  | .boolean =>
    match v with
    | .str s =>
      if s = "true" then some (.bool true) else if s = "false" then some (.bool false) else none
    | .num n =>
      if denotes n 1 then some (.bool true) else if denotes n 0 then some (.bool false) else none
    | .null => some (.bool false)
    | _ => none
  | .null =>
    match v with
    | .str s => if s = "" then some .null else none
    | .num n => if denotes n 0 then some .null else none
    | .bool false => some .null
    | _ => none
  | .array => none
  | .object => none

end Coercion

/-- The value as one of the type, or `none` where something would be lost. -/
def coerce? (v : Json) (t : JsonType) : Option Json :=
  if t.admits v then some v else Coercion.convert? v t

/-- The value as one of the first type it converts to; it stays as it is if one of the types admits
it already. -/
def coerceAny? (v : Json) (types : List JsonType) : Option Json :=
  if Coercion.admitted types v then some v else types.findSome? (coerce? v)

end HttpContract
