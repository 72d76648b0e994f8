import HttpContract.Evaluation.Format
import HttpContract.Evaluation.Violation

/-!
# Assertions

The keywords that look at a value alone, without schemas inside them. `Assertion.violations` lists
what a value violates of one keyword; a keyword says nothing about values of other kinds than its
own.
-/

namespace HttpContract.Assertion

/-- A count written as a number without fraction. -/
def count? : Json → Option Nat
  | .num n => if n.isIntegral ∧ 0 ≤ n.toRat then some n.toRat.num.toNat else none
  | _ => none

/-- Whether a value has a type given by name. -/
def hasType (v : Json) (name : String) : Bool :=
  ((JsonType.ofName? name).map (fun t => t.admits v)).getD false

/-- Type names in ascending order, each once. -/
def sortedNames (names : List String) : List String :=
  Fields.keys (Fields.ofList (names.map (fun n => (n, ()))))

/-- The keyword `type`. -/
def typeViolations (arg v : Json) : List Violation :=
  let names := match arg with
    | .str name => [name]
    | .arr names => names.filterMap Json.text?
    | _ => []
  if names.isEmpty ∨ names.any (hasType v) then [] else [.type v (sortedNames names)]

/-- A bound on numbers. -/
def bound (allowed : Rat → Rat → Bool) (violation : Json → Json → Violation) (arg v : Json) :
    List Violation :=
  match v, arg with
  | .num x, .num limit => if allowed x.toRat limit.toRat then [] else [violation v arg]
  | _, _ => []

/-- Whether the first number is a multiple of the second, in the arithmetic of binary64 numbers: a
divisor without fraction has to leave no remainder; for any other the fraction of the rounded
quotient has to be less than `2 ^ -52`, which no negative quotient exceeds. A quotient out of range
is judged exactly. -/
def isMultiple (x divisor : Binary64) : Bool :=
  if divisor.isIntegral then
    x.isIntegral && (if divisor.isZero then false else x.truncate % divisor.truncate == 0)
  else
    match x.div? divisor with
    | some q => q.negative || (q.magnitudeNum % q.magnitudeDen) * 0x10000000000000 < q.magnitudeDen
    | none => (x.toRat / divisor.toRat).den == 1

/-- The keyword `multipleOf`. -/
def multipleViolations (arg v : Json) : List Violation :=
  match v, arg with
  | .num x, .num d =>
    if isMultiple x.toBinary64 d.toBinary64 then [] else [.multipleOf v d.toBinary64]
  | _, _ => []

/-- A bound on the size of a value of one kind. -/
def sizeBound (size? : Json → Option Nat) (allowed : Nat → Nat → Bool)
    (violation : Json → Nat → Violation) (arg v : Json) : List Violation :=
  match size? v, count? arg with
  | some n, some limit => if allowed n limit then [] else [violation v limit]
  | _, _ => []

/-- The number of characters of a text. -/
def textSize? (v : Json) : Option Nat := v.text?.map String.length

/-- The number of items of a list. -/
def itemCount? (v : Json) : Option Nat := v.items?.map List.length

/-- The number of members of an object. -/
def memberCount? (v : Json) : Option Nat := v.members?.map List.length

/-- Whether no two items denote the same value. -/
def allDistinct : List Json → Bool
  | [] => true
  | x :: rest => rest.all (fun y => !Json.equivalent x y) && allDistinct rest

/-- The names in a list that an object lacks. -/
def missing (names : List Json) (members : Fields Json) : List String :=
  (names.filterMap Json.text?).filter (fun n => !Fields.contains members n)

/-- The keyword `required`. -/
def requiredViolations (arg v : Json) : List Violation :=
  match v, arg with
  | .obj members, .arr names => (missing names members).map .required
  | _, _ => []

/-- The keyword `dependentRequired`. -/
def dependentViolations (arg v : Json) : List Violation :=
  match v, arg with
  | .obj members, .obj deps =>
    deps.flatMap (fun (key, names) =>
      if Fields.contains members key then requiredViolations names v else [])
  | _, _ => []

/-- The keyword `pattern`. -/
def patternViolations (arg v : Json) : List Violation :=
  match v, arg with
  | .str s, .str source => if Pattern.found source s then [] else [.pattern v source]
  | _, _ => []

/-- The keyword `format`. -/
def formatViolations (arg v : Json) : List Violation :=
  match v, arg with
  | .str s, .str name => if Format.holds name s then [] else [.format v name]
  | _, _ => []

/-- What a value violates of a keyword that holds no schemas. -/
def violations (keyword : String) (arg v : Json) : List Violation :=
  match keyword with
  | "type" => typeViolations arg v
  | "enum" =>
    match arg with
    | .arr options => if options.any (Json.equivalent v) then [] else [.enumeration v arg]
    | _ => []
  | "const" => if Json.equivalent arg v then [] else [.constant arg]
  | "minimum" => bound (fun x l => l ≤ x) .minimum arg v
  | "maximum" => bound (fun x l => x ≤ l) .maximum arg v
  | "exclusiveMinimum" => bound (fun x l => l < x) .exclusiveMinimum arg v
  | "exclusiveMaximum" => bound (fun x l => x < l) .exclusiveMaximum arg v
  | "multipleOf" => multipleViolations arg v
  | "minLength" => sizeBound textSize? (fun n l => l ≤ n) .minLength arg v
  | "maxLength" => sizeBound textSize? (fun n l => n ≤ l) .maxLength arg v
  | "minItems" => sizeBound itemCount? (fun n l => l ≤ n) .minItems arg v
  | "maxItems" => sizeBound itemCount? (fun n l => n ≤ l) .maxItems arg v
  | "minProperties" => sizeBound memberCount? (fun n l => l ≤ n) .minProperties arg v
  | "maxProperties" => sizeBound memberCount? (fun n l => n ≤ l) .maxProperties arg v
  | "uniqueItems" =>
    match arg, v with
    | .bool true, .arr xs => if allDistinct xs then [] else [.uniqueItems v]
    | _, _ => []
  | "required" => requiredViolations arg v
  | "dependentRequired" => dependentViolations arg v
  | "pattern" => patternViolations arg v
  | "format" => formatViolations arg v
  | _ => []

end HttpContract.Assertion
