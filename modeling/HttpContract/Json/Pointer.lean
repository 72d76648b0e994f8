import HttpContract.Json

/-!
# Pointers into documents

A pointer is a text of reference tokens, each after a slash; within a token `~` is written `~0`
and `/` is written `~1`. `child` appends a token to a pointer and `resolve?` follows a pointer.
-/

namespace HttpContract.Json.Pointer

/-- A token as it is written in a pointer. -/
def escape : List Char → List Char
  | [] => []
  | c :: rest =>
    if c = '~' then '~' :: '0' :: escape rest
    else if c = '/' then '~' :: '1' :: escape rest
    else c :: escape rest

/-- The token read from its written form: `~1` is a slash and `~0` a tilde. -/
def unescape : List Char → List Char
  | [] => []
  | '~' :: '1' :: rest => '/' :: unescape rest
  | '~' :: '0' :: rest => '~' :: unescape rest
  | c :: rest => c :: unescape rest

/-- The pointer one token below `base`. -/
def child (base token : String) : String :=
  base ++ String.ofList ('/' :: escape token.toList)

/-- The pointer to the item at `index` below `base`. -/
def childIndex (base : String) (index : Nat) : String := child base (toString index)

/-- The tokens of a pointer; the empty pointer has none, and any other one starts with a slash. -/
def tokens? (pointer : String) : Option (List String) :=
  match pointer.toList with
  | [] => some []
  | '/' :: rest => some ((rest.splitOn '/').map (fun t => String.ofList (unescape t)))
  | _ => none

/-- The index of a list item: decimal digits without a superfluous zero. -/
def index? (token : String) : Option Nat :=
  match token.toList with
  | ['0'] => some 0
  | c :: rest =>
    if c ≠ '0' ∧ (c :: rest).all Char.isDigit then token.toNat? else none
  | [] => none

/-- One step into a document. -/
def step? (v : Json) (token : String) : Option Json :=
  match v with
  | .obj ms => Fields.get? ms token
  | .arr xs => (index? token).bind (fun i => xs[i]?)
  | _ => none

/-- The document a list of tokens leads to. -/
def follow? : Json → List String → Option Json
  | v, [] => some v
  | v, t :: ts => (step? v t).bind (fun w => follow? w ts)

/-- The document a pointer leads to. -/
def resolve? (v : Json) (pointer : String) : Option Json :=
  (tokens? pointer).bind (follow? v)

theorem unescape_escape (cs : List Char) : unescape (escape cs) = cs := by
  induction cs with
  | nil => rfl
  | cons c rest ih =>
    unfold escape
    split
    · next h => subst h; simp [unescape, ih]
    · split
      · next h => subst h; simp [unescape, ih]
      · next h _ => rw [unescape.eq_def]; split <;> simp_all

end HttpContract.Json.Pointer
