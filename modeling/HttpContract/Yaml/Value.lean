import HttpContract.Binary64.Decimal
import HttpContract.Schema.NumberText
import HttpContract.Text.Visible
import HttpContract.Yaml.Node

/-!
# Values of YAML documents

The value of a plain scalar depends on its text: null, a truth value, a number or else the text
itself; a tag can demand a certain one. Aliases are replaced by what they stand for. A document has
no value if a mapping repeats a key, if collections are nested deeper than `Value.levelLimit`, or if
aliases make it many times its size.
-/

namespace HttpContract.Yaml

/-- A number of a YAML document. -/
inductive Number where
  | int (n : Json.Integer)
  | float (x : Binary64)
  | infinity (negative : Bool)
  | nan
deriving DecidableEq

/-- A value. -/
inductive Value where
  | null
  | bool (b : Bool)
  | num (n : Number)
  | str (s : String)
  | seq (items : List Value)
  /-- Entries in the order in which they are written. -/
  | map (entries : List (Value × Value))
  /-- A value with a tag that has no fixed meaning. -/
  | tagged (tag : String) (v : Value)
deriving Inhabited

/-! ## Numbers -/

namespace Number

/-- Whether digits start with a superfluous zero, so that they are no number. -/
def isPadded (text : List Char) : Bool :=
  match (NumberText.splitSign text).2 with
  | '0' :: d :: rest => (d :: rest).all Char.isDigit
  | _ => false

/-- The value of digits behind a mark of their base, if there is one. -/
def marked? : List Char → Option Nat
  | '0' :: 'x' :: digits => Radix.read? 16 digits
  | '0' :: 'o' :: digits => Radix.read? 8 digits
  | '0' :: 'b' :: digits => Radix.read? 2 digits
  | _ => none

/-- The natural written by a text, with a plus sign or without. -/
def natural? (text : List Char) : Option Nat :=
  let digits := match text with
    | '+' :: rest => rest
    | all => all
  (marked? digits).or (if isPadded text then none else Radix.read? 10 digits)

/-- The integer written by a text. -/
def integer? (text : List Char) : Option Int :=
  match text with
  | '-' :: digits =>
    ((marked? digits).or (if isPadded text then none else Radix.read? 10 digits)).map
      (fun n => -(n : Int))
  | all => (natural? all).map (fun n => (n : Int))

/-- The number with a fraction or an exponent written by a text, an infinity, or what is no
number. -/
def float? (text : List Char) : Option Number :=
  let unsigned := match text with
    | '+' :: rest => rest
    | all => all
  let doubled := match text with
    | '+' :: '+' :: _ => true
    | '+' :: '-' :: _ => true
    | _ => false
  if doubled then none
  else if [".inf", ".Inf", ".INF"].contains (String.ofList unsigned) then some (infinity false)
  else if ["-.inf", "-.Inf", "-.INF"].contains (String.ofList text) then some (infinity true)
  else if [".nan", ".NaN", ".NAN"].contains (String.ofList text) then some nan
  else
    (NumberText.decimal? unsigned).bind
      (fun d => (Binary64.ofDecimal? d.negative d.digits d.exponent).map float)

/-- Integers keep to 64 bits; up to 128 bits they are refused, and beyond that they are read as
numbers with a fraction. -/
def ofInteger? (n : Int) : Option (Option Number) :=
  match Json.Integer.ofInt? n with
  | some i => some (some (int i))
  | none => if -Int.pow 2 127 ≤ n ∧ n < Int.pow 2 128 then some none else none

/-- Positional from `10 ^ -5` up to below `10 ^ 16`; exponents have no plus sign. -/
def layout : Binary64.DecimalLayout := ⟨fun k => -5 ≤ k && k < 16, true, false⟩

/-- The text of a number. -/
def text : Number → String
  | int n => toString n.val
  | float x => Binary64.textIn layout x
  | infinity negative => if negative then "-.inf" else ".inf"
  | nan => ".nan"

/-- Whether two numbers are the same; zeros are, whatever their sign. -/
def same : Number → Number → Bool
  | float x, float y => x == y || (x.isZero && y.isZero)
  | a, b => a == b

end Number

namespace Value

/-! ## Scalars -/

/-- Whether a text says that there is nothing. -/
def isNullText (text : String) : Bool := ["null", "Null", "NULL", "~"].contains text

/-- The truth value written by a text. -/
def truth? (text : String) : Option Bool :=
  if ["true", "True", "TRUE"].contains text then some true
  else if ["false", "False", "FALSE"].contains text then some false
  else none

/-- The integer written by a text; `some none` if it is one but out of range. -/
def integer? (text : String) : Option (Option Number) :=
  (Number.integer? text.toList).bind Number.ofInteger?

/-- The value of a plain scalar. -/
def ofPlain? (text : String) : Option Value :=
  if text.isEmpty || isNullText text then some .null
  else
    match truth? text with
    | some b => some (.bool b)
    | none =>
      match integer? text with
      | some n => n.map .num
      | none =>
        match if Number.isPadded text.toList then none else Number.float? text.toList with
        | some x => some (.num x)
        | none => some (.str text)

/-- The names of the tags with a fixed meaning start so. -/
def coreTag (name : String) : String := "tag:yaml.org,2002:" ++ name

/-- The name of a tag without a fixed meaning: what follows its mark. -/
def customTag? (tag : Option String) : Option String :=
  match tag.map String.toList with
  | some ['!'] => some "!"
  | some ('!' :: name) => some (String.ofList name)
  | _ => none

/-- The value of a scalar with a tag that is not custom. -/
def ofScalar? (text : String) (style : Style) (tag : Option String) : Option Value :=
  match tag with
  | none => if style = .plain then ofPlain? text else some (.str text)
  | some t =>
    if t = coreTag "bool" then (truth? text).map .bool
    else if t = coreTag "int" then (integer? text).bind (fun n => n.map .num)
    else if t = coreTag "float" then (Number.float? text.toList).map .num
    else if t = coreTag "null" then if isNullText text then some .null else none
    else some (.str text)

/-! ## Equality of keys -/

mutual

/-- Whether two values are the same key. -/
def same : Value → Value → Bool
  | .null, .null => true
  | .bool a, .bool b => a == b
  | .num a, .num b => a.same b
  | .str a, .str b => a == b
  | .seq a, .seq b => sameItems a b
  | .map a, .map b => a.length == b.length && sameEntries a b
  | .tagged s a, .tagged t b => s == t && same a b
  | _, _ => false
termination_by structural v => v

/-- Whether two lists hold the same values. -/
def sameItems : List Value → List Value → Bool
  | [], [] => true
  | a :: as, b :: bs => same a b && sameItems as bs
  | _, _ => false
termination_by structural v => v

/-- Whether every entry of one mapping is in the other. -/
def sameEntries : List (Value × Value) → List (Value × Value) → Bool
  | [], _ => true
  | (k, v) :: rest, others =>
    others.any (fun e => same k e.1 && same v e.2) && sameEntries rest others
termination_by structural v => v

end

/-! ## Collections and aliases -/

/-- The deepest nesting of collections. -/
def levelLimit : Nat := 128

/-- How often the aliases of a document may be followed, for each of its marks. -/
def aliasLimit : Nat := 100

/-- Values are made while a number of aliases is left to be followed. -/
abbrev Maker := StateT Nat Option

/-- The value of a node, where `inside` makes the values of what is in a collection. -/
def ofCollection (inside : Node → Maker Value) (n : Node) : Maker Value := do
  let wrap := fun (tag : Option String) (v : Value) =>
    match customTag? tag with
    | some name => Value.tagged name v
    | none => v
  match n with
  | .scalar text style tag =>
    match customTag? tag with
    | some name => return .tagged name (← (ofScalar? text style none : Option Value))
    | none => (ofScalar? text style tag : Option Value)
  | .sequence items tag => return wrap tag (.seq (← items.mapM inside))
  | .mapping entries tag =>
    let made ← entries.foldlM
      (fun (done : List (Value × Value)) (k, v) => do
        let key ← inside k
        if done.any (fun e => same e.1 key) then failure
        return done ++ [(key, ← inside v)])
      []
    return wrap tag (.map made)
  | .alias _ => failure

/-- Follow an alias. -/
def follow (d : Document) (n : Node) : Maker Node :=
  match n with
  | .alias number => do
    match ← get with
    | 0 => failure
    | left + 1 =>
      set left
      (d.node? number : Option Node)
  | n => return n

/-- The value of a node of a document; `levels` bounds the nesting. -/
def ofNode (d : Document) : (levels : Nat) → Node → Maker Value
  | 0, n => do
    match ← follow d n with
    | .scalar text style tag => ofCollection (fun _ => failure) (.scalar text style tag)
    | _ => failure
  | levels + 1, n => do ofCollection (ofNode d levels) (← follow d n)

/-- The value of a document, null if it is empty. -/
def ofDocument? (d : Document) : Option Value :=
  match d.root with
  | none => some .null
  | some root => ((ofNode d levelLimit root).run (aliasLimit * root.marks)).map (·.1)

/-- The value of a stream of one document. -/
def read? (stream : String) : Option Value := (Document.read? stream).bind ofDocument?

/-! ## Visible form -/

/-- A tag with its mark. -/
def tagText (tag : String) : String := "!" ++ tag

mutual

/-- The visible form of a value, with the kind of each part. -/
def visible : Value → String
  | .null => "Null"
  | .bool b => "Bool(" ++ toString b ++ ")"
  | .num n => "Number(" ++ n.text ++ ")"
  | .str s => "String(" ++ Visible.quote s ++ ")"
  | .seq items => "Sequence [" ++ ", ".intercalate (visibleItems items) ++ "]"
  | .map entries => "Mapping \x7b" ++ ", ".intercalate (visibleEntries entries) ++ "\x7d"
  | .tagged tag v =>
    "TaggedValue \x7b tag: " ++ tagText tag ++ ", value: " ++ visible v ++ " \x7d"
termination_by structural v => v

/-- The visible forms of the items. -/
def visibleItems : List Value → List String
  | [] => []
  | v :: rest => visible v :: visibleItems rest
termination_by structural v => v

/-- The visible forms of the entries; keys that are plain scalars stand by themselves. -/
def visibleEntries : List (Value × Value) → List String
  | [] => []
  | (k, v) :: rest =>
    let key := match k with
      | .bool b => toString b
      | .num n => n.text
      | .str s => Visible.quote s
      | _ => visible k
    (key ++ ": " ++ visible v) :: visibleEntries rest
termination_by structural v => v

end

end Value

end HttpContract.Yaml
