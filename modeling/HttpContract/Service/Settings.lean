import HttpContract.Schema.Options
import HttpContract.Text.Ascii
import HttpContract.Yaml.Value

/-!
# Settings

One record governs compilation, the treatment of responses and the sizes of bodies. It is read from
variables or from a YAML mapping; what is not given there keeps its standard value.
-/

namespace HttpContract

/-- Settings of a service. -/
structure Settings where
  options : Options
  /-- Render responses by their schemas instead of validating them. -/
  fastSerialization : Bool
  /-- The size of a request body at most, in bytes. -/
  bodyLimit : Nat
  /-- The size of a response body that a schema covers at most, in bytes. -/
  responseBodyLimit : Nat
deriving DecidableEq, Repr

/-- A setting that is switched on or off. -/
inductive SwitchSetting where
  | strict
  | removeAdditional
  | useDefaults
  | coerceTypes
  | allErrors
  | fastSerialization
deriving DecidableEq, Repr

/-- A setting that is a size in bytes. -/
inductive SizeSetting where
  | bodyLimit
  | responseBodyLimit
deriving DecidableEq, Repr

namespace SwitchSetting

/-- All switches, in the order in which they are read. -/
def all : List SwitchSetting :=
  [.strict, .removeAdditional, .useDefaults, .coerceTypes, .allErrors, .fastSerialization]

/-- The name of a switch in a mapping. -/
def name : SwitchSetting → String
  | .strict => "strict"
  | .removeAdditional => "remove_additional"
  | .useDefaults => "use_defaults"
  | .coerceTypes => "coerce_types"
  | .allErrors => "all_errors"
  | .fastSerialization => "fast_serialization"

end SwitchSetting

namespace SizeSetting

/-- All sizes, in the order in which they are read. -/
def all : List SizeSetting := [.bodyLimit, .responseBodyLimit]

/-- The name of a size in a mapping. -/
def name : SizeSetting → String
  | .bodyLimit => "body_limit"
  | .responseBodyLimit => "response_body_limit"

end SizeSetting

/-- Why settings cannot be read. -/
inductive SettingsError where
  /-- A variable does not hold what it should. -/
  | invalidValue (name value expected : String)
  /-- The YAML text is malformed, or a value is not of its kind. -/
  | yaml
deriving DecidableEq, Repr

/-- The wording of the error. -/
def SettingsError.message : SettingsError → String
  | .invalidValue name value expected => s!"invalid value '{value}' for {name}: expected {expected}"
  | .yaml => "invalid configuration file"

namespace Settings

/-- Standard options, full validation of responses, two and eight mebibytes. -/
def standard : Settings := ⟨Options.standard, false, 2 * 1024 * 1024, 8 * 1024 * 1024⟩

instance : Inhabited Settings := ⟨standard⟩

/-- The state of a switch. -/
def switch (s : Settings) : SwitchSetting → Bool
  | .strict => s.options.strict
  | .removeAdditional => s.options.removeAdditional
  | .useDefaults => s.options.useDefaults
  | .coerceTypes => s.options.coerceTypes
  | .allErrors => s.options.allErrors
  | .fastSerialization => s.fastSerialization

/-- Turn a switch. -/
def withSwitch (s : Settings) (k : SwitchSetting) (b : Bool) : Settings :=
  match k with
  | .strict => { s with options := { s.options with strict := b } }
  | .removeAdditional => { s with options := { s.options with removeAdditional := b } }
  | .useDefaults => { s with options := { s.options with useDefaults := b } }
  | .coerceTypes => { s with options := { s.options with coerceTypes := b } }
  | .allErrors => { s with options := { s.options with allErrors := b } }
  | .fastSerialization => { s with fastSerialization := b }

/-- A size. -/
def size (s : Settings) : SizeSetting → Nat
  | .bodyLimit => s.bodyLimit
  | .responseBodyLimit => s.responseBodyLimit

/-- Change a size. -/
def withSize (s : Settings) (k : SizeSetting) (n : Nat) : Settings :=
  match k with
  | .bodyLimit => { s with bodyLimit := n }
  | .responseBodyLimit => { s with responseBodyLimit := n }

@[simp] theorem switch_withSwitch (s : Settings) (k : SwitchSetting) (b : Bool) :
    (s.withSwitch k b).switch k = b := by
  cases k <;> rfl

@[simp] theorem size_withSize (s : Settings) (k : SizeSetting) (n : Nat) :
    (s.withSize k n).size k = n := by
  cases k <;> rfl

/-! ## Variables -/

/-- The variable of a setting. -/
def variableOf (name : String) : String := "ROUTEGUARD_" ++ Ascii.upper name

/-- Whether a character counts as blank around the value of a variable. -/
def isBlank (c : Char) : Bool :=
  ('\t' ≤ c && c ≤ '\r') || c == ' ' || c == '\u0085' || c == '\u00a0' || c == '\u1680'
    || ('\u2000' ≤ c && c ≤ '\u200a') || c == '\u2028' || c == '\u2029' || c == '\u202f'
    || c == '\u205f' || c == '\u3000'

/-- A text without blanks at its ends. -/
def trimmed (s : String) : String :=
  String.ofList ((s.toList.dropWhile isBlank).reverse.dropWhile isBlank).reverse

/-- The state that a text gives a switch; letters count in either case. -/
def readSwitch? (s : String) : Option Bool :=
  let word := Ascii.lower (trimmed s)
  if ["1", "true", "yes", "on"].contains word then some true
  else if ["0", "false", "no", "off"].contains word then some false
  else none

/-- Sizes are below this number. -/
def sizeBound : Nat := 0x10000000000000000

/-- The size written by a text. -/
def readSize? (s : String) : Option Nat :=
  let digits := match (trimmed s).toList with
    | '+' :: rest => rest
    | all => all
  (NumberText.digits? digits).bind (fun n => if n < sizeBound then some n else none)

/-- Read settings from variables, one after the other. -/
def ofVariables (lookup : String → Option String) : Except SettingsError Settings := do
  let switched ← SwitchSetting.all.foldlM
    (fun (s : Settings) k =>
      match lookup (variableOf k.name) with
      | none => .ok s
      | some text =>
        match readSwitch? text with
        | some b => .ok (s.withSwitch k b)
        | none => .error (.invalidValue (variableOf k.name) text "a boolean"))
    standard
  SizeSetting.all.foldlM
    (fun (s : Settings) k =>
      match lookup (variableOf k.name) with
      | none => .ok s
      | some text =>
        match readSize? text with
        | some n => .ok (s.withSize k n)
        | none => .error (.invalidValue (variableOf k.name) text "a size in bytes"))
    switched

/-! ## YAML mappings -/

/-- The node itself, or the one that it is an alias of. -/
def targetOf? (d : Yaml.Document) : Yaml.Node → Option Yaml.Node
  | .alias number => d.node? number
  | n => some n

/-- The text of a scalar that can be of a kind: a plain one, or a literal block with the tag of the
kind. -/
def scalarOf? (d : Yaml.Document) (kind : String) (n : Yaml.Node) : Option String :=
  match targetOf? d n with
  | some (.scalar text .plain _) => some text
  | some (.scalar text .literal tag) =>
    if tag = some (Yaml.Value.coreTag kind) then some text else none
  | _ => none

/-- The text of a key. -/
def keyOf? (d : Yaml.Document) (n : Yaml.Node) : Option String :=
  match targetOf? d n with
  | some (.scalar text _ _) => some text
  | _ => none

/-- Read the entries of a mapping; a setting is given once at most, and other keys are ignored. -/
def readEntries? (d : Yaml.Document) : (given : List String) → Settings →
    List (Yaml.Node × Yaml.Node) → Option Settings
  | _, s, [] => some s
  | given, s, (k, v) :: rest => do
    let name ← keyOf? d k
    match SwitchSetting.all.find? (fun x => x.name == name),
        SizeSetting.all.find? (fun x => x.name == name) with
    | some x, _ =>
      let b ← (scalarOf? d "bool" v).bind Yaml.Value.truth?
      if given.contains name then none else readEntries? d (name :: given) (s.withSwitch x b) rest
    | _, some x =>
      let n ← (scalarOf? d "int" v).bind (fun t => Yaml.Number.natural? t.toList)
      if given.contains name || sizeBound ≤ n then none
      else readEntries? d (name :: given) (s.withSize x n) rest
    | none, none => readEntries? d given s rest

/-- Read settings from a YAML stream. A stream without contents gives none. -/
def ofYaml (stream : String) : Except SettingsError Settings :=
  let read := (Yaml.Document.read? stream).bind (fun d =>
    match d.root with
    | none => some standard
    | some (.scalar "" .plain _) => some standard
    | some (.mapping entries _) => readEntries? d [] standard entries
    | some _ => none)
  match read with
  | some s => .ok s
  | none => .error .yaml

end Settings

end HttpContract
