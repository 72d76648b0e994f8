import HttpContract.Json

/-!
# Options of compilation and validation
-/

namespace HttpContract

/-- How schemas are compiled and values validated. -/
structure Options where
  /-- Reject keywords that are not known. -/
  strict : Bool
  /-- Drop properties that the schema does not declare. -/
  removeAdditional : Bool
  /-- Fill absent properties from their defaults. -/
  useDefaults : Bool
  /-- Convert scalars to the declared type. -/
  coerceTypes : Bool
  /-- Report every violation instead of the first. -/
  allErrors : Bool
deriving DecidableEq, Repr

namespace Options

/-- Lenient keywords, thorough normalization, complete reports. -/
def standard : Options := ⟨false, true, true, true, true⟩

instance : Inhabited Options := ⟨standard⟩

/-- Values are checked as they are. -/
def Passive (o : Options) : Prop :=
  o.removeAdditional = false ∧ o.useDefaults = false ∧ o.coerceTypes = false

/-- Members stay: none is dropped and none filled in. -/
def Keeping (o : Options) : Prop := o.removeAdditional = false ∧ o.useDefaults = false

theorem Passive.keeping {o : Options} (h : o.Passive) : o.Keeping := ⟨h.1, h.2.1⟩

/-- The options with which values are checked as they are. -/
def passive (o : Options) : Options :=
  { o with removeAdditional := false, useDefaults := false, coerceTypes := false }

theorem passive_passive (o : Options) : o.passive.Passive := ⟨rfl, rfl, rfl⟩

/-- How many violations are reported at most. -/
def limit (o : Options) {α : Type} (errors : List α) : List α :=
  if o.allErrors then errors else errors.take 1

end Options

end HttpContract
