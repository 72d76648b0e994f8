import HttpContract.Json

/-!
# Places in values

A place is told by the steps that lead to it, keys of objects and indices of lists.
-/

namespace HttpContract

/-- A step into a value. -/
inductive Step where
  | key (name : String)
  | index (i : Nat)
deriving DecidableEq

/-- The part of a value that a step leads to. -/
def Json.child? : Json → Step → Option Json
  | .obj members, .key name => Fields.get? members name
  | .arr items, .index i => items[i]?
  | _, _ => none

/-- The part of a value at a place. -/
def Json.part? : Json → List Step → Option Json
  | v, [] => some v
  | v, step :: rest => (v.child? step).bind (fun x => part? x rest)

namespace Json

@[simp] theorem part?_nil (v : Json) : part? v [] = some v := by
  cases v <;> rfl

theorem part?_cons (v : Json) (step : Step) (rest : List Step) :
    part? v (step :: rest) = (v.child? step).bind (fun x => part? x rest) := by
  cases v <;> rfl

theorem part?_key_eq_some_iff {members : Fields Json} {name : String} {rest : List Step}
    {y : Json} : part? (.obj members) (.key name :: rest) = some y ↔
      ∃ x, Fields.get? members name = some x ∧ part? x rest = some y := by
  rw [part?_cons, child?, Option.bind_eq_some_iff]

theorem part?_index_eq_some_iff {items : List Json} {i : Nat} {rest : List Step} {y : Json} :
    part? (.arr items) (.index i :: rest) = some y ↔
      ∃ x, items[i]? = some x ∧ part? x rest = some y := by
  rw [part?_cons, child?, Option.bind_eq_some_iff]

theorem part?_append (v : Json) (path rest : List Step) :
    part? v (path ++ rest) = (part? v path).bind (fun x => part? x rest) := by
  induction path generalizing v with
  | nil => simp
  | cons step path ih =>
    rw [List.cons_append, part?_cons, part?_cons]
    cases v.child? step with
    | none => rfl
    | some x => exact ih x

/-- The value `x` stands in the value `v` at a place. -/
inductive Within : (v : Json) → (path : List Step) → (x : Json) → Prop where
  | here {v : Json} : Within v [] v
  | member {members : Fields Json} {key : String} {v x : Json} {path : List Step}
      (hv : (key, v) ∈ members) (h : Within v path x) : Within (.obj members) (.key key :: path) x
  | item {items : List Json} {i : Nat} {v x : Json} {path : List Step} (hv : items[i]? = some v)
      (h : Within v path x) : Within (.arr items) (.index i :: path) x

theorem Within.trans {v x y : Json} {path rest : List Step} (h : Within v path x)
    (h' : Within x rest y) : Within v (path ++ rest) y := by
  induction h with
  | here => exact h'
  | member hv _ ih => exact .member hv (ih h')
  | item hv _ ih => exact .item hv (ih h')

theorem within_of_get? {v x : Json} {key : String} (h : v.get? key = some x) :
    Within v [.key key] x := by
  cases v with
  | obj members => exact .member (Fields.mem_of_get? h) .here
  | _ => cases h

end Json

end HttpContract
