import HttpContract.Fields

/-!
# Status keys

Response schemas are declared under a status code, a class of status codes, or `default`. The more
specific key comes first, both in order and in effect.
-/

namespace HttpContract

/-- What a response schema is declared for. -/
inductive StatusKey where
  /-- One status code. -/
  | exact (code : Nat)
  /-- All codes with a leading digit. -/
  | statusClass (digit : Nat)
  /-- All other codes. -/
  | default
deriving DecidableEq, Repr

namespace StatusKey

/-- Read a key: a code from 100 to 599, a digit from 1 to 5 with `XX` in any case, or `default`. -/
def read? (key : String) : Option StatusKey :=
  if key = "default" then some .default
  else
    match key.toList with
    | [a, b, c] =>
      if b.toUpper = 'X' ∧ c.toUpper = 'X' then
        if '1' ≤ a ∧ a ≤ '5' then some (.statusClass (a.toNat - 48)) else none
      else if [a, b, c].all Char.isDigit then
        let code := (a.toNat - 48) * 100 + (b.toNat - 48) * 10 + (c.toNat - 48)
        if 100 ≤ code ∧ code ≤ 599 then some (.exact code) else none
      else none
    | _ => none

/-- The class of a code. Classes are bytes, so hundreds above 255 wrap around. -/
def classOf (code : Nat) : StatusKey := .statusClass (code / 100 % 256)

/-- The key as a text. -/
def display : StatusKey → String
  | .exact code => toString code
  | .statusClass digit => toString digit ++ "XX"
  | .default => "default"

/-- The order of keys: codes, then classes, then `default`. -/
def before : StatusKey → StatusKey → Bool
  | .exact a, .exact b => a < b
  | .exact _, _ => true
  | .statusClass a, .statusClass b => a < b
  | .statusClass _, .default => true
  | _, _ => false

/-- Store a value under a key in a list that ascends by keys, replacing what was there. -/
def insert {α : Type} (key : StatusKey) (value : α) : List (StatusKey × α) → List (StatusKey × α)
  | [] => [(key, value)]
  | (k, v) :: rest =>
    if k = key then (key, value) :: rest
    else if before key k then (key, value) :: (k, v) :: rest
    else (k, v) :: insert key value rest

end StatusKey

end HttpContract
