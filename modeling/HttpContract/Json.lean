import HttpContract.Fields
import HttpContract.Binary64

/-!
# JSON documents

A document is null, a boolean, a number, a text, a list or an object. Objects list their members
in ascending key order (`Json.Ordered`), so that two documents are equal exactly when they read
the same. A number is either an integer of 64 bits or a binary64 number, and the two kinds stay
apart: `1` and `1.0` are different documents, although they denote the same number
(`Json.equivalent`).
-/

namespace HttpContract

/-! ## Numbers -/

/-- The least signed word of 64 bits. -/
abbrev Json.Integer.least : Int := -0x8000000000000000

/-- The first integer beyond the unsigned words of 64 bits. -/
abbrev Json.Integer.limit : Int := 0x10000000000000000

/-- An integer that fits a signed or an unsigned word of 64 bits. -/
structure Json.Integer where
  val : Int
  lower : Json.Integer.least ≤ val
  upper : val < Json.Integer.limit
deriving DecidableEq

namespace Json.Integer

/-- The integer `n`, if it fits. -/
def ofInt? (n : Int) : Option Integer :=
  if h : least ≤ n ∧ n < limit then some ⟨n, h.1, h.2⟩ else none

/-- The natural `n`, if it fits. -/
def ofNat? (n : Nat) : Option Integer := ofInt? n

@[simp] theorem ofInt?_val (n : Integer) : ofInt? n.val = some n := by
  unfold ofInt?
  rw [dif_pos ⟨n.lower, n.upper⟩]

theorem ofInt?_eq_some_iff {n : Int} {i : Integer} : ofInt? n = some i ↔ i.val = n := by
  constructor
  · intro h
    unfold ofInt? at h
    split at h
    · rw [← Option.some.inj h]
    · cases h
  · rintro rfl
    exact ofInt?_val i

end Json.Integer

/-- A number of a document. -/
inductive Json.Number where
  /-- Written without fraction and exponent. -/
  | int (n : Json.Integer)
  /-- Every other number. -/
  | float (x : Binary64)
deriving DecidableEq

namespace Json.Number

/-- The number denoted. -/
def toRat : Number → Rat
  | int n => n.val
  | float x => x.toRat

/-- Whether the number has no fraction. -/
def isIntegral : Number → Bool
  | int _ => true
  | float x => x.isIntegral

/-- The nearest binary64 number. -/
def toBinary64 : Number → Binary64
  | int n => (Binary64.ofInt? n.val).getD (Binary64.zero false)
  | float x => x

/-- The value of a natural written as an integer. -/
def toNat? : Number → Option Nat
  | int n => if 0 ≤ n.val then some n.val.toNat else none
  | float _ => none

/-- A number below 2 ^ 64. -/
def ofNat (n : Nat) : Number :=
  (Integer.ofNat? n).elim (float ((Binary64.ofInt? n).getD (Binary64.zero false))) int

end Json.Number

/-! ## Documents -/

/-- A JSON document. -/
inductive Json where
  | null
  | bool (b : Bool)
  | num (n : Json.Number)
  | str (s : String)
  | arr (items : List Json)
  | obj (members : List (String × Json))
deriving Inhabited

namespace Json

/-! ### Equality -/

mutual

/-- Whether two documents are the same. -/
def beq : Json → Json → Bool
  | .null, .null => true
  | .bool a, .bool b => a == b
  | .num a, .num b => decide (a = b)
  | .str a, .str b => a == b
  | .arr a, .arr b => beqItems a b
  | .obj a, .obj b => beqMembers a b
  | _, _ => false
termination_by structural a => a

/-- Whether two lists of documents are the same. -/
def beqItems : List Json → List Json → Bool
  | [], [] => true
  | a :: as, b :: bs => beq a b && beqItems as bs
  | _, _ => false
termination_by structural a => a

/-- Whether two lists of members are the same. -/
def beqMembers : List (String × Json) → List (String × Json) → Bool
  | [], [] => true
  | (k, a) :: as, (l, b) :: bs => k == l && beq a b && beqMembers as bs
  | _, _ => false
termination_by structural a => a

end

mutual

theorem beq_iff : ∀ a b : Json, beq a b = true ↔ a = b
  | .null, b => by cases b <;> simp [beq]
  | .bool x, b => by cases b <;> simp [beq]
  | .num x, b => by cases b <;> simp [beq]
  | .str x, b => by cases b <;> simp [beq]
  | .arr xs, b => by
    cases b with
    | arr ys => simp [beq, beqItems_iff xs ys]
    | _ => simp [beq]
  | .obj xs, b => by
    cases b with
    | obj ys => simp [beq, beqMembers_iff xs ys]
    | _ => simp [beq]

theorem beqItems_iff : ∀ a b : List Json, beqItems a b = true ↔ a = b
  | [], b => by cases b <;> simp [beqItems]
  | x :: xs, b => by
    cases b with
    | nil => simp [beqItems]
    | cons y ys => simp [beqItems, beq_iff x y, beqItems_iff xs ys]

theorem beqMembers_iff : ∀ a b : List (String × Json), beqMembers a b = true ↔ a = b
  | [], b => by cases b <;> simp [beqMembers]
  | (k, x) :: xs, b => by
    cases b with
    | nil => simp [beqMembers]
    | cons y ys =>
      obtain ⟨l, y⟩ := y
      simp [beqMembers, beq_iff x y, beqMembers_iff xs ys]

end

instance : DecidableEq Json := fun a b => decidable_of_iff _ (beq_iff a b)

mutual

/-- Whether two documents denote the same value: numbers are compared as numbers. -/
def equivalent : Json → Json → Bool
  | .null, .null => true
  | .bool a, .bool b => a == b
  | .num a, .num b => decide (a.toRat = b.toRat)
  | .str a, .str b => a == b
  | .arr a, .arr b => equivalentItems a b
  | .obj a, .obj b => equivalentMembers a b
  | _, _ => false
termination_by structural a => a

/-- Whether two lists denote the same values, place by place. -/
def equivalentItems : List Json → List Json → Bool
  | [], [] => true
  | a :: as, b :: bs => equivalent a b && equivalentItems as bs
  | _, _ => false
termination_by structural a => a

/-- Whether two objects have the same keys with the same values. -/
def equivalentMembers : List (String × Json) → List (String × Json) → Bool
  | [], [] => true
  | (k, a) :: as, (l, b) :: bs => k == l && equivalent a b && equivalentMembers as bs
  | _, _ => false
termination_by structural a => a

end

/-! ### Views -/

/-- The name of a document's kind. -/
def kindName : Json → String
  | .null => "null"
  | .bool _ => "boolean"
  | .num _ => "number"
  | .str _ => "string"
  | .arr _ => "array"
  | .obj _ => "object"

/-- The members of an object. -/
def members? : Json → Option (Fields Json)
  | .obj m => some m
  | _ => none

/-- The items of a list. -/
def items? : Json → Option (List Json)
  | .arr xs => some xs
  | _ => none

/-- The characters of a text. -/
def text? : Json → Option String
  | .str s => some s
  | _ => none

/-- The member of an object under `key`. -/
def get? (v : Json) (key : String) : Option Json :=
  match v with
  | .obj m => Fields.get? m key
  | _ => none

/-- The object with the given members, listed in key order. -/
def ofMembers (entries : List (String × Json)) : Json := .obj (Fields.ofList entries)

/-- A natural as a document. -/
def ofNat (n : Nat) : Json := .num (Number.ofNat n)

mutual

/-- How many lists and objects are nested in one another at most. -/
def depth : Json → Nat
  | .arr xs => depthItems xs + 1
  | .obj ms => depthMembers ms + 1
  | _ => 0
termination_by structural v => v

/-- The greatest depth of the items. -/
def depthItems : List Json → Nat
  | [] => 0
  | x :: xs => max (depth x) (depthItems xs)
termination_by structural v => v

/-- The greatest depth of the members' values. -/
def depthMembers : List (String × Json) → Nat
  | [] => 0
  | (_, x) :: xs => max (depth x) (depthMembers xs)
termination_by structural v => v

end

theorem depth_le_depthItems {items : List Json} {x : Json} (h : x ∈ items) :
    x.depth ≤ depthItems items := by
  induction items with
  | nil => simp at h
  | cons y rest ih =>
    rw [depthItems]
    rcases List.mem_cons.mp h with rfl | h
    · exact Nat.le_max_left _ _
    · exact Nat.le_trans (ih h) (Nat.le_max_right _ _)

theorem depth_le_depthMembers {members : List (String × Json)} {m : String × Json}
    (h : m ∈ members) : m.2.depth ≤ depthMembers members := by
  induction members with
  | nil => simp at h
  | cons x rest ih =>
    rcases x with ⟨k, v⟩
    rw [depthMembers]
    rcases List.mem_cons.mp h with rfl | h
    · exact Nat.le_max_left _ _
    · exact Nat.le_trans (ih h) (Nat.le_max_right _ _)

mutual

/-- How many documents a document is made of, itself included. -/
def size : Json → Nat
  | .arr xs => sizeItems xs + 1
  | .obj ms => sizeMembers ms + 1
  | _ => 1
termination_by structural v => v

/-- The sizes of the items together. -/
def sizeItems : List Json → Nat
  | [] => 0
  | x :: xs => size x + sizeItems xs
termination_by structural v => v

/-- The sizes of the members' values together. -/
def sizeMembers : List (String × Json) → Nat
  | [] => 0
  | (_, x) :: xs => size x + sizeMembers xs
termination_by structural v => v

end

mutual

/-- Every object lists its members in strictly ascending key order. -/
def Ordered : Json → Prop
  | .arr xs => OrderedItems xs
  | .obj ms => Fields.Ordered ms ∧ OrderedMembers ms
  | _ => True
termination_by structural v => v

/-- Every item is ordered. -/
def OrderedItems : List Json → Prop
  | [] => True
  | x :: xs => Ordered x ∧ OrderedItems xs
termination_by structural v => v

/-- Every member's value is ordered. -/
def OrderedMembers : List (String × Json) → Prop
  | [] => True
  | (_, x) :: xs => Ordered x ∧ OrderedMembers xs
termination_by structural v => v

end

end Json

end HttpContract
