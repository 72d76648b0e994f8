/-!
# Finite maps from text, in key order

`Fields α` lists the entries of a finite map in strictly ascending order of their keys. Texts are
compared code point by code point, which is also the order of their UTF-8 bytes. Lookups read the
first entry of a key, so they answer on every list; `Fields.Ordered` says that a list is the one
listing of its map, and `insert`, `erase` and `filter` keep it so.
-/

namespace HttpContract

/-- The entries of a finite map from text. -/
abbrev Fields (α : Type) := List (String × α)

namespace Fields

variable {α β : Type}

/-- Keys ascend strictly, so no key occurs twice. -/
def Ordered (m : Fields α) : Prop := m.Pairwise (fun a b => a.1 < b.1)

/-- The value stored under `key`. -/
def get? : Fields α → String → Option α
  | [], _ => none
  | (k, v) :: rest, key => if k = key then some v else get? rest key

/-- Whether `key` occurs. -/
def contains (m : Fields α) (key : String) : Bool := (get? m key).isSome

/-- Store `value` under `key`, replacing what was there. -/
def insert : Fields α → String → α → Fields α
  | [], key, value => [(key, value)]
  | (k, v) :: rest, key, value =>
    if k = key then (key, value) :: rest
    else if key < k then (key, value) :: (k, v) :: rest
    else (k, v) :: insert rest key value

/-- Drop the entry of `key`. -/
def erase (m : Fields α) (key : String) : Fields α := m.filter (fun e => e.1 != key)

/-- The keys, in ascending order. -/
def keys (m : Fields α) : List String := m.map (·.1)

/-- The values, in the order of their keys. -/
def values (m : Fields α) : List α := m.map (·.2)

/-- Insert entries one after the other; of two entries with one key the later stays. -/
def ofList (entries : List (String × α)) : Fields α :=
  entries.foldl (fun m e => insert m e.1 e.2) []

/-- Apply `f` to every value and keep the keys. -/
def mapValues (f : α → β) (m : Fields α) : Fields β := m.map (fun e => (e.1, f e.2))

@[simp] theorem get?_nil (key : String) : get? ([] : Fields α) key = none := rfl

theorem get?_cons (k : String) (v : α) (rest : Fields α) (key : String) :
    get? ((k, v) :: rest) key = if k = key then some v else get? rest key := rfl

theorem get?_append (m m' : Fields α) (key : String) :
    get? (m ++ m') key = (get? m key).or (get? m' key) := by
  induction m with
  | nil => rfl
  | cons e rest ih =>
    obtain ⟨k, v⟩ := e
    rw [List.cons_append, get?_cons, get?_cons, ih]
    split <;> rfl

/-- Where the keys decide what is left out, the entries that stay are those that were found. -/
theorem get?_filterMap {f : String × α → Option (String × β)} {key : String}
    (hkey : ∀ m b, f m = some b → b.1 = m.1)
    (hleft : ∀ a a', f (key, a) = none → f (key, a') = none) (m : Fields α) :
    get? (m.filterMap f) key = (get? m key).bind (fun a => (f (key, a)).map (·.2)) := by
  induction m with
  | nil => rfl
  | cons e rest ih =>
    obtain ⟨k, a⟩ := e
    rw [get?_cons, List.filterMap_cons]
    by_cases heq : k = key
    · subst heq
      rw [if_pos rfl]
      cases hf : f (k, a) with
      | some b =>
        obtain ⟨k', v⟩ := b
        obtain rfl : k' = k := hkey _ _ hf
        simp [get?_cons, hf]
      | none =>
        rw [ih]
        simp [hleft a _ hf]
    · rw [if_neg heq]
      cases hf : f (k, a) with
      | some b =>
        obtain ⟨k', v⟩ := b
        obtain rfl : k' = k := hkey _ _ hf
        simpa [get?_cons, heq] using ih
      | none => exact ih

/-- A stored value is found again. -/
@[simp] theorem get?_insert_self (m : Fields α) (key : String) (value : α) :
    get? (insert m key value) key = some value := by
  induction m with
  | nil => simp [insert, get?]
  | cons e rest ih =>
    obtain ⟨k, v⟩ := e
    unfold insert
    split
    · simp [get?]
    · next hne =>
      split
      · simp [get?]
      · simpa [get?, hne] using ih

/-- Storing under one key does not disturb another. -/
theorem get?_insert_of_ne (m : Fields α) {key other : String} (value : α) (h : key ≠ other) :
    get? (insert m key value) other = get? m other := by
  induction m with
  | nil => simp [insert, get?, h]
  | cons e rest ih =>
    obtain ⟨k, v⟩ := e
    unfold insert
    split
    · next heq => subst heq; simp [get?, h]
    · split
      · simp [get?, h]
      · simp [get?, ih]

@[simp] theorem contains_nil (key : String) : contains ([] : Fields α) key = false := rfl

@[simp] theorem contains_cons (k : String) (v : α) (rest : Fields α) (key : String) :
    contains ((k, v) :: rest) key = (decide (k = key) || contains rest key) := by
  unfold contains
  rw [get?_cons]
  split
  · next heq => simp [heq]
  · next hne => simp [hne]

@[simp] theorem contains_insert (m : Fields α) (key other : String) (value : α) :
    contains (insert m key value) other = (decide (key = other) || contains m other) := by
  by_cases heq : key = other
  · subst heq
    simp [contains]
  · simp [contains, get?_insert_of_ne m value heq, heq]

theorem contains_iff_mem_keys (m : Fields α) (key : String) :
    contains m key = true ↔ key ∈ keys m := by
  induction m with
  | nil => simp [keys]
  | cons e rest ih =>
    obtain ⟨k, v⟩ := e
    rw [contains_cons, Bool.or_eq_true, decide_eq_true_eq, ih]
    simp [keys, eq_comm]

/-- The keys that occur are those of the entries. -/
theorem contains_iff (m : Fields α) (key : String) :
    contains m key = true ↔ ∃ value, (key, value) ∈ m := by
  rw [contains_iff_mem_keys, keys, List.mem_map]
  constructor
  · rintro ⟨⟨k, v⟩, hmem, rfl⟩
    exact ⟨v, hmem⟩
  · rintro ⟨v, hmem⟩
    exact ⟨(key, v), hmem, rfl⟩

theorem mem_of_get? {m : Fields α} {key : String} {value : α} (h : get? m key = some value) :
    (key, value) ∈ m := by
  induction m with
  | nil => simp at h
  | cons e rest ih =>
    obtain ⟨k, v⟩ := e
    rw [get?_cons] at h
    split at h
    · next heq =>
      have hv : v = value := Option.some.inj h
      simp [heq, hv]
    · exact List.mem_cons_of_mem _ (ih h)

theorem mem_of_mem_insert {m : Fields α} {key : String} {value : α} {x : String × α}
    (h : x ∈ insert m key value) : x = (key, value) ∨ x ∈ m := by
  induction m with
  | nil => simpa [insert] using h
  | cons y rest ih =>
    rcases y with ⟨k, v⟩
    unfold insert at h
    split at h
    · exact (List.mem_cons.mp h).imp_right (List.mem_cons_of_mem _)
    · split at h
      · exact List.mem_cons.mp h
      · rcases List.mem_cons.mp h with rfl | h
        · exact Or.inr List.mem_cons_self
        · exact (ih h).imp_right (List.mem_cons_of_mem _)

/-- The entries of a listing are among those it was made of. -/
theorem mem_of_mem_ofList {entries : List (String × α)} {x : String × α} (h : x ∈ ofList entries) :
    x ∈ entries := by
  have hfold : ∀ (entries : List (String × α)) (m : Fields α),
      x ∈ entries.foldl (fun m e => insert m e.1 e.2) m → x ∈ m ∨ x ∈ entries := by
    intro entries
    induction entries with
    | nil => exact fun m h => Or.inl h
    | cons e rest ih =>
      intro m h
      rcases ih _ h with h | h
      · rcases mem_of_mem_insert h with rfl | h
        · exact Or.inr List.mem_cons_self
        · exact Or.inl h
      · exact Or.inr (List.mem_cons_of_mem _ h)
  rcases hfold entries [] h with h | h
  · simp at h
  · exact h

end Fields

end HttpContract
