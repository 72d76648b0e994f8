import HttpContract.Evaluation.Library
import HttpContract.Proofs.Pointwise

/-!
# Documents with other references

`Json.relink` applies a map to the texts under the keyword `$ref`, at every depth, and leaves the
rest of a document alone. Such documents have the same shape: the same keys, sizes and kinds.
-/

namespace HttpContract

namespace Json

mutual

/-- Apply a map to the references in a document that stands under a key. -/
def relinkAt (f : String → String) : (k : String) → Json → Json
  | k, .str s => .str (if k = "$ref" then f s else s)
  | _, .arr xs => .arr (relinkItems f xs)
  | _, .obj ms => .obj (relinkMembers f ms)
  | _, v => v
termination_by structural _ v => v

/-- Apply a map to the references in the items of a list. -/
def relinkItems (f : String → String) : List Json → List Json
  | [] => []
  | x :: rest => relinkAt f "" x :: relinkItems f rest
termination_by structural xs => xs

/-- Apply a map to the references in the members of an object. -/
def relinkMembers (f : String → String) : List (String × Json) → List (String × Json)
  | [] => []
  | (k, v) :: rest => (k, relinkAt f k v) :: relinkMembers f rest
termination_by structural ms => ms

end

/-- Apply a map to the references in a document. -/
def relink (f : String → String) (d : Json) : Json := relinkAt f "" d

variable {f : String → String} {k : String}

@[simp] theorem relinkAt_null : relinkAt f k .null = .null := rfl

@[simp] theorem relinkAt_bool (b : Bool) : relinkAt f k (.bool b) = .bool b := rfl

@[simp] theorem relinkAt_num (n : Number) : relinkAt f k (.num n) = .num n := rfl

theorem relinkAt_str (s : String) :
    relinkAt f k (.str s) = .str (if k = "$ref" then f s else s) := by rw [relinkAt]

theorem relinkItems_eq (xs : List Json) : relinkItems f xs = xs.map (relinkAt f "") := by
  induction xs with
  | nil => rw [relinkItems, List.map_nil]
  | cons x rest ih => rw [relinkItems, List.map_cons, ih]

theorem relinkMembers_eq (ms : Fields Json) :
    relinkMembers f ms = ms.map (fun m => (m.1, relinkAt f m.1 m.2)) := by
  induction ms with
  | nil => rw [relinkMembers, List.map_nil]
  | cons m rest ih => rw [relinkMembers, List.map_cons, ih]

@[simp] theorem relinkAt_arr (xs : List Json) :
    relinkAt f k (.arr xs) = .arr (xs.map (relinkAt f "")) := by
  rw [relinkAt, relinkItems_eq]

@[simp] theorem relinkAt_obj (ms : Fields Json) :
    relinkAt f k (.obj ms) = .obj (relinkMembers f ms) := by rw [relinkAt]

/-- Under other keys than `$ref` the key does not matter. -/
theorem relinkAt_of_ne (hk : k ≠ "$ref") (d : Json) : relinkAt f k d = relink f d := by
  unfold relink
  cases d with
  | str s => rw [relinkAt_str, relinkAt_str, if_neg hk, if_neg (by decide)]
  | _ => simp

@[simp] theorem relink_str (s : String) : relink f (.str s) = .str s := by
  rw [relink, relinkAt_str, if_neg (by decide)]

/-! ## The shape of the outcome -/

theorem items?_relinkAt (d : Json) :
    (relinkAt f k d).items? = d.items?.map (List.map (relinkAt f "")) := by
  cases d <;> simp [items?, relinkAt_str]

theorem members?_relinkAt (d : Json) :
    (relinkAt f k d).members? = d.members?.map (relinkMembers f) := by
  cases d <;> simp [members?, relinkAt_str]

theorem get?_relinkMembers (ms : Fields Json) (key : String) :
    Fields.get? (relinkMembers f ms) key = (Fields.get? ms key).map (relinkAt f key) := by
  induction ms with
  | nil => rw [relinkMembers]; rfl
  | cons m rest ih =>
    rcases m with ⟨k, v⟩
    rw [relinkMembers, Fields.get?_cons, Fields.get?_cons, ih]
    split
    · next heq => rw [heq]; rfl
    · rfl

@[simp] theorem contains_relinkMembers (ms : Fields Json) (key : String) :
    Fields.contains (relinkMembers f ms) key = Fields.contains ms key := by
  unfold Fields.contains
  rw [get?_relinkMembers, Option.isSome_map]

@[simp] theorem keys_relinkMembers (ms : Fields Json) :
    Fields.keys (relinkMembers f ms) = Fields.keys ms := by
  rw [relinkMembers_eq, Fields.keys, List.map_map]
  rfl

theorem get?_relinkAt (d : Json) (key : String) :
    (relinkAt f k d).get? key = (d.get? key).map (relinkAt f key) := by
  cases d with
  | obj ms => rw [relinkAt_obj]; exact get?_relinkMembers ms key
  | _ => simp [get?, relinkAt_str]

/-- Texts under other keys than `$ref` stay. -/
theorem keywordText?_relinkAt (d : Json) {key : String} (hkey : key ≠ "$ref") :
    Library.keywordText? (relinkAt f k d) key = Library.keywordText? d key := by
  unfold Library.keywordText?
  rw [get?_relinkAt]
  cases d.get? key with
  | none => rfl
  | some v =>
    cases v with
    | str s => simp [relinkAt_str, hkey]
    | _ => simp [text?]

mutual

theorem depth_relinkAt : ∀ (k : String) (d : Json), (relinkAt f k d).depth = d.depth
  | k, .arr xs => by rw [relinkAt, depth, depth, depthItems_relinkItems xs]
  | k, .obj ms => by rw [relinkAt, depth, depth, depthMembers_relinkMembers ms]
  | k, .str s => by rw [relinkAt, depth, depth] <;> simp
  | k, .null => by rw [relinkAt_null]
  | k, .bool b => by rw [relinkAt_bool]
  | k, .num n => by rw [relinkAt_num]
termination_by structural _ d => d

theorem depthItems_relinkItems : ∀ xs : List Json, depthItems (relinkItems f xs) = depthItems xs
  | [] => by rw [relinkItems]
  | x :: rest => by
    rw [relinkItems, depthItems, depthItems, depth_relinkAt "" x, depthItems_relinkItems rest]
termination_by structural xs => xs

theorem depthMembers_relinkMembers : ∀ ms : List (String × Json),
    depthMembers (relinkMembers f ms) = depthMembers ms
  | [] => by rw [relinkMembers]
  | (k, v) :: rest => by
    rw [relinkMembers, depthMembers, depthMembers, depth_relinkAt k v,
      depthMembers_relinkMembers rest]
termination_by structural ms => ms

end

mutual

theorem size_relinkAt : ∀ (k : String) (d : Json), (relinkAt f k d).size = d.size
  | k, .arr xs => by rw [relinkAt, size, size, sizeItems_relinkItems xs]
  | k, .obj ms => by rw [relinkAt, size, size, sizeMembers_relinkMembers ms]
  | k, .str s => by rw [relinkAt, size, size] <;> simp
  | k, .null => by rw [relinkAt_null]
  | k, .bool b => by rw [relinkAt_bool]
  | k, .num n => by rw [relinkAt_num]
termination_by structural _ d => d

theorem sizeItems_relinkItems : ∀ xs : List Json, sizeItems (relinkItems f xs) = sizeItems xs
  | [] => by rw [relinkItems]
  | x :: rest => by
    rw [relinkItems, sizeItems, sizeItems, size_relinkAt "" x, sizeItems_relinkItems rest]
termination_by structural xs => xs

theorem sizeMembers_relinkMembers : ∀ ms : List (String × Json),
    sizeMembers (relinkMembers f ms) = sizeMembers ms
  | [] => by rw [relinkMembers]
  | (k, v) :: rest => by
    rw [relinkMembers, sizeMembers, sizeMembers, size_relinkAt k v, sizeMembers_relinkMembers rest]
termination_by structural ms => ms

end

mutual

theorem relinkAt_inj (hf : Function.Injective f) : ∀ (k : String) (d d' : Json),
    relinkAt f k d = relinkAt f k d' → d = d'
  | k, .arr xs, d', h => by
    cases d' with
    | arr ys =>
      rw [relinkAt, relinkAt] at h
      rw [relinkItems_inj hf xs ys (Json.arr.inj h)]
    | str s => simp [relinkAt_str] at h
    | _ => simp at h
  | k, .obj ms, d', h => by
    cases d' with
    | obj ns =>
      rw [relinkAt, relinkAt] at h
      rw [relinkMembers_inj hf ms ns (Json.obj.inj h)]
    | str s => simp [relinkAt_str] at h
    | _ => simp at h
  | k, .str s, d', h => by
    cases d' with
    | str t =>
      rw [relinkAt_str, relinkAt_str] at h
      have hst := Json.str.inj h
      split at hst
      · rw [hf hst]
      · rw [hst]
    | _ => simp [relinkAt_str] at h
  | k, .null, d', h => by cases d' <;> simp_all [relinkAt_str]
  | k, .bool b, d', h => by cases d' <;> simp_all [relinkAt_str]
  | k, .num n, d', h => by cases d' <;> simp_all [relinkAt_str]
termination_by structural _ d => d

theorem relinkItems_inj (hf : Function.Injective f) : ∀ xs ys : List Json,
    relinkItems f xs = relinkItems f ys → xs = ys
  | [], ys, h => by
    cases ys with
    | nil => rfl
    | cons y rest => simp [relinkItems] at h
  | x :: xs, ys, h => by
    cases ys with
    | nil => simp [relinkItems] at h
    | cons y rest =>
      rw [relinkItems, relinkItems, List.cons.injEq] at h
      rw [relinkAt_inj hf "" x y h.1, relinkItems_inj hf xs rest h.2]
termination_by structural xs => xs

theorem relinkMembers_inj (hf : Function.Injective f) : ∀ ms ns : List (String × Json),
    relinkMembers f ms = relinkMembers f ns → ms = ns
  | [], ns, h => by
    cases ns with
    | nil => rfl
    | cons m rest => rcases m with ⟨k, v⟩; simp [relinkMembers] at h
  | (k, v) :: ms, ns, h => by
    cases ns with
    | nil => simp [relinkMembers] at h
    | cons m rest =>
      rcases m with ⟨l, w⟩
      rw [relinkMembers, relinkMembers, List.cons.injEq, Prod.mk.injEq] at h
      rcases h with ⟨⟨rfl, hvw⟩, hrest⟩
      rw [relinkAt_inj hf k v w hvw, relinkMembers_inj hf ms rest hrest]
termination_by structural ms => ms

end

mutual

/-- The identity leaves every document alone. -/
theorem relinkAt_id : ∀ (k : String) (d : Json), relinkAt id k d = d
  | k, .arr xs => by rw [relinkAt, relinkItems_id xs]
  | k, .obj ms => by rw [relinkAt, relinkMembers_id ms]
  | k, .str s => by rw [relinkAt_str]; simp
  | k, .null => by rw [relinkAt_null]
  | k, .bool b => by rw [relinkAt_bool]
  | k, .num n => by rw [relinkAt_num]
termination_by structural _ d => d

theorem relinkItems_id : ∀ xs : List Json, relinkItems id xs = xs
  | [] => by rw [relinkItems]
  | x :: rest => by rw [relinkItems, relinkAt_id "" x, relinkItems_id rest]
termination_by structural xs => xs

theorem relinkMembers_id : ∀ ms : List (String × Json), relinkMembers id ms = ms
  | [] => by rw [relinkMembers]
  | (k, v) :: rest => by rw [relinkMembers, relinkAt_id k v, relinkMembers_id rest]
termination_by structural ms => ms

end

end Json

end HttpContract
