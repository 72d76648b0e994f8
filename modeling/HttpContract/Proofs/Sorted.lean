import HttpContract.Proofs.Pointwise
import HttpContract.Json

/-!
# Documents up to the order of members

`Json.sorted` puts the members of every object into ascending order, as a reader of the text does.
Documents whose members are in this order already are left alone (`Json.sorted_of_ordered`), and
ordered listings of the same entries are equal (`Fields.eq_of_get?`). Of entries with one key a
listing holds the last one (`Fields.last?`).
-/

namespace HttpContract

namespace Fields

variable {α β : Type}

theorem ordered_cons_iff {k : String} {v : α} {rest : Fields α} :
    Ordered ((k, v) :: rest) ↔ (∀ m ∈ rest, k < m.1) ∧ Ordered rest :=
  List.pairwise_cons

theorem get?_eq_none_of_lt {m : Fields α} {key : String} (h : ∀ x ∈ m, key < x.1) :
    get? m key = none := by
  cases hget : get? m key with
  | none => rfl
  | some v => exact absurd (h _ (mem_of_get? hget)) (String.lt_irrefl key)

/-- Ordered listings with the same entries are equal. -/
theorem eq_of_get? {m m' : Fields α} (h : Ordered m) (h' : Ordered m')
    (hget : ∀ key, get? m key = get? m' key) : m = m' := by
  induction m generalizing m' with
  | nil =>
    cases m' with
    | nil => rfl
    | cons y rest' =>
      rcases y with ⟨k', v'⟩
      simpa [get?_cons] using hget k'
  | cons x rest ih =>
    rcases x with ⟨k, v⟩
    cases m' with
    | nil => simpa [get?_cons] using hget k
    | cons y rest' =>
      rcases y with ⟨k', v'⟩
      rcases ordered_cons_iff.mp h with ⟨hlt, hrest⟩
      rcases ordered_cons_iff.mp h' with ⟨hlt', hrest'⟩
      -- the smaller of the two first keys would be missing on the other side
      have hk : k = k' := by
        refine Classical.byContradiction (fun hne => ?_)
        rcases Std.Trichotomous.rel_or_eq_or_rel_swap (r := fun a b : String => a < b) (a := k)
          (b := k') with hless | heq | hless
        · have hnone := get?_eq_none_of_lt (m := rest')
            (fun x hx => String.lt_trans hless (hlt' x hx))
          have hkey := hget k
          rw [get?_cons, get?_cons, if_pos rfl, if_neg (fun h => hne h.symm), hnone] at hkey
          cases hkey
        · exact hne heq
        · have hnone := get?_eq_none_of_lt (m := rest)
            (fun x hx => String.lt_trans hless (hlt x hx))
          have hkey := hget k'
          rw [get?_cons, get?_cons, if_pos rfl, if_neg hne, hnone] at hkey
          cases hkey
      subst hk
      have hv : v = v' := by simpa [get?_cons] using hget k
      subst hv
      congr 1
      refine ih hrest hrest' (fun key => ?_)
      by_cases heq : k = key
      · subst heq
        rw [get?_eq_none_of_lt hlt, get?_eq_none_of_lt hlt']
      · simpa [get?_cons, heq] using hget key

theorem ordered_insert {m : Fields α} (h : Ordered m) (key : String) (value : α) :
    Ordered (insert m key value) := by
  induction m with
  | nil => exact ordered_cons_iff.mpr ⟨by simp, List.Pairwise.nil⟩
  | cons x rest ih =>
    rcases x with ⟨k, v⟩
    rcases ordered_cons_iff.mp h with ⟨hlt, hrest⟩
    unfold insert
    split
    · next heq =>
      subst heq
      exact ordered_cons_iff.mpr ⟨hlt, hrest⟩
    · next hne =>
      split
      · next hless =>
        refine ordered_cons_iff.mpr ⟨fun m hm => ?_, h⟩
        rcases List.mem_cons.mp hm with rfl | hm
        · exact hless
        · exact String.lt_trans hless (hlt m hm)
      · next hnot =>
        have hgreater : k < key := Std.lt_of_le_of_ne (String.not_lt.mp hnot) hne
        refine ordered_cons_iff.mpr ⟨fun m hm => ?_, ih hrest⟩
        rcases mem_of_mem_insert hm with rfl | hm
        · exact hgreater
        · exact hlt m hm

theorem ordered_foldl_insert {m : Fields α} (h : Ordered m) (entries : List (String × α)) :
    Ordered (entries.foldl (fun m e => insert m e.1 e.2) m) := by
  induction entries generalizing m with
  | nil => exact h
  | cons e rest ih => exact ih (ordered_insert h e.1 e.2)

theorem ordered_ofList (entries : List (String × α)) : Ordered (ofList entries) :=
  ordered_foldl_insert List.Pairwise.nil entries

/-- Entries with different keys that are inserted one after the other are found before those that
were there. -/
theorem get?_foldl_insert {entries : List (String × α)} (h : (keys entries).Nodup) (m : Fields α)
    (key : String) : get? (entries.foldl (fun m e => insert m e.1 e.2) m) key =
      (get? entries key).or (get? m key) := by
  induction entries generalizing m with
  | nil => rfl
  | cons e rest ih =>
    rcases e with ⟨k, v⟩
    rcases List.nodup_cons.mp h with ⟨hk, hrest⟩
    rw [List.foldl_cons, ih hrest, get?_cons]
    by_cases heq : k = key
    · subst heq
      have hnone : get? rest k = none := by
        rw [← Option.not_isSome_iff_eq_none]
        exact fun hsome => hk ((contains_iff_mem_keys rest k).mp hsome)
      simp [hnone]
    · simp [heq, get?_insert_of_ne m v heq]

/-- Of entries with different keys the listing has each one. -/
theorem get?_ofList {entries : List (String × α)} (h : (keys entries).Nodup) (key : String) :
    get? (ofList entries) key = get? entries key := by
  simpa [ofList] using get?_foldl_insert h [] key

/-- The value of the last entry with a key. -/
def last? (entries : List (String × α)) (key : String) : Option α := get? entries.reverse key

theorem last?_append (xs ys : List (String × α)) (key : String) :
    last? (xs ++ ys) key = (last? ys key).or (last? xs key) := by
  unfold last?
  rw [List.reverse_append, get?_append]

theorem isSome_last?_of_mem {entries : List (String × α)} {key : String} {value : α}
    (h : (key, value) ∈ entries) : (last? entries key).isSome = true :=
  (contains_iff entries.reverse key).mpr ⟨value, List.mem_reverse.mpr h⟩

theorem mem_of_last? {entries : List (String × α)} {key : String} {value : α}
    (h : last? entries key = some value) : (key, value) ∈ entries :=
  List.mem_reverse.mp (mem_of_get? h)

/-- Of entries that are inserted one after the other the last one with a key is found; where there
is none, what was there before. -/
theorem get?_foldl_insert_last (entries : List (String × α)) (m : Fields α) (key : String) :
    get? (entries.foldl (fun m e => insert m e.1 e.2) m) key =
      (last? entries key).or (get? m key) := by
  induction entries generalizing m with
  | nil => rfl
  | cons e rest ih =>
    obtain ⟨k, v⟩ := e
    have hhere : get? (insert m k v) key = (last? [(k, v)] key).or (get? m key) := by
      by_cases heq : k = key
      · subst heq
        simp [last?, get?_cons]
      · simp [last?, get?_cons, heq, get?_insert_of_ne m v heq]
    have hlast : last? ((k, v) :: rest) key = (last? rest key).or (last? [(k, v)] key) :=
      last?_append [(k, v)] rest key
    rw [List.foldl_cons, ih, hhere, hlast, Option.or_assoc]

/-- Of entries with one key the listing has the last one. -/
theorem get?_ofList_last (entries : List (String × α)) (key : String) :
    get? (ofList entries) key = last? entries key := by
  rw [ofList, get?_foldl_insert_last, get?_nil, Option.or_none]

/-- Values that are replaced under their keys are found replaced. -/
theorem get?_map (f : String → α → β) (m : Fields α) (key : String) :
    get? (m.map (fun x => (x.1, f x.1 x.2))) key = (get? m key).map (f key) := by
  induction m with
  | nil => rfl
  | cons x rest ih =>
    rcases x with ⟨k, v⟩
    rw [List.map_cons, get?_cons, get?_cons, ih]
    split
    · next heq =>
      subst heq
      rfl
    · rfl

/-- Entries are kept as their keys say. -/
theorem get?_filter_keys (test : String → Bool) (m : Fields α) (key : String) :
    get? (m.filter (fun x => test x.1)) key = if test key then get? m key else none := by
  induction m with
  | nil => simp
  | cons x rest ih =>
    rcases x with ⟨k, v⟩
    rw [List.filter_cons, get?_cons]
    by_cases heq : k = key
    · subst heq
      by_cases htest : test k = true
      · simp [htest, get?_cons]
      · simp [htest, ih]
    · rw [if_neg heq, ← ih]
      split
      · rw [get?_cons, if_neg heq]
      · rfl

/-- An entry that is kept may as well be inserted among those that are kept. -/
theorem filter_insert {test : String → Bool} {m : Fields α} (h : Ordered m) {key : String}
    (hkey : test key = true) (value : α) : (insert m key value).filter (fun x => test x.1) =
      insert (m.filter (fun x => test x.1)) key value := by
  refine eq_of_get? ((ordered_insert h key value).filter _) (ordered_insert (h.filter _) key value)
    (fun other => ?_)
  rw [get?_filter_keys]
  by_cases heq : key = other
  · subst heq
    simp [hkey]
  · rw [get?_insert_of_ne _ _ heq, get?_insert_of_ne _ _ heq, get?_filter_keys]

/-- Where no key is repeated, every entry is found. -/
theorem get?_of_mem_of_nodup {m : Fields α} (h : (keys m).Nodup) {x : String × α} (hx : x ∈ m) :
    get? m x.1 = some x.2 := by
  induction m with
  | nil => simp at hx
  | cons y rest ih =>
    rcases y with ⟨k, v⟩
    rcases List.nodup_cons.mp h with ⟨hk, hrest⟩
    rw [get?_cons]
    rcases List.mem_cons.mp hx with rfl | hmem
    · rw [if_pos rfl]
    · have hne : k ≠ x.1 := by
        rintro rfl
        exact hk (List.mem_map.mpr ⟨x, hmem, rfl⟩)
      rw [if_neg hne]
      exact ih hrest hmem

theorem keys_map (f : String → α → β) (m : Fields α) :
    keys (m.map (fun x => (x.1, f x.1 x.2))) = keys m := by
  simp [keys, Function.comp_def]

theorem ordered_map (f : String → α → β) {m : Fields α} (h : Ordered m) :
    Ordered (m.map (fun x => (x.1, f x.1 x.2))) :=
  List.pairwise_map.mpr h

theorem ordered_of_keys_eq {β : Type} {m : Fields α} {m' : Fields β}
    (hkeys : keys m' = keys m) (h : Ordered m) : Ordered m' := by
  have hlt : (keys m).Pairwise (· < ·) := List.pairwise_map.mpr h
  rw [← hkeys] at hlt
  exact List.pairwise_map.mp hlt

theorem nodup_keys_of_ordered {m : Fields α} (h : Ordered m) : (keys m).Nodup := by
  unfold keys
  rw [List.nodup_iff_pairwise_ne, List.pairwise_map]
  refine h.imp (fun {a b} hlt heq => ?_)
  rw [heq] at hlt
  exact String.lt_irrefl _ hlt

/-- In an ordered listing every entry is found. -/
theorem get?_of_mem {m : Fields α} (h : Ordered m) {x : String × α} (hx : x ∈ m) :
    get? m x.1 = some x.2 :=
  get?_of_mem_of_nodup (nodup_keys_of_ordered h) hx

theorem ofList_of_ordered {m : Fields α} (h : Ordered m) : ofList m = m :=
  eq_of_get? (ordered_ofList m) h (get?_ofList (nodup_keys_of_ordered h))

end Fields

namespace Json

mutual

/-- The document with the members of every object in ascending order; of several members with one
key the last one counts. -/
def sorted : Json → Json
  | .arr xs => .arr (sortedItems xs)
  | .obj ms => .obj (Fields.ofList (sortedMembers ms))
  | v => v
termination_by structural v => v

/-- The items, each with its members sorted. -/
def sortedItems : List Json → List Json
  | [] => []
  | x :: rest => sorted x :: sortedItems rest
termination_by structural v => v

/-- The members in their order, the value of each with its members sorted. -/
def sortedMembers : List (String × Json) → List (String × Json)
  | [] => []
  | (k, x) :: rest => (k, sorted x) :: sortedMembers rest
termination_by structural v => v

end

theorem sortedItems_eq : ∀ xs : List Json, sortedItems xs = xs.map sorted
  | [] => rfl
  | x :: rest => by rw [sortedItems, sortedItems_eq rest, List.map_cons]

theorem sortedMembers_eq : ∀ ms : Fields Json,
    sortedMembers ms = ms.map (fun m => (m.1, sorted m.2))
  | [] => rfl
  | (k, x) :: rest => by rw [sortedMembers, sortedMembers_eq rest, List.map_cons]

theorem ordered_of_mem {ms : Fields Json} (h : OrderedMembers ms) {m : String × Json}
    (hm : m ∈ ms) : m.2.Ordered := by
  induction ms with
  | nil => simp at hm
  | cons x rest ih =>
    rcases x with ⟨k, v⟩
    rcases List.mem_cons.mp hm with rfl | hm
    · exact h.1
    · exact ih h.2 hm

theorem ordered_of_mem_items {items : List Json} (h : OrderedItems items) {x : Json}
    (hx : x ∈ items) : x.Ordered := by
  induction items with
  | nil => simp at hx
  | cons y rest ih =>
    rcases List.mem_cons.mp hx with rfl | hx
    · exact h.1
    · exact ih h.2 hx

theorem orderedItems_iff {items : List Json} : OrderedItems items ↔ ∀ x ∈ items, x.Ordered := by
  induction items with
  | nil => simp [OrderedItems]
  | cons x rest ih => simp [OrderedItems, ih]

theorem orderedMembers_iff {members : Fields Json} :
    OrderedMembers members ↔ ∀ m ∈ members, m.2.Ordered := by
  induction members with
  | nil => simp [OrderedMembers]
  | cons m rest ih =>
    rcases m with ⟨k, x⟩
    simp [OrderedMembers, ih]

theorem ordered_insert {members : Fields Json} (h : (Json.obj members).Ordered) (key : String)
    {v : Json} (hv : v.Ordered) : (Json.obj (Fields.insert members key v)).Ordered := by
  refine ⟨Fields.ordered_insert h.1 key v, orderedMembers_iff.mpr (fun m hm => ?_)⟩
  rcases Fields.mem_of_mem_insert hm with rfl | hm
  · exact hv
  · exact ordered_of_mem h.2 hm

theorem ordered_filter {members : Fields Json} (h : (Json.obj members).Ordered)
    (test : String × Json → Bool) : (Json.obj (members.filter test)).Ordered := by
  refine ⟨h.1.filter test, orderedMembers_iff.mpr (fun m hm => ?_)⟩
  exact ordered_of_mem h.2 (List.mem_of_mem_filter hm)

mutual

theorem sorted_of_ordered : ∀ v : Json, v.Ordered → v.sorted = v
  | .arr xs, h => by rw [sorted, sortedItems_of_ordered xs h]
  | .obj ms, h => by
    rw [sorted, sortedMembers_of_ordered ms h.2, Fields.ofList_of_ordered h.1]
  | .null, _ => rfl
  | .bool _, _ => rfl
  | .num _, _ => rfl
  | .str _, _ => rfl
termination_by structural v => v

theorem sortedItems_of_ordered : ∀ xs : List Json, OrderedItems xs → sortedItems xs = xs
  | [], _ => rfl
  | x :: rest, h => by rw [sortedItems, sorted_of_ordered x h.1, sortedItems_of_ordered rest h.2]
termination_by structural v => v

theorem sortedMembers_of_ordered : ∀ ms : Fields Json, OrderedMembers ms → sortedMembers ms = ms
  | [], _ => rfl
  | (k, x) :: rest, h => by
    rw [sortedMembers, sorted_of_ordered x h.1, sortedMembers_of_ordered rest h.2]
termination_by structural v => v

end

end Json

end HttpContract
