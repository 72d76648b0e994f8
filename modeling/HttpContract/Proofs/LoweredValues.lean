import Mathlib.Data.List.Dedup
import Mathlib.Data.Option.Basic
import HttpContract.Proofs.Sorted
import HttpContract.Proofs.Pointwise
import HttpContract.Yaml.Lowering

/-!
# What YAML values become

A YAML value becomes a document part by part (`Lowered`): a list becomes a list of the same length,
and a mapping becomes an object with one member for each name that one of its keys stands for. Keys
that are different can stand for one name, as the number `200` and the text `"200"` do, and then
the entry written last is the one that is found. So a document holds all entries of a value
(`Complete`) exactly if no mapping in the value has two keys for one name
(`Value.complete_iff_of_toJson`).
-/

namespace HttpContract

namespace Fields

variable {α : Type}

theorem mem_keys_ofList {entries : List (String × α)} {key : String} :
    key ∈ keys (ofList entries) ↔ key ∈ keys entries := by
  rw [← contains_iff_mem_keys, contains, get?_ofList_last]
  exact (contains_iff_mem_keys entries.reverse key).trans (by simp [keys])

/-- A listing has one entry for each key. -/
theorem length_ofList (entries : List (String × α)) :
    (ofList entries).length = (keys entries).dedup.length := by
  have hperm : (keys (ofList entries)).Perm (keys entries).dedup := by
    refine (List.perm_ext_iff_of_nodup (nodup_keys_of_ordered (ordered_ofList entries))
      (List.nodup_dedup _)).mpr (fun key => ?_)
    rw [List.mem_dedup, mem_keys_ofList]
  simpa [keys] using hperm.length_eq

end Fields

namespace Yaml.Value

/-! ## Values and their parts -/

/-- What the keys of a mapping stand for. -/
def names (entries : List (Value × Value)) : List (Option String) := entries.map (·.1.name?)

/-- The entries of a mapping under the names that their keys stand for. -/
def named (entries : List (Value × Value)) : List (String × Value) :=
  entries.filterMap (fun e => e.1.name?.map (·, e.2))

/-- The values right inside a value. Keys are no parts. -/
def parts : Value → List Value
  | .seq items => items
  | .map entries => entries.map (·.2)
  | .tagged _ v => [v]
  | _ => []

/-- A value stands somewhere in another one. -/
inductive Part : Value → Value → Prop where
  | here (v : Value) : Part v v
  | inside {v x y : Value} (h : x ∈ v.parts) (rest : Part x y) : Part v y

/-- No mapping in the value has two keys for one name. -/
def Separate (v : Value) : Prop := ∀ entries, v.Part (.map entries) → (names entries).Nodup

/-- The document that a value becomes. The members of an object are those of the names in a mapping,
and of the entries with a name the last one counts. -/
inductive Lowered : Value → Json → Prop where
  | null : Lowered .null .null
  | bool (b : Bool) : Lowered (.bool b) (.bool b)
  | num (n : Number) : Lowered (.num n) n.toJson
  | str (s : String) : Lowered (.str s) (.str s)
  | seq {items : List Value} {items' : List Json} (h : List.Forall₂ Lowered items items') :
      Lowered (.seq items) (.arr items')
  | map {entries : List (Value × Value)} {members : Fields Json}
      (ordered : Fields.Ordered members) (keys : ∀ name, name ∈ names entries ↔
        ∃ key, name = some key ∧ Fields.contains members key = true)
      (last : ∀ name v w, Fields.last? (named entries) name = some v →
        Fields.get? members name = some w → Lowered v w) : Lowered (.map entries) (.obj members)
  | tagged (tag : String) {v : Value} {w : Json} (h : Lowered v w) : Lowered (.tagged tag v) w

/-- The document holds all of the value: it has as many members as a mapping has entries, and under
the name of each entry what its value became. -/
inductive Complete : Value → Json → Prop where
  | null : Complete .null .null
  | bool (b : Bool) : Complete (.bool b) (.bool b)
  | num (n : Number) : Complete (.num n) n.toJson
  | str (s : String) : Complete (.str s) (.str s)
  | seq {items : List Value} {items' : List Json} (h : List.Forall₂ Complete items items') :
      Complete (.seq items) (.arr items')
  | map {entries : List (Value × Value)} {members : Fields Json}
      (ordered : Fields.Ordered members) (count : members.length = entries.length)
      (present : ∀ e ∈ entries, ∃ name, e.1.name? = some name ∧
        Fields.contains members name = true)
      (each : ∀ e ∈ entries, ∀ name w, e.1.name? = some name →
        Fields.get? members name = some w → Complete e.2 w) :
      Complete (.map entries) (.obj members)
  | tagged (tag : String) {v : Value} {w : Json} (h : Complete v w) : Complete (.tagged tag v) w

theorem sizeOf_lt_of_mem_parts {v x : Value} (h : x ∈ v.parts) : sizeOf x < sizeOf v := by
  cases v with
  | seq items =>
    have hlt : sizeOf x < sizeOf items := List.sizeOf_lt_of_mem h
    simp only [seq.sizeOf_spec]
    omega
  | map entries =>
    obtain ⟨⟨k, y⟩, hmem, rfl⟩ := List.mem_map.mp h
    have hlt := List.sizeOf_lt_of_mem hmem
    simp only [Prod.mk.sizeOf_spec, map.sizeOf_spec] at hlt ⊢
    omega
  | tagged tag y =>
    obtain rfl := List.mem_singleton.mp h
    simp only [tagged.sizeOf_spec]
    omega
  | _ => simp [parts] at h

/-- What holds of a value if it holds of its parts holds of all values. -/
theorem parts_induction {P : Value → Prop} (step : ∀ v, (∀ x ∈ v.parts, P x) → P v) (v : Value) :
    P v :=
  step v (fun x _ => parts_induction step x)
termination_by sizeOf v
decreasing_by exact sizeOf_lt_of_mem_parts ‹_›

/-! ## Lowering -/

/-- An entry and the member that it becomes. -/
def Becomes (pointer : String) (e : Value × Value) (m : String × Json) : Prop :=
  e.1.name? = some m.1 ∧ e.2.toJson (Json.Pointer.child pointer m.1) = .ok m.2

theorem itemsToJson_eq_ok {pointer : String} {items : List Value} : ∀ {index : Nat}
    {items' : List Json}, itemsToJson pointer index items = .ok items' →
      List.Forall₂ (fun v w => ∃ p, v.toJson p = .ok w) items items' := by
  induction items with
  | nil =>
    intro index items' h
    obtain rfl := Except.ok.inj h
    exact .nil
  | cons v rest ih =>
    intro index items' h
    obtain ⟨w, hw, h⟩ := bind_eq_ok h
    obtain ⟨others, hothers, h⟩ := bind_eq_ok h
    obtain rfl := Except.ok.inj h
    exact .cons ⟨_, hw⟩ (ih hothers)

/-- The members that entries become are inserted one after the other. -/
theorem entriesToJson_eq_ok {pointer : String} {entries : List (Value × Value)}
    {members : Fields Json} : ∀ {done : Fields Json},
      entriesToJson pointer done entries = .ok members →
      ∃ made, List.Forall₂ (Becomes pointer) entries made ∧
        members = made.foldl (fun m e => Fields.insert m e.1 e.2) done := by
  induction entries with
  | nil =>
    intro done h
    exact ⟨[], .nil, (Except.ok.inj h).symm⟩
  | cons e rest ih =>
    intro done h
    obtain ⟨k, v⟩ := e
    rw [entriesToJson] at h
    split at h
    · cases h
    · next name hname =>
      obtain ⟨w, hw, h⟩ := bind_eq_ok h
      obtain ⟨made, hmade, hmembers⟩ := ih h
      exact ⟨(name, w) :: made, .cons ⟨hname, hw⟩ hmade, hmembers⟩

theorem toJson_seq_eq_ok {pointer : String} {items : List Value} {w : Json}
    (h : (seq items).toJson pointer = .ok w) :
    ∃ items', List.Forall₂ (fun v w => ∃ p, v.toJson p = .ok w) items items' ∧ w = .arr items' := by
  obtain ⟨items', hitems, rfl⟩ := map_eq_ok h
  exact ⟨items', itemsToJson_eq_ok hitems, rfl⟩

theorem toJson_map_eq_ok {pointer : String} {entries : List (Value × Value)} {w : Json}
    (h : (map entries).toJson pointer = .ok w) :
    ∃ made, List.Forall₂ (Becomes pointer) entries made ∧ w = .obj (Fields.ofList made) := by
  obtain ⟨members, hmembers, rfl⟩ := map_eq_ok h
  obtain ⟨made, hmade, rfl⟩ := entriesToJson_eq_ok hmembers
  exact ⟨made, hmade, rfl⟩

section

variable {pointer : String} {entries : List (Value × Value)} {made : Fields Json}

theorem names_of_becomes (h : List.Forall₂ (Becomes pointer) entries made) :
    names entries = (Fields.keys made).map some := by
  induction h with
  | nil => rfl
  | cons hbecomes _ ih =>
    simp only [names, Fields.keys, List.map_cons] at ih ⊢
    rw [ih, hbecomes.1]

/-- Every entry has a name, and the names are the keys. -/
theorem mem_names_of_becomes (h : List.Forall₂ (Becomes pointer) entries made)
    (name : Option String) : name ∈ names entries ↔
      ∃ key, name = some key ∧ Fields.contains (Fields.ofList made) key = true := by
  rw [names_of_becomes h, List.mem_map]
  refine exists_congr (fun key => ?_)
  rw [Fields.contains_iff_mem_keys, Fields.mem_keys_ofList, and_comm, eq_comm]

/-- There are as many members as entries if no name is repeated. -/
theorem length_eq_iff_of_becomes (h : List.Forall₂ (Becomes pointer) entries made) :
    (Fields.ofList made).length = entries.length ↔ (names entries).Nodup := by
  have hlength : entries.length = (Fields.keys made).length := by
    rw [Fields.keys, List.length_map, h.length_eq]
  rw [names_of_becomes h, List.nodup_map_iff (Option.some_injective String), hlength,
    Fields.length_ofList]
  constructor
  · intro heq
    exact List.dedup_eq_self.mp ((List.dedup_sublist _).eq_of_length heq)
  · intro hnodup
    rw [List.dedup_eq_self.mpr hnodup]

theorem forall₂_named_of_becomes (h : List.Forall₂ (Becomes pointer) entries made) :
    List.Forall₂ (fun a b => a.1 = b.1 ∧ ∃ p, a.2.toJson p = .ok b.2) (named entries) made := by
  induction h with
  | nil => exact .nil
  | @cons e m rest _ hbecomes _ ih =>
    have hfirst : named (e :: rest) = (m.1, e.2) :: named rest :=
      List.filterMap_cons_some (by rw [hbecomes.1]; rfl)
    rw [hfirst]
    exact .cons ⟨rfl, _, hbecomes.2⟩ ih

/-- Under a name stands what the last entry with this name became. -/
theorem rel_last?_of_becomes (h : List.Forall₂ (Becomes pointer) entries made) (name : String) :
    Option.Rel (fun v w => ∃ p, v.toJson p = .ok w) (Fields.last? (named entries) name)
      (Fields.get? (Fields.ofList made) name) := by
  -- Both sides look from the end, where the entries correspond as well.
  rw [Fields.get?_ofList_last]
  exact rel_get? name (List.rel_reverse (forall₂_named_of_becomes h))

/-- If no name is repeated, every entry is the last one with its name. -/
theorem exists_get?_of_becomes (h : List.Forall₂ (Becomes pointer) entries made)
    (hnodup : (names entries).Nodup) {e : Value × Value} (he : e ∈ entries) :
    ∃ name w, e.1.name? = some name ∧ Fields.get? (Fields.ofList made) name = some w ∧
      ∃ p, e.2.toJson p = .ok w := by
  obtain ⟨m, hm, hbecomes⟩ := exists_of_forall₂ h he
  have hkeys : (Fields.keys made).Nodup := by
    rw [names_of_becomes h] at hnodup
    exact hnodup.of_map _
  refine ⟨m.1, m.2, hbecomes.1, ?_, _, hbecomes.2⟩
  rw [Fields.get?_ofList hkeys, Fields.get?_of_mem_of_nodup hkeys hm]

end

/-- What a value becomes. -/
theorem lowered_of_toJson (v : Value) : ∀ {pointer : String} {w : Json},
    v.toJson pointer = .ok w → Lowered v w := by
  induction v using parts_induction with
  | step v ih =>
    intro pointer w h
    cases v with
    | null => obtain rfl := Except.ok.inj h; exact .null
    | bool b => obtain rfl := Except.ok.inj h; exact .bool b
    | num n => obtain rfl := Except.ok.inj h; exact .num n
    | str s => obtain rfl := Except.ok.inj h; exact .str s
    | tagged tag v => exact .tagged tag (ih v List.mem_cons_self h)
    | seq items =>
      obtain ⟨items', hitems, rfl⟩ := toJson_seq_eq_ok h
      exact .seq (forall₂_imp_of_mem hitems (fun x y hx _ ⟨_, hy⟩ => ih x hx hy))
    | map entries =>
      obtain ⟨made, hmade, rfl⟩ := toJson_map_eq_ok h
      refine .map (Fields.ordered_ofList made) (mem_names_of_becomes hmade) ?_
      intro name x y hx hy
      have hrel := rel_last?_of_becomes hmade name
      rw [hx, hy] at hrel
      obtain ⟨p, hp⟩ := Option.rel_some_some.mp hrel
      obtain ⟨e, he, hname⟩ := List.mem_filterMap.mp (Fields.mem_of_last? hx)
      obtain ⟨_, -, heq⟩ := Option.map_eq_some_iff.mp hname
      exact ih x (List.mem_map.mpr ⟨e, he, congrArg Prod.snd heq⟩) hp

/-! ## Nothing lost -/

theorem separate_iff {v : Value} : Separate v ↔
    (∀ entries, v = .map entries → (names entries).Nodup) ∧ ∀ x ∈ v.parts, Separate x := by
  constructor
  · intro h
    refine ⟨?_, fun x hx entries hentries => h entries (.inside hx hentries)⟩
    rintro entries rfl
    exact h entries (.here _)
  · rintro ⟨hhere, hinside⟩ entries hpart
    cases hpart with
    | here => exact hhere entries rfl
    | inside hx rest => exact hinside _ hx entries rest

theorem separate_of_parts {v : Value} (h : v.parts = []) (hmap : ∀ entries, v ≠ .map entries) :
    Separate v := by
  rw [separate_iff, h]
  exact ⟨fun entries heq => absurd heq (hmap entries), by simp⟩

theorem separate_tagged_iff {tag : String} {v : Value} : Separate (.tagged tag v) ↔ Separate v := by
  rw [separate_iff]
  simp [parts]

theorem separate_seq_iff {items : List Value} :
    Separate (.seq items) ↔ ∀ x ∈ items, Separate x := by
  rw [separate_iff]
  simp [parts]

theorem separate_map_iff {entries : List (Value × Value)} :
    Separate (.map entries) ↔ (names entries).Nodup ∧ ∀ e ∈ entries, Separate e.2 := by
  rw [separate_iff, parts, List.forall_mem_map]
  exact and_congr_left' ⟨fun h => h entries rfl, by rintro h _ ⟨⟩; exact h⟩

/-- The document of a value holds all of it exactly if no mapping in the value has two keys that
stand for one name. -/
theorem complete_iff_separate (v : Value) : ∀ {pointer : String} {w : Json},
    v.toJson pointer = .ok w → (Complete v w ↔ Separate v) := by
  induction v using parts_induction with
  | step v ih =>
    intro pointer w h
    cases v with
    | null =>
      obtain rfl := Except.ok.inj h
      exact iff_of_true .null (separate_of_parts rfl (by simp))
    | bool b =>
      obtain rfl := Except.ok.inj h
      exact iff_of_true (.bool b) (separate_of_parts rfl (by simp))
    | num n =>
      obtain rfl := Except.ok.inj h
      exact iff_of_true (.num n) (separate_of_parts rfl (by simp))
    | str s =>
      obtain rfl := Except.ok.inj h
      exact iff_of_true (.str s) (separate_of_parts rfl (by simp))
    | tagged tag v =>
      have hcomplete : Complete (.tagged tag v) w ↔ Complete v w := by
        constructor
        · rintro ⟨⟩
          assumption
        · exact Complete.tagged tag
      rw [hcomplete, separate_tagged_iff]
      exact ih v List.mem_cons_self h
    | seq items =>
      obtain ⟨items', hitems, rfl⟩ := toJson_seq_eq_ok h
      have hcomplete : Complete (.seq items) (.arr items') ↔
          List.Forall₂ Complete items items' := by
        constructor
        · rintro ⟨⟩
          assumption
        · exact Complete.seq
      rw [hcomplete, separate_seq_iff]
      exact forall₂_iff_of_forall₂ hitems (fun x hx y ⟨p, hp⟩ => ih x hx hp)
    | map entries =>
      obtain ⟨made, hmade, rfl⟩ := toJson_map_eq_ok h
      have hpart : ∀ e ∈ entries, e.2 ∈ (map entries).parts :=
        fun e he => List.mem_map.mpr ⟨e, he, rfl⟩
      rw [separate_map_iff]
      constructor
      -- The count alone shows that no name is repeated. Then every entry is the last one with its
      -- name, and what holds of the members holds of the entries.
      · rintro (_ | _ | _ | _ | _ | ⟨-, count, -, each⟩)
        have hnodup := (length_eq_iff_of_becomes hmade).mp count
        refine ⟨hnodup, fun e he => ?_⟩
        obtain ⟨name, y, hname, hget, p, hy⟩ := exists_get?_of_becomes hmade hnodup he
        exact (ih e.2 (hpart e he) hy).mp (each e he name y hname hget)
      · rintro ⟨hnodup, hseparate⟩
        refine .map (Fields.ordered_ofList made) ((length_eq_iff_of_becomes hmade).mpr hnodup)
          (fun e he => ?_) (fun e he name y hname hget => ?_)
        · obtain ⟨name, y, hname, hget, -⟩ := exists_get?_of_becomes hmade hnodup he
          exact ⟨name, hname, by rw [Fields.contains, hget]; rfl⟩
        · obtain ⟨name', y', hname', hget', p, hy⟩ := exists_get?_of_becomes hmade hnodup he
          obtain rfl := Option.some.inj (hname.symm.trans hname')
          obtain rfl := Option.some.inj (hget.symm.trans hget')
          exact (ih e.2 (hpart e he) hy).mpr (hseparate e he)

/-- A value that is lowered becomes a document part by part. Nothing of it is lost exactly if no two
keys of one mapping stand for the same name. -/
theorem complete_iff_of_toJson {v : Value} {pointer : String} {w : Json}
    (h : v.toJson pointer = .ok w) : Lowered v w ∧ (Complete v w ↔ Separate v) :=
  ⟨lowered_of_toJson v h, complete_iff_separate v h⟩

/-! ## Responses under numbers and texts -/

/-- The status key of successes, written as a number. -/
def okKey : Value := .num (.int ⟨200, by decide, by decide⟩)

/-- Responses under a number and under a text, one of them with a tag. -/
def answers : Value :=
  .map [(okKey, .seq [.str "a", .map []]),
    (.str "2XX", .tagged "x" (.map [(.bool true, .null), (.str "c", .str "d")]))]

/-- The document of the responses. -/
def answersDocument : Json :=
  .obj [("200", .arr [.str "a", .obj []]), ("2XX", .obj [("c", .str "d"), ("true", .null)])]

theorem complete_iff_of_toJson_answers : answers.toJson "" = .ok answersDocument ∧
    Lowered answers answersDocument ∧ Complete answers answersDocument := by
  have h : answers.toJson "" = .ok answersDocument := by rfl
  have hseparate : Separate answers := by
    have hplain : ∀ s, Separate (.str s) := fun s => separate_of_parts rfl (by simp)
    have hnull : Separate .null := separate_of_parts rfl (by simp)
    have hstatus : okKey.name? ≠ (str "2XX").name? := by decide
    have htruth : (bool true).name? ≠ (str "c").name? := by decide
    simp [answers, separate_map_iff, separate_seq_iff, separate_tagged_iff, hplain, hnull, names,
      hstatus, htruth]
  obtain ⟨hlowered, hcomplete⟩ := complete_iff_of_toJson h
  exact ⟨h, hlowered, hcomplete.mpr hseparate⟩

/-- Responses under a number and under the text that is written like it. -/
def sameAnswers : Value := .map [(okKey, .str "a"), (.str "200", .str "b")]

/-- The first of the responses is lost. -/
theorem not_complete_sameAnswers : sameAnswers.toJson "" = .ok (.obj [("200", .str "b")]) ∧
    ¬ Complete sameAnswers (.obj [("200", .str "b")]) := by
  refine ⟨rfl, ?_⟩
  rintro (_ | _ | _ | _ | _ | ⟨-, count, -, -⟩)
  exact absurd count (by decide)

end Yaml.Value

end HttpContract
