import HttpContract.Operation.Schemas
import HttpContract.Proofs.Pointwise
import HttpContract.Proofs.Sorted

/-!
# Two readers of declarations

A declaration is read by `OperationSchemas.ofJson`, which says what is wrong with it, and by
`OperationSchemas.decode?`, which does not. Place by place the first without its errors is the
second (`toOption_optionalFragment`, `toOption_responsesOf`), so they agree on every object but one
whose responses are null: the first reader takes null for no responses, and the second refuses it.
What `OperationSchemas.toJson` writes has no such null, and both read it back
(`OperationSchemas.readers_agree`): a status without a schema is written as null and is still there,
and a place that is left out is empty again.
-/

namespace HttpContract

namespace OperationSchemas

variable {operation : String}

/-! ## One reader without its errors is the other -/

/-- The place of a slot is read alike. -/
theorem toOption_optionalFragment (slot : String) (v : Option Json) :
    (optionalFragment operation slot v).toOption =
      match v with
      | none => some none
      | some v => decodeFragment? v := by
  cases v with
  | none => rfl
  | some v =>
    cases v with
    | null => rfl
    | _ => rfl

theorem toOption_responsesOf (entries : Fields Json) :
    (responsesOf operation entries).toOption = decodeResponses? entries := by
  induction entries with
  | nil => rfl
  | cons m rest ih =>
    obtain ⟨status, v⟩ := m
    rw [responsesOf, toOption_bind, toOption_optionalFragment, decodeResponses?]
    refine congrArg _ (funext fun f => ?_)
    rw [toOption_bind, ih]
    rfl

/-- On every object whose responses are not null the readers agree. -/
theorem toOption_ofJson {members : Fields Json}
    (h : Fields.get? members "responses" ≠ some .null) :
    (ofJson operation (.obj members)).toOption = decode? (.obj members) := by
  simp only [ofJson, toOption_bind, toOption_optionalFragment, decode?, decodePlaces?]
  refine congrArg (Option.bind _) (funext fun parameters => ?_)
  refine congrArg (Option.bind _) (funext fun query => ?_)
  refine congrArg (Option.bind _) (funext fun headers => ?_)
  refine congrArg (Option.bind _) (funext fun body => ?_)
  have hplace : (placeNames[4]?).bind (Fields.get? members) = Fields.get? members "responses" := rfl
  rw [hplace]
  -- Null is the only value here that the readers take differently.
  cases hresponses : Fields.get? members "responses" with
  | none => rfl
  | some v =>
    cases v with
    | null => exact absurd hresponses h
    | obj entries => exact (toOption_bind _ _).trans (by rw [toOption_responsesOf]; rfl)
    | _ => rfl

/-- Responses that are null are refused by the second reader. -/
theorem decode?_of_null {members : Fields Json} (h : Fields.get? members "responses" = some .null) :
    decode? (.obj members) = none := by
  have hplace : (placeNames[4]?).bind (Fields.get? members) = some .null := h
  simp only [decode?, decodePlaces?, hplace, Option.bind_eq_bind, Option.bind_none,
    Option.bind_fun_none]

/-! ## What is written -/

/-- The place of the responses; it is left out if there are none. -/
def responsesPlace (responses : Fields (Option Fragment)) : List (String × Json) :=
  if responses.isEmpty then []
  else [("responses", .obj (Fields.mapValues responseDocument responses))]

/-- The members of a written declaration. -/
def entries (s : OperationSchemas) : List (String × Json) :=
  place "parameters" s.parameters ++ place "query" s.query ++ place "headers" s.headers
    ++ place "body" s.body ++ responsesPlace s.responses

theorem toJson_eq (s : OperationSchemas) : s.toJson = .obj (Fields.ofList s.entries) := rfl

theorem get?_place (name key : String) (f : Option Fragment) :
    Fields.get? (place name f) key = if name = key then f.map (·.document) else none := by
  cases f with
  | none => simp [place]
  | some f => rfl

theorem get?_responsesPlace (responses : Fields (Option Fragment)) (key : String) :
    Fields.get? (responsesPlace responses) key =
      if responses ≠ [] ∧ "responses" = key then
        some (.obj (Fields.mapValues responseDocument responses)) else none := by
  cases responses with
  | nil => rfl
  | cons m rest => simp [responsesPlace, Fields.get?_cons]

theorem keys_place_sublist (name : String) (f : Option Fragment) :
    (Fields.keys (place name f)).Sublist [name] := by
  cases f with
  | none => exact List.nil_sublist _
  | some f => exact List.Sublist.refl _

theorem keys_responsesPlace_sublist (responses : Fields (Option Fragment)) :
    (Fields.keys (responsesPlace responses)).Sublist ["responses"] := by
  cases responses with
  | nil => exact List.nil_sublist _
  | cons m rest => exact List.Sublist.refl _

/-- Every place is written at most once. -/
theorem nodup_keys_entries (s : OperationSchemas) : (Fields.keys s.entries).Nodup := by
  have hsublist : (Fields.keys s.entries).Sublist placeNames := by
    simp only [entries, Fields.keys, List.map_append]
    exact ((((keys_place_sublist _ _).append (keys_place_sublist _ _)).append
      (keys_place_sublist _ _)).append (keys_place_sublist _ _)).append
        (keys_responsesPlace_sublist _)
  exact hsublist.nodup (by decide)

/-- A slot is written under its name. -/
theorem get?_slot (s : OperationSchemas) (slot : RequestSlot) :
    Fields.get? (Fields.ofList s.entries) slot.name = (s.slot slot).map (·.document) := by
  rw [Fields.get?_ofList (nodup_keys_entries s), entries]
  cases slot <;>
    simp [Fields.get?_append, get?_place, get?_responsesPlace, RequestSlot.name,
      OperationSchemas.slot]

theorem get?_responses (s : OperationSchemas) :
    Fields.get? (Fields.ofList s.entries) "responses" =
      if s.responses = [] then none
      else some (.obj (Fields.mapValues responseDocument s.responses)) := by
  rw [Fields.get?_ofList (nodup_keys_entries s), entries]
  simp [Fields.get?_append, get?_place, get?_responsesPlace]

/-! ## What is written is read back -/

/-- A fragment is no null. -/
theorem optionalFragment_document (slot : String) (f : Option Fragment) :
    optionalFragment operation slot (f.map (·.document)) = .ok f := by
  cases f with
  | none => rfl
  | some f =>
    obtain ⟨document, hschema⟩ := f
    cases document with
    | obj members => rfl
    | bool b => rfl
    | _ => cases hschema

/-- A status with a schema and one without are told apart. -/
theorem responsesOf_mapValues (responses : Fields (Option Fragment)) :
    responsesOf operation (Fields.mapValues responseDocument responses) = .ok responses := by
  induction responses with
  | nil => rfl
  | cons m rest ih =>
    obtain ⟨status, f⟩ := m
    have hresponse : optionalFragment operation ("responses/" ++ status)
        (some (responseDocument f)) = .ok f := by
      cases f with
      | none => rfl
      | some f => exact optionalFragment_document _ (some f)
    simp only [Fields.mapValues, List.map_cons] at ih ⊢
    rw [responsesOf, hresponse, ih]
    rfl

theorem ofJson_toJson (s : OperationSchemas) : ofJson operation s.toJson = .ok s := by
  rw [toJson_eq, ofJson]
  simp only [get?_slot, optionalFragment_document, get?_responses]
  obtain ⟨parameters, query, headers, body, responses⟩ := s
  cases responses with
  | nil => rfl
  | cons m rest =>
    rw [if_neg (List.cons_ne_nil m rest)]
    dsimp only
    rw [responsesOf_mapValues]
    rfl

/-- A written declaration has no responses that are null. -/
theorem get?_responses_ne_null (s : OperationSchemas) :
    Fields.get? (Fields.ofList s.entries) "responses" ≠ some .null := by
  rw [get?_responses]
  split <;> simp

theorem decode?_toJson (s : OperationSchemas) : decode? s.toJson = some s := by
  have hread : ofJson "" s.toJson = .ok s := ofJson_toJson s
  rw [toJson_eq] at hread ⊢
  rw [← toOption_ofJson (get?_responses_ne_null s), hread]
  rfl

/-- Both readers read back what is written. They agree on every object whose responses are not null,
on what they refuse and on what they read. -/
theorem readers_agree (operation : String) :
    (∀ s : OperationSchemas, ofJson operation s.toJson = .ok s ∧ decode? s.toJson = some s) ∧
    (∀ members, Fields.get? members "responses" ≠ some .null →
      ∀ s, ofJson operation (.obj members) = .ok s ↔ decode? (.obj members) = some s) ∧
    ∀ members, Fields.get? members "responses" = some .null → decode? (.obj members) = none := by
  refine ⟨fun s => ⟨ofJson_toJson s, decode?_toJson s⟩, fun members h s => ?_,
    fun members h => decode?_of_null h⟩
  have hsame : (ofJson operation (.obj members)).toOption = decode? (.obj members) :=
    toOption_ofJson h
  rw [← hsame, toOption_eq_some_iff]

/-- A declaration with a status that has no schema, one whose schema refuses everything, and without
a schema for the query. -/
def declared : OperationSchemas :=
  ⟨some .always, none, none, some (.ofMembers [("type", .str "object")]),
    [("200", some ⟨.bool false, rfl⟩), ("204", none)]⟩

example : declared.toJson = .obj [("body", .obj [("type", .str "object")]),
    ("parameters", .bool true), ("responses", .obj [("200", .bool false), ("204", .null)])] := by
  decide +kernel

end OperationSchemas

end HttpContract
