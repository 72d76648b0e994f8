import HttpContract.Proofs.Plans
import HttpContract.Service.Repository

/-!
# Loaded repositories

Unless responses are rendered by their schemas, every response artifact of a loaded repository is
the validator of a schema that the engine of the repository has compiled
(`Repository.exists_validator_of_load`).
-/

namespace HttpContract

/-- The compiled schema of an artifact. -/
def ResponseArtifact.schema : ResponseArtifact → CompiledSchema
  | .validator s => s
  | .stringifier s => s

/-- What is made of a compiled response schema. -/
def ResponseArtifact.of (fast : Bool) (s : CompiledSchema) : ResponseArtifact :=
  if fast then .stringifier s else .validator s

/-- The artifact is the validator of a compiled schema. -/
def ResponseArtifact.Validates (e : Engine) (a : ResponseArtifact) : Prop :=
  ∃ f s, e.compile f = .ok s ∧ a = .validator s

theorem StatusKey.mem_of_mem_insert {α : Type} {key : StatusKey} {value : α}
    {entries : List (StatusKey × α)} {x : StatusKey × α} (h : x ∈ insert key value entries) :
    x = (key, value) ∨ x ∈ entries := by
  induction entries with
  | nil => exact Or.inl (List.mem_singleton.mp h)
  | cons y rest ih =>
    rcases y with ⟨k, v⟩
    unfold insert at h
    split at h
    · exact (List.mem_cons.mp h).imp_right (List.mem_cons_of_mem _)
    · split at h
      · exact List.mem_cons.mp h
      · rcases List.mem_cons.mp h with rfl | h
        · exact Or.inr List.mem_cons_self
        · exact (ih h).imp_right (List.mem_cons_of_mem _)

namespace Repository

variable {e : Engine} {r : Repository} {operation : String} {fast : Bool}

/-- A slot has a compiled schema exactly if one is declared. -/
theorem compiled_of_compileSlot {slot : String} {declared : Option Fragment}
    {compiled : Option CompiledSchema} (h : compileSlot e operation slot declared = .ok compiled) :
    (declared = none → compiled = none) ∧
      ∀ f, declared = some f → ∃ s, e.compile f = .ok s ∧ compiled = some s := by
  cases declared with
  | none =>
    cases h
    exact ⟨fun _ => rfl, fun f hf => by cases hf⟩
  | some f =>
    refine ⟨fun hnone => (by cases hnone), fun g hg => ?_⟩
    obtain rfl := Option.some.inj hg
    unfold compileSlot at h
    dsimp only at h
    cases hcompile : e.compile f with
    | error err =>
      rw [hcompile] at h
      cases h
    | ok s =>
      rw [hcompile] at h
      cases h
      exact ⟨s, rfl, rfl⟩

/-- A response is read as a status key; if it has a schema, what is made of it is stored there. -/
theorem compileResponses_cons {written : String} {declared : Option Fragment}
    {rest : Fields (Option Fragment)} {stored found : List (StatusKey × ResponseArtifact)}
    (h : compileResponses e operation fast ((written, declared) :: rest) stored = .ok found) :
    ∃ status, StatusKey.read? written = some status ∧
      ((declared = none ∧ compileResponses e operation fast rest stored = .ok found) ∨
        ∃ f s, declared = some f ∧ e.compile f = .ok s ∧
          compileResponses e operation fast rest (StatusKey.insert status (.of fast s) stored) =
            .ok found) := by
  unfold compileResponses at h
  cases hread : StatusKey.read? written with
  | none =>
    rw [hread] at h
    cases h
  | some status =>
    rw [hread] at h
    dsimp only at h
    refine ⟨status, rfl, ?_⟩
    cases hslot : compileSlot e operation ("responses/" ++ written) declared with
    | error err =>
      rw [hslot] at h
      cases h
    | ok compiled =>
      rw [hslot] at h
      obtain ⟨hnone, hsome⟩ := compiled_of_compileSlot hslot
      cases declared with
      | none =>
        obtain rfl := hnone rfl
        exact Or.inl ⟨rfl, h⟩
      | some f =>
        obtain ⟨s, hcompile, rfl⟩ := hsome f rfl
        exact Or.inr ⟨f, s, rfl, hcompile, h⟩

/-- What has been stored stays a validator, and so is what is added. -/
theorem validates_of_compileResponses :
    ∀ {responses : Fields (Option Fragment)} {stored found : List (StatusKey × ResponseArtifact)},
      compileResponses e operation false responses stored = .ok found →
        (∀ x ∈ stored, x.2.Validates e) → ∀ x ∈ found, x.2.Validates e := by
  intro responses
  induction responses with
  | nil =>
    intro stored found h hstored
    cases h
    exact hstored
  | cons m rest ih =>
    intro stored found h hstored
    obtain ⟨written, declared⟩ := m
    obtain ⟨status, -, ⟨-, hrest⟩ | ⟨f, s, -, hcompile, hrest⟩⟩ := compileResponses_cons h
    · exact ih hrest hstored
    · refine ih hrest (fun x hx => ?_)
      rcases StatusKey.mem_of_mem_insert hx with rfl | hx
      · exact ⟨f, s, hcompile, rfl⟩
      · exact hstored x hx

/-- The responses of a contract are those that its operation declares, stored one after another. -/
theorem responses_of_compileOperation {schemas : OperationSchemas} {c : OperationContract}
    (h : compileOperation e fast operation schemas = .ok c) :
    compileResponses e operation fast schemas.responses [] = .ok c.responses := by
  obtain ⟨parameters, -, h⟩ := bind_eq_ok h
  obtain ⟨query, -, h⟩ := bind_eq_ok h
  obtain ⟨headers, -, h⟩ := bind_eq_ok h
  obtain ⟨body, -, h⟩ := bind_eq_ok h
  obtain ⟨responses, hresponses, h⟩ := bind_eq_ok h
  cases h
  exact hresponses

theorem validates_of_compileOperation {schemas : OperationSchemas} {c : OperationContract}
    (h : compileOperation e false operation schemas = .ok c) :
    ∀ x ∈ c.responses, x.2.Validates e :=
  validates_of_compileResponses (responses_of_compileOperation h)
    (fun _ hx => absurd hx List.not_mem_nil)

theorem validates_of_compileTable : ∀ {table : SchemaTable} {compiled : Fields OperationContract},
    compileTable e false table = .ok compiled →
      ∀ m ∈ compiled, ∀ x ∈ m.2.responses, x.2.Validates e := by
  intro table
  induction table with
  | nil =>
    intro compiled h
    cases h
    exact fun m hm => absurd hm List.not_mem_nil
  | cons m rest ih =>
    intro compiled h
    rcases bind_eq_ok h with ⟨contract, hcontract, h⟩
    rcases bind_eq_ok h with ⟨others, hothers, h⟩
    cases h
    intro m hm
    rcases List.mem_cons.mp hm with rfl | hm
    · exact validates_of_compileOperation hcontract
    · exact ih hothers m hm

theorem engine_of_load {table : SchemaTable} {fast : Bool} {r' : Repository}
    (h : r.load table fast = .ok r') : r'.engine = r.engine := by
  unfold load at h
  split at h
  · cases h
    rfl
  · cases h

/-- Unless responses are rendered by their schemas, every artifact is a validator. -/
theorem exists_validator_of_load {table : SchemaTable} {operation : String} {status : Nat}
    {a : ResponseArtifact} (h : (empty e).load table false = .ok r)
    (ha : r.response? status operation = some a) : a.Validates e := by
  unfold load at h
  split at h
  · next compiled hcompiled =>
    cases h
    rcases Option.bind_eq_some_iff.mp ha with ⟨c, hc, hresponse⟩
    have hmem : (operation, c) ∈ compiled :=
      Fields.mem_of_mem_ofList (Fields.mem_of_get? hc)
    -- whichever key the artifact is found under, it is stored
    have hfound : ∀ key, c.artifact? key = some a → a.Validates e := by
      intro key hkey
      rcases Option.map_eq_some_iff.mp hkey with ⟨x, hx, rfl⟩
      exact validates_of_compileTable hcompiled _ hmem x (List.mem_of_find?_eq_some hx)
    rcases Option.or_eq_some_iff.mp hresponse with hor | ⟨-, hdefault⟩
    · rcases Option.or_eq_some_iff.mp hor with hexact | ⟨-, hclass⟩
      · exact hfound _ hexact
      · exact hfound _ hclass
    · exact hfound _ hdefault
  · cases h

/-! ## A table with one operation -/

/-- The name of the operation. -/
def soleOperation : String := "op"

/-- The operation answers with one schema, whatever the status. -/
def answering (f : Fragment) : SchemaTable :=
  [(soleOperation, { OperationSchemas.empty with responses := [("default", some f)] })]

/-- Its contract. -/
def answeringContract (s : CompiledSchema) : OperationContract :=
  ⟨none, none, none, none, [(.default, .validator s)]⟩

theorem load_answering_of (fast : Bool) {f : Fragment} {s : CompiledSchema}
    (h : e.compile f = .ok s) : (empty e).load (answering f) fast =
      .ok ⟨e, [(soleOperation, ⟨none, none, none, none, [(.default, .of fast s)]⟩)]⟩ := by
  have hslot : compileSlot e soleOperation ("responses/" ++ "default") (some f) = .ok (some s) := by
    simp only [compileSlot, h]
  have hresponses : compileResponses e soleOperation fast [("default", some f)] [] =
      .ok [(.default, .of fast s)] := by
    unfold compileResponses
    rw [show StatusKey.read? "default" = some .default from rfl]
    dsimp only
    rw [hslot]
    rfl
  have htable : compileTable e fast (answering f) =
      .ok [(soleOperation, ⟨none, none, none, none, [(.default, .of fast s)]⟩)] := by
    show ((compileResponses e soleOperation fast [("default", some f)] []).bind _ >>= _) = _
    rw [hresponses]
    rfl
  unfold load
  rw [show (empty e).engine = e from rfl, htable]
  rfl

theorem load_answering {f : Fragment} {s : CompiledSchema} (h : e.compile f = .ok s) :
    (empty e).load (answering f) false = .ok ⟨e, [(soleOperation, answeringContract s)]⟩ :=
  load_answering_of false h

theorem response?_answering (s : CompiledSchema) (status : Nat) :
    response? ⟨e, [(soleOperation, answeringContract s)]⟩ status soleOperation =
      some (.validator s) := rfl

end Repository

end HttpContract
