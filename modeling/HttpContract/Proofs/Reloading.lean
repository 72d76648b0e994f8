import HttpContract.Proofs.Loading
import HttpContract.Proofs.Sorted

/-!
# Histories of loads

However often tables are loaded into a repository, and whether or not some of the loads fail, an
operation is there exactly if a load that succeeded declared it, and its contract is the one that
the last such load made of its schemas (`Repository.get?_attempts_empty`). Contracts hold what was
declared and nothing else (`OperationContract.Implements`); of response keys that are read alike the one
written last counts.
-/

namespace HttpContract

/-! ## What contracts hold -/

namespace StatusKey

variable {α : Type}

/-- The value stored under a key. -/
def stored? (entries : List (StatusKey × α)) (key : StatusKey) : Option α :=
  (entries.find? (fun e => e.1 == key)).map (·.2)

theorem stored?_cons (k : StatusKey) (v : α) (rest : List (StatusKey × α)) (key : StatusKey) :
    stored? ((k, v) :: rest) key = if k = key then some v else stored? rest key := by
  unfold stored?
  by_cases heq : k = key
  · rw [List.find?_cons_of_pos (by simpa using heq), if_pos heq]
    rfl
  · rw [List.find?_cons_of_neg (by simpa using heq), if_neg heq]

theorem stored?_insert (key : StatusKey) (value : α) (entries : List (StatusKey × α))
    (other : StatusKey) : stored? (insert key value entries) other =
      if key = other then some value else stored? entries other := by
  induction entries with
  | nil => exact stored?_cons key value [] other
  | cons e rest ih =>
    obtain ⟨k, v⟩ := e
    unfold insert
    by_cases heq : k = key
    · subst heq
      rw [if_pos rfl, stored?_cons, stored?_cons]
      split
      · rfl
      · rfl
    · rw [if_neg heq]
      by_cases hbefore : before key k = true
      · rw [if_pos hbefore, stored?_cons]
      · rw [if_neg hbefore, stored?_cons, ih, stored?_cons]
        by_cases hk : k = other
        · have hother : key ≠ other := fun h => heq (hk.trans h.symm)
          rw [if_pos hk, if_neg hother, if_pos hk]
        · rw [if_neg hk, if_neg hk]

end StatusKey

/-- The schema declared for a status key; of several written keys that are read as it, the last one
with a schema counts. -/
def OperationSchemas.responseFor? (key : StatusKey) : Fields (Option Fragment) → Option Fragment
  | [] => none
  | (written, f) :: rest =>
    (responseFor? key rest).or (if StatusKey.read? written = some key then f else none)

/-- A contract holds the compiled form of every schema that is declared, and nothing else. -/
structure OperationContract.Implements (e : Engine) (fast : Bool) (s : OperationSchemas)
    (c : OperationContract) : Prop where
  undeclared : ∀ slot, s.slot slot = none → c.request slot = none
  declared : ∀ slot f, s.slot slot = some f →
    ∃ compiled, e.compile f = .ok compiled ∧ c.request slot = some compiled
  noResponse : ∀ key, OperationSchemas.responseFor? key s.responses = none → c.artifact? key = none
  response : ∀ key f, OperationSchemas.responseFor? key s.responses = some f →
    ∃ compiled, e.compile f = .ok compiled ∧ c.artifact? key = some (.of fast compiled)
  readable : ∀ m ∈ s.responses, (StatusKey.read? m.1).isSome = true

namespace Repository

variable {e : Engine} {r r' : Repository} {operation : String} {fast : Bool}

/-- Responses are stored on top of those that are there already. -/
theorem stored?_of_compileResponses : ∀ {responses : Fields (Option Fragment)}
    {stored found : List (StatusKey × ResponseArtifact)},
    compileResponses e operation fast responses stored = .ok found →
      (∀ m ∈ responses, (StatusKey.read? m.1).isSome = true) ∧
      ∀ key, (OperationSchemas.responseFor? key responses = none →
          StatusKey.stored? found key = StatusKey.stored? stored key) ∧
        ∀ f, OperationSchemas.responseFor? key responses = some f →
          ∃ s, e.compile f = .ok s ∧ StatusKey.stored? found key = some (.of fast s) := by
  intro responses
  induction responses with
  | nil =>
    intro stored found h
    cases h
    exact ⟨fun m hm => absurd hm List.not_mem_nil,
      fun key => ⟨fun _ => rfl, fun f hf => by cases hf⟩⟩
  | cons m rest ih =>
    intro stored found h
    obtain ⟨written, declared⟩ := m
    obtain ⟨status, hread, hcases⟩ := compileResponses_cons h
    -- what this key stores, seen from a key of the contract
    have hhere : ∃ stored', compileResponses e operation fast rest stored' = .ok found ∧
        ∀ key, ((if status = key then declared else none) = none →
            StatusKey.stored? stored' key = StatusKey.stored? stored key) ∧
          ∀ f, (if status = key then declared else none) = some f →
            ∃ s, e.compile f = .ok s ∧ StatusKey.stored? stored' key = some (.of fast s) := by
      rcases hcases with ⟨rfl, hrest⟩ | ⟨f, s, rfl, hcompile, hrest⟩
      · exact ⟨stored, hrest, fun key => ⟨fun _ => rfl, fun f hf => by simp at hf⟩⟩
      · refine ⟨StatusKey.insert status (.of fast s) stored, hrest, fun key => ?_⟩
        rw [StatusKey.stored?_insert]
        by_cases heq : status = key
        · simp only [if_pos heq]
          refine ⟨fun hf => (by cases hf), fun g hg => ?_⟩
          obtain rfl := Option.some.inj hg
          exact ⟨s, hcompile, rfl⟩
        · rw [if_neg heq, if_neg heq]
          exact ⟨fun _ => rfl, fun g hg => by cases hg⟩
    obtain ⟨stored', hrest, hstored⟩ := hhere
    obtain ⟨hreadable, hlater⟩ := ih hrest
    refine ⟨fun m hm => ?_, fun key => ?_⟩
    · rcases List.mem_cons.mp hm with rfl | hm
      · simp [hread]
      · exact hreadable m hm
    · obtain ⟨hnothing, hsomething⟩ := hstored key
      obtain ⟨hnolater, hsomelater⟩ := hlater key
      simp only [OperationSchemas.responseFor?, hread, Option.some.injEq]
      refine ⟨fun hor => ?_, fun f hor => ?_⟩
      · obtain ⟨hlast, hfirst⟩ := Option.or_eq_none_iff.mp hor
        exact (hnolater hlast).trans (hnothing hfirst)
      · rcases Option.or_eq_some_iff.mp hor with hlast | ⟨hlast, hfirst⟩
        · exact hsomelater f hlast
        · obtain ⟨s, hcompile, hs⟩ := hsomething f hfirst
          exact ⟨s, hcompile, (hnolater hlast).trans hs⟩

theorem implements_of_compileOperation {schemas : OperationSchemas} {c : OperationContract}
    (h : compileOperation e fast operation schemas = .ok c) : c.Implements e fast schemas := by
  rcases bind_eq_ok h with ⟨parameters, hparameters, h⟩
  rcases bind_eq_ok h with ⟨query, hquery, h⟩
  rcases bind_eq_ok h with ⟨headers, hheaders, h⟩
  rcases bind_eq_ok h with ⟨body, hbody, h⟩
  rcases bind_eq_ok h with ⟨responses, hresponses, h⟩
  cases h
  obtain ⟨hreadable, hstored⟩ := stored?_of_compileResponses hresponses
  refine ⟨fun slot => ?_, fun slot => ?_, fun key hnone => ?_, fun key f hf => ?_, hreadable⟩
  · cases slot with
    | parameters => exact (compiled_of_compileSlot hparameters).1
    | query => exact (compiled_of_compileSlot hquery).1
    | headers => exact (compiled_of_compileSlot hheaders).1
    | body => exact (compiled_of_compileSlot hbody).1
  · cases slot with
    | parameters => exact (compiled_of_compileSlot hparameters).2
    | query => exact (compiled_of_compileSlot hquery).2
    | headers => exact (compiled_of_compileSlot hheaders).2
    | body => exact (compiled_of_compileSlot hbody).2
  · exact (hstored key).1 hnone
  · exact (hstored key).2 f hf

/-! ## One load -/

/-- Compiling a table gives each of its operations its contract. -/
theorem get?_of_compileTable : ∀ {table : SchemaTable} {compiled : Fields OperationContract},
    compileTable e fast table = .ok compiled →
      Fields.keys compiled = Fields.keys table ∧
      ∀ id schemas, Fields.get? table id = some schemas →
        ∃ c, compileOperation e fast id schemas = .ok c ∧ Fields.get? compiled id = some c := by
  intro table
  induction table with
  | nil =>
    intro compiled h
    cases h
    exact ⟨rfl, fun id schemas hget => by cases hget⟩
  | cons m rest ih =>
    intro compiled h
    obtain ⟨k, declared⟩ := m
    rcases bind_eq_ok h with ⟨contract, hcontract, h⟩
    rcases bind_eq_ok h with ⟨others, hothers, h⟩
    cases h
    obtain ⟨hkeys, hget⟩ := ih hothers
    refine ⟨congrArg (k :: ·) hkeys, fun id schemas hid => ?_⟩
    rw [Fields.get?_cons] at hid ⊢
    by_cases heq : k = id
    · rw [if_pos heq] at hid ⊢
      obtain rfl := Option.some.inj hid
      exact ⟨contract, heq ▸ hcontract, rfl⟩
    · rw [if_neg heq] at hid ⊢
      exact hget id schemas hid

/-- A load that succeeds gives the operations of its table new contracts and leaves the others. -/
theorem get?_of_load {table : SchemaTable} (hordered : Fields.Ordered table)
    (h : r.load table fast = .ok r') (id : String) :
    (Fields.get? table id = none → r'.get? id = r.get? id) ∧
      ∀ schemas, Fields.get? table id = some schemas →
        ∃ c, compileOperation r.engine fast id schemas = .ok c ∧ r'.get? id = some c := by
  unfold load at h
  split at h
  · next compiled hcompiled =>
    cases h
    obtain ⟨hkeys, hget⟩ := get?_of_compileTable hcompiled
    have hnodup : (Fields.keys compiled).Nodup := by
      rw [hkeys]
      exact Fields.nodup_keys_of_ordered hordered
    unfold get?
    dsimp only
    rw [Fields.get?_foldl_insert hnodup]
    refine ⟨fun hnone => ?_, fun schemas hschemas => ?_⟩
    · have hcompiled : Fields.get? compiled id = none := by
        rw [← Option.not_isSome_iff_eq_none] at hnone ⊢
        intro hsome
        have hmem : id ∈ Fields.keys table := hkeys ▸ (Fields.contains_iff_mem_keys _ id).mp hsome
        exact hnone ((Fields.contains_iff_mem_keys _ id).mpr hmem)
      rw [hcompiled, Option.none_or]
    · obtain ⟨c, hc, hfound⟩ := hget id schemas hschemas
      exact ⟨c, hc, by rw [hfound, Option.some_or]⟩
  · cases h

/-! ## Histories -/

/-- A table to be loaded, and whether its responses are to be rendered. -/
structure Load where
  table : SchemaTable
  ordered : Fields.Ordered table
  fast : Bool

/-- The repository after a load was tried. -/
def attempt (r : Repository) (l : Load) : Repository :=
  match r.load l.table l.fast with
  | .ok r' => r'
  | .error _ => r

/-- The repository after loads were tried one after the other. -/
def attempts (r : Repository) (loads : List Load) : Repository := loads.foldl attempt r

/-- Those of the loads that succeed when their turn comes. -/
def installed (r : Repository) : List Load → List Load
  | [] => []
  | l :: rest =>
    (if (r.load l.table l.fast).isOk then [l] else []) ++ installed (r.attempt l) rest

/-- The last load that declares an operation. -/
def lastWith? (id : String) (loads : List Load) : Option Load :=
  loads.reverse.find? (fun l => Fields.contains l.table id)

theorem lastWith?_append (id : String) (ls ls' : List Load) :
    lastWith? id (ls ++ ls') = (lastWith? id ls').or (lastWith? id ls) := by
  unfold lastWith?
  rw [List.reverse_append, List.find?_append]

theorem lastWith?_eq_none_iff {id : String} {loads : List Load} :
    lastWith? id loads = none ↔ ∀ l ∈ loads, Fields.get? l.table id = none := by
  unfold lastWith? Fields.contains
  simp

theorem lastWith?_singleton (id : String) (l : Load) :
    lastWith? id [l] = if Fields.contains l.table id then some l else none := by
  unfold lastWith?
  cases h : Fields.contains l.table id <;> simp [h]

theorem attempts_cons (r : Repository) (l : Load) (rest : List Load) :
    r.attempts (l :: rest) = (r.attempt l).attempts rest := rfl

/-- A load that was tried left everything and is passed over, or installed its table. -/
theorem attempt_cases (r : Repository) (l : Load) :
    (r.attempt l = r ∧ ∀ rest, r.installed (l :: rest) = r.installed rest) ∨
      ∃ r', r.load l.table l.fast = .ok r' ∧ r.attempt l = r' ∧
        ∀ rest, r.installed (l :: rest) = [l] ++ r'.installed rest := by
  cases hload : r.load l.table l.fast with
  | error err =>
    have hattempt : r.attempt l = r := by simp only [attempt, hload]
    refine Or.inl ⟨hattempt, fun rest => ?_⟩
    rw [installed, hload, hattempt]
    rfl
  | ok r' =>
    have hattempt : r.attempt l = r' := by simp only [attempt, hload]
    refine Or.inr ⟨r', rfl, hattempt, fun rest => ?_⟩
    rw [installed, hload, hattempt]
    rfl

/-- Loads that fail might as well not have been tried. -/
theorem attempts_installed (r : Repository) (loads : List Load) :
    r.attempts (r.installed loads) = r.attempts loads := by
  induction loads generalizing r with
  | nil => rfl
  | cons l rest ih =>
    rw [attempts_cons]
    rcases attempt_cases r l with ⟨hattempt, hinstalled⟩ | ⟨r', -, hattempt, hinstalled⟩
    · rw [hinstalled, hattempt]
      exact ih r
    · rw [hinstalled, List.singleton_append, attempts_cons, hattempt]
      exact ih r'

/-- After any loads an operation has the contract that the last successful one with it made of its
schemas; without such a load nothing is changed about it. -/
theorem get?_attempts (r : Repository) (loads : List Load) (id : String) :
    (lastWith? id (r.installed loads) = none → (r.attempts loads).get? id = r.get? id) ∧
      ∀ l, lastWith? id (r.installed loads) = some l → ∃ schemas c,
        Fields.get? l.table id = some schemas ∧
        compileOperation r.engine l.fast id schemas = .ok c ∧
        (r.attempts loads).get? id = some c := by
  induction loads generalizing r with
  | nil => exact ⟨fun _ => rfl, fun l hl => by cases hl⟩
  | cons l rest ih =>
    rw [attempts_cons]
    rcases attempt_cases r l with ⟨hattempt, hinstalled⟩ | ⟨r', hload, hattempt, hinstalled⟩
    · rw [hattempt, hinstalled]
      exact ih r
    · obtain ⟨hnone, hsome⟩ := ih r'
      rw [engine_of_load hload] at hsome
      obtain ⟨habsent, hpresent⟩ := get?_of_load l.ordered hload id
      rw [hattempt, hinstalled, lastWith?_append, lastWith?_singleton]
      refine ⟨fun h => ?_, fun l' hl' => ?_⟩
      · obtain ⟨hrest, hhere⟩ := Option.or_eq_none_iff.mp h
        have hget : Fields.get? l.table id = none := by
          unfold Fields.contains at hhere
          cases hget : Fields.get? l.table id with
          | none => rfl
          | some schemas => simp [hget] at hhere
        rw [hnone hrest, habsent hget]
      · rcases Option.or_eq_some_iff.mp hl' with hrest | ⟨hrest, hhere⟩
        · exact hsome l' hrest
        · obtain ⟨hcontains, rfl⟩ : Fields.contains l.table id = true ∧ l = l' := by
            simpa using hhere
          obtain ⟨schemas, hschemas⟩ := Option.isSome_iff_exists.mp hcontains
          obtain ⟨c, hcompiled, hc⟩ := hpresent schemas hschemas
          exact ⟨schemas, c, hschemas, hcompiled, (hnone hrest).trans hc⟩

/-- The artifact for a status of three digits is the one under its code, else under the class of its
leading digit, else the default one. -/
theorem response_eq (c : OperationContract) {status : Nat} (h : status ≤ 999) :
    c.response status = ((c.artifact? (.exact status)).or
      (c.artifact? (.statusClass (status / 100)))).or (c.artifact? .default) := by
  have hclass : StatusKey.classOf status = .statusClass (status / 100) := by
    unfold StatusKey.classOf
    rw [Nat.mod_eq_of_lt (by omega)]
  unfold OperationContract.response
  rw [hclass]

/-- After any loads into an empty repository, some of which may have failed: an operation is there
exactly if a load that succeeded declared it; its contract is what the last such load made of its
schemas, compiled in full and for that load's mode; loads that fail change nothing; and responses
of any status of three digits have the artifact under their code, else under the class of their
leading digit, else the default one, else none. -/
theorem get?_attempts_empty (e : Engine) (loads : List Load) (id : String) :
    ((((empty e).attempts loads).get? id).isSome = true ↔
      ∃ l ∈ (empty e).installed loads, Fields.contains l.table id = true) ∧
    (∀ l, lastWith? id ((empty e).installed loads) = some l → ∃ schemas c,
      Fields.get? l.table id = some schemas ∧
      compileOperation e l.fast id schemas = .ok c ∧
      ((empty e).attempts loads).get? id = some c ∧ c.Implements e l.fast schemas) ∧
    (∀ l err, ((empty e).attempts loads).load l.table l.fast = .error err →
      (empty e).attempts (loads ++ [l]) = (empty e).attempts loads) ∧
    (empty e).attempts ((empty e).installed loads) = (empty e).attempts loads ∧
    ∀ status, 100 ≤ status → status ≤ 999 →
      ((empty e).attempts loads).response? status id =
        (((empty e).attempts loads).get? id).bind (fun c =>
          ((c.artifact? (.exact status)).or
            (c.artifact? (.statusClass (status / 100)))).or (c.artifact? .default)) := by
  obtain ⟨hnone, hsome⟩ := get?_attempts (empty e) loads id
  refine ⟨?_, fun l hl => ?_, fun l err herror => ?_, attempts_installed _ loads,
    fun status _ hle => ?_⟩
  · cases hlast : lastWith? id ((empty e).installed loads) with
    | none =>
      have habsent := lastWith?_eq_none_iff.mp hlast
      rw [hnone hlast]
      constructor
      · intro h
        cases h
      · rintro ⟨l, hl, hcontains⟩
        rw [Fields.contains, habsent l hl] at hcontains
        cases hcontains
    | some l =>
      obtain ⟨schemas, c, -, -, hc⟩ := hsome l hlast
      rw [hc]
      have hmem : l ∈ (empty e).installed loads :=
        List.mem_reverse.mp (List.mem_of_find?_eq_some hlast)
      have hcontains : Fields.contains l.table id = true := by
        unfold lastWith? at hlast
        simpa using List.find?_some hlast
      exact ⟨fun _ => ⟨l, hmem, hcontains⟩, fun _ => rfl⟩
  · obtain ⟨schemas, c, hschemas, hcompiled, hc⟩ := hsome l hl
    exact ⟨schemas, c, hschemas, hcompiled, hc, implements_of_compileOperation hcompiled⟩
  · have hattempt : ((empty e).attempts loads).attempt l = (empty e).attempts loads := by
      unfold attempt
      rw [herror]
    unfold attempts at hattempt ⊢
    rw [List.foldl_append]
    exact hattempt
  · unfold response?
    congr 1
    exact funext (fun c => response_eq c hle)

end Repository

end HttpContract
