import HttpContract.Proofs.Loading
import HttpContract.Proofs.PlainTexts
import HttpContract.Service.Exchange

/-!
# The contract is enforced

A service that rejects and validates responses enforces the contract of an operation on both sides
of the route handler (`Service.exchange_enforces`). The handler is given what the schemas of the
request leave of its parts, or is not asked at all; what it answers goes out as the schema of its
status leaves it, or not at all. Where a body is replaced, no content length of the old one stays.
-/

namespace HttpContract

/-! ## Content lengths -/

namespace Http

theorem values_remove (h : Headers) (name : String) :
    Headers.values (Headers.remove h name) name = [] := by
  unfold Headers.values Headers.remove
  rw [List.filter_filter]
  simp

theorem filter_replaceFirst {p : String × List UInt8 → Bool} {new : String × List UInt8}
    (hnew : p new = true) : ∀ {h : Headers}, h.any p = true →
      (Headers.replace.replaceFirst p new h).filter p = [new]
  | e :: rest, hany => by
    unfold Headers.replace.replaceFirst
    by_cases he : p e = true
    · rw [if_pos he, List.filter_cons_of_pos hnew, List.filter_filter]
      simp
    · have hrest : rest.any p = true := by simpa [he] using hany
      rw [if_neg he, List.filter_cons_of_neg he, filter_replaceFirst hnew hrest]

theorem values_replace (h : Headers) (name : String) (value : List UInt8) :
    Headers.values (Headers.replace h name value) name = [value] := by
  unfold Headers.values Headers.replace
  by_cases hany : h.any (fun e => e.1 == name) = true
  · rw [if_pos hany, filter_replaceFirst (by simp) hany]
    rfl
  · rw [if_neg hany, List.filter_append]
    have hnone : h.filter (fun e => e.1 == name) = [] := by
      refine List.filter_eq_nil_iff.mpr (fun e he hname => hany ?_)
      exact List.any_eq_true.mpr ⟨e, he, hname⟩
    rw [hnone]
    simp

/-- The content length is absent or that of the body. -/
def Sized (headers : Headers) (body : Body) : Prop :=
  ∃ bytes, body = .bytes bytes ∧ (Headers.values headers "content-length" = [] ∨
    Headers.values headers "content-length" = [Utf8.encode (toString bytes.length)])

end Http

/-! ## Errors as responses -/

/-- A response that tells the client about an error: a rejection, or a failure to do anything. -/
inductive ErrorRendering : Http.Response → Prop where
  | rejection {x : Exception} {r : Rejection} (h : Handler.rejecting x = some r) :
      ErrorRendering r.toResponse
  | failure (f : ServiceError) : ErrorRendering f.toResponse

theorem ErrorRendering.sized {response : Http.Response} (h : ErrorRendering response) :
    Http.Sized response.headers response.body := by
  cases h with
  | rejection h => exact ⟨_, rfl, Or.inl rfl⟩
  | failure f => exact ⟨_, rfl, Or.inl rfl⟩

/-! ## The way in -/

namespace Gate

variable {r : Repository} {operation : String} {d : RequestData}

theorem slot_checkSlot (slot : RequestSlot) : (checkSlot r operation d slot).slot = slot := by
  unfold checkSlot
  cases r.request? slot operation <;> rfl

/-- The exceptions of the parts that fail. -/
def exceptions (r : Repository) (operation : String) (d : RequestData) : List Exception :=
  (RequestSlot.all.map (checkSlot r operation d)).filterMap (SlotCheck.exception? operation)

/-- The handler decides the outcome alone. -/
theorem before_eq (handler : Handler) : before r handler operation d =
    (⟨match handAll handler (exceptions r operation d) with
        | some rejection => .error rejection
        | none => .ok ((RequestSlot.all.map (checkSlot r operation d)).map
            (fun c => (c.slot, c.verdict))),
      exceptions r operation d⟩,
      (RequestSlot.all.map (checkSlot r operation d)).foldl
        (fun d c => d.withSlot c.slot c.value) d) := by
  unfold before exceptions
  dsimp only
  cases handAll handler
    ((RequestSlot.all.map (checkSlot r operation d)).filterMap (SlotCheck.exception? operation))
  all_goals rfl

/-- The data afterwards are what the checks leave. -/
theorem slot_before (handler : Handler) (slot : RequestSlot) :
    (before r handler operation d).2.slot slot = (checkSlot r operation d slot).value := by
  rw [before_eq]
  simp only [RequestSlot.all, List.map_cons, List.map_nil, List.foldl_cons, List.foldl_nil,
    slot_checkSlot]
  cases slot <;> rfl

theorem outcome_before (handler : Handler) : (before r handler operation d).1.outcome =
    match handAll handler (exceptions r operation d) with
    | some rejection => .error rejection
    | none => .ok ((RequestSlot.all.map (checkSlot r operation d)).map
        (fun c => (c.slot, c.verdict))) := by
  cases h : handAll handler (exceptions r operation d) with
  | some rejection => simp only [before_eq, h]
  | none => simp only [before_eq, h]

theorem eq_nil_of_handAll_rejecting {xs : List Exception} (h : handAll .rejecting xs = none) :
    xs = [] := by
  cases xs with
  | nil => rfl
  | cons x rest => cases h

/-- A gate that rejects lets a request through only if no part of it fails. -/
theorem success_of_before {report : RequestReport}
    (h : (before r .rejecting operation d).1.outcome = .ok report) (slot : RequestSlot) :
    (checkSlot r operation d slot).verdict.success = true := by
  rw [outcome_before] at h
  cases hhand : handAll .rejecting (exceptions r operation d) with
  | some rejection =>
    rw [hhand] at h
    cases h
  | none =>
    have hnone := List.filterMap_eq_nil_iff.mp (eq_nil_of_handAll_rejecting hhand) _
      (List.mem_map.mpr ⟨slot, slot.mem_all, rfl⟩)
    unfold SlotCheck.exception? at hnone
    by_contra hfailed
    rw [if_neg hfailed] at hnone
    cases hnone

/-- A gate that rejects turns requests away with a rejection. -/
theorem errorRendering_of_before {rejection : Rejection}
    (h : (before r .rejecting operation d).1.outcome = .error rejection) :
    ErrorRendering rejection.toResponse := by
  rw [outcome_before] at h
  cases hhand : handAll .rejecting (exceptions r operation d) with
  | none =>
    rw [hhand] at h
    cases h
  | some first =>
    rw [hhand] at h
    cases h
    rcases List.mem_filterMap.mp (List.mem_of_head? hhand) with ⟨x, -, hx⟩
    exact .rejection hx

end Gate

namespace Setup

/-- A service is built where the transport suits the settings, the registry is accepted and the
declarations can be loaded. -/
theorem build_eq_ok_iff {setup : Setup} {s : Service} : setup.build = .ok s ↔
    (setup.settings.fastSerialization && !setup.transport.setsContentType) = false ∧
    ∃ engine repository,
      Engine.ofRegistry setup.settings.options setup.registry = .ok engine ∧
      (Repository.empty engine).load setup.declarations setup.settings.fastSerialization =
        .ok repository ∧
      s = ⟨setup.settings, setup.identity, repository, setup.handler⟩ := by
  unfold build
  constructor
  · intro h
    split at h
    · cases h
    · next hsuits =>
      split at h
      · cases h
      · next engine hengine =>
        split at h
        · cases h
        · next repository hload =>
          cases h
          exact ⟨by simpa using hsuits, engine, repository, hengine, hload, rfl⟩
  · rintro ⟨hsuits, engine, repository, hengine, hload, rfl⟩
    simp only [hsuits, hengine, hload, Bool.false_eq_true, if_false]

theorem build_eq_ok {setup : Setup} {s : Service} (h : setup.build = .ok s) :
    ∃ engine, (Repository.empty engine).load setup.declarations
        setup.settings.fastSerialization = .ok s.repository ∧
      s.settings = setup.settings ∧ s.handler = setup.handler := by
  obtain ⟨-, engine, repository, -, hload, rfl⟩ := build_eq_ok_iff.mp h
  exact ⟨engine, hload, rfl, rfl⟩

theorem build_of_load {setup : Setup} {e : Engine} {r : Repository}
    (hmode : setup.settings.fastSerialization = false)
    (he : Engine.ofRegistry setup.settings.options setup.registry = .ok e)
    (hload : (Repository.empty e).load setup.declarations false = .ok r) :
    setup.build = .ok ⟨setup.settings, setup.identity, r, setup.handler⟩ :=
  build_eq_ok_iff.mpr ⟨by rw [hmode, Bool.false_and], e, r, he, by rw [hmode, hload], rfl⟩

end Setup

namespace Service

open Exchange

variable {s : Service} {operation : String}

/-- What is read off a request for an operation: its parts, the body only where a schema needs
it. -/
structure Extracts (s : Service) (c : OperationContract) (m : Http.MatchedPath)
    (request : Http.Request) (given : RequestData) : Prop where
  parameters : given.parameters = parametersValue m
  query : given.query = queryValue (Http.Form.decode (Http.queryOf request.target))
  headers : given.headers = headersValue request.headers
  body : c.body.isSome = true → ∃ bytes, request.body = .bytes bytes ∧
    bytes.length ≤ s.settings.bodyLimit ∧ bodyValue bytes = .ok given.body
  noBody : c.body = none → given.body = .null

/-- Every part of the request that has a schema satisfies it, and what is handed on is what the
schemas leave of the parts. -/
structure Admits (s : Service) (operation : String) (c : OperationContract) (given : RequestData)
    (v : ValidatedRequest) : Prop where
  operation : v.operation = operation
  success : ∀ slot schema, c.request slot = some schema →
    (s.repository.engine.validate schema (given.slot slot)).verdict.success = true
  normalized : ∀ slot schema, c.request slot = some schema →
    v.data.slot slot = (s.repository.engine.validate schema (given.slot slot)).value
  undeclared : ∀ slot, c.request slot = none → v.data.slot slot = given.slot slot

/-- The request that is handed on: the body, if it has a schema, is the normalized one. -/
structure HandsOn (c : OperationContract) (request : Http.Request) (v : ValidatedRequest)
    (handed : Http.Request) : Prop where
  body : c.body.isSome = true → handed.body = .bytes (bodyBytes v.data.body)
  noBody : c.body = none → handed = request
  sized : handed.body = request.body ∨ Http.Sized handed.headers handed.body

/-- The response that is sent: an error, or the answer of the handler with a body that the schema of
its status has accepted and normalized. An answer that no schema covers is sent as it is. -/
structure Returns (s : Service) (operation : String) (answer sent : Http.Response) : Prop where
  uncovered : s.repository.response? answer.status operation = none → sent = answer
  covered : ∀ a, s.repository.response? answer.status operation = some a →
    ∃ schema, a = .validator schema ∧ (ErrorRendering sent ∨ ∃ bytes v,
      answer.body = .bytes bytes ∧ bodyValue bytes = .ok v ∧
      (s.repository.engine.validate schema v).verdict.success = true ∧
      sent.status = answer.status ∧
      (sent.body = .bytes (Utf8.encode (s.repository.engine.validate schema v).value.render) ∨
        bytes = [] ∧ (s.repository.engine.validate schema v).value = .null ∧
          sent.body = .bytes []))
  sized : sent.body = answer.body ∨ Http.Sized sent.headers sent.body

theorem admits_of_before {c : OperationContract} {given : RequestData} {report : RequestReport}
    (hc : s.repository.get? operation = some c)
    (h : (Gate.before s.repository .rejecting operation given).1.outcome = .ok report) :
    Admits s operation c given
      ⟨operation, (Gate.before s.repository .rejecting operation given).2, report⟩ := by
  have hrequest : ∀ slot, s.repository.request? slot operation = c.request slot := by
    intro slot
    unfold Repository.request?
    rw [hc]
    rfl
  have hvalue : ∀ slot, (Gate.before s.repository .rejecting operation given).2.slot slot =
      (Gate.checkSlot s.repository operation given slot).value := Gate.slot_before .rejecting
  have hsuccess := Gate.success_of_before h
  refine ⟨rfl, fun slot schema hslot => ?_, fun slot schema hslot => ?_, fun slot hslot => ?_⟩
  · have hverdict := hsuccess slot
    unfold Gate.checkSlot at hverdict
    rw [hrequest, hslot] at hverdict
    exact hverdict
  · refine (hvalue slot).trans ?_
    unfold Gate.checkSlot
    rw [hrequest, hslot]
  · refine (hvalue slot).trans ?_
    unfold Gate.checkSlot
    rw [hrequest, hslot]

theorem read_eq_ok {limit : Nat} {body : Http.Body} {bytes : List UInt8}
    (h : body.read limit = .ok bytes) : body = .bytes bytes ∧ bytes.length ≤ limit := by
  cases body with
  | failing reason => cases h
  | bytes b =>
    unfold Http.Body.read at h
    dsimp only at h
    split at h
    · cases h
    · next hle =>
      cases h
      exact ⟨rfl, Nat.le_of_not_lt hle⟩

theorem readBody_eq_ok {limit : Nat} {body : Http.Body} {v : Json}
    (h : readBody limit body = .ok v) : ∃ bytes, body = .bytes bytes ∧ bytes.length ≤ limit ∧
      bodyValue bytes = .ok v := by
  unfold readBody at h
  split at h
  · cases h
  · cases h
  · next bytes hread =>
    rcases read_eq_ok hread with ⟨hbody, hle⟩
    split at h
    · next w hvalue =>
      cases h
      exact ⟨bytes, hbody, hle, hvalue⟩
    · cases h

theorem bodyValue_of_responseValue {headers : Http.Headers} {bytes : List UInt8} {v : Json}
    (h : responseValue headers bytes = .ok v) : bodyValue bytes = .ok v := by
  unfold responseValue at h
  split at h
  · cases h
  · split at h
    · next w hvalue =>
      cases h
      exact hvalue
    · cases h

/-- What validation leaves of a body replaces it, unless both are empty. -/
theorem withOutcome_validated (answer : Http.Response) (bytes : List UInt8) (w : Json) :
    (withOutcome answer bytes (.validated w)).status = answer.status ∧
      ((withOutcome answer bytes (.validated w)).body = .bytes (Utf8.encode w.render) ∧
          Http.Sized (withOutcome answer bytes (.validated w)).headers
            (withOutcome answer bytes (.validated w)).body ∨
        bytes = [] ∧ w = .null ∧ (withOutcome answer bytes (.validated w)).body = .bytes []) := by
  unfold withOutcome
  dsimp only
  by_cases hempty : w = .null ∧ bytes.isEmpty = true
  · rw [if_pos hempty]
    obtain rfl := List.isEmpty_iff.mp hempty.2
    exact ⟨rfl, Or.inr ⟨rfl, hempty.1, rfl⟩⟩
  · rw [if_neg hempty]
    exact ⟨rfl, Or.inl ⟨rfl, _, rfl, Or.inl (Http.values_remove _ _)⟩⟩

theorem handsOn_of_contract (c : OperationContract) (request : Http.Request)
    (v : ValidatedRequest) : HandsOn c request v
      (if c.body.isSome then withBody request v.data.body else request) := by
  by_cases hbody : c.body.isSome = true
  · rw [if_pos hbody]
    refine ⟨fun _ => rfl, fun hnone => ?_, Or.inr ⟨_, rfl, Or.inr (Http.values_replace _ _ _)⟩⟩
    rw [hnone] at hbody
    cases hbody
  · rw [if_neg hbody]
    exact ⟨fun hsome => absurd hsome hbody, fun _ => rfl, Or.inl rfl⟩

/-! ## The way back -/

theorem Returns.of_errorRendering {answer sent : Http.Response} {schema : CompiledSchema}
    (ha : s.repository.response? answer.status operation = some (.validator schema))
    (h : ErrorRendering sent) : Returns s operation answer sent where
  uncovered hnone := by
    rw [hnone] at ha
    cases ha
  covered a ha' := ⟨schema, Option.some.inj (ha'.symm.trans ha), Or.inl h⟩
  sized := Or.inr h.sized

theorem Returns.of_success {answer : Http.Response} {schema : CompiledSchema} {bytes : List UInt8}
    {v : Json} (ha : s.repository.response? answer.status operation = some (.validator schema))
    (hbody : answer.body = .bytes bytes) (hv : bodyValue bytes = .ok v)
    (hsuccess : (s.repository.engine.validate schema v).verdict.success = true) :
    Returns s operation answer (withOutcome answer bytes
      (.validated (s.repository.engine.validate schema v).value)) := by
  rcases withOutcome_validated answer bytes (s.repository.engine.validate schema v).value with
    ⟨hstatus, hsent⟩
  refine ⟨fun hnone => ?_, fun a ha' => ⟨schema, Option.some.inj (ha'.symm.trans ha), Or.inr
    ⟨bytes, v, hbody, hv, hsuccess, hstatus, hsent.imp And.left id⟩⟩, ?_⟩
  · rw [hnone] at ha
    cases ha
  · rcases hsent with ⟨-, hsized⟩ | ⟨hempty, -, hsent⟩
    · exact Or.inr hsized
    · refine Or.inl (hsent.trans ?_)
      rw [hbody, hempty]

/-- A gate that rejects lets a response through only if its schema accepts it. -/
theorem after_rejecting {status : Nat} {v : Json} {schema : CompiledSchema}
    (ha : s.repository.response? status operation = some (.validator schema)) :
    (∃ r, (Gate.after s.repository .rejecting operation status v).outcome = .error r ∧
      ErrorRendering r.toResponse) ∨
    (s.repository.engine.validate schema v).verdict.success = true ∧
      (Gate.after s.repository .rejecting operation status v).outcome =
        .ok (.validated (s.repository.engine.validate schema v).value) := by
  unfold Gate.after
  rw [ha]
  dsimp only
  by_cases hsuccess : (s.repository.engine.validate schema v).verdict.success = true
  · rw [if_pos hsuccess]
    exact Or.inr ⟨hsuccess, rfl⟩
  · rw [if_neg hsuccess]
    exact Or.inl ⟨_, rfl, .rejection rfl⟩

theorem returns_takeBack (hhandler : s.handler = .rejecting)
    (hvalidator : ∀ status a, s.repository.response? status operation = some a →
      ∃ schema, a = .validator schema) (answer : Http.Response) :
    Returns s operation answer (s.takeBack operation answer).response := by
  unfold takeBack
  rw [hhandler]
  cases ha : s.repository.response? answer.status operation with
  | none =>
    refine ⟨fun _ => rfl, fun a ha' => ?_, Or.inl rfl⟩
    rw [ha] at ha'
    cases ha'
  | some a =>
    rcases hvalidator answer.status a ha with ⟨schema, rfl⟩
    dsimp only
    cases hread : answer.body.read s.settings.responseBodyLimit with
    | error e =>
      dsimp only
      exact .of_errorRendering ha (.failure _)
    | ok bytes =>
      dsimp only
      rcases read_eq_ok hread with ⟨hbody, -⟩
      cases hvalue : responseValue answer.headers bytes with
      | error reason => exact .of_errorRendering ha (.rejection rfl)
      | ok v =>
        dsimp only
        rcases after_rejecting (v := v) ha with ⟨r, hr, hrendering⟩ | ⟨hsuccess, hr⟩
        · rw [hr]
          exact .of_errorRendering ha hrendering
        · rw [hr]
          exact .of_success ha hbody (bodyValue_of_responseValue hvalue) hsuccess

/-! ## The whole exchange -/

/-- What is read off a request is all of it, if anything is. -/
theorem exists_extracts {c : OperationContract} (m : Http.MatchedPath) (request : Http.Request)
    {body : Json}
    (h : (if c.body.isSome then readBody s.settings.bodyLimit request.body else .ok .null) =
      .ok body) :
    Extracts s c m request ⟨parametersValue m,
      queryValue (Http.Form.decode (Http.queryOf request.target)),
      headersValue request.headers, body⟩ := by
  refine ⟨rfl, rfl, rfl, fun hsome => ?_, fun hnone => ?_⟩
  · rw [if_pos hsome] at h
    exact readBody_eq_ok h
  · rw [hnone] at h
    cases h
    rfl

/-- A service that rejects and validates either answers a request by an error, without asking the
route handler, or asks it once: with a request whose parts their schemas have accepted, and all it
answers goes back through the schema of its status. -/
theorem exchange_enforces {setup : Setup} {s : Service} {c : OperationContract}
    {m : Http.MatchedPath} {request : Http.Request} (hbuild : setup.build = .ok s)
    (hhandler : setup.handler = Handler.rejecting)
    (hmode : setup.settings.fastSerialization = false)
    (hc : s.repository.get? (s.operationOf m request) = some c) :
    (∃ served, ErrorRendering served.response ∧ ∀ next, s.exchange m request next = served) ∨
    ∃ (given : RequestData) (v : ValidatedRequest) (handed : Http.Request)
        (finish : Http.Response → Served),
      Extracts s c m request given ∧ Admits s (s.operationOf m request) c given v ∧
      HandsOn c request v handed ∧
      (∀ next, s.exchange m request next = finish (next handed (some v))) ∧
      ∀ answer, Returns s (s.operationOf m request) answer (finish answer).response := by
  rcases Setup.build_eq_ok hbuild with ⟨engine, hload, -, hsame⟩
  rw [hmode] at hload
  have hrejects : s.handler = Handler.rejecting := hsame.trans hhandler
  have hvalidator : ∀ status a,
      s.repository.response? status (s.operationOf m request) = some a →
        ∃ schema, a = .validator schema := by
    intro status a ha
    rcases Repository.exists_validator_of_load hload ha with ⟨-, schema, -, hschema⟩
    exact ⟨schema, hschema⟩
  cases hpayload : (if c.body.isSome then readBody s.settings.bodyLimit request.body
      else .ok .null : Except ServiceError Json) with
  | error e =>
    refine Or.inl ⟨⟨e.toResponse, []⟩, .failure e, fun next => ?_⟩
    unfold exchange
    simp only [hc, hpayload]
  | ok body =>
    have hextracts := exists_extracts m request hpayload
    generalize hgiven : (⟨parametersValue m,
      queryValue (Http.Form.decode (Http.queryOf request.target)),
      headersValue request.headers, body⟩ : RequestData) = given at hextracts
    generalize hbefore : Gate.before s.repository .rejecting (s.operationOf m request) given =
      before
    rcases before with ⟨step, data⟩
    cases houtcome : step.outcome with
    | error rejection =>
      refine Or.inl ⟨⟨rejection.toResponse, step.raised⟩, ?_, fun next => ?_⟩
      · have hturned : (Gate.before s.repository .rejecting (s.operationOf m request)
            given).1.outcome = .error rejection := by
          rw [hbefore]
          exact houtcome
        exact Gate.errorRendering_of_before hturned
      · unfold exchange
        simp only [hc, hpayload, hgiven, hrejects, hbefore, houtcome]
    | ok report =>
      have hpassed : (Gate.before s.repository .rejecting (s.operationOf m request)
          given).1.outcome = .ok report := by
        rw [hbefore]
        exact houtcome
      have hadmits := admits_of_before hc hpassed
      rw [hbefore] at hadmits
      refine Or.inr ⟨given, _, _, fun answer =>
          { s.takeBack (s.operationOf m request) answer with
            raised := step.raised ++ (s.takeBack (s.operationOf m request) answer).raised },
        hextracts, hadmits, handsOn_of_contract c request _, fun next => ?_,
        fun answer => returns_takeBack hrejects hvalidator answer⟩
      unfold exchange
      simp only [hc, hpayload, hgiven, hrejects, hbefore, houtcome]

/-- Documents of one schema are sent and answered by such documents. -/
def exchanging (f : Fragment) : SchemaTable :=
  [(Repository.soleOperation,
    { OperationSchemas.empty with body := some f, responses := [("default", some f)] })]

/-- The contract of the operation. -/
def exchangingContract (s : CompiledSchema) : OperationContract :=
  ⟨none, none, none, some s, [(.default, .validator s)]⟩

theorem load_exchanging {e : Engine} {f : Fragment} {s : CompiledSchema} (h : e.compile f = .ok s) :
    (Repository.empty e).load (exchanging f) false =
      .ok ⟨e, [(Repository.soleOperation, exchangingContract s)]⟩ := by
  have hslot : ∀ slot, Repository.compileSlot e Repository.soleOperation slot (some f) =
      .ok (some s) := by
    intro slot
    simp only [Repository.compileSlot, h]
  have hresponses : Repository.compileResponses e Repository.soleOperation false
      [("default", some f)] [] = .ok [(.default, .validator s)] := by
    unfold Repository.compileResponses
    rw [show StatusKey.read? "default" = some .default from rfl]
    dsimp only
    rw [hslot]
    rfl
  have htable : Repository.compileTable e false (exchanging f) =
      .ok [(Repository.soleOperation, exchangingContract s)] := by
    show (Repository.compileOperation _ _ _ _ >>= _) = _
    unfold Repository.compileOperation
    simp only [hslot, hresponses]
    rfl
  unfold Repository.load
  rw [show (Repository.empty e).engine = e from rfl, htable]
  rfl

/-- Trees are exchanged, whatever the route. -/
def exchangingTrees : Setup :=
  { Setup.start .standard with
    identity := fun _ => Repository.soleOperation
    registry := Engine.sizedTrees
    table := exchanging Engine.sizedTree }

/-- A tree is sent. -/
def treeRequest : Http.Request := ⟨"POST", "/trees", [], .bytes (Utf8.encode Engine.sizes.render)⟩

theorem exists_build_exchangingTrees : ∃ s l, exchangingTrees.build = .ok s ∧
    s.repository.get? Repository.soleOperation = some (exchangingContract (Engine.sizedSchema l)) ∧
    ∀ m request, s.operationOf m request = Repository.soleOperation := by
  rcases Engine.exists_ofRegistry_sizedTrees with ⟨l, l', he, hs⟩
  refine ⟨⟨.standard, exchangingTrees.identity, ⟨Engine.sizedEngine l,
    [(Repository.soleOperation, exchangingContract (Engine.sizedSchema l'))]⟩, .rejecting⟩, l',
    Setup.build_of_load rfl he (load_exchanging hs), rfl, fun _ _ => rfl⟩

/-- A tree is turned away, or handed on as the schema leaves it. -/
theorem exchange_enforces_exchangingTrees : ∃ s c,
    exchangingTrees.build = .ok s ∧ exchangingTrees.handler = Handler.rejecting ∧
    exchangingTrees.settings.fastSerialization = false ∧
    s.repository.get? (s.operationOf ⟨"/trees", []⟩ treeRequest) = some c ∧ c.body.isSome = true ∧
    ((∃ served, ErrorRendering served.response ∧
        ∀ next, s.exchange ⟨"/trees", []⟩ treeRequest next = served) ∨
      ∃ (given : RequestData) (v : ValidatedRequest) (handed : Http.Request)
          (finish : Http.Response → Served),
        Extracts s c ⟨"/trees", []⟩ treeRequest given ∧
        Admits s (s.operationOf ⟨"/trees", []⟩ treeRequest) c given v ∧
        HandsOn c treeRequest v handed ∧
        (∀ next, s.exchange ⟨"/trees", []⟩ treeRequest next = finish (next handed (some v))) ∧
        ∀ answer, Returns s (s.operationOf ⟨"/trees", []⟩ treeRequest) answer
          (finish answer).response) := by
  rcases exists_build_exchangingTrees with ⟨s, l, hbuild, hc, hop⟩
  have hc' : s.repository.get? (s.operationOf ⟨"/trees", []⟩ treeRequest) =
      some (exchangingContract (Engine.sizedSchema l)) := by
    rw [hop]
    exact hc
  exact ⟨s, exchangingContract (Engine.sizedSchema l), hbuild, rfl, rfl, hc', rfl,
    exchange_enforces hbuild rfl rfl hc'⟩

end Service

end HttpContract
