import HttpContract.Proofs.AcceptedTexts
import HttpContract.Proofs.Enforcement
import HttpContract.Proofs.Reloading
import HttpContract.Proofs.Rereading

/-!
# The body that is handed on

A route handler is given the normalized body as bytes, and beside it the normalized body as a
document. Everything that is read is ordered (`Json.ordered_of_parse`), and normalization keeps it
so if the schemas are (`Engine.ordered_validate`); therefore the bytes are read as the document
unless the document is null, nested too deeply, or holds a number that is taken for another
(`Service.exchange_hands_on_iff`). Null is written as no bytes at all, which no reader takes for a
document (`Service.exchange_hands_on_null`).
-/

namespace HttpContract

namespace Engine

open Planning Normalization

variable {o : Options} {r : Registry} {e : Engine}

/-! ## Normalization keeps the order of members -/

theorem inherited_ordered (hregistry : ∀ handle g, r.get? handle = some g → g.document.Ordered) :
    Inherited r Json.Ordered :=
  ⟨fun _ _ hd ht => ordered_of_inside ht hd, hregistry⟩

/-- Defaults are ordered if the schemas are. -/
theorem ordered_of_filling {n : Node} (hn : Belongs e Json.Ordered n) {d : Json}
    (hd : n.filling = some d) : d.Ordered := by
  cases n with
  | plan p =>
    rcases hn with ⟨t, document, ht, hplans⟩
    cases hplans with
    | always b => cases hd
    | @keywords members documents _ hm h =>
      have hπ : ∀ ρ v p q document, PlansKeyword e.context ρ v p q document → ρ ≠ .default →
          q.default = p.default := by
        intro ρ v p q document h hρ
        cases h <;> first | rfl | exact absurd rfl hρ
      rcases component_of_keyword "default" rfl hπ h with
        ⟨hnone, -⟩ | ⟨v, _, p', q', hv, -, hplans, heq⟩
      · rw [show (Node.plan p).filling = p.default from rfl, hnone] at hd
        cases hd
      · cases hplans with
        | default =>
          rw [show (Node.plan p).filling = p.default from rfl, heq] at hd
          cases hd
          exact Json.ordered_of_mem ht.2 hv
  | inline root evaluator source => cases hd
  | deferred handle => cases hd

theorem ordered_withDefaults {properties : List (String × Node)} {members : Fields Json}
    (hproperties : ∀ name m, (name, m) ∈ properties → Belongs e Json.Ordered m)
    (h : (Json.obj members).Ordered) : (Json.obj (withDefaults properties members)).Ordered := by
  rw [Corresponds.withDefaults_eq]
  induction properties generalizing members with
  | nil => exact h
  | cons x rest ih =>
    rcases x with ⟨name, m⟩
    rw [List.foldl_cons]
    refine ih (fun name' m' hm' => hproperties name' m' (List.mem_cons_of_mem _ hm')) ?_
    dsimp only
    split
    · next d hd =>
      split
      · exact h
      · exact Json.ordered_insert h name
          (ordered_of_filling (hproperties name m List.mem_cons_self) hd)
    · exact h

theorem ordered_filled {p : Plan Node} {members : Fields Json}
    (hproperties : ∀ name m, (name, m) ∈ p.properties → Belongs e Json.Ordered m)
    (h : (Json.obj members).Ordered) : (Json.obj (filled e p members)).Ordered := by
  unfold filled
  split
  · exact ordered_withDefaults hproperties h
  · exact h

theorem ordered_of_prepared {p : Plan Node} {strip : Bool} {members ready : Fields Json}
    (hproperties : ∀ name m, (name, m) ∈ p.properties → Belongs e Json.Ordered m)
    (h : (Json.obj members).Ordered)
    (hready : ∃ fuel, prepared e fuel p strip members = some ready) :
    (Json.obj ready).Ordered := by
  rcases hready with ⟨fuel, hready⟩
  rw [eq_of_prepared hready]
  exact Json.ordered_filter (ordered_filled hproperties h) _

theorem ordered_coerced (types : List JsonType) {v : Json} (hv : v.Ordered) :
    (coerced e.options types v).Ordered := by
  rcases eq_or_isScalar_coerced e.options types v with heq | ⟨-, hscalar⟩
  · rw [heq]
    exact hv
  · exact ordered_of_isScalar hscalar

mutual

/-- The walk keeps the members of every object in order. -/
theorem ordered_of_turns (hr : ofRegistry o r = .ok e) (hQ : Inherited r Json.Ordered) :
    ∀ {n : Node} {strip clean : Bool} {v w : Json}, Turns e n strip v w clean →
      Belongs e Json.Ordered n → v.Ordered → w.Ordered
  | _, _, _, _, _, .nowhere _ _, _, hv => hv
  | _, _, _, _, _, .reference hs h, hn, hv =>
    ordered_of_turns hr hQ h (belongs_of_resolve? hr hQ hn hs) hv
  | _, _, _, _, _, .plan hbranches hparts, hn, hv =>
    ordered_of_parts hr hQ hparts hn
      (ordered_of_runs hr hQ hbranches (belongs_of_plan hQ hn).1 (ordered_coerced _ hv))
termination_by structural _ _ _ _ _ h => h

theorem ordered_of_runs (hr : ofRegistry o r = .ok e) (hQ : Inherited r Json.Ordered) :
    ∀ {strip clean : Bool} {nodes : List Node} {v w : Json}, Runs e strip nodes v w clean →
      (∀ n ∈ nodes, Belongs e Json.Ordered n) → v.Ordered → w.Ordered
  | _, _, _, _, _, .nil, _, hv => hv
  | _, _, _, _, _, .cons h hrest, hnodes, hv =>
    ordered_of_runs hr hQ hrest (fun m hm => hnodes m (List.mem_cons_of_mem _ hm))
      (ordered_of_turns hr hQ h (hnodes _ List.mem_cons_self) hv)
termination_by structural _ _ _ _ _ h => h

theorem ordered_of_parts (hr : ofRegistry o r = .ok e) (hQ : Inherited r Json.Ordered) :
    ∀ {p : Plan Node} {strip clean : Bool} {v w : Json}, Parts e p strip v w clean →
      Belongs e Json.Ordered (.plan p) → v.Ordered → w.Ordered
  | _, _, _, _, _, .object hready h, hp, hv => by
    have hordered := ordered_of_prepared (belongs_of_plan hQ hp).2.1 hv hready
    refine ⟨Fields.ordered_of_keys_eq (keys_of_members h) hordered.1,
      Json.orderedMembers_iff.mpr ?_⟩
    exact ordered_of_members hr hQ h hp (fun _ hm => Json.ordered_of_mem hordered.2 hm)
  | _, _, _, _, _, .list h, hp, hv => Json.orderedItems_iff.mpr
      (ordered_of_items hr hQ h hp (fun _ hx => Json.ordered_of_mem_items hv hx))
  | _, _, _, _, _, .scalar _, _, hv => hv
termination_by structural _ _ _ _ _ h => h

theorem ordered_of_members (hr : ofRegistry o r = .ok e) (hQ : Inherited r Json.Ordered) :
    ∀ {p : Plan Node} {clean : Bool} {members members' : Fields Json},
      Members e p members members' clean → Belongs e Json.Ordered (.plan p) →
        (∀ m ∈ members, m.2.Ordered) → ∀ m ∈ members', m.2.Ordered
  | _, _, _, _, .nil, _, hv => hv
  | _, _, _, _, .cons h hrest, hp, hv =>
    List.forall_mem_cons.mpr ⟨ordered_of_runs hr hQ h
        (fun _ hn => belongs_of_reaches hr hQ hp (reaches_of_mem_memberNodes hn))
        (hv _ List.mem_cons_self),
      ordered_of_members hr hQ hrest hp (fun x hx => hv x (List.mem_cons_of_mem _ hx))⟩
termination_by structural _ _ _ _ h => h

theorem ordered_of_items (hr : ofRegistry o r = .ok e) (hQ : Inherited r Json.Ordered) :
    ∀ {p : Plan Node} {index : Nat} {clean : Bool} {items items' : List Json},
      Items e p index items items' clean → Belongs e Json.Ordered (.plan p) →
        (∀ x ∈ items, x.Ordered) → ∀ x ∈ items', x.Ordered
  | _, _, _, _, _, .nil, _, hv => hv
  | _, _, _, _, _, .cons h hrest, hp, hv =>
    List.forall_mem_cons.mpr ⟨ordered_of_runs hr hQ h
        (fun _ hn => belongs_of_reaches hr hQ hp (reaches_of_mem_itemNodes hn))
        (hv _ List.mem_cons_self),
      ordered_of_items hr hQ hrest hp (fun x hx => hv x (List.mem_cons_of_mem _ hx))⟩
termination_by structural _ _ _ _ _ h => h

end

/-- Validation keeps the members of every object in order. -/
theorem ordered_validate (hr : ofRegistry o r = .ok e)
    (hregistry : ∀ handle g, r.get? handle = some g → g.document.Ordered) {f : Fragment}
    {s : CompiledSchema} (hs : e.compile f = .ok s) (hf : f.document.Ordered) {v : Json}
    (hv : v.Ordered) : (e.validate s v).value.Ordered := by
  by_cases hends : Ends e s v
  · rcases leaves_validate hends with ⟨inner, hturns, -⟩
    rcases compiled_of_compile hs with ⟨document, hplans, -⟩
    exact ordered_of_turns hr (inherited_ordered hregistry) hturns ⟨_, _, hf, hplans⟩ hv
  · rw [value_of_not_ends hends]
    exact hv

end Engine

namespace Gate

/-- A request whose parts all satisfy their schemas is let through. -/
theorem exists_report_of_success {r : Repository} {operation : String} {d : RequestData}
    (handler : Handler) (h : ∀ slot, (checkSlot r operation d slot).verdict.success = true) :
    ∃ report, (before r handler operation d).1.outcome = .ok report := by
  have hnone : exceptions r operation d = [] := by
    refine List.filterMap_eq_nil_iff.mpr (fun c hc => ?_)
    rcases List.mem_map.mp hc with ⟨slot, -, rfl⟩
    unfold SlotCheck.exception?
    rw [if_pos (h slot)]
  rw [outcome_before, hnone]
  exact ⟨_, rfl⟩

end Gate

namespace Repository

/-- Every contract of a fresh repository was compiled from the table. -/
theorem mem_of_compileTable {e : Engine} {fast : Bool} {operation : String}
    {c : OperationContract} : ∀ {table : SchemaTable} {compiled : Fields OperationContract},
      compileTable e fast table = .ok compiled → (operation, c) ∈ compiled →
        ∃ schemas, (operation, schemas) ∈ table ∧
          compileOperation e fast operation schemas = .ok c := by
  intro table
  induction table with
  | nil =>
    intro compiled h hc
    cases h
    cases hc
  | cons m rest ih =>
    intro compiled h hc
    rcases m with ⟨k, schemas⟩
    rcases bind_eq_ok h with ⟨contract, hcontract, h⟩
    rcases bind_eq_ok h with ⟨others, hothers, h⟩
    cases h
    rcases List.mem_cons.mp hc with heq | hc
    · cases heq
      exact ⟨schemas, List.mem_cons_self, hcontract⟩
    · rcases ih hothers hc with ⟨found, hfound, hcompile⟩
      exact ⟨found, List.mem_cons_of_mem _ hfound, hcompile⟩

theorem exists_declared_body {e : Engine} {r : Repository} {table : SchemaTable} {fast : Bool}
    {operation : String} {c : OperationContract} {schema : CompiledSchema}
    (hload : (empty e).load table fast = .ok r) (hc : r.get? operation = some c)
    (hbody : c.body = some schema) :
    ∃ x ∈ table, ∃ f, x.2.body = some f ∧ e.compile f = .ok schema := by
  unfold load at hload
  split at hload
  · next compiled hcompiled =>
    cases hload
    have hmem : (operation, c) ∈ compiled := Fields.mem_of_mem_ofList (Fields.mem_of_get? hc)
    rcases mem_of_compileTable hcompiled hmem with ⟨schemas, hschemas, hcompile⟩
    have himplements := implements_of_compileOperation hcompile
    refine ⟨_, hschemas, ?_⟩
    cases hdeclared : schemas.slot .body with
    | none =>
      have hnone := himplements.undeclared .body hdeclared
      rw [show c.request .body = c.body from rfl, hbody] at hnone
      cases hnone
    | some f =>
      rcases himplements.declared .body f hdeclared with ⟨compiled, hf, hrequest⟩
      rw [show c.request .body = c.body from rfl, hbody] at hrequest
      cases hrequest
      exact ⟨f, hdeclared, hf⟩
  · cases hload

end Repository

theorem Setup.exists_engine_of_build {setup : Setup} {s : Service} (h : setup.build = .ok s) :
    ∃ engine, Engine.ofRegistry setup.settings.options setup.registry = .ok engine ∧
      (Repository.empty engine).load setup.declarations setup.settings.fastSerialization =
        .ok s.repository := by
  obtain ⟨-, engine, repository, hengine, hload, rfl⟩ := build_eq_ok_iff.mp h
  exact ⟨engine, hengine, hload⟩

namespace Service

open Exchange Normalization

variable {s : Service}

/-- The bytes that stand for a document are read as it, with three exceptions. -/
theorem parse_bodyBytes_iff {v : Json} (hv : v.Ordered) : Json.parse (bodyBytes v) = .ok v ↔
    v ≠ .null ∧ v.depth < Json.Parser.levelLimit ∧ v.Rereadable := by
  cases v with
  | null =>
    constructor
    · intro h
      exact absurd h (Json.parse_nil_ne .null)
    · intro h
      exact absurd rfl h.1
  | _ => simpa [bodyBytes] using Json.parse_render_eq_iff hv

theorem ordered_of_readBody {limit : Nat} {body : Http.Body} {v : Json}
    (h : readBody limit body = .ok v) : v.Ordered := by
  rcases readBody_eq_ok h with ⟨bytes, -, -, hvalue⟩
  unfold bodyValue at hvalue
  split at hvalue
  · cases hvalue
    trivial
  · exact Json.ordered_of_parse hvalue

/-- The parts of a request as the gate gets them. -/
def partsOf (m : Http.MatchedPath) (request : Http.Request) (body : Json) : RequestData :=
  ⟨parametersValue m, queryValue (Http.Form.decode (Http.queryOf request.target)),
    headersValue request.headers, body⟩

/-- A request with a body that is read and let through is handed on with the normalized body. -/
theorem exchange_of_before {c : OperationContract} {schema : CompiledSchema} {m : Http.MatchedPath}
    {request : Http.Request} {given : Json} {report : RequestReport}
    (hc : s.repository.get? (s.operationOf m request) = some c) (hbody : c.body = some schema)
    (hgiven : readBody s.settings.bodyLimit request.body = .ok given)
    (hreport : (Gate.before s.repository s.handler (s.operationOf m request)
      (partsOf m request given)).1.outcome = .ok report) :
    ∃ (v : ValidatedRequest) (finish : Http.Response → Served),
      v.data.body = (s.repository.engine.validate schema given).value ∧
      ∀ next, s.exchange m request next =
        finish (next (withBody request v.data.body) (some v)) := by
  have hsome : c.body.isSome = true := by rw [hbody]; rfl
  have hslot : (Gate.before s.repository s.handler (s.operationOf m request)
      (partsOf m request given)).2.slot .body =
      (Gate.checkSlot s.repository (s.operationOf m request) (partsOf m request given)
        .body).value :=
    Gate.slot_before s.handler .body
  have hrequest : s.repository.request? .body (s.operationOf m request) = some schema := by
    unfold Repository.request?
    rw [hc]
    exact hbody
  generalize hbefore : Gate.before s.repository s.handler (s.operationOf m request)
    (partsOf m request given) = before at hreport hslot
  rcases before with ⟨step, data⟩
  dsimp only at hreport hslot
  have hdata : data.body = (s.repository.engine.validate schema given).value := by
    refine hslot.trans ?_
    unfold Gate.checkSlot
    rw [hrequest]
    rfl
  refine ⟨⟨s.operationOf m request, data, report⟩, fun answer =>
    { s.takeBack (s.operationOf m request) answer with
      raised := step.raised ++ (s.takeBack (s.operationOf m request) answer).raised }, hdata,
    fun next => ?_⟩
  unfold partsOf at hbefore
  unfold exchange
  simp only [hc, hsome, if_true, hgiven, hbefore, hreport]

/-- The route handler is not asked, or is given bytes that are read as the normalized body exactly
if this is not null, is not nested too deeply, and has only numbers that are read back. -/
theorem exchange_hands_on_iff {setup : Setup} {c : OperationContract} {schema : CompiledSchema}
    {m : Http.MatchedPath} {request : Http.Request} (hbuild : setup.build = .ok s)
    (hregistry : ∀ handle g, setup.registry.get? handle = some g → g.document.Ordered)
    (hdeclared : ∀ x ∈ setup.declarations, ∀ f, x.2.body = some f → f.document.Ordered)
    (hc : s.repository.get? (s.operationOf m request) = some c) (hbody : c.body = some schema) :
    (∃ served, ∀ next, s.exchange m request next = served) ∨
    ∃ (given : Json) (v : ValidatedRequest) (handed : Http.Request) (bytes : List UInt8)
        (finish : Http.Response → Served),
      readBody s.settings.bodyLimit request.body = .ok given ∧
      v.data.body = (s.repository.engine.validate schema given).value ∧
      (∀ next, s.exchange m request next = finish (next handed (some v))) ∧
      handed.body = .bytes bytes ∧
      (Json.parse bytes = .ok v.data.body ↔ v.data.body ≠ .null ∧
        v.data.body.depth < Json.Parser.levelLimit ∧ v.data.body.Rereadable) := by
  have hsome : c.body.isSome = true := by rw [hbody]; rfl
  rcases Setup.exists_engine_of_build hbuild with ⟨engine, hengine, hload⟩
  have hsame : s.repository.engine = engine := Repository.engine_of_load hload
  rcases Repository.exists_declared_body hload hc hbody with ⟨x, hx, f, hf, hcompile⟩
  have hordered := hdeclared x hx f hf
  cases hgiven : readBody s.settings.bodyLimit request.body with
  | error e =>
    refine Or.inl ⟨⟨e.toResponse, []⟩, fun next => ?_⟩
    unfold exchange
    simp only [hc, hsome, if_true, hgiven]
  | ok given =>
    cases houtcome : (Gate.before s.repository s.handler (s.operationOf m request)
        (partsOf m request given)).1.outcome with
    | error rejection =>
      generalize hbefore : Gate.before s.repository s.handler (s.operationOf m request)
        (partsOf m request given) = before at houtcome
      rcases before with ⟨step, data⟩
      dsimp only at houtcome
      refine Or.inl ⟨⟨rejection.toResponse, step.raised⟩, fun next => ?_⟩
      unfold partsOf at hbefore
      unfold exchange
      simp only [hc, hsome, if_true, hgiven, hbefore, houtcome]
    | ok report =>
      rcases exchange_of_before hc hbody hgiven houtcome with ⟨v, finish, hv, hexchange⟩
      refine Or.inr ⟨given, v, _, _, finish, rfl, hv, hexchange, rfl, parse_bodyBytes_iff ?_⟩
      rw [hv, hsame]
      exact Engine.ordered_validate hengine hregistry hcompile hordered (ordered_of_readBody hgiven)

/-- What reaches the handler of trees. -/
theorem exchange_hands_on_iff_exchangingTrees : ∃ s c schema, exchangingTrees.build = .ok s ∧
    (∀ handle g, exchangingTrees.registry.get? handle = some g → g.document.Ordered) ∧
    (∀ x ∈ exchangingTrees.declarations, ∀ f, x.2.body = some f → f.document.Ordered) ∧
    s.repository.get? (s.operationOf ⟨"/trees", []⟩ treeRequest) = some c ∧
    c.body = some schema ∧
    ((∃ served, ∀ next, s.exchange ⟨"/trees", []⟩ treeRequest next = served) ∨
      ∃ (given : Json) (v : ValidatedRequest) (handed : Http.Request) (bytes : List UInt8)
          (finish : Http.Response → Served),
        readBody s.settings.bodyLimit treeRequest.body = .ok given ∧
        v.data.body = (s.repository.engine.validate schema given).value ∧
        (∀ next, s.exchange ⟨"/trees", []⟩ treeRequest next = finish (next handed (some v))) ∧
        handed.body = .bytes bytes ∧
        (Json.parse bytes = .ok v.data.body ↔ v.data.body ≠ .null ∧
          v.data.body.depth < Json.Parser.levelLimit ∧ v.data.body.Rereadable)) := by
  rcases exists_build_exchangingTrees with ⟨s, l, hbuild, hc, hop⟩
  have hc' : s.repository.get? (s.operationOf ⟨"/trees", []⟩ treeRequest) =
      some (exchangingContract (Engine.sizedSchema l)) := by
    rw [hop]
    exact hc
  have hdeclared : ∀ x ∈ exchangingTrees.declarations, ∀ f, x.2.body = some f →
      f.document.Ordered := by
    intro x hx f hf
    obtain rfl := List.mem_singleton.mp hx
    cases hf
    exact Engine.ordered_sizedTree
  exact ⟨s, _, _, hbuild, Engine.ordered_sizedTrees, hdeclared, hc', rfl,
    exchange_hands_on_iff hbuild Engine.ordered_sizedTrees hdeclared hc' rfl⟩

/-- Any document is sent, whatever the route. -/
def exchangingAnything : Setup :=
  { Setup.start .standard with
    identity := fun _ => Repository.soleOperation
    table := exchanging Fragment.always }

/-- The document that is sent is null. -/
def nullRequest : Http.Request := ⟨"POST", "/any", [], .bytes (Utf8.encode Json.null.render)⟩

theorem readBody_nullRequest :
    readBody Settings.standard.bodyLimit nullRequest.body = .ok .null := by
  have hordered : Json.null.Ordered := by trivial
  have hparse := (Json.parse_render_eq_iff hordered).mpr ⟨by decide, by trivial⟩
  unfold nullRequest
  rw [Json.Parser.encode_render_null] at hparse ⊢
  unfold readBody
  rw [show (Http.Body.bytes [0x6E, 0x75, 0x6C, 0x6C]).read Settings.standard.bodyLimit =
    .ok [0x6E, 0x75, 0x6C, 0x6C] from rfl]
  dsimp only
  rw [show bodyValue [0x6E, 0x75, 0x6C, 0x6C] = Json.parse [0x6E, 0x75, 0x6C, 0x6C] from rfl,
    hparse]

/-- Null is let through and handed on as no bytes, which are no document. -/
theorem exchange_hands_on_null : ∃ (s : Service) (c : OperationContract) (v : ValidatedRequest)
      (handed : Http.Request) (finish : Http.Response → Served),
    exchangingAnything.build = .ok s ∧
    s.repository.get? (s.operationOf ⟨"/any", []⟩ nullRequest) = some c ∧ c.body.isSome = true ∧
    readBody s.settings.bodyLimit nullRequest.body = .ok .null ∧
    (∀ next, s.exchange ⟨"/any", []⟩ nullRequest next = finish (next handed (some v))) ∧
    v.data.body = .null ∧ handed.body = .bytes [] ∧ ∀ w, Json.parse [] ≠ .ok w := by
  obtain ⟨l, hs⟩ := Engine.compile_of_basic .standard Fragment.always (n := .plan Plan.empty)
    rfl rfl (.bool true)
  generalize hschema : (⟨.plan Plan.empty, ⟨l, Evaluator.defaultBase, .bool true⟩,
    Fragment.always.document⟩ : CompiledSchema) = schema at hs
  have hbuild : exchangingAnything.build = .ok ⟨.standard, exchangingAnything.identity,
      ⟨Engine.ofOptions .standard, [(Repository.soleOperation, exchangingContract schema)]⟩,
      .rejecting⟩ :=
    Setup.build_of_load rfl (Engine.ofRegistry_empty _) (load_exchanging hs)
  -- the schema that any document satisfies leaves null alone
  have hleaves : Engine.Leaves (Engine.ofOptions .standard) schema .null .null true := by
    subst hschema
    exact ⟨true, turns_plan_iff.mpr ⟨_, true, true, .nil, .scalar rfl, rfl⟩, rfl⟩
  rcases Engine.validate_of_leaves hleaves with ⟨hvalue, hsuccess⟩
  have hslots : ∀ slot, (Gate.checkSlot ⟨Engine.ofOptions .standard,
      [(Repository.soleOperation, exchangingContract schema)]⟩ Repository.soleOperation
      (partsOf ⟨"/any", []⟩ nullRequest .null) slot).verdict.success = true := by
    intro slot
    cases slot with
    | body => exact hsuccess
    | _ => rfl
  rcases Gate.exists_report_of_success Handler.rejecting hslots with ⟨report, hreport⟩
  rcases exchange_of_before (s := ⟨.standard, exchangingAnything.identity,
      ⟨Engine.ofOptions .standard, [(Repository.soleOperation, exchangingContract schema)]⟩,
      .rejecting⟩) (c := exchangingContract schema) rfl rfl readBody_nullRequest hreport with
    ⟨v, finish, hv, hexchange⟩
  have hnull : v.data.body = .null := hv.trans hvalue
  refine ⟨_, exchangingContract schema, v, withBody nullRequest v.data.body, finish, hbuild, rfl,
    rfl, readBody_nullRequest, hexchange, hnull, ?_, Json.parse_nil_ne⟩
  rw [hnull]
  rfl

end Service

end HttpContract
