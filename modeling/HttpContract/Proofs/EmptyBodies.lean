import HttpContract.Proofs.Declarations
import HttpContract.Proofs.Handing
import HttpContract.Proofs.TextTermination

/-!
# Empty response bodies

An empty response body is judged as null. In the mode that validates responses it stays empty if
null is left of it; in the mode that renders them the text `null` is sent instead. The two modes of
one setup have the same schemas (`Setup.response?_inMode`), so whether they treat an empty body
alike depends on what validation and rendering make of null (`Setup.treatsAlike_iff`). They never do
where the schema lets null be as it is, unless the first mode rejects it.
-/

namespace HttpContract

/-! ## The text of null -/

namespace Json

open Utf8

/-- Only null is written like null. -/
theorem eq_null_of_encode_render {v : Json} (h : encode v.render = encode Json.null.render) :
    v = .null := by
  rw [Parser.encode_render_null] at h
  -- The first byte of every other document is another one.
  cases v with
  | null => rfl
  | bool b =>
    cases b with
    | true =>
      rw [Parser.encode_render_true] at h
      cases h
    | false =>
      rw [Parser.encode_render_false] at h
      cases h
  | num n =>
    obtain ⟨negative, bytes, hbytes, whole, _, _, rfl, hwhole, -⟩ := Parser.exists_numeral n
    rw [render, hbytes] at h
    split at h
    · cases h
    · cases whole with
      | nil => exact absurd rfl hwhole.nonempty
      | cons b others =>
        obtain rfl : b = 0x6E := (List.cons.inj h).1
        have hdigit := hwhole.all 0x6E List.mem_cons_self
        cases hdigit
  | str s =>
    obtain ⟨body, hbody, -⟩ := Parser.exists_encode_quote s
    rw [render, hbody] at h
    cases h
  | arr xs =>
    rw [Parser.encode_render_arr] at h
    cases h
  | obj ms =>
    rw [Parser.encode_render_obj] at h
    cases h

end Json

namespace Exchange

theorem bodyBytes_of_ne {v : Json} (h : v ≠ .null) : bodyBytes v = Utf8.encode v.render := by
  cases v with
  | null => exact absurd rfl h
  | _ => rfl

/-- Null as a document is not what stands for null as a body, nor for anything else. -/
theorem encode_null_ne_bodyBytes (v : Json) : Utf8.encode Json.null.render ≠ bodyBytes v := by
  intro h
  by_cases hv : v = .null
  · subst hv
    rw [Json.Parser.encode_render_null] at h
    cases h
  · rw [bodyBytes_of_ne hv] at h
    exact hv (Json.eq_null_of_encode_render h.symm)

theorem body_withOutcome_validated (answer : Http.Response) (v : Json) :
    (withOutcome answer [] (.validated v)).body = .bytes (bodyBytes v) := by
  unfold withOutcome
  by_cases hv : v = .null
  · subst hv
    rfl
  · simp only [hv, false_and, if_false]
    rw [bodyBytes_of_ne hv]

end Exchange

/-! ## Rendering null -/

/-- The plan lets null be as it is. -/
def Plan.AdmitsNull (p : Plan Node) : Prop := p.types = [] ∨ .null ∈ p.types

namespace Engine

open Normalization Rendering

variable {e : Engine} {s : CompiledSchema} {p : Plan Node}

/-- What null is rendered as, if it can be. -/
def nullRendered? (p : Plan Node) : Option Json :=
  if p.types.isEmpty then some .null else coerceAny? .null p.types

theorem isScalar_of_nullRendered? {u : Json} (h : nullRendered? p = some u) : isScalar u = true := by
  unfold nullRendered? at h
  split at h
  · obtain rfl := Option.some.inj h
    rfl
  · rcases eq_or_isScalar_of_coerceAny? h with rfl | ⟨-, hu⟩
    · rfl
    · exact hu

/-- Rendering null is the conversion to the types of the plan that the schema comes to. -/
theorem stringify_null_of_head (h : Head e s.root p) : e.stringify s .null =
    match nullRendered? p with
    | none => .error (.coercion "" p.types)
    | some u => .ok u.render := by
  have hwrite : Eventually (fun fuel => write e fuel (.plan p) "" .null)
      (match nullRendered? p with
        | none => .error (.coercion "" p.types)
        | some u => .ok u) := by
    refine Eventually.of_succ ⟨0, fun fuel _ => ?_⟩
    cases hu : nullRendered? p with
    | none =>
      unfold nullRendered? at hu
      simp only [write, hu]
    | some u =>
      have hscalar := isScalar_of_nullRendered? hu
      unfold nullRendered? at hu
      cases u with
      | arr items => cases hscalar
      | obj members => cases hscalar
      | _ => simp only [write, hu]
  rw [stringify_eq, render_of_eventually (h.eventually_write hwrite)]
  cases nullRendered? p with
  | none => rfl
  | some u => rfl

theorem admitted_null_iff {types : List JsonType} :
    Coercion.admitted types .null = true ↔ .null ∈ types := by
  unfold Coercion.admitted
  rw [List.any_eq_true]
  constructor
  · rintro ⟨t, ht, hadmits⟩
    cases t with
    | null => exact ht
    | _ => cases hadmits
  · intro h
    exact ⟨.null, h, rfl⟩

theorem nullRendered?_of_admitsNull (h : p.AdmitsNull) : nullRendered? p = some .null := by
  unfold nullRendered?
  split
  · rfl
  · next hempty =>
    rcases h with hnil | hmem
    · exact absurd (List.isEmpty_iff.mpr hnil) hempty
    · unfold coerceAny?
      rw [if_pos (admitted_null_iff.mpr hmem)]

theorem ne_null_of_nullRendered? (h : ¬ p.AdmitsNull) {u : Json} (hu : nullRendered? p = some u) :
    u ≠ .null := by
  obtain ⟨hempty, hmem⟩ := not_or.mp h
  unfold nullRendered? coerceAny? at hu
  rw [if_neg (mt List.isEmpty_iff.mp hempty), if_neg (mt admitted_null_iff.mp hmem)] at hu
  obtain ⟨t, ht, hcoerce⟩ := List.exists_of_findSome?_eq_some hu
  rintro rfl
  cases t with
  | null => exact hmem ht
  | _ => cases hcoerce

theorem exists_turns_of_head_plan {n : Node} (h : Head e n p) {strip clean : Bool} {v w : Json}
    (hw : Turns e (.plan p) strip v w clean) : ∃ clean', Turns e n strip v w clean' := by
  induction h with
  | self => exact ⟨_, hw⟩
  | reference hs _ ih =>
    obtain ⟨inner, hinner⟩ := ih hw
    exact ⟨_, .reference hs hinner⟩

/-- With conversion on and nothing but the types of the plan to convert it, validation leaves of
null what rendering writes. -/
theorem value_null_of_head (h : Head e s.root p) (hcoerce : e.options.coerceTypes = true)
    (hallOf : p.allOf = []) {u : Json} (hu : nullRendered? p = some u) :
    (e.validate s .null).value = u := by
  have hcoerced : coerced e.options p.types .null = u := coerced_of_coerceAny? hcoerce hu
  have hbranches : Runs e false p.allOf (coerced e.options p.types .null) u true := by
    rw [hallOf, hcoerced]
    exact .nil
  obtain ⟨clean, hturns⟩ : ∃ clean, Turns e s.root true .null u clean :=
    exists_turns_of_head_plan h (.plan hbranches (.scalar (isScalar_of_nullRendered? hu)))
  exact value_of_turns hturns

end Engine

/-! ## Two modes of one setup -/

namespace OperationContract

variable {e : Engine} {schemas : OperationSchemas} {c c' : OperationContract}

/-- The artifacts of contracts that implement the same operation in the two modes. -/
theorem Implements.artifact?_rendering (h : c.Implements e false schemas)
    (h' : c'.Implements e true schemas) (key : StatusKey) :
    c'.artifact? key = (c.artifact? key).map (fun a => .stringifier a.schema) := by
  cases hf : OperationSchemas.responseFor? key schemas.responses with
  | none =>
    rw [h.noResponse key hf, h'.noResponse key hf]
    rfl
  | some f =>
    obtain ⟨s, hs, hartifact⟩ := h.response key f hf
    obtain ⟨s', hs', hartifact'⟩ := h'.response key f hf
    obtain rfl : s = s' := Except.ok.inj (hs.symm.trans hs')
    rw [hartifact, hartifact']
    rfl

theorem Implements.response_rendering (h : c.Implements e false schemas)
    (h' : c'.Implements e true schemas) (status : Nat) :
    c'.response status = (c.response status).map (fun a => .stringifier a.schema) := by
  unfold OperationContract.response
  rw [h.artifact?_rendering h', h.artifact?_rendering h', h.artifact?_rendering h', Option.map_or,
    Option.map_or]

end OperationContract

namespace Setup

/-- The setup in the mode that renders responses, or in the one that validates them. -/
def inMode (setup : Setup) (fast : Bool) : Setup :=
  { setup with settings := setup.settings.withSwitch .fastSerialization fast }

variable {setup : Setup} {validating rendering : Service}

theorem exists_load_of_build_inMode {fast : Bool} {s : Service}
    (h : (setup.inMode fast).build = .ok s) : ∃ e,
      Engine.ofRegistry setup.settings.options setup.registry = .ok e ∧
      (Repository.empty e).load setup.declarations fast = .ok s.repository := by
  obtain ⟨-, e, r, he, hload, rfl⟩ := build_eq_ok_iff.mp h
  exact ⟨e, he, hload⟩

/-- The services of the two modes have one engine, and where one validates responses by a schema the
other renders them by the same. -/
theorem response?_inMode (h : (setup.inMode false).build = .ok validating)
    (h' : (setup.inMode true).build = .ok rendering) :
    rendering.repository.engine = validating.repository.engine ∧
      ∀ status operation, rendering.repository.response? status operation =
        (validating.repository.response? status operation).map (fun a => .stringifier a.schema) := by
  obtain ⟨e, he, hload⟩ := exists_load_of_build_inMode h
  obtain ⟨e', he', hload'⟩ := exists_load_of_build_inMode h'
  obtain rfl : e = e' := Except.ok.inj (he.symm.trans he')
  have hengine := Repository.engine_of_load hload
  have hengine' := Repository.engine_of_load hload'
  refine ⟨hengine'.trans hengine.symm, fun status operation => ?_⟩
  have hordered := ordered_declarations setup
  obtain ⟨hnone, hsome⟩ := Repository.get?_of_load hordered hload operation
  obtain ⟨hnone', hsome'⟩ := Repository.get?_of_load hordered hload' operation
  unfold Repository.response?
  cases hschemas : Fields.get? setup.declarations operation with
  | none =>
    rw [hnone hschemas, hnone' hschemas]
    rfl
  | some schemas =>
    obtain ⟨c, hc, hget⟩ := hsome schemas hschemas
    obtain ⟨c', hc', hget'⟩ := hsome' schemas hschemas
    rw [hget, hget', Option.bind_some, Option.bind_some]
    exact (Repository.implements_of_compileOperation hc).response_rendering
      (Repository.implements_of_compileOperation hc') status

end Setup

/-! ## Taking an empty body back -/

namespace Service

open Exchange

/-- A rejection is sent in place of the answer of the route handler. -/
def Rejects (s : Service) (operation : String) (answer : Http.Response) : Prop :=
  ∃ x ∈ (s.takeBack operation answer).raised, ∃ rejection, s.handler x = some rejection ∧
    (s.takeBack operation answer).response = rejection.toResponse

/-- Both services send the same bytes for the answer, unless one of them rejects it. -/
def TreatsAlike (s s' : Service) (operation : String) (answer : Http.Response) : Prop :=
  (s.takeBack operation answer).response.body = (s'.takeBack operation answer).response.body ∨
    s.Rejects operation answer ∨ s'.Rejects operation answer

variable {s : Service} {operation : String} {answer : Http.Response}

/-- An empty body that a schema covers goes through the gate as null. -/
theorem takeBack_of_empty {a : ResponseArtifact} (hbody : answer.body = .bytes [])
    (hjson : isJson answer.headers = true)
    (ha : s.repository.response? answer.status operation = some a) :
    s.takeBack operation answer =
      match (Gate.after s.repository s.handler operation answer.status .null).outcome with
      | .error rejection => ⟨rejection.toResponse,
          (Gate.after s.repository s.handler operation answer.status .null).raised⟩
      | .ok outcome => ⟨withOutcome answer [] outcome,
          (Gate.after s.repository s.handler operation answer.status .null).raised⟩ := by
  have hread : answer.body.read s.settings.responseBodyLimit = .ok [] := by
    rw [hbody]
    rfl
  have hvalue : responseValue answer.headers [] = .ok .null := by
    unfold responseValue
    rw [hjson]
    rfl
  unfold takeBack
  cases houtcome : (Gate.after s.repository s.handler operation answer.status .null).outcome with
  | error rejection => simp only [ha, hread, hvalue, houtcome]
  | ok outcome => simp only [ha, hread, hvalue, houtcome]

/-- What has been validated is sent, unless the exception that is raised for it is rejected. -/
theorem rejects_or_body {a : ResponseArtifact} (hbody : answer.body = .bytes [])
    (hjson : isJson answer.headers = true)
    (ha : s.repository.response? answer.status operation = some a) {v : Json}
    (hafter : Gate.after s.repository s.handler operation answer.status .null =
        ⟨.ok (.validated v), []⟩ ∨
      ∃ errors, Gate.after s.repository s.handler operation answer.status .null =
        Gate.raise s.handler operation errors .null (.validated v)) :
    s.Rejects operation answer ∨
      (s.takeBack operation answer).response.body = .bytes (bodyBytes v) := by
  have htake := takeBack_of_empty hbody hjson ha
  unfold Rejects
  rcases hafter with hafter | ⟨errors, hafter⟩
  · rw [htake, hafter]
    exact Or.inr (body_withOutcome_validated answer v)
  · unfold Gate.raise at hafter
    cases hhandler : s.handler ⟨.response, operation, none, errors, .null⟩ with
    | none =>
      simp only [hhandler] at hafter
      rw [htake, hafter]
      exact Or.inr (body_withOutcome_validated answer v)
    | some rejection =>
      simp only [hhandler] at hafter
      rw [htake, hafter]
      exact Or.inl ⟨_, List.mem_singleton_self _, rejection, hhandler, rfl⟩

variable {schema : CompiledSchema}

theorem rejects_or_body_validator (hbody : answer.body = .bytes [])
    (hjson : isJson answer.headers = true)
    (ha : s.repository.response? answer.status operation = some (.validator schema)) :
    s.Rejects operation answer ∨ (s.takeBack operation answer).response.body =
      .bytes (bodyBytes (s.repository.engine.validate schema .null).value) := by
  refine rejects_or_body hbody hjson ha ?_
  unfold Gate.after
  simp only [ha]
  split
  · exact Or.inl rfl
  · exact Or.inr ⟨_, rfl⟩

theorem rejects_or_body_stringifier {e : RenderError} (hbody : answer.body = .bytes [])
    (hjson : isJson answer.headers = true)
    (ha : s.repository.response? answer.status operation = some (.stringifier schema))
    (htext : s.repository.engine.stringify schema .null = .error e) :
    s.Rejects operation answer ∨ (s.takeBack operation answer).response.body =
      .bytes (bodyBytes (s.repository.engine.validate schema .null).value) := by
  refine rejects_or_body hbody hjson ha (Or.inr ⟨[FieldError.ofMessage e.message], ?_⟩)
  unfold Gate.after
  simp only [ha, htext]

/-- A text that can be rendered is sent, and nothing is raised. -/
theorem takeBack_stringifier {text : String} (hbody : answer.body = .bytes [])
    (hjson : isJson answer.headers = true)
    (ha : s.repository.response? answer.status operation = some (.stringifier schema))
    (htext : s.repository.engine.stringify schema .null = .ok text) :
    s.takeBack operation answer = ⟨withOutcome answer [] (.serialized text), []⟩ := by
  have hafter : Gate.after s.repository s.handler operation answer.status .null =
      ⟨.ok (.serialized text), []⟩ := by
    unfold Gate.after
    simp only [ha, htext]
  rw [takeBack_of_empty hbody hjson ha, hafter]

theorem not_rejects_of_text {text : String} (hbody : answer.body = .bytes [])
    (hjson : isJson answer.headers = true)
    (ha : s.repository.response? answer.status operation = some (.stringifier schema))
    (htext : s.repository.engine.stringify schema .null = .ok text) :
    ¬ s.Rejects operation answer := by
  rintro ⟨x, hx, -⟩
  rw [takeBack_stringifier hbody hjson ha htext] at hx
  cases hx

theorem not_rejects_of_success (hbody : answer.body = .bytes [])
    (hjson : isJson answer.headers = true)
    (ha : s.repository.response? answer.status operation = some (.validator schema))
    (hsuccess : (s.repository.engine.validate schema .null).verdict.success = true) :
    ¬ s.Rejects operation answer := by
  rintro ⟨x, hx, -⟩
  rw [takeBack_of_empty hbody hjson ha] at hx
  unfold Gate.after at hx
  simp only [ha, hsuccess, if_true] at hx
  cases hx

variable {s' : Service}

/-- A service that validates and one that renders treat an empty body alike if one of them rejects
it, or the text for null is the body that validation leaves. -/
theorem treatsAlike_iff_of_artifacts (hbody : answer.body = .bytes [])
    (hjson : isJson answer.headers = true)
    (ha : s.repository.response? answer.status operation = some (.validator schema))
    (ha' : s'.repository.response? answer.status operation = some (.stringifier schema))
    (hengine : s'.repository.engine = s.repository.engine) :
    s.TreatsAlike s' operation answer ↔
      s.Rejects operation answer ∨ s'.Rejects operation answer ∨
        ∀ text, s.repository.engine.stringify schema .null = .ok text →
          Utf8.encode text = bodyBytes (s.repository.engine.validate schema .null).value := by
  have hvalidated := rejects_or_body_validator hbody hjson ha
  constructor
  · rintro (hsame | hrejects | hrejects)
    · rcases hvalidated with hrejects | hsent
      · exact Or.inl hrejects
      · refine Or.inr (Or.inr (fun text htext => ?_))
        rw [hsent, takeBack_stringifier hbody hjson ha' (hengine ▸ htext)] at hsame
        exact (Http.Body.bytes.inj hsame).symm
    · exact Or.inl hrejects
    · exact Or.inr (Or.inl hrejects)
  · rintro (hrejects | hrejects | htexts)
    · exact Or.inr (Or.inl hrejects)
    · exact Or.inr (Or.inr hrejects)
    · rcases hvalidated with hrejects | hsent
      · exact Or.inr (Or.inl hrejects)
      cases htext : s.repository.engine.stringify schema .null with
      | ok text =>
        refine Or.inl ?_
        rw [hsent, takeBack_stringifier hbody hjson ha' (hengine ▸ htext), ← htexts text htext]
        rfl
      | error err =>
        rcases rejects_or_body_stringifier hbody hjson ha' (hengine ▸ htext) with
          hrejects | hsent'
        · exact Or.inr (Or.inr hrejects)
        · exact Or.inl (by rw [hsent, hsent', hengine])

/-- Where null is admitted its text is sent, and validation never leaves this text of an empty
body. -/
theorem treatsAlike_iff_of_admitsNull (hbody : answer.body = .bytes [])
    (hjson : isJson answer.headers = true)
    (ha : s.repository.response? answer.status operation = some (.validator schema))
    (ha' : s'.repository.response? answer.status operation = some (.stringifier schema))
    (hengine : s'.repository.engine = s.repository.engine) {p : Plan Node}
    (hp : Normalization.Head s.repository.engine schema.root p) (hnull : p.AdmitsNull) :
    s.TreatsAlike s' operation answer ↔ s.Rejects operation answer := by
  have htext : s.repository.engine.stringify schema .null = .ok Json.null.render := by
    rw [Engine.stringify_null_of_head hp, Engine.nullRendered?_of_admitsNull hnull]
  rw [treatsAlike_iff_of_artifacts hbody hjson ha ha' hengine]
  constructor
  · rintro (hrejects | hrejects | htexts)
    · exact hrejects
    · exact absurd hrejects (not_rejects_of_text hbody hjson ha' (hengine ▸ htext))
    · exact absurd (htexts _ htext) (encode_null_ne_bodyBytes _)
  · intro hrejects
    exact Or.inl hrejects

end Service

namespace Setup

open Normalization Exchange

/-- An empty response body is treated alike in both modes exactly if one of them rejects it or the
text for null, if there is one, is what validation leaves of the body. A schema that admits null has
such a text, which is never the empty body that validation leaves; one that converts null by its
types alone, with conversion on, sends what it is converted to in both modes. -/
theorem treatsAlike_iff {setup : Setup} {validating rendering : Service}
    (h : (setup.inMode false).build = .ok validating)
    (h' : (setup.inMode true).build = .ok rendering) {operation : String} {answer : Http.Response}
    (hbody : answer.body = .bytes []) (hjson : isJson answer.headers = true)
    {schema : CompiledSchema} (hcovered :
      validating.repository.response? answer.status operation = some (.validator schema)) :
    (validating.TreatsAlike rendering operation answer ↔
      validating.Rejects operation answer ∨ rendering.Rejects operation answer ∨
        ∀ text, validating.repository.engine.stringify schema .null = .ok text →
          Utf8.encode text =
            bodyBytes (validating.repository.engine.validate schema .null).value) ∧
    ∀ p, Head validating.repository.engine schema.root p →
      (p.AdmitsNull → (validating.TreatsAlike rendering operation answer ↔
        validating.Rejects operation answer)) ∧
      (¬ p.AdmitsNull → setup.settings.options.coerceTypes = true → p.allOf = [] →
        validating.TreatsAlike rendering operation answer) := by
  obtain ⟨hengine, hartifacts⟩ := response?_inMode h h'
  have hcovered' : rendering.repository.response? answer.status operation =
      some (.stringifier schema) := by
    rw [hartifacts, hcovered]
    rfl
  have hiff := Service.treatsAlike_iff_of_artifacts hbody hjson hcovered hcovered' hengine
  refine ⟨hiff, fun p hp => ⟨Service.treatsAlike_iff_of_admitsNull hbody hjson hcovered hcovered'
    hengine hp, fun hnull hcoerce hallOf => ?_⟩⟩
  refine hiff.mpr (Or.inr (Or.inr (fun text htext => ?_)))
  have hoptions : validating.repository.engine.options.coerceTypes = true := by
    obtain ⟨e, he, hload⟩ := exists_load_of_build_inMode h
    rw [Repository.engine_of_load hload]
    exact (Engine.ofRegistry_eq_ok he).1 ▸ hcoerce
  rw [Engine.stringify_null_of_head hp] at htext
  cases hu : Engine.nullRendered? p with
  | none =>
    rw [hu] at htext
    cases htext
  | some u =>
    rw [hu] at htext
    obtain rfl := Except.ok.inj htext
    rw [Engine.value_null_of_head hp hoptions hallOf hu,
      bodyBytes_of_ne (Engine.ne_null_of_nullRendered? hnull hu)]

/-- Every response is a document, whatever its status. -/
def answeringAnything : Setup :=
  { Setup.start .standard with table := Repository.answering Fragment.always }

/-- A response without a body. -/
def emptyAnswer : Http.Response := ⟨200, [], .bytes []⟩

/-- Null is let through by the schema of all responses. -/
theorem exists_build_answeringAnything : ∃ validating rendering schema,
    (answeringAnything.inMode false).build = .ok validating ∧
    (answeringAnything.inMode true).build = .ok rendering ∧
    validating.repository.response? emptyAnswer.status Repository.soleOperation =
      some (.validator schema) ∧
    schema.root = .plan Plan.empty ∧
    (validating.repository.engine.validate schema .null).verdict.success = true := by
  obtain ⟨l, hs⟩ := Engine.compile_of_basic .standard Fragment.always (n := .plan Plan.empty)
    rfl rfl (.bool true)
  have hleaves : Engine.Leaves (Engine.ofOptions .standard) ⟨.plan Plan.empty,
      ⟨l, Evaluator.defaultBase, .bool true⟩, Fragment.always.document⟩ .null .null true :=
    ⟨true, turns_plan_iff.mpr ⟨_, true, true, .nil, .scalar rfl, rfl⟩, rfl⟩
  have hbuild : ∀ fast, (answeringAnything.inMode fast).build =
      .ok ⟨Settings.standard.withSwitch .fastSerialization fast, answeringAnything.identity,
        ⟨Engine.ofOptions .standard, [(Repository.soleOperation, ⟨none, none, none, none,
          [(.default, .of fast ⟨.plan Plan.empty, ⟨l, Evaluator.defaultBase, .bool true⟩,
            Fragment.always.document⟩)]⟩)]⟩, .rejecting⟩ := by
    intro fast
    exact build_eq_ok_iff.mpr ⟨by cases fast <;> rfl, _, _, Engine.ofRegistry_empty _,
      Repository.load_answering_of fast hs, rfl⟩
  exact ⟨_, _, _, hbuild false, hbuild true, rfl, rfl, (Engine.validate_of_leaves hleaves).2⟩

/-- The two modes do not send the same where all responses are admitted: nothing, and the text of
null. -/
theorem not_treatsAlike_answeringAnything : ∃ validating rendering schema,
    (answeringAnything.inMode false).build = .ok validating ∧
    (answeringAnything.inMode true).build = .ok rendering ∧
    emptyAnswer.body = .bytes [] ∧ isJson emptyAnswer.headers = true ∧
    validating.repository.response? emptyAnswer.status Repository.soleOperation =
      some (.validator schema) ∧
    ¬ validating.TreatsAlike rendering Repository.soleOperation emptyAnswer := by
  obtain ⟨validating, rendering, schema, h, h', hcovered, hroot, hsuccess⟩ :=
    exists_build_answeringAnything
  obtain ⟨hengine, hartifacts⟩ := response?_inMode h h'
  have hcovered' : rendering.repository.response? emptyAnswer.status Repository.soleOperation =
      some (.stringifier schema) := by
    rw [hartifacts, hcovered]
    rfl
  refine ⟨validating, rendering, schema, h, h', rfl, rfl, hcovered, ?_⟩
  have hhead : Head validating.repository.engine schema.root Plan.empty := hroot ▸ .self
  rw [Service.treatsAlike_iff_of_admitsNull rfl rfl hcovered hcovered' hengine hhead (Or.inl rfl)]
  exact Service.not_rejects_of_success rfl rfl hcovered hsuccess

theorem treatsAlike_iff_answeringAnything : ∃ validating rendering schema,
    (answeringAnything.inMode false).build = .ok validating ∧
    (answeringAnything.inMode true).build = .ok rendering ∧
    emptyAnswer.body = .bytes [] ∧ isJson emptyAnswer.headers = true ∧
    validating.repository.response? emptyAnswer.status Repository.soleOperation =
      some (.validator schema) ∧
    (validating.TreatsAlike rendering Repository.soleOperation emptyAnswer ↔
      validating.Rejects Repository.soleOperation emptyAnswer ∨
        rendering.Rejects Repository.soleOperation emptyAnswer ∨
          ∀ text, validating.repository.engine.stringify schema .null = .ok text →
            Utf8.encode text =
              bodyBytes (validating.repository.engine.validate schema .null).value) ∧
    ∀ p, Head validating.repository.engine schema.root p →
      (p.AdmitsNull →
        (validating.TreatsAlike rendering Repository.soleOperation emptyAnswer ↔
          validating.Rejects Repository.soleOperation emptyAnswer)) ∧
      (¬ p.AdmitsNull → answeringAnything.settings.options.coerceTypes = true → p.allOf = [] →
        validating.TreatsAlike rendering Repository.soleOperation emptyAnswer) := by
  obtain ⟨validating, rendering, schema, h, h', hcovered, -, -⟩ := exists_build_answeringAnything
  exact ⟨validating, rendering, schema, h, h', rfl, rfl, hcovered,
    treatsAlike_iff h h' rfl rfl hcovered⟩

end Setup

end HttpContract
