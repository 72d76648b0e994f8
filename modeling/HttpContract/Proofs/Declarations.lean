import HttpContract.Proofs.Enforcement
import HttpContract.Proofs.Reloading

/-!
# Declarations are found again

Routes and tables of schemas are declared one after the other, in any order, and their ids may
collide. The service built of them has for every id the contract of the last table entry with it,
and where no table has it, of the last route whose identity it is (`Setup.declaredFor?`). Requests
look under the identity of the route they matched, so what was declared for a route is found
(`Setup.get?_of_build`).
-/

namespace HttpContract

namespace Setup

/-! ## Calls -/

/-- A call that declares schemas. -/
inductive Call where
  | route (r : Route) (schemas : OperationSchemas)
  | routes (rs : RouteTable)
  | table (t : SchemaTable)

/-- The routes that a call declares. -/
def Call.routed : Call → RouteTable
  | .route r schemas => [(r, schemas)]
  | .routes rs => rs
  | .table _ => []

/-- What a call declares by operation ids. -/
def Call.tabled : Call → List (String × OperationSchemas)
  | .route _ _ => []
  | .routes _ => []
  | .table t => t

/-- The setup after a call. -/
def call (s : Setup) : Call → Setup
  | .route r schemas => s.addRoute r schemas
  | .routes rs => s.addRoutes rs
  | .table t => s.addTable t

/-- The same setup before anything was declared. -/
def undeclared (s : Setup) : Setup := { s with routes := [], table := [] }

/-- The setup after calls, one after the other. -/
def after (s : Setup) (calls : List Call) : Setup := calls.foldl call s

/-- Routes are kept in the order of their calls, entries are inserted in that order; neither depends
on the calls for the other. -/
theorem after_eq (s : Setup) (calls : List Call) : s.after calls =
    { s with
      routes := s.routes ++ calls.flatMap Call.routed
      table := (calls.flatMap Call.tabled).foldl (fun t e => Fields.insert t e.1 e.2) s.table } := by
  induction calls generalizing s with
  | nil => simp [after]
  | cons c rest ih =>
    have hstep : s.after (c :: rest) = (s.call c).after rest := rfl
    rw [hstep, ih]
    cases c with
    | route r schemas => simp [call, addRoute, Call.routed, Call.tabled]
    | routes rs => simp [call, addRoutes, Call.routed, Call.tabled]
    | table t => simp [call, addTable, Call.routed, Call.tabled, List.foldl_append]

/-- The schemas that calls declare for an operation id: those of the last table entry with it, or
else those of the last route whose identity it is. -/
def declaredFor? (identity : Identity) (calls : List Call) (id : String) :
    Option OperationSchemas :=
  (Fields.last? (calls.flatMap Call.tabled) id).or
    (Fields.last? ((calls.flatMap Call.routed).map (fun e => (identity e.1, e.2))) id)

theorem get?_toSchemaTable (routes : RouteTable) (identity : Identity) (id : String) :
    Fields.get? (routes.toSchemaTable identity) id =
      Fields.last? (routes.map (fun e => (identity e.1, e.2))) id := by
  have hfold := Fields.get?_foldl_insert_last (routes.map (fun e => (identity e.1, e.2))) [] id
  rw [List.foldl_map, Fields.get?_nil, Option.or_none] at hfold
  exact hfold

theorem get?_declarations_after (s : Setup) (calls : List Call) (id : String) :
    Fields.get? (s.undeclared.after calls).declarations id =
      declaredFor? s.identity calls id := by
  have hordered : Fields.Ordered ((calls.flatMap Call.tabled).foldl
      (fun t e => Fields.insert t e.1 e.2) ([] : SchemaTable)) :=
    Fields.ordered_foldl_insert List.Pairwise.nil _
  unfold declarations declaredFor?
  rw [after_eq]
  dsimp only [undeclared]
  rw [List.nil_append, Fields.get?_foldl_insert (Fields.nodup_keys_of_ordered hordered),
    get?_toSchemaTable, Fields.get?_foldl_insert_last, Fields.get?_nil, Option.or_none]

theorem ordered_declarations (s : Setup) : Fields.Ordered s.declarations := by
  unfold declarations RouteTable.toSchemaTable
  rw [← List.foldl_map (f := fun e : Route × OperationSchemas => (s.identity e.1, e.2))
    (g := fun t e => Fields.insert t e.1 e.2)]
  exact Fields.ordered_foldl_insert (Fields.ordered_foldl_insert List.Pairwise.nil _) _

/-! ## The service -/

/-- However routes and tables were declared, in whatever order: if a service is built, an id has the
contract of the schemas declared for it, and none without such schemas; a request that matched a
declared route, with its method in any case of letters, comes to an id for which schemas are
declared; and the same routes and the same entries, each in the same order, make the same service. -/
theorem get?_of_build {setup : Setup} {calls : List Call} {s : Service}
    (hbuild : (setup.undeclared.after calls).build = .ok s) :
    (∀ id schemas, declaredFor? setup.identity calls id = some schemas → ∃ c,
      s.repository.get? id = some c ∧
      Repository.compileOperation s.repository.engine setup.settings.fastSerialization id schemas =
        .ok c ∧
      c.Implements s.repository.engine setup.settings.fastSerialization schemas) ∧
    (∀ id, declaredFor? setup.identity calls id = none → s.repository.get? id = none) ∧
    (∀ method path schemas, (Route.of method path, schemas) ∈ calls.flatMap Call.routed →
      ∀ (m : Http.MatchedPath) (request : Http.Request), m.template = path →
        Ascii.upper request.method = Ascii.upper method →
          s.operationOf m request = setup.identity (Route.of method path) ∧
          (declaredFor? setup.identity calls (s.operationOf m request)).isSome = true) ∧
    ∀ calls' : List Call, calls'.flatMap Call.routed = calls.flatMap Call.routed →
      calls'.flatMap Call.tabled = calls.flatMap Call.tabled →
        (setup.undeclared.after calls').build = .ok s := by
  have hafter := after_eq setup.undeclared calls
  obtain ⟨-, engine, repository, -, hload, hs⟩ := build_eq_ok_iff.mp hbuild
  have hidentity : s.identity = setup.identity := by rw [hs, hafter]; rfl
  have hrepository : s.repository = repository := by rw [hs]
  have hfast : (setup.undeclared.after calls).settings.fastSerialization =
      setup.settings.fastSerialization := by rw [hafter]; rfl
  rw [← hrepository, hfast] at hload
  have hengine : s.repository.engine = engine := Repository.engine_of_load hload
  have hget := Repository.get?_of_load (ordered_declarations _) hload
  simp only [get?_declarations_after] at hget
  refine ⟨fun id schemas hschemas => ?_, fun id hnone => (hget id).1 hnone,
    fun method path schemas hmem m request hpath hmethod => ?_, fun calls' hrouted htabled => ?_⟩
  · obtain ⟨c, hcompiled, hc⟩ := (hget id).2 schemas hschemas
    rw [hengine]
    exact ⟨c, hc, hcompiled, Repository.implements_of_compileOperation hcompiled⟩
  · have hid : s.operationOf m request = setup.identity (Route.of method path) := by
      unfold Service.operationOf Route.of
      rw [hidentity, hpath, hmethod]
    refine ⟨hid, ?_⟩
    rw [hid]
    unfold declaredFor?
    rw [Option.isSome_or, Bool.or_eq_true_iff]
    exact Or.inr (Fields.isSome_last?_of_mem
      (List.mem_map_of_mem (f := fun e => (setup.identity e.1, e.2)) hmem))
  · rw [← hbuild, hafter, after_eq, hrouted, htabled]

/-- Routes whose ids all stand in the table make no difference. -/
theorem build_of_shadowed {setup : Setup} {routes : RouteTable} {s : Service}
    (h : { setup with routes := routes }.declarations = setup.declarations)
    (hbuild : setup.build = .ok s) : { setup with routes := routes }.build = .ok s := by
  rw [build_eq_ok_iff, h]
  exact build_eq_ok_iff.mp hbuild

/-- A route without schemas is declared, then trees are exchanged under the same id. -/
def treeCalls : List Call :=
  [.route (Route.of "post" "/trees") OperationSchemas.empty,
    .table (Service.exchanging Engine.sizedTree)]

/-- The table has the last word, though the route is declared too. -/
theorem get?_of_build_exchangingTrees : ∃ s c,
    (Service.exchangingTrees.undeclared.after treeCalls).build = .ok s ∧
    (Route.of "POST" "/trees", OperationSchemas.empty) ∈ treeCalls.flatMap Call.routed ∧
    s.operationOf ⟨"/trees", []⟩ Service.treeRequest = Repository.soleOperation ∧
    s.repository.get? Repository.soleOperation = some c ∧
    c.Implements s.repository.engine false
      { OperationSchemas.empty with
        body := some Engine.sizedTree, responses := [("default", some Engine.sizedTree)] } ∧
    s.repository.get? "another" = none := by
  rcases Service.exists_build_exchangingTrees with ⟨s, -, hbuild, -, -⟩
  have hsetup : Service.exchangingTrees.undeclared.after treeCalls = { Service.exchangingTrees with
      routes := [(Route.of "post" "/trees", OperationSchemas.empty)] } := rfl
  have hafter : (Service.exchangingTrees.undeclared.after treeCalls).build = .ok s := by
    rw [hsetup]
    exact build_of_shadowed rfl hbuild
  have hrouted : (Route.of "POST" "/trees", OperationSchemas.empty) ∈
      treeCalls.flatMap Call.routed := List.mem_cons_self
  rcases get?_of_build hafter with ⟨hdeclared, hundeclared, hroutes, -⟩
  rcases hdeclared Repository.soleOperation _ rfl with ⟨c, hc, -, himplements⟩
  have hoperation := (hroutes "POST" "/trees" _ hrouted ⟨"/trees", []⟩ Service.treeRequest rfl rfl).1
  exact ⟨s, c, hafter, hrouted, hoperation, hc, himplements, hundeclared "another" rfl⟩

end Setup

end HttpContract
