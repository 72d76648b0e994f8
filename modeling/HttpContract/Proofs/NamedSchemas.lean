import HttpContract.Proofs.Rebuilding
import HttpContract.Proofs.Strictness

/-!
# Schemas under names that plans do not follow

A schema can stand under the name of a property where only evaluators look: below `anyOf`, in an
object of schemas. There it says of the property what it says of a value by itself
(`success_underName_iff`), so long as its names are in nobody's way. Rewriting does not tell an
object of schemas from a schema, so a name that is a keyword for data keeps the markers below it
from being replaced (`success_underName_and_not`).
-/

namespace HttpContract

namespace Keywords

-- the recursion is that of the check
mutual

/-- Keywords that are known at one place are known at every other. -/
theorem agrees_check : ∀ (schema : Json) (path path' : String),
    Agrees (check schema path) (check schema path')
  | .obj members, path, path' => by
    rw [check, check]
    split
    · exact agrees_checkTarget members path path'
    · exact agrees_checkKeywords members path path'
  | .arr _, _, _ => .refl _
  | .null, _, _ => .refl _
  | .bool _, _, _ => .refl _
  | .num _, _, _ => .refl _
  | .str _, _, _ => .refl _
termination_by structural schema => schema

theorem agrees_checkTarget : ∀ (members : List (String × Json)) (path path' : String),
    Agrees (checkTarget members path) (checkTarget members path')
  | [], _, _ => .refl _
  | (_, inner) :: _, _, _ => agrees_check inner _ _
termination_by structural members => members

theorem agrees_checkKeywords : ∀ (members : List (String × Json)) (path path' : String),
    Agrees (checkKeywords members path) (checkKeywords members path')
  | [], _, _ => .refl _
  | (keyword, value) :: rest, path, path' => by
    rw [checkKeywords, checkKeywords]
    split
    · exact (agrees_checkValue (contentOf keyword) value _ _).bind
        (fun _ => agrees_checkKeywords rest path path')
    · exact .error _ _
termination_by structural members => members

theorem agrees_checkValue : ∀ (content : Content) (value : Json) (path path' : String),
    Agrees (checkValue content value path) (checkValue content value path')
  | content, .obj members, path, path' => by
    cases content with
    | schemaMap => exact agrees_checkMembers members path path'
    | schemaList => exact .refl _
    | other => exact .refl _
    | schema =>
      rw [checkValue, checkValue]
      split
      · exact agrees_checkTarget members path path'
      · exact agrees_checkKeywords members path path'
    | schemaOrList =>
      rw [checkValue, checkValue]
      split
      · exact agrees_checkTarget members path path'
      · exact agrees_checkKeywords members path path'
  | content, .arr items, path, path' => by
    cases content with
    | schemaList => exact agrees_checkItems items path path' 0
    | schemaOrList => exact agrees_checkItems items path path' 0
    | _ => exact .refl _
  | content, .null, _, _ => by cases content <;> exact .refl _
  | content, .bool _, _, _ => by cases content <;> exact .refl _
  | content, .num _, _, _ => by cases content <;> exact .refl _
  | content, .str _, _, _ => by cases content <;> exact .refl _
termination_by structural _ value => value

theorem agrees_checkMembers : ∀ (members : List (String × Json)) (path path' : String),
    Agrees (checkMembers members path) (checkMembers members path')
  | [], _, _ => .refl _
  | (_, schema) :: rest, path, path' =>
    (agrees_check schema _ _).bind (fun _ => agrees_checkMembers rest path path')
termination_by structural members => members

theorem agrees_checkItems : ∀ (items : List Json) (path path' : String) (index : Nat),
    Agrees (checkItems items path index) (checkItems items path' index)
  | [], _, _, _ => .refl _
  | schema :: rest, path, path', index =>
    (agrees_check schema _ _).bind (fun _ => agrees_checkItems rest path path' (index + 1))
termination_by structural items => items

end

end Keywords

/-- The schema, as the only alternative, for the property with a name. -/
def underName (name : String) (d : Json) : Json :=
  .obj [("anyOf", .arr [.obj [("properties", .obj [(name, d)])]])]

/-- The fragment whose only alternative is a fragment for the property with a name. -/
def Fragment.underName (name : String) (t : Fragment) : Fragment :=
  ⟨HttpContract.underName name t.document, rfl⟩

/-! ## What evaluators make of it -/

namespace Evaluation

variable {R : List Resource} (hR : Grounded R) {k : String} {arg d v : Json}

include hR

theorem holds_singleton_iff (hfree : Free [(k, arg)]) : Holds R (.obj [(k, arg)]) v ↔
    keywordFindings (libraryOf R) (limit (libraryOf R)) origin [(k, arg)] k arg v = [] := by
  rw [holds_obj_iff_passes hR hfree]
  constructor
  · exact fun h => h k arg (Fields.get?_of_mem hfree.ordered List.mem_cons_self)
  · intro h k' arg' hget
    obtain ⟨rfl, rfl⟩ := Prod.mk.inj (List.mem_singleton.mp (Fields.mem_of_get? hget))
    exact h

theorem holds_anyOf_iff (hd : Closed d) :
    Holds R (.obj [("anyOf", .arr [d])]) v ↔ Holds R d v := by
  have hfree : Free [("anyOf", .arr [d])] :=
    ⟨by simp [Fields.Ordered],
      by simp [entriesOf, Fields.get?_cons, Fields.get?_nil, Fields.Ordered],
      contains_singleton (by decide),
      fun s hs => List.mem_singleton.mp (mem_of_inner_anyOf hs) ▸ hd⟩
  have hbranches : branches origin "anyOf" (.arr [d]) = [(origin.entry "anyOf" (toString 0), d)] :=
    rfl
  have hvalid := valid_iff hR hd (p := origin.entry "anyOf" (toString 0)) (v := v) rfl
  rw [holds_singleton_iff hR hfree, keywordFindings_anyOf known_origin, anyOf, hbranches,
    List.any_cons, List.any_nil, Bool.or_false, ← hvalid]
  dsimp only
  split
  · next hyes => exact iff_of_true rfl hyes
  · next hno => exact iff_of_false (by simp) hno

theorem holds_properties_iff (hd : Closed d) (name : String) :
    Holds R (.obj [("properties", .obj [(name, d)])]) (.obj [(name, v)]) ↔ Holds R d v := by
  have hfree : Free [("properties", .obj [(name, d)])] := by
    refine ⟨by simp [Fields.Ordered], ?_, contains_singleton (by decide), fun s hs => ?_⟩
    · simp [entriesOf, Fields.get?_cons, Fields.Ordered, Json.members?]
    · rcases exists_of_inner_properties hs with ⟨_, hs⟩
      exact (Prod.mk.inj (List.mem_singleton.mp hs)).2 ▸ hd
  rw [holds_singleton_iff hR hfree, keywordFindings_properties known_origin rfl,
    properties_eq_nil_iff]
  have hget : Fields.get? [(name, v)] name = some v := by simp [Fields.get?_cons]
  rw [List.forall_mem_singleton]
  dsimp only
  rw [hget]
  simp only [Option.some.injEq, forall_eq']
  exact judge_eq_nil_iff hR hd rfl

end Evaluation

/-! ## Compiling it -/

namespace Keywords

theorem check_underName {name path : String} {d : Json} (h : check d path = .ok ()) :
    check (underName name d) "" = .ok () := by
  show (((check d _ >>= fun _ => .ok ()) >>= fun _ => .ok ()) >>= fun _ => .ok ()) >>= _ = _
  rw [agrees_check d path _ () h]
  rfl

end Keywords

namespace Planning

open Evaluation

variable {o : Options} {e : Engine} {name : String} {d d' : Json}

theorem rewrites_named {defined : List Bool} (hname : name ≠ Marker.key)
    (h : name ∈ EvaluationForm.dataKeywords ∧ d' = d ∨
      name ∉ EvaluationForm.dataKeywords ∧ Rewrites defined d d') :
    Rewrites defined (.arr [.obj [("properties", .obj [(name, d)])]])
      (.arr [.obj [("properties", .obj [(name, d')])]]) := by
  have hno : Marker.ofMembers? [(name, d)] = none := by
    simp [Marker.ofMembers?, Fields.get?_cons, Fields.get?_nil, hname]
  have hno' : "properties" ∉ EvaluationForm.dataKeywords := by decide
  have hnamed : Rewrites defined (.obj [(name, d)]) (.obj [(name, d')]) :=
    .of_members hno (.cons ⟨rfl, h⟩ .nil)
  exact .of_items (.cons (.of_members rfl (.cons ⟨rfl, Or.inr ⟨hno', hnamed⟩⟩ .nil)) .nil)

/-- Under a name that is not taken for a keyword every marker is replaced. -/
theorem NamesApart.rewrites {defined : List Bool} (hname : NamesApart [(name, d)])
    (h : Rewrites defined d d') :
    Rewrites defined (.arr [.obj [("properties", .obj [(name, d)])]])
      (.arr [.obj [("properties", .obj [(name, d')])]]) := by
  refine rewrites_named ?_ ?_
  · rintro rfl
    exact absurd hname.1 (by simp [Fields.contains, Fields.get?_cons])
  · by_cases hdata : name ∈ EvaluationForm.dataKeywords
    · exact Or.inl ⟨hdata, h.unique (hname.2 (name, d) List.mem_cons_self hdata defined)⟩
    · exact Or.inr ⟨hdata, h⟩

theorem exists_node_underName (c : Context)
    (h : Rewrites c.defined (.arr [.obj [("properties", .obj [(name, d)])]])
      (.arr [.obj [("properties", .obj [(name, d')])]])) (path : String) : ∃ applied,
      node c (underName name d) path =
        .ok (.plan { Plan.empty with applied := applied }, underName name d') := by
  rcases h.everywhere (Json.Pointer.child path "anyOf") true with ⟨applied, hrewrite⟩
  refine ⟨[] ++ applied, ?_⟩
  have hkeyword : ∀ r : Readings, keyword c "anyOf" (.arr [.obj [("properties", .obj [(name, d)])]])
      (Json.Pointer.child path "anyOf") r Plan.empty =
        .ok ({ Plan.empty with applied := [] ++ applied },
          .arr [.obj [("properties", .obj [(name, d')])]]) := by
    intro r
    show (EvaluationForm.rewrite c.defined _ _ true >>= _) = _
    rw [hrewrite]
    rfl
  show node c (.obj [("anyOf", _)]) path = _
  rw [node]
  show (keywords c [("anyOf", _)] path Plan.empty >>= _) = _
  rw [keywords]
  dsimp only
  rw [hkeyword]
  rfl

end Planning

namespace Engine

open Planning Evaluation Normalization

variable {o : Options} {r : Registry} {e : Engine} {t : Fragment} {s : CompiledSchema}

/-- Where values are checked as they are, every schema that compiles does so as the only alternative
for a property, and then succeeds for the objects that hold, under the name of the property, a value
that it succeeds for by itself. Here and in the registry schemas refer to nothing but by markers and
follow the specification in force, no name of a schema is taken for a keyword, none that asks what
others have left over has a marker for a branch, and no registered schema leads back to itself
through keywords that stay at the same place. -/
theorem success_underName_iff (hr : ofRegistry o r = .ok e) (ho : o.Passive)
    (hacyclic : Evaluation.Acyclic e.context.resources) (hregistry : Regulated r)
    (hcurrent : Current e) (hs : e.compile t = .ok s) (hordered : t.document.Ordered)
    (hunreferenced : Unreferenced t.document) (hregular : Regular t.document)
    (hspecification : Library.followsSpecification s.evaluator.root = true)
    (hspecified : Specified e s.root) {name : String} (hname : NamesApart [(name, t.document)]) :
    ∃ s', e.compile (t.underName name) = .ok s' ∧ ∀ x : Json, x.Ordered →
      ((e.validate s' (.obj [(name, x)])).verdict.success = true ↔
        (e.validate s x).verdict.success = true) := by
  have hR : Grounded e.context.resources :=
    ⟨closed_resources hr (fun handle g hg => (hregistry handle g hg).2.1), hacyclic⟩
  rcases exists_proper_of_compile hs hordered hunreferenced hspecification hspecified with
    ⟨document, hproper, hbuild⟩
  have hsound : Sound e t.document s.root document :=
    ⟨hproper, Metaschema.conforms_of_build hbuild, hregular⟩
  rcases hsound.exists_rewrites hr with ⟨t', hrewrites⟩
  have hbuildable := hsound.buildable hr hR.closed hbuild hrewrites
  -- the fragment is planned to an alternative that holds what the schema is rewritten to
  have hnamed : Buildable e (.obj [("properties", .obj [(name, t')])]) :=
    .properties (fun m hm => List.mem_singleton.mp hm ▸ hbuildable)
  have hwrapped : Buildable e (underName name t') :=
    .anyOf (by simp) (fun d hd => List.mem_singleton.mp hd ▸ hnamed)
  have hknown := (Evaluator.known_of_build hbuild (hproper.plans.closed hunreferenced) hR.closed).1
  rcases hwrapped.exists_build hr hR.closed hregistry hcurrent hknown with ⟨evaluator, hbuild'⟩
  rcases exists_node_underName e.context (hname.rewrites hrewrites) "" with ⟨applied, hnode⟩
  have hs' : e.compile (t.underName name) = .ok
      ⟨.plan { Plan.empty with applied := applied }, evaluator, underName name t.document⟩ :=
    compile_of_build _ _ _ _ (fun hstrict => Keywords.check_underName (check_of_compile hs hstrict))
      hnode hbuild'
  refine ⟨_, hs', fun x hx => ?_⟩
  have hroot := (Evaluator.extend_of_build hbuild' hwrapped.settled.closed).2
  have hpassive : e.options.Passive := (ofRegistry_eq_ok hr).1 ▸ ho
  rw [(validate_of_steady hr ho.keeping (.of_passive hpassive)).2,
    and_iff_left (satisfied_applied applied _),
    accepts_iff_holds hR hbuild' hwrapped.settled.closed (by rw [hroot]; rfl), underName,
    holds_anyOf_iff hR hnamed.settled.closed, holds_properties_iff hR hbuildable.settled.closed,
    success_iff_approves hr ho hR hproper hbuild hspecification,
    approves_iff_holds hr hR hregistry hsound hrewrites hx]

/-! ## Lists of trees under a name -/

theorem regular_trees : Regular tree.document ∧
    Regular (listOf (Marker.deferred 0).toJson).document := by
  constructor
  · exact regular_of_components (by decide)
  · exact regular_of_components (by decide)

theorem ordered_tree : tree.document.Ordered := by
  have hlist := ordered_lists.2.1
  exact Json.ordered_of_mem hlist.2 List.mem_cons_self

theorem current_treeEngine (l : Library) : Current (treeEngine l).passive := by
  intro handle s hs
  cases handle with
  | zero =>
    obtain rfl := Option.some.inj hs
    have hspecified := specified_listSchema l l tree.document treeDocument (Or.inr rfl)
    exact ⟨rfl, hspecified.of_reaches (.items .here rfl)⟩
  | succ i => cases hs

theorem regulated_treeRegistry : Regulated treeRegistry := by
  intro handle g hg
  cases handle with
  | zero =>
    obtain rfl : tree = g := Option.some.inj hg
    exact ⟨ordered_tree, unmentioned_trees.1.unreferenced, regular_trees.1⟩
  | succ i => cases hg

/-- A list of trees as the only alternative for a property. -/
theorem success_underName_listOf_tree : ∃ e s,
    ofRegistry Options.standard.passive treeRegistry = .ok e ∧ Options.standard.passive.Passive ∧
    Evaluation.Acyclic e.context.resources ∧ Regulated treeRegistry ∧ Current e ∧
    e.compile (listOf (Marker.deferred 0).toJson) = .ok s ∧
    (listOf (Marker.deferred 0).toJson).document.Ordered ∧
    Unreferenced (listOf (Marker.deferred 0).toJson).document ∧
    Regular (listOf (Marker.deferred 0).toJson).document ∧
    Library.followsSpecification s.evaluator.root = true ∧ Specified e s.root ∧
    NamesApart [("trees", (listOf (Marker.deferred 0).toJson).document)] ∧
    ∃ s', e.compile ((listOf (Marker.deferred 0).toJson).underName "trees") = .ok s' ∧
      ∀ x : Json, x.Ordered →
        ((e.validate s' (.obj [("trees", x)])).verdict.success = true ↔
          (e.validate s x).verdict.success = true) := by
  rcases exists_ofRegistry_tree with ⟨l, he, -⟩
  rcases exists_compile_listOf l with ⟨⟨k, hs⟩, -⟩
  have hunreferenced := unmentioned_trees.2.1.unreferenced
  have hspecified := specified_listSchema l k (Marker.deferred 0).toJson (.bool true) (Or.inl rfl)
  have hname : NamesApart [("trees", (listOf (Marker.deferred 0).toJson).document)] :=
    namesApart_of_not_mem (by decide)
  have he' := ofRegistry_passive he
  exact ⟨_, _, he', ⟨rfl, rfl, rfl⟩, acyclic_tree, regulated_treeRegistry, current_treeEngine l, hs,
    ordered_lists.1, hunreferenced, regular_trees.2, rfl, hspecified, hname,
    success_underName_iff he' ⟨rfl, rfl, rfl⟩ acyclic_tree regulated_treeRegistry
      (current_treeEngine l) hs ordered_lists.1 hunreferenced regular_trees.2 rfl hspecified hname⟩

/-! ## A marker under the name of a data keyword -/

/-- A marker that carries the schema of texts. -/
def textMarker : Fragment := ⟨(Marker.inline (typed .string)).toJson, rfl⟩

theorem exists_compile_textMarker (o : Options) : ∃ l l', (ofOptions o).compile textMarker =
    .ok ⟨typedNode l .string, ⟨l', Evaluator.defaultBase, .bool true⟩, textMarker.document⟩ := by
  rcases exists_node_typed o .string "" with ⟨l, hnode⟩
  rcases compile_of_basic o textMarker rfl hnode (.bool true) with ⟨l', hs⟩
  exact ⟨l, l', hs⟩

/-- What evaluators do not know demands nothing. -/
theorem conforms_textMarker : Metaschema.Conforms textMarker.document :=
  Metaschema.conforms_of_accepted (Metaschema.accepted_marker _)

theorem exists_compile_underName_textMarker (o : Options) : ∃ evaluator applied,
    Evaluator.build (underName "const" textMarker.document) [] = .ok evaluator ∧
    (ofOptions o).compile (textMarker.underName "const") =
      .ok ⟨.plan { Plan.empty with applied := applied }, evaluator,
        underName "const" textMarker.document⟩ := by
  have hfindings : Metaschema.evaluator.findings (underName "const" textMarker.document) = [] := by
    refine (Metaschema.conforms_anyOf (by simp) (fun d hd => ?_)).findings
    obtain rfl := List.mem_singleton.mp hd
    exact Metaschema.conforms_properties
      (fun m hm => List.mem_singleton.mp hm ▸ conforms_textMarker)
  rcases @Evaluator.exists_build _ [] rfl hfindings (by decide +kernel) with ⟨l, hbuild⟩
  have hne : "const" ≠ Marker.key := by decide
  have hdata : "const" ∈ EvaluationForm.dataKeywords := by decide
  rcases exists_node_underName (ofOptions o).context (d := textMarker.document)
    (rewrites_named hne (Or.inl ⟨hdata, rfl⟩)) "" with ⟨applied, hnode⟩
  exact ⟨_, applied, hbuild, compile_of_build _ _ _ _ (fun _ => rfl) hnode hbuild⟩

theorem inner_textMarker {s : Json} :
    ¬ Inner [(Marker.key, (typed .string).document)] s := by
  intro h
  cases h with
  | single hk hs => exact absurd ((Prod.mk.inj (List.mem_singleton.mp hs)).1 ▸ hk) (by decide)
  | listed hk hxs _ => exact absurd ((Prod.mk.inj (List.mem_singleton.mp hxs)).1 ▸ hk) (by decide)
  | named hk hss _ => exact absurd ((Prod.mk.inj (List.mem_singleton.mp hss)).1 ▸ hk) (by decide)

theorem grounded_nil : Grounded [] :=
  ⟨fun _ h => absurd h List.not_mem_nil, fun _ h => absurd h List.not_mem_nil⟩

theorem accepts_underName_textMarker {evaluator : Evaluator} {v : Json}
    (hbuild : Evaluator.build (underName "const" textMarker.document) [] = .ok evaluator) :
    evaluator.accepts (.obj [("const", v)]) = true := by
  have hfree : Free [(Marker.key, (typed .string).document)] :=
    ⟨by simp [Fields.Ordered], by simp [entriesOf, Fields.get?_cons, Fields.get?_nil, Marker.key,
      Fields.Ordered], contains_singleton (by decide), fun s hs => absurd hs inner_textMarker⟩
  have hmarker : Closed textMarker.document := hfree.closed
  have hnamed : Closed (.obj [("properties", .obj [("const", textMarker.document)])]) := by
    refine .schema (contains_singleton (by decide)) (fun s hs => ?_)
    rcases exists_of_inner_properties hs with ⟨_, hs⟩
    exact (Prod.mk.inj (List.mem_singleton.mp hs)).2 ▸ hmarker
  have hclosed : Closed (underName "const" textMarker.document) :=
    .schema (contains_singleton (by decide))
      (fun s hs => List.mem_singleton.mp (mem_of_inner_anyOf hs) ▸ hnamed)
  have hroot := (Evaluator.extend_of_build hbuild hclosed).2
  rw [accepts_iff_holds grounded_nil hbuild hclosed (by rw [hroot]; rfl), underName,
    holds_anyOf_iff grounded_nil hnamed, holds_properties_iff grounded_nil hmarker]
  exact (holds_singleton_iff grounded_nil hfree).mpr rfl

/-- A number is no text, but under the name of a data keyword it passes for one. -/
theorem success_underName_and_not : ∃ e s s',
    ofRegistry Options.standard.passive .empty = .ok e ∧ Options.standard.passive.Passive ∧
    e.compile textMarker = .ok s ∧ e.compile (textMarker.underName "const") = .ok s' ∧
    (e.validate s' (.obj [("const", .ofNat 1)])).verdict.success = true ∧
    (e.validate s (.ofNat 1)).verdict.success = false := by
  rcases exists_compile_textMarker .standard with ⟨l, l', hs⟩
  rcases exists_compile_underName_textMarker .standard with ⟨evaluator, applied, hbuild, hs'⟩
  refine ⟨_, _, _, ofRegistry_passive (ofRegistry_empty .standard), ⟨rfl, rfl, rfl⟩,
    compile_passive hs, compile_passive hs', ?_, ?_⟩
  · rw [success_passive_iff_satisfied (ofRegistry_empty .standard)]
    exact ⟨accepts_underName_textMarker hbuild, satisfied_applied applied _⟩
  · rw [← Bool.not_eq_true, success_passive_iff_satisfied (ofRegistry_empty .standard)]
    rintro ⟨-, hall⟩
    have hrejects := hall [] (typedNode l .string) (.ofNat 1) _ .here rfl
    dsimp only [typed, Fragment.ofMembers] at hrejects
    rw [Evaluator.accepts_type] at hrejects
    exact absurd hrejects (by decide)

end Engine

end HttpContract
