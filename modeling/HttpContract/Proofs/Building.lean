import HttpContract.Proofs.BasicSchemas

/-!
# Building evaluators of basic schemas

`Evaluator.build` accepts every basic schema: it refers to nothing, satisfies the schema of schemas
and leads evaluation to nothing but basic schemas. Planning a fragment therefore succeeds wherever
the documents it makes for its evaluators are basic (`compile_of_basic`).
-/

namespace HttpContract

theorem keywordText?_of_basic {d : Json} (hd : Basic d) {k : String} (hk : k ∉ basicKeywords) :
    Library.keywordText? d k = none := by
  cases hd with
  | bool b => rfl
  | obj hmembers =>
    show (Fields.get? _ k).bind Json.text? = none
    rw [get?_eq_none_of_basic hmembers hk]
    rfl

namespace Evaluation

/-- Evaluation reaches nothing but basic schemas from a basic keyword. -/
theorem reachedFrom_of_basic (members : Fields Json) {k : String} {v : Json}
    (h : BasicKeyword k v) : (reachedFrom members k v).patterns = [] ∧
      (reachedFrom members k v).references = [] ∧
      ∀ x ∈ (reachedFrom members k v).schemas, Basic x := by
  cases h with
  | type t => exact ⟨rfl, rfl, fun x hx => absurd hx List.not_mem_nil⟩
  | default v => exact ⟨rfl, rfl, fun x hx => absurd hx List.not_mem_nil⟩
  | required name => exact ⟨rfl, rfl, fun x hx => absurd hx List.not_mem_nil⟩
  | properties hmembers =>
    refine ⟨rfl, rfl, fun x hx => ?_⟩
    rcases List.mem_map.mp hx with ⟨m, hm, rfl⟩
    exact hmembers m hm
  | additionalProperties hv =>
    exact ⟨rfl, rfl, fun x hx => List.mem_singleton.mp hx ▸ hv⟩
  | items hv => exact ⟨rfl, rfl, fun x hx => List.mem_singleton.mp hx ▸ hv⟩
  | unevaluatedProperties hv => exact ⟨rfl, rfl, fun x hx => List.mem_singleton.mp hx ▸ hv⟩
  | allOf hne hitems => exact ⟨rfl, rfl, hitems⟩

theorem misshapen?_of_basic {k : String} {v : Json} (h : BasicKeyword k v) :
    misshapen? k v = none := by
  cases h with
  | type t => rfl
  | default v => cases v <;> rfl
  | required name => rfl
  | properties hmembers => rfl
  | additionalProperties hv => cases hv <;> rfl
  | items hv => cases hv <;> rfl
  | unevaluatedProperties hv => cases hv <;> rfl
  | allOf hne hitems => rfl

theorem foldlM_eq_ok {ε α β : Type} {f : β → α → Except ε β} {xs : List α} {acc : β}
    (h : ∀ x ∈ xs, f acc x = .ok acc) : xs.foldlM f acc = .ok acc := by
  induction xs with
  | nil => rfl
  | cons x rest ih =>
    rw [List.foldlM_cons, h x List.mem_cons_self]
    exact ih (fun y hy => h y (List.mem_cons_of_mem _ hy))

/-- Nothing is wrong with what evaluation reaches from a basic schema. -/
theorem verify_of_basic (l : Library) (fuel : Nat) (scope : Library.Scope) (followed : Followed)
    {d : Json} (hd : Basic d) : verify l fuel scope followed d = .ok followed := by
  induction fuel generalizing scope d with
  | zero => rfl
  | succ fuel ih =>
    cases hd with
    | bool b => rfl
    | obj hmembers =>
      refine foldlM_eq_ok (fun m hm => ?_)
      rcases m with ⟨k, arg⟩
      -- each keyword leaves the record of what was followed as it is
      have hkeyword : BasicKeyword k arg := hmembers (k, arg) hm
      obtain ⟨hpatterns, hreferences, hschemas⟩ :=
        reachedFrom_of_basic (((Json.obj _).members?).getD []) hkeyword
      dsimp only
      split
      · rfl
      · rw [misshapen?_of_basic hkeyword]
        dsimp only
        rw [hpatterns, hreferences]
        exact foldlM_eq_ok (fun x hx => ih _ (hschemas x hx))

end Evaluation

namespace Library

/-- Schemas within basic schemas are basic. -/
theorem basic_of_mem_subschemas {d x : Json} (hd : Basic d) (hx : x ∈ subschemas d) : Basic x := by
  cases hd with
  | bool b => simp [subschemas, Json.members?] at hx
  | obj hmembers =>
    rcases List.mem_flatMap.mp hx with ⟨m, hm, hx⟩
    have hkeyword := hmembers m hm
    rcases m with ⟨k, v⟩
    cases hkeyword with
    | type t => simp [schemaKeywords, listKeywords, mapKeywords] at hx
    | default v => simp [schemaKeywords, listKeywords, mapKeywords] at hx
    | required name => simp [schemaKeywords, listKeywords, mapKeywords] at hx
    | properties h =>
      rcases List.mem_map.mp hx with ⟨m, hm, rfl⟩
      exact h m hm
    | additionalProperties h => exact List.mem_singleton.mp hx ▸ h
    | items h => exact List.mem_singleton.mp hx ▸ h
    | unevaluatedProperties h => exact List.mem_singleton.mp hx ▸ h
    | allOf hne h => exact h x hx

/-- Declarations that have nothing of one kind add nothing of it. -/
theorem foldl_append_eq {α β : Type} (part : Declared → List β)
    (hpart : ∀ a b : Declared, part (a.append b) = part a ++ part b) (f : α → Declared)
    (xs : List α) (acc : Declared) (h : ∀ x ∈ xs, part (f x) = []) :
    part (xs.foldl (fun (acc : Declared) x => acc.append (f x)) acc) = part acc := by
  induction xs generalizing acc with
  | nil => rfl
  | cons x rest ih =>
    rw [List.foldl_cons, ih _ (fun y hy => h y (List.mem_cons_of_mem _ hy)), hpart,
      h x List.mem_cons_self, List.append_nil]

/-- Basic schemas refer to nothing. -/
theorem references_of_basic (fuel : Nat) (base : String) {d : Json} (hd : Basic d) :
    (declared fuel base d).references = [] := by
  induction fuel generalizing base d with
  | zero => rfl
  | succ fuel ih =>
    -- only two keywords make references, and basic schemas have neither
    have hhere : ∀ b, (declaredHere b d).references = [] := by
      intro b
      unfold declaredHere
      rw [keywordText?_of_basic hd (k := "$ref") (by decide),
        keywordText?_of_basic hd (k := "$schema") (by decide)]
      simp
    unfold declared
    dsimp only
    rw [foldl_append_eq (·.references) (fun _ _ => rfl) _ _ _
      (fun s hs => ih _ (basic_of_mem_subschemas hd hs))]
    exact hhere _

/-- Documents without references to others can always be added. -/
theorem extend_eq_ok (l : Library) {resources : List Resource} (h : ∀ r ∈ resources,
    (declared (r.contents.depth + 1) r.uri r.contents).references = []) :
    ∃ l', l.extend resources = .ok l' := by
  have hreferences := foldl_append_eq (·.references) (fun _ _ => rfl)
    (fun r : Resource => declared (r.contents.depth + 1) r.uri r.contents) resources ⟨[], [], []⟩ h
  unfold extend
  dsimp only
  rw [hreferences]
  exact ⟨_, rfl⟩

/-! ## Extension -/

/-- What a document declares under its identifier. -/
def declaredBy (r : Resource) : Declared := declared (r.contents.depth + 1) r.uri r.contents

/-- A library together with documents and everything they declare. -/
def extension (l : Library) (resources : List Resource) : Library :=
  ⟨(resources.flatMap (fun r => (declaredBy r).documents)).reverse ++
      (resources.reverse ++ l.documents),
    resources.flatMap (fun r => (declaredBy r).anchors) ++ l.anchors⟩

theorem part_foldl_append {α β : Type} (part : Declared → List β)
    (hpart : ∀ a b : Declared, part (a.append b) = part a ++ part b) (f : α → Declared)
    (xs : List α) (acc : Declared) :
    part (xs.foldl (fun (acc : Declared) x => acc.append (f x)) acc) =
      part acc ++ xs.flatMap (fun x => part (f x)) := by
  induction xs generalizing acc with
  | nil => simp
  | cons x rest ih => rw [List.foldl_cons, ih, hpart, List.flatMap_cons, List.append_assoc]

/-- Extension looks for a reference to an unknown document. -/
theorem extend_eq (l : Library) (resources : List Resource) : l.extend resources =
    match (resources.flatMap (fun r => (declaredBy r).references)).find?
      (fun r => ((extension l resources).document? (withoutFragment r)).isNone) with
    | some r => .error (.unknownScheme (withoutFragment r)
        (((Uri.split (withoutFragment r)).scheme).getD ""))
    | none => .ok (extension l resources) := by
  have hdocuments := part_foldl_append (·.documents) (fun _ _ => rfl) declaredBy resources
    ⟨[], [], []⟩
  have hanchors := part_foldl_append (·.anchors) (fun _ _ => rfl) declaredBy resources ⟨[], [], []⟩
  have hreferences := part_foldl_append (·.references) (fun _ _ => rfl) declaredBy resources
    ⟨[], [], []⟩
  rw [List.nil_append] at hdocuments hanchors hreferences
  have hlibrary : extension l resources =
      ⟨(resources.foldl (fun (acc : Declared) r => acc.append (declaredBy r))
          ⟨[], [], []⟩).documents.reverse ++ resources.reverse ++ l.documents,
        (resources.foldl (fun (acc : Declared) r => acc.append (declaredBy r))
          ⟨[], [], []⟩).anchors ++ l.anchors⟩ := by
    rw [hdocuments, hanchors, List.append_assoc]
    rfl
  rw [hlibrary, ← hreferences]
  rfl

theorem extend_eq_ok_iff (l : Library) (resources : List Resource) {l' : Library} :
    l.extend resources = .ok l' ↔ l' = extension l resources ∧
      ∀ r ∈ resources.flatMap (fun r => (declaredBy r).references),
        ((extension l resources).document? (withoutFragment r)).isSome = true := by
  rw [extend_eq]
  cases hfind : (resources.flatMap (fun r => (declaredBy r).references)).find?
      (fun r => ((extension l resources).document? (withoutFragment r)).isNone) with
  | some r =>
    have hnone := List.find?_some hfind
    constructor
    · intro h
      cases h
    · rintro ⟨-, hall⟩
      have hsome := hall r (List.mem_of_find?_eq_some hfind)
      rw [Option.isNone_iff_eq_none] at hnone
      rw [hnone] at hsome
      cases hsome
  | none =>
    have hall : ∀ r ∈ resources.flatMap (fun r => (declaredBy r).references),
        ((extension l resources).document? (withoutFragment r)).isSome = true := by
      intro r hr
      simpa [Option.isSome_iff_ne_none] using List.find?_eq_none.mp hfind r hr
    exact ⟨fun h => ⟨(Except.ok.inj h).symm, hall⟩, fun h => by rw [h.1]⟩

end Library

/-- A schema has an evaluator where its references lead to documents, the schema of schemas has
nothing against it, and neither has what evaluation reaches from it. -/
theorem Evaluator.build_of_findings {d : Json} {resources : List Resource} {l : Library}
    {followed : Evaluation.Followed} (hid : Library.keywordText? d "$id" = none)
    (hlibrary : Metaschema.library.extend (resources ++ [⟨Evaluator.defaultBase, d⟩]) = .ok l)
    (hfindings : Metaschema.evaluator.findings d = [])
    (hverify : let e : Evaluator := ⟨l, Evaluator.defaultBase, d⟩
      Evaluation.verify l (e.steps .null * e.steps .null) e.start.scope [] d = .ok followed) :
    Evaluator.build d resources = .ok ⟨l, Evaluator.defaultBase, d⟩ := by
  dsimp only at hverify
  unfold Evaluator.build
  -- what is found is left open, it would be computed otherwise
  generalize Metaschema.evaluator.findings d = found at hfindings
  subst hfindings
  rw [hid]
  dsimp only
  rw [hlibrary]
  dsimp only
  rw [hverify]
  rfl

/-- Whether all that evaluation comes to from a schema without identifier can be followed. -/
def Evaluator.followable (d : Json) (resources : List Resource) : Bool :=
  (Metaschema.library.extend (resources ++ [⟨Evaluator.defaultBase, d⟩])).toOption.any (fun l =>
    let e : Evaluator := ⟨l, Evaluator.defaultBase, d⟩
    (Evaluation.verify l (e.steps .null * e.steps .null) e.start.scope [] d).toBool)

/-- What evaluation reaches from a closed schema can be computed, and what the schema of schemas has
against it is better proved. -/
theorem Evaluator.exists_build {d : Json} {resources : List Resource}
    (hid : Library.keywordText? d "$id" = none) (hfindings : Metaschema.evaluator.findings d = [])
    (hchecked : Evaluator.followable d resources = true) :
    ∃ l, Evaluator.build d resources = .ok ⟨l, Evaluator.defaultBase, d⟩ := by
  unfold Evaluator.followable at hchecked
  cases hlibrary : Metaschema.library.extend (resources ++ [⟨Evaluator.defaultBase, d⟩]) with
  | error err =>
    rw [hlibrary] at hchecked
    cases hchecked
  | ok l =>
    rw [hlibrary] at hchecked
    dsimp only [Except.toOption, Option.any_some] at hchecked
    generalize hverify : Evaluation.verify l _ _ [] d = outcome at hchecked
    cases outcome with
    | error err => cases hchecked
    | ok followed => exact ⟨l, Evaluator.build_of_findings hid hlibrary hfindings hverify⟩

/-- Only schemas from which all can be followed have evaluators. -/
theorem Evaluator.followable_of_build {d : Json} {resources : List Resource} {e : Evaluator}
    (hid : Library.keywordText? d "$id" = none) (h : Evaluator.build d resources = .ok e) :
    Evaluator.followable d resources = true := by
  unfold Evaluator.followable
  unfold Evaluator.build at h
  -- what is found is left open, it would be computed otherwise
  generalize Metaschema.evaluator.findings d = found at h
  rw [hid] at h
  dsimp only at h
  generalize Metaschema.library.extend _ = extended at h ⊢
  cases extended with
  | error err => cases h
  | ok l =>
    cases found with
    | cons f rest => cases h
    | nil =>
      dsimp only [Except.toOption, Option.any_some] at h ⊢
      generalize Evaluation.verify l _ _ [] d = outcome at h ⊢
      cases outcome with
      | error err => cases h
      | ok followed => rfl

/-- Every basic schema has an evaluator. -/
theorem Evaluator.build_of_basic {d : Json} (hd : Basic d) {resources : List Resource}
    (h : ∀ r ∈ resources,
      (Library.declared (r.contents.depth + 1) r.uri r.contents).references = []) :
    ∃ library, Evaluator.build d resources = .ok ⟨library, Evaluator.defaultBase, d⟩ := by
  have hall : ∀ r ∈ resources ++ [⟨Evaluator.defaultBase, d⟩],
      (Library.declared (r.contents.depth + 1) r.uri r.contents).references = [] := by
    intro r hr
    rcases List.mem_append.mp hr with hr | hr
    · exact h r hr
    · exact List.mem_singleton.mp hr ▸ Library.references_of_basic _ _ hd
  rcases Library.extend_eq_ok Metaschema.library hall with ⟨library, hlibrary⟩
  exact ⟨library, Evaluator.build_of_findings (keywordText?_of_basic hd (by decide)) hlibrary
    (Metaschema.findings_of_basic hd) (Evaluation.verify_of_basic _ _ _ _ hd)⟩

/-! ## Acceptance -/

/-- There are always a few steps. -/
theorem Evaluator.exists_steps (e : Evaluator) (v : Json) : ∃ n, e.steps v = n + 2 := by
  have hle : 2 ≤ e.steps v :=
    calc 2 ≤ 2 * 2 := by decide
      _ ≤ (v.depth + 2) * (e.library.size + e.root.size + 2) :=
        Nat.mul_le_mul (Nat.le_add_left 2 _) (Nat.le_add_left 2 _)
  exact ⟨e.steps v - 2, (Nat.sub_add_cancel hle).symm⟩

/-- The evaluator of a type accepts the values of the type. -/
theorem Evaluator.accepts_type (l : Library) (base : String) (t : JsonType) (v : Json) :
    Evaluator.accepts ⟨l, base, .obj [("type", .str t.name)]⟩ v = t.admits v := by
  have hviolations : (Assertion.typeViolations (.str t.name) v).isEmpty = t.admits v := by
    simp only [Assertion.typeViolations, Assertion.hasType, JsonType.ofName?_name,
      List.isEmpty_cons, List.any_cons, List.any_nil, Option.map_some, Option.getD_some,
      Bool.or_false]
    cases t.admits v <;> rfl
  rcases Evaluator.exists_steps ⟨l, base, .obj [("type", .str t.name)]⟩ v with ⟨n, hn⟩
  unfold Evaluator.accepts Evaluator.findings
  rw [hn]
  dsimp only
  rw [Evaluation.judge_single, Evaluation.keywordFindings_type, List.isEmpty_map, hviolations]
  rfl

/-- The evaluator of a list of branches that were replaced by `true` accepts every value. -/
theorem Evaluator.accepts_allOf_true (l : Library) (base : String) {items : List Json}
    (h : ∀ x ∈ items, x = .bool true) (v : Json) :
    Evaluator.accepts ⟨l, base, .obj [("allOf", .arr items)]⟩ v = true := by
  rcases Evaluator.exists_steps ⟨l, base, .obj [("allOf", .arr items)]⟩ v with ⟨n, hn⟩
  unfold Evaluator.accepts Evaluator.findings
  rw [hn, List.isEmpty_iff]
  dsimp only
  rw [Evaluation.judge_single, Evaluation.keywordFindings_allOf, List.flatMap_eq_nil_iff]
  · intro b hb
    rw [h b.2 (Evaluation.mem_branches hb).2]
    exact Evaluation.judge_bool_true v
  · rfl

namespace Planning

/-- A marker that carries a basic schema is planned with an evaluator of its own. -/
theorem node_inline_of_basic (c : Context) (f : Fragment) {path : String} {root : Node}
    {document : Json}
    (hnode : node c f.document (Json.Pointer.child path Marker.key) = .ok (root, document))
    (hd : Basic document)
    (h : ∀ r ∈ c.resources,
      (Library.declared (r.contents.depth + 1) r.uri r.contents).references = []) :
    ∃ library, node c (Marker.inline f).toJson path =
      .ok (.inline root ⟨library, Evaluator.defaultBase, document⟩ f.document, .bool true) := by
  rcases Evaluator.build_of_basic hd h with ⟨library, hbuild⟩
  refine ⟨library, ?_⟩
  have hmarker : Marker.ofMembers? [(Marker.key, f.document)] = some (.ok (.inline f)) := by
    rcases f with ⟨document, hschema⟩
    cases document with
    | bool b => rfl
    | obj members => rfl
    | _ => simp [Json.isSchema] at hschema
  show node c (.obj [(Marker.key, f.document)]) path = _
  rw [node, hmarker]
  dsimp only
  rw [target, hnode]
  show (evaluator c document (Json.Pointer.child path Marker.key)).bind _ = _
  unfold evaluator
  rw [hbuild]
  rfl

/-- A schema compiles where it plans and an evaluator can be built. -/
theorem compile_of_build (c : Context) (o : Options) (schema : Json) (path : String) {n : Node}
    {document : Json} {ev : Evaluator}
    (hcheck : o.strict = true → Keywords.check schema path = .ok ())
    (hnode : node c schema path = .ok (n, document))
    (hbuild : Evaluator.build document c.resources = .ok ev) :
    compile c o schema path = .ok ⟨n, ev, schema⟩ := by
  have hunchecked : compileUnchecked c schema path = .ok ⟨n, ev, schema⟩ := by
    unfold compileUnchecked
    rw [hnode]
    show (evaluator c document path).bind _ = _
    unfold evaluator
    rw [hbuild]
    rfl
  unfold compile
  split
  · next hstrict =>
    rw [hcheck hstrict]
    exact hunchecked
  · exact hunchecked

/-- A fragment compiles where its schema plans and the document for its evaluator is basic. -/
theorem compile_of_basic (c : Context) (o : Options) (schema : Json) (path : String) {n : Node}
    {document : Json} (hcheck : Keywords.check schema path = .ok ())
    (hnode : node c schema path = .ok (n, document)) (hd : Basic document)
    (h : ∀ r ∈ c.resources,
      (Library.declared (r.contents.depth + 1) r.uri r.contents).references = []) :
    ∃ library, compile c o schema path =
      .ok ⟨n, ⟨library, Evaluator.defaultBase, document⟩, schema⟩ := by
  rcases Evaluator.build_of_basic hd h with ⟨library, hbuild⟩
  exact ⟨library, compile_of_build c o schema path (fun _ => hcheck) hnode hbuild⟩

end Planning

namespace Engine

theorem ofRegistry_empty (o : Options) : ofRegistry o .empty = .ok (ofOptions o) := rfl

theorem compile_of_basic (o : Options) (f : Fragment) {n : Node} {document : Json}
    (hcheck : Keywords.check f.document "" = .ok ())
    (hnode : Planning.node (ofOptions o).context f.document "" = .ok (n, document))
    (hd : Basic document) : ∃ library, (ofOptions o).compile f =
      .ok ⟨n, ⟨library, Evaluator.defaultBase, document⟩, f.document⟩ :=
  Planning.compile_of_basic _ o f.document "" hcheck hnode hd
    (fun _ hr => absurd hr List.not_mem_nil)

end Engine

end HttpContract
