import HttpContract.Proofs.Metaschema

/-!
# Basic schemas are schemas

Basic schemas are made of a few plain keywords at every depth. The schema of schemas has nothing
against them: it is run symbolically, one lemma for each of the shapes it is made of, and the
induction is on the depth of the schema that is judged (`findings_of_basic`).
-/

namespace HttpContract

/-! ## Basic schemas -/

mutual

/-- A schema of a few plain keywords, at every depth. -/
inductive Basic : Json → Prop where
  | bool (b : Bool) : Basic (.bool b)
  | obj {members : Fields Json} (h : ∀ m ∈ members, BasicKeyword m.1 m.2) : Basic (.obj members)

/-- One of the keywords with a value it admits. -/
inductive BasicKeyword : String → Json → Prop where
  | type (t : JsonType) : BasicKeyword "type" (.str t.name)
  | default (v : Json) : BasicKeyword "default" v
  | required (name : String) : BasicKeyword "required" (.arr [.str name])
  | properties {members : Fields Json} (h : ∀ m ∈ members, Basic m.2) :
      BasicKeyword "properties" (.obj members)
  | additionalProperties {v : Json} (h : Basic v) : BasicKeyword "additionalProperties" v
  | items {v : Json} (h : Basic v) : BasicKeyword "items" v
  | unevaluatedProperties {v : Json} (h : Basic v) : BasicKeyword "unevaluatedProperties" v
  | allOf {items : List Json} (hne : items ≠ []) (h : ∀ x ∈ items, Basic x) :
      BasicKeyword "allOf" (.arr items)

end

theorem Basic.single {k : String} {v : Json} (h : BasicKeyword k v) : Basic (.obj [(k, v)]) :=
  .obj (fun _ hm => List.mem_singleton.mp hm ▸ h)

theorem BasicKeyword.property {name : String} {v : Json} (h : Basic v) :
    BasicKeyword "properties" (.obj [(name, v)]) :=
  .properties (fun _ hm => List.mem_singleton.mp hm ▸ h)

theorem BasicKeyword.branch {v : Json} (h : Basic v) : BasicKeyword "allOf" (.arr [v]) :=
  .allOf (List.cons_ne_nil _ _) (fun _ hx => List.mem_singleton.mp hx ▸ h)

/-- The keywords that basic schemas have. -/
def basicKeywords : List String :=
  ["type", "default", "required", "properties", "additionalProperties", "items",
    "unevaluatedProperties", "allOf"]

theorem BasicKeyword.mem {k : String} {v : Json} (h : BasicKeyword k v) : k ∈ basicKeywords := by
  cases h <;> decide

/-- Basic schemas have no other keywords. -/
theorem get?_eq_none_of_basic {members : Fields Json} (h : ∀ m ∈ members, BasicKeyword m.1 m.2)
    {k : String} (hk : k ∉ basicKeywords) : Fields.get? members k = none := by
  cases hget : Fields.get? members k with
  | none => rfl
  | some v => exact absurd (h (k, v) (Fields.mem_of_get? hget)).mem hk

namespace Evaluation

open Library

variable {l : Library} {n : Nat} {p : Place}

/-! ## Judging by a schema -/

theorem judge_bool_true (v : Json) : (rules l (n + 1)).judge p (.bool true) v = [] := rfl

/-- A schema is satisfied when each of its keywords is. -/
theorem judge_members {members : Fields Json} {v : Json}
    (h : ∀ q : Place, q.scope = p.scope.within (.obj members) → ∀ m ∈ members,
      keywordFindings l (rules l n) q members m.1 m.2 v = []) :
    (rules l (n + 1)).judge p (.obj members) v = [] := by
  show members.flatMap _ = []
  rw [List.flatMap_eq_nil_iff]
  exact fun m hm => h _ rfl m hm

/-- The findings of a schema with one keyword are those of the keyword. -/
theorem judge_single {k : String} {arg v : Json} :
    (rules l (n + 1)).judge p (.obj [(k, arg)]) v =
      keywordFindings l (rules l n) { p with scope := p.scope.within (.obj [(k, arg)]) }
        [(k, arg)] k arg v := by
  simp only [rules, findings, List.flatMap_cons, List.flatMap_nil, List.append_nil]

theorem judge_object {entries : List (String × Json)} {v : Json}
    (h : ∀ q : Place, q.scope = p.scope.within (Json.ofMembers entries) → ∀ m ∈ entries,
      keywordFindings l (rules l n) q (Fields.ofList entries) m.1 m.2 v = []) :
    (rules l (n + 1)).judge p (Json.ofMembers entries) v = [] :=
  judge_members (fun q hq m hm => h q hq m (Fields.mem_of_mem_ofList hm))

theorem reference_eq_nil {members : Fields Json} {k target : String} {v schema : Json}
    {scope : Scope} (hlookup : l.lookup p.scope target = .ok (schema, scope))
    (h : ∀ q : Place, q.scope = scope → (rules l n).judge q schema v = []) :
    reference l (rules l n) p members k (.str target) v = [] := by
  simp only [reference, target?, hlookup]
  split
  · next q s hsome =>
    split at hsome
    · simp at hsome
    · rcases Prod.mk.inj (Option.some.inj hsome) with ⟨rfl, rfl⟩
      exact h _ rfl
  · rfl

/-- A reference is satisfied when the schema it means is. -/
theorem judge_reference {k target : String} {v schema : Json} {scope : Scope}
    (hk : k = "$ref" ∨ k = "$dynamicRef") (hknown : p.scope.known = true)
    (hlookup : l.lookup p.scope target = .ok (schema, scope))
    (h : ∀ q : Place, q.scope = scope → (rules l n).judge q schema v = []) :
    (rules l (n + 1)).judge p (Json.ofMembers [(k, .str target)]) v = [] := by
  have hwithin : p.scope.within (Json.ofMembers [(k, .str target)]) = p.scope := by
    refine within_of_keywordText?_none ?_
    rcases hk with rfl | rfl <;> rfl
  refine judge_object (fun q hq m hm => ?_)
  obtain rfl : m = (k, .str target) := by simpa using hm
  rw [hwithin] at hq
  have hreference : reference l (rules l n) q (Fields.ofList [(k, .str target)]) k (.str target) v =
      [] := reference_eq_nil (by rw [hq]; exact hlookup) h
  unfold keywordFindings
  rw [hq, hknown]
  rcases hk with rfl | rfl
  · exact hreference
  · exact hreference

/-! ## Keywords of the schema of schemas -/

/-- Keywords that say nothing about values. -/
theorem keywordFindings_silent {r : Rules} {members : Fields Json} {k : String} (arg v : Json)
    (hk : k ∈ ["$id", "$schema", "$dynamicAnchor", "$defs"]) :
    keywordFindings l r p members k arg v = [] := by
  simp only [List.mem_cons, List.not_mem_nil, or_false] at hk
  unfold keywordFindings
  rcases hk with rfl | rfl | rfl | rfl <;> (split <;> rfl)

/-- Keywords that assert something about the value alone. -/
theorem keywordFindings_assertion {r : Rules} {members : Fields Json} {k : String} {arg v : Json}
    (hk : k ∈ ["type", "enum", "minItems", "uniqueItems", "pattern"])
    (h : Assertion.violations k arg v = []) :
    keywordFindings l r p members k arg v = [] := by
  simp only [List.mem_cons, List.not_mem_nil, or_false] at hk
  unfold keywordFindings
  split
  · rfl
  · rcases hk with rfl | rfl | rfl | rfl | rfl <;>
    · show (Assertion.violations _ arg v).map _ = []
      rw [h]
      rfl

section Applied

variable {r : Rules} {members : Fields Json} {arg v : Json}

theorem keywordFindings_type (hknown : p.scope.known = true) :
    keywordFindings l r p members "type" arg v =
      (Assertion.typeViolations arg v).map (p.keyword "type").report := by
  unfold keywordFindings
  rw [hknown]
  rfl

theorem keywordFindings_additionalProperties (hknown : p.scope.known = true) :
    keywordFindings l r p members "additionalProperties" arg v =
      additionalProperties r p members arg v := by
  unfold keywordFindings
  rw [hknown]
  rfl

theorem keywordFindings_items (hknown : p.scope.known = true) :
    keywordFindings l r p members "items" arg v = remainingItems r p members arg v := by
  unfold keywordFindings
  rw [hknown]
  rfl

theorem keywordFindings_properties (hknown : p.scope.known = true)
    (hmembers : takesOver members = false) :
    keywordFindings l r p members "properties" arg v = properties r p arg v := by
  unfold keywordFindings
  rw [hknown, hmembers]
  rfl

theorem keywordFindings_allOf (hknown : p.scope.known = true) :
    keywordFindings l r p members "allOf" arg v =
      (branches p "allOf" arg).flatMap (fun b => r.judge b.1 b.2 v) := by
  unfold keywordFindings
  rw [hknown]
  rfl

theorem keywordFindings_anyOf (hknown : p.scope.known = true) :
    keywordFindings l r p members "anyOf" arg v = anyOf r p arg v := by
  unfold keywordFindings
  rw [hknown]
  rfl

end Applied

/-- The keyword `properties` is satisfied when each named schema is satisfied by its member. -/
theorem properties_eq_nil {r : Rules} {schemas members : Fields Json}
    (h : ∀ q : Place, q.scope = p.scope → ∀ m ∈ schemas, ∀ x, Fields.get? members m.1 = some x →
      r.judge q m.2 x = []) :
    properties r p (.obj schemas) (.obj members) = [] := by
  unfold properties
  rw [List.flatMap_eq_nil_iff]
  intro m hm
  cases hget : Fields.get? members m.1 with
  | none => simp only [hget]
  | some x =>
    simp only [hget]
    exact h ((p.entry "properties" m.1).part m.1) rfl m hm x hget

/-- The keyword `additionalProperties` beside no other keyword for members. -/
theorem additionalProperties_eq_nil {r : Rules} {keywords members : Fields Json} {arg : Json}
    (hnamed : Fields.get? keywords "properties" = none)
    (hmatched : Fields.get? keywords "patternProperties" = none) (harg : arg ≠ .bool false)
    (h : ∀ q : Place, q.scope = p.scope → ∀ m ∈ members, r.judge q arg m.2 = []) :
    additionalProperties r p keywords arg (.obj members) = [] := by
  unfold additionalProperties
  split
  · rfl
  · simp only [hnamed, hmatched, harg, matching]
    simp only [and_false, if_false, Option.bind_none, Option.getD_none, Fields.get?_nil,
      Option.map_none, Option.toList_none, List.nil_append, List.filter_nil, List.map_nil]
    simpa using fun k v hm => h ((p.keyword "additionalProperties").part k) rfl (k, v) hm

/-- The keyword `items` is satisfied when every item satisfies its schema. -/
theorem remainingItems_eq_nil {r : Rules} {keywords : Fields Json} {arg : Json} {items : List Json}
    (h : ∀ q : Place, q.scope = p.scope → ∀ x ∈ items, r.judge q arg x = []) :
    remainingItems r p keywords arg (.arr items) = [] := by
  unfold remainingItems
  rw [List.flatMap_eq_nil_iff]
  intro x hx
  exact h ((p.keyword "items").part (toString x.1)) rfl x.2
    (List.of_mem_zip (List.mem_of_mem_drop hx)).2

/-- The schemas listed under a keyword are judged in the scope of the list. -/
theorem mem_branches {k : String} {arg : Json} {b : Place × Json} (h : b ∈ branches p k arg) :
    b.1.scope = p.scope ∧ b.2 ∈ (arg.items?).getD [] := by
  unfold branches at h
  rcases List.mem_map.mp h with ⟨x, hx, rfl⟩
  exact ⟨rfl, (List.of_mem_zip hx).2⟩

end Evaluation

namespace Metaschema

open Library Evaluation

variable {n : Nat} {p : Place}

/-! ## The shapes that the schema of schemas is made of -/

/-- The schema of schemas has nothing against a document, wherever it is asked. -/
def Accepted (n : Nat) (x : Json) : Prop :=
  ∀ m, n ≤ m → ∀ p : Place, Rooted p.scope → p.scope.base = specification →
    (rules library m).judge p joined.contents x = []

theorem Accepted.mono {m : Nat} {x : Json} (h : Accepted n x) (hm : n ≤ m) : Accepted m x :=
  fun k hk => h k (Nat.le_trans hm hk)

theorem judge_schema {x : Json} (h : Accepted n x) (hp : Rooted p.scope) :
    (rules library (n + 1)).judge p schema x = [] := by
  rcases lookup_meta hp with ⟨s, hs, hbase, hlookup⟩
  exact judge_reference (Or.inr rfl) hp.known hlookup 
    (fun q hq => h n (Nat.le_refl n) q (hq ▸ hs) (hq ▸ hbase))

theorem judge_mapOf {members : Fields Json} (h : ∀ m ∈ members, Accepted n m.2)
    (hp : Rooted p.scope) :
    (rules library (n + 2)).judge p (mapOf schema) (.obj members) = [] := by
  refine judge_object (fun q hq m hm => ?_)
  have hq : q.scope = p.scope := hq.trans (within_of_keywordText?_none rfl)
  simp only [List.mem_cons, List.not_mem_nil, or_false] at hm
  rcases hm with rfl | rfl
  · exact keywordFindings_assertion (by decide) rfl
  · rw [keywordFindings_additionalProperties (by rw [hq]; exact hp.known)]
    exact additionalProperties_eq_nil rfl rfl (by decide)
      (fun q' hq' m hm => judge_schema (h m hm) (by rw [hq', hq]; exact hp))

/-- Nonempty lists of schemas. -/
theorem judge_schemaArray {items : List Json} (hne : items ≠ []) (h : ∀ x ∈ items, Accepted n x)
    (hp : Rooted p.scope) (hbase : p.scope.base = applicator.uri) :
    (rules library (n + 3)).judge p (ref "#/$defs/schemaArray") (.arr items) = [] := by
  have hlookup := lookup_definition applicator_mem hbase
    (show "schemaArray" ∈ _ by decide) rfl rfl rfl rfl rfl rfl
  refine judge_reference (Or.inl rfl) hp.known hlookup (fun q hq => ?_)
  refine judge_object (fun q' hq' m hm => ?_)
  have hscope : Rooted q'.scope := by
    rw [hq', within_of_keywordText?_none rfl, hq]
    exact hp.enter_known applicator_mem
  simp only [List.mem_cons, List.not_mem_nil, or_false] at hm
  rcases hm with rfl | rfl | rfl
  · exact keywordFindings_assertion (by decide) rfl
  · refine keywordFindings_assertion (by decide) ?_
    cases items with
    | nil => exact absurd rfl hne
    | cons x rest =>
      -- a list with an item is long enough
      have hcount : Assertion.count? (Json.ofNat 1) = some 1 := by decide
      simp [Assertion.violations, Assertion.sizeBound, Assertion.itemCount?, Json.items?, hcount]
  · rw [keywordFindings_items hscope.known]
    exact remainingItems_eq_nil (fun q'' hq'' x hx => judge_schema (h x hx) (hq'' ▸ hscope))

/-- Names of types. -/
theorem judge_typeNames (t : JsonType) (hp : Rooted p.scope)
    (hbase : p.scope.base = validation.uri) :
    (rules library (n + 3)).judge p typeNames (.str t.name) = [] := by
  have hlookup := lookup_definition validation_mem hbase
    (show "simpleTypes" ∈ _ by decide) rfl rfl rfl rfl rfl rfl
  refine judge_object (fun q hq m hm => ?_)
  obtain rfl := List.mem_singleton.mp hm
  rw [within_of_keywordText?_none rfl] at hq
  rw [keywordFindings_anyOf (by rw [hq]; exact hp.known), anyOf, if_pos]
  have hsimple : (rules library (n + 2)).judge (q.entry "anyOf" (toString 0))
      (ref "#/$defs/simpleTypes") (.str t.name) = [] := by
    refine judge_reference (Or.inl rfl) (hq ▸ hp.known) (hq ▸ hlookup) (fun q' _ => ?_)
    refine judge_object (fun q'' _ m hm => ?_)
    obtain rfl := List.mem_singleton.mp hm
    refine keywordFindings_assertion (by decide) ?_
    cases t <;> decide
  refine List.any_eq_true.mpr ⟨(q.entry "anyOf" (toString 0), ref "#/$defs/simpleTypes"),
    List.mem_cons_self, ?_⟩
  show (Rules.judge _ _ _ _).isEmpty = true
  rw [hsimple]
  rfl

/-- Lists of one name. -/
theorem judge_stringArray (name : String) (hp : Rooted p.scope)
    (hbase : p.scope.base = validation.uri) :
    (rules library (n + 3)).judge p (ref "#/$defs/stringArray") (.arr [.str name]) = [] := by
  have hlookup := lookup_definition validation_mem hbase
    (show "stringArray" ∈ _ by decide) rfl rfl rfl rfl rfl rfl
  refine judge_reference (Or.inl rfl) hp.known hlookup (fun q hq => ?_)
  refine judge_object (fun q' hq' m hm => ?_)
  have hscope : Rooted q'.scope := by
    rw [hq', within_of_keywordText?_none rfl, hq]
    exact hp.enter_known validation_mem
  simp only [List.mem_cons, List.not_mem_nil, or_false] at hm
  rcases hm with rfl | rfl | rfl
  · exact keywordFindings_assertion (by decide) rfl
  · rw [keywordFindings_items hscope.known]
    refine remainingItems_eq_nil (fun q'' _ x hx => ?_)
    obtain rfl := List.mem_singleton.mp hx
    refine judge_object (fun _ _ m hm => ?_)
    obtain rfl := List.mem_singleton.mp hm
    exact keywordFindings_assertion (by decide) rfl
  · exact keywordFindings_assertion (by decide) rfl

theorem judge_string (text : String) :
    (rules library (n + 1)).judge p (typed "string") (.str text) = [] := by
  refine judge_object (fun _ _ m hm => ?_)
  obtain rfl := List.mem_singleton.mp hm
  exact keywordFindings_assertion (by decide) rfl

/-- Texts. -/
theorem judge_text (text : String) {name : String}
    (hname : name ∈ ["uriString", "uriReferenceString"]) (hp : Rooted p.scope)
    (hbase : p.scope.base = core.uri) :
    (rules library (n + 2)).judge p (ref ("#/$defs/" ++ name)) (.str text) = [] := by
  simp only [List.mem_cons, List.not_mem_nil, or_false] at hname
  rcases hname with rfl | rfl
  · have hlookup := lookup_definition core_mem hbase (show "uriString" ∈ _ by decide)
      rfl rfl rfl rfl rfl rfl
    exact judge_reference (Or.inl rfl) hp.known hlookup (fun _ _ => judge_string text)
  · have hlookup := lookup_definition core_mem hbase (show "uriReferenceString" ∈ _ by decide)
      rfl rfl rfl rfl rfl rfl
    exact judge_reference (Or.inl rfl) hp.known hlookup (fun _ _ => judge_string text)

/-! ## Vocabularies -/

/-- The keywords that a document names, with the schemas of their values. -/
def keywordsOf (r : Resource) : Fields Json :=
  ((r.contents.get? "properties").bind Json.members?).getD []

/-- The keywords of the documents. -/
theorem members_facts : ∀ r ∈ documents, r.contents = .obj ((r.contents.members?).getD []) ∧
    takesOver ((r.contents.members?).getD []) = false ∧
    ∀ m ∈ (r.contents.members?).getD [], m.1 ∈ ["$id", "$schema", "$dynamicAnchor", "$defs"] ∨
      m = ("type", .arr [.str "object", .str "boolean"]) ∨ m = ("properties", .obj (keywordsOf r)) ∨
      r.uri = specification ∧ m = ("allOf", .arr (vocabularies.map (fun v => ref v.uri))) := by
  decide +kernel

/-- The values of the keywords of a schema satisfy the schemas that a document has for them. -/
def Fits (n : Nat) (r : Resource) (d : Json) : Prop :=
  ∀ members, d = .obj members → ∀ m ∈ keywordsOf r, ∀ x, Fields.get? members m.1 = some x →
    ∀ p : Place, Rooted p.scope → p.scope.base = r.uri → (rules library n).judge p m.2 x = []

theorem Fits.judge_keywordsOf {r : Resource} {d : Json} (h : Fits n r d) (hp : Rooted p.scope)
    (hbase : p.scope.base = r.uri) :
    properties (rules library n) p (.obj (keywordsOf r)) d = [] := by
  cases d with
  | obj members =>
    exact properties_eq_nil
      (fun q hq m hm x hx => h members rfl m hm x hx q (hq ▸ hp) (hq ▸ hbase))
  | _ => rfl

/-- Schemas are objects or truth values. -/
theorem typeViolations_of_isSchema {d : Json} (hd : d.isSchema = true) :
    Assertion.violations "type" (.arr [.str "object", .str "boolean"]) d = [] := by
  cases d with
  | obj members => rfl
  | bool b => rfl
  | _ => cases hd

/-- A document is satisfied by a schema that fits it, the one that joins the vocabularies if they
are. -/
theorem judge_document {r : Resource} (hr : r ∈ documents) {d : Json} (hd : d.isSchema = true)
    (h : Fits n r d) (hp : Rooted p.scope) (hbase : p.scope.base = r.uri)
    (hjoined : r.uri = specification → ∀ q : Place, Rooted q.scope → q.scope.base = specification →
      ∀ v ∈ vocabularies, (rules library n).judge q (ref v.uri) d = []) :
    (rules library (n + 1)).judge p r.contents d = [] := by
  rcases members_facts r hr with ⟨hcontents, htakes, hmembers⟩
  rw [hcontents]
  refine judge_members (fun q hq m hm => ?_)
  rw [← hcontents] at hq
  have hrooted : Rooted q.scope := hq ▸ hp.within hr hbase
  have hqbase : q.scope.base = r.uri := hq ▸ base_within hr hbase
  rcases hmembers m hm with hsilent | rfl | rfl | ⟨huri, rfl⟩
  · exact keywordFindings_silent m.2 d hsilent
  · exact keywordFindings_assertion (by decide) (typeViolations_of_isSchema hd)
  · rw [keywordFindings_properties hrooted.known htakes]
    exact h.judge_keywordsOf hrooted hqbase
  · -- only the document that joins the vocabularies has branches
    rw [keywordFindings_allOf hrooted.known, List.flatMap_eq_nil_iff]
    intro b hb
    rcases mem_branches hb with ⟨hscope, hmem⟩
    rcases List.mem_map.mp hmem with ⟨v, hv, href⟩
    rw [← href]
    exact hjoined huri b.1 (hscope ▸ hrooted) (hscope ▸ hqbase.trans huri) v hv

theorem uri_ne_specification {v : Resource} (hv : v ∈ vocabularies) : v.uri ≠ specification := by
  intro huri
  have hnodup : joined.uri ∉ vocabularies.map (·.uri) := (List.nodup_cons.mp nodup_uris).1
  exact hnodup (List.mem_map.mpr ⟨v, hv, huri⟩)

/-- The schema of schemas has nothing against a schema that fits all its documents. -/
theorem accepted_of_fits {d : Json} (hd : d.isSchema = true)
    (h : ∀ k, n ≤ k → ∀ r ∈ documents, Fits k r d) : Accepted (n + 3) d := by
  intro m hm p hp hbase
  -- two steps to come to a vocabulary and one to judge by it
  obtain ⟨k, rfl⟩ : ∃ k, m = k + 3 := ⟨m - 3, by omega⟩
  have hfits : ∀ j, k ≤ j → ∀ r ∈ documents, Fits j r d := fun j hj => h j (by omega)
  refine judge_document joined_mem hd (hfits (k + 2) (by omega) joined joined_mem) hp hbase
    (fun _ q hq hqbase v hv => ?_)
  have hmem : v ∈ documents := List.mem_cons_of_mem _ hv
  refine judge_reference (Or.inl rfl) hq.known (lookup_vocabulary hv) (fun q' hq' => ?_)
  refine judge_document hmem hd (hfits k (Nat.le_refl k) v hmem) (hq' ▸ hq.enter_known hmem)
    (hq' ▸ rfl) ?_
  exact fun huri => absurd huri (uri_ne_specification hv)

/-- There are more than enough steps for each level of a schema. -/
theorem le_steps (d : Json) : 6 * (d.depth + 1) ≤ evaluator.steps d := by
  have hsize : 6 ≤ evaluator.library.size := by decide +kernel
  unfold Evaluator.steps
  calc 6 * (d.depth + 1) = (d.depth + 1) * 6 := Nat.mul_comm _ _
    _ ≤ (d.depth + 2) * (evaluator.library.size + evaluator.root.size + 2) :=
      Nat.mul_le_mul (Nat.le_succ _) (by omega)

theorem findings_of_accepted {d : Json} (h : Accepted n d) (hn : n ≤ 6 * (d.depth + 1)) :
    evaluator.findings d = [] := by
  -- evaluation starts in the document that joins the vocabularies
  have hstart : Rooted evaluator.start.scope :=
    ⟨(document_facts joined joined_mem).2, ⟨joined, joined_mem, rfl⟩, Or.inl ⟨rfl, rfl⟩⟩
  have hsteps := Nat.le_trans hn (le_steps d)
  unfold Evaluator.findings
  -- the number of steps is left open, it would be computed otherwise
  generalize evaluator.steps d = k at hsteps
  exact h k hsteps evaluator.start hstart rfl

/-! ## Basic schemas are accepted -/

/-- The schemas of the values of basic keywords, each in the document that has it. -/
def basicEntries : List (String × String × Json) :=
  [(applicator.uri, "properties", mapOf schema), (applicator.uri, "additionalProperties", schema),
    (applicator.uri, "items", schema), (applicator.uri, "allOf", ref "#/$defs/schemaArray"),
    (unevaluated.uri, "unevaluatedProperties", schema),
    (validation.uri, "type", typeNames), (validation.uri, "required", ref "#/$defs/stringArray"),
    (metaData.uri, "default", .bool true)]

theorem basicEntries_facts : ∀ r ∈ documents, ∀ m ∈ keywordsOf r, m.1 ∈ basicKeywords →
    (r.uri, m) ∈ basicEntries := by
  decide +kernel

/-- Basic keywords satisfy the schemas of their values. -/
theorem judge_basicEntry {uri k : String} {s x : Json} (hentry : (uri, k, s) ∈ basicEntries)
    (hx : BasicKeyword k x) (h : ∀ y, Basic y → y.depth ≤ x.depth → Accepted n y)
    (hp : Rooted p.scope) (hbase : p.scope.base = uri) :
    (rules library (n + 3)).judge p s x = [] := by
  simp only [basicEntries, List.mem_cons, Prod.mk.injEq, List.not_mem_nil, or_false] at hentry
  cases hx with
  | type t =>
    obtain ⟨rfl, rfl⟩ : uri = validation.uri ∧ s = typeNames := by simpa using hentry
    exact judge_typeNames t hp hbase
  | default v =>
    obtain ⟨rfl, rfl⟩ : uri = metaData.uri ∧ s = .bool true := by simpa using hentry
    exact judge_bool_true x
  | required name =>
    obtain ⟨rfl, rfl⟩ : uri = validation.uri ∧ s = ref "#/$defs/stringArray" := by
      simpa using hentry
    exact judge_stringArray name hp hbase
  | properties hmembers =>
    obtain ⟨rfl, rfl⟩ : uri = applicator.uri ∧ s = mapOf schema := by simpa using hentry
    refine judge_mapOf (n := n + 1) (fun m hm => ?_) hp
    refine (h m.2 (hmembers m hm) ?_).mono (Nat.le_succ n)
    exact Nat.le_succ_of_le (Json.depth_le_depthMembers hm)
  | additionalProperties hv =>
    obtain ⟨rfl, rfl⟩ : uri = applicator.uri ∧ s = schema := by simpa using hentry
    exact judge_schema ((h x hv (Nat.le_refl _)).mono (Nat.le_add_right n 2)) hp
  | items hv =>
    obtain ⟨rfl, rfl⟩ : uri = applicator.uri ∧ s = schema := by simpa using hentry
    exact judge_schema ((h x hv (Nat.le_refl _)).mono (Nat.le_add_right n 2)) hp
  | unevaluatedProperties hv =>
    obtain ⟨rfl, rfl⟩ : uri = unevaluated.uri ∧ s = schema := by simpa using hentry
    exact judge_schema ((h x hv (Nat.le_refl _)).mono (Nat.le_add_right n 2)) hp
  | allOf hne hitems =>
    obtain ⟨rfl, rfl⟩ : uri = applicator.uri ∧ s = ref "#/$defs/schemaArray" := by
      simpa using hentry
    refine judge_schemaArray hne (fun y hy => ?_) hp hbase
    exact h y (hitems y hy) (Nat.le_succ_of_le (Json.depth_le_depthItems hy))

theorem isSchema_of_basic {d : Json} (hd : Basic d) : d.isSchema = true := by
  cases hd <;> rfl

theorem accepted_of_children {d : Json} (hd : Basic d)
    (h : ∀ x, Basic x → x.depth < d.depth → Accepted n x) : Accepted (n + 6) d := by
  refine accepted_of_fits (n := n + 3) (isSchema_of_basic hd) (fun k hk r hr => ?_)
  rintro members rfl m hm x hx p hp hbase
  obtain ⟨k, rfl⟩ : ∃ j, k = j + 3 := ⟨k - 3, by omega⟩
  have hkeyword : BasicKeyword m.1 x := by
    cases hd with
    | obj hmembers => exact hmembers (m.1, x) (Fields.mem_of_get? hx)
  have hdepth : x.depth ≤ Json.depthMembers members :=
    Json.depth_le_depthMembers (Fields.mem_of_get? hx)
  have hentry : (r.uri, m.1, m.2) ∈ basicEntries := basicEntries_facts r hr m hm hkeyword.mem
  have hbelow : ∀ y, Basic y → y.depth ≤ x.depth → Accepted k y := by
    intro y hy hle
    exact (h y hy (Nat.lt_succ_of_le (Nat.le_trans hle hdepth))).mono (by omega)
  exact judge_basicEntry hentry hkeyword hbelow hp hbase

theorem accepted_of_basic (d : Json) (hd : Basic d) : Accepted (6 * (d.depth + 1)) d := by
  -- every level of the schema costs as many steps as judging by the schema of schemas
  induction hdepth : d.depth using Nat.strongRecOn generalizing d with
  | ind depth ih =>
    refine accepted_of_children (n := 6 * depth) hd (fun x hx hlt => ?_)
    exact (ih x.depth (hdepth ▸ hlt) x hx rfl).mono (by omega)

/-- The schema of schemas has nothing against basic schemas. -/
theorem findings_of_basic {d : Json} (hd : Basic d) : evaluator.findings d = [] :=
  findings_of_accepted (accepted_of_basic d hd) (Nat.le_refl _)

/-! ## Further keywords -/

/-- The schema of schemas has nothing against a value of a keyword. -/
def Suits (n : Nat) (k : String) (v : Json) : Prop :=
  ∀ r ∈ documents, ∀ s, (k, s) ∈ keywordsOf r → ∀ j, n ≤ j → ∀ p : Place, Rooted p.scope →
    p.scope.base = r.uri → (rules library j).judge p s v = []

/-- Keywords can be put together, each with a value that suits it. -/
theorem accepted_of_suits {members : Fields Json} (h : ∀ m ∈ members, Suits n m.1 m.2) :
    Accepted (n + 3) (.obj members) := by
  refine accepted_of_fits rfl (fun k hk r hr => ?_)
  rintro _ ⟨⟩ ⟨name, s⟩ hs x hx p hp hbase
  exact h (name, x) (Fields.mem_of_get? hx) r hr s hs k hk p hp hbase

theorem accepted_singleton {k : String} {v : Json} (h : Suits n k v) :
    Accepted (n + 3) (.obj [(k, v)]) :=
  accepted_of_suits (fun _ hm => List.mem_singleton.mp hm ▸ h)

/-- The schema of identifiers: texts without fragment. -/
def identifierSchema : Json :=
  Json.ofMembers [("$ref", .str "#/$defs/uriReferenceString"), ("pattern", .str "^[^#]*#?$")]

/-- The schemas of the values of some keywords that basic schemas do not have. -/
def furtherEntries : List (String × String × Json) :=
  [(core.uri, "$id", identifierSchema), (core.uri, "$schema", ref "#/$defs/uriString"),
    (core.uri, "$ref", ref "#/$defs/uriReferenceString"),
    (applicator.uri, "dependentSchemas", mapOf schema), (validation.uri, "const", .bool true)]

theorem furtherEntries_facts : ∀ r ∈ documents, ∀ m ∈ keywordsOf r,
    m.1 ∈ furtherEntries.map (fun e => e.2.1) → (r.uri, m) ∈ furtherEntries := by
  decide +kernel

theorem suits_const (v : Json) : Suits 1 "const" v := by
  intro r hr s hs j hj p _ _
  have hentry := furtherEntries_facts r hr _ hs (show "const" ∈ _ by decide)
  obtain ⟨j, rfl⟩ : ∃ i, j = i + 1 := ⟨j - 1, by omega⟩
  obtain ⟨-, rfl⟩ : r.uri = validation.uri ∧ s = .bool true := by
    simpa [furtherEntries] using hentry
  exact judge_bool_true v

theorem suits_reference (target : String) : Suits 2 "$ref" (.str target) := by
  intro r hr s hs j hj p hp hbase
  have hentry := furtherEntries_facts r hr _ hs (show "$ref" ∈ _ by decide)
  obtain ⟨j, rfl⟩ : ∃ i, j = i + 2 := ⟨j - 2, by omega⟩
  obtain ⟨huri, rfl⟩ : r.uri = core.uri ∧ s = ref "#/$defs/uriReferenceString" := by
    simpa [furtherEntries] using hentry
  have hname : "uriReferenceString" ∈ ["uriString", "uriReferenceString"] := by decide
  exact judge_text target hname hp (hbase.trans huri)

theorem suits_specification (uri : String) : Suits 2 "$schema" (.str uri) := by
  intro r hr s hs j hj p hp hbase
  have hentry := furtherEntries_facts r hr _ hs (show "$schema" ∈ _ by decide)
  obtain ⟨j, rfl⟩ : ∃ i, j = i + 2 := ⟨j - 2, by omega⟩
  obtain ⟨huri, rfl⟩ : r.uri = core.uri ∧ s = ref "#/$defs/uriString" := by
    simpa [furtherEntries] using hentry
  have hname : "uriString" ∈ ["uriString", "uriReferenceString"] := by decide
  exact judge_text uri hname hp (hbase.trans huri)

theorem suits_identifier {uri : String}
    (huri : Assertion.violations "pattern" (.str "^[^#]*#?$") (.str uri) = []) :
    Suits 3 "$id" (.str uri) := by
  intro r hr s hs j hj p hp hbase
  have hentry := furtherEntries_facts r hr _ hs (show "$id" ∈ _ by decide)
  obtain ⟨j, rfl⟩ : ∃ i, j = i + 3 := ⟨j - 3, by omega⟩
  obtain ⟨hcore, rfl⟩ : r.uri = core.uri ∧ s = identifierSchema := by
    simpa [furtherEntries] using hentry
  refine judge_object (fun q hq m hm => ?_)
  have hq : q.scope = p.scope := hq.trans (within_of_keywordText?_none rfl)
  simp only [List.mem_cons, List.not_mem_nil, or_false] at hm
  rcases hm with rfl | rfl
  · have hlookup := lookup_definition core_mem (hq ▸ hbase.trans hcore)
      (show "uriReferenceString" ∈ _ by decide) rfl rfl rfl rfl rfl rfl
    unfold keywordFindings
    rw [hq, hp.known]
    exact reference_eq_nil hlookup (fun _ _ => judge_string uri)
  · exact keywordFindings_assertion (by decide) huri

theorem suits_dependentSchemas {schemas : Fields Json} (h : ∀ m ∈ schemas, Accepted n m.2) :
    Suits (n + 2) "dependentSchemas" (.obj schemas) := by
  intro r hr s hs j hj p hp _
  have hentry := furtherEntries_facts r hr _ hs (show "dependentSchemas" ∈ _ by decide)
  obtain ⟨j, rfl⟩ : ∃ i, j = i + 2 := ⟨j - 2, by omega⟩
  obtain ⟨-, rfl⟩ : r.uri = applicator.uri ∧ s = mapOf schema := by
    simpa [furtherEntries] using hentry
  exact judge_mapOf (fun m hm => (h m hm).mono (by omega)) hp

theorem suits_type (t : JsonType) : Suits 3 "type" (.str t.name) := by
  intro r hr s hs j hj p hp hbase
  have hentry := basicEntries_facts r hr _ hs (show "type" ∈ _ by decide)
  obtain ⟨j, rfl⟩ : ∃ i, j = i + 3 := ⟨j - 3, by omega⟩
  obtain ⟨huri, rfl⟩ : r.uri = validation.uri ∧ s = typeNames := by
    simpa [basicEntries] using hentry
  exact judge_typeNames t hp (hbase.trans huri)

theorem Suits.mono {m : Nat} {k : String} {v : Json} (h : Suits n k v) (hm : n ≤ m) :
    Suits m k v :=
  fun r hr s hs j hj => h r hr s hs j (Nat.le_trans hm hj)

/-- References are schemas, whatever they refer to. -/
theorem accepted_reference (target : String) : Accepted 5 (.obj [("$ref", .str target)]) :=
  accepted_singleton (suits_reference target)

theorem accepted_dependentSchemas {schemas : Fields Json} (h : ∀ m ∈ schemas, Accepted n m.2) :
    Accepted (n + 5) (.obj [("dependentSchemas", .obj schemas)]) :=
  accepted_singleton (suits_dependentSchemas h)

/-- A type beside the name of any specification. -/
theorem accepted_dated (specification : String) (t : JsonType) :
    Accepted 6 (.obj [("$schema", .str specification), ("type", .str t.name)]) := by
  refine accepted_of_suits (List.forall_mem_cons.mpr ⟨?_, List.forall_mem_singleton.mpr ?_⟩)
  · exact (suits_specification specification).mono (by decide)
  · exact suits_type t

end Metaschema

end HttpContract
