import HttpContract.Proofs.Judging

/-!
# What the schema of schemas demands

A document that the schema of schemas has nothing against (`Conforms`) holds such documents again
under the keywords that plans follow, and lists names under `required`. The references between the
documents of the schema of schemas are followed backwards for this: from nothing found against a
document to nothing found against its parts.
-/

namespace HttpContract.Metaschema

open Library Evaluation

/-- A schema within a document of the schema of schemas has nothing against the value. -/
def Passes (uri : String) (s x : Json) : Prop :=
  ∃ (n : Nat) (p : Place), Rooted p.scope ∧ p.scope.base = uri ∧
    (rules library n).judge p s x = []

/-- The schema of schemas has nothing against the document. -/
def Conforms (d : Json) : Prop := Passes specification joined.contents d

theorem rooted_start : Rooted evaluator.start.scope :=
  ⟨(document_facts joined joined_mem).2, ⟨joined, joined_mem, rfl⟩, Or.inl ⟨rfl, rfl⟩⟩

theorem conforms_of_findings {d : Json} (h : evaluator.findings d = []) : Conforms d := by
  have hstart := rooted_start
  unfold Evaluator.findings at h
  -- evaluator and steps are left open, they would be computed otherwise
  generalize evaluator.steps d = n at h
  generalize hevaluator : evaluator = e at h hstart
  rcases e with ⟨l, base, root⟩
  obtain ⟨rfl, rfl, rfl⟩ := Evaluator.mk.inj hevaluator
  exact ⟨n, _, hstart, rfl, h⟩

theorem conforms_of_build {d : Json} {resources : List Resource} {e : Evaluator}
    (h : Evaluator.build d resources = .ok e) : Conforms d := by
  unfold Evaluator.build at h
  cases hfound : evaluator.findings d with
  | nil => exact conforms_of_findings hfound
  | cons f rest =>
    rw [hfound] at h
    dsimp only at h
    split at h <;> cases h

variable {uri : String} {x : Json}

/-! ## Keywords of the schema of schemas -/

/-- A schema that is not a document is read in the scope of its document. -/
theorem Passes.keyword {members : Fields Json} (h : Passes uri (.obj members) x) {k : String}
    {arg : Json} (hm : (k, arg) ∈ members)
    (hid : keywordText? (.obj members) "$id" = none) : ∃ (n : Nat) (p : Place), Rooted p.scope ∧
      p.scope.base = uri ∧ keywordFindings library (rules library n) p members k arg x = [] := by
  rcases h with ⟨n, p, hp, hbase, hnil⟩
  cases n with
  | zero => cases hnil
  | succ n =>
    have hfound := judge_obj_eq_nil_iff.mp hnil (k, arg) hm
    rw [within_of_keywordText?_none hid] at hfound
    exact ⟨n, p, hp, hbase, hfound⟩

theorem Passes.documentKeyword {r : Resource} (hr : r ∈ documents) (h : Passes r.uri r.contents x)
    {k : String} {arg : Json} (hm : (k, arg) ∈ (r.contents.members?).getD []) :
    ∃ (n : Nat) (p : Place), Rooted p.scope ∧ p.scope.base = r.uri ∧
      keywordFindings library (rules library n) p ((r.contents.members?).getD []) k arg x = [] := by
  rcases h with ⟨n, p, hp, hbase, hnil⟩
  cases n with
  | zero => cases hnil
  | succ n =>
    rw [(members_facts r hr).1, judge_obj_eq_nil_iff] at hnil
    have hfound := hnil (k, arg) hm
    rw [← (members_facts r hr).1] at hfound
    exact ⟨n, _, hp.within hr hbase, base_within hr hbase, hfound⟩

/-- What a reference of the schema of schemas means has nothing against the value either. -/
theorem Passes.reference {uri' k target : String} {s : Json}
    (h : Passes uri (.obj [(k, .str target)]) x) (hk : k = "$ref" ∨ k = "$dynamicRef")
    (hlookup : ∀ scope : Scope, Rooted scope → scope.base = uri → ∃ inner, Rooted inner ∧
      inner.base = uri' ∧ library.lookup scope target = .ok (s, inner))
    (hs : s ≠ .obj [(k, .str target)]) : Passes uri' s x := by
  have hid : keywordText? (.obj [(k, .str target)]) "$id" = none := by
    rcases hk with rfl | rfl <;> rfl
  rcases h.keyword List.mem_cons_self hid with ⟨n, p, hp, hbase, hnil⟩
  rcases hlookup p.scope hp hbase with ⟨inner, hinner, hbase', hs'⟩
  have hfound : Evaluation.reference library (rules library n) p [(k, .str target)] k (.str target)
      x = [] := by
    unfold keywordFindings at hnil
    rw [hp.known] at hnil
    rcases hk with rfl | rfl <;> exact hnil
  unfold Evaluation.reference target? at hfound
  dsimp only at hfound
  rw [hs'] at hfound
  dsimp only at hfound
  rw [if_neg hs] at hfound
  exact ⟨n, _, hinner, hbase', hfound⟩

theorem Passes.conforms (h : Passes uri schema x) : Conforms x := by
  refine Passes.reference h (Or.inr rfl) (fun scope hscope _ => ?_) (by decide)
  rcases lookup_meta hscope with ⟨inner, hinner, hbase, hlookup⟩
  exact ⟨inner, hinner, hbase, hlookup⟩

/-- A reference to a definition in the same document. -/
theorem Passes.definition {r : Resource} (hr : r ∈ documents) (name : String)
    (hname : name ∈ definitionNames) {members definitions : Fields Json} {target : Json}
    (hcontents : r.contents = .obj members)
    (hdefinitions : Fields.get? members "$defs" = some (.obj definitions))
    (htarget : Fields.get? definitions name = some target)
    (hid : keywordText? (.obj definitions) "$id" = none) (hid' : keywordText? target "$id" = none)
    (hfollows : followsSpecification target = true) (hne : target ≠ ref ("#/$defs/" ++ name))
    (h : Passes r.uri (ref ("#/$defs/" ++ name)) x) : Passes r.uri target x :=
  Passes.reference h (Or.inl rfl) (fun _ hscope hbase => ⟨_, hscope.enter_known hr, rfl,
    lookup_definition hr hbase hname hcontents hdefinitions htarget hid hid' hfollows⟩) hne

/-- Every member of an object of schemas is one. -/
theorem Passes.mapOf {entries : Fields Json} (h : Passes uri (mapOf schema) (.obj entries)) :
    ∀ m ∈ entries, Conforms m.2 := by
  intro m hm
  obtain ⟨n, p, hp, hbase, hnil⟩ :=
    h.keyword (by decide : ("additionalProperties", schema) ∈ _) (by decide)
  rw [keywordFindings_additionalProperties hp.known, additionalProperties_eq_nil_iff (by decide)]
    at hnil
  exact Passes.conforms ⟨n, (p.keyword "additionalProperties").part m.1, hp, hbase,
    ((hnil m hm).2 rfl).2⟩

/-- Every item satisfies the schema of items. -/
theorem Passes.items {members : Fields Json} {s : Json} {xs : List Json}
    (h : Passes uri (.obj members) (.arr xs)) (hm : ("items", s) ∈ members)
    (hid : keywordText? (.obj members) "$id" = none) (hcount : leadingCount members = 0) :
    ∀ y ∈ xs, Passes uri s y := by
  intro y hy
  rcases List.mem_iff_getElem?.mp hy with ⟨i, hi⟩
  rcases h.keyword hm hid with ⟨n, p, hp, hbase, hnil⟩
  rw [keywordFindings_items hp.known, remainingItems_eq_nil_iff, hcount] at hnil
  exact ⟨n, (p.keyword "items").part (toString i), hp, hbase, hnil i y (Nat.zero_le _) hi⟩

theorem Passes.type {members : Fields Json} {t : Json} (h : Passes uri (.obj members) x)
    (hm : ("type", t) ∈ members) (hid : keywordText? (.obj members) "$id" = none) :
    Assertion.typeViolations t x = [] := by
  rcases h.keyword hm hid with ⟨n, p, hp, -, hnil⟩
  exact (type_eq_nil_iff hp.known).mp hnil

theorem Passes.schemaArray (h : Passes applicator.uri (ref "#/$defs/schemaArray") x) :
    ∃ xs, x = .arr xs ∧ ∀ y ∈ xs, Conforms y := by
  have harray := Passes.definition applicator_mem "schemaArray" (by decide)
    rfl rfl rfl rfl rfl rfl (by decide) h
  have htype := Passes.type harray (t := .str "array") (by decide) rfl
  cases x with
  | arr xs =>
    exact ⟨xs, rfl, fun y hy =>
      (Passes.items harray (s := schema) (by decide) rfl rfl y hy).conforms⟩
  | _ => cases htype

/-- What has the type of texts is a text. -/
theorem exists_str_of_typed (h : Passes uri (typed "string") x) : ∃ s, x = .str s := by
  have htype := Passes.type h (t := .str "string") (by decide) rfl
  cases x with
  | str s => exact ⟨s, rfl⟩
  | _ => cases htype

theorem Passes.stringArray (h : Passes validation.uri (ref "#/$defs/stringArray") x) :
    ∃ names, x = .arr names ∧ ∀ y ∈ names, ∃ s, y = .str s := by
  have harray := Passes.definition validation_mem "stringArray" (by decide)
    rfl rfl rfl rfl rfl rfl (by decide) h
  have htype := Passes.type harray (t := .str "array") (by decide) rfl
  cases x with
  | arr names =>
    exact ⟨names, rfl, fun y hy => exists_str_of_typed
      (Passes.items harray (s := typed "string") (by decide) rfl rfl y hy)⟩
  | _ => cases htype

/-! ## Keywords of conforming documents -/

theorem exists_of_mem_keywordsOf {r : Resource} {m : String × Json} (h : m ∈ keywordsOf r) :
    ∃ keywords, ("properties", .obj keywords) ∈ (r.contents.members?).getD [] ∧ m ∈ keywords := by
  unfold keywordsOf at h
  cases hcontents : r.contents with
  | obj members =>
    rw [hcontents] at h
    cases hget : Fields.get? members "properties" with
    | none =>
      rw [Json.get?, hget] at h
      cases h
    | some v =>
      rw [Json.get?, hget] at h
      cases v with
      | obj keywords => exact ⟨keywords, Fields.mem_of_get? hget, h⟩
      | _ => cases h
  | _ =>
    rw [hcontents] at h
    cases h

theorem joined_facts :
    ("allOf", .arr (vocabularies.map (fun v => ref v.uri))) ∈ (joined.contents.members?).getD [] ∧
      ("type", .arr [.str "object", .str "boolean"]) ∈ (joined.contents.members?).getD [] := by
  decide +kernel

theorem applicator_facts :
    (∀ k ∈ ["additionalProperties", "items", "if", "then", "else", "not"],
      (k, schema) ∈ keywordsOf applicator) ∧
      (∀ k ∈ ["properties", "patternProperties"], (k, mapOf schema) ∈ keywordsOf applicator) ∧
      ∀ k ∈ ["prefixItems", "allOf", "anyOf", "oneOf"],
        (k, ref "#/$defs/schemaArray") ∈ keywordsOf applicator := by
  decide +kernel

theorem applicator_mem_vocabularies : applicator ∈ vocabularies :=
  List.mem_cons_of_mem _ List.mem_cons_self

theorem validation_mem_vocabularies : validation ∈ vocabularies :=
  List.mem_cons_of_mem _ (List.mem_cons_of_mem _ (List.mem_cons_of_mem _ List.mem_cons_self))

/-- What a document of the schema of schemas says about a keyword. -/
theorem Passes.entry {r : Resource} (hr : r ∈ documents) {members : Fields Json}
    (h : Passes r.uri r.contents (.obj members)) {k : String} {s v : Json}
    (hk : (k, s) ∈ keywordsOf r) (hv : Fields.get? members k = some v) : Passes r.uri s v := by
  rcases exists_of_mem_keywordsOf hk with ⟨keywords, hkeywords, hk⟩
  rcases h.documentKeyword hr hkeywords with ⟨n, p, hp, hbase, hnil⟩
  rw [keywordFindings_properties hp.known (members_facts r hr).2.1, properties_eq_nil_iff] at hnil
  exact ⟨n, (p.entry "properties" k).part k, hp, hbase, hnil (k, s) hk v hv⟩

/-- Each vocabulary has nothing against a conforming document. -/
theorem Conforms.vocabulary {d : Json} (h : Conforms d) {v : Resource} (hv : v ∈ vocabularies) :
    Passes v.uri v.contents d := by
  have hmem : v ∈ documents := List.mem_cons_of_mem _ hv
  rcases Passes.documentKeyword joined_mem h joined_facts.1 with ⟨n, p, hp, hbase, hnil⟩
  rw [allOf_eq_nil_iff hp.known] at hnil
  rcases List.mem_iff_getElem?.mp hv with ⟨i, hi⟩
  have href : Passes specification (ref v.uri) d :=
    ⟨n, p.entry "allOf" (toString i), hp, hbase,
      hnil i (ref v.uri) (by rw [List.getElem?_map, hi]; rfl)⟩
  refine Passes.reference href (Or.inl rfl) (fun scope hscope _ =>
    ⟨_, hscope.enter_known hmem, rfl, lookup_vocabulary hv⟩) ?_
  -- a reference names itself nothing
  intro heq
  have hid := (document_facts v hmem).1
  rw [heq] at hid
  cases hid

theorem Conforms.isSchema {d : Json} (h : Conforms d) : d.isSchema = true := by
  rcases Passes.documentKeyword joined_mem h joined_facts.2 with ⟨n, p, hp, -, hnil⟩
  have htype := (type_eq_nil_iff hp.known).mp hnil
  cases d with
  | obj members => rfl
  | bool b => rfl
  | _ => cases htype

section

variable {members : Fields Json} (h : Conforms (.obj members)) {k : String}

include h

theorem Conforms.single
    (hk : k ∈ ["additionalProperties", "items", "if", "then", "else", "not"]) {d : Json}
    (hd : Fields.get? members k = some d) : Conforms d :=
  (Passes.entry applicator_mem (h.vocabulary applicator_mem_vocabularies)
    (applicator_facts.1 k hk) hd).conforms

theorem Conforms.named (hk : k ∈ ["properties", "patternProperties"]) {entries : Fields Json}
    (hentries : Fields.get? members k = some (.obj entries)) : ∀ m ∈ entries, Conforms m.2 :=
  (Passes.entry applicator_mem (h.vocabulary applicator_mem_vocabularies)
    (applicator_facts.2.1 k hk) hentries).mapOf

theorem Conforms.listed (hk : k ∈ ["prefixItems", "allOf", "anyOf", "oneOf"]) {v : Json}
    (hv : Fields.get? members k = some v) : ∃ xs, v = .arr xs ∧ ∀ x ∈ xs, Conforms x :=
  (Passes.entry applicator_mem (h.vocabulary applicator_mem_vocabularies)
    (applicator_facts.2.2 k hk) hv).schemaArray

theorem Conforms.required {v : Json} (hv : Fields.get? members "required" = some v) :
    ∃ names, v = .arr names ∧ ∀ y ∈ names, ∃ s, y = .str s :=
  (Passes.entry validation_mem (h.vocabulary validation_mem_vocabularies) (by decide +kernel)
    hv).stringArray

end

end HttpContract.Metaschema
