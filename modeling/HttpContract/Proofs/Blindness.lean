import HttpContract.Proofs.References

/-!
# The schema of schemas does not look at references

A schema satisfies the schema of schemas whatever its references are: it has to be a text that
stands under `$ref`, and every schema that is applied to such a place judges all texts alike
(`blind`). So documents that differ in their references alone are accepted alike
(`Metaschema.isEmpty_findings_relinkAt`).
-/

namespace HttpContract

namespace Json

variable {f : String → String}

mutual

theorem equivalent_relinkAt (hf : Function.Injective f) : ∀ (k : String) (x y : Json),
    equivalent (relinkAt f k x) (relinkAt f k y) = equivalent x y
  | k, .arr xs, y => by
    cases y with
    | arr ys =>
      rw [relinkAt, relinkAt, equivalent, equivalent]
      exact equivalentItems_relinkItems hf xs ys
    | str s => simp [relinkAt_str, equivalent]
    | _ => simp [equivalent]
  | k, .obj ms, y => by
    cases y with
    | obj ns =>
      rw [relinkAt, relinkAt, equivalent, equivalent]
      exact equivalentMembers_relinkMembers hf ms ns
    | str s => simp [relinkAt_str, equivalent]
    | _ => simp [equivalent]
  | k, .str s, y => by
    cases y with
    | str t =>
      rw [relinkAt_str, relinkAt_str, equivalent, equivalent]
      split
      · rw [Bool.eq_iff_iff, beq_iff_eq, beq_iff_eq]
        exact hf.eq_iff
      · rfl
    | _ => simp [relinkAt_str, equivalent]
  | k, .null, y => by cases y <;> simp [relinkAt_str, equivalent]
  | k, .bool b, y => by cases y <;> simp [relinkAt_str, equivalent]
  | k, .num n, y => by cases y <;> simp [relinkAt_str, equivalent]
termination_by structural _ x => x

theorem equivalentItems_relinkItems (hf : Function.Injective f) : ∀ xs ys : List Json,
    equivalentItems (relinkItems f xs) (relinkItems f ys) = equivalentItems xs ys
  | [], [] => rfl
  | [], _ :: _ => by rw [relinkItems, relinkItems, equivalentItems, equivalentItems] <;> simp
  | _ :: _, [] => by rw [relinkItems, relinkItems, equivalentItems, equivalentItems] <;> simp
  | x :: xs, y :: ys => by
    rw [relinkItems, relinkItems, equivalentItems, equivalentItems, equivalent_relinkAt hf,
      equivalentItems_relinkItems hf xs ys]
termination_by structural xs => xs

theorem equivalentMembers_relinkMembers (hf : Function.Injective f) :
    ∀ ms ns : List (String × Json),
      equivalentMembers (relinkMembers f ms) (relinkMembers f ns) = equivalentMembers ms ns
  | [], [] => rfl
  | [], _ :: _ => by
    rw [relinkMembers, relinkMembers, equivalentMembers, equivalentMembers] <;> simp
  | _ :: _, [] => by
    rw [relinkMembers, relinkMembers, equivalentMembers, equivalentMembers] <;> simp
  | (k, x) :: ms, (l, y) :: ns => by
    rw [relinkMembers, relinkMembers, equivalentMembers, equivalentMembers,
      equivalentMembers_relinkMembers hf ms ns]
    by_cases hkl : k = l
    · subst hkl
      rw [equivalent_relinkAt hf]
    · rw [beq_eq_false_iff_ne.mpr hkl, Bool.false_and, Bool.false_and, Bool.false_and,
        Bool.false_and]
termination_by structural ms => ms

end

theorem allDistinct_relink (hf : Function.Injective f) (xs : List Json) :
    Assertion.allDistinct (xs.map (relinkAt f "")) = Assertion.allDistinct xs := by
  induction xs with
  | nil => rfl
  | cons x rest ih =>
    rw [List.map_cons, Assertion.allDistinct, Assertion.allDistinct, ih, List.all_map]
    congr 2
    funext y
    exact congrArg not (equivalent_relinkAt hf "" x y)

theorem hasType_relinkAt (k : String) (v : Json) (name : String) :
    Assertion.hasType (relinkAt f k v) name = Assertion.hasType v name := by
  unfold Assertion.hasType
  cases JsonType.ofName? name with
  | none => rfl
  | some t => cases v <;> cases t <;> simp [relinkAt_str, JsonType.admits]

end Json

namespace Metaschema

open Library Evaluation Json

/-! ## The schemas of the schema of schemas -/

/-- A schema and the schemas within it, `fuel` levels deep. -/
def schemasWithin : (fuel : Nat) → Json → List Json
  | 0, _ => []
  | fuel + 1, d => d :: (subschemas d).flatMap (schemasWithin fuel)

/-- The schemas that schemas are judged by. -/
def judging : List Json := documents.flatMap (fun r => schemasWithin 8 r.contents)

/-- Schemas that judge all texts alike. -/
def blind : List Json :=
  documents.map (·.contents) ++ vocabularies.map (fun v => ref v.uri) ++
    [schema, typed "boolean", typed "string", ref "#/$defs/uriReferenceString",
      ref "#/$defs/stringArray", ref (vocabularyUri "validation" ++ "#/$defs/stringArray"),
      object [("anyOf",
        .arr [schema, ref (vocabularyUri "validation" ++ "#/$defs/stringArray")])],
      object [("type", .str "array"), ("items", typed "string"), ("uniqueItems", .bool true)]]

/-- The steps of the pointer in a reference. -/
def tokensOf (reference : String) : List String :=
  let fragment := String.ofList ((Uri.cutAt (· == '#') reference.toList).2.getD [])
  (Uri.segments ((Percent.decodeText? fragment).getD fragment)).drop 1

/-- What a pointer leads to in a document. -/
def pointed (tokens : List String) (d : Json) : Option Json :=
  (followPointer "" d ⟨"", [], true⟩ tokens).toOption.map (·.1)

/-- The references of a schema. -/
def referencesOf (members : Fields Json) : List String :=
  (members.filter (fun m => m.1 = "$ref" ∨ m.1 = "$dynamicRef")).filterMap (·.2.text?)

/-- A list of schemas that references from them do not leave. -/
structure Enclosed (L : List Json) : Prop where
  documents : ∀ r ∈ documents, r.contents ∈ L
  pointed : ∀ d ∈ L, ∀ reference ∈ referencesOf ((d.members?).getD []),
    ∀ r ∈ Metaschema.documents, ∀ t, pointed (tokensOf reference) r.contents = some t → t ∈ L

theorem depth_lt_of_mem_subschemas {d s : Json} (h : s ∈ subschemas d) : s.depth < d.depth := by
  rcases inner_of_mem_subschemas h with ⟨members, rfl, hinner⟩
  exact hinner.depth_lt

theorem mem_schemasWithin {n : Nat} {d : Json} (h : d.depth < n) : d ∈ schemasWithin n d := by
  cases n with
  | zero => exact absurd h (Nat.not_lt_zero _)
  | succ n => exact List.mem_cons_self

theorem subschemas_schemasWithin : ∀ (n : Nat) {d : Json}, d.depth < n →
    ∀ s ∈ schemasWithin n d, ∀ t ∈ subschemas s, t ∈ schemasWithin n d
  | 0, _, h => absurd h (Nat.not_lt_zero _)
  | n + 1, d, h => by
    intro s hs t ht
    refine List.mem_cons_of_mem _ ?_
    rcases List.mem_cons.mp hs with rfl | hs
    · have hlt := depth_lt_of_mem_subschemas ht
      exact List.mem_flatMap.mpr ⟨t, ht, mem_schemasWithin (by omega)⟩
    · rcases List.mem_flatMap.mp hs with ⟨u, hu, hs⟩
      have hlt := depth_lt_of_mem_subschemas hu
      exact List.mem_flatMap.mpr ⟨u, hu, subschemas_schemasWithin n (by omega) s hs t ht⟩

theorem depth_documents : ∀ r ∈ documents, r.contents.depth < 8 := by decide +kernel

theorem subschemas_judging {d s : Json} (hd : d ∈ judging) (hs : s ∈ subschemas d) :
    s ∈ judging := by
  rcases List.mem_flatMap.mp hd with ⟨r, hr, hd⟩
  exact List.mem_flatMap.mpr ⟨r, hr, subschemas_schemasWithin 8 (depth_documents r hr) d hd s hs⟩

/-- References of the schemas that schemas are judged by. -/
def references : List String :=
  ["#meta", "#/$defs/anchorString", "#/$defs/uriReferenceString", "#/$defs/uriString",
    "#/$defs/schemaArray", "#/$defs/stringArray", "#/$defs/nonNegativeInteger",
    "#/$defs/simpleTypes", vocabularyUri "core" ++ "#/$defs/anchorString",
    vocabularyUri "core" ++ "#/$defs/uriReferenceString",
    vocabularyUri "validation" ++ "#/$defs/stringArray"] ++ vocabularies.map (·.uri)

/-- Keywords of the schema of schemas that look at a value alone, or say nothing about it. -/
def asserting : List String :=
  ["type", "enum", "uniqueItems", "minItems", "pattern", "minimum", "exclusiveMinimum", "$id",
    "$schema", "$dynamicAnchor", "$defs"]

/-- What the keywords of a schema look like, for references not to matter to it: whatever is applied
to what stands under `$ref` judges all texts alike. -/
def Suited (d : Json) (k : String) (arg : Json) : Prop :=
  (k ∈ asserting ∨ k ∈ ["$ref", "$dynamicRef", "allOf", "anyOf", "properties",
    "additionalProperties", "propertyNames", "items"]) ∧
  (k = "properties" →
    ∀ e ∈ ((arg.members?).getD []).filter (fun e => e.1 = "$ref"), e.2 ∈ blind) ∧
  (k = "additionalProperties" →
    arg ∈ blind ∧ d.get? "properties" = none ∧ d.get? "patternProperties" = none) ∧
  (k = "propertyNames" → (arg.members?).isSome = true) ∧
  (k = "enum" → ∀ x ∈ (arg.items?).getD [], (x.text?).isSome = true)

instance (d : Json) (k : String) (arg : Json) : Decidable (Suited d k arg) := by
  unfold Suited
  infer_instance

-- The facts about the schemas that schemas are judged by are found in one run through them.
theorem judging_spec : ∀ d ∈ judging,
    (∀ reference ∈ referencesOf ((d.members?).getD []), reference ∈ references) ∧
      ∀ m ∈ (d.members?).getD [], Suited d m.1 m.2 := by
  decide +kernel

/-- The pointers in these references. -/
def pointers : List (List String) :=
  [] :: ["anchorString", "uriReferenceString", "uriString", "schemaArray", "stringArray",
    "nonNegativeInteger", "simpleTypes"].map (fun name => ["$defs", name])

theorem tokensOf_references : ∀ reference ∈ references, tokensOf reference ∈ pointers := by
  decide +kernel

theorem pointed_pointers : ∀ tokens ∈ pointers, ∀ r ∈ documents,
    ∀ t ∈ (pointed tokens r.contents).toList, t = r.contents ∨ t ∈ subschemas r.contents := by
  decide +kernel

theorem enclosed_judging : Enclosed judging := by
  have hdocuments : ∀ r ∈ documents, r.contents ∈ judging := fun r hr =>
    List.mem_flatMap.mpr ⟨r, hr, mem_schemasWithin (depth_documents r hr)⟩
  refine ⟨hdocuments, fun d hd reference hreference r hr t ht => ?_⟩
  have htokens := tokensOf_references reference ((judging_spec d hd).1 reference hreference)
  rcases pointed_pointers _ htokens r hr t (Option.mem_toList.mpr ht) with rfl | hs
  · exact hdocuments r hr
  · exact subschemas_judging (hdocuments r hr) hs

theorem tokensOf_blind : ∀ d ∈ blind, ∀ reference ∈ referencesOf ((d.members?).getD []),
    tokensOf reference ∈ [[], ["$defs", "uriReferenceString"], ["$defs", "stringArray"]] := by
  decide +kernel

theorem pointed_blind : ∀ tokens ∈ [[], ["$defs", "uriReferenceString"], ["$defs", "stringArray"]],
    ∀ r ∈ documents, ∀ t ∈ (pointed tokens r.contents).toList, t ∈ blind := by
  decide +kernel

theorem enclosed_blind : Enclosed blind where
  documents _ hr := List.mem_append_left _ (List.mem_append_left _ (List.mem_map_of_mem hr))
  pointed d hd reference hreference _ hr t ht :=
    pointed_blind _ (tokensOf_blind d hd reference hreference) _ hr t (Option.mem_toList.mpr ht)

/-- What a pointer leads to does not depend on the scope. -/
theorem pointed_of_followPointer {pointer : String} : ∀ (tokens : List String) {d t : Json}
    {s s' : Scope}, followPointer pointer d s tokens = .ok (t, s') → pointed tokens d = some t := by
  have hscope : ∀ (tokens : List String) {d t : Json} {s s' : Scope} (u : Scope),
      followPointer pointer d s tokens = .ok (t, s') →
        ∃ u', followPointer "" d u tokens = .ok (t, u') := by
    intro tokens
    induction tokens with
    | nil =>
      intro d t s s' u h
      rw [followPointer] at h ⊢
      obtain ⟨rfl, rfl⟩ := Prod.mk.inj (Except.ok.inj h)
      exact ⟨u, rfl⟩
    | cons token rest ih =>
      intro d t s s' u h
      unfold followPointer at h ⊢
      split at h
      · split at h
        · cases h
        · split at h
          · exact ih _ h
          · cases h
      · split at h
        · exact ih _ h
        · cases h
  intro tokens d t s s' h
  rcases hscope tokens ⟨"", [], true⟩ h with ⟨u', hu'⟩
  unfold pointed
  rw [hu']
  rfl

theorem mem_documents_of_document? {uri : String} {d : Json}
    (h : library.document? uri = some d) : ∃ r ∈ documents, r.contents = d := by
  rcases Option.map_eq_some_iff.mp h with ⟨r, hr, rfl⟩
  exact ⟨r, List.mem_of_find?_eq_some hr, rfl⟩

theorem mem_documents_of_anchor? {uri name : String} {a : Anchor}
    (h : library.anchor? uri name = some a) : ∃ r ∈ documents, r.contents = a.contents := by
  rcases List.mem_map.mp (List.mem_of_find?_eq_some h) with ⟨r, hr, rfl⟩
  exact ⟨r, hr, rfl⟩

theorem mem_documents_of_anchored {a : Anchor} (ha : ∃ r ∈ documents, r.contents = a.contents)
    (s : Scope) : ∃ r ∈ documents, r.contents = (library.anchored a s).1 := by
  unfold anchored
  split
  · have hfold : ∀ (f : Json × Scope → String → Json × Scope),
        (∀ b, (∃ r ∈ documents, r.contents = b.1) → ∀ uri ∈ s.outer,
          ∃ r ∈ documents, r.contents = (f b uri).1) →
            ∃ r ∈ documents, r.contents = (s.outer.foldl f (a.contents, s)).1 :=
      fun f hf => List.foldlRecOn s.outer f ha hf
    refine hfold _ (fun b hb uri _ => ?_)
    split
    · next b' hb' =>
      split
      · exact mem_documents_of_anchor? hb'
      · exact hb
    · exact hb
  · exact ha

/-- References lead from the schemas of an enclosed list to schemas in it. -/
theorem Enclosed.lookup {L : List Json} (hL : Enclosed L) {d : Json} (hd : d ∈ L)
    {reference : String} (hreference : reference ∈ referencesOf ((d.members?).getD []))
    {s s' : Scope} {t : Json} (h : library.lookup s reference = .ok (t, s')) : t ∈ L := by
  have hpointed := hL.pointed d hd reference hreference
  unfold tokensOf at hpointed
  unfold Library.lookup at h
  generalize Uri.cutAt (· == '#') reference.toList = cut at h hpointed
  rcases cut with ⟨front, fragment⟩
  dsimp only at h hpointed
  split at h
  · cases h
  · next contents hcontents =>
    rcases mem_documents_of_document? hcontents with ⟨r, hr, rfl⟩
    split at h
    · rcases bind_eq_ok h with ⟨b, hb, h⟩
      obtain ⟨rfl, -⟩ := Prod.mk.inj (Except.ok.inj h)
      exact hpointed r hr _ (pointed_of_followPointer _ hb)
    · split at h
      · obtain ⟨rfl, -⟩ := Prod.mk.inj (Except.ok.inj h)
        exact hL.documents r hr
      · split at h
        · next a ha =>
          rcases mem_documents_of_anchored (mem_documents_of_anchor? ha) _ with ⟨r', hr', heq⟩
          obtain ⟨rfl, -⟩ := Prod.mk.inj (Except.ok.inj h)
          exact heq ▸ hL.documents r' hr'
        · cases h

theorem Enclosed.target? {L : List Json} (hL : Enclosed L) {members : Fields Json}
    (hd : Json.obj members ∈ L) {p q : Place} {k : String} {arg t : Json}
    (hm : (k, arg) ∈ members) (hk : k = "$ref" ∨ k = "$dynamicRef")
    (h : target? library p members k arg = some (q, t)) : t ∈ L := by
  cases arg with
  | str reference =>
    have hreference : reference ∈ referencesOf (((Json.obj members).members?).getD []) :=
      List.mem_filterMap.mpr ⟨_, List.mem_filter.mpr ⟨hm, by simpa using hk⟩, rfl⟩
    unfold Evaluation.target? at h
    dsimp only at h
    split at h
    · next s scope hlookup =>
      split at h
      · cases h
      · obtain ⟨-, rfl⟩ := Prod.mk.inj (Option.some.inj h)
        exact hL.lookup hd hreference hlookup
    · cases h
  | _ => cases h

/-! ## Judging texts -/

theorem members_blind : ∀ d ∈ blind, (d.members?).isSome = true ∧
    ∀ m ∈ (d.members?).getD [],
      m.1 ∈ ["$ref", "$dynamicRef", "allOf", "anyOf", "type", "properties", "uniqueItems", "items",
        "$id", "$schema", "$dynamicAnchor", "$defs"] ∧
      (m.1 = "allOf" ∨ m.1 = "anyOf" → ∀ s ∈ (m.2.items?).getD [], s ∈ blind) := by
  decide +kernel

theorem mem_of_mem_branches {p : Place} {k : String} {arg : Json} {b : Place × Json}
    (h : b ∈ branches p k arg) : b.2 ∈ (arg.items?).getD [] := by
  rcases List.mem_map.mp h with ⟨x, hx, rfl⟩
  exact mem_of_mem_indexed hx

variable {r : Rules}

section

variable {v w : Json} {L : List Json} (hr : ∀ d ∈ L, ∀ p, r.valid p d v = r.valid p d w)

include hr

/-- Of two values that the schemas of a list judge alike, both satisfy all branches or neither. -/
theorem isEmpty_branches {p : Place} {k : String} {arg : Json}
    (hL : ∀ s ∈ (arg.items?).getD [], s ∈ L) :
    ((branches p k arg).flatMap (fun (q, s) => r.judge q s v)).isEmpty =
      ((branches p k arg).flatMap (fun (q, s) => r.judge q s w)).isEmpty :=
  isEmpty_flatMap_congr (fun b hb => hr b.2 (hL _ (mem_of_mem_branches hb)) b.1)

theorem isEmpty_anyOf {p : Place} {arg : Json} (hL : ∀ s ∈ (arg.items?).getD [], s ∈ L) :
    (anyOf r p arg v).isEmpty = (anyOf r p arg w).isEmpty := by
  have hany : (branches p "anyOf" arg).any (fun (q, s) => r.valid q s v) =
      (branches p "anyOf" arg).any (fun (q, s) => r.valid q s w) := by
    rw [Bool.eq_iff_iff, List.any_eq_true, List.any_eq_true]
    refine exists_congr (fun b => and_congr_right (fun hb => ?_))
    dsimp only
    rw [hr b.2 (hL _ (mem_of_mem_branches hb))]
  unfold anyOf
  rw [hany]
  split <;> rfl

theorem isEmpty_reference (henclosed : Enclosed L) {members : Fields Json}
    (hd : Json.obj members ∈ L) {p : Place} {k : String} {arg : Json} (hm : (k, arg) ∈ members)
    (hk : k = "$ref" ∨ k = "$dynamicRef") :
    (reference library r p members k arg v).isEmpty =
      (reference library r p members k arg w).isEmpty := by
  unfold reference
  cases htarget : Evaluation.target? library p members k arg with
  | none => rfl
  | some b => exact hr b.2 (henclosed.target? hd hm hk htarget) b.1

end

theorem hasType_str (s s' name : String) :
    Assertion.hasType (.str s) name = Assertion.hasType (.str s') name := by
  unfold Assertion.hasType
  cases JsonType.ofName? name with
  | none => rfl
  | some t => cases t <;> rfl

theorem isEmpty_typeViolations {arg v w : Json}
    (h : ∀ name, Assertion.hasType v name = Assertion.hasType w name) :
    (Assertion.typeViolations arg v).isEmpty = (Assertion.typeViolations arg w).isEmpty := by
  have hfun : Assertion.hasType v = Assertion.hasType w := funext h
  unfold Assertion.typeViolations
  rw [hfun]
  dsimp only
  split
  all_goals split <;> rfl

theorem valid_text : ∀ (n : Nat), ∀ d ∈ blind, ∀ (p : Place) (s s' : String),
    (rules library n).valid p d (.str s) = (rules library n).valid p d (.str s')
  | 0, _, _, _, _, _ => rfl
  | n + 1, d, hd, p, s, s' => by
    rcases members_blind d hd with ⟨hobj, hmembers⟩
    cases d with
    | obj members =>
      refine isEmpty_flatMap_congr (fun m hm => ?_)
      rcases m with ⟨k, arg⟩
      rcases hmembers _ hm with ⟨hk, hinner⟩
      have hr := fun d hd p => valid_text n d hd p s s'
      generalize ({ p with scope := p.scope.within (.obj members) } : Place) = q
      dsimp only at hk hinner ⊢
      unfold keywordFindings
      split
      · rfl
      simp only [List.mem_cons, List.not_mem_nil, or_false] at hk
      rcases hk with rfl | rfl | rfl | rfl | rfl | rfl | rfl | hk
      · exact isEmpty_reference hr enclosed_blind hd hm (.inl rfl)
      · exact isEmpty_reference hr enclosed_blind hd hm (.inr rfl)
      · exact isEmpty_branches hr (hinner (.inl rfl))
      · exact isEmpty_anyOf hr (hinner (.inr rfl))
      · show ((Assertion.typeViolations arg (.str s)).map _).isEmpty =
          ((Assertion.typeViolations arg (.str s')).map _).isEmpty
        rw [List.isEmpty_map, List.isEmpty_map]
        exact isEmpty_typeViolations (hasType_str s s')
      · show (if takesOver members then [] else properties _ q arg (.str s)).isEmpty =
          (if takesOver members then [] else properties _ q arg (.str s')).isEmpty
        split <;> rfl
      · show ((Assertion.violations "uniqueItems" arg (.str s)).map _).isEmpty =
          ((Assertion.violations "uniqueItems" arg (.str s')).map _).isEmpty
        cases arg with
        | bool b => cases b <;> rfl
        | _ => rfl
      · -- the other keywords say nothing about texts
        rcases hk with rfl | rfl | rfl | rfl | rfl <;> rfl
    | _ => cases hobj

/-! ## Judging documents -/

theorem mem_judging_of_member {members : Fields Json} (hd : Json.obj members ∈ judging)
    {k : String} {arg s : Json} (hm : (k, arg) ∈ members)
    (hs : s ∈ (if schemaKeywords.contains k then [arg]
      else if listKeywords.contains k then (arg.items?).getD []
      else if mapKeywords.contains k then Fields.values ((arg.members?).getD [])
      else [])) : s ∈ judging :=
  subschemas_judging hd (List.mem_flatMap.mpr ⟨_, hm, hs⟩)

/-- Rules for which the references in the value do not matter. -/
structure Blind (f : String → String) (r : Rules) : Prop where
  documents : ∀ d ∈ judging, ∀ (p : Place) (v : Json), r.valid p d v = r.valid p d (relink f v)
  texts : ∀ d ∈ blind, ∀ (p : Place) (s s' : String),
    r.valid p d (.str s) = r.valid p d (.str s')

variable {f : String → String} {p : Place} {members : Fields Json} {arg v : Json}

namespace Blind

/-- Wherever a part of a document stands, its references do not matter to the schemas that judge
what stands there. -/
theorem valid_relinkAt (h : Blind f r) {d : Json} (hd : d ∈ judging) {k : String}
    (hk : k = "$ref" → d ∈ blind) (p : Place) (v : Json) :
    r.valid p d v = r.valid p d (relinkAt f k v) := by
  by_cases heq : k = "$ref"
  · cases v with
    | str s =>
      rw [relinkAt_str]
      exact h.texts d (hk heq) p _ _
    | arr xs =>
      rw [h.documents d hd p, relink, relinkAt_arr, relinkAt_arr]
    | obj ms =>
      rw [h.documents d hd p, relink, relinkAt_obj, relinkAt_obj]
    | _ => rfl
  · rw [relinkAt_of_ne heq]
    exact h.documents d hd p v

theorem isEmpty_properties (h : Blind f r)
    (hnamed : ∀ e ∈ (arg.members?).getD [], e.2 ∈ judging ∧ (e.1 = "$ref" → e.2 ∈ blind)) :
    (properties r p arg v).isEmpty = (properties r p arg (relink f v)).isEmpty := by
  cases v with
  | obj ms =>
    cases arg with
    | obj schemas =>
      rw [relink, relinkAt_obj]
      refine isEmpty_flatMap_congr (fun e he => ?_)
      rcases e with ⟨name, s⟩
      rcases hnamed _ he with ⟨hs, hblind⟩
      dsimp only
      rw [get?_relinkMembers]
      cases Fields.get? ms name with
      | none => rfl
      | some x => exact h.valid_relinkAt hs hblind _ x
    | _ => rfl
  | str s => rw [relink_str]
  | arr xs => rw [relink, relinkAt_arr]; rfl
  | _ => rfl

theorem isEmpty_additionalProperties (h : Blind f r) (harg : arg ∈ judging) (hblind : arg ∈ blind)
    (hnamed : Fields.get? members "properties" = none)
    (hpatterns : Fields.get? members "patternProperties" = none) :
    (additionalProperties r p members arg v).isEmpty =
      (additionalProperties r p members arg (relink f v)).isEmpty := by
  cases htakes : takesOver members with
  | false => simp [additionalProperties, htakes]
  | true =>
    cases v with
    | obj ms =>
      have hdeclared : ∀ name, declaredFor p members name = [] := by
        intro name
        simp [declaredFor, hnamed, hpatterns, matching]
      rw [relink, relinkAt_obj, Bool.eq_iff_iff, List.isEmpty_iff, List.isEmpty_iff,
        additionalProperties_eq_nil_iff htakes, additionalProperties_eq_nil_iff htakes,
        forall_mem_relinkMembers]
      refine forall₂_congr (fun m _ => ?_)
      simp only [hdeclared, List.not_mem_nil, false_implies, implies_true, true_and, true_implies]
      refine and_congr_right (fun _ => ?_)
      rw [← List.isEmpty_iff, ← List.isEmpty_iff]
      exact Eq.congr_left (h.valid_relinkAt harg (fun _ => hblind) _ m.2)
    | str s => rw [relink_str]
    | arr xs => rw [relink, relinkAt_arr]; simp [additionalProperties]
    | _ => rfl

theorem isEmpty_propertyNames (harg : (arg.members?).isSome = true) :
    (propertyNames r p arg v).isEmpty = (propertyNames r p arg (relink f v)).isEmpty := by
  cases arg with
  | obj schema =>
    cases v with
    | obj ms =>
      have hnames : ∀ entries : Fields Json, propertyNames r p (.obj schema) (.obj entries) =
          entries.flatMap (fun m => r.judge (p.keyword "propertyNames") (.obj schema) (.str m.1)) := by
        intro entries
        cases entries <;> rfl
      rw [relink, relinkAt_obj, hnames, hnames, flatMap_relinkMembers]
    | str s => rw [relink_str]
    | arr xs => rw [relink, relinkAt_arr]; rfl
    | _ => rfl
  | _ => cases harg

theorem isEmpty_remainingItems (h : Blind f r) (harg : arg ∈ judging) :
    (remainingItems r p members arg v).isEmpty =
      (remainingItems r p members arg (relink f v)).isEmpty := by
  cases v with
  | arr xs =>
    have hindexed : indexed (xs.map (relinkAt f "")) =
        (indexed xs).map (fun b => (b.1, relinkAt f "" b.2)) := by
      unfold indexed
      rw [List.length_map, List.zip_map_right]
      rfl
    rw [relink, relinkAt_arr]
    unfold remainingItems
    dsimp only
    rw [hindexed, ← List.map_drop, List.flatMap_map]
    exact isEmpty_flatMap_congr (fun b _ => h.documents arg harg _ b.2)
  | str s => rw [relink_str]
  | obj ms => rw [relink, relinkAt_obj]; rfl
  | _ => rfl

end Blind

/-- Assertions come to the same for a document with other references, as long as they list texts
only. -/
theorem isEmpty_violations (hf : Function.Injective f) {k : String}
    (hk : k ∈ asserting)
    (henum : k = "enum" → ∀ x ∈ (arg.items?).getD [], (x.text?).isSome = true) :
    (Assertion.violations k arg v).isEmpty = (Assertion.violations k arg (relink f v)).isEmpty := by
  simp only [asserting, List.mem_cons, List.not_mem_nil, or_false] at hk
  rcases hk with rfl | rfl | rfl | rfl | rfl | hk
  · exact isEmpty_typeViolations (fun name => (hasType_relinkAt "" v name).symm)
  · have hsame : ∀ x ∈ (arg.items?).getD [], Json.equivalent v x = Json.equivalent (relink f v) x := by
      intro x hx
      cases x with
      | str s => cases v <;> simp [relink, relinkAt_str, Json.equivalent]
      | _ => cases henum rfl _ hx
    cases arg with
    | arr options =>
      have hany : options.any (Json.equivalent v) =
          options.any (Json.equivalent (relink f v)) := by
        rw [Bool.eq_iff_iff, List.any_eq_true, List.any_eq_true]
        exact exists_congr (fun x => and_congr_right (fun hx => by rw [hsame x hx]))
      show (if options.any (Json.equivalent v) then _ else _ : List Violation).isEmpty =
        (if options.any (Json.equivalent (relink f v)) then _ else _ : List Violation).isEmpty
      rw [hany]
      split <;> rfl
    | _ => rfl
  · cases v with
    | arr xs =>
      rw [relink, relinkAt_arr]
      cases arg with
      | bool b =>
        cases b with
        | false => rfl
        | true =>
          show (if Assertion.allDistinct xs then _ else _ : List Violation).isEmpty =
            (if Assertion.allDistinct (xs.map (relinkAt f "")) then _ else _ : List Violation).isEmpty
          rw [allDistinct_relink hf]
          split <;> rfl
      | _ => rfl
    | str s => rw [relink_str]
    | obj ms => rw [relink, relinkAt_obj]; cases arg with
      | bool b => cases b <;> rfl
      | _ => rfl
    | _ => rfl
  · have hcount : Assertion.itemCount? (relink f v) = Assertion.itemCount? v := by
      unfold Assertion.itemCount? relink
      rw [items?_relinkAt]
      cases v.items? with
      | none => rfl
      | some xs => simp
    show (Assertion.sizeBound Assertion.itemCount? _ _ arg v).isEmpty =
      (Assertion.sizeBound Assertion.itemCount? _ _ arg (relink f v)).isEmpty
    unfold Assertion.sizeBound
    rw [hcount]
    split
    · split <;> rfl
    · rfl
  · cases v with
    | str s => rw [relink_str]
    | arr xs => rw [relink, relinkAt_arr]; cases arg <;> rfl
    | obj ms => rw [relink, relinkAt_obj]; cases arg <;> rfl
    | _ => rfl
  · cases v with
    | str s => rw [relink_str]
    | arr xs => rw [relink, relinkAt_arr]; rcases hk with rfl | rfl | rfl | rfl | rfl | rfl <;> rfl
    | obj ms => rw [relink, relinkAt_obj]; rcases hk with rfl | rfl | rfl | rfl | rfl | rfl <;> rfl
    | _ => rfl

/-- What a document violates of a keyword does not depend on its references. -/
theorem isEmpty_keywordFindings (hf : Function.Injective f) (h : Blind f r)
    (hd : Json.obj members ∈ judging) {k : String} (hm : (k, arg) ∈ members) :
    (keywordFindings library r p members k arg v).isEmpty =
      (keywordFindings library r p members k arg (relink f v)).isEmpty := by
  have hinner := @mem_judging_of_member _ hd k arg
  have hsame := fun d hd p => h.documents d hd p v
  unfold keywordFindings
  split
  · rfl
  rcases ((judging_spec _ hd).2 _ hm).1 with hk | hk
  · have hviolations : ((Assertion.violations k arg v).map (p.keyword k).report).isEmpty =
        ((Assertion.violations k arg (relink f v)).map (p.keyword k).report).isEmpty := by
      rw [List.isEmpty_map, List.isEmpty_map]
      exact isEmpty_violations hf hk ((judging_spec _ hd).2 _ hm).2.2.2.2
    simp only [asserting, List.mem_cons, List.not_mem_nil, or_false] at hk
    rcases hk with rfl | rfl | rfl | rfl | rfl | rfl | rfl | rfl | rfl | rfl | rfl
    all_goals exact hviolations
  · simp only [List.mem_cons, List.not_mem_nil, or_false] at hk
    rcases hk with rfl | rfl | rfl | rfl | rfl | rfl | rfl | rfl
    · exact isEmpty_reference hsame enclosed_judging hd hm (.inl rfl)
    · exact isEmpty_reference hsame enclosed_judging hd hm (.inr rfl)
    · exact isEmpty_branches hsame (fun s hs => hinner hm hs)
    · exact isEmpty_anyOf hsame (fun s hs => hinner hm hs)
    · show (if takesOver members then [] else properties r p arg v).isEmpty =
        (if takesOver members then [] else properties r p arg (relink f v)).isEmpty
      split
      · rfl
      · refine h.isEmpty_properties (fun e he => ⟨hinner hm (List.mem_map_of_mem he), fun hkey => ?_⟩)
        exact ((judging_spec _ hd).2 _ hm).2.1 rfl e (List.mem_filter.mpr ⟨he, by simpa using hkey⟩)
    · rcases ((judging_spec _ hd).2 _ hm).2.2.1 rfl with ⟨hblind, hnamed, hpatterns⟩
      exact h.isEmpty_additionalProperties (hinner hm List.mem_cons_self) hblind hnamed hpatterns
    · exact Blind.isEmpty_propertyNames (((judging_spec _ hd).2 _ hm).2.2.2.1 rfl)
    · exact h.isEmpty_remainingItems (hinner hm List.mem_cons_self)

/-- However many steps are followed, the references in a document do not matter. -/
theorem blind_rules (hf : Function.Injective f) : ∀ n, Blind f (rules library n)
  | 0 => ⟨fun _ _ _ _ => rfl, fun _ _ _ _ _ => rfl⟩
  | n + 1 => by
    refine ⟨fun d hd p v => ?_, valid_text (n + 1)⟩
    cases d with
    | obj members =>
      exact isEmpty_flatMap_congr (fun m hm => isEmpty_keywordFindings hf (blind_rules hf n) hd hm)
    | bool b => cases b <;> rfl
    | _ => rfl

/-- Documents that differ in their references alone satisfy the schema of schemas alike. -/
theorem isEmpty_findings_relinkAt (hf : Function.Injective f) (k : String) (d : Json) :
    (evaluator.findings (relinkAt f k d)).isEmpty = (evaluator.findings d).isEmpty := by
  have hsteps : evaluator.steps (relinkAt f k d) = evaluator.steps d := by
    unfold Evaluator.steps
    rw [depth_relinkAt]
  unfold Evaluator.findings
  rw [hsteps]
  exact ((blind_rules hf _).valid_relinkAt (enclosed_judging.documents _ joined_mem)
    (fun _ => enclosed_blind.documents _ joined_mem) _ d).symm

end Metaschema

end HttpContract
