import HttpContract.Proofs.AcceptedTexts
import HttpContract.Proofs.Coverage
import HttpContract.Proofs.Satisfaction
import HttpContract.Proofs.Unreferenced

/-!
# What schemas approve of

A schema approves of a value if the evaluator that reads markers as `true` accepts it and all
references on the plan are satisfied. Approval is composed like satisfaction: of what the keywords
beside say, of the approval of the parts, and of what is left over (`approves_obj_iff`).
-/

namespace HttpContract

/-- The node for properties that a schema does not declare. -/
def Additional.node? : Additional Node → Option Node
  | .unspecified => none
  | .allowed => some (.plan Plan.empty)
  | .forbidden => some (.plan Plan.empty)
  | .schema n => some n

end HttpContract

namespace HttpContract.Planning

open Normalization Evaluation

variable {c : Context} {e : Engine}

/-! ## One plan for every schema -/

/-- Two nodes are satisfied by the same values. -/
def Same (e : Engine) (n n' : Node) : Prop := ∀ v, Satisfied e n v ↔ Satisfied e n' v

theorem Same.refl (n : Node) : Same e n n := fun _ => Iff.rfl

theorem same_of_similar {p p' : Plan Node} (h : Plan.Similar (Same e) p p') :
    Same e (.plan p) (.plan p') := by
  intro v
  rw [satisfied_plan_iff, satisfied_plan_iff]
  refine and_congr (forall_mem_iff_of_forall₂ (fun n n' hn => hn v) h.allOf) (and_congr ?_ ?_)
  · exact forall₂_congr (fun members _ => forall₂_congr (fun m _ =>
      forall_mem_iff_of_forall₂ (fun n n' hn => hn m.2) (h.memberNodes m.1)))
  · exact forall₂_congr (fun items _ => forall₃_congr (fun i x _ =>
      forall_mem_iff_of_forall₂ (fun n n' hn => hn x) (h.itemNodes i)))

theorem satisfied_inline_iff {root : Node} {evaluator : Evaluator} {inner v : Json} :
    Satisfied e (.inline root evaluator inner) v ↔
      evaluator.accepts v = true ∧ Satisfied e root v :=
  satisfied_iff_of_resolve? (n := .inline root evaluator inner) (s := ⟨root, evaluator, inner⟩) rfl

theorem same_inline {root root' : Node} {evaluator : Evaluator} {inner : Json}
    (h : Same e root root') :
    Same e (.inline root evaluator inner) (.inline root' evaluator inner) := by
  intro v
  rw [satisfied_inline_iff, satisfied_inline_iff]
  exact and_congr_right (fun _ => h v)

mutual

/-- A schema has one document, and nodes that are satisfied alike. -/
theorem plans_unique {d document document' : Json} {n n' : Node} :
    Plans c d n document → Plans c d n' document' → document = document' ∧ Same e n n'
  | .always b, h' => by
    cases h'
    exact ⟨rfl, .refl _⟩
  | .deferred hm _, h' => by
    cases h' with
    | deferred hm' _ =>
      obtain ⟨⟩ : Marker.deferred _ = .deferred _ := by simpa using hm.symm.trans hm'
      exact ⟨rfl, .refl _⟩
    | inline hm' _ _ => simp [hm] at hm'
    | keywords hm' _ => simp [hm] at hm'
  | .inline hm h hevaluator, h' => by
    cases h' with
    | deferred hm' _ => simp [hm] at hm'
    | inline _ h' hevaluator' =>
      obtain ⟨rfl, hsame⟩ := plans_unique h h'
      obtain rfl := Except.ok.inj (hevaluator.symm.trans hevaluator')
      exact ⟨rfl, same_inline hsame⟩
    | keywords hm' _ => simp [hm] at hm'
  | .keywords hm h, h' => by
    cases h' with
    | deferred hm' _ => simp [hm] at hm'
    | inline hm' _ _ => simp [hm] at hm'
    | keywords _ h' =>
      obtain ⟨rfl, hsimilar⟩ := plansKeywords_unique h h'
      exact ⟨rfl, same_of_similar (hsimilar .empty)⟩
termination_by structural h => h

theorem plansKeywords_unique {members documents documents' : Fields Json} {p p' q q' : Plan Node} :
    PlansKeywords c members p q documents → PlansKeywords c members p' q' documents' →
      documents = documents' ∧ (Plan.Similar (Same e) p p' → Plan.Similar (Same e) q q')
  | .nil, h' => by
    cases h'
    exact ⟨rfl, id⟩
  | .cons hk hrest, h' => by
    cases h' with
    | cons hk' hrest' =>
      obtain ⟨rfl, hq⟩ := plansKeyword_unique hk hk'
      obtain ⟨rfl, hq'⟩ := plansKeywords_unique hrest hrest'
      exact ⟨rfl, fun hp => hq' (hq hp)⟩
termination_by structural h => h

theorem plansKeyword_unique {ρ : Role} {v document document' : Json} {p p' q q' : Plan Node} :
    PlansKeyword c ρ v p q document → PlansKeyword c ρ v p' q' document' →
      document = document' ∧ (Plan.Similar (Same e) p p' → Plan.Similar (Same e) q q')
  | .types hts, h' => by
    cases h' with
    | types hts' =>
      exact ⟨rfl, fun hp => { hp with types := Option.some.inj (hts.symm.trans hts') }⟩
  | .default, h' => by
    cases h'
    exact ⟨rfl, fun hp => { hp with default := rfl }⟩
  | .required, h' => by
    cases h'
    exact ⟨rfl, fun hp => { hp with required := rfl }⟩
  | .properties h, h' => by
    cases h' with
    | properties h' =>
      obtain ⟨rfl, hnodes⟩ := plansEntries_unique h h'
      exact ⟨rfl, fun hp => { hp with properties := hnodes }⟩
  | .patterns h, h' => by
    cases h' with
    | patterns h' =>
      obtain ⟨rfl, hnodes⟩ := plansEntries_unique h h'
      exact ⟨rfl, fun hp =>
        { hp with patterns := hnodes.imp (fun _ _ hab => ⟨hab.1, hab.2.1⟩) }⟩
  | .allowed, h' => by
    cases h' with
    | allowed => exact ⟨rfl, fun hp => { hp with additional := .allowed }⟩
    | additional hv _ => exact absurd rfl (hv true)
  | .forbidden, h' => by
    cases h' with
    | forbidden => exact ⟨rfl, fun hp => { hp with additional := .forbidden }⟩
    | additional hv _ => exact absurd rfl (hv false)
  | .additional hv h, h' => by
    cases h' with
    | allowed => exact absurd rfl (hv true)
    | forbidden => exact absurd rfl (hv false)
    | additional _ h' =>
      obtain ⟨rfl, hsame⟩ := plans_unique h h'
      exact ⟨rfl, fun hp => { hp with additional := .schema hsame }⟩
  | .items hv h, h' => by
    cases h' with
    | items _ h' =>
      obtain ⟨rfl, hsame⟩ := plans_unique h h'
      exact ⟨rfl, fun hp => { hp with items := .some hsame }⟩
    | itemList _ => exact absurd rfl (hv _)
  | .itemList h, h' => by
    cases h' with
    | items hv _ => exact absurd rfl (hv _)
    | itemList h' =>
      obtain ⟨rfl, hnodes⟩ := plansItems_unique h h'
      exact ⟨rfl, fun hp => { hp with leading := hnodes }⟩
  | .leading h, h' => by
    cases h' with
    | leading h' =>
      obtain ⟨rfl, hnodes⟩ := plansItems_unique h h'
      exact ⟨rfl, fun hp => { hp with leading := hnodes }⟩
  | .branches h, h' => by
    cases h' with
    | branches h' =>
      obtain ⟨rfl, hnodes⟩ := plansItems_unique h h'
      exact ⟨rfl, fun hp => { hp with allOf := hnodes }⟩
  | .data, h' => by
    cases h'
    exact ⟨rfl, id⟩
  | .other hrewrite, h' => by
    cases h' with
    | other hrewrite' =>
      exact ⟨Rewrites.unique ⟨_, _, _, hrewrite⟩ ⟨_, _, _, hrewrite'⟩, fun hp => { hp with }⟩
termination_by structural h => h

theorem plansEntries_unique {entries documents documents' : Fields Json}
    {nodes nodes' : List (String × Node)} :
    PlansEntries c entries nodes documents → PlansEntries c entries nodes' documents' →
      documents = documents' ∧ List.Forall₂
        (fun a b => a.1 = b.1 ∧ Same e a.2 b.2 ∧ a.2.filling = b.2.filling) nodes nodes'
  | .nil, h' => by
    cases h'
    exact ⟨rfl, .nil⟩
  | .cons h hrest, h' => by
    cases h' with
    | cons h' hrest' =>
      obtain ⟨rfl, hsame⟩ := plans_unique h h'
      obtain ⟨rfl, hnodes⟩ := plansEntries_unique hrest hrest'
      exact ⟨rfl, .cons ⟨rfl, hsame, (filling_of_plans h).trans (filling_of_plans h').symm⟩ hnodes⟩
termination_by structural h => h

theorem plansItems_unique {xs documents documents' : List Json} {nodes nodes' : List Node} :
    PlansItems c xs nodes documents → PlansItems c xs nodes' documents' →
      documents = documents' ∧ List.Forall₂ (Same e) nodes nodes'
  | .nil, h' => by
    cases h'
    exact ⟨rfl, .nil⟩
  | .cons h hrest, h' => by
    cases h' with
    | cons h' hrest' =>
      obtain ⟨rfl, hsame⟩ := plans_unique h h'
      obtain ⟨rfl, hnodes⟩ := plansItems_unique hrest hrest'
      exact ⟨rfl, .cons hsame hnodes⟩
termination_by structural h => h

end

/-! ## Schemas that plans follow -/

/-- The nodes of a plan are those of the schemas that plans follow. -/
structure Follows (c : Context) (members : Fields Json) (p : Plan Node) : Prop where
  properties : List.Forall₂ (fun a b => a.1 = b.1 ∧ ∃ document, Plans c a.2 b.2 document)
    (entriesOf members "properties") p.properties
  patterns : List.Forall₂ (fun a b => a.1 = b.1 ∧ ∃ document, Plans c a.2 b.2 document)
    (entriesOf members "patternProperties") p.patterns
  additional : Option.Rel (fun t n => ∃ document, Plans c t n document)
    (Fields.get? members "additionalProperties") p.additional.node?
  leading : List.Forall₂ (fun t n => ∃ document, Plans c t n document)
    (itemsOf members "prefixItems") p.leading
  items : Option.Rel (fun t n => ∃ document, Plans c t n document) (Fields.get? members "items")
    p.items
  branches : List.Forall₂ (fun t n => ∃ document, Plans c t n document)
    (itemsOf members "allOf") p.allOf

section

variable {members documents : Fields Json} {p : Plan Node}

/-- Looking up keywords, and their documents under the same keys. -/
theorem get?_of_keys_eq (hordered : Fields.Ordered members)
    (hkeys : Fields.keys documents = Fields.keys members) :
    (∀ {k v}, (k, v) ∈ members → Fields.get? members k = some v) ∧
      (∀ {k v}, (k, v) ∈ documents → Fields.get? documents k = some v) ∧
      ∀ {k}, Fields.contains members k = false →
        Fields.get? members k = none ∧ Fields.get? documents k = none := by
  refine ⟨fun hm => Fields.get?_of_mem hordered hm,
    fun hm => Fields.get?_of_mem (Fields.ordered_of_keys_eq hkeys hordered) hm, fun {k} hk => ?_⟩
  have hk' : Fields.contains documents k = false := by
    rw [← Bool.not_eq_true, Fields.contains_iff_mem_keys] at hk ⊢
    rw [hkeys]
    exact hk
  exact ⟨by simpa [Fields.contains] using hk, by simpa [Fields.contains] using hk'⟩

theorem forall₂_of_named {k : String} {nodes : List (String × Node)}
    (hordered : Fields.Ordered members) (hkeys : Fields.keys documents = Fields.keys members)
    (h : nodes = [] ∧ Fields.contains members k = false ∨ ∃ entries docs,
      (k, .obj entries) ∈ members ∧ (k, .obj docs) ∈ documents ∧
        PlansEntries c entries nodes docs) :
    List.Forall₂ (fun a b => a.1 = b.1 ∧ ∃ document, Plans c a.2 b.2 document)
        (entriesOf members k) nodes ∧
      List.Forall₂ (fun a b => a.1 = b.1 ∧ ∃ n, Plans c a.2 n b.2)
        (entriesOf members k) (entriesOf documents k) := by
  rcases get?_of_keys_eq hordered hkeys with ⟨hget, hget', hnone⟩
  unfold entriesOf
  rcases h with ⟨rfl, hno⟩ | ⟨entries, docs, hm, hd, hentries⟩
  · rw [(hnone hno).1, (hnone hno).2]
    exact ⟨.nil, .nil⟩
  · rw [hget hm, hget' hd]
    exact forall₂_of_plansEntries hentries

theorem forall₂_of_listed {k : String} {nodes : List Node} (hordered : Fields.Ordered members)
    (hkeys : Fields.keys documents = Fields.keys members)
    (h : nodes = [] ∧ Fields.contains members k = false ∨ ∃ xs docs,
      (k, .arr xs) ∈ members ∧ (k, .arr docs) ∈ documents ∧ PlansItems c xs nodes docs) :
    List.Forall₂ (fun t n => ∃ document, Plans c t n document) (itemsOf members k) nodes ∧
      List.Forall₂ (fun t document => ∃ n, Plans c t n document) (itemsOf members k)
        (itemsOf documents k) := by
  rcases get?_of_keys_eq hordered hkeys with ⟨hget, hget', hnone⟩
  unfold itemsOf
  rcases h with ⟨rfl, hno⟩ | ⟨xs, docs, hm, hd, hitems⟩
  · rw [(hnone hno).1, (hnone hno).2]
    exact ⟨.nil, .nil⟩
  · rw [hget hm, hget' hd]
    exact forall₂_of_plansItems hitems

/-- Under the keywords that plans follow, a schema, its plan and its document correspond to one
another, unless items are listed in the old way. -/
theorem follows_of_plansKeywords (h : PlansKeywords c members Plan.empty p documents)
    (hordered : Fields.Ordered members) (hlist : ∀ xs, ("items", .arr xs) ∉ documents) :
    Follows c members p ∧
      Related (fun t document => ∃ n, Plans c t n document) members documents := by
  have hkeys := keys_of_plansKeywords h
  rcases get?_of_keys_eq hordered hkeys with ⟨hget, hget', hnone⟩
  have hproperties := forall₂_of_named hordered hkeys (properties_of_plansKeywords h)
  have hpatterns := forall₂_of_named hordered hkeys (patterns_of_plansKeywords h)
  have hbranches := forall₂_of_listed hordered hkeys (allOf_of_plansKeywords h)
  have hleading := forall₂_of_listed (k := "prefixItems") hordered hkeys <|
    (leading_of_plansKeywords h).imp_right (fun ⟨_, xs, docs, hk, hm, hd, hitems⟩ => by
      rcases hk with rfl | rfl
      · exact ⟨xs, docs, hm, hd, hitems⟩
      · exact absurd hd (hlist docs))
  have hadditional : Option.Rel (fun t n => ∃ document, Plans c t n document)
        (Fields.get? members "additionalProperties") p.additional.node? ∧
      Option.Rel (fun t document => ∃ n, Plans c t n document)
        (Fields.get? members "additionalProperties")
        (Fields.get? documents "additionalProperties") := by
    rcases additional_of_plansKeywords h with ⟨hnil, hno⟩ | ⟨t, document, hm, hd, hadditions⟩
    · rw [hnil, (hnone hno).1, (hnone hno).2]
      exact ⟨.none, .none⟩
    · rw [hget hm, hget' hd]
      generalize p.additional = additional at hadditions ⊢
      cases hadditions with
      | allowed => exact ⟨.some ⟨_, .always true⟩, .some ⟨_, .always true⟩⟩
      | forbidden => exact ⟨.some ⟨_, .always false⟩, .some ⟨_, .always false⟩⟩
      | schema _ hplans => exact ⟨.some ⟨_, hplans⟩, .some ⟨_, hplans⟩⟩
  have hitems : Option.Rel (fun t n => ∃ document, Plans c t n document)
        (Fields.get? members "items") p.items ∧
      Option.Rel (fun t document => ∃ n, Plans c t n document)
        (Fields.get? members "items") (Fields.get? documents "items") := by
    rcases items_of_plansKeywords h with ⟨hnil, hno⟩ | ⟨t, document, n, hm, hd, hplans, hn⟩
    · have habsent : Fields.contains members "items" = false := by
        rw [← Bool.not_eq_true, Fields.contains_iff]
        rintro ⟨v, hm⟩
        rcases hno v hm with ⟨xs, rfl⟩
        rcases exists_of_forall₂ (forall₂_of_plansKeywords h) hm with
          ⟨⟨k, document⟩, hd, heq, p', q', hkeyword⟩
        obtain rfl : "items" = k := heq
        cases hkeyword with
        | items hv _ => exact absurd rfl (hv xs)
        | itemList _ => exact hlist _ hd
      rw [hnil, (hnone habsent).1, (hnone habsent).2]
      exact ⟨.none, .none⟩
    · rw [hget hm, hget' hd, hn]
      exact ⟨.some ⟨_, hplans⟩, .some ⟨_, hplans⟩⟩
  exact ⟨⟨hproperties.1, hpatterns.1, hadditional.1, hleading.1, hitems.1, hbranches.1⟩,
    ⟨hproperties.2, hpatterns.2, hadditional.2, hleading.2, hitems.2, hbranches.2⟩⟩

end

/-! ## References inside -/

/-- All references on the plan of a schema are satisfied, however it is planned. -/
def AllSatisfied (e : Engine) (t v : Json) : Prop :=
  ∀ n document, Plans e.context t n document → Satisfied e n v

theorem allSatisfied_iff {t document v : Json} {n : Node} (h : Plans e.context t n document) :
    AllSatisfied e t v ↔ Satisfied e n v :=
  ⟨fun hall => hall n document h, fun hn _ _ h' => ((plans_unique h h').2 v).mp hn⟩

theorem satisfied_applied (applied : List Nat) (v : Json) :
    Satisfied e (.plan { Plan.empty with applied := applied }) v := by
  rw [satisfied_plan_iff]
  refine ⟨fun n hn => absurd hn List.not_mem_nil, fun members _ m _ n hn => ?_,
    fun items _ i x _ n hn => ?_⟩
  · simp [Normalization.memberNodes, Plan.empty, Plan.matching] at hn
  · simp [Normalization.itemNodes, Plan.empty] at hn

theorem satisfied_empty (v : Json) : Satisfied e (.plan Plan.empty) v := satisfied_applied [] v

namespace Follows

variable {members : Fields Json} {p : Plan Node} (h : Follows e.context members p)

include h

theorem rel_named (name : String) : Option.Rel (fun t n => ∃ document, Plans e.context t n document)
    (Fields.get? (entriesOf members "properties") name) (Fields.get? p.properties name) :=
  rel_get? (R := fun t n => ∃ document, Plans e.context t n document) name h.properties

theorem undeclared_iff {name : String} : Undeclared members name ↔
    Fields.get? p.properties name = none ∧ p.matching name = [] := by
  refine and_congr ?_ ?_
  · rw [← Option.not_isSome_iff_eq_none, ← Option.not_isSome_iff_eq_none,
      isSome_of_rel (h.rel_named name)]
  · rw [Plan.matching, List.filter_eq_nil_iff]
    refine forall_mem_iff_of_forall₂ (fun a b hab => ?_) h.patterns
    rw [hab.1, Bool.not_eq_true]

theorem memberOf_iff {name : String} {x : Json} :
    MemberOf (AllSatisfied e) members name x ↔
      ∀ n ∈ Normalization.memberNodes p name, Satisfied e n x := by
  constructor
  · intro hmember n hn
    rcases mem_memberNodes_cases hn with hn | ⟨source, hn, hfound⟩ | ⟨hunnamed, hunmatched, hn⟩
    · rcases exists_of_rel (h.rel_named name) hn with ⟨t, ht, _, hplans⟩
      exact hmember.named t ht n _ hplans
    · rcases exists_of_forall₂ h.patterns.flip hn with ⟨a, ha, heq, _, hplans⟩
      exact hmember.matched a ha (heq ▸ hfound) n _ hplans
    · have hnode : p.additional.node? = some n := by
        rw [hn]
        rfl
      rcases exists_of_rel h.additional hnode with ⟨t, ht, _, hplans⟩
      exact hmember.additional (h.undeclared_iff.mpr ⟨hunnamed, hunmatched⟩) t ht n _ hplans
  · intro hall
    refine ⟨fun t ht => ?_, fun a ha hfound => ?_, fun hundeclared t ht => ?_⟩
    · rcases exists_of_rel (rel_symm (h.rel_named name)) ht with ⟨n, hn, _, hplans⟩
      exact (allSatisfied_iff hplans).mpr (hall n (Rendering.mem_memberNodes_of_get? hn))
    · rcases exists_of_forall₂ h.patterns ha with ⟨⟨source, n⟩, hn, heq, _, hplans⟩
      obtain rfl : a.1 = source := heq
      exact (allSatisfied_iff hplans).mpr
        (hall n (Rendering.mem_memberNodes_of_pattern hn hfound))
    · rcases exists_of_rel (rel_symm h.additional) ht with ⟨n, hn, _, hplans⟩
      refine (allSatisfied_iff hplans).mpr ?_
      rcases h.undeclared_iff.mp hundeclared with ⟨hunnamed, hunmatched⟩
      cases hadditional : p.additional with
      | schema m =>
        obtain rfl : m = n := by simpa [hadditional, Additional.node?] using hn
        refine hall m ?_
        simp [Normalization.memberNodes, hunnamed, hunmatched, hadditional]
      | unspecified => simp [hadditional, Additional.node?] at hn
      | allowed =>
        obtain rfl : Node.plan Plan.empty = n := by simpa [hadditional, Additional.node?] using hn
        exact satisfied_empty x
      | forbidden =>
        obtain rfl : Node.plan Plan.empty = n := by simpa [hadditional, Additional.node?] using hn
        exact satisfied_empty x

theorem itemOf_iff {i : Nat} {x : Json} :
    ItemOf (AllSatisfied e) members i x ↔ ∀ n ∈ Normalization.itemNodes p i, Satisfied e n x := by
  have hlength : (itemsOf members "prefixItems").length ≤ i ↔ p.leading[i]? = none := by
    rw [h.leading.length_eq, List.getElem?_eq_none_iff]
  unfold Normalization.itemNodes
  constructor
  · intro hitem n hn
    cases hleading : p.leading[i]? with
    | some m =>
      rw [hleading] at hn
      obtain rfl := List.mem_singleton.mp hn
      rcases exists_of_rel (rel_getElem? h.leading i) hleading with ⟨t, ht, _, hplans⟩
      exact hitem.leading t ht n _ hplans
    | none =>
      rw [hleading] at hn
      rcases exists_of_rel h.items (Option.mem_toList.mp hn) with ⟨t, ht, _, hplans⟩
      exact hitem.remaining (hlength.mpr hleading) t ht n _ hplans
  · intro hall
    refine ⟨fun t ht => ?_, fun hle t ht => ?_⟩
    · rcases exists_of_rel (rel_symm (rel_getElem? h.leading i)) ht with ⟨n, hn, _, hplans⟩
      rw [hn] at hall
      exact (allSatisfied_iff hplans).mpr (hall n List.mem_cons_self)
    · rcases exists_of_rel (rel_symm h.items) ht with ⟨n, hn, _, hplans⟩
      rw [hlength.mp hle] at hall
      exact (allSatisfied_iff hplans).mpr (hall n (Option.mem_toList.mpr hn))

/-- The references on a plan are satisfied if those of the schemas inside are. -/
theorem satisfied_iff {v : Json} :
    Satisfied e (.plan p) v ↔ Evaluation.Parts (AllSatisfied e) members v := by
  have hbranches : (∀ t ∈ itemsOf members "allOf", AllSatisfied e t v) ↔
      ∀ n ∈ p.allOf, Satisfied e n v :=
    forall_mem_iff_of_forall₂ (fun t n ⟨_, hplans⟩ => allSatisfied_iff hplans) h.branches
  rw [satisfied_plan_iff, ← hbranches]
  constructor
  · rintro ⟨hall, hmembers, hitems⟩
    exact ⟨hall, fun entries hv m hm => h.memberOf_iff.mpr (hmembers entries hv m hm),
      fun xs hv i x hx => h.itemOf_iff.mpr (hitems xs hv i x hx)⟩
  · rintro ⟨hall, hmembers, hitems⟩
    exact ⟨hall, fun entries hv m hm => h.memberOf_iff.mp (hmembers entries hv m hm),
      fun xs hv i x hx => h.itemOf_iff.mp (hitems xs hv i x hx)⟩

end Follows

/-! ## Approval -/

/-- What evaluators read the schema as holds of the value, however it is planned. -/
def AllHold (e : Engine) (t v : Json) : Prop :=
  ∀ n document, Plans e.context t n document → Holds e.context.resources document v

theorem allHold_iff {t document v : Json} {n : Node} (h : Plans e.context t n document) :
    AllHold e t v ↔ Holds e.context.resources document v :=
  ⟨fun hall => hall n document h, fun hholds _ _ h' => (plans_unique (e := e) h h').1 ▸ hholds⟩

/-- The schema approves of the value: what evaluators read it as holds, and all references on its
plan are satisfied. -/
def Approves (e : Engine) (t v : Json) : Prop := AllHold e t v ∧ AllSatisfied e t v

theorem approves_iff {t document v : Json} {n : Node} (h : Plans e.context t n document) :
    Approves e t v ↔ Holds e.context.resources document v ∧ Satisfied e n v :=
  and_congr (allHold_iff h) (allSatisfied_iff h)

/-! ## Schemas that are approved of as their parts are -/

/-- The evaluator built for a document accepts what the document holds of. -/
theorem accepts_iff_holds {R : List Resource} {evaluator : Evaluator} {document v : Json}
    (hR : Grounded R) (h : Evaluator.build document R = .ok evaluator) (hclosed : Closed document)
    (hspecification : Library.followsSpecification evaluator.root = true) :
    evaluator.accepts v = true ↔ Holds R document v := by
  rcases Evaluator.offers_of_build h hclosed hR.closed with ⟨hoffers, rfl⟩
  have hagree := limit_agree_rules (offers_libraryOf R) hoffers hR hclosed (v := v)
    (bound_le_enough evaluator.library evaluator.root v)
  rw [Holds, hagree.valid origin evaluator.start hspecification.symm]
  rfl

/-- An ordered schema that refers to nothing but by markers and has been planned and checked, the
schemas it refers to too, as the specification in force has it. -/
structure Proper (e : Engine) (d : Json) (n : Node) (document : Json) : Prop where
  ordered : d.Ordered
  unreferenced : Unreferenced d
  plans : Plans e.context d n document
  verified : Verified document
  specified : Normalization.Specified e n

section

variable {members documents : Fields Json} {p : Plan Node} {d document v : Json} {n : Node}

theorem mem_itemsOf {k : String} {s : Json} {xs : List Json} (h : Fields.Ordered members)
    (hxs : (k, .arr xs) ∈ members) (hs : s ∈ xs) : s ∈ itemsOf members k := by
  rw [itemsOf, Fields.get?_of_mem h hxs]
  exact hs

theorem eq_of_reaches_empty {m : Node} (h : Reaches e (.plan Plan.empty) m) :
    m = .plan Plan.empty := by
  induction h with
  | here => rfl
  | reference _ hs ih =>
    rw [ih] at hs
    cases hs
  | branch _ hm ih =>
    cases ih
    exact absurd hm List.not_mem_nil
  | property _ hm ih =>
    cases ih
    exact absurd hm List.not_mem_nil
  | pattern _ hm ih =>
    cases ih
    exact absurd hm List.not_mem_nil
  | additional _ hm ih =>
    cases ih
    cases hm
  | leading _ hm ih =>
    cases ih
    exact absurd hm List.not_mem_nil
  | items _ hm ih =>
    cases ih
    cases hm

theorem specified_empty : Normalization.Specified e (.plan Plan.empty) := by
  intro m s hm hs
  rw [eq_of_reaches_empty hm] at hs
  cases hs

theorem plansKeywords_of_plans (h : Plans c (.obj members) (.plan p) (.obj documents)) :
    PlansKeywords c members Plan.empty p documents := by
  cases h with
  | keywords _ h => exact h

/-- A document with the keywords and the names of properties of an ordered schema refers to nothing
by itself if the schema does not. -/
theorem free_of_keys_eq {E : Json → Json → Prop} (hordered : (Json.obj members).Ordered)
    (hunreferenced : Unreferenced (.obj members))
    (hkeys : Fields.keys documents = Fields.keys members)
    (hnames : List.Forall₂ (fun a b => a.1 = b.1 ∧ E a.2 b.2) (entriesOf members "properties")
      (entriesOf documents "properties")) (hclosed : Closed (.obj documents)) : Free documents := by
  refine ⟨Fields.ordered_of_keys_eq hkeys hordered.1, ?_, fun k hk => ?_, fun s => hclosed.inner⟩
  · refine Fields.ordered_of_keys_eq (keys_eq_of_forall₂ hnames) ?_
    unfold entriesOf
    cases hget : Fields.get? members "properties" with
    | none => exact List.Pairwise.nil
    | some arg =>
      have harg : arg.Ordered := Json.ordered_of_mem hordered.2 (Fields.mem_of_get? hget)
      cases arg with
      | obj entries => exact harg.1
      | _ => exact List.Pairwise.nil
  · have hcontains := hunreferenced.keys k hk
    rw [← Bool.not_eq_true, Fields.contains_iff_mem_keys] at hcontains ⊢
    rw [hkeys]
    exact hcontains

namespace Proper

variable (h : Proper e (.obj members) (.plan p) (.obj documents))

include h

theorem follows : Follows e.context members p ∧
    Related (fun t document => ∃ n, Plans e.context t n document) members documents :=
  follows_of_plansKeywords (plansKeywords_of_plans h.plans) h.ordered.1 h.verified.not_itemList

theorem free : Free documents :=
  free_of_keys_eq (E := fun t document => ∃ n, Plans e.context t n document) h.ordered
    h.unreferenced (keys_of_plansKeywords (plansKeywords_of_plans h.plans)) h.follows.2.properties
    (h.plans.closed h.unreferenced)

theorem parts_holds_iff (hv : v.Ordered) :
    Parts (Holds e.context.resources) documents v ↔ Parts (AllHold e) members v :=
  ⟨h.follows.2.symm.parts hv (fun _ _ _ _ ⟨_, hplans⟩ => (allHold_iff hplans).mpr),
    h.follows.2.parts hv (fun _ _ _ _ ⟨_, hplans⟩ => (allHold_iff hplans).mp)⟩

/-- What the schemas inside approve of, their documents hold of. -/
theorem parts_holds (hv : v.Ordered) (hparts : Parts (Approves e) members v) :
    Parts (Holds e.context.resources) documents v :=
  (h.parts_holds_iff hv).mpr (parts_and_iff.mp hparts).1

/-- A schema approves of what its own keywords and its parts do, if nothing is left over. -/
theorem approves_iff (hR : Grounded e.context.resources) (hv : v.Ordered) :
    Approves e (.obj members) v ↔ Own e.context.resources documents v ∧
      Parts (Approves e) members v ∧ Covered e.context.resources documents v := by
  have hboth : Parts (Approves e) members v ↔
      Parts (AllHold e) members v ∧ Parts (AllSatisfied e) members v := parts_and_iff
  rw [Planning.approves_iff h.plans, holds_obj_iff hR h.free hv, h.follows.1.satisfied_iff,
    h.parts_holds_iff hv, hboth]
  constructor
  · rintro ⟨⟨hown, hhold, hcovered⟩, hsatisfied⟩
    exact ⟨hown, ⟨hhold, hsatisfied⟩, hcovered⟩
  · rintro ⟨hown, ⟨hhold, hsatisfied⟩, hcovered⟩
    exact ⟨⟨hown, hhold, hcovered⟩, hsatisfied⟩

/-- A schema inside is planned along with the schema. -/
theorem part {m m' : Node} {document' : Json} (hm : Normalization.Specified e m)
    (hplans : Plans e.context d m document') (hplans' : Plans e.context d m' document)
    (hinside : Inside (.obj members) d) (hinner : Evaluation.Inner members d)
    (hverified : Verified document) : Proper e d m document where
  ordered := ordered_of_inside hinside h.ordered
  unreferenced := h.unreferenced.inner (Or.inl hinner)
  plans := (plans_unique (e := e) hplans hplans').1 ▸ hplans
  verified := hverified
  specified := hm

theorem specified_of_additional {m : Node} (hm : p.additional.node? = some m) :
    Normalization.Specified e m := by
  cases hadditional : p.additional with
  | schema n =>
    rw [hadditional] at hm
    cases hm
    exact h.specified.of_reaches (.additional .here hadditional)
  | unspecified =>
    rw [hadditional] at hm
    cases hm
  | allowed =>
    rw [hadditional] at hm
    cases hm
    exact specified_empty
  | forbidden =>
    rw [hadditional] at hm
    cases hm
    exact specified_empty

/-- A schema under a name is planned along with the schema. -/
theorem named {k name : String} {entries : Fields Json} {nodes : List (String × Node)}
    (hk : k ∈ "dependencies" :: Library.mapKeywords)
    (hnodes : List.Forall₂ (fun a b => a.1 = b.1 ∧ ∃ document, Plans e.context a.2 b.2 document)
      (entriesOf members k) nodes)
    (hdocuments : List.Forall₂ (fun a b => a.1 = b.1 ∧ ∃ n, Plans e.context a.2 n b.2)
      (entriesOf members k) (entriesOf documents k))
    (hreaches : ∀ name m, (name, m) ∈ nodes → Reaches e (.plan p) m)
    (hreached : ∀ docs, ∀ m ∈ docs, m.2 ∈ (reachedFrom documents k (.obj docs)).schemas)
    (hinside : Inside (.obj members) d) (hm : (k, .obj entries) ∈ members)
    (hd : (name, d) ∈ entries) : ∃ n document, Proper e d n document := by
  have hmem : (name, d) ∈ entriesOf members k := by
    rw [entriesOf, Fields.get?_of_mem h.ordered.1 hm]
    exact hd
  rcases exists_of_forall₂ hnodes hmem with ⟨⟨_, m⟩, hnode, -, _, hplans⟩
  rcases exists_of_forall₂ hdocuments hmem with ⟨⟨_, document⟩, hdoc, -, _, hplans'⟩
  rcases exists_of_mem_entriesOf hdoc with ⟨docs, hdocs, hdoc⟩
  exact ⟨m, document, h.part (h.specified.of_reaches (hreaches _ _ hnode)) hplans hplans' hinside
    (.named hk hm hd) (h.verified.named hdocs hdoc (hreached docs _ hdoc))⟩

/-- A schema in a list is planned along with the schema. -/
theorem listed {k : String} {xs : List Json} {nodes : List Node} (hk : k ∈ Library.listKeywords)
    (hnodes : List.Forall₂ (fun t n => ∃ document, Plans e.context t n document)
      (itemsOf members k) nodes)
    (hdocuments : List.Forall₂ (fun t document => ∃ n, Plans e.context t n document)
      (itemsOf members k) (itemsOf documents k))
    (hreaches : ∀ m ∈ nodes, Reaches e (.plan p) m)
    (hreached : ∀ docs, ∀ x ∈ docs, x ∈ (reachedFrom documents k (.arr docs)).schemas)
    (hinside : Inside (.obj members) d) (hm : (k, .arr xs) ∈ members) (hd : d ∈ xs) :
    ∃ n document, Proper e d n document := by
  have hmem := mem_itemsOf h.ordered.1 hm hd
  rcases exists_of_forall₂ hnodes hmem with ⟨m, hnode, _, hplans⟩
  rcases exists_of_forall₂ hdocuments hmem with ⟨document, hdoc, _, hplans'⟩
  rcases exists_of_mem_itemsOf hdoc with ⟨docs, hdocs, hdoc⟩
  exact ⟨m, document, h.part (h.specified.of_reaches (hreaches m hnode)) hplans hplans' hinside
    (.listed hk hm hd) (h.verified.listed hdocs hdoc (hreached docs document hdoc))⟩

/-- What stands under a keyword that plans follow is planned along with the schema. -/
theorem inside {slot : Slot} (hm : (slot.keyword, slot.value d) ∈ members) :
    ∃ n document, Proper e d n document := by
  rcases h.follows with ⟨hfollows, hrelated⟩
  have hget := Fields.get?_of_mem h.ordered.1 hm
  have hinside := inside_of_mem slot hm
  have hvalues : ∀ docs : Fields Json, ∀ m ∈ docs, m.2 ∈ Fields.values docs :=
    fun docs m hm => List.mem_map.mpr ⟨m, hm, rfl⟩
  cases slot with
  | property before name after =>
    exact h.named (k := "properties") (by decide) hfollows.properties hrelated.properties
      (fun _ _ hm => .property .here hm) hvalues hinside hm
      (List.mem_append_right before List.mem_cons_self)
  | pattern before source after =>
    exact h.named (k := "patternProperties") (by decide) hfollows.patterns hrelated.patterns
      (fun _ _ hm => .pattern .here hm) hvalues hinside hm
      (List.mem_append_right before List.mem_cons_self)
  | additional =>
    rcases exists_of_rel (rel_symm hfollows.additional) hget with ⟨m, hnode, _, hplans⟩
    rcases exists_of_rel (rel_symm hrelated.additional) hget with ⟨document, hdoc, _, hplans'⟩
    exact ⟨m, document, h.part (h.specified_of_additional hnode) hplans hplans' hinside
      (.single (by decide) hm) (h.verified.single (Fields.mem_of_get? hdoc) List.mem_cons_self)⟩
  | items =>
    rcases exists_of_rel (rel_symm hfollows.items) hget with ⟨m, hnode, _, hplans⟩
    rcases exists_of_rel (rel_symm hrelated.items) hget with ⟨document, hdoc, _, hplans'⟩
    exact ⟨m, document, h.part (h.specified.of_reaches (.items .here hnode)) hplans hplans' hinside
      (.single (by decide) hm) (h.verified.single (Fields.mem_of_get? hdoc) List.mem_cons_self)⟩
  | itemList before after =>
    rcases exists_of_rel (rel_symm hfollows.items) hget with ⟨m, hnode, _, hplans⟩
    cases hplans
  | leading before after =>
    exact h.listed (k := "prefixItems") (by decide) hfollows.leading hrelated.leading
      (fun _ hm => .leading .here hm) (fun _ _ hx => hx) hinside hm
      (List.mem_append_right before List.mem_cons_self)
  | branch before after =>
    exact h.listed (k := "allOf") (by decide) hfollows.branches hrelated.branches
      (fun _ hm => .branch .here hm) (fun _ _ hx => hx) hinside hm
      (List.mem_append_right before List.mem_cons_self)

end Proper

end

end HttpContract.Planning
