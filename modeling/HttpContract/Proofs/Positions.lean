import HttpContract.Proofs.Contexts
import HttpContract.Proofs.Visits

/-!
# Schemas inside schemas

Each part of a plan comes from a keyword of its schema (`component_of_plansKeywords`), so the nodes
inside a plan belong to schemas inside the schema. What holds of a fragment and of all registered
schemas, and passes from a schema to those inside it, therefore holds of the schema of every node
that can be reached: `Engine.belongs_of_reaches`.
-/

namespace HttpContract.Planning

/-! ## Keywords that set a component -/

variable {c : Context} {members documents : Fields Json} {p q : Plan Node}

/-- A component that only certain keywords change is as it was, or one of these keywords has set
it. -/
theorem component_of_plansKeywords {α : Type} {π : Plan Node → α} {P : Role → Json → Prop}
    (hπ : ∀ ρ v p q document, PlansKeyword c ρ v p q document → ¬ P ρ v → π q = π p) :
    ∀ {members documents p q}, PlansKeywords c members p q documents →
      π q = π p ∧ (∀ m ∈ members, ¬ P (role m.1) m.2) ∨
        ∃ k v document p' q', (k, v) ∈ members ∧ (k, document) ∈ documents ∧ P (role k) v ∧
          PlansKeyword c (role k) v p' q' document ∧ π q = π q'
  | _, _, _, _, .nil => Or.inl ⟨rfl, by simp⟩
  | _, _, _, _, .cons (k := k) (v := v) h hrest => by
    rcases component_of_plansKeywords hπ hrest with ⟨heq, hnone⟩ | hsome
    · by_cases hk : P (role k) v
      · exact Or.inr ⟨_, _, _, _, _, List.mem_cons_self, List.mem_cons_self, hk, h, heq⟩
      · refine Or.inl ⟨heq.trans (hπ _ _ _ _ _ h hk), fun m hm => ?_⟩
        rcases List.mem_cons.mp hm with rfl | hm
        · exact hk
        · exact hnone m hm
    · rcases hsome with ⟨k', v', document, p', q', hm, hd, hk', hplans, heq⟩
      exact Or.inr ⟨k', v', document, p', q', List.mem_cons_of_mem _ hm,
        List.mem_cons_of_mem _ hd, hk', hplans, heq⟩
termination_by structural _ _ _ _ h => h

/-- A component that one keyword alone changes. -/
theorem component_of_keyword {α : Type} {π : Plan Node → α} (keyword : String)
    (hkeyword : (role keyword).keyword? = some keyword)
    (hπ : ∀ ρ v p q document, PlansKeyword c ρ v p q document → ρ ≠ role keyword → π q = π p)
    (h : PlansKeywords c members p q documents) :
    π q = π p ∧ Fields.contains members keyword = false ∨
      ∃ v document p' q', (keyword, v) ∈ members ∧ (keyword, document) ∈ documents ∧
        PlansKeyword c (role keyword) v p' q' document ∧ π q = π q' := by
  rcases component_of_plansKeywords (P := fun ρ _ => ρ = role keyword) hπ h with
    ⟨heq, hnone⟩ | ⟨k, v, document, p', q', hm, hd, hk, hplans, heq⟩
  · refine Or.inl ⟨heq, ?_⟩
    rw [← Bool.not_eq_true, Fields.contains_iff]
    rintro ⟨v, hm⟩
    exact hnone _ hm rfl
  · obtain rfl := eq_of_role hk hkeyword
    exact Or.inr ⟨v, document, p', q', hm, hd, hplans, heq⟩

/-! ## Where the parts of a plan come from -/

theorem types_of_plansKeywords (h : PlansKeywords c members Plan.empty p documents) :
    p.types = [] ∧ Fields.contains members "type" = false ∨
      ∃ v, ("type", v) ∈ members ∧ ("type", v) ∈ documents ∧ types? v = some p.types := by
  have hπ : ∀ ρ v p q document, PlansKeyword c ρ v p q document → ρ ≠ .types →
      q.types = p.types := by
    intro ρ v p q document h hρ
    cases h <;> first | rfl | exact absurd rfl hρ
  rcases component_of_keyword "type" rfl hπ h with hnone | ⟨v, _, p', q', hm, hd, hplans, heq⟩
  · exact Or.inl hnone
  · cases hplans with
    | types hts => exact Or.inr ⟨v, hm, hd, heq ▸ hts⟩

theorem required_of_plansKeywords (h : PlansKeywords c members Plan.empty p documents) :
    p.required = [] ∧ Fields.contains members "required" = false ∨
      ∃ v, ("required", v) ∈ members ∧ ("required", v) ∈ documents ∧ p.required = texts v := by
  have hπ : ∀ ρ v p q document, PlansKeyword c ρ v p q document → ρ ≠ .required →
      q.required = p.required := by
    intro ρ v p q document h hρ
    cases h <;> first | rfl | exact absurd rfl hρ
  rcases component_of_keyword "required" rfl hπ h with hnone | ⟨v, _, p', q', hm, hd, hplans, heq⟩
  · exact Or.inl hnone
  · cases hplans with
    | required => exact Or.inr ⟨v, hm, hd, heq⟩

theorem properties_of_plansKeywords (h : PlansKeywords c members Plan.empty p documents) :
    p.properties = [] ∧ Fields.contains members "properties" = false ∨
      ∃ entries docs, ("properties", .obj entries) ∈ members ∧
        ("properties", .obj docs) ∈ documents ∧ PlansEntries c entries p.properties docs := by
  have hπ : ∀ ρ v p q document, PlansKeyword c ρ v p q document → ρ ≠ .properties →
      q.properties = p.properties := by
    intro ρ v p q document h hρ
    cases h <;> first | rfl | exact absurd rfl hρ
  rcases component_of_keyword "properties" rfl hπ h with
    hnone | ⟨v, _, p', q', hm, hd, hplans, heq⟩
  · exact Or.inl hnone
  · cases hplans with
    | properties hentries => exact Or.inr ⟨_, _, hm, hd, heq ▸ hentries⟩

theorem patterns_of_plansKeywords (h : PlansKeywords c members Plan.empty p documents) :
    p.patterns = [] ∧ Fields.contains members "patternProperties" = false ∨
      ∃ entries docs, ("patternProperties", .obj entries) ∈ members ∧
        ("patternProperties", .obj docs) ∈ documents ∧ PlansEntries c entries p.patterns docs := by
  have hπ : ∀ ρ v p q document, PlansKeyword c ρ v p q document → ρ ≠ .patterns →
      q.patterns = p.patterns := by
    intro ρ v p q document h hρ
    cases h <;> first | rfl | exact absurd rfl hρ
  rcases component_of_keyword "patternProperties" rfl hπ h with
    hnone | ⟨v, _, p', q', hm, hd, hplans, heq⟩
  · exact Or.inl hnone
  · cases hplans with
    | patterns hentries => exact Or.inr ⟨_, _, hm, hd, heq ▸ hentries⟩

/-- What a plan says about undeclared properties, the value of `additionalProperties`, and the one
for the evaluator. -/
inductive Additions (c : Context) : Json → Json → Additional Node → Prop where
  | allowed : Additions c (.bool true) (.bool true) .allowed
  | forbidden : Additions c (.bool false) (.bool false) .forbidden
  | schema {v document : Json} {n : Node} (hv : ∀ b, v ≠ .bool b) (h : Plans c v n document) :
      Additions c v document (.schema n)

theorem additional_of_plansKeywords (h : PlansKeywords c members Plan.empty p documents) :
    p.additional = .unspecified ∧ Fields.contains members "additionalProperties" = false ∨
      ∃ v document, ("additionalProperties", v) ∈ members ∧
        ("additionalProperties", document) ∈ documents ∧ Additions c v document p.additional := by
  have hπ : ∀ ρ v p q document, PlansKeyword c ρ v p q document → ρ ≠ .additional →
      q.additional = p.additional := by
    intro ρ v p q document h hρ
    cases h <;> first | rfl | exact absurd rfl hρ
  rcases component_of_keyword "additionalProperties" rfl hπ h with
    hnone | ⟨v, document, p', q', hm, hd, hplans, heq⟩
  · exact Or.inl hnone
  · refine Or.inr ⟨v, document, hm, hd, ?_⟩
    rw [heq]
    cases hplans with
    | allowed => exact .allowed
    | forbidden => exact .forbidden
    | additional hv hn => exact .schema hv hn

theorem allOf_of_plansKeywords (h : PlansKeywords c members Plan.empty p documents) :
    p.allOf = [] ∧ Fields.contains members "allOf" = false ∨
      ∃ xs docs, ("allOf", .arr xs) ∈ members ∧ ("allOf", .arr docs) ∈ documents ∧
        PlansItems c xs p.allOf docs := by
  have hπ : ∀ ρ v p q document, PlansKeyword c ρ v p q document → ρ ≠ .branches →
      q.allOf = p.allOf := by
    intro ρ v p q document h hρ
    cases h <;> first | rfl | exact absurd rfl hρ
  rcases component_of_keyword "allOf" rfl hπ h with hnone | ⟨v, _, p', q', hm, hd, hplans, heq⟩
  · exact Or.inl hnone
  · cases hplans with
    | branches hitems => exact Or.inr ⟨_, _, hm, hd, heq ▸ hitems⟩

theorem items_of_plansKeywords (h : PlansKeywords c members Plan.empty p documents) :
    p.items = none ∧ (∀ v, ("items", v) ∈ members → ∃ xs, v = .arr xs) ∨
      ∃ v document n, ("items", v) ∈ members ∧ ("items", document) ∈ documents ∧
        Plans c v n document ∧ p.items = some n := by
  have hπ : ∀ ρ v p q document, PlansKeyword c ρ v p q document →
      ¬ (ρ = .items ∧ ∀ xs, v ≠ .arr xs) → q.items = p.items := by
    intro ρ v p q document h hρ
    cases h with
    | items hv _ => exact absurd ⟨rfl, hv⟩ hρ
    | _ => rfl
  rcases component_of_plansKeywords hπ h with
    ⟨heq, hnone⟩ | ⟨k, v, document, p', q', hm, hd, ⟨hk, hv⟩, hplans, heq⟩
  · refine Or.inl ⟨heq, fun v hm => ?_⟩
    by_contra hlist
    exact hnone _ hm ⟨rfl, fun xs hxs => hlist ⟨xs, hxs⟩⟩
  · obtain rfl := eq_of_role hk rfl
    refine Or.inr ⟨v, document, ?_⟩
    cases hplans with
    | items _ hn => exact ⟨_, hm, hd, hn, heq⟩
    | itemList _ => exact absurd rfl (hv _)

theorem leading_of_plansKeywords (h : PlansKeywords c members Plan.empty p documents) :
    p.leading = [] ∧ Fields.contains members "prefixItems" = false ∨
      ∃ keyword xs docs, (keyword = "prefixItems" ∨ keyword = "items") ∧
      (keyword, .arr xs) ∈ members ∧ (keyword, .arr docs) ∈ documents ∧
        PlansItems c xs p.leading docs := by
  have hπ : ∀ ρ v p q document, PlansKeyword c ρ v p q document →
      ¬ (ρ = .leading ∨ ρ = .items ∧ ∃ xs, v = .arr xs) → q.leading = p.leading := by
    intro ρ v p q document h hρ
    cases h with
    | leading _ => exact absurd (Or.inl rfl) hρ
    | itemList _ => exact absurd (Or.inr ⟨rfl, _, rfl⟩) hρ
    | _ => rfl
  rcases component_of_plansKeywords hπ h with
    ⟨heq, hnone⟩ | ⟨k, v, document, p', q', hm, hd, hk | ⟨hk, xs, hxs⟩, hplans, heq⟩
  · refine Or.inl ⟨heq, ?_⟩
    rw [← Bool.not_eq_true, Fields.contains_iff]
    rintro ⟨v, hm⟩
    exact hnone _ hm (Or.inl rfl)
  · obtain rfl := eq_of_role hk rfl
    cases hplans with
    | leading hitems => exact Or.inr ⟨_, _, _, Or.inl rfl, hm, hd, heq ▸ hitems⟩
  · obtain rfl := eq_of_role hk rfl
    cases hplans with
    | items hv _ => exact absurd hxs (hv xs)
    | itemList hitems => exact Or.inr ⟨_, _, _, Or.inr rfl, hm, hd, heq ▸ hitems⟩

/-! ## One step down -/

/-- The schema `t` stands in the schema `d`, where plans follow it. -/
def Inside (d t : Json) : Prop := ∃ F : Frame, d = F.fill t

theorem exists_of_plansEntries {entries docs : Fields Json} {nodes : List (String × Node)}
    {name : String} {n : Node} (h : PlansEntries c entries nodes docs) (hn : (name, n) ∈ nodes) :
    ∃ t document, (name, t) ∈ entries ∧ (name, document) ∈ docs ∧ Plans c t n document := by
  induction nodes generalizing entries docs with
  | nil => simp at hn
  | cons m rest ih =>
    cases h with
    | cons h hrest =>
      rcases List.mem_cons.mp hn with heq | hn
      · cases heq
        exact ⟨_, _, List.mem_cons_self, List.mem_cons_self, h⟩
      · rcases ih hrest hn with ⟨t, document, ht, hd, hplans⟩
        exact ⟨t, document, List.mem_cons_of_mem _ ht, List.mem_cons_of_mem _ hd, hplans⟩

theorem exists_of_plansItems {xs docs : List Json} {nodes : List Node} {n : Node}
    (h : PlansItems c xs nodes docs) (hn : n ∈ nodes) :
    ∃ t document, t ∈ xs ∧ document ∈ docs ∧ Plans c t n document := by
  induction nodes generalizing xs docs with
  | nil => simp at hn
  | cons m rest ih =>
    cases h with
    | cons h hrest =>
      rcases List.mem_cons.mp hn with rfl | hn
      · exact ⟨_, _, List.mem_cons_self, List.mem_cons_self, h⟩
      · rcases ih hrest hn with ⟨t, document, ht, hd, hplans⟩
        exact ⟨t, document, List.mem_cons_of_mem _ ht, List.mem_cons_of_mem _ hd, hplans⟩

theorem inside_of_mem (slot : Slot) {t : Json} (h : (slot.keyword, slot.value t) ∈ members) :
    Inside (.obj members) t := by
  rcases List.mem_iff_append.mp h with ⟨left, right, rfl⟩
  exact ⟨.keyword slot left right, rfl⟩

theorem inside_of_property {entries : Fields Json} {name : String} {t : Json}
    (h : ("properties", .obj entries) ∈ members) (ht : (name, t) ∈ entries) :
    Inside (.obj members) t := by
  rcases List.mem_iff_append.mp ht with ⟨before, after, rfl⟩
  exact inside_of_mem (.property before name after) h

theorem inside_of_pattern {entries : Fields Json} {source : String} {t : Json}
    (h : ("patternProperties", .obj entries) ∈ members) (ht : (source, t) ∈ entries) :
    Inside (.obj members) t := by
  rcases List.mem_iff_append.mp ht with ⟨before, after, rfl⟩
  exact inside_of_mem (.pattern before source after) h

theorem inside_of_branch {xs : List Json} {t : Json} (h : ("allOf", .arr xs) ∈ members)
    (ht : t ∈ xs) : Inside (.obj members) t := by
  rcases List.mem_iff_append.mp ht with ⟨before, after, rfl⟩
  exact inside_of_mem (.branch before after) h

theorem inside_of_leading {keyword : String} {xs : List Json} {t : Json}
    (hk : keyword = "prefixItems" ∨ keyword = "items") (h : (keyword, .arr xs) ∈ members)
    (ht : t ∈ xs) : Inside (.obj members) t := by
  rcases List.mem_iff_append.mp ht with ⟨before, after, rfl⟩
  rcases hk with rfl | rfl
  · exact inside_of_mem (.leading before after) h
  · exact inside_of_mem (.itemList before after) h

theorem inside_cases {t : Json} (h : Inside (.obj members) t) :
    (∃ slot : Slot, (slot.keyword, slot.value t) ∈ members) ∨ members = [(Marker.key, t)] := by
  rcases h with ⟨F, hF⟩
  cases F with
  | keyword slot left right =>
    obtain rfl := Json.obj.inj hF
    exact Or.inl ⟨slot, List.mem_append_right _ List.mem_cons_self⟩
  | target => exact Or.inr (Json.obj.inj hF)

/-- The document that a marker carries stands in the marker. -/
theorem inside_of_inline {key : String} {inner : Json} {rest : Fields Json} {f : Fragment}
    (h : Marker.ofMembers? ((key, inner) :: rest) = some (.ok (.inline f))) :
    Inside (.obj ((key, inner) :: rest)) inner := by
  obtain ⟨⟨rfl, rfl⟩, rfl⟩ : (key = Marker.key ∧ inner = f.document) ∧ rest = [] := by
    simpa using members_of_inline h
  exact ⟨.target, rfl⟩

end HttpContract.Planning

namespace HttpContract.Engine

open Planning Normalization

variable {o : Options} {r : Registry} {e : Engine}

/-- A property that passes from schemas to the schemas inside them and to registered ones. -/
structure Inherited (r : Registry) (Q : Json → Prop) : Prop where
  inside : ∀ d t, Q d → Inside d t → Q t
  registry : ∀ handle g, r.get? handle = some g → Q g.document

/-- The node belongs to a schema with the property. -/
def Belongs (e : Engine) (Q : Json → Prop) (n : Node) : Prop :=
  ∃ d document, Q d ∧ Plans e.context d n document

variable {Q : Json → Prop}

/-- What a reference leads to is compiled from a registered schema or from the one it carries. -/
theorem compiled_of_resolve? (hr : ofRegistry o r = .ok e) (hQ : Inherited r Q) {n : Node}
    {s : CompiledSchema} (hn : Belongs e Q n) (hs : e.resolve? n = some s) :
    ∃ d, Q d ∧ Compiled e.context d s := by
  rcases hn with ⟨d, document, hd, hplans⟩
  cases hplans with
  | always b => simp at hs
  | @deferred members handle hm hdefined =>
    have hentry := rel_entry? hr handle
    rw [show e.entry? handle = some s from hs] at hentry
    generalize hget : r.get? handle = x at hentry
    cases hentry with
    | some hcompiled => exact ⟨_, hQ.registry _ _ hget, hcompiled⟩
  | inline hm hinner hevaluator =>
    obtain rfl := Option.some.inj hs
    exact ⟨_, hQ.inside _ _ hd (inside_of_inline hm), _, hinner, hevaluator⟩
  | keywords _ _ => simp at hs

theorem belongs_of_resolve? (hr : ofRegistry o r = .ok e) (hQ : Inherited r Q) {n : Node}
    {s : CompiledSchema} (hn : Belongs e Q n) (hs : e.resolve? n = some s) :
    Belongs e Q s.root := by
  rcases compiled_of_resolve? hr hQ hn hs with ⟨d, hd, document, hplans, -⟩
  exact ⟨d, document, hd, hplans⟩

/-- The nodes inside a plan belong to schemas inside the schema. -/
theorem belongs_of_plan (hQ : Inherited r Q) {p : Plan Node} (hp : Belongs e Q (.plan p)) :
    (∀ m ∈ p.allOf, Belongs e Q m) ∧ (∀ name m, (name, m) ∈ p.properties → Belongs e Q m) ∧
      (∀ source m, (source, m) ∈ p.patterns → Belongs e Q m) ∧
      (∀ m, p.additional = .schema m → Belongs e Q m) ∧ (∀ m ∈ p.leading, Belongs e Q m) ∧
      ∀ m, p.items = some m → Belongs e Q m := by
  rcases hp with ⟨d, document, hd, hplans⟩
  cases hplans with
  | always b => simp [Plan.empty]
  | @keywords members documents _ hm h =>
    refine ⟨fun m hm => ?_, fun name m hm => ?_, fun source m hm => ?_, fun m hm => ?_,
      fun m hm => ?_, fun m hm => ?_⟩
    · rcases allOf_of_plansKeywords h with ⟨hnil, -⟩ | ⟨xs, docs, hxs, -, hitems⟩
      · simp [hnil] at hm
      · rcases exists_of_plansItems hitems hm with ⟨t, document, ht, -, hplans⟩
        exact ⟨t, document, hQ.inside _ _ hd (inside_of_branch hxs ht), hplans⟩
    · rcases properties_of_plansKeywords h with ⟨hnil, -⟩ | ⟨entries, docs, hes, -, hentries⟩
      · simp [hnil] at hm
      · rcases exists_of_plansEntries hentries hm with ⟨t, document, ht, -, hplans⟩
        exact ⟨t, document, hQ.inside _ _ hd (inside_of_property hes ht), hplans⟩
    · rcases patterns_of_plansKeywords h with ⟨hnil, -⟩ | ⟨entries, docs, hes, -, hentries⟩
      · simp [hnil] at hm
      · rcases exists_of_plansEntries hentries hm with ⟨t, document, ht, -, hplans⟩
        exact ⟨t, document, hQ.inside _ _ hd (inside_of_pattern hes ht), hplans⟩
    · rcases additional_of_plansKeywords h with ⟨hnone, -⟩ | ⟨v, document, hv, -, hadditions⟩
      · simp [hnone] at hm
      · rw [hm] at hadditions
        cases hadditions with
        | schema _ hplans =>
          exact ⟨v, document, hQ.inside _ _ hd (inside_of_mem .additional hv), hplans⟩
    · rcases leading_of_plansKeywords h with ⟨hnil, -⟩ | ⟨keyword, xs, docs, hk, hxs, -, hitems⟩
      · simp [hnil] at hm
      · rcases exists_of_plansItems hitems hm with ⟨t, document, ht, -, hplans⟩
        exact ⟨t, document, hQ.inside _ _ hd (inside_of_leading hk hxs ht), hplans⟩
    · rcases items_of_plansKeywords h with ⟨hnone, -⟩ | ⟨v, document, n, hv, -, hplans, hn⟩
      · simp [hnone] at hm
      · obtain rfl := Option.some.inj (hn.symm.trans hm)
        exact ⟨v, document, hQ.inside _ _ hd (inside_of_mem .items hv), hplans⟩

/-- What holds of the schema of a node and of all registered schemas, and passes on to the schemas
inside, holds of the schema of every node that is reached. -/
theorem belongs_of_reaches (hr : ofRegistry o r = .ok e) (hQ : Inherited r Q) {n m : Node}
    (hn : Belongs e Q n) (h : Reaches e n m) : Belongs e Q m := by
  induction h with
  | here => exact hn
  | reference _ hs ih => exact belongs_of_resolve? hr hQ ih hs
  | branch _ hm ih => exact (belongs_of_plan hQ ih).1 _ hm
  | property _ hm ih => exact (belongs_of_plan hQ ih).2.1 _ _ hm
  | pattern _ hm ih => exact (belongs_of_plan hQ ih).2.2.1 _ _ hm
  | additional _ hm ih => exact (belongs_of_plan hQ ih).2.2.2.1 _ hm
  | leading _ hm ih => exact (belongs_of_plan hQ ih).2.2.2.2.1 _ hm
  | items _ hm ih => exact (belongs_of_plan hQ ih).2.2.2.2.2 _ hm

end HttpContract.Engine
