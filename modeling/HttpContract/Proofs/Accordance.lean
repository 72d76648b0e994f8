import HttpContract.Proofs.Judging
import HttpContract.Proofs.Positions
import HttpContract.Proofs.Sorted

/-!
# What evaluation says about plans

A plan and the document for the evaluator come from the same schema. A value that violates nothing
of the document therefore has the types that the plan declares and the properties that it requires,
and its parts violate nothing of the documents that go with the nodes for them: one lemma on
`Accords` for each part of a plan.
-/

namespace HttpContract

namespace Json

mutual

theorem depth_le_size : ∀ v : Json, v.depth ≤ v.size
  | .arr xs => by
    have hle := depthItems_le_size xs
    rw [depth, size]
    omega
  | .obj ms => by
    have hle := depthMembers_le_size ms
    rw [depth, size]
    omega
  | .null => Nat.zero_le _
  | .bool _ => Nat.zero_le _
  | .num _ => Nat.zero_le _
  | .str _ => Nat.zero_le _
termination_by structural v => v

theorem depthItems_le_size : ∀ xs : List Json, depthItems xs ≤ sizeItems xs
  | [] => Nat.le_refl _
  | x :: rest => by
    have hx := depth_le_size x
    have hrest := depthItems_le_size rest
    rw [depthItems, sizeItems]
    omega
termination_by structural xs => xs

theorem depthMembers_le_size : ∀ ms : Fields Json, depthMembers ms ≤ sizeMembers ms
  | [] => Nat.le_refl _
  | (_, x) :: rest => by
    have hx := depth_le_size x
    have hrest := depthMembers_le_size rest
    rw [depthMembers, sizeMembers]
    omega
termination_by structural ms => ms

end

end Json

/-- Evaluation has more steps than its schema has levels. -/
theorem Evaluator.depth_lt_steps (e : Evaluator) (v : Json) : e.root.depth < e.steps v := by
  have hle := e.root.depth_le_size
  calc e.root.depth < 1 * (e.library.size + e.root.size + 2) := by omega
    _ ≤ (v.depth + 2) * (e.library.size + e.root.size + 2) :=
      Nat.mul_le_mul_right _ (Nat.succ_le_succ (Nat.zero_le _))

namespace Normalization

theorem mem_memberNodes_cases {p : Plan Node} {key : String} {n : Node}
    (h : n ∈ memberNodes p key) : Fields.get? p.properties key = some n ∨
      (∃ source, (source, n) ∈ p.patterns ∧ Pattern.found source key = true) ∨
      Fields.get? p.properties key = none ∧ p.matching key = [] ∧ p.additional = .schema n := by
  unfold memberNodes at h
  split at h
  · next hnil =>
    obtain ⟨hnamed, hmatched⟩ := List.append_eq_nil_iff.mp hnil
    split at h
    · next m hadditional =>
      obtain rfl : n = m := by simpa using h
      exact Or.inr (Or.inr ⟨by simpa using hnamed, List.map_eq_nil_iff.mp hmatched, hadditional⟩)
    · simp at h
  · rcases List.mem_append.mp h with h | h
    · exact Or.inl (Option.mem_toList.mp h)
    · rcases List.mem_map.mp h with ⟨⟨source, m⟩, hm, rfl⟩
      rcases List.mem_filter.mp hm with ⟨hm, hfound⟩
      exact Or.inr (Or.inl ⟨source, hm, hfound⟩)

end Normalization

namespace Planning

open Evaluation

variable {c : Context} {members documents : Fields Json} {p q : Plan Node}

/-! ## Data of keywords -/

theorem admitted_of_types? {arg v : Json} {ts : List JsonType} (hts : types? arg = some ts)
    (h : Assertion.typeViolations arg v = []) : ts = [] ∨ Coercion.admitted ts v = true := by
  -- the names that evaluation reads are those of the types
  have hnames : ∀ (names : List Json) (ts : List JsonType),
      names.mapM (fun n => n.text?.bind JsonType.ofName?) = some ts →
        (names.filterMap Json.text?).map (Assertion.hasType v) = ts.map (fun t => t.admits v) := by
    intro names
    induction names with
    | nil =>
      intro ts hts
      obtain rfl : [] = ts := by simpa using hts
      rfl
    | cons n rest ih =>
      intro ts hts
      rw [List.mapM_cons] at hts
      rcases Option.bind_eq_some_iff.mp hts with ⟨t, ht, hts⟩
      rcases Option.bind_eq_some_iff.mp hts with ⟨others, hothers, hts⟩
      obtain rfl : t :: others = ts := by simpa using hts
      rcases Option.bind_eq_some_iff.mp ht with ⟨name, hname, ht⟩
      rw [List.filterMap_cons, hname, List.map_cons, List.map_cons, ih others hothers,
        Assertion.hasType, ht]
      rfl
  have hadmitted : ∀ names : List String,
      names.map (Assertion.hasType v) = ts.map (fun t => t.admits v) →
        (names.isEmpty = true ∨ names.any (Assertion.hasType v) = true) →
          ts = [] ∨ Coercion.admitted ts v = true := by
    intro names heq hor
    rcases hor with hempty | hany
    · left
      rw [List.isEmpty_iff] at hempty
      subst hempty
      exact List.map_eq_nil_iff.mp heq.symm
    · right
      have hsame := congrArg (fun bs : List Bool => bs.any id) heq
      simp only [List.any_map, Function.id_comp] at hsame
      exact hsame.symm.trans hany
  have hviolations : ∀ names : List String,
      (if names.isEmpty ∨ names.any (Assertion.hasType v) then []
        else [Violation.type v (Assertion.sortedNames names)]) = [] →
          (names.isEmpty = true ∨ names.any (Assertion.hasType v) = true) := by
    intro names hnil
    split at hnil
    · assumption
    · cases hnil
  cases arg with
  | str name =>
    rcases Option.map_eq_some_iff.mp hts with ⟨t, ht, rfl⟩
    refine hadmitted [name] ?_ (hviolations _ h)
    simp [Assertion.hasType, ht]
  | arr names => exact hadmitted _ (hnames names ts hts) (hviolations _ h)
  | _ => cases hts

theorem contains_of_required {arg : Json} {entries : Fields Json} {name : String}
    (hname : name ∈ texts arg) (h : Assertion.requiredViolations arg (.obj entries) = []) :
    Fields.contains entries name = true := by
  cases arg with
  | arr names =>
    have hmissing : Assertion.missing names entries = [] := List.map_eq_nil_iff.mp h
    simpa using List.filter_eq_nil_iff.mp hmissing name hname
  | _ => simp [texts, Json.items?] at hname

/-! ## Documents in the order of their schemas -/

theorem keys_of_plansKeywords {members documents : Fields Json} {p q : Plan Node}
    (h : PlansKeywords c members p q documents) : Fields.keys documents = Fields.keys members :=
  keys_eq_of_forall₂ (R := fun _ _ => True)
    ((forall₂_of_plansKeywords h).imp (fun _ _ hab => ⟨hab.1, trivial⟩))

theorem keys_of_plansEntries {entries docs : Fields Json} {nodes : List (String × Node)}
    (h : PlansEntries c entries nodes docs) : Fields.keys docs = Fields.keys nodes := by
  induction nodes generalizing entries docs with
  | nil =>
    cases h
    rfl
  | cons m rest ih =>
    cases h with
    | cons _ hrest => exact congrArg (_ :: ·) (ih hrest)

theorem rel_get?_of_plansEntries {entries docs : Fields Json} {nodes : List (String × Node)}
    (h : PlansEntries c entries nodes docs) (key : String) :
    Option.Rel (fun n document => ∃ t, (key, t) ∈ entries ∧ Plans c t n document)
      (Fields.get? nodes key) (Fields.get? docs key) := by
  induction nodes generalizing entries docs with
  | nil =>
    cases h
    exact .none
  | cons m rest ih =>
    cases h with
    | @cons name t document n rest docs nodes h hrest =>
      rw [Fields.get?_cons, Fields.get?_cons]
      split
      · next heq =>
        subst heq
        exact .some ⟨t, List.mem_cons_self, h⟩
      · exact rel_mono (fun _ _ ⟨t, ht, hplans⟩ => ⟨t, List.mem_cons_of_mem _ ht, hplans⟩)
          (ih hrest)

theorem getElem?_of_plansItems {xs docs : List Json} {nodes : List Node} {n : Node} {i : Nat}
    (h : PlansItems c xs nodes docs) (hn : nodes[i]? = some n) :
    ∃ t document, t ∈ xs ∧ docs[i]? = some document ∧ Plans c t n document := by
  induction nodes generalizing xs docs i with
  | nil => simp at hn
  | cons m rest ih =>
    cases h with
    | cons h hrest =>
      cases i with
      | zero =>
        obtain rfl := Option.some.inj hn
        exact ⟨_, _, List.mem_cons_self, rfl, h⟩
      | succ i =>
        rcases ih hrest (by simpa using hn) with ⟨t, document, ht, hd, hplans⟩
        exact ⟨t, document, List.mem_cons_of_mem _ ht, by simpa using hd, hplans⟩

theorem length_of_plansItems {xs docs : List Json} {nodes : List Node}
    (h : PlansItems c xs nodes docs) : docs.length = nodes.length := by
  induction nodes generalizing xs docs with
  | nil =>
    cases h
    rfl
  | cons m rest ih =>
    cases h with
    | cons _ hrest => rw [List.length_cons, List.length_cons, ih hrest]

theorem ordered_of_inside {d t : Json} (h : Inside d t) (hd : d.Ordered) : t.Ordered := by
  rcases h with ⟨F, rfl⟩
  cases F with
  | keyword slot left right =>
    have hvalue : (slot.value t).Ordered :=
      Json.ordered_of_mem hd.2 (List.mem_append_right left List.mem_cons_self)
    cases slot with
    | property before name after =>
      exact Json.ordered_of_mem hvalue.2 (List.mem_append_right before List.mem_cons_self)
    | pattern before source after =>
      exact Json.ordered_of_mem hvalue.2 (List.mem_append_right before List.mem_cons_self)
    | additional => exact hvalue
    | items => exact hvalue
    | itemList before after =>
      exact Json.ordered_of_mem_items hvalue (List.mem_append_right before List.mem_cons_self)
    | leading before after =>
      exact Json.ordered_of_mem_items hvalue (List.mem_append_right before List.mem_cons_self)
    | branch before after =>
      exact Json.ordered_of_mem_items hvalue (List.mem_append_right before List.mem_cons_self)
  | target => exact Json.ordered_of_mem hd.2 List.mem_cons_self

/-! ## Values in accordance with a node -/

/-- The document that goes with a node of a schema has been checked, and evaluation has found that
the value violates nothing of it. -/
def Accords (c : Context) (n : Node) (v : Json) : Prop :=
  ∃ d document, d.Ordered ∧ Plans c d n document ∧ Verified document ∧ Judged document v

/-- The keywords that a plan comes from, each with its value for the evaluator. -/
structure Documented (c : Context) (p : Plan Node) (members documents : Fields Json) (v : Json) :
    Prop where
  ordered : (Json.obj members).Ordered
  plans : PlansKeywords c members Plan.empty p documents
  verified : Verified (.obj documents)
  judged : Judged (.obj documents) v

variable {v : Json}

theorem Accords.documented (h : Accords c (.plan p) v) :
    p = Plan.empty ∨ ∃ members documents, Documented c p members documents v := by
  rcases h with ⟨d, document, hordered, hplans, hverified, hjudged⟩
  cases hplans with
  | always b => exact Or.inl rfl
  | keywords hm h => exact Or.inr ⟨_, _, hordered, h, hverified, hjudged⟩

namespace Documented

variable {k : String} {arg d : Json} {n : Node}

theorem get? (h : Documented c p members documents v) (hm : (k, arg) ∈ documents) :
    Fields.get? documents k = some arg :=
  Fields.get?_of_mem (Fields.ordered_of_keys_eq (keys_of_plansKeywords h.plans) h.ordered.1) hm

theorem get?_none (h : Documented c p members documents v)
    (hnone : Fields.contains members k = false) : Fields.get? documents k = none := by
  rw [← Option.not_isSome_iff_eq_none]
  intro hsome
  have hkey : k ∈ Fields.keys documents := (Fields.contains_iff_mem_keys _ _).mp hsome
  rw [keys_of_plansKeywords h.plans, ← Fields.contains_iff_mem_keys, hnone] at hkey
  cases hkey

theorem ordered_inside (h : Documented c p members documents v) {t : Json}
    (ht : Inside (.obj members) t) : t.Ordered :=
  ordered_of_inside ht h.ordered

theorem exists_properties (h : Documented c p members documents v) {docs : Fields Json}
    (hget : Fields.get? documents "properties" = some (.obj docs)) :
    ∃ entries, PlansEntries c entries p.properties docs := by
  rcases properties_of_plansKeywords h.plans with ⟨-, hnone⟩ | ⟨entries, docs', -, hdocs, hentries⟩
  · rw [h.get?_none hnone] at hget
    cases hget
  · rw [h.get? hdocs] at hget
    cases hget
    exact ⟨entries, hentries⟩

theorem exists_patterns (h : Documented c p members documents v) {docs : Fields Json}
    (hget : Fields.get? documents "patternProperties" = some (.obj docs)) :
    ∃ entries, PlansEntries c entries p.patterns docs := by
  rcases patterns_of_plansKeywords h.plans with ⟨-, hnone⟩ | ⟨entries, docs', -, hdocs, hentries⟩
  · rw [h.get?_none hnone] at hget
    cases hget
  · rw [h.get? hdocs] at hget
    cases hget
    exact ⟨entries, hentries⟩

/-- Only `prefixItems` has leading items. -/
theorem leading (h : Documented c p members documents v) :
    p.leading = [] ∧ Fields.contains members "prefixItems" = false ∨
      ∃ xs docs, ("prefixItems", .arr xs) ∈ members ∧ ("prefixItems", .arr docs) ∈ documents ∧
        PlansItems c xs p.leading docs := by
  rcases leading_of_plansKeywords h.plans with
    hnone | ⟨keyword, xs, docs, rfl | rfl, hxs, hdocs, hitems⟩
  · exact Or.inl hnone
  · exact Or.inr ⟨xs, docs, hxs, hdocs, hitems⟩
  · exact absurd hdocs (h.verified.not_itemList docs)

theorem leadingCount_eq (h : Documented c p members documents v) :
    leadingCount documents = p.leading.length := by
  unfold leadingCount
  rcases h.leading with ⟨hnil, hnone⟩ | ⟨xs, docs, -, hdocs, hitems⟩
  · rw [h.get?_none hnone, hnil]
    rfl
  · rw [h.get? hdocs]
    exact length_of_plansItems hitems

/-- A property that only the additional schema applies to. -/
theorem additional {entries : Fields Json} {key : String} {x : Json}
    (h : Documented c p members documents (.obj entries))
    (hunnamed : Fields.get? p.properties key = none) (hunmatched : p.matching key = [])
    (hn : p.additional = .schema n) (hx : Fields.get? entries key = some x) : Accords c n x := by
  rcases additional_of_plansKeywords h.plans with ⟨hnone, -⟩ | ⟨d, document, hm, hd, hadditions⟩
  · simp [hn] at hnone
  rw [hn] at hadditions
  cases hadditions with
  | schema hbool hplans =>
    refine ⟨d, document, h.ordered_inside (inside_of_mem .additional hm), hplans,
      h.verified.single hd List.mem_cons_self, ?_⟩
    cases hplans with
    | always b => exact absurd rfl (hbool b)
    | deferred _ _ => exact .bool_true x
    | inline _ _ _ => exact .bool_true x
    | keywords _ _ =>
      refine h.judged.additional (h.get? hd) (fun docs hdocs => ?_) (fun docs hdocs m hm => ?_)
        (Fields.mem_of_get? hx)
      · rcases h.exists_properties hdocs with ⟨es, hentries⟩
        have hrel := rel_get?_of_plansEntries hentries key
        rw [hunnamed] at hrel
        generalize Fields.get? docs key = document? at hrel ⊢
        cases hrel
        rfl
      · rcases h.exists_patterns hdocs with ⟨es, hentries⟩
        have hkey : m.1 ∈ Fields.keys p.patterns :=
          keys_of_plansEntries hentries ▸ List.mem_map.mpr ⟨m, hm, rfl⟩
        rcases List.mem_map.mp hkey with ⟨y, hy, heq⟩
        rw [← heq]
        simpa using List.filter_eq_nil_iff.mp hunmatched y hy

end Documented

namespace Accords

/-- The value has one of the declared types. -/
theorem types (h : Accords c (.plan p) v) :
    p.types = [] ∨ Coercion.admitted p.types v = true := by
  rcases h.documented with rfl | ⟨members, documents, h⟩
  · exact Or.inl rfl
  · rcases types_of_plansKeywords h.plans with ⟨hnil, -⟩ | ⟨arg, -, hd, hts⟩
    · exact Or.inl hnil
    · exact admitted_of_types? hts (h.judged.type hd)

/-- The value has the required properties. -/
theorem required {entries : Fields Json} {name : String} (h : Accords c (.plan p) (.obj entries))
    (hname : name ∈ p.required) : Fields.contains entries name = true := by
  rcases h.documented with rfl | ⟨members, documents, h⟩
  · simp [Plan.empty] at hname
  · rcases required_of_plansKeywords h.plans with ⟨hnil, -⟩ | ⟨arg, -, hd, htexts⟩
    · simp [hnil] at hname
    · rw [htexts] at hname
      exact contains_of_required hname (h.judged.required hd)

theorem branch {n : Node} (h : Accords c (.plan p) v) (hn : n ∈ p.allOf) : Accords c n v := by
  rcases h.documented with rfl | ⟨members, documents, h⟩
  · simp [Plan.empty] at hn
  · rcases allOf_of_plansKeywords h.plans with ⟨hnil, -⟩ | ⟨xs, docs, hxs, hdocs, hitems⟩
    · simp [hnil] at hn
    · rcases exists_of_plansItems hitems hn with ⟨t, document, ht, hd, hplans⟩
      exact ⟨t, document, h.ordered_inside (inside_of_branch hxs ht), hplans,
        h.verified.listed hdocs hd hd, h.judged.branch hdocs hd⟩

/-- The schemas that apply to a property say nothing against its value. -/
theorem member {entries : Fields Json} {key : String} {n : Node} {x : Json}
    (h : Accords c (.plan p) (.obj entries)) (hn : n ∈ Normalization.memberNodes p key)
    (hx : Fields.get? entries key = some x) : Accords c n x := by
  rcases h.documented with rfl | ⟨members, documents, h⟩
  · simp [Normalization.memberNodes, Plan.empty, Plan.matching] at hn
  · rcases Normalization.mem_memberNodes_cases hn with hn | ⟨source, hn, hfound⟩ |
      ⟨hunnamed, hunmatched, hn⟩
    · rcases properties_of_plansKeywords h.plans with ⟨hnil, -⟩ | ⟨es, docs, hes, hdocs, hentries⟩
      · simp [hnil] at hn
      · have hrel := rel_get?_of_plansEntries hentries key
        rw [hn] at hrel
        generalize hget : Fields.get? docs key = document? at hrel
        cases hrel with
        | @some _ document hplans =>
          rcases hplans with ⟨t, ht, hplans⟩
          have hd := Fields.mem_of_get? hget
          exact ⟨t, document, h.ordered_inside (inside_of_property hes ht), hplans,
            h.verified.named hdocs hd (List.mem_map.mpr ⟨_, hd, rfl⟩),
            h.judged.property (h.get? hdocs) hget hx⟩
    · rcases patterns_of_plansKeywords h.plans with ⟨hnil, -⟩ | ⟨es, docs, hes, hdocs, hentries⟩
      · simp [hnil] at hn
      · rcases exists_of_plansEntries hentries hn with ⟨t, document, ht, hd, hplans⟩
        exact ⟨t, document, h.ordered_inside (inside_of_pattern hes ht), hplans,
          h.verified.named hdocs hd (List.mem_map.mpr ⟨_, hd, rfl⟩),
          h.judged.pattern (h.get? hdocs) hd hfound (Fields.mem_of_get? hx)⟩
    · exact h.additional hunnamed hunmatched hn hx

/-- The schemas that apply to an item say nothing against it. -/
theorem item {items : List Json} {i : Nat} {n : Node} {x : Json}
    (h : Accords c (.plan p) (.arr items)) (hn : n ∈ Normalization.itemNodes p i)
    (hx : items[i]? = some x) : Accords c n x := by
  rcases h.documented with rfl | ⟨members, documents, h⟩
  · simp [Normalization.itemNodes, Plan.empty] at hn
  · unfold Normalization.itemNodes at hn
    cases hleading : p.leading[i]? with
    | some m =>
      rw [hleading] at hn
      obtain rfl := List.mem_singleton.mp hn
      rcases h.leading with ⟨hnil, -⟩ | ⟨xs, docs, hxs, hdocs, hitems⟩
      · simp [hnil] at hleading
      · rcases getElem?_of_plansItems hitems hleading with ⟨t, document, ht, hd, hplans⟩
        have hmem := List.mem_of_getElem? hd
        exact ⟨t, document, h.ordered_inside (inside_of_leading (Or.inl rfl) hxs ht), hplans,
          h.verified.listed hdocs hmem hmem, h.judged.leading hdocs hd hx⟩
    | none =>
      rw [hleading] at hn
      rcases items_of_plansKeywords h.plans with
        ⟨hnone, -⟩ | ⟨d, document, m, hm, hd, hplans, hitems⟩
      · simp [hnone] at hn
      · obtain rfl : n = m := by simpa [hitems] using hn
        have hcount : leadingCount documents ≤ i := by
          refine Nat.le_trans (Nat.le_of_eq ?_) (List.getElem?_eq_none_iff.mp hleading)
          exact h.leadingCount_eq
        exact ⟨d, document, h.ordered_inside (inside_of_mem .items hm), hplans,
          h.verified.single hd List.mem_cons_self,
          h.judged.remaining hd hcount hx⟩

end Accords

/-- An evaluator that was built has been checked, with steps enough for all levels of the schema. -/
theorem verified_of_build {d : Json} {resources : List Resource} {e : Evaluator}
    (h : Evaluator.build d resources = .ok e)
    (hspecification : Library.followsSpecification e.root = true) : e.root = d ∧ Verified d := by
  unfold Evaluator.build at h
  -- what is found is left open, it would be computed otherwise
  generalize Metaschema.evaluator.findings d = found at h
  dsimp only at h
  split at h
  · cases h
  · split at h
    · cases h
    · rcases bind_eq_ok h with ⟨followed, hverify, h⟩
      obtain rfl := Except.ok.inj h
      refine ⟨rfl, _, _, _, _, followed, hspecification, ?_, hverify⟩
      have hlt : ∀ e : Evaluator, e.root.depth < e.steps .null * e.steps .null := by
        intro e
        have hsteps := e.depth_lt_steps .null
        exact Nat.lt_of_lt_of_le hsteps (Nat.le_mul_of_pos_left _ (Nat.zero_lt_of_lt hsteps))
      exact hlt (Evaluator.mk _ _ d)

/-- What the evaluator of a compiled schema accepts is in accordance with its root. -/
theorem accords_of_compiled {d : Json} {s : CompiledSchema} (h : Compiled c d s) (hd : d.Ordered)
    (hspecification : Library.followsSpecification s.evaluator.root = true)
    (haccepts : s.evaluator.accepts v = true) : Accords c s.root v := by
  rcases h with ⟨document, hplans, hbuild⟩
  rcases verified_of_build hbuild hspecification with ⟨rfl, hverified⟩
  exact ⟨d, _, hd, hplans, hverified, _, _, _, hspecification, List.isEmpty_iff.mp haccepts⟩

end Planning

end HttpContract
