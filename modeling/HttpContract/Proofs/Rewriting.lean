import HttpContract.Proofs.Approval
import HttpContract.Proofs.Conformance

/-!
# Rewriting schemas that are planned

Where plans do not follow it, a schema is rewritten for evaluators as a whole: whatever has the key
of markers is replaced, and what stands under the name of a data keyword is left alone. Objects of
schemas are no exception, although their members are named by whoever wrote the schema. Where these
names are in nobody's way (`Regular`), rewriting and planning make the same of a schema apart from
the markers at positions that plans follow: the keywords beside are the same
(`beside_eq_of_rewrites`), and schemas stand under the same names (`related_of_rewrites`).
-/

namespace HttpContract.Evaluation

/-! ## Schemas that plans follow -/

/-- The schemas under the keywords that plans follow. -/
def Planned : Fields Json → Json → Prop :=
  Under ["additionalProperties", "items"] ["allOf", "prefixItems"]
    ["patternProperties", "properties"]

section

variable {members : Fields Json} {k : String} {s : Json}

theorem planned_of_entry {m : String × Json} (hk : k ∈ ["patternProperties", "properties"])
    (h : m ∈ entriesOf members k) : Planned members m.2 := by
  rcases exists_of_mem_entriesOf h with ⟨ss, hss, hm⟩
  exact .named hk hss hm

theorem planned_of_item (hk : k ∈ ["allOf", "prefixItems"]) (h : s ∈ itemsOf members k) :
    Planned members s := by
  rcases exists_of_mem_itemsOf h with ⟨xs, hxs, hs⟩
  exact .listed hk hxs hs

theorem planned_of_get? (hk : k ∈ ["additionalProperties", "items"])
    (h : Fields.get? members k = some s) : Planned members s :=
  .single hk (Fields.mem_of_get? h)

end

/-- Related schemas stand under the same keywords of either side. -/
theorem Related.imp_of_planned {E E' : Json → Json → Prop} {members members' : Fields Json}
    (h : Related E members members')
    (hE : ∀ s s', Planned members s → Planned members' s' → E s s' → E' s s') :
    Related E' members members' := by
  have hrel : ∀ {k : String}, k ∈ ["additionalProperties", "items"] →
      Option.Rel E (Fields.get? members k) (Fields.get? members' k) →
        Option.Rel E' (Fields.get? members k) (Fields.get? members' k) := by
    intro k hk h
    generalize hx : Fields.get? members k = x at h ⊢
    generalize hx' : Fields.get? members' k = x' at h ⊢
    cases h with
    | none => exact .none
    | some h => exact .some (hE _ _ (planned_of_get? hk hx) (planned_of_get? hk hx') h)
  exact {
    properties := forall₂_imp_of_mem h.properties (fun _ _ ha hb hab =>
      ⟨hab.1, hE _ _ (planned_of_entry (by decide) ha) (planned_of_entry (by decide) hb) hab.2⟩)
    patterns := forall₂_imp_of_mem h.patterns (fun _ _ ha hb hab =>
      ⟨hab.1, hE _ _ (planned_of_entry (by decide) ha) (planned_of_entry (by decide) hb) hab.2⟩)
    additional := hrel (by decide) h.additional
    leading := forall₂_imp_of_mem h.leading (fun _ _ ha hb hab =>
      hE _ _ (planned_of_item (by decide) ha) (planned_of_item (by decide) hb) hab)
    items := hrel (by decide) h.items
    branches := forall₂_imp_of_mem h.branches (fun _ _ ha hb hab =>
      hE _ _ (planned_of_item (by decide) ha) (planned_of_item (by decide) hb) hab) }

/-- What stands in one of two related schemas has a counterpart in the other. -/
theorem Related.exists_of_planned {E : Json → Json → Prop} {members members' : Fields Json}
    {s : Json} (h : Related E members members') (hordered : Fields.Ordered members)
    (hs : Planned members s) : ∃ s', Planned members' s' ∧ E s s' := by
  cases hs with
  | single hk hs =>
    have hget := Fields.get?_of_mem hordered hs
    rcases List.mem_pair.mp hk with rfl | rfl
    · rcases exists_of_rel (rel_symm h.additional) hget with ⟨s', hs', hrel⟩
      exact ⟨s', planned_of_get? (by decide) hs', hrel⟩
    · rcases exists_of_rel (rel_symm h.items) hget with ⟨s', hs', hrel⟩
      exact ⟨s', planned_of_get? (by decide) hs', hrel⟩
  | listed hk hxs hs =>
    have hmem := Planning.mem_itemsOf hordered hxs hs
    rcases List.mem_pair.mp hk with rfl | rfl
    · rcases exists_of_forall₂ h.branches hmem with ⟨s', hs', hrel⟩
      exact ⟨s', planned_of_item (by decide) hs', hrel⟩
    · rcases exists_of_forall₂ h.leading hmem with ⟨s', hs', hrel⟩
      exact ⟨s', planned_of_item (by decide) hs', hrel⟩
  | @named k name ss _ hk hss hs =>
    have hmem : (name, s) ∈ entriesOf members k := by
      rw [entriesOf, Fields.get?_of_mem hordered hss]
      exact hs
    rcases List.mem_pair.mp hk with rfl | rfl
    · rcases exists_of_forall₂ h.patterns hmem with ⟨m, hm, -, hrel⟩
      exact ⟨m.2, planned_of_entry (by decide) hm, hrel⟩
    · rcases exists_of_forall₂ h.properties hmem with ⟨m, hm, -, hrel⟩
      exact ⟨m.2, planned_of_entry (by decide) hm, hrel⟩

end HttpContract.Evaluation

namespace HttpContract.Metaschema

open Evaluation

/-- The schemas that plans follow conform like the schema itself. -/
theorem Conforms.planned {members : Fields Json} {s : Json} (h : Conforms (.obj members))
    (hordered : Fields.Ordered members) (hs : Planned members s) : Conforms s := by
  cases hs with
  | single hk hs =>
    have hsub : ["additionalProperties", "items"] ⊆
        ["additionalProperties", "items", "if", "then", "else", "not"] := by decide
    exact h.single (hsub hk) (Fields.get?_of_mem hordered hs)
  | listed hk hxs hs =>
    have hsub : ["allOf", "prefixItems"] ⊆ ["prefixItems", "allOf", "anyOf", "oneOf"] := by decide
    rcases h.listed (hsub hk) (Fields.get?_of_mem hordered hxs) with ⟨xs, heq, hconforms⟩
    cases heq
    exact hconforms s hs
  | named hk hss hs =>
    have hk := List.mem_pair.mpr (List.mem_pair.mp hk).symm
    exact h.named hk (Fields.get?_of_mem hordered hss) _ hs

end HttpContract.Metaschema

namespace HttpContract.Planning

open Evaluation Normalization

/-! ## Regular schemas -/

/-- Rewriting leaves the document as it is. -/
def Literal (d : Json) : Prop := ∀ defined, Rewrites defined d d

/-- No name of a schema is taken for a keyword: none is the key of markers, and only schemas that
rewriting leaves as they are have the name of a data keyword. -/
def NamesApart (schemas : Fields Json) : Prop :=
  Fields.contains schemas Marker.key = false ∧
    ∀ m ∈ schemas, m.1 ∈ EvaluationForm.dataKeywords → Literal m.2

/-- The schema is no marker, and neither is a branch of it, a branch of a branch, and so on. -/
inductive Apparent : Json → Prop where
  | bool (b : Bool) : Apparent (.bool b)
  | obj {members : Fields Json} (hm : Marker.ofMembers? members = none)
      (h : ∀ s ∈ itemsOf members "allOf", Apparent s) : Apparent (.obj members)

/-- At all positions that plans follow, names of schemas are not taken for keywords, and no schema
that asks what others have left over has a marker for a branch. -/
inductive Regular : Json → Prop where
  | obj {members : Fields Json}
      (hnames : ∀ k ∈ ["properties", "patternProperties"], NamesApart (entriesOf members k))
      (hbranches : ∀ k ∈ unevaluatedKeywords, Fields.contains members k = true →
        ∀ s ∈ itemsOf members "allOf", Apparent s)
      (hinside : ∀ s, Inside (.obj members) s → Regular s) : Regular (.obj members)
  | data {d : Json} (hd : ∀ members, d ≠ .obj members) : Regular d

namespace Regular

variable {members : Fields Json} (h : Regular (.obj members))

include h

theorem names {k : String} (hk : k ∈ ["properties", "patternProperties"]) :
    NamesApart (entriesOf members k) := by
  cases h with
  | obj hnames _ _ => exact hnames k hk
  | data hd => exact absurd rfl (hd members)

theorem branches {k : String} (hk : k ∈ unevaluatedKeywords)
    (hcontains : Fields.contains members k = true) :
    ∀ s ∈ itemsOf members "allOf", Apparent s := by
  cases h with
  | obj _ hbranches _ => exact hbranches k hk hcontains
  | data hd => exact absurd rfl (hd members)

theorem inside {s : Json} (hs : Inside (.obj members) s) : Regular s := by
  cases h with
  | obj _ _ hinside => exact hinside s hs
  | data hd => exact absurd rfl (hd members)

end Regular

theorem namesApart_of_not_mem {schemas : Fields Json}
    (h : ∀ name ∈ Fields.keys schemas, name ∉ Marker.key :: EvaluationForm.dataKeywords) :
    NamesApart schemas := by
  constructor
  · rw [← Bool.not_eq_true, Fields.contains_iff_mem_keys]
    exact fun hmem => h _ hmem List.mem_cons_self
  · exact fun m hm hdata => absurd (List.mem_cons_of_mem _ hdata) (h m.1 (List.mem_map_of_mem hm))

theorem components_subset_of_inside {d t : Json} (h : Inside d t) :
    t.components ⊆ d.components := by
  rcases h with ⟨F, rfl⟩
  cases F with
  | keyword slot left right =>
    refine List.Subset.trans ?_
      (Json.components_subset_obj (List.mem_append_right left List.mem_cons_self))
    cases slot with
    | property before name after =>
      exact Json.components_subset_obj (List.mem_append_right before List.mem_cons_self)
    | pattern before source after =>
      exact Json.components_subset_obj (List.mem_append_right before List.mem_cons_self)
    | additional => exact List.Subset.refl _
    | items => exact List.Subset.refl _
    | itemList before after =>
      exact Json.components_subset_arr (List.mem_append_right before List.mem_cons_self)
    | leading before after =>
      exact Json.components_subset_arr (List.mem_append_right before List.mem_cons_self)
    | branch before after =>
      exact Json.components_subset_arr (List.mem_append_right before List.mem_cons_self)
  | target => exact Json.components_subset_obj List.mem_cons_self

theorem depth_lt_of_inside {d t : Json} (h : Inside d t) : t.depth < d.depth := by
  rcases h with ⟨F, rfl⟩
  cases F with
  | keyword slot left right =>
    refine Nat.lt_of_le_of_lt ?_
      (Json.depth_lt_of_mem_obj (List.mem_append_right left List.mem_cons_self))
    cases slot with
    | property before name after =>
      exact (Json.depth_lt_of_mem_obj (List.mem_append_right before List.mem_cons_self)).le
    | pattern before source after =>
      exact (Json.depth_lt_of_mem_obj (List.mem_append_right before List.mem_cons_self)).le
    | additional => exact Nat.le_refl _
    | items => exact Nat.le_refl _
    | itemList before after =>
      exact (Json.depth_lt_of_mem_arr (List.mem_append_right before List.mem_cons_self)).le
    | leading before after =>
      exact (Json.depth_lt_of_mem_arr (List.mem_append_right before List.mem_cons_self)).le
    | branch before after =>
      exact (Json.depth_lt_of_mem_arr (List.mem_append_right before List.mem_cons_self)).le
  | target => exact Json.depth_lt_of_mem_obj List.mem_cons_self

/-- Where no property has a name that is taken for a keyword, and nothing is asked about what others
have left over, a schema is regular. -/
theorem regular_of_components {d : Json} (h : ∀ x ∈ d.components,
    (∀ k ∈ ["properties", "patternProperties"],
      ∀ name ∈ Fields.keys (entriesOf ((x.members?).getD []) k),
        name ∉ Marker.key :: EvaluationForm.dataKeywords) ∧
    ∀ k ∈ unevaluatedKeywords, Fields.contains ((x.members?).getD []) k = false) : Regular d := by
  generalize hdepth : d.depth = n
  induction n using Nat.strongRecOn generalizing d with
  | _ n ih =>
    subst hdepth
    cases d with
    | obj members =>
      rcases h _ (Json.mem_components _) with ⟨hnames, hunasked⟩
      refine .obj (fun k hk => namesApart_of_not_mem (hnames k hk)) (fun k hk hcontains => ?_)
        (fun s hs => ?_)
      · rw [show Fields.contains members k = false from hunasked k hk] at hcontains
        cases hcontains
      · exact ih _ (depth_lt_of_inside hs)
          (fun x hx => h x (components_subset_of_inside hs hx)) rfl
    | _ => exact .data (by simp)

/-! ## Objects of schemas -/

theorem exists_slot_of_planned {members : Fields Json} {s : Json} (h : Planned members s) :
    ∃ slot : Slot, (slot.keyword, slot.value s) ∈ members := by
  cases h with
  | single hk hs =>
    rcases List.mem_pair.mp hk with rfl | rfl
    · exact ⟨.additional, hs⟩
    · exact ⟨.items, hs⟩
  | listed hk hxs hs =>
    rcases List.mem_iff_append.mp hs with ⟨before, after, rfl⟩
    rcases List.mem_pair.mp hk with rfl | rfl
    · exact ⟨.branch before after, hxs⟩
    · exact ⟨.leading before after, hxs⟩
  | @named _ name _ _ hk hss hs =>
    rcases List.mem_iff_append.mp hs with ⟨before, after, rfl⟩
    rcases List.mem_pair.mp hk with rfl | rfl
    · exact ⟨.pattern before name after, hss⟩
    · exact ⟨.property before name after, hss⟩

variable {defined : List Bool} {members documents : Fields Json} {k : String}

/-- What rewriting makes of the members of an object. -/
abbrev RewritesMembers (defined : List Bool) : Fields Json → Fields Json → Prop :=
  List.Forall₂ (fun a b => a.1 = b.1 ∧
    (a.1 ∈ EvaluationForm.dataKeywords ∧ b.2 = a.2 ∨
      a.1 ∉ EvaluationForm.dataKeywords ∧ Rewrites defined a.2 b.2))

/-- Under names that are in nobody's way every schema is rewritten. -/
theorem forall₂_of_namesApart {document : Json} (h : Rewrites defined (.obj members) document)
    (hnames : NamesApart members) : ∃ documents, document = .obj documents ∧
      List.Forall₂ (fun a b => a.1 = b.1 ∧ Rewrites defined a.2 b.2) members documents := by
  have hno : Marker.ofMembers? members = none := by
    have hget : Fields.get? members Marker.key = none := by simpa [Fields.contains] using hnames.1
    simp [Marker.ofMembers?, hget]
  rcases h.obj with ⟨handle, hm, -⟩ | ⟨f, hm, -⟩ | ⟨-, documents, rfl, hdocuments⟩
  · simp [hno] at hm
  · simp [hno] at hm
  · have hmem := (List.forall₂_and_left members documents).mpr ⟨fun m hm => hm, hdocuments⟩
    refine ⟨documents, rfl, hmem.imp ?_⟩
    rintro a b ⟨ha, hkey, ⟨hdata, heq⟩ | ⟨-, hrewrites⟩⟩
    · exact ⟨hkey, heq.symm ▸ hnames.2 a ha hdata defined⟩
    · exact ⟨hkey, hrewrites⟩

theorem rel_of_rewritesMembers (h : RewritesMembers defined members documents)
    (hk : k ∉ EvaluationForm.dataKeywords) :
    Option.Rel (Rewrites defined) (Fields.get? members k) (Fields.get? documents k) := by
  have hrel := rel_get?_of_name (R := fun k x y => k ∈ EvaluationForm.dataKeywords ∧ y = x ∨
    k ∉ EvaluationForm.dataKeywords ∧ Rewrites defined x y) k h
  exact rel_mono (fun x y hxy => hxy.elim (fun hdata => absurd hdata.1 hk) (·.2)) hrel

theorem forall₂_entries_of_rewrites (h : RewritesMembers defined members documents)
    (hk : k ∉ EvaluationForm.dataKeywords) (hnames : NamesApart (entriesOf members k)) :
    List.Forall₂ (fun a b => a.1 = b.1 ∧ Rewrites defined a.2 b.2) (entriesOf members k)
      (entriesOf documents k) := by
  have hrel := rel_of_rewritesMembers h hk
  unfold entriesOf at hnames ⊢
  generalize Fields.get? members k = x at hrel hnames ⊢
  generalize Fields.get? documents k = y at hrel ⊢
  cases hrel with
  | none => exact .nil
  | @some v document hv =>
    cases v with
    | obj schemas =>
      rcases forall₂_of_namesApart hv hnames with ⟨schemas', rfl, hschemas⟩
      exact hschemas
    | arr xs =>
      rcases hv.arr with ⟨_, rfl, -⟩
      exact .nil
    | _ =>
      rw [hv.scalar (by simp) (by simp)]
      exact .nil

theorem forall₂_items_of_rewrites (h : RewritesMembers defined members documents)
    (hk : k ∉ EvaluationForm.dataKeywords) :
    List.Forall₂ (Rewrites defined) (itemsOf members k) (itemsOf documents k) := by
  have hrel := rel_of_rewritesMembers h hk
  unfold itemsOf
  generalize Fields.get? members k = x at hrel ⊢
  generalize Fields.get? documents k = y at hrel ⊢
  cases hrel with
  | none => exact .nil
  | @some v document hv =>
    cases v with
    | arr xs =>
      rcases hv.arr with ⟨xs', rfl, hxs⟩
      exact hxs
    | obj schemas =>
      cases document with
      | arr xs => exact absurd hv Rewrites.not_arr_of_obj
      | _ => exact .nil
    | _ =>
      rw [hv.scalar (by simp) (by simp)]
      exact .nil

/-- Under the keywords that plans follow, rewritten schemas stand where the schemas do. -/
theorem related_of_rewrites (h : RewritesMembers defined members documents)
    (hregular : Regular (.obj members)) : Related (Rewrites defined) members documents where
  properties := forall₂_entries_of_rewrites h (by decide) (hregular.names (by decide))
  patterns := forall₂_entries_of_rewrites h (by decide) (hregular.names (by decide))
  additional := rel_of_rewritesMembers h (by decide)
  leading := forall₂_items_of_rewrites h (by decide)
  items := rel_of_rewritesMembers h (by decide)
  branches := forall₂_items_of_rewrites h (by decide)

/-! ## Keywords beside -/

/-- Lists of texts hold nothing to rewrite. -/
theorem eq_of_rewrites_texts {xs : List Json} {document : Json}
    (h : Rewrites defined (.arr xs) document) (hxs : ∀ x ∈ xs, ∃ s, x = .str s) :
    document = .arr xs := by
  rcases h.arr with ⟨xs', rfl, hitems⟩
  refine congrArg Json.arr (eq_of_forall₂ hitems (List.forall₂_same.mpr (fun x _ => rfl)) ?_)
  rintro x y z hx hy rfl
  rcases hxs x hx with ⟨s, rfl⟩
  exact hy.scalar (by simp) (by simp)

theorem texts_of_types? {xs : List Json} {ts : List JsonType} (h : types? (.arr xs) = some ts) :
    ∀ x ∈ xs, ∃ s, x = .str s := by
  induction xs generalizing ts with
  | nil => exact fun x hx => absurd hx List.not_mem_nil
  | cons y rest ih =>
    simp only [types?, List.mapM_cons] at h
    rcases Option.bind_eq_some_iff.mp h with ⟨t, ht, h⟩
    rcases Option.bind_eq_some_iff.mp h with ⟨others, hothers, -⟩
    intro x hx
    rcases List.mem_cons.mp hx with rfl | hx
    · cases x with
      | str s => exact ⟨s, rfl⟩
      | _ => cases ht
    · exact ih hothers x hx

/-- A keyword beside those that plans follow is the same for both evaluators. -/
theorem eq_of_rewrites {c : Context} {v document document' : Json} {p q : Plan Node}
    (hk : k ∉ followedKeywords) (h : PlansKeyword c (role k) v p q document)
    (hrequired : k = "required" → ∃ names, v = .arr names ∧ ∀ y ∈ names, ∃ s, y = .str s)
    (h' : k ∈ EvaluationForm.dataKeywords ∧ document' = v ∨
      k ∉ EvaluationForm.dataKeywords ∧ Rewrites c.defined v document') : document = document' := by
  have hfollowed : ∀ keyword ∈ followedKeywords, (role k).keyword? ≠ some keyword :=
    fun keyword hmem hrole => hk (eq_of_role rfl hrole ▸ hmem)
  generalize hρ : role k = ρ at h hfollowed
  cases h with
  | @types v p ts hts =>
    rcases h' with ⟨-, rfl⟩ | ⟨-, hrewrites⟩
    · rfl
    cases v with
    | str s => exact (hrewrites.scalar (by simp) (by simp)).symm
    | arr xs => exact (eq_of_rewrites_texts hrewrites (texts_of_types? hts)).symm
    | _ => cases hts
  | required =>
    obtain rfl := eq_of_role hρ rfl
    rcases hrequired rfl with ⟨names, rfl, hnames⟩
    rcases h' with ⟨hdata, -⟩ | ⟨-, hrewrites⟩
    · exact absurd hdata (by decide)
    · exact (eq_of_rewrites_texts hrewrites hnames).symm
  | default =>
    obtain rfl := eq_of_role hρ rfl
    rcases h' with ⟨-, rfl⟩ | ⟨hno, -⟩
    · rfl
    · exact absurd (by decide) hno
  | data =>
    rcases h' with ⟨-, rfl⟩ | ⟨hno, -⟩
    · rfl
    · unfold role at hρ
      split at hρ
      all_goals try cases hρ
      split at hρ
      · next hdata => exact absurd (List.contains_iff_mem.mp hdata) hno
      · cases hρ
  | other hrewrite =>
    rcases h' with ⟨hdata, -⟩ | ⟨-, hrewrites⟩
    · unfold role at hρ
      split at hρ
      all_goals try cases hρ
      split at hρ
      · cases hρ
      · next hno => exact absurd (List.contains_iff_mem.mpr hdata) hno
    · exact Rewrites.unique ⟨_, _, _, hrewrite⟩ hrewrites
  | _ => exact absurd rfl (hfollowed _ (by decide))

/-- The keywords beside those that plans follow are the same for both evaluators. -/
theorem beside_eq_of_rewrites {c : Context} {documents' : Fields Json} {p q : Plan Node}
    (h : PlansKeywords c members p q documents)
    (hrequired : ∀ v, ("required", v) ∈ members →
      ∃ names, v = .arr names ∧ ∀ y ∈ names, ∃ s, y = .str s)
    (h' : RewritesMembers c.defined members documents') : beside documents = beside documents' := by
  have hbeside := filter_of_forall₂ (f := fun m => !followedKeywords.contains m.1)
    (g := fun m => !followedKeywords.contains m.1) (fun a b hab => by rw [hab.1])
    (forall₂_of_plansKeywords h)
  have hbeside' := filter_of_forall₂ (f := fun m => !followedKeywords.contains m.1)
    (g := fun m => !followedKeywords.contains m.1) (fun a b hab => by rw [hab.1]) h'
  refine eq_of_forall₂ hbeside hbeside' ?_
  rintro ⟨k, v⟩ ⟨k', y⟩ ⟨k'', z⟩ hm ⟨hkey, p, q, hplans⟩ ⟨hkey', hor⟩
  obtain rfl : k = k' := hkey
  obtain rfl : k = k'' := hkey'
  rcases List.mem_filter.mp hm with ⟨hm, hk⟩
  exact Prod.ext rfl (eq_of_rewrites (by simpa using hk) hplans
    (fun heq => hrequired v (heq ▸ hm)) hor)

end HttpContract.Planning
