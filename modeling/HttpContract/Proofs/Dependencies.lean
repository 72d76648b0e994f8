import HttpContract.Proofs.Dangling
import HttpContract.Proofs.Endorsement
import HttpContract.Proofs.Faithfulness
import HttpContract.Proofs.FaultPlaces
import HttpContract.Proofs.Rewriting

/-!
# Dependencies and undefined references

A registry tells which handles a schema depends on: those with a marker anywhere in it. Compilation
comes to fewer of them. It replaces the markers in a schema for the evaluators of others, without
looking into data (`EvaluationForm.Meets`), and it plans the schema, where it replaces markers only
in what it does not follow itself (`Planning.Meets`); these are the handles that it enforces
(`Registry.Enforces`). It refuses a registry for an undefined reference exactly if one of them has
no schema, so the dependencies tell of it exactly if with an undefined dependency there is always an
undefined handle that is enforced (`refuses_iff`). This is so where no marker stands under the name
of a data keyword; under the name of a property that is called like one, a marker can be for a
handle that is not defined (`not_refuses_iff_hidden`).
-/

namespace HttpContract

/-! ## Markers in documents -/

/-- There is a marker for the handle in the document, wherever it stands. -/
def Mentions (d : Json) (handle : Nat) : Prop :=
  ∃ members, .obj members ∈ d.components ∧
    Marker.ofMembers? members = some (.ok (.deferred handle))

theorem Mentions.of_subset {d x : Json} {handle : Nat} (h : Mentions x handle)
    (hsub : x.components ⊆ d.components) : Mentions d handle := by
  obtain ⟨members, hmem, hmarker⟩ := h
  exact ⟨members, hsub hmem, hmarker⟩

theorem mentions_obj_iff {members : Fields Json} {handle : Nat} :
    Mentions (.obj members) handle ↔
      Marker.ofMembers? members = some (.ok (.deferred handle)) ∨
        ∃ m ∈ members, Mentions m.2 handle := by
  constructor
  · rintro ⟨found, hfound, hmarker⟩
    rw [Json.components] at hfound
    rcases List.mem_cons.mp hfound with heq | hfound
    · exact Or.inl (Json.obj.inj heq ▸ hmarker)
    · obtain ⟨m, hm, hfound⟩ := Json.exists_of_mem_componentsMembers hfound
      exact Or.inr ⟨m, hm, found, hfound, hmarker⟩
  · rintro (hmarker | ⟨m, hm, h⟩)
    · exact ⟨members, Json.mem_components _, hmarker⟩
    · exact h.of_subset (Json.components_subset_obj (show (m.1, m.2) ∈ members from hm))

theorem mentions_arr_iff {items : List Json} {handle : Nat} :
    Mentions (.arr items) handle ↔ ∃ x ∈ items, Mentions x handle := by
  constructor
  · rintro ⟨found, hfound, hmarker⟩
    rw [Json.components] at hfound
    rcases List.mem_cons.mp hfound with heq | hfound
    · cases heq
    · obtain ⟨x, hx, hfound⟩ := Json.exists_of_mem_componentsItems hfound
      exact ⟨x, hx, found, hfound, hmarker⟩
  · rintro ⟨x, hx, h⟩
    exact h.of_subset (Json.components_subset_arr hx)

theorem not_mentions_of_isScalar {d : Json} {handle : Nat}
    (h : Normalization.isScalar d = true) : ¬ Mentions d handle := by
  rintro ⟨members, hmem, -⟩
  cases d with
  | obj _ => cases h
  | arr _ => cases h
  | _ => cases List.mem_singleton.mp hmem

theorem not_mentions_of_unmarked {d : Json} {handle : Nat} (h : Unmarked d) :
    ¬ Mentions d handle := by
  rintro ⟨members, hmem, hmarker⟩
  obtain ⟨n, rfl⟩ := members_of_deferred hmarker
  have hcontains : Fields.contains [(Marker.key, Json.num n)] Marker.key = true := by simp
  rw [h _ hmem] at hcontains
  cases hcontains

/-! ## Dependencies -/

namespace Registry

theorem deferredInMembers_eq (members : Fields Json) :
    deferredInMembers members = members.flatMap (fun m => deferredHandles m.2) := by
  induction members with
  | nil => rfl
  | cons m rest ih => rw [deferredInMembers, ih, List.flatMap_cons]

theorem deferredInItems_eq (items : List Json) :
    deferredInItems items = items.flatMap deferredHandles := by
  induction items with
  | nil => rfl
  | cons x rest ih => rw [deferredInItems, ih, List.flatMap_cons]

/-- The search finds the handles with a marker in the document. -/
theorem mem_deferredHandles_iff {d : Json} {handle : Nat} :
    handle ∈ deferredHandles d ↔ Mentions d handle := by
  generalize hdepth : d.depth = n
  induction n using Nat.strongRecOn generalizing d with
  | _ n ih =>
    subst hdepth
    cases d with
    | obj members =>
      rw [mentions_obj_iff, deferredHandles]
      split
      · next found hmarker =>
        -- there is nothing but a number in a marker for a handle
        obtain ⟨n, rfl⟩ := members_of_deferred hmarker
        have hscalar : ¬ Mentions (.num n) handle := not_mentions_of_isScalar rfl
        simp [hmarker, hscalar, eq_comm]
      · next hmarker =>
        have hno : Marker.ofMembers? members ≠ some (.ok (.deferred handle)) := hmarker handle
        rw [deferredInMembers_eq, List.mem_flatMap, or_iff_right hno]
        exact exists_congr (fun m => and_congr_right (fun hm =>
          ih _ (Json.depth_lt_of_mem_obj (show (m.1, m.2) ∈ members from hm)) rfl))
    | arr items =>
      rw [mentions_arr_iff, deferredHandles, deferredInItems_eq, List.mem_flatMap]
      exact exists_congr (fun x => and_congr_right (fun hx =>
        ih _ (Json.depth_lt_of_mem_arr hx) rfl))
    | _ => exact iff_of_false List.not_mem_nil (not_mentions_of_isScalar rfl)

theorem mem_insertHandle {n other : Nat} {handles : List Nat} :
    other ∈ insertHandle n handles ↔ other = n ∨ other ∈ handles := by
  fun_induction insertHandle n handles with
  | case1 => simp
  | case2 m rest hlt => simp
  | case3 rest hlt => simp
  | case4 m rest hlt hne ih => simp [ih, or_left_comm]

theorem mem_foldr_insertHandle {other : Nat} {handles : List Nat} :
    other ∈ handles.foldr insertHandle [] ↔ other ∈ handles := by
  induction handles with
  | nil => rfl
  | cons n rest ih => rw [List.foldr_cons, mem_insertHandle, ih, List.mem_cons]

/-- The dependencies of a handle are the handles that its schema mentions. -/
theorem mem_dependencies_iff {r : Registry} {handle other : Nat} :
    other ∈ r.dependencies handle ↔
      ∃ f, r.get? handle = some f ∧ Mentions f.document other := by
  unfold dependencies
  cases r.get? handle with
  | none => simp
  | some f => simp [mem_foldr_insertHandle, mem_deferredHandles_iff]

end Registry

/-! ## What rewriting meets -/

namespace EvaluationForm

/-- The markers of handles that the rewriting of a document comes to: all but those under the name
of a data keyword, whether it is a keyword there or not. -/
inductive Meets : Json → Nat → Prop where
  | marker {members : Fields Json} {handle : Nat}
      (hm : Marker.ofMembers? members = some (.ok (.deferred handle))) :
      Meets (.obj members) handle
  | member {members : Fields Json} {k : String} {v : Json} {handle : Nat}
      (hk : k ∉ dataKeywords) (hv : (k, v) ∈ members) (h : Meets v handle) :
      Meets (.obj members) handle
  | item {items : List Json} {x : Json} {handle : Nat} (hx : x ∈ items) (h : Meets x handle) :
      Meets (.arr items) handle

theorem Meets.mentions {d : Json} {handle : Nat} (h : Meets d handle) : Mentions d handle := by
  induction h with
  | marker hm => exact mentions_obj_iff.mpr (Or.inl hm)
  | member _ hv _ ih => exact mentions_obj_iff.mpr (Or.inr ⟨_, hv, ih⟩)
  | item hx _ ih => exact mentions_arr_iff.mpr ⟨_, hx, ih⟩

/-- Where no marker stands under the name of a data keyword, all are met. -/
theorem meets_of_mentions {d : Json} {handle : Nat} (hd : UnmarkedUnder dataKeywords d)
    (h : Mentions d handle) : Meets d handle := by
  generalize hdepth : d.depth = n
  induction n using Nat.strongRecOn generalizing d with
  | _ n ih =>
    subst hdepth
    cases d with
    | obj members =>
      rcases mentions_obj_iff.mp h with hmarker | ⟨⟨k, v⟩, hv, hmentions⟩
      · exact .marker hmarker
      · have hk : k ∉ dataKeywords := fun hk =>
          not_mentions_of_unmarked (hd members (Json.mem_components _) k hk v hv) hmentions
        exact .member hk hv (ih _ (Json.depth_lt_of_mem_obj hv) (hd.of_mem_obj hv) hmentions rfl)
    | arr items =>
      obtain ⟨x, hx, hmentions⟩ := mentions_arr_iff.mp h
      exact .item hx (ih _ (Json.depth_lt_of_mem_arr hx) (hd.of_mem_arr hx) hmentions rfl)
    | _ => exact absurd h (not_mentions_of_isScalar rfl)

/-- The handles that the rewriting of a document comes to have a schema. -/
def Supplied (defined : List Bool) (d : Json) : Prop :=
  ∀ handle, Meets d handle → defined[handle]?.getD false = true

variable {defined : List Bool}

theorem supplied_of_rewrites {d document : Json} (h : Rewrites defined d document) :
    Supplied defined d := by
  intro handle hmeets
  induction hmeets generalizing document with
  | marker hm => exact h.defined_of_deferred hm
  | @member members k v handle hk hv hmeets ih =>
    rcases h.obj with ⟨other, hm, -⟩ | ⟨f, hm, hf⟩ | ⟨-, documents, -, hdocuments⟩
    · obtain ⟨n, rfl⟩ := members_of_deferred hm
      obtain rfl := (Prod.mk.inj (List.mem_singleton.mp hv)).2
      cases hmeets
    · obtain rfl := Planning.members_of_inline hm
      obtain rfl := (Prod.mk.inj (List.mem_singleton.mp hv)).2
      exact ih hf
    · obtain ⟨y, -, -, hdata | hrewrites⟩ := exists_of_forall₂ hdocuments hv
      · exact absurd hdata.1 hk
      · exact ih hrewrites.2
  | item hx _ ih =>
    obtain ⟨documents, -, hdocuments⟩ := h.arr
    obtain ⟨y, -, hy⟩ := exists_of_forall₂ hdocuments hx
    exact ih hy

theorem spreadsRewritten_supplied : SpreadsRewritten (fun d _ => Supplied defined d) where
  member h _ hm hk handle hmeets := h handle (.member hk hm hmeets)
  item h _ _ hi handle hmeets := h handle (.item (List.mem_of_getElem? hi) hmeets)

theorem excludes_supplied :
    Excludes defined CompileError.IsUndefined (fun d _ => Supplied defined d) :=
  excludes_isUndefined_of (fun _ _ handle h hmarker => h handle (.marker hmarker))

end EvaluationForm

/-! ## What planning meets -/

namespace Planning

/-- The markers of handles that planning comes to: those at the positions that plans follow, and
those that the rewriting of the other keywords' values comes to. -/
inductive Meets : Json → Nat → Prop where
  | marker {members : Fields Json} {handle : Nat}
      (hm : Marker.ofMembers? members = some (.ok (.deferred handle))) :
      Meets (.obj members) handle
  | inside {d s : Json} {handle : Nat} (hs : Inside d s) (h : Meets s handle) : Meets d handle
  | handed {members : Fields Json} {k : String} {v : Json} {handle : Nat}
      (hm : Marker.ofMembers? members = none) (hk : role k = .other) (hv : (k, v) ∈ members)
      (h : EvaluationForm.Meets v handle) : Meets (.obj members) handle

theorem Meets.mentions {d : Json} {handle : Nat} (h : Meets d handle) : Mentions d handle := by
  induction h with
  | marker hm => exact mentions_obj_iff.mpr (Or.inl hm)
  | inside hs _ ih => exact ih.of_subset (components_subset_of_inside hs)
  | handed _ _ hv h => exact mentions_obj_iff.mpr (Or.inr ⟨_, hv, h.mentions⟩)

theorem Meets.isSchema {d : Json} {handle : Nat} (h : Meets d handle) : d.isSchema = true := by
  cases h with
  | marker _ => rfl
  | handed _ _ _ _ => rfl
  | inside hs _ =>
    obtain ⟨F, rfl⟩ := hs
    obtain ⟨members, hmembers⟩ := exists_fill_eq_obj F _
    rw [hmembers]
    rfl

variable {c : Context}

theorem exists_plans_of_entry {entries docs : Fields Json} {nodes : List (String × Node)}
    {name : String} {t : Json} (h : PlansEntries c entries nodes docs)
    (ht : (name, t) ∈ entries) : ∃ n document, Plans c t n document := by
  obtain ⟨⟨_, n⟩, -, -, document, hn⟩ := exists_of_forall₂ (forall₂_of_plansEntries h).1 ht
  exact ⟨n, document, hn⟩

theorem exists_plans_of_item {xs docs : List Json} {nodes : List Node} {t : Json}
    (h : PlansItems c xs nodes docs) (ht : t ∈ xs) : ∃ n document, Plans c t n document := by
  obtain ⟨n, -, document, hn⟩ := exists_of_forall₂ (forall₂_of_plansItems h).1 ht
  exact ⟨n, document, hn⟩

/-- With the keyword it stands under, the schema in a slot has been planned. -/
theorem exists_plans_of_slot (slot : Slot) {s y : Json} {p q : Plan Node}
    (hschema : s.isSchema = true)
    (h : PlansKeyword c (role slot.keyword) (slot.value s) p q y) :
    ∃ n document, Plans c s n document := by
  cases slot with
  | property before name after =>
    change PlansKeyword c .properties (.obj (before ++ (name, s) :: after)) p q y at h
    cases h with
    | properties h =>
      exact exists_plans_of_entry h (List.mem_append_right before List.mem_cons_self)
  | pattern before source after =>
    change PlansKeyword c .patterns (.obj (before ++ (source, s) :: after)) p q y at h
    cases h with
    | patterns h => exact exists_plans_of_entry h (List.mem_append_right before List.mem_cons_self)
  | additional =>
    change PlansKeyword c .additional s p q y at h
    cases h with
    | allowed => exact ⟨_, _, .always true⟩
    | forbidden => exact ⟨_, _, .always false⟩
    | additional _ h => exact ⟨_, _, h⟩
  | items =>
    change PlansKeyword c .items s p q y at h
    cases h with
    | items _ h => exact ⟨_, _, h⟩
    | itemList _ => cases hschema
  | itemList before after =>
    change PlansKeyword c .items (.arr (before ++ s :: after)) p q y at h
    cases h with
    | items hv _ => exact absurd rfl (hv _)
    | itemList h => exact exists_plans_of_item h (List.mem_append_right before List.mem_cons_self)
  | leading before after =>
    change PlansKeyword c .leading (.arr (before ++ s :: after)) p q y at h
    cases h with
    | leading h => exact exists_plans_of_item h (List.mem_append_right before List.mem_cons_self)
  | branch before after =>
    change PlansKeyword c .branches (.arr (before ++ s :: after)) p q y at h
    cases h with
    | branches h => exact exists_plans_of_item h (List.mem_append_right before List.mem_cons_self)

/-- With a schema, those inside it have been planned. -/
theorem exists_plans_of_inside {d s document : Json} {n : Node} (hs : Inside d s)
    (hschema : s.isSchema = true) (h : Plans c d n document) : ∃ m y, Plans c s m y := by
  obtain ⟨F, rfl⟩ := hs
  cases F with
  | target =>
    obtain ⟨root, -, inner, -, hroot⟩ := exists_inline_of_plans hschema h
    exact ⟨root, inner, hroot⟩
  | keyword slot left right =>
    obtain ⟨p, documents, -, -, hkeywords⟩ := exists_plan_of_plans h
    obtain ⟨y, -, -, q, q', hplans⟩ := exists_of_forall₂ (forall₂_of_plansKeywords hkeywords)
      (List.mem_append_right left List.mem_cons_self)
    exact exists_plans_of_slot slot hschema hplans

/-- The handles that the planning of a schema comes to have a schema. -/
def Supplied (defined : List Bool) (d : Json) : Prop :=
  ∀ handle, Meets d handle → defined[handle]?.getD false = true

theorem supplied_of_plans {d document : Json} {n : Node} (h : Plans c d n document) :
    Supplied c.defined d := by
  intro handle hmeets
  induction hmeets generalizing n document with
  | @marker members handle hmarker =>
    cases h with
    | @deferred _ other hm hdefined =>
      obtain rfl : other = handle := by simpa using hm.symm.trans hmarker
      exact hdefined
    | inline hm _ _ => simp [hm] at hmarker
    | keywords hm _ => simp [hm] at hmarker
  | inside hs hmeets ih =>
    obtain ⟨m, y, hplans⟩ := exists_plans_of_inside hs hmeets.isSchema h
    exact ih hplans
  | @handed members k v handle hnone hk hv hmeets =>
    cases h with
    | deferred hm _ => simp [hm] at hnone
    | inline hm _ _ => simp [hm] at hnone
    | keywords _ hkeywords =>
      obtain ⟨y, -, -, p, q, hplans⟩ :=
        exists_of_forall₂ (forall₂_of_plansKeywords hkeywords) hv
      rw [hk] at hplans
      cases hplans with
      | other hrewrite =>
        exact EvaluationForm.supplied_of_rewrites ⟨_, _, _, hrewrite⟩ handle hmeets

variable {defined : List Bool}

theorem Supplied.inside {d s : Json} (h : Supplied defined d) (hs : Inside d s) :
    Supplied defined s :=
  fun handle hmeets => h handle (.inside hs hmeets)

theorem spreadsPlanned_supplied : SpreadsPlanned (fun d _ => Supplied defined d)
    (fun d _ => EvaluationForm.Supplied defined d) where
  keyword h hmarker := by
    rintro ⟨k, v⟩ hm
    constructor
    case single =>
      intro hk
      rcases List.mem_pair.mp hk with rfl | rfl
      · exact h.inside (inside_of_mem .additional hm)
      · exact h.inside (inside_of_mem .items hm)
    case listed =>
      rintro hk xs rfl i x hi
      have hx := List.mem_of_getElem? hi
      simp only [List.mem_cons, List.not_mem_nil, or_false] at hk
      rcases hk with rfl | rfl | rfl
      · exact h.inside (inside_of_leading (Or.inr rfl) hm hx)
      · exact h.inside (inside_of_leading (Or.inl rfl) hm hx)
      · exact h.inside (inside_of_branch hm hx)
    case named =>
      rintro hk entries rfl entry hentry
      rcases List.mem_pair.mp hk with rfl | rfl
      · exact h.inside (inside_of_property hm hentry)
      · exact h.inside (inside_of_pattern hm hentry)
    case other => exact fun hk handle hmeets => h handle (.handed hmarker hk hm hmeets)
  target h hmarker m hm := by
    obtain rfl := members_of_inline hmarker
    obtain rfl := List.mem_singleton.mp hm
    exact h.inside ⟨.target, rfl⟩
  rewritten := EvaluationForm.spreadsRewritten_supplied

theorem excludes_supplied :
    Excludes defined CompileError.IsUndefined (fun d _ => Supplied defined d) :=
  excludes_isUndefined_of (fun _ _ handle h hmarker => h handle (.marker hmarker))

end Planning

/-! ## Registries -/

/-- Compilation asks for a schema of the handle `other` on account of that of `handle`, when it
rewrites the schema for the evaluators of others or when it plans it. -/
def Registry.Enforces (r : Registry) (handle other : Nat) : Prop :=
  ∃ f, r.get? handle = some f ∧
    (EvaluationForm.Meets f.document other ∨ Planning.Meets f.document other)

/-- Among the dependencies of a defined handle is one that is not defined. -/
def Registry.Incomplete (r : Registry) : Prop :=
  ∃ handle, r.isDefined handle = true ∧ ∃ other ∈ r.dependencies handle, r.isDefined other = false

/-- What is enforced is a dependency. -/
theorem Registry.Enforces.mem_dependencies {r : Registry} {handle other : Nat}
    (h : r.Enforces handle other) : other ∈ r.dependencies handle := by
  obtain ⟨f, hf, hmeets⟩ := h
  exact mem_dependencies_iff.mpr ⟨f, hf, hmeets.elim (·.mentions) (·.mentions)⟩

theorem Registry.isDefined_of_get? {r : Registry} {handle : Nat} {f : Fragment}
    (h : r.get? handle = some f) : r.isDefined handle = true := by
  rw [isDefined, h]
  rfl

namespace Engine

variable {o : Options} {r : Registry} {e : Engine}

/-- The registry is refused for a reference to a handle without a schema. -/
def Refuses (o : Options) (r : Registry) : Prop :=
  ∃ handle path, ofRegistry o r = .error (.undefinedReference handle path)

theorem isDefined_of_enforces (hr : ofRegistry o r = .ok e) {handle other : Nat}
    (h : r.Enforces handle other) : r.isDefined other = true := by
  have hdefined : e.context.defined[other]?.getD false = true := by
    obtain ⟨f, hf, hmeets | hmeets⟩ := h
    · obtain ⟨document, -, hrewrites⟩ := exists_documentOf hr hf
      exact EvaluationForm.supplied_of_rewrites hrewrites other hmeets
    · have hentry := rel_entry? hr handle
      rw [hf] at hentry
      generalize e.entry? handle = entry at hentry
      cases hentry with
      | some hcompiled =>
        obtain ⟨document, hplans, -⟩ := hcompiled
        exact Planning.supplied_of_plans hplans other hmeets
  obtain ⟨g, hg⟩ := get?_of_defined hr hdefined
  exact Registry.isDefined_of_get? hg

theorem noUndefined_of_enforces
    (h : ∀ handle other, r.Enforces handle other → r.isDefined other = true) :
    NoUndefined (ofRegistry o r) := by
  have hentry : ∀ entry ∈ r.entries, ∀ f, entry.schema = some f →
      EvaluationForm.Supplied r.definedFlags f.document ∧
        Planning.Supplied r.definedFlags f.document := by
    intro entry hentry f hf
    obtain ⟨handle, hget⟩ := Registry.exists_get?_of_mem hentry hf
    constructor
    · intro other hmeets
      rw [r.getD_definedFlags]
      exact h handle other ⟨f, hget, Or.inl hmeets⟩
    · intro other hmeets
      rw [r.getD_definedFlags]
      exact h handle other ⟨f, hget, Or.inr hmeets⟩
  -- each schema is gone through twice: for the evaluators of others, and for a plan of its own
  apply avoids_ofRegistry
  · intro entry hmem f hf
    exact EvaluationForm.avoids_rewrite EvaluationForm.spreadsRewritten_supplied
      EvaluationForm.excludes_supplied _ _ _ (hentry entry hmem f hf).1
  · intro c hc entry hmem f hf
    apply Planning.noUndefined_compile
    apply Planning.avoids_node Planning.spreadsPlanned_supplied Planning.excludes_supplied
      EvaluationForm.excludes_supplied
    rw [hc]
    exact (hentry entry hmem f hf).2
  · rintro name ⟨handle, path, heq⟩
    cases heq

theorem refuses_iff_enforces (hother : ∀ err, ofRegistry o r = .error err → err.IsUndefined) :
    Refuses o r ↔ ∃ handle other, r.Enforces handle other ∧ r.isDefined other = false := by
  constructor
  · rintro ⟨handle, path, herror⟩
    by_contra hnone
    refine noUndefined_of_enforces (o := o) (fun handle other henforces => ?_) _ herror
      ⟨handle, path, rfl⟩
    cases hdefined : r.isDefined other with
    | true => rfl
    | false => exact absurd ⟨handle, other, henforces, hdefined⟩ hnone
  · rintro ⟨handle, other, henforces, hundefined⟩
    cases hr : ofRegistry o r with
    | ok e =>
      rw [isDefined_of_enforces hr henforces] at hundefined
      cases hundefined
    | error err =>
      obtain ⟨missing, path, rfl⟩ := hother err hr
      exact ⟨missing, path, hr⟩

theorem incomplete_of_enforces {handle other : Nat} (h : r.Enforces handle other)
    (hundefined : r.isDefined other = false) : r.Incomplete := by
  have hdependency := h.mem_dependencies
  obtain ⟨f, hf, -⟩ := h
  exact ⟨handle, Registry.isDefined_of_get? hf, other, hdependency, hundefined⟩

/-- Unless there is another error, a registry is refused for an undefined reference exactly if one
of the handles that are enforced is not defined. They are dependencies, and the dependencies tell of
it exactly if with an undefined one there is always an undefined handle that is enforced: so it is
where no marker stands under the name of a data keyword. -/
theorem refuses_iff (hother : ∀ err, ofRegistry o r = .error err → err.IsUndefined) :
    (Refuses o r ↔ ∃ handle other, r.Enforces handle other ∧ r.isDefined other = false) ∧
    (∀ handle other, r.Enforces handle other → other ∈ r.dependencies handle) ∧
    ((Refuses o r ↔ r.Incomplete) ↔
      (r.Incomplete → ∃ handle other, r.Enforces handle other ∧ r.isDefined other = false)) ∧
    ((∀ handle f, r.get? handle = some f →
        UnmarkedUnder EvaluationForm.dataKeywords f.document) →
      (Refuses o r ↔ r.Incomplete)) := by
  have hrefuses := refuses_iff_enforces hother
  have hincomplete : Refuses o r → r.Incomplete := by
    intro h
    obtain ⟨handle, other, henforces, hundefined⟩ := hrefuses.mp h
    exact incomplete_of_enforces henforces hundefined
  refine ⟨hrefuses, fun handle other h => h.mem_dependencies, ?_, fun hdata => ?_⟩
  · exact ⟨fun h hmissing => hrefuses.mp (h.mpr hmissing),
      fun h => ⟨hincomplete, fun hmissing => hrefuses.mpr (h hmissing)⟩⟩
  · refine ⟨hincomplete, ?_⟩
    rintro ⟨handle, -, other, hdependency, hundefined⟩
    obtain ⟨f, hf, hmentions⟩ := Registry.mem_dependencies_iff.mp hdependency
    exact hrefuses.mpr ⟨handle, other,
      ⟨f, hf, Or.inl (EvaluationForm.meets_of_mentions (hdata handle f hf) hmentions)⟩, hundefined⟩

/-- The registry of a schema with a reference that dangles is refused for it. -/
theorem refuses_iff_dangling :
    (∀ err, ofRegistry .standard ⟨[⟨"text", some dangling⟩]⟩ = .error err → err.IsUndefined) ∧
    (∀ handle f, (⟨[⟨"text", some dangling⟩]⟩ : Registry).get? handle = some f →
      UnmarkedUnder EvaluationForm.dataKeywords f.document) ∧
    Refuses .standard ⟨[⟨"text", some dangling⟩]⟩ ∧
    Registry.Incomplete ⟨[⟨"text", some dangling⟩]⟩ := by
  have herror : ofRegistry .standard ⟨[⟨"text", some dangling⟩]⟩ =
      .error (.undefinedReference 7 "text#/properties/a~1b") := rfl
  have hother : ∀ err, ofRegistry .standard ⟨[⟨"text", some dangling⟩]⟩ = .error err →
      err.IsUndefined := by
    intro err herr
    rw [herror] at herr
    cases herr
    exact ⟨7, _, rfl⟩
  have hdata : ∀ handle f, (⟨[⟨"text", some dangling⟩]⟩ : Registry).get? handle = some f →
      UnmarkedUnder EvaluationForm.dataKeywords f.document := by
    intro handle f hget
    match handle with
    | 0 =>
      obtain rfl : dangling = f := Option.some.inj hget
      decide
    | _ + 1 => cases hget
  have hrefuses : Refuses .standard ⟨[⟨"text", some dangling⟩]⟩ := ⟨7, _, herror⟩
  exact ⟨hother, hdata, hrefuses, ((refuses_iff hother).2.2.2 hdata).mp hrefuses⟩

/-! ## A marker for an undefined handle that is not enforced -/

/-- A schema with a property that has the name of a data keyword, beside the positions that plans
follow; its schema is a reference to a handle that is not declared. -/
def hidden : Fragment :=
  .ofMembers [("anyOf", .arr [.obj [("properties", .obj [("default",
    (Marker.deferred 7).toJson)])]])]

def hiddenRegistry : Registry := ⟨[⟨"a", some hidden⟩]⟩

def hiddenResource : Resource := ⟨EvaluationForm.resourceUri 0, hidden.document⟩

theorem findings_hidden : Metaschema.evaluator.findings hidden.document = [] := by
  refine (Metaschema.conforms_anyOf (by simp) (fun d hd => ?_)).findings
  obtain rfl := List.mem_singleton.mp hd
  refine Metaschema.conforms_properties (fun m hm => ?_)
  obtain rfl := List.mem_singleton.mp hm
  exact Metaschema.conforms_of_accepted (Metaschema.accepted_marker _)

theorem exists_ofRegistry_hidden : ∃ e, ofRegistry .standard hiddenRegistry = .ok e := by
  obtain ⟨l, hbuild⟩ : ∃ l, Evaluator.build hidden.document [hiddenResource] =
      .ok ⟨l, Evaluator.defaultBase, _⟩ :=
    Evaluator.exists_build rfl findings_hidden (by decide +kernel)
  have hcompile := Planning.compile_of_build ⟨[true], [hiddenResource]⟩ .standard hidden.document
    "a#" (fun _ => rfl) (n := .plan Plan.empty) rfl hbuild
  have hentry : entryOf ⟨[true], [hiddenResource]⟩ .standard ⟨"a", some hidden⟩ = .ok (some
      ⟨.plan Plan.empty, ⟨l, Evaluator.defaultBase, hidden.document⟩, hidden.document⟩) := by
    unfold entryOf
    dsimp only
    rw [show entryPath ⟨"a", some hidden⟩ = "a#" from rfl, hcompile]
    rfl
  refine ⟨_, ofRegistry_eq_ok_iff.mpr ⟨[some hiddenResource],
    [some ⟨.plan Plan.empty, ⟨l, Evaluator.defaultBase, hidden.document⟩, hidden.document⟩], rfl,
    ?_, rfl, rfl⟩⟩
  rw [show hiddenRegistry.entries = [⟨"a", some hidden⟩] from rfl,
    show hiddenRegistry.definedFlags = [true] from rfl, List.mapM_cons, List.mapM_nil]
  exact congrArg (· >>= fun compiled => pure [compiled]) hentry

/-- The registry is accepted, although the handle is a dependency of the schema. -/
theorem not_refuses_iff_hidden :
    (∃ e, ofRegistry .standard hiddenRegistry = .ok e) ∧
    (∀ err, ofRegistry .standard hiddenRegistry = .error err → err.IsUndefined) ∧
    hiddenRegistry.isDefined 0 = true ∧ hiddenRegistry.dependencies 0 = [7] ∧
    hiddenRegistry.isDefined 7 = false ∧
    ¬ (Refuses .standard hiddenRegistry ↔ hiddenRegistry.Incomplete) := by
  obtain ⟨e, he⟩ := exists_ofRegistry_hidden
  refine ⟨⟨e, he⟩, fun err herr => ?_, rfl, rfl, rfl, fun hiff => ?_⟩
  · rw [he] at herr
    cases herr
  · obtain ⟨handle, path, herror⟩ := hiff.mpr ⟨0, rfl, 7, List.mem_singleton.mpr rfl, rfl⟩
    rw [he] at herror
    cases herror

end Engine

end HttpContract
