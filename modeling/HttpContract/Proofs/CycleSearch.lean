import HttpContract.Proofs.Circularity
import HttpContract.Proofs.Conformance
import HttpContract.Proofs.Unreferenced

/-!
# The search for cycles is exact

The search goes over the handles that rewriting and planning collect from the schemas. What they
collect is what the schemas refer to at the same place of the value (`Refers`), no more and no less:
a document that an evaluator is built for has schemas where keywords expect them, so there is no
other place from which a handle could have been collected (`Planning.mem_sameLocation_iff`). If
every schema of a registry compiles, the registry is therefore rejected exactly if it leads back to
itself, and the handle that is reported does (`Engine.ofRegistry_eq_cycle_iff`).
-/

namespace HttpContract

open Evaluation (Under)

/-! ## Handles that rewriting collects -/

namespace EvaluationForm

variable {defined : List Bool} {handle : Nat}

/-- A schema is rewritten to a schema: only markers are replaced by something else, and those that
carry a schema by what that schema is rewritten to. -/
theorem isSchema_of_rewrite {d : Json} (hd : d.isSchema = true) : ∀ {path : String}
    {inPlace : Bool} {document : Json} {applied : List Nat},
    rewrite defined d path inPlace = .ok (document, applied) → document.isSchema = true := by
  generalize hdepth : d.depth = depth
  induction depth using Nat.strong_induction_on generalizing d with
  | _ depth ih =>
    intro path inPlace document applied h
    cases d with
    | bool b =>
      cases h
      rfl
    | obj members =>
      rw [rewrite] at h
      split at h
      · cases h
      · rcases bind_eq_ok h with ⟨_, -, h⟩
        cases h
        rfl
      · next f hm =>
        obtain rfl := Planning.members_of_inline hm
        have hlt : f.document.depth < (Json.obj [(Marker.key, f.document)]).depth :=
          Json.depth_lt_of_mem_obj List.mem_cons_self
        exact ih _ (hdepth ▸ hlt) f.isSchema rfl h
      · rcases bind_eq_ok h with ⟨_, -, h⟩
        cases h
        rfl
    | _ => cases hd

mutual

/-- Away from the place of the value nothing is collected. -/
theorem inPlace_of_mem_applied : ∀ (d : Json) {path : String} {inPlace : Bool} {document : Json}
    {applied : List Nat}, rewrite defined d path inPlace = .ok (document, applied) →
      handle ∈ applied → inPlace = true
  | .obj members, _, inPlace, _, _, h, hmem => by
    rw [rewrite] at h
    split at h
    · cases h
    · rcases bind_eq_ok h with ⟨_, -, h⟩
      cases h
      by_contra hnot
      simp [hnot] at hmem
    · exact inPlace_of_mem_target members h hmem
    · rcases bind_eq_ok h with ⟨⟨documents, collected⟩, hmembers, h⟩
      cases h
      exact inPlace_of_mem_members members hmembers hmem
  | .arr items, _, _, _, _, h, hmem => by
    rw [rewrite] at h
    rcases bind_eq_ok h with ⟨⟨documents, collected⟩, hitems, h⟩
    cases h
    exact inPlace_of_mem_items items hitems hmem
  | .null, _, _, _, _, h, hmem | .bool _, _, _, _, _, h, hmem | .num _, _, _, _, _, h, hmem
  | .str _, _, _, _, _, h, hmem => by
    cases h
    cases hmem
termination_by structural d => d

theorem inPlace_of_mem_target : ∀ (members : List (String × Json)) {path : String}
    {inPlace : Bool} {document : Json} {applied : List Nat},
    rewriteTarget defined members path inPlace = .ok (document, applied) → handle ∈ applied →
      inPlace = true
  | [], _, _, _, _, h, hmem => by
    cases h
    cases hmem
  | (_, inner) :: _, _, _, _, _, h, hmem => inPlace_of_mem_applied inner h hmem
termination_by structural members => members

theorem inPlace_of_mem_members : ∀ (members : List (String × Json)) {path : String}
    {inPlace : Bool} {documents : List (String × Json)} {applied : List Nat},
    rewriteMembers defined members path inPlace = .ok (documents, applied) → handle ∈ applied →
      inPlace = true
  | [], _, _, _, _, h, hmem => by
    cases h
    cases hmem
  | (key, value) :: rest, _, _, _, _, h, hmem => by
    rw [rewriteMembers] at h
    split at h
    · rcases bind_eq_ok h with ⟨⟨others, collected⟩, hothers, h⟩
      cases h
      exact inPlace_of_mem_members rest hothers hmem
    · rcases bind_eq_ok h with ⟨⟨document, here⟩, hhere, h⟩
      rcases bind_eq_ok h with ⟨⟨others, collected⟩, hothers, h⟩
      cases h
      rcases List.mem_append.mp hmem with hmem | hmem
      · exact (Bool.and_eq_true_iff.mp (inPlace_of_mem_applied value hhere hmem)).1
      · exact inPlace_of_mem_members rest hothers hmem
termination_by structural members => members

theorem inPlace_of_mem_items : ∀ (items : List Json) {path : String} {i : Nat} {inPlace : Bool}
    {documents : List Json} {applied : List Nat},
    rewriteItems defined items path i inPlace = .ok (documents, applied) → handle ∈ applied →
      inPlace = true
  | [], _, _, _, _, _, h, hmem => by
    cases h
    cases hmem
  | item :: rest, _, _, _, _, _, h, hmem => by
    rw [rewriteItems] at h
    rcases bind_eq_ok h with ⟨⟨document, here⟩, hhere, h⟩
    rcases bind_eq_ok h with ⟨⟨others, collected⟩, hothers, h⟩
    cases h
    rcases List.mem_append.mp hmem with hmem | hmem
    · exact inPlace_of_mem_applied item hhere hmem
    · exact inPlace_of_mem_items rest hothers hmem
termination_by structural items => items

end

/-- What is collected from members is collected from one of them, under a keyword that applies
schemas to the same place. -/
theorem exists_member_of_applied : ∀ {members documents : Fields Json} {path : String}
    {applied : List Nat},
    rewriteMembers defined members path true = .ok (documents, applied) → handle ∈ applied →
      ∃ k v here document collected, (k, v) ∈ members ∧ (k, document) ∈ documents ∧
        k ∈ inPlaceKeywords ∧ rewrite defined v here true = .ok (document, collected) ∧
          handle ∈ collected := by
  intro members
  induction members with
  | nil =>
    intro documents path applied h hmem
    cases h
    cases hmem
  | cons m rest ih =>
    intro documents path applied h hmem
    rcases m with ⟨key, value⟩
    rw [rewriteMembers] at h
    split at h
    · rcases bind_eq_ok h with ⟨⟨others, collected⟩, hothers, h⟩
      cases h
      rcases ih hothers hmem with ⟨k, v, here, document, collected, hm, hd, hrest⟩
      exact ⟨k, v, here, document, collected, List.mem_cons_of_mem _ hm, List.mem_cons_of_mem _ hd,
        hrest⟩
    · rcases bind_eq_ok h with ⟨⟨document, here⟩, hhere, h⟩
      rcases bind_eq_ok h with ⟨⟨others, collected⟩, hothers, h⟩
      cases h
      rcases List.mem_append.mp hmem with hmem | hmem
      · -- away from the place nothing would have been collected
        have hstays := inPlace_of_mem_applied value hhere hmem
        rw [hstays] at hhere
        exact ⟨key, value, _, document, here, List.mem_cons_self, List.mem_cons_self,
          List.contains_iff_mem.mp hstays, hhere, hmem⟩
      · rcases ih hothers hmem with ⟨k, v, here, document, collected, hm, hd, hrest⟩
        exact ⟨k, v, here, document, collected, List.mem_cons_of_mem _ hm,
          List.mem_cons_of_mem _ hd, hrest⟩

/-- What is collected from items is collected from one of them. -/
theorem exists_item_of_applied : ∀ {items documents : List Json} {path : String} {i : Nat}
    {applied : List Nat},
    rewriteItems defined items path i true = .ok (documents, applied) → handle ∈ applied →
      ∃ x here document collected, x ∈ items ∧ document ∈ documents ∧
        rewrite defined x here true = .ok (document, collected) ∧ handle ∈ collected := by
  intro items
  induction items with
  | nil =>
    intro documents path i applied h hmem
    cases h
    cases hmem
  | cons y rest ih =>
    intro documents path i applied h hmem
    rw [rewriteItems] at h
    rcases bind_eq_ok h with ⟨⟨document, here⟩, hhere, h⟩
    rcases bind_eq_ok h with ⟨⟨others, collected⟩, hothers, h⟩
    cases h
    rcases List.mem_append.mp hmem with hmem | hmem
    · exact ⟨y, _, document, here, List.mem_cons_self, List.mem_cons_self, hhere, hmem⟩
    · rcases ih hothers hmem with ⟨x, here, document, collected, hx, hd, hrest⟩
      exact ⟨x, here, document, collected, List.mem_cons_of_mem _ hx, List.mem_cons_of_mem _ hd,
        hrest⟩

/-- Every schema that is smaller than the document refers to all that is collected from it, where it
is rewritten to one that evaluators accept. -/
def RefersWithin (defined : List Bool) (handle : Nat) (d : Json) : Prop :=
  ∀ t : Json, t.depth < d.depth → t.Ordered → ∀ {path : String} {document : Json}
    {applied : List Nat}, rewrite defined t path true = .ok (document, applied) →
      Metaschema.Conforms document → handle ∈ applied → Refers [] t handle

/-- What is collected under a keyword is referred to by a schema under it. The keywords for one
schema hold one, and those for several hold a list, or evaluators would not accept the document. -/
theorem exists_under_of_mem_applied {members documents : Fields Json} {k here : String}
    {v document : Json} {applied : List Nat} (hsmaller : RefersWithin defined handle (.obj members))
    (hordered : (Json.obj members).Ordered)
    (hkeys : Fields.keys documents = Fields.keys members)
    (hconforms : Metaschema.Conforms (.obj documents)) (hk : k ∈ inPlaceKeywords)
    (hm : (k, v) ∈ members) (hd : (k, document) ∈ documents)
    (hrewrite : rewrite defined v here true = .ok (document, applied)) (hmem : handle ∈ applied) :
    ∃ t, Under singleApplicators listApplicators [] members t ∧ Refers [] t handle := by
  have hget : Fields.get? documents k = some document :=
    Fields.get?_of_mem (Fields.ordered_of_keys_eq hkeys hordered.1) hd
  have hv : v.Ordered := Json.ordered_of_mem hordered.2 hm
  have hdepth : v.depth < (Json.obj members).depth := Json.depth_lt_of_mem_obj hm
  have hsplit : ∀ k ∈ inPlaceKeywords, k ∈ singleApplicators ∨ k ∈ listApplicators := by decide
  rcases hsplit k hk with hsingle | hlisted
  · have hsub : singleApplicators ⊆
        ["additionalProperties", "items", "if", "then", "else", "not"] := by decide
    exact ⟨v, .single hsingle hm,
      hsmaller v hdepth hv hrewrite (hconforms.single (hsub hsingle) hget) hmem⟩
  · have hsub : listApplicators ⊆ ["prefixItems", "allOf", "anyOf", "oneOf"] := by decide
    rcases hconforms.listed (hsub hlisted) hget with ⟨xs, rfl, hxs⟩
    cases v with
    | arr items =>
      rw [rewrite] at hrewrite
      rcases bind_eq_ok hrewrite with ⟨⟨documents', collected⟩, hitems, hrewrite⟩
      cases hrewrite
      rcases exists_item_of_applied hitems hmem with ⟨x, _, _, _, hx, hdocument, hitem, hmem⟩
      have hlt : x.depth < (Json.arr items).depth := Json.depth_lt_of_mem_arr hx
      exact ⟨x, .listed hlisted hm hx, hsmaller x (hlt.trans hdepth)
        (Json.ordered_of_mem_items hv hx) hitem (hxs _ hdocument) hmem⟩
    | obj inner => exact absurd (isSchema_of_rewrite rfl hrewrite) Bool.false_ne_true
    | _ => cases hrewrite

/-- Where a document is rewritten to one that evaluators accept, everything that is collected from
it is referred to at its place: the handle of a marker, what the schema that a marker carries refers
to, and what schemas under keywords do. -/
theorem refers_of_mem_applied {d : Json} (hd : d.Ordered) : ∀ {path : String} {document : Json}
    {applied : List Nat}, rewrite defined d path true = .ok (document, applied) →
      Metaschema.Conforms document → handle ∈ applied → Refers [] d handle := by
  generalize hdepth : d.depth = depth
  induction depth using Nat.strong_induction_on generalizing d with
  | _ depth ih =>
    intro path document applied h hconforms hmem
    cases d with
    | obj members =>
      rw [rewrite] at h
      split at h
      · cases h
      · next hm =>
        rcases bind_eq_ok h with ⟨_, -, h⟩
        cases h
        obtain rfl := List.mem_singleton.mp hmem
        exact .marker hm
      · next f hm =>
        obtain rfl := Planning.members_of_inline hm
        have hlt : f.document.depth < (Json.obj [(Marker.key, f.document)]).depth :=
          Json.depth_lt_of_mem_obj List.mem_cons_self
        have hf : f.document.Ordered := Json.ordered_of_mem hd.2 List.mem_cons_self
        exact .carried hm (ih _ (hdepth ▸ hlt) hf rfl h hconforms hmem)
      · next hm =>
        rcases bind_eq_ok h with ⟨⟨documents, collected⟩, hmembers, h⟩
        cases h
        rcases exists_member_of_applied hmembers hmem with
          ⟨k, v, here, document, _, hv, hdocument, hk, hrewrite, hmem⟩
        have hkeys : Fields.keys documents = Fields.keys members :=
          keys_eq_of_forall₂ (R := fun _ _ => True)
            ((Rewrites.members hmembers).imp (fun _ _ hab => ⟨hab.1, trivial⟩))
        rcases exists_under_of_mem_applied (fun t ht ho => ih _ (hdepth ▸ ht) ho rfl) hd hkeys
          hconforms hk hv hdocument hrewrite hmem with ⟨t, ht, hrefers⟩
        exact .applied hm ht hrefers
    | arr items =>
      rw [rewrite] at h
      rcases bind_eq_ok h with ⟨⟨documents, collected⟩, -, h⟩
      cases h
      exact absurd hconforms.isSchema Bool.false_ne_true
    | _ =>
      cases h
      cases hmem

end EvaluationForm

/-! ## Handles that planning collects -/

namespace Planning

variable {c : Context} {p q : Plan Node} {handle : Nat}

/-- A keyword makes a plan refer to a handle: it applies schemas to the same place and the handle is
collected when its value is rewritten, or it is `allOf` and a branch refers to the handle. -/
inductive Contributes (c : Context) (handle : Nat) : String → Json → Json → Prop where
  | rewritten {k here : String} {v document : Json} {collected : List Nat}
      (hk : k ∈ EvaluationForm.inPlaceKeywords)
      (h : EvaluationForm.rewrite c.defined v here true = .ok (document, collected))
      (hmem : handle ∈ collected) : Contributes c handle k v document
  | branches {here : String} {v document : Json} {nodes : List Node}
      (h : list c v here = .ok (nodes, document))
      (hmem : handle ∈ Node.sameLocationAll nodes) : Contributes c handle "allOf" v document

/-- A step of planning makes a plan refer to what its keyword contributes, and to nothing else. -/
theorem contributes_of_keyword {k path : String} {v document : Json}
    (h : keyword c k v (Json.Pointer.child path k) (readings c k v path) p = .ok (q, document))
    (hmem : handle ∈ (Node.plan q).sameLocation) :
    handle ∈ (Node.plan p).sameLocation ∨ Contributes c handle k v document := by
  rw [sameLocation_plan] at hmem ⊢
  unfold keyword at h
  split at h
  case h_9 =>
    rcases bind_eq_ok h with ⟨⟨nodes, document'⟩, hlist, h⟩
    cases h
    rcases List.mem_append.mp hmem with hmem | hmem
    · exact Or.inl (List.mem_append_left _ hmem)
    · exact Or.inr (.branches hlist hmem)
  case h_10 =>
    split at h
    · cases h
      exact Or.inl hmem
    · rcases bind_eq_ok h with ⟨⟨document', collected⟩, hrewrite, h⟩
      cases h
      rw [List.append_assoc] at hmem
      rcases List.mem_append.mp hmem with hmem | hmem
      · exact Or.inl (List.mem_append_left _ hmem)
      rcases List.mem_append.mp hmem with hmem | hmem
      · have hstays := EvaluationForm.inPlace_of_mem_applied _ hrewrite hmem
        rw [hstays] at hrewrite
        exact Or.inr (.rewritten (List.contains_iff_mem.mp hstays) hrewrite hmem)
      · exact Or.inl (List.mem_append_right _ hmem)
  -- the other keywords leave alone what the plan refers to
  case h_1 =>
    split at h
    · cases h
      exact Or.inl hmem
    · cases h
  case h_2 | h_3 =>
    cases h
    exact Or.inl hmem
  case h_6 =>
    split at h
    · cases h
      exact Or.inl hmem
    · cases h
      exact Or.inl hmem
    · rcases bind_eq_ok h with ⟨_, -, h⟩
      cases h
      exact Or.inl hmem
  case h_7 =>
    split at h <;>
    · rcases bind_eq_ok h with ⟨_, -, h⟩
      cases h
      exact Or.inl hmem
  all_goals
    rcases bind_eq_ok h with ⟨_, -, h⟩
    cases h
    exact Or.inl hmem

theorem exists_member_of_keywords {path : String} : ∀ {members documents : Fields Json}
    {p q : Plan Node}, keywords c members path p = .ok (q, documents) →
      handle ∈ (Node.plan q).sameLocation → handle ∈ (Node.plan p).sameLocation ∨
        ∃ k v document, (k, v) ∈ members ∧ (k, document) ∈ documents ∧
          Contributes c handle k v document := by
  intro members
  induction members with
  | nil =>
    intro documents p q h hmem
    cases h
    exact Or.inl hmem
  | cons m rest ih =>
    intro documents p q h hmem
    rcases m with ⟨key, value⟩
    rw [keywords] at h
    rcases bind_eq_ok h with ⟨⟨p', document⟩, hkeyword, h⟩
    rcases bind_eq_ok h with ⟨⟨q', others⟩, hrest, h⟩
    cases h
    rcases ih hrest hmem with hmem | ⟨k, v, d, hm, hd, hcontributes⟩
    · rcases contributes_of_keyword hkeyword hmem with hmem | hcontributes
      · exact Or.inl hmem
      · exact Or.inr ⟨key, value, document, List.mem_cons_self, List.mem_cons_self, hcontributes⟩
    · exact Or.inr ⟨k, v, d, List.mem_cons_of_mem _ hm, List.mem_cons_of_mem _ hd, hcontributes⟩

/-- What the nodes of a list of schemas refer to, one of them does. -/
theorem exists_item_of_sameLocationAll : ∀ {xs documents : List Json} {nodes : List Node}
    {here : String} {i : Nat}, itemNodes c xs here i = .ok (nodes, documents) →
      handle ∈ Node.sameLocationAll nodes → ∃ x path n document, x ∈ xs ∧ document ∈ documents ∧
        node c x path = .ok (n, document) ∧ handle ∈ n.sameLocation := by
  intro xs
  induction xs with
  | nil =>
    intro documents nodes here i h hmem
    cases h
    rw [Node.sameLocationAll] at hmem
    cases hmem
  | cons y rest ih =>
    intro documents nodes here i h hmem
    rw [itemNodes] at h
    rcases bind_eq_ok h with ⟨⟨n, document⟩, hn, h⟩
    rcases bind_eq_ok h with ⟨⟨others, documents'⟩, hothers, h⟩
    cases h
    rw [Node.sameLocationAll] at hmem
    rcases List.mem_append.mp hmem with hmem | hmem
    · exact ⟨y, _, n, document, List.mem_cons_self, List.mem_cons_self, hn, hmem⟩
    · rcases ih hothers hmem with ⟨x, path, m, d, hx, hd, hnode⟩
      exact ⟨x, path, m, d, List.mem_cons_of_mem _ hx, List.mem_cons_of_mem _ hd, hnode⟩

/-- Everything that the node of a schema refers to the schema refers to, where evaluators accept the
document that goes with the node. -/
theorem refers_of_mem_sameLocation {d : Json} (hd : d.Ordered) : ∀ {path : String} {n : Node}
    {document : Json}, node c d path = .ok (n, document) → Metaschema.Conforms document →
      handle ∈ n.sameLocation → Refers [] d handle := by
  generalize hdepth : d.depth = depth
  induction depth using Nat.strong_induction_on generalizing d with
  | _ depth ih =>
    intro path n document h hconforms hmem
    cases d with
    | bool b =>
      cases h
      rw [sameLocation_plan] at hmem
      cases hmem
    | obj members =>
      rw [node] at h
      split at h
      · cases h
      · next hm =>
        rcases bind_eq_ok h with ⟨_, -, h⟩
        cases h
        obtain rfl := List.mem_singleton.mp hmem
        exact .marker hm
      · next f hm =>
        obtain rfl := members_of_inline hm
        rcases bind_eq_ok h with ⟨⟨root, inner⟩, hroot, h⟩
        rcases bind_eq_ok h with ⟨e, he, h⟩
        cases h
        -- the schema that the marker carries has an evaluator of its own
        have hinner := Metaschema.conforms_of_build (build_of_evaluator he)
        have hlt : f.document.depth < (Json.obj [(Marker.key, f.document)]).depth :=
          Json.depth_lt_of_mem_obj List.mem_cons_self
        have hf : f.document.Ordered := Json.ordered_of_mem hd.2 List.mem_cons_self
        rw [Node.sameLocation] at hmem
        exact .carried hm (ih _ (hdepth ▸ hlt) hf rfl hroot hinner hmem)
      · next hm =>
        rcases bind_eq_ok h with ⟨⟨q, documents⟩, hkeywords, h⟩
        cases h
        have hkeys : Fields.keys documents = Fields.keys members :=
          keys_eq_of_forall₂ (R := fun _ _ => True)
            ((forall₂_of_plansKeywords (plans_of_keywords members _ _ _ _ hkeywords)).imp
              (fun _ _ hab => ⟨hab.1, trivial⟩))
        rcases exists_member_of_keywords hkeywords hmem with
          hmem | ⟨k, v, document, hv, hdocument, hcontributes⟩
        · rw [sameLocation_plan] at hmem
          cases hmem
        cases hcontributes with
        | rewritten hk hrewrite hmem =>
          rcases EvaluationForm.exists_under_of_mem_applied
            (fun t _ ho => EvaluationForm.refers_of_mem_applied ho) hd hkeys hconforms hk hv
            hdocument hrewrite hmem with ⟨t, ht, hrefers⟩
          exact .applied hm ht hrefers
        | branches hlist hmem =>
          have hget : Fields.get? documents "allOf" = some document :=
            Fields.get?_of_mem (Fields.ordered_of_keys_eq hkeys hd.1) hdocument
          have hlisted : "allOf" ∈ ["prefixItems", "allOf", "anyOf", "oneOf"] := by decide
          rcases hconforms.listed hlisted hget with ⟨xs, rfl, hxs⟩
          cases v with
          | arr items =>
            rcases bind_eq_ok hlist with ⟨⟨nodes, documents'⟩, hitems, hlist⟩
            cases hlist
            rcases exists_item_of_sameLocationAll hitems hmem with
              ⟨x, _, _, _, hx, hdocument, hnode, hmem⟩
            have hlt : x.depth < (Json.obj members).depth :=
              (Json.depth_lt_of_mem_arr hx).trans (Json.depth_lt_of_mem_obj hv)
            have hordered : x.Ordered :=
              Json.ordered_of_mem_items (Json.ordered_of_mem hd.2 hv) hx
            have happlies : "allOf" ∈ listApplicators := by decide
            exact .applied hm (.listed happlies hv hx)
              (ih _ (hdepth ▸ hlt) hordered rfl hnode (hxs _ hdocument) hmem)
          | _ => cases hlist
    | _ => cases h

/-- The handles that a node refers to are those that its schema refers to. -/
theorem mem_sameLocation_iff {d document : Json} {path : String} {n : Node} (hd : d.Ordered)
    (h : node c d path = .ok (n, document)) (hconforms : Metaschema.Conforms document) :
    handle ∈ n.sameLocation ↔ Refers [] d handle :=
  ⟨refers_of_mem_sameLocation hd h hconforms,
    fun hrefers => mem_sameLocation_of_refers hrefers hd h⟩

end Planning

/-! ## Registries whose schemas compile -/

/-- Every schema of a registry compiles: all have a form that evaluators can read, and each one can
be planned and has an evaluator next to these. -/
def Registry.CompilesUnder (r : Registry) (o : Options) : Prop :=
  ∃ resources,
    (Engine.numbered r).mapM (fun x => Engine.resourceOf r.definedFlags x.1 x.2) = .ok resources ∧
      ∀ entry ∈ r.entries, ∀ f, entry.schema = some f → ∃ s,
        Planning.compile ⟨r.definedFlags, resources.filterMap id⟩ o f.document
          (Engine.entryPath entry) = .ok s

namespace Engine

variable {o : Options} {r : Registry} {c : Planning.Context}
  {entries : List (Option CompiledSchema)}

/-- Freezing a registry whose schemas compile comes down to the search for cycles. -/
theorem exists_entries_of_compilesUnder (hr : r.CompilesUnder o) : ∃ c entries,
    r.entries.mapM (entryOf c o) = .ok entries ∧
      ofRegistry o r = match cycle? entries with
        | some handle => .error (.referenceCycle ((r.name? handle).getD ""))
        | none => .ok ⟨o, c, entries⟩ := by
  rcases hr with ⟨resources, hresources, hcompile⟩
  have hentry : ∀ entry ∈ r.entries, ∃ compiled,
      entryOf ⟨r.definedFlags, resources.filterMap id⟩ o entry = .ok compiled := by
    intro entry hmem
    unfold entryOf
    cases hschema : entry.schema with
    | none => exact ⟨none, rfl⟩
    | some f =>
      rcases hcompile entry hmem f hschema with ⟨s, hs⟩
      exact ⟨some s, by dsimp only; rw [hs]; rfl⟩
  rcases exists_mapM_iff.mpr hentry with ⟨entries, hentries⟩
  refine ⟨_, entries, hentries, ?_⟩
  unfold ofRegistry
  simp only [hresources, hentries, bind, Except.bind]
  cases cycle? entries <;> rfl

/-- The search follows exactly the references that schemas make at the same place of the value. -/
theorem mem_edges_iff_leads (hentries : r.entries.mapM (entryOf c o) = .ok entries)
    (hordered : ∀ handle g, r.get? handle = some g → g.document.Ordered) {handle next : Nat} :
    next ∈ edges entries handle ↔ r.Leads [] handle next := by
  refine ⟨fun h => ?_, mem_edges_of_leads hentries hordered⟩
  rcases mem_edges_iff.mp h with ⟨s, hs, hmem⟩
  rcases exists_of_rel (rel_compile hentries handle) hs with ⟨f, hf, path, hcompile⟩
  rcases Planning.evaluator_of_compile c hcompile with ⟨document, hnode, hevaluator⟩
  have hconforms := Metaschema.conforms_of_build (Planning.build_of_evaluator hevaluator)
  exact ⟨f, hf, (Planning.mem_sameLocation_iff (hordered handle f hf) hnode hconforms).mp hmem⟩

theorem leadsTo_iff_leads (hentries : r.entries.mapM (entryOf c o) = .ok entries)
    (hordered : ∀ handle g, r.get? handle = some g → g.document.Ordered) {handle next : Nat} :
    LeadsTo entries handle next ↔ Relation.TransGen (r.Leads []) handle next := by
  constructor
  · exact fun h => h.lift id (fun _ _ hedge => (mem_edges_iff_leads hentries hordered).mp hedge)
  · exact fun h => h.lift id (fun _ _ hlead => (mem_edges_iff_leads hentries hordered).mpr hlead)

/-- A handle that leads to another has a name. -/
theorem exists_name_of_leads {handle next : Nat} (h : Relation.TransGen (r.Leads []) handle next) :
    ∃ name, r.name? handle = some name := by
  rcases Relation.TransGen.head'_iff.mp h with ⟨_, ⟨f, hf, -⟩, -⟩
  rcases Option.bind_eq_some_iff.mp hf with ⟨entry, hentry, -⟩
  exact ⟨entry.name, by rw [Registry.name?, hentry]; rfl⟩

/-- Of the registries whose schemas all compile exactly those are rejected that lead back to
themselves at the same place of the value. The name that is reported is that of a handle that does,
and the others are accepted. -/
theorem ofRegistry_eq_cycle_iff (hr : r.CompilesUnder o)
    (hordered : ∀ handle g, r.get? handle = some g → g.document.Ordered) :
    (∀ name, ofRegistry o r = .error (.referenceCycle name) →
      ∃ handle, Relation.TransGen (r.Leads []) handle handle ∧ r.name? handle = some name) ∧
    ((∃ name, ofRegistry o r = .error (.referenceCycle name)) ↔ r.Circular []) ∧
    ((∃ e, ofRegistry o r = .ok e) ↔ ¬ r.Circular []) := by
  rcases exists_entries_of_compilesUnder hr with ⟨c, entries, hentries, houtcome⟩
  cases hfound : cycle? entries with
  | none =>
    rw [hfound] at houtcome
    have hnone : ¬ r.Circular [] := by
      rintro ⟨handle, hcycle⟩
      exact cycle?_eq_none_iff_not_leadsTo.mp hfound handle
        ((leadsTo_iff_leads hentries hordered).mpr hcycle)
    rw [houtcome]
    refine ⟨fun name h => (by cases h), ⟨fun ⟨_, h⟩ => (by cases h), fun h => absurd h hnone⟩,
      fun _ => hnone, fun _ => ⟨_, rfl⟩⟩
  | some handle =>
    rw [hfound] at houtcome
    have hcycle := (leadsTo_iff_leads hentries hordered).mp (leadsTo_of_cycle?_eq_some hfound)
    rcases exists_name_of_leads hcycle with ⟨name, hname⟩
    dsimp only at houtcome
    rw [hname] at houtcome
    rw [houtcome]
    refine ⟨fun name' h => ?_, ⟨fun _ => ⟨handle, hcycle⟩, fun _ => ⟨name, rfl⟩⟩,
      fun ⟨_, h⟩ => (by cases h), fun h => absurd ⟨handle, hcycle⟩ h⟩
    cases h
    exact ⟨handle, hcycle, hname⟩

/-! ## Two schemas that lead to each other -/

/-- One schema has the other as its only branch, and that one is a reference back. -/
def alternating : Registry :=
  ⟨[⟨"there", some (.ofMembers [("allOf", .arr [(Marker.deferred 1).toJson])])⟩,
    ⟨"back", some (.ofMembers [(Marker.key, Json.ofNat 0)])⟩]⟩

def alternatingResources : List Resource :=
  [⟨EvaluationForm.resourceUri 0, .obj [("allOf", .arr [EvaluationForm.reference 1])]⟩,
    ⟨EvaluationForm.resourceUri 1, EvaluationForm.reference 0⟩]

theorem compilesUnder_alternating (o : Options) : alternating.CompilesUnder o := by
  have hresources : ∀ r ∈ alternatingResources,
      (Library.declared (r.contents.depth + 1) r.uri r.contents).references = [] :=
    List.forall_mem_cons.mpr ⟨Library.references_of_unidentified 0 _ rfl,
      List.forall_mem_singleton.mpr (Library.references_of_unidentified 1 _ rfl)⟩
  refine ⟨alternatingResources.map some, rfl, fun entry hentry f hf => ?_⟩
  rcases List.mem_cons.mp hentry with rfl | hentry
  · cases hf
    rcases Planning.compile_of_basic ⟨[true, true], alternatingResources⟩ o
      (.obj [("allOf", .arr [(Marker.deferred 1).toJson])]) "there#" rfl
      (n := .plan { Plan.empty with allOf := [.deferred 1] }) rfl
      (.single (.branch (.bool true))) hresources with ⟨_, hs⟩
    exact ⟨_, hs⟩
  · obtain rfl := List.mem_singleton.mp hentry
    cases hf
    rcases Planning.compile_of_basic ⟨[true, true], alternatingResources⟩ o
      (Marker.deferred 0).toJson "back#" rfl (n := .deferred 0) rfl (.bool true) hresources with
      ⟨_, hs⟩
    exact ⟨_, hs⟩

theorem circular_alternating : alternating.Circular [] := by
  have hthere : Marker.ofMembers? [(Marker.key, Json.ofNat 1)] = some (.ok (.deferred 1)) := rfl
  have hback : Marker.ofMembers? [(Marker.key, Json.ofNat 0)] = some (.ok (.deferred 0)) := rfl
  have happlies : "allOf" ∈ listApplicators := by decide
  have hfirst : alternating.Leads [] 0 1 :=
    ⟨_, rfl, .applied rfl (.listed happlies List.mem_cons_self List.mem_cons_self)
      (.marker hthere)⟩
  have hsecond : alternating.Leads [] 1 0 := ⟨_, rfl, .marker hback⟩
  exact ⟨0, .tail (.single hfirst) hsecond⟩

theorem ordered_alternating :
    ∀ handle g, alternating.get? handle = some g → g.document.Ordered := by
  intro handle g h
  match handle with
  | 0 | 1 =>
    cases h
    simp [Fragment.ofMembers, Marker.toJson, Json.Ordered, Json.OrderedMembers, Json.OrderedItems,
      Json.ofNat, Fields.Ordered]
  | _ + 2 => cases h

/-- They are rejected. -/
theorem ofRegistry_alternating : alternating.CompilesUnder .standard ∧
    ∃ name, ofRegistry .standard alternating = .error (.referenceCycle name) :=
  ⟨compilesUnder_alternating _,
    (ofRegistry_eq_cycle_iff (compilesUnder_alternating _) ordered_alternating).2.1.mpr
      circular_alternating⟩

end Engine

end HttpContract
