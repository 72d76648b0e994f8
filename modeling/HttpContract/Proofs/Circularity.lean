import Mathlib.Order.WellFounded
import HttpContract.Proofs.Accordance
import HttpContract.Proofs.Agreement
import HttpContract.Proofs.Building

/-!
# Registries that lead back to themselves

A schema refers to a handle at the same place of the value if it is a marker for the handle, or if
a schema that it carries or applies there refers to it (`Refers`). The search for cycles knows these
references (`Engine.mem_edges_of_leads`), those under `dependentSchemas` apart. An accepted registry
therefore has no cycle without these, and has one exactly if a reference under `dependentSchemas`
leads back to where it comes from (`Engine.not_circular_iff`).
-/

namespace HttpContract

open Evaluation (Under)

/-! ## References -/

/-- Keywords that hold one schema for the same place of the value. -/
def singleApplicators : List String := ["if", "then", "else", "not"]

/-- Keywords that hold a list of schemas for the same place of the value. -/
def listApplicators : List String := ["allOf", "anyOf", "oneOf"]

/-- A schema refers to a handle at the same place of the value: through a marker, through the schema
that a marker carries, or through a schema under a keyword. The keywords that are to hold such
schemas under names are `named`. -/
inductive Refers (named : List String) : Json → Nat → Prop where
  | marker {members : Fields Json} {handle : Nat}
      (hm : Marker.ofMembers? members = some (.ok (.deferred handle))) :
      Refers named (.obj members) handle
  | carried {members : Fields Json} {f : Fragment} {handle : Nat}
      (hm : Marker.ofMembers? members = some (.ok (.inline f)))
      (h : Refers named f.document handle) : Refers named (.obj members) handle
  | applied {members : Fields Json} {t : Json} {handle : Nat}
      (hm : Marker.ofMembers? members = none)
      (ht : Under singleApplicators listApplicators named members t) (h : Refers named t handle) :
      Refers named (.obj members) handle

/-! ## References that evaluation follows -/

namespace EvaluationForm

variable {defined : List Bool} {inPlace : Bool} {applied : List Nat} {path : String}

/-- What the rewriting of a member collects is among what the rewriting of all collects. -/
theorem exists_rewrite_of_member {k : String} {v : Json} (hk : k ∈ inPlaceKeywords) :
    ∀ {members documents : Fields Json} {path : String} {applied : List Nat},
      rewriteMembers defined members path true = .ok (documents, applied) → (k, v) ∈ members →
        ∃ here document collected,
          rewrite defined v here true = .ok (document, collected) ∧ collected ⊆ applied := by
  intro members
  induction members with
  | nil => exact fun _ hm => absurd hm List.not_mem_nil
  | cons m rest ih =>
    intro documents path applied h hm
    rcases m with ⟨key, value⟩
    rw [rewriteMembers] at h
    split at h
    · next hdata =>
      -- data is passed over, and no keyword that applies schemas holds data
      rcases bind_eq_ok h with ⟨⟨others, collected⟩, hothers, h⟩
      cases h
      rcases List.mem_cons.mp hm with heq | hm
      · cases heq
        have hno : ∀ k ∈ inPlaceKeywords, dataKeywords.contains k = false := by decide
        rw [hno k hk] at hdata
        cases hdata
      · exact ih hothers hm
    · rcases bind_eq_ok h with ⟨⟨document, here⟩, hhere, h⟩
      rcases bind_eq_ok h with ⟨⟨others, collected⟩, hothers, h⟩
      cases h
      rcases List.mem_cons.mp hm with heq | hm
      · cases heq
        rw [Bool.true_and, List.contains_iff_mem.mpr hk] at hhere
        exact ⟨_, _, _, hhere, List.subset_append_left _ _⟩
      · rcases ih hothers hm with ⟨place, document', collected', hrewrite, hsub⟩
        exact ⟨place, document', collected', hrewrite,
          List.Subset.trans hsub (List.subset_append_right _ _)⟩

/-- What the rewriting of an item collects is among what the rewriting of all collects. -/
theorem exists_rewrite_of_item {x : Json} :
    ∀ {items documents : List Json} {path : String} {i : Nat} {applied : List Nat},
      rewriteItems defined items path i true = .ok (documents, applied) → x ∈ items →
        ∃ here document collected,
          rewrite defined x here true = .ok (document, collected) ∧ collected ⊆ applied := by
  intro items
  induction items with
  | nil => exact fun _ hx => absurd hx List.not_mem_nil
  | cons y rest ih =>
    intro documents path i applied h hx
    rw [rewriteItems] at h
    rcases bind_eq_ok h with ⟨⟨document, here⟩, hhere, h⟩
    rcases bind_eq_ok h with ⟨⟨others, collected⟩, hothers, h⟩
    cases h
    rcases List.mem_cons.mp hx with rfl | hx
    · exact ⟨_, _, _, hhere, List.subset_append_left _ _⟩
    · rcases ih hothers hx with ⟨place, document', collected', hrewrite, hsub⟩
      exact ⟨place, document', collected', hrewrite,
        List.Subset.trans hsub (List.subset_append_right _ _)⟩

/-- Rewriting in place collects every handle that a document refers to. -/
theorem mem_applied_of_refers {d : Json} {handle : Nat} (hd : Refers [] d handle) :
    ∀ {path : String} {document : Json} {applied : List Nat},
      rewrite defined d path true = .ok (document, applied) → handle ∈ applied := by
  induction hd with
  | marker hm =>
    intro path document applied h
    rw [rewrite, hm] at h
    rcases bind_eq_ok h with ⟨_, -, h⟩
    cases h
    exact List.mem_cons_self
  | carried hm _ ih =>
    intro path document applied h
    rw [rewrite, hm] at h
    obtain rfl := Planning.members_of_inline hm
    exact ih h
  | applied hm ht _ ih =>
    intro path document applied h
    rw [rewrite, hm] at h
    rcases bind_eq_ok h with ⟨⟨documents, collected⟩, hmembers, h⟩
    cases h
    cases ht with
    | single hk hs =>
      have hin : singleApplicators ⊆ inPlaceKeywords := by decide
      rcases exists_rewrite_of_member (hin hk) hmembers hs with ⟨_, _, _, hrewrite, hsub⟩
      exact hsub (ih hrewrite)
    | listed hk hxs hs =>
      have hin : listApplicators ⊆ inPlaceKeywords := by decide
      rcases exists_rewrite_of_member (hin hk) hmembers hxs with ⟨_, _, _, hrewrite, hsub⟩
      rw [rewrite] at hrewrite
      rcases bind_eq_ok hrewrite with ⟨⟨documents', inner⟩, hitems, hrewrite⟩
      cases hrewrite
      rcases exists_rewrite_of_item hitems hs with ⟨_, _, _, hitem, hsub'⟩
      exact hsub (hsub' (ih hitem))
    | named hk _ _ => cases hk

end EvaluationForm

/-! ## References that plans follow -/

namespace Planning

variable {c : Context} {p q : Plan Node} {v document : Json} {ρ : Role}

theorem applied_subset_of_plansKeyword (h : PlansKeyword c ρ v p q document) :
    p.applied ⊆ q.applied := by
  cases h with
  | other _ => exact List.subset_append_left _ _
  | _ => exact List.Subset.refl _

theorem applied_subset_of_plansKeywords {members documents : Fields Json} :
    ∀ {p q : Plan Node}, PlansKeywords c members p q documents → p.applied ⊆ q.applied
  | _, _, .nil => List.Subset.refl _
  | _, _, .cons h hrest =>
    List.Subset.trans (applied_subset_of_plansKeyword h) (applied_subset_of_plansKeywords hrest)
termination_by structural _ _ h => h

theorem allOf_eq_of_plansKeyword (h : PlansKeyword c ρ v p q document) (hρ : ρ ≠ .branches) :
    q.allOf = p.allOf := by
  cases h with
  | branches _ => exact absurd rfl hρ
  | _ => rfl

theorem allOf_eq_of_plansKeywords {members documents : Fields Json} :
    ∀ {p q : Plan Node}, PlansKeywords c members p q documents →
      (∀ v, ("allOf", v) ∉ members) → q.allOf = p.allOf
  | _, _, .nil, _ => rfl
  | _, _, .cons h hrest, hno => by
    rw [allOf_eq_of_plansKeywords hrest (fun v hv => hno v (List.mem_cons_of_mem _ hv))]
    refine allOf_eq_of_plansKeyword h (fun hρ => ?_)
    obtain rfl := eq_of_role hρ rfl
    exact hno _ List.mem_cons_self
termination_by structural _ _ h => h

/-- How the value of a keyword is read when its schema is planned. -/
def readings (c : Context) (k : String) (v : Json) (path : String) : Readings :=
  ⟨fun _ => node c v (Json.Pointer.child path k),
    fun patterns reason => entries c v patterns reason (Json.Pointer.child path k),
    fun _ => list c v (Json.Pointer.child path k)⟩

/-- The step at which a keyword is added to the plan. What it adds to `applied` stays, and what it
makes of `allOf` does if the keyword occurs once. -/
theorem exists_keyword_of_mem {k : String} {v : Json} {path : String} :
    ∀ {members documents : Fields Json} {p q : Plan Node},
      keywords c members path p = .ok (q, documents) → Fields.Ordered members →
        (k, v) ∈ members → ∃ p' q' document,
          keyword c k v (Json.Pointer.child path k) (readings c k v path) p' = .ok (q', document) ∧
            q'.applied ⊆ q.applied ∧ (k = "allOf" → q.allOf = q'.allOf) := by
  intro members
  induction members with
  | nil => exact fun _ _ hm => absurd hm List.not_mem_nil
  | cons m rest ih =>
    intro documents p q h hordered hm
    rcases m with ⟨key, value⟩
    rw [keywords] at h
    rcases bind_eq_ok h with ⟨⟨p', document⟩, hkeyword, h⟩
    rcases bind_eq_ok h with ⟨⟨q', others⟩, hrest, h⟩
    cases h
    rcases List.mem_cons.mp hm with heq | hm
    · cases heq
      have hplans := plans_of_keywords rest path _ _ _ hrest
      refine ⟨p, p', document, hkeyword, applied_subset_of_plansKeywords hplans, fun hk => ?_⟩
      -- keys ascend, so the keyword does not come again
      refine allOf_eq_of_plansKeywords hplans (fun v hv => ?_)
      exact absurd ((List.pairwise_cons.mp hordered).1 _ hv) (hk ▸ String.lt_irrefl _)
    · exact ih hrest (List.pairwise_cons.mp hordered).2 hm

theorem sameLocation_subset_of_mem {nodes : List Node} {n : Node} (h : n ∈ nodes) :
    n.sameLocation ⊆ Node.sameLocationAll nodes := by
  induction nodes with
  | nil => cases h
  | cons m rest ih =>
    rw [Node.sameLocationAll]
    rcases List.mem_cons.mp h with rfl | h
    · exact List.subset_append_left _ _
    · exact List.Subset.trans (ih h) (List.subset_append_right _ _)

theorem sameLocation_plan (p : Plan Node) :
    (Node.plan p).sameLocation = p.applied ++ Node.sameLocationAll p.allOf := by
  cases p
  rw [Node.sameLocation]

/-- Every schema in a list of schemas has been planned. -/
theorem exists_node_of_item {x : Json} :
    ∀ {xs documents : List Json} {nodes : List Node} {here : String} {i : Nat},
      itemNodes c xs here i = .ok (nodes, documents) → x ∈ xs →
        ∃ path n document, node c x path = .ok (n, document) ∧ n ∈ nodes := by
  intro xs
  induction xs with
  | nil => exact fun _ hx => absurd hx List.not_mem_nil
  | cons y rest ih =>
    intro documents nodes here i h hx
    rw [itemNodes] at h
    rcases bind_eq_ok h with ⟨⟨n, document⟩, hn, h⟩
    rcases bind_eq_ok h with ⟨⟨others, documents'⟩, hothers, h⟩
    cases h
    rcases List.mem_cons.mp hx with rfl | hx
    · exact ⟨_, _, _, hn, List.mem_cons_self⟩
    · rcases ih hothers hx with ⟨path, m, document', hm, hmem⟩
      exact ⟨path, m, document', hm, List.mem_cons_of_mem _ hmem⟩

/-- Keywords other than `allOf` that apply schemas are read for evaluation, in place. -/
theorem keyword_of_inPlace {k here : String} {r : Readings}
    (hk : k ∈ EvaluationForm.inPlaceKeywords) (hne : k ≠ "allOf")
    (h : keyword c k v here r p = .ok (q, document)) :
    ∃ collected, EvaluationForm.rewrite c.defined v here true = .ok (document, collected) ∧
      q.applied = p.applied ++ collected := by
  have hsteps : keyword c k v here r p = EvaluationForm.rewrite c.defined v here true >>=
      fun x => .ok ({ p with applied := p.applied ++ x.2 }, x.1) := by
    simp only [EvaluationForm.inPlaceKeywords, List.mem_cons, List.not_mem_nil, or_false] at hk
    rcases hk with rfl | rfl | rfl | rfl | rfl | rfl | rfl
    · exact absurd rfl hne
    all_goals rfl
  rw [hsteps] at h
  rcases bind_eq_ok h with ⟨⟨document', collected⟩, hrewrite, h⟩
  cases h
  exact ⟨collected, hrewrite, rfl⟩

/-- The node of a schema refers to every handle that the schema refers to. -/
theorem mem_sameLocation_of_refers {d : Json} {handle : Nat} (hd : Refers [] d handle) :
    ∀ {path : String} {n : Node} {document : Json}, d.Ordered →
      node c d path = .ok (n, document) → handle ∈ n.sameLocation := by
  induction hd with
  | marker hm =>
    intro path n document _ h
    rw [node, hm] at h
    rcases bind_eq_ok h with ⟨_, -, h⟩
    cases h
    exact List.mem_cons_self
  | carried hm _ ih =>
    intro path n document hordered h
    rw [node, hm] at h
    obtain rfl := members_of_inline hm
    rcases bind_eq_ok h with ⟨⟨root, inner⟩, hroot, h⟩
    rcases bind_eq_ok h with ⟨e, -, h⟩
    cases h
    rw [Node.sameLocation]
    exact ih (Json.ordered_of_mem hordered.2 List.mem_cons_self) hroot
  | applied hm ht hrefers ih =>
    intro path n document hordered h
    rw [node, hm] at h
    rcases bind_eq_ok h with ⟨⟨p, documents⟩, hkeywords, h⟩
    cases h
    rw [sameLocation_plan]
    cases ht with
    | @single k _ hk hs =>
      have hin : ∀ k ∈ singleApplicators, k ∈ EvaluationForm.inPlaceKeywords ∧ k ≠ "allOf" := by
        decide
      rcases exists_keyword_of_mem hkeywords hordered.1 hs with
        ⟨p', q', document', hkeyword, hsub, -⟩
      rcases keyword_of_inPlace (hin k hk).1 (hin k hk).2 hkeyword with ⟨collected, hrewrite, heq⟩
      refine List.mem_append_left _ (hsub ?_)
      rw [heq]
      exact List.mem_append_right _ (EvaluationForm.mem_applied_of_refers hrefers hrewrite)
    | @listed k xs _ hk hxs hs =>
      rcases exists_keyword_of_mem hkeywords hordered.1 hxs with
        ⟨p', q', document', hkeyword, hsub, hallOf⟩
      by_cases hbranches : k = "allOf"
      · subst hbranches
        rcases bind_eq_ok hkeyword with ⟨⟨nodes, document''⟩, hlist, hkeyword⟩
        cases hkeyword
        rcases bind_eq_ok hlist with ⟨⟨nodes', documents'⟩, hitems, hlist⟩
        cases hlist
        rcases exists_node_of_item hitems hs with ⟨_, m, _, hnode, hmem⟩
        have hx := Json.ordered_of_mem_items (Json.ordered_of_mem hordered.2 hxs) hs
        rw [hallOf rfl]
        exact List.mem_append_right _ (sameLocation_subset_of_mem hmem (ih hx hnode))
      · have hin : ∀ k ∈ listApplicators, k ∈ EvaluationForm.inPlaceKeywords := by decide
        rcases keyword_of_inPlace (hin k hk) hbranches hkeyword with ⟨collected, hrewrite, heq⟩
        rw [EvaluationForm.rewrite] at hrewrite
        rcases bind_eq_ok hrewrite with ⟨⟨documents', inner⟩, hitems, hrewrite⟩
        cases hrewrite
        rcases EvaluationForm.exists_rewrite_of_item hitems hs with ⟨_, _, _, hitem, hsub'⟩
        refine List.mem_append_left _ (hsub ?_)
        rw [heq]
        exact List.mem_append_right _ (hsub' (EvaluationForm.mem_applied_of_refers hrefers hitem))
    | named hk _ _ => cases hk

end Planning

/-! ## Registries -/

namespace Registry

/-- The schema of a handle refers to another handle at the same place of the value. -/
def Leads (r : Registry) (named : List String) (handle next : Nat) : Prop :=
  ∃ f, r.get? handle = some f ∧ Refers named f.document next

/-- Some handle leads back to itself at the same place of the value. -/
def Circular (r : Registry) (named : List String) : Prop :=
  ∃ handle, Relation.TransGen (r.Leads named) handle handle

end Registry

theorem Refers.mono {named named' : List String} (hsub : named ⊆ named') {d : Json} {handle : Nat}
    (h : Refers named d handle) : Refers named' d handle := by
  induction h with
  | marker hm => exact .marker hm
  | carried hm _ ih => exact .carried hm ih
  | applied hm ht _ ih =>
    exact .applied hm (ht.mono (List.Subset.refl _) (List.Subset.refl _) hsub) ih

namespace Engine

variable {o : Options} {r : Registry} {e : Engine}

/-- The schema of a handle of an accepted registry has been compiled. -/
theorem exists_compile_of_get? (hr : ofRegistry o r = .ok e) {handle : Nat} {f : Fragment}
    (hf : r.get? handle = some f) :
    ∃ s path, e.entry? handle = some s ∧ Planning.compile e.context o f.document path = .ok s := by
  rcases ofRegistry_eq_ok_iff.mp hr with ⟨resources, entries, -, hentries, -, rfl⟩
  rcases exists_of_rel (rel_symm (rel_compile hentries handle)) hf with ⟨s, hs, path, hcompile⟩
  exact ⟨s, path, hs, hcompile⟩

/-- The search for cycles follows the references of all registered schemas. -/
theorem mem_edges_of_leads {c : Planning.Context} {entries : List (Option CompiledSchema)}
    (hentries : r.entries.mapM (entryOf c o) = .ok entries)
    (hregistry : ∀ handle g, r.get? handle = some g → g.document.Ordered) {handle next : Nat}
    (h : r.Leads [] handle next) : next ∈ edges entries handle := by
  rcases h with ⟨f, hf, hrefers⟩
  rcases exists_of_rel (rel_symm (rel_compile hentries handle)) hf with ⟨s, hs, path, hcompile⟩
  rcases Planning.evaluator_of_compile c hcompile with ⟨document, hnode, -⟩
  exact mem_edges_iff.mpr ⟨s, hs, Planning.mem_sameLocation_of_refers hrefers
    (hregistry handle f hf) hnode⟩

/-- Without the keyword `dependentSchemas` an accepted registry is not circular. -/
theorem not_circular (hr : ofRegistry o r = .ok e)
    (hregistry : ∀ handle g, r.get? handle = some g → g.document.Ordered) : ¬ r.Circular [] := by
  rintro ⟨handle, hcycle⟩
  rcases ofRegistry_eq_ok_iff.mp hr with ⟨resources, entries, -, hentries, hnone, rfl⟩
  have hcycle' : LeadsTo entries handle handle :=
    hcycle.lift id (fun _ _ h => mem_edges_of_leads hentries hregistry h)
  exact cycle?_eq_none_iff_not_leadsTo.mp hnone handle hcycle'

/-- Without the keyword `dependentSchemas` an accepted registry is not circular, and with it exactly
if no reference that this keyword alone makes leads back to where it comes from. -/
theorem not_circular_iff (hr : ofRegistry o r = .ok e)
    (hregistry : ∀ handle g, r.get? handle = some g → g.document.Ordered) :
    ¬ r.Circular [] ∧ (¬ r.Circular ["dependentSchemas"] ↔
      ∀ handle next, r.Leads ["dependentSchemas"] handle next →
        Relation.ReflTransGen (r.Leads ["dependentSchemas"]) next handle →
          r.Leads [] handle next) := by
  refine ⟨not_circular hr hregistry, fun hnone handle next hleads hback => ?_, ?_⟩
  · exact absurd ⟨handle, .head' hleads hback⟩ hnone
  · rintro honly ⟨handle, hcycle⟩
    -- all handles of a cycle lead back, so none of its references needs the keyword
    have hall : ∀ a, Relation.TransGen (r.Leads ["dependentSchemas"]) handle a →
        Relation.ReflTransGen (r.Leads ["dependentSchemas"]) a handle →
          Relation.TransGen (r.Leads []) handle a := by
      intro a ha
      induction ha with
      | single h => exact fun hback => .single (honly _ _ h hback)
      | tail hfirst h ih =>
        intro hback
        exact (ih (.head h hback)).tail (honly _ _ h (hback.trans hfirst.to_reflTransGen))
    exact not_circular hr hregistry ⟨handle, hall handle hcycle .refl⟩

/-! ## A schema that depends on itself -/

/-- A schema that applies itself to every object with a member `a`. -/
def selfDependent : Fragment :=
  ⟨.obj [("dependentSchemas", .obj [("a", (Marker.deferred 0).toJson)])], rfl⟩

def selfDependentRegistry : Registry := ⟨[⟨"loop", some selfDependent⟩]⟩

/-- The document for its evaluator, and for the evaluators of others. -/
def selfDependentDocument : Json :=
  .obj [("dependentSchemas", .obj [("a", EvaluationForm.reference 0)])]

def selfDependentResource : Resource := ⟨EvaluationForm.resourceUri 0, selfDependentDocument⟩

theorem findings_selfDependentDocument :
    Metaschema.evaluator.findings selfDependentDocument = [] := by
  have haccepted : Metaschema.Accepted 10 selfDependentDocument := by
    refine Metaschema.accepted_dependentSchemas (n := 5) (fun m hm => ?_)
    obtain rfl := List.mem_singleton.mp hm
    exact Metaschema.accepted_reference _
  exact Metaschema.findings_of_accepted haccepted (by decide)

theorem exists_ofRegistry_selfDependent :
    ∃ e, ofRegistry .standard selfDependentRegistry = .ok e := by
  obtain ⟨l, hbuild⟩ : ∃ l, Evaluator.build selfDependentDocument [selfDependentResource] =
      .ok ⟨l, Evaluator.defaultBase, _⟩ :=
    Evaluator.exists_build rfl findings_selfDependentDocument (by decide +kernel)
  have hentry := Planning.compile_of_build ⟨[true], [selfDependentResource]⟩ .standard
    selfDependent.document "loop#" (fun _ => rfl) (n := .plan Plan.empty) rfl hbuild
  refine ⟨_, ofRegistry_eq_ok_iff.mpr ⟨[some selfDependentResource],
    [some ⟨.plan Plan.empty, ⟨l, Evaluator.defaultBase, selfDependentDocument⟩,
      selfDependent.document⟩], rfl, ?_, rfl, rfl⟩⟩
  show (entryOf ⟨[true], [selfDependentResource]⟩ .standard ⟨"loop", some selfDependent⟩).bind _ = _
  unfold entryOf
  dsimp only
  rw [show entryPath ⟨"loop", some selfDependent⟩ = "loop#" from rfl, hentry]
  rfl

theorem ordered_selfDependentRegistry :
    ∀ handle g, selfDependentRegistry.get? handle = some g → g.document.Ordered := by
  intro handle g h
  cases handle with
  | succ n => cases h
  | zero =>
    cases h
    simp [selfDependent, Marker.toJson, Json.Ordered, Json.OrderedMembers, Json.ofNat,
      Fields.Ordered]

/-- It is accepted, and leads back to itself at the same place. -/
theorem exists_ofRegistry_and_circular : ∃ e,
    ofRegistry .standard selfDependentRegistry = .ok e ∧
      selfDependentRegistry.Circular ["dependentSchemas"] := by
  obtain ⟨e, h⟩ := exists_ofRegistry_selfDependent
  have hmarker : Marker.ofMembers? [(Marker.key, Json.ofNat 0)] = some (.ok (.deferred 0)) := rfl
  refine ⟨e, h, 0, .single ⟨selfDependent, rfl, .applied rfl ?_ (.marker hmarker)⟩⟩
  exact .named List.mem_cons_self List.mem_cons_self List.mem_cons_self

/-- Without the keyword it does not lead back. -/
theorem not_circular_iff_selfDependent : ∃ e,
    ofRegistry .standard selfDependentRegistry = .ok e ∧ ¬ selfDependentRegistry.Circular [] ∧
      (¬ selfDependentRegistry.Circular ["dependentSchemas"] ↔
        ∀ handle next, selfDependentRegistry.Leads ["dependentSchemas"] handle next →
          Relation.ReflTransGen (selfDependentRegistry.Leads ["dependentSchemas"]) next handle →
            selfDependentRegistry.Leads [] handle next) := by
  obtain ⟨e, h⟩ := exists_ofRegistry_selfDependent
  exact ⟨e, h, not_circular_iff h ordered_selfDependentRegistry⟩

end Engine

end HttpContract
