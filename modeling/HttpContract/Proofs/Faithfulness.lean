import Mathlib.Data.Fintype.EquivFin
import Mathlib.Order.WellFounded
import HttpContract.Proofs.Rewriting
import HttpContract.Proofs.Verdicts

/-!
# Rewritten schemas hold of what schemas approve of

A schema approves of a value if the evaluator that reads its markers as `true` accepts it and all
references on its plan are satisfied. The document that rewriting makes of the schema has references
in the places of the markers and is judged by evaluation alone. For regular schemas the two come to
the same (`approves_iff_holds`), by induction on the levels of the value and, at one level, along
the references, which never lead back to where they come from.
-/

namespace HttpContract

namespace Evaluation

open Library

variable {R : List Resource}

/-! ## References never go on for ever -/

/-- At one place of the value a chain of schemas comes to an end. -/
theorem Acyclic.acc_leads (hR : Acyclic R) (d : Json) : Acc (fun b a => Leads R a b) d := by
  -- a chain goes down in one document until it comes to the next resource
  have hdown : ∀ (n : Nat) (d : Json), d.depth = n →
      (∀ r ∈ R, Relation.TransGen (Leads R) d r.contents →
        Acc (fun b a => Leads R a b) r.contents) → Acc (fun b a => Leads R a b) d := by
    intro n
    induction n using Nat.strongRecOn with
    | _ n ih =>
      rintro d rfl hresources
      refine ⟨_, fun b hb => ?_⟩
      cases hb with
      | applied happlied =>
        exact ih _ happlied.depth_lt _ rfl
          (fun r hr hchain => hresources r hr (.head (.applied happlied) hchain))
      | reference hdocument =>
        rcases exists_resource_of_documentOf hdocument with ⟨r, hr, rfl⟩
        exact hresources r hr (.single (.reference hdocument))
  -- there are only so many resources, and none leads back to itself
  have hwf : WellFounded (fun a b : {r // r ∈ R} =>
      Relation.TransGen (Leads R) b.1.contents a.1.contents) :=
    have : IsTrans {r // r ∈ R} (fun a b =>
      Relation.TransGen (Leads R) b.1.contents a.1.contents) :=
      ⟨fun _ _ _ hab hbc => hbc.trans hab⟩
    have : Std.Irrefl (fun a b : {r // r ∈ R} =>
      Relation.TransGen (Leads R) b.1.contents a.1.contents) := ⟨fun a h => hR a.1 a.2 h⟩
    Finite.wellFounded_of_trans_of_irrefl _
  have hresource : ∀ r : {r // r ∈ R}, Acc (fun b a => Leads R a b) r.1.contents := by
    intro r
    induction r using hwf.induction with
    | _ r ih => exact hdown _ _ rfl (fun r' hr' hchain => ih ⟨r', hr'⟩ hchain)
  exact hdown _ d rfl (fun r hr _ => hresource ⟨r, hr⟩)

/-- A reference holds of what the document of its handle holds of. -/
theorem holds_reference_iff (hR : Grounded R) {handle : Nat} {d v : Json}
    (hdocument : documentOf R handle = some d) (hd : followsSpecification d = true) :
    Holds R (EvaluationForm.reference handle) v ↔ Holds R d v := by
  have hclosed : Closed d := by
    rcases exists_resource_of_documentOf hdocument with ⟨r, hr, rfl⟩
    exact hR.closed r hr
  -- no document refers to its own handle only
  have hne : d ≠ EvaluationForm.reference handle := by
    rintro rfl
    exact hR.acyclic.not_leads _ (.single (.reference hdocument))
  have hlookup := lookup_resourceUri (libraryOf R) origin.scope handle
  rw [(offers_libraryOf R).document, hdocument] at hlookup
  have htarget : ∃ q : Place, q.scope.known = true ∧ target? (libraryOf R) origin
      [("$ref", .str (EvaluationForm.resourceUri handle))] "$ref"
      (.str (EvaluationForm.resourceUri handle)) = some (q, d) := by
    refine ⟨{ origin.keyword "$ref" with
      scope := { origin.scope.enter (EvaluationForm.resourceUri handle) with
        known := followsSpecification d } }, hd, ?_⟩
    unfold target?
    dsimp only
    rw [hlookup]
    exact if_neg hne
  rcases htarget with ⟨q, hq, htarget⟩
  have hwithin : origin.scope.within (EvaluationForm.reference handle) = origin.scope :=
    within_of_keywordText?_none rfl
  rw [Holds, EvaluationForm.reference,
    (limit_obj (offers_libraryOf R) hR (.reference handle) origin v).1, List.isEmpty_iff]
  unfold findings
  dsimp only
  rw [show Json.obj [("$ref", .str (EvaluationForm.resourceUri handle))] =
    EvaluationForm.reference handle from rfl, hwithin, List.flatMap_cons, List.flatMap_nil,
    List.append_nil]
  show reference (libraryOf R) (limit (libraryOf R)) origin _ "$ref" _ v = [] ↔ _
  unfold reference
  rw [htarget]
  exact judge_eq_nil_iff hR hclosed hq

end Evaluation

namespace Engine

open Evaluation

variable {o : Options} {r : Registry} {e : Engine}

/-- The document of a defined handle is what its schema is rewritten to. -/
theorem exists_documentOf (hr : ofRegistry o r = .ok e) {handle : Nat} {g : Fragment}
    (hg : r.get? handle = some g) : ∃ d, documentOf e.context.resources handle = some d ∧
      Rewrites e.context.defined g.document d := by
  -- some resource has the identifier of the handle
  have hfound : ∃ x ∈ e.context.resources, x.uri = EvaluationForm.resourceUri handle := by
    rcases ofRegistry_eq_ok_iff.mp hr with ⟨resources, entries, hresources, -, -, rfl⟩
    unfold Registry.get? at hg
    rcases Option.bind_eq_some_iff.mp hg with ⟨entry, hentry, hschema⟩
    have hmem : (handle, entry) ∈ numbered r := by
      refine List.mem_iff_getElem?.mpr ⟨handle, List.getElem?_zip_eq_some.mpr ⟨?_, hentry⟩⟩
      exact List.getElem?_range (List.getElem?_eq_some_iff.mp hentry).1
    rcases exists_of_forall₂ (forall₂_of_mapM hresources) hmem with ⟨y, hy, h⟩
    unfold resourceOf at h
    dsimp only at h
    rw [hschema] at h
    rcases bind_eq_ok h with ⟨z, -, h⟩
    cases h
    exact ⟨_, by simpa using hy, rfl⟩
  unfold documentOf
  cases hfind : e.context.resources.reverse.find?
      (fun x => x.uri == EvaluationForm.resourceUri handle) with
  | none =>
    rcases hfound with ⟨x, hx, huri⟩
    have hno := List.find?_eq_none.mp hfind x (List.mem_reverse.mpr hx)
    simp [huri] at hno
  | some x =>
    rcases exists_handle_of_resource hr (List.mem_reverse.mp (List.mem_of_find?_eq_some hfind)) with
      ⟨i, f, hf, huri, hrewrites⟩
    have heq : EvaluationForm.resourceUri i = EvaluationForm.resourceUri handle :=
      huri.symm.trans (by simpa using List.find?_some hfind)
    obtain rfl := EvaluationForm.resourceUri_inj heq
    obtain rfl := Option.some.inj (hf.symm.trans hg)
    exact ⟨x.contents, rfl, hrewrites⟩

end Engine

namespace Planning

open Evaluation Normalization EvaluationForm

variable {o : Options} {r : Registry} {e : Engine}

/-! ## Sound schemas -/

/-- A proper schema with which the schema of schemas finds no fault, and in which no names are taken
for keywords. -/
structure Sound (e : Engine) (d : Json) (n : Node) (document : Json) : Prop
    extends Proper e d n document where
  conforms : Metaschema.Conforms document
  regular : Regular d

namespace Sound
variable {members documents : Fields Json} {p : Plan Node} {s : Json}

section
variable (h : Sound e (.obj members) (.plan p) (.obj documents))
include h

/-- The schemas that plans follow are planned along with the schema. -/
theorem related :
    Related (fun t document => ∃ n, Sound e t n document) members documents := by
  refine h.follows.2.imp_of_planned ?_
  rintro t document ht hdocument ⟨n, hplans⟩
  rcases exists_slot_of_planned ht with ⟨slot, hslot⟩
  rcases h.toProper.inside hslot with ⟨n', document', hproper⟩
  obtain rfl := (plans_unique (e := e) hproper.plans hplans).1
  exact ⟨n', hproper, h.conforms.planned h.free.ordered hdocument,
    h.regular.inside (inside_of_mem slot hslot)⟩

theorem planned (hs : Planned members s) : ∃ n document, Sound e s n document := by
  rcases h.related.exists_of_planned h.ordered.1 hs with ⟨document, -, n, hsound⟩
  exact ⟨n, document, hsound⟩

end

/-- What a marker names is planned along with the marker. -/
theorem target (hr : Engine.ofRegistry o r = .ok e) {x document : Json} {m : Marker} {t : Fragment}
    {n : Node} (hx : Marker.read? x = some (.ok m)) (hm : Names r m t) (h : Sound e x n document)
    (ht : t.document.Ordered ∧ Unreferenced t.document ∧ Regular t.document) :
    ∃ n' document', Sound e t.document n' document' ∧
      Library.followsSpecification document' = true := by
  rcases exists_compiled_of_marker hr hx hm h.plans with ⟨-, s, hs, inner, hplans, hbuild⟩
  have hspecification := h.specified n s .here hs
  rcases verified_of_build hbuild hspecification with ⟨hroot, hverified⟩
  exact ⟨s.root, inner, ⟨⟨ht.1, ht.2.1, hplans, hverified,
    h.specified.of_reaches (.reference .here hs)⟩, Metaschema.conforms_of_build hbuild, ht.2.2⟩,
    hroot ▸ hspecification⟩

theorem inline (hr : Engine.ofRegistry o r = .ok e) {members : Fields Json} {document : Json}
    {f : Fragment} {n : Node} (hm : Marker.ofMembers? members = some (.ok (.inline f)))
    (h : Sound e (.obj members) n document) : ∃ n' document', Sound e f.document n' document' ∧
      Library.followsSpecification document' = true := by
  obtain rfl := members_of_inline hm
  have hinside : Inside (.obj [(Marker.key, f.document)]) f.document := ⟨.target, rfl⟩
  have hread : Marker.read? (.obj [(Marker.key, f.document)]) = some (.ok (.inline f)) := hm
  exact h.target hr hread rfl ⟨ordered_of_inside hinside h.ordered,
    h.unreferenced.inner (Or.inr List.mem_cons_self), h.regular.inside hinside⟩

end Sound

/-! ## Keywords beside, and schemas inside -/

section

variable {members documents documents' : Fields Json} {p : Plan Node}

/-- Names under `required` are texts where the schema of schemas finds no fault. -/
theorem Sound.required (h : Sound e (.obj members) (.plan p) (.obj documents)) {v : Json}
    (hv : ("required", v) ∈ members) : ∃ names, v = .arr names ∧ ∀ y ∈ names, ∃ s, y = .str s := by
  rcases exists_of_forall₂ (forall₂_of_plansKeywords (plansKeywords_of_plans h.plans)) hv with
    ⟨⟨k, y⟩, hy, heq, _, _, hplans⟩
  obtain rfl : "required" = k := heq
  cases hplans
  exact h.conforms.required (Fields.get?_of_mem h.free.ordered hy)

variable (h : Sound e (.obj members) (.plan p) (.obj documents))
  (hrewrites : Rewrites e.context.defined (.obj members) (.obj documents'))

include h hrewrites

theorem Sound.rewritesMembers : RewritesMembers e.context.defined members documents' := by
  have hmarker : Marker.ofMembers? members = none := by
    cases h.plans with
    | keywords hm _ => exact hm
  rcases hrewrites.obj with ⟨handle, hm, -⟩ | ⟨f, hm, -⟩ | ⟨-, _, heq, hmembers⟩
  · simp [hmarker] at hm
  · simp [hmarker] at hm
  · cases heq
    exact hmembers

theorem Sound.beside_eq : beside documents = beside documents' :=
  beside_eq_of_rewrites (plansKeywords_of_plans h.plans) (fun _ hv => h.required hv)
    (h.rewritesMembers hrewrites)

theorem Sound.related_rewritten : Related (fun t document => (∃ n y, Sound e t n y) ∧
    Rewrites e.context.defined t document) members documents' :=
  (related_of_rewrites (h.rewritesMembers hrewrites) h.regular).imp_of_planned
    (fun _ _ ht _ hdocument => ⟨h.planned ht, hdocument⟩)

theorem Sound.free_rewritten : Free documents' :=
  free_of_keys_eq h.ordered h.unreferenced (keys_eq_of_forall₂ (R := fun _ _ => True)
      ((h.rewritesMembers hrewrites).imp (fun _ _ hab => ⟨hab.1, trivial⟩)))
    (related_of_rewrites (h.rewritesMembers hrewrites) h.regular).properties
    (hrewrites.closed h.unreferenced)

end

/-! ## One level of the value -/

/-- What is rewritten to the document approves of the value exactly if the document holds. -/
def Faithful (e : Engine) (t' v : Json) : Prop :=
  ∀ t n document, Sound e t n document → Rewrites e.context.defined t t' →
    (Approves e t v ↔ Holds e.context.resources t' v) ∧
      (Apparent t → Approves e t v → SeeAlike e.context.resources document t' v)

section

variable {members documents documents' : Fields Json} {p : Plan Node} {v : Json}
  (h : Sound e (.obj members) (.plan p) (.obj documents))
  (hrewrites : Rewrites e.context.defined (.obj members) (.obj documents')) (hv : v.Ordered)
  (hhere : ∀ s, Leads e.context.resources (.obj documents') s → Faithful e s v)
  (hparts : ∀ s x, x.Ordered → x.depth < v.depth → Faithful e s x)

include h hrewrites hv hhere hparts

theorem Sound.parts_iff : Parts (Approves e) members v ↔
    Parts (Holds e.context.resources) documents' v := by
  have hrelated := h.related_rewritten hrewrites
  have hleads : ∀ s ∈ itemsOf documents' "allOf",
      Leads e.context.resources (.obj documents') s := by
    intro s hs
    rcases exists_of_mem_itemsOf hs with ⟨xs, hxs, hs⟩
    exact .applied (.listed (by decide) hxs hs)
  constructor
  · refine hrelated.parts_of_depth hv ?_ ?_
    · rintro t s - hs ⟨⟨n, document, hsound⟩, hrewrites⟩
      exact ((hhere s (hleads s hs)) t n document hsound hrewrites).1.mp
    · rintro t s x hx hlt ⟨⟨n, document, hsound⟩, hrewrites⟩
      exact (hparts s x hx hlt t n document hsound hrewrites).1.mp
  · refine hrelated.symm.parts_of_depth hv ?_ ?_
    · rintro s t hs - ⟨⟨n, document, hsound⟩, hrewrites⟩
      exact ((hhere s (hleads s hs)) t n document hsound hrewrites).1.mpr
    · rintro s t x hx hlt ⟨⟨n, document, hsound⟩, hrewrites⟩
      exact (hparts s x hx hlt t n document hsound hrewrites).1.mpr

/-- If no branch is a marker, the two documents have looked at the same. -/
theorem Sound.seeAlike (hR : Grounded e.context.resources)
    (happarent : ∀ s ∈ itemsOf members "allOf", Apparent s)
    (happroved : Parts (Approves e) members v) :
    SeeAlike e.context.resources (.obj documents) (.obj documents') v := by
  have hrelated := h.related.of_common (h.related_rewritten hrewrites)
  refine hrelated.seeAlike hR h.free (h.free_rewritten hrewrites) (h.beside_eq hrewrites)
    (h.parts_holds hv happroved)
    ((h.parts_iff hrewrites hv hhere hparts).mp happroved) ?_
  refine forall₂_imp_of_mem (forall₂_of_common h.related.branches
    (h.related_rewritten hrewrites).branches) ?_
  rintro y y' - hy' ⟨t, ht, ⟨n, hsound⟩, -, hrewrites'⟩
  rcases exists_of_mem_itemsOf hy' with ⟨xs, hxs, hmem⟩
  exact ((hhere y' (.applied (.listed (by decide) hxs hmem))) t n y hsound hrewrites').2
    (happarent t ht) (happroved.branches t ht)

theorem Sound.faithful_obj (hR : Grounded e.context.resources) :
    (Approves e (.obj members) v ↔ Holds e.context.resources (.obj documents') v) ∧
      (Apparent (.obj members) → Approves e (.obj members) v →
        SeeAlike e.context.resources (.obj documents) (.obj documents') v) := by
  have hbeside := h.beside_eq hrewrites
  have hparts_iff := h.parts_iff hrewrites hv hhere hparts
  have hown : Own e.context.resources documents v ↔ Own e.context.resources documents' v := by
    unfold Own
    rw [hbeside]
  have hcovered : Parts (Approves e) members v →
      (Covered e.context.resources documents v ↔ Covered e.context.resources documents' v) := by
    intro happroved
    by_cases hasks : ∃ k ∈ unevaluatedKeywords, Fields.contains members k = true
    · rcases hasks with ⟨k, hk, hcontains⟩
      have hsee :=
        h.seeAlike hrewrites hv hhere hparts hR (h.regular.branches hk hcontains) happroved
      exact ⟨Covered.congr hbeside hsee, Covered.congr hbeside.symm hsee.symm⟩
    · -- no schema asks for what is left over
      have hunasked : ∀ k ∈ unevaluatedKeywords, Fields.contains members k = false :=
        fun k hk => by simpa using fun hcontains => hasks ⟨k, hk, hcontains⟩
      have hkeys := keys_of_plansKeywords (plansKeywords_of_plans h.plans)
      refine iff_of_true (covered_of_unseen fun k hk => ?_) (covered_of_unseen fun k hk => ?_)
      · rw [← hunasked k hk, Bool.eq_iff_iff, Fields.contains_iff_mem_keys, hkeys,
          Fields.contains_iff_mem_keys]
      · rw [contains_of_rewritten (h.rewritesMembers hrewrites)]
        exact hunasked k hk
  refine ⟨?_, fun happarent happroved => ?_⟩
  · rw [h.toProper.approves_iff hR hv, holds_obj_iff hR (h.free_rewritten hrewrites) hv, hown,
      ← hparts_iff]
    exact and_congr_right (fun _ => and_congr_right hcovered)
  · refine h.seeAlike hrewrites hv hhere hparts hR ?_
      ((h.toProper.approves_iff hR hv).mp happroved).2.1
    cases happarent with
    | obj _ hbranches => exact hbranches

end

/-! ## All levels -/

theorem Apparent.ofMembers?_eq_none {members : Fields Json} (h : Apparent (.obj members)) :
    Marker.ofMembers? members = none := by
  cases h with
  | obj hm _ => exact hm

/-- Documents that schemas are rewritten to follow the specification if those of the schemas do. -/
theorem Sound.followsSpecification_rewritten (hr : Engine.ofRegistry o r = .ok e)
    {t document t' : Json} {n : Node} (h : Sound e t n document)
    (hspecification : Library.followsSpecification document = true)
    (hrewrites : Rewrites e.context.defined t t') : Library.followsSpecification t' = true := by
  generalize hdepth : t.depth = k
  induction k using Nat.strongRecOn generalizing t document n with
  | _ k ih =>
    subst hdepth
    cases t with
    | obj members =>
      rcases hrewrites.obj with ⟨handle, -, rfl⟩ | ⟨f, hm, hf⟩ | ⟨hm, documents', rfl, -⟩
      · rfl
      · rcases h.inline hr hm with ⟨n', document', hsound, hspecification'⟩
        obtain rfl := members_of_inline hm
        exact ih _ (Json.depth_lt_of_mem_obj List.mem_cons_self) hsound hspecification' hf rfl
      · cases h.plans with
        | deferred hm' _ => simp [hm] at hm'
        | inline hm' _ _ => simp [hm] at hm'
        | @keywords _ documents p _ _ =>
          have hget : Fields.get? documents' "$schema" = Fields.get? documents "$schema" := by
            rw [← get?_beside_of_not_mem (by decide), ← h.beside_eq hrewrites,
              get?_beside_of_not_mem (by decide)]
          have htext : Library.keywordText? (.obj documents') "$schema" =
              Library.keywordText? (.obj documents) "$schema" :=
            congrArg (·.bind Json.text?) hget
          unfold Library.followsSpecification at hspecification ⊢
          rw [htext]
          exact hspecification
    | arr xs => cases h.plans
    | bool b =>
      rw [hrewrites.scalar (by simp) (by simp)]
      rfl
    | _ => cases h.plans

/-- Registered schemas that refer to nothing but by markers, and in which no names are taken for
keywords. -/
def Regulated (r : Registry) : Prop :=
  ∀ handle g, r.get? handle = some g →
    g.document.Ordered ∧ Unreferenced g.document ∧ Regular g.document

section

variable (hr : Engine.ofRegistry o r = .ok e) (hR : Grounded e.context.resources)
  (hregistry : Regulated r)

include hr hR hregistry

/-- What holds at the next step along references and at the levels below holds here. -/
theorem faithful_of_next {t' v : Json} (hv : v.Ordered)
    (hhere : ∀ s, Leads e.context.resources t' s → Faithful e s v)
    (hparts : ∀ s x, x.Ordered → x.depth < v.depth → Faithful e s x) : Faithful e t' v := by
  intro t
  -- markers that carry schemas lie between a schema and what it is rewritten to
  generalize hdepth : t.depth = k
  induction k using Nat.strongRecOn generalizing t with
  | _ k ih =>
    subst hdepth
    intro n document h hrewrites
    cases t with
    | obj members =>
      rcases hrewrites.obj with ⟨handle, hm, rfl⟩ | ⟨f, hm, hf⟩ | ⟨hm, documents', rfl, -⟩
      · refine ⟨?_, fun happarent => absurd happarent.ofMembers?_eq_none (by simp [hm])⟩
        obtain ⟨g, hg⟩ : ∃ g, r.get? handle = some g := by
          cases h.plans with
          | deferred hm' hdefined =>
            obtain ⟨⟩ : Marker.deferred _ = .deferred _ := by simpa using hm.symm.trans hm'
            exact Engine.get?_of_defined hr hdefined
          | inline hm' _ _ => simp [hm] at hm'
          | keywords hm' _ => simp [hm] at hm'
        have hread : Marker.read? (.obj members) = some (.ok (.deferred handle)) := hm
        rcases h.target hr hread hg (hregistry handle g hg) with
          ⟨n', document', hsound, hspecification⟩
        rcases Engine.exists_documentOf hr hg with ⟨d, hd, hrewrites'⟩
        rw [approves_marker_iff hr hR hread hg h.toProper hsound.toProper,
          holds_reference_iff hR hd
            (hsound.followsSpecification_rewritten hr hspecification hrewrites')]
        exact (hhere d (.reference hd) g.document n' document' hsound hrewrites').1
      · refine ⟨?_, fun happarent => absurd happarent.ofMembers?_eq_none (by simp [hm])⟩
        rcases h.inline hr hm with ⟨n', document', hsound, -⟩
        have hread : Marker.read? (.obj members) = some (.ok (.inline f)) := hm
        rw [approves_marker_iff hr hR hread rfl h.toProper hsound.toProper]
        obtain rfl := members_of_inline hm
        exact (ih _ (Json.depth_lt_of_mem_obj List.mem_cons_self) f.document rfl n' document' hsound
          hf).1
      · cases h.plans with
        | deferred hm' _ => simp [hm] at hm'
        | inline hm' _ _ => simp [hm] at hm'
        | keywords _ _ => exact h.faithful_obj hrewrites hv hhere hparts hR
    | bool b =>
      obtain rfl := hrewrites.scalar (by simp) (by simp)
      cases h.plans with
      | always =>
        refine ⟨?_, fun _ _ => .refl _ _⟩
        rw [approves_iff h.plans]
        exact and_iff_left (satisfied_empty v)
    | _ => cases h.plans

theorem faithful {v : Json} (hv : v.Ordered) : ∀ t', Faithful e t' v := by
  generalize hdepth : v.depth = k
  induction k using Nat.strongRecOn generalizing v with
  | _ k ih =>
    subst hdepth
    intro t'
    induction hR.acyclic.acc_leads t' with
    | intro t' _ ihere =>
      exact faithful_of_next hr hR hregistry hv ihere (fun s x hx hlt => ih _ hlt hx rfl s)

/-- A schema approves of the values that hold of what it is rewritten to. -/
theorem approves_iff_holds {t document t' v : Json} {n : Node} (h : Sound e t n document)
    (hrewrites : Rewrites e.context.defined t t') (hv : v.Ordered) :
    Approves e t v ↔ Holds e.context.resources t' v :=
  (faithful hr hR hregistry hv t' t n document h hrewrites).1

end

end Planning

end HttpContract
