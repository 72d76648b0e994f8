import HttpContract.Proofs.Faithfulness

/-!
# Schemas whose markers can be replaced

Whether the markers in a document can be replaced, and by what, does not depend on its place
(`Rewrites.everywhere`). They can in every schema that can be planned, so long as its names are in
nobody's way (`Sound.exists_rewrites`).
-/

namespace HttpContract

namespace EvaluationForm

variable {defined : List Bool}

theorem alike_requireDefined_place (handle : Nat) (path path' : String) :
    Alike (fun _ _ => True) (requireDefined defined handle path)
      (requireDefined defined handle path') := by
  unfold requireDefined
  split
  · exact .ok trivial
  · exact .error _ _

-- the recursion is that of the replacement
mutual

/-- The place only matters for errors and for the handles that are listed. -/
theorem alike_rewrite_place : ∀ (d : Json) (path path' : String) (inPlace inPlace' : Bool),
    Alike (fun a b => a.1 = b.1) (rewrite defined d path inPlace)
      (rewrite defined d path' inPlace')
  | .obj members, path, path', inPlace, inPlace' => by
    rw [rewrite, rewrite]
    cases Marker.ofMembers? members with
    | none =>
      exact (alike_rewriteMembers_place members path path' inPlace inPlace').bind
        (fun _ _ hab => .ok (congrArg Json.obj hab))
    | some m =>
      cases m with
      | error err => exact .error _ _
      | ok marker =>
        cases marker with
        | inline f => exact alike_rewriteTarget_place members path path' inPlace inPlace'
        | deferred handle =>
          exact (alike_requireDefined_place handle path path').bind (fun _ _ _ => .ok rfl)
  | .arr items, path, path', inPlace, inPlace' => by
    rw [rewrite, rewrite]
    exact (alike_rewriteItems_place items path path' 0 inPlace inPlace').bind
      (fun _ _ hab => .ok (congrArg Json.arr hab))
  | .null, _, _, _, _ => .ok rfl
  | .bool _, _, _, _, _ => .ok rfl
  | .num _, _, _, _, _ => .ok rfl
  | .str _, _, _, _, _ => .ok rfl
termination_by structural d => d

theorem alike_rewriteTarget_place : ∀ (members : List (String × Json)) (path path' : String)
    (inPlace inPlace' : Bool),
    Alike (fun a b => a.1 = b.1) (rewriteTarget defined members path inPlace)
      (rewriteTarget defined members path' inPlace')
  | [], _, _, _, _ => .ok rfl
  | (_, inner) :: _, _, _, inPlace, inPlace' => alike_rewrite_place inner _ _ inPlace inPlace'
termination_by structural members => members

theorem alike_rewriteMembers_place : ∀ (members : List (String × Json)) (path path' : String)
    (inPlace inPlace' : Bool),
    Alike (fun a b => a.1 = b.1) (rewriteMembers defined members path inPlace)
      (rewriteMembers defined members path' inPlace')
  | [], _, _, _, _ => .ok rfl
  | (key, value) :: rest, path, path', inPlace, inPlace' => by
    have hrest := alike_rewriteMembers_place rest path path' inPlace inPlace'
    rw [rewriteMembers, rewriteMembers]
    split
    · exact hrest.bind (fun _ _ hab => .ok (congrArg (List.cons (key, value)) hab))
    · refine (alike_rewrite_place value _ _ _ _).bind (fun _ _ hxy => hrest.bind (fun _ _ hab =>
        .ok ?_))
      dsimp only
      rw [hxy, hab]
termination_by structural members => members

theorem alike_rewriteItems_place : ∀ (items : List Json) (path path' : String) (index : Nat)
    (inPlace inPlace' : Bool),
    Alike (fun a b => a.1 = b.1) (rewriteItems defined items path index inPlace)
      (rewriteItems defined items path' index inPlace')
  | [], _, _, _, _, _ => .ok rfl
  | item :: rest, path, path', index, inPlace, inPlace' => by
    rw [rewriteItems, rewriteItems]
    refine (alike_rewrite_place item _ _ inPlace inPlace').bind (fun _ _ hxy =>
      (alike_rewriteItems_place rest path path' (index + 1) inPlace inPlace').bind (fun _ _ hab =>
        .ok ?_))
    dsimp only
    rw [hxy, hab]
termination_by structural items => items

end

end EvaluationForm

namespace Rewrites

open EvaluationForm

variable {defined : List Bool}

/-- What a document is rewritten to somewhere it is rewritten to everywhere. -/
theorem everywhere {d document : Json} (h : Rewrites defined d document) (path : String)
    (inPlace : Bool) : ∃ applied, rewrite defined d path inPlace = .ok (document, applied) := by
  rcases h with ⟨path', inPlace', applied', h⟩
  have halike := @alike_rewrite_place defined d path' path inPlace' inPlace
  rw [h] at halike
  generalize rewrite defined d path inPlace = y at halike ⊢
  cases halike with
  | @ok _ b hab =>
    obtain rfl : document = b.1 := hab
    exact ⟨b.2, rfl⟩

/-! ## Replacing part by part -/

theorem of_isScalar {d : Json} (hobj : ∀ ms, d ≠ .obj ms) (harr : ∀ xs, d ≠ .arr xs) :
    Rewrites defined d d := by
  cases d with
  | obj ms => exact absurd rfl (hobj ms)
  | arr xs => exact absurd rfl (harr xs)
  | _ => exact ⟨"", false, [], rfl⟩

theorem of_deferred {ms : Fields Json} {handle : Nat}
    (hm : Marker.ofMembers? ms = some (.ok (.deferred handle)))
    (hdefined : Defined defined handle) :
    Rewrites defined (.obj ms) (EvaluationForm.reference handle) := by
  refine ⟨"", false, [], ?_⟩
  rw [rewrite, hm]
  dsimp only
  rw [requireDefined, if_pos hdefined]
  rfl

theorem of_inline {ms : Fields Json} {f : Fragment} {document : Json}
    (hm : Marker.ofMembers? ms = some (.ok (.inline f)))
    (h : Rewrites defined f.document document) : Rewrites defined (.obj ms) document := by
  obtain rfl := Planning.members_of_inline hm
  rcases h.everywhere (Json.Pointer.child "" Marker.key) false with ⟨applied, h⟩
  refine ⟨"", false, applied, ?_⟩
  rw [rewrite, hm]
  exact h

theorem of_members {ms documents : Fields Json} (hm : Marker.ofMembers? ms = none)
    (h : Planning.RewritesMembers defined ms documents) :
    Rewrites defined (.obj ms) (.obj documents) := by
  have hmembers : ∃ applied, rewriteMembers defined ms "" false = .ok (documents, applied) := by
    clear hm
    induction h with
    | nil => exact ⟨[], rfl⟩
    | @cons a b _ _ hab _ ih =>
      rcases a with ⟨k, v⟩
      rcases b with ⟨k', y⟩
      rcases ih with ⟨others, hothers⟩
      obtain ⟨rfl, hvalue⟩ : k = k' ∧ _ := hab
      rw [rewriteMembers, hothers]
      rcases hvalue with ⟨hdata, heq⟩ | ⟨hdata, hrewrites⟩
      · obtain rfl : y = v := heq
        exact ⟨others, by rw [if_pos (List.contains_iff_mem.mpr hdata)]; rfl⟩
      · rcases hrewrites.everywhere (Json.Pointer.child "" k)
          (false && inPlaceKeywords.contains k) with ⟨here, hhere⟩
        refine ⟨here ++ others, ?_⟩
        rw [if_neg (by simpa using hdata)]
        dsimp only
        rw [hhere]
        rfl
  rcases hmembers with ⟨applied, h⟩
  refine ⟨"", false, applied, ?_⟩
  rw [rewrite, hm]
  dsimp only
  rw [h]
  rfl

theorem of_items {xs documents : List Json} (h : List.Forall₂ (Rewrites defined) xs documents) :
    Rewrites defined (.arr xs) (.arr documents) := by
  have hitems : ∀ i, ∃ applied, rewriteItems defined xs "" i false = .ok (documents, applied) := by
    induction h with
    | nil => exact fun _ => ⟨[], rfl⟩
    | cons hxy _ ih =>
      intro i
      rcases ih (i + 1) with ⟨others, hothers⟩
      rcases hxy.everywhere (Json.Pointer.childIndex "" i) false with ⟨here, hhere⟩
      refine ⟨here ++ others, ?_⟩
      rw [rewriteItems, hhere]
      dsimp only
      rw [hothers]
      rfl
  rcases hitems 0 with ⟨applied, h⟩
  refine ⟨"", false, applied, ?_⟩
  rw [rewrite, h]
  rfl

end Rewrites

/-! ## Planned schemas -/

namespace Planning

open Evaluation

variable {o : Options} {r : Registry} {e : Engine} {defined : List Bool}

theorem mem_of_inline {members : Fields Json} {f : Fragment}
    (h : Marker.ofMembers? members = some (.ok (.inline f))) :
    (Marker.key, f.document) ∈ members := by
  rw [members_of_inline h]
  exact List.mem_cons_self

/-- In an object of schemas under names that are in nobody's way all markers can be replaced if they
can in the schemas. -/
theorem exists_rewrites_named {schemas : Fields Json} (hnames : NamesApart schemas)
    (h : ∀ m ∈ schemas, ∃ document, Rewrites defined m.2 document) :
    ∃ documents, Rewrites defined (.obj schemas) (.obj documents) := by
  have hno : Marker.ofMembers? schemas = none := by
    have hget : Fields.get? schemas Marker.key = none := by simpa [Fields.contains] using hnames.1
    simp [Marker.ofMembers?, hget]
  have hmembers : ∃ documents, RewritesMembers defined schemas documents := by
    refine exists_forall₂ (fun m hm => ?_)
    by_cases hdata : m.1 ∈ EvaluationForm.dataKeywords
    · exact ⟨m, rfl, Or.inl ⟨hdata, rfl⟩⟩
    · rcases h m hm with ⟨document, hdocument⟩
      exact ⟨(m.1, document), rfl, Or.inr ⟨hdata, hdocument⟩⟩
  rcases hmembers with ⟨documents, hdocuments⟩
  exact ⟨documents, .of_members hno hdocuments⟩

theorem exists_rewrites_texts {xs : List Json} (hxs : ∀ x ∈ xs, ∃ s, x = .str s) :
    ∃ document, Rewrites defined (.arr xs) document := by
  have hitems : ∃ documents, List.Forall₂ (Rewrites defined) xs documents := by
    refine exists_forall₂ (fun x hx => ?_)
    rcases hxs x hx with ⟨s, rfl⟩
    exact ⟨.str s, .of_isScalar (by simp) (by simp)⟩
  rcases hitems with ⟨documents, hdocuments⟩
  exact ⟨_, .of_items hdocuments⟩

section

variable {members documents : Fields Json} {p : Plan Node}
  (h : Sound e (.obj members) (.plan p) (.obj documents))
  (hschemas : ∀ s, Planned members s → ∃ document, Rewrites e.context.defined s document)

include h hschemas

/-- The markers under a keyword can be replaced if they can in the schemas that plans follow. -/
theorem Sound.exists_rewrites_keyword {k : String} {v : Json} (hm : (k, v) ∈ members)
    (hk : k ∉ EvaluationForm.dataKeywords) : ∃ document, Rewrites e.context.defined v document := by
  rcases exists_of_forall₂ (forall₂_of_plansKeywords (plansKeywords_of_plans h.plans)) hm with
    ⟨⟨k', y⟩, hy, heq, _, _, hplans⟩
  obtain rfl : k = k' := heq
  have hnamed : k ∈ ["properties", "patternProperties"] → ∀ schemas, v = .obj schemas →
      ∃ document, Rewrites e.context.defined v document := by
    rintro hk schemas rfl
    have hget := Fields.get?_of_mem h.ordered.1 hm
    have hentries : entriesOf members k = schemas := by
      unfold entriesOf
      rw [hget]
      rfl
    rcases exists_rewrites_named (hentries ▸ h.regular.names hk) (fun m hmem => hschemas m.2
      (planned_of_entry (List.mem_pair.mpr (List.mem_pair.mp hk).symm) (hentries.symm ▸ hmem)))
      with ⟨documents, hdocuments⟩
    exact ⟨_, hdocuments⟩
  have hlisted : k ∈ ["allOf", "prefixItems"] → ∀ xs, v = .arr xs →
      ∃ document, Rewrites e.context.defined v document := by
    rintro hk xs rfl
    rcases exists_forall₂ (fun x hx => hschemas x (.listed hk hm hx)) with ⟨documents, hdocuments⟩
    exact ⟨_, .of_items hdocuments⟩
  have hscalar : ∀ b, v = .bool b → ∃ document, Rewrites e.context.defined v document := by
    rintro b rfl
    exact ⟨_, .of_isScalar (by simp) (by simp)⟩
  generalize hρ : role k = ρ at hplans
  cases hplans with
  | @types v p ts hts =>
    cases v with
    | str s => exact ⟨_, .of_isScalar (by simp) (by simp)⟩
    | arr xs => exact exists_rewrites_texts (texts_of_types? hts)
    | _ => cases hts
  | default => exact absurd (eq_of_role hρ rfl ▸ by decide) hk
  | required =>
    obtain rfl := eq_of_role hρ rfl
    rcases h.required hm with ⟨names, rfl, hnames⟩
    exact exists_rewrites_texts hnames
  | properties _ => exact hnamed (by simp [eq_of_role hρ rfl]) _ rfl
  | patterns _ => exact hnamed (by simp [eq_of_role hρ rfl]) _ rfl
  | allowed => exact hscalar _ rfl
  | forbidden => exact hscalar _ rfl
  | additional _ _ => exact hschemas v (.single (by simp [eq_of_role hρ rfl]) hm)
  | items _ _ => exact hschemas v (.single (by simp [eq_of_role hρ rfl]) hm)
  | itemList _ => exact absurd (eq_of_role hρ rfl ▸ hy) (h.verified.not_itemList _)
  | leading _ => exact hlisted (by simp [eq_of_role hρ rfl]) _ rfl
  | branches _ => exact hlisted (by simp [eq_of_role hρ rfl]) _ rfl
  | data =>
    unfold role at hρ
    split at hρ
    all_goals try cases hρ
    split at hρ
    · next hdata => exact absurd (List.contains_iff_mem.mp hdata) hk
    · cases hρ
  | other hrewrite => exact ⟨_, _, _, _, hrewrite⟩

end

/-- The markers in a schema that can be planned can be replaced. -/
theorem Sound.exists_rewrites (hr : Engine.ofRegistry o r = .ok e) {t document : Json} {n : Node}
    (h : Sound e t n document) : ∃ t', Rewrites e.context.defined t t' := by
  generalize hdepth : t.depth = k
  induction k using Nat.strongRecOn generalizing t document n with
  | _ k ih =>
    subst hdepth
    cases t with
    | obj members =>
      cases h.plans with
      | deferred hm hdefined => exact ⟨_, .of_deferred hm hdefined⟩
      | inline hm _ _ =>
        rcases h.inline hr hm with ⟨n', document', hsound, -⟩
        have hlt := Json.depth_lt_of_mem_obj (mem_of_inline hm)
        rcases ih _ hlt hsound rfl with ⟨t', ht'⟩
        exact ⟨t', .of_inline hm ht'⟩
      | keywords hm _ =>
        have hschemas : ∀ s, Planned members s →
            ∃ document, Rewrites e.context.defined s document := by
          intro s hs
          rcases h.planned hs with ⟨n', document', hsound⟩
          exact ih _ hs.depth_lt hsound rfl
        have hmembers : ∃ documents, RewritesMembers e.context.defined members documents := by
          refine exists_forall₂ (fun m hmem => ?_)
          by_cases hdata : m.1 ∈ EvaluationForm.dataKeywords
          · exact ⟨m, rfl, Or.inl ⟨hdata, rfl⟩⟩
          · rcases h.exists_rewrites_keyword hschemas hmem hdata with ⟨document, hdocument⟩
            exact ⟨(m.1, document), rfl, Or.inr ⟨hdata, hdocument⟩⟩
        rcases hmembers with ⟨documents, hdocuments⟩
        exact ⟨_, .of_members hm hdocuments⟩
    | bool b => exact ⟨_, .of_isScalar (by simp) (by simp)⟩
    | _ => cases h.plans

end Planning

end HttpContract
