import HttpContract.Proofs.Sufficiency

/-!
# Schemas without references of their own

What planning and rewriting make of a schema that identifies nothing and refers to nothing but by
markers is a document whose only references are those to handles.
-/

namespace HttpContract

open Library (listKeywords mapKeywords schemaKeywords)
open Evaluation (Inner)

/-! ## References to some handles -/

/-- Wherever evaluation and libraries look, schemas identify nothing, and the only references are
those to handles with a property. -/
inductive Settled (P : Nat → Prop) : Json → Prop where
  | reference {handle : Nat} (h : P handle) : Settled P (EvaluationForm.reference handle)
  | schema {members : Fields Json} (hkeys : ∀ k ∈ referring, Fields.contains members k = false)
      (hinner : ∀ s, Inner members s → Settled P s) : Settled P (.obj members)
  | data {d : Json} (hd : ∀ members, d ≠ .obj members) : Settled P d

theorem Settled.closed {P : Nat → Prop} {d : Json} (h : Settled P d) : Closed d := by
  induction h with
  | reference _ => exact .reference _
  | schema hkeys _ ih => exact .schema hkeys ih
  | data hd => exact .data hd

theorem Settled.inner {P : Nat → Prop} {members : Fields Json} {s : Json}
    (h : Settled P (.obj members)) (hs : Inner members s) : Settled P s := by
  generalize hd : Json.obj members = d at h
  cases h with
  | reference _ =>
    cases hd
    exact absurd hs (not_under_reference (by decide))
  | schema _ hinner =>
    cases hd
    exact hinner s hs
  | data hno => exact absurd hd.symm (hno members)

/-! ## Rewriting as a relation -/

/-- What the markers in a document are replaced by, at any place. -/
def Rewrites (defined : List Bool) (d document : Json) : Prop :=
  ∃ path inPlace applied, EvaluationForm.rewrite defined d path inPlace = .ok (document, applied)

namespace Rewrites

variable {defined : List Bool}

theorem items : ∀ {xs documents : List Json} {path : String} {i : Nat} {inPlace : Bool}
    {applied : List Nat},
    EvaluationForm.rewriteItems defined xs path i inPlace = .ok (documents, applied) →
      List.Forall₂ (Rewrites defined) xs documents
  | [], _, _, _, _, _, h => by
    cases h
    exact .nil
  | x :: rest, _, _, _, _, _, h => by
    rw [EvaluationForm.rewriteItems] at h
    rcases bind_eq_ok h with ⟨y, hy, h⟩
    rcases bind_eq_ok h with ⟨others, hothers, h⟩
    cases h
    exact .cons ⟨_, _, _, hy⟩ (items hothers)

theorem members : ∀ {ms documents : Fields Json} {path : String} {inPlace : Bool}
    {applied : List Nat},
    EvaluationForm.rewriteMembers defined ms path inPlace = .ok (documents, applied) →
      List.Forall₂ (fun a b => a.1 = b.1 ∧
        (a.1 ∈ EvaluationForm.dataKeywords ∧ b.2 = a.2 ∨
          a.1 ∉ EvaluationForm.dataKeywords ∧ Rewrites defined a.2 b.2)) ms documents
  | [], _, _, _, _, h => by
    cases h
    exact .nil
  | (k, v) :: rest, _, _, _, _, h => by
    rw [EvaluationForm.rewriteMembers] at h
    split at h
    · next hdata =>
      rcases bind_eq_ok h with ⟨others, hothers, h⟩
      cases h
      exact .cons ⟨rfl, Or.inl ⟨List.contains_iff_mem.mp hdata, rfl⟩⟩ (members hothers)
    · next hdata =>
      rcases bind_eq_ok h with ⟨y, hy, h⟩
      rcases bind_eq_ok h with ⟨others, hothers, h⟩
      cases h
      exact .cons ⟨rfl, Or.inr ⟨fun hmem => hdata (List.contains_iff_mem.mpr hmem), _, _, _, hy⟩⟩
        (members hothers)

/-- The ways an object is rewritten: as a marker for a handle, as a marker that carries a schema,
or member by member. -/
theorem obj {ms : Fields Json} {document : Json} (h : Rewrites defined (.obj ms) document) :
    (∃ handle, Marker.ofMembers? ms = some (.ok (.deferred handle)) ∧
        document = EvaluationForm.reference handle) ∨
      (∃ f, Marker.ofMembers? ms = some (.ok (.inline f)) ∧ Rewrites defined f.document document) ∨
      Marker.ofMembers? ms = none ∧ ∃ documents, document = .obj documents ∧
        List.Forall₂ (fun a b => a.1 = b.1 ∧
          (a.1 ∈ EvaluationForm.dataKeywords ∧ b.2 = a.2 ∨
            a.1 ∉ EvaluationForm.dataKeywords ∧ Rewrites defined a.2 b.2)) ms documents := by
  rcases h with ⟨path, inPlace, applied, h⟩
  rw [EvaluationForm.rewrite] at h
  split at h
  · cases h
  · next handle hm =>
    rcases bind_eq_ok h with ⟨_, -, h⟩
    cases h
    exact Or.inl ⟨handle, hm, rfl⟩
  · next f hm =>
    obtain rfl := Planning.members_of_inline hm
    exact Or.inr (Or.inl ⟨f, hm, _, _, _, h⟩)
  · next hm =>
    rcases bind_eq_ok h with ⟨x, hx, h⟩
    cases h
    exact Or.inr (Or.inr ⟨hm, _, rfl, members hx⟩)

/-- Only markers for handles that have a schema are replaced. -/
theorem defined_of_deferred {ms : Fields Json} {document : Json} {handle : Nat}
    (h : Rewrites defined (.obj ms) document)
    (hm : Marker.ofMembers? ms = some (.ok (.deferred handle))) :
    defined[handle]?.getD false = true := by
  rcases h with ⟨path, inPlace, applied, h⟩
  rw [EvaluationForm.rewrite, hm] at h
  rcases bind_eq_ok h with ⟨_, hdefined, -⟩
  unfold EvaluationForm.requireDefined at hdefined
  cases hflag : defined[handle]?.getD false with
  | true => rfl
  | false =>
    rw [hflag] at hdefined
    cases hdefined

theorem arr {xs : List Json} {document : Json} (h : Rewrites defined (.arr xs) document) :
    ∃ documents, document = .arr documents ∧ List.Forall₂ (Rewrites defined) xs documents := by
  rcases h with ⟨path, inPlace, applied, h⟩
  rw [EvaluationForm.rewrite] at h
  rcases bind_eq_ok h with ⟨x, hx, h⟩
  cases h
  exact ⟨_, rfl, items hx⟩

theorem scalar {d document : Json} (h : Rewrites defined d document)
    (hobj : ∀ ms, d ≠ .obj ms) (harr : ∀ xs, d ≠ .arr xs) : document = d := by
  rcases h with ⟨path, inPlace, applied, h⟩
  cases d with
  | obj ms => exact absurd rfl (hobj ms)
  | arr xs => exact absurd rfl (harr xs)
  | _ =>
    cases h
    rfl

/-- What a document is rewritten to does not depend on its place. -/
theorem unique {d document document' : Json} (h : Rewrites defined d document)
    (h' : Rewrites defined d document') : document = document' := by
  generalize hdepth : d.depth = n
  induction n using Nat.strongRecOn generalizing d document document' with
  | _ n ih =>
    subst hdepth
    cases d with
    | obj ms =>
      rcases h.obj with ⟨handle, hm, rfl⟩ | ⟨f, hm, hf⟩ | ⟨hm, documents, rfl, hdocuments⟩
      · rcases h'.obj with ⟨handle', hm', rfl⟩ | ⟨f', hm', -⟩ | ⟨hm', -⟩
        · obtain rfl : handle = handle' := by simpa using hm.symm.trans hm'
          rfl
        · simp [hm] at hm'
        · simp [hm] at hm'
      · rcases h'.obj with ⟨handle', hm', -⟩ | ⟨f', hm', hf'⟩ | ⟨hm', -⟩
        · simp [hm] at hm'
        · obtain rfl : f = f' := by simpa using hm.symm.trans hm'
          obtain rfl := Planning.members_of_inline hm
          exact ih _ (Json.depth_lt_of_mem_obj List.mem_cons_self) hf hf' rfl
        · simp [hm] at hm'
      · rcases h'.obj with ⟨handle', hm', -⟩ | ⟨f', hm', -⟩ | ⟨-, documents', rfl, hdocuments'⟩
        · simp [hm] at hm'
        · simp [hm] at hm'
        · refine congrArg Json.obj (eq_of_forall₂ hdocuments hdocuments' ?_)
          rintro a b b' ha ⟨hkey, hb⟩ ⟨hkey', hb'⟩
          refine Prod.ext (hkey.symm.trans hkey') ?_
          rcases hb with ⟨hdata, hb⟩ | ⟨hdata, hb⟩
          · rcases hb' with ⟨-, hb'⟩ | ⟨hno, -⟩
            · exact hb.trans hb'.symm
            · exact absurd hdata hno
          · rcases hb' with ⟨hyes, -⟩ | ⟨-, hb'⟩
            · exact absurd hyes hdata
            · exact ih _ (Json.depth_lt_of_mem_obj ha) hb hb' rfl
    | arr xs =>
      rcases h.arr with ⟨documents, rfl, hdocuments⟩
      rcases h'.arr with ⟨documents', rfl, hdocuments'⟩
      refine congrArg Json.arr (eq_of_forall₂ hdocuments hdocuments' (fun x y z hx hy hz => ?_))
      exact ih _ (Json.depth_lt_of_mem_arr hx) hy hz rfl
    | _ => rw [h.scalar (by simp) (by simp), h'.scalar (by simp) (by simp)]

end Rewrites

/-! ## Documents without any mention -/

/-- No object in the document has a member named like a keyword that identifies or refers. -/
def Unmentioned (d : Json) : Prop :=
  ∀ members, .obj members ∈ d.components → ∀ k ∈ referring, Fields.contains members k = false

/-- The only objects in the document that have such a member are the references to handles with a
property. -/
def Clean (P : Nat → Prop) (d : Json) : Prop :=
  ∀ members, .obj members ∈ d.components →
    (∃ handle, P handle ∧ .obj members = EvaluationForm.reference handle) ∨
      ∀ k ∈ referring, Fields.contains members k = false

variable {P : Nat → Prop}

theorem unmentioned_iff {d : Json} : Unmentioned d ↔ ∀ x ∈ d.components, ∀ k ∈ referring,
    Fields.contains ((x.members?).getD []) k = false := by
  constructor
  · intro h x hx
    cases x with
    | obj members => exact h members hx
    | _ => exact fun _ _ => rfl
  · exact fun h members hm => h _ hm

theorem Unmentioned.clean {d : Json} (h : Unmentioned d) : Clean P d :=
  fun members hm => Or.inr (h members hm)

theorem Unmentioned.of_subset {d d' : Json} (h : Unmentioned d)
    (hsub : d'.components ⊆ d.components) : Unmentioned d' :=
  fun members hm => h members (hsub hm)

theorem Clean.of_subset {d d' : Json} (h : Clean P d)
    (hsub : d'.components ⊆ d.components) : Clean P d' :=
  fun members hm => h members (hsub hm)

theorem Clean.settled {d : Json} (h : Clean P d) : Settled P d := by
  generalize hdepth : d.depth = n
  induction n using Nat.strongRecOn generalizing d with
  | _ n ih =>
    by_cases hobj : ∃ members, d = .obj members
    · rcases hobj with ⟨members, rfl⟩
      rcases h members (Json.mem_components _) with ⟨handle, hP, heq⟩ | hkeys
      · rw [heq]
        exact .reference hP
      · refine .schema hkeys (fun s hs => ih s.depth (hdepth ▸ hs.depth_lt) (h.of_subset ?_) rfl)
        exact Evaluation.components_subset_of_under hs
    · exact .data (fun members hmembers => hobj ⟨members, hmembers⟩)

theorem clean_reference {handle : Nat} (h : P handle) :
    Clean P (EvaluationForm.reference handle) := by
  intro members hm
  rcases List.mem_pair.mp hm with heq | heq
  · exact Or.inl ⟨handle, h, heq⟩
  · cases heq

theorem clean_arr {xs : List Json} (h : ∀ x ∈ xs, Clean P x) : Clean P (.arr xs) := by
  intro members hm
  rw [Json.components] at hm
  rcases List.mem_cons.mp hm with heq | hm
  · cases heq
  · rcases Json.exists_of_mem_componentsItems hm with ⟨x, hx, hm⟩
    exact h x hx members hm

theorem clean_obj {ms : Fields Json} (hkeys : ∀ k ∈ referring, Fields.contains ms k = false)
    (h : ∀ m ∈ ms, Clean P m.2) : Clean P (.obj ms) := by
  intro members hm
  rw [Json.components] at hm
  rcases List.mem_cons.mp hm with heq | hm
  · cases heq
    exact Or.inr hkeys
  · rcases Json.exists_of_mem_componentsMembers hm with ⟨m, hmem, hm⟩
    exact h m hmem members hm

theorem contains_of_forall₂ {P : Json → Json → Prop} {ms ms' : Fields Json}
    (h : List.Forall₂ (fun a b => a.1 = b.1 ∧ P a.2 b.2) ms ms') (k : String) :
    Fields.contains ms' k = Fields.contains ms k := by
  have hrel := rel_get? k h
  exact (isSome_of_rel hrel).symm

theorem contains_of_rewritten {defined : List Bool} {ms ms' : Fields Json}
    (h : List.Forall₂ (fun a b => a.1 = b.1 ∧
      (a.1 ∈ EvaluationForm.dataKeywords ∧ b.2 = a.2 ∨
        a.1 ∉ EvaluationForm.dataKeywords ∧ Rewrites defined a.2 b.2)) ms ms') (k : String) :
    Fields.contains ms' k = Fields.contains ms k :=
  contains_of_forall₂ (P := fun _ _ => True) (h.imp (fun _ _ hab => ⟨hab.1, trivial⟩)) k

/-- Handles that have a schema. -/
abbrev Defined (defined : List Bool) (handle : Nat) : Prop := defined[handle]?.getD false = true

/-- Where nothing is mentioned, rewriting adds the references to handles and nothing else. -/
theorem Rewrites.clean {defined : List Bool} {d document : Json} (h : Rewrites defined d document)
    (hd : Unmentioned d) : Clean (Defined defined) document := by
  generalize hdepth : d.depth = n
  induction n using Nat.strongRecOn generalizing d document with
  | _ n ih =>
    subst hdepth
    cases d with
    | obj ms =>
      have hsub : ∀ {k x}, (k, x) ∈ ms → Unmentioned x :=
        fun hm => hd.of_subset (Json.components_subset_obj hm)
      rcases h.obj with ⟨handle, hm, rfl⟩ | ⟨f, hm, hf⟩ | ⟨-, documents, rfl, hdocuments⟩
      · exact clean_reference (h.defined_of_deferred hm)
      · obtain rfl := Planning.members_of_inline hm
        exact ih _ (Json.depth_lt_of_mem_obj List.mem_cons_self) hf (hsub List.mem_cons_self) rfl
      · refine clean_obj (fun k hk => ?_) (fun m hm => ?_)
        · rw [contains_of_rewritten hdocuments]
          exact hd ms (Json.mem_components _) k hk
        · rcases exists_of_forall₂ hdocuments.flip hm with ⟨⟨k, x⟩, hx, -, hor⟩
          rcases hor with ⟨-, heq⟩ | ⟨-, hrewrites⟩
          · rw [heq]
            exact (hsub hx).clean
          · exact ih _ (Json.depth_lt_of_mem_obj hx) hrewrites (hsub hx) rfl
    | arr xs =>
      rcases h.arr with ⟨documents, rfl, hdocuments⟩
      refine clean_arr (fun y hy => ?_)
      rcases exists_of_forall₂ hdocuments.flip hy with ⟨x, hx, hrewrites⟩
      exact ih _ (Json.depth_lt_of_mem_arr hx) hrewrites
        (hd.of_subset (Json.components_subset_arr hx)) rfl
    | _ =>
      rw [h.scalar (by simp) (by simp)]
      exact hd.clean

/-! ## Schemas without references of their own -/

/-- The schemas in a document use no keyword that identifies or refers. Where such a keyword could
be the name of something else, an object of schemas that rewriting takes for a marker, there is no
mention of it either. -/
inductive Unreferenced : Json → Prop where
  | schema {members : Fields Json} (hkeys : ∀ k ∈ referring, Fields.contains members k = false)
      (hinner : ∀ s, Inner members s ∨ (Marker.key, s) ∈ members → Unreferenced s)
      (hnames : ∀ k ∈ "dependencies" :: mapKeywords, ∀ ss, (k, .obj ss) ∈ members →
        Fields.contains ss Marker.key = true → Unmentioned (.obj ss)) : Unreferenced (.obj members)
  | data {d : Json} (hd : ∀ members, d ≠ .obj members) : Unreferenced d

/-- A document without any mention refers to nothing. -/
theorem Unmentioned.unreferenced {d : Json} (h : Unmentioned d) : Unreferenced d := by
  generalize hdepth : d.depth = n
  induction n using Nat.strongRecOn generalizing d with
  | _ n ih =>
    subst hdepth
    cases d with
    | obj members =>
      refine .schema (h members (Json.mem_components _)) (fun s hs => ?_) (fun k _ ss hss _ => ?_)
      · rcases hs with hs | hs
        · exact ih _ hs.depth_lt (h.of_subset (Evaluation.components_subset_of_under hs)) rfl
        · exact ih _ (Json.depth_lt_of_mem_obj hs)
            (h.of_subset (Json.components_subset_obj hs)) rfl
      · exact h.of_subset (Json.components_subset_obj hss)
    | _ => exact .data (by simp)

namespace Unreferenced

variable {members : Fields Json}

theorem keys (h : Unreferenced (.obj members)) :
    ∀ k ∈ referring, Fields.contains members k = false := by
  cases h with
  | schema hkeys _ _ => exact hkeys
  | data hno => exact absurd rfl (hno members)

theorem inner (h : Unreferenced (.obj members)) {s : Json}
    (hs : Inner members s ∨ (Marker.key, s) ∈ members) : Unreferenced s := by
  cases h with
  | schema _ hinner _ => exact hinner s hs
  | data hno => exact absurd rfl (hno members)

theorem names (h : Unreferenced (.obj members)) {k : String}
    (hk : k ∈ "dependencies" :: mapKeywords) {ss : Fields Json} (hss : (k, .obj ss) ∈ members)
    (hmarker : Fields.contains ss Marker.key = true) : Unmentioned (.obj ss) := by
  cases h with
  | schema _ _ hnames => exact hnames k hk ss hss hmarker
  | data hno => exact absurd rfl (hno members)

theorem settled {P : Nat → Prop} {d : Json} (h : Unreferenced d) : Settled P d := by
  induction h with
  | schema hkeys _ _ ih => exact .schema hkeys (fun s hs => ih s (Or.inl hs))
  | data hno => exact .data hno

theorem closed {d : Json} (h : Unreferenced d) : Closed d :=
  (h.settled (P := fun _ => True)).closed

end Unreferenced

namespace Rewrites

variable {defined : List Bool}

theorem not_arr_of_obj {ms : Fields Json} {xs : List Json} :
    ¬ Rewrites defined (.obj ms) (.arr xs) := by
  generalize hdepth : (Json.obj ms).depth = n
  induction n using Nat.strongRecOn generalizing ms with
  | _ n ih =>
    subst hdepth
    intro h
    rcases h.obj with ⟨handle, -, heq⟩ | ⟨f, hm, hf⟩ | ⟨-, documents, heq, -⟩
    · cases heq
    · obtain rfl := Planning.members_of_inline hm
      rcases f with ⟨d, hd⟩
      cases d with
      | obj inner => exact ih _ (Json.depth_lt_of_mem_obj List.mem_cons_self) rfl hf
      | bool b => cases hf.scalar (by simp) (by simp)
      | _ => cases hd
    · cases heq

/-- What rewriting makes of the schemas listed under a keyword. -/
theorem of_arr {d : Json} {documents : List Json} (h : Rewrites defined d (.arr documents)) :
    ∃ xs, d = .arr xs ∧ List.Forall₂ (Rewrites defined) xs documents := by
  cases d with
  | obj ms => exact absurd h not_arr_of_obj
  | arr xs =>
    rcases h.arr with ⟨documents', heq, hdocuments⟩
    cases heq
    exact ⟨xs, rfl, hdocuments⟩
  | _ => cases h.scalar (by simp) (by simp)

/-- The schemas that an object of schemas is rewritten to refer to some handles only, if those do
that its schemas are rewritten to. -/
theorem settled_named {members documents : Fields Json} {k name : String} {v s : Json}
    (h : Rewrites defined v (.obj documents)) (hd : Unreferenced (.obj members))
    (hk : k ∈ "dependencies" :: mapKeywords) (hv : (k, v) ∈ members) (hs : (name, s) ∈ documents)
    (hschemas : ∀ t y, Rewrites defined t y → t.depth < v.depth → Unreferenced t →
      Settled (Defined defined) y) : Settled (Defined defined) s := by
  cases v with
  | obj schemas =>
    rcases h.obj with ⟨handle, -, heq⟩ | ⟨f, hm, hf⟩ | ⟨-, _, heq, hall⟩
    · cases heq
      obtain ⟨rfl, rfl⟩ := Prod.mk.inj (List.mem_singleton.mp hs)
      exact .data (by simp)
    · obtain rfl := Planning.members_of_inline hm
      -- taken for a marker, so that the schema it carries is read as an object of schemas
      have hunmentioned := hd.names hk hv (by simp [Fields.contains, Fields.get?_cons])
      have hclean := hf.clean
        (hunmentioned.of_subset (Json.components_subset_obj List.mem_cons_self))
      exact (hclean.of_subset (Json.components_subset_obj hs)).settled
    · cases heq
      rcases exists_of_forall₂ hall.flip hs with ⟨⟨name', t⟩, ht, heq, hor⟩
      obtain rfl : name' = name := heq
      have hunreferenced := hd.inner (Or.inl (.named hk hv ht))
      rcases hor with ⟨-, heq⟩ | ⟨-, hrewrites⟩
      · obtain rfl : s = t := heq
        exact hunreferenced.settled
      · exact hschemas t s hrewrites (Json.depth_lt_of_mem_obj ht) hunreferenced
  | arr xs =>
    rcases h.arr with ⟨_, heq, -⟩
    cases heq
  | _ => cases h.scalar (by simp) (by simp)

/-- Rewriting leaves nothing but references to handles that have a schema. -/
theorem settled {d document : Json} (h : Rewrites defined d document) (hd : Unreferenced d) :
    Settled (Defined defined) document := by
  generalize hdepth : d.depth = n
  induction n using Nat.strongRecOn generalizing d document with
  | _ n ih =>
    subst hdepth
    cases d with
    | obj ms =>
      rcases h.obj with ⟨handle, hm, rfl⟩ | ⟨f, hm, hf⟩ | ⟨-, documents, rfl, hdocuments⟩
      · exact .reference (h.defined_of_deferred hm)
      · obtain rfl := Planning.members_of_inline hm
        exact ih _ (Json.depth_lt_of_mem_obj List.mem_cons_self) hf
          (hd.inner (Or.inr List.mem_cons_self)) rfl
      have hkeyword : ∀ {k y}, (k, y) ∈ documents → k ∉ EvaluationForm.dataKeywords →
          ∃ x, (k, x) ∈ ms ∧ Rewrites defined x y := by
        intro k y hy hk
        rcases exists_of_forall₂ hdocuments.flip hy with ⟨⟨k', x⟩, hx, heq, hor⟩
        obtain rfl : k' = k := heq
        rcases hor with ⟨hdata, -⟩ | ⟨-, hrewrites⟩
        · exact absurd hdata hk
        · exact ⟨x, hx, hrewrites⟩
      refine .schema (fun k hk => ?_) (fun s hs => ?_)
      · rw [contains_of_rewritten hdocuments]
        exact hd.keys k hk
      cases hs with
      | @single k _ hk hs =>
        have hdata : ∀ k ∈ schemaKeywords, k ∉ EvaluationForm.dataKeywords := by decide
        rcases hkeyword hs (hdata k hk) with ⟨x, hx, hrewrites⟩
        exact ih _ (Json.depth_lt_of_mem_obj hx) hrewrites (hd.inner (Or.inl (.single hk hx))) rfl
      | @listed k _ _ hk hxs hs =>
        have hdata : ∀ k ∈ listKeywords, k ∉ EvaluationForm.dataKeywords := by decide
        rcases hkeyword hxs (hdata k hk) with ⟨_, hx, hrewrites⟩
        rcases hrewrites.of_arr with ⟨xs, rfl, hitems⟩
        rcases exists_of_forall₂ hitems.flip hs with ⟨x, hmem, hrewrites⟩
        exact ih _ (Nat.lt_trans (Json.depth_lt_of_mem_arr hmem) (Json.depth_lt_of_mem_obj hx))
          hrewrites (hd.inner (Or.inl (.listed hk hx hmem))) rfl
      | @named k _ _ _ hk hss hs =>
        have hdata : ∀ k ∈ "dependencies" :: mapKeywords, k ∉ EvaluationForm.dataKeywords := by
          decide
        rcases hkeyword hss (hdata k hk) with ⟨x, hx, hrewrites⟩
        exact hrewrites.settled_named hd hk hx hs (fun t y ht hlt htd => ih t.depth
          (Nat.lt_trans hlt (Json.depth_lt_of_mem_obj hx)) ht htd rfl)
    | arr xs =>
      rcases h.arr with ⟨documents, rfl, -⟩
      exact .data (by simp)
    | _ =>
      rw [h.scalar (by simp) (by simp)]
      exact hd.settled

theorem closed {d document : Json} (h : Rewrites defined d document) (hd : Unreferenced d) :
    Closed document :=
  (h.settled hd).closed

end Rewrites

/-! ## Planning -/

namespace Planning

variable {c : Context}

section

variable {members : Fields Json} {k : String} {v s : Json} {p q : Plan Node}
  (hd : Unreferenced (.obj members)) (hv : (k, v) ∈ members)
  (hschemas : ∀ t n y, Plans c t n y → t.depth < (Json.obj members).depth → Unreferenced t →
    Closed y)

include hd hv hschemas

theorem closed_single (hk : k ∈ schemaKeywords) (h : PlansKeyword c (role k) v p q s) :
    Closed s := by
  have hinner := hd.inner (Or.inl (.single hk hv))
  have hdepth := Json.depth_lt_of_mem_obj hv
  generalize hρ : role k = ρ at h
  cases h with
  | properties _ => exact absurd (eq_of_role hρ rfl ▸ hk) (by decide)
  | patterns _ => exact absurd (eq_of_role hρ rfl ▸ hk) (by decide)
  | additional _ hn => exact hschemas _ _ _ hn hdepth hinner
  | items _ hn => exact hschemas _ _ _ hn hdepth hinner
  | itemList _ => exact .data (by simp)
  | leading _ => exact .data (by simp)
  | branches _ => exact .data (by simp)
  | other hrewrite => exact Rewrites.closed ⟨_, _, _, hrewrite⟩ hinner
  | _ => exact hinner.closed

theorem closed_listed {documents : List Json} (hk : k ∈ listKeywords)
    (h : PlansKeyword c (role k) v p q (.arr documents)) (hs : s ∈ documents) : Closed s := by
  have hinner : ∀ xs, v = .arr xs → ∀ x ∈ xs,
      Unreferenced x ∧ x.depth < (Json.obj members).depth := by
    rintro xs rfl x hx
    exact ⟨hd.inner (Or.inl (.listed hk hv hx)),
      Nat.lt_trans (Json.depth_lt_of_mem_arr hx) (Json.depth_lt_of_mem_obj hv)⟩
  have hlist : ∀ xs nodes, v = .arr xs → PlansItems c xs nodes documents → Closed s := by
    intro xs nodes hxs hitems
    rcases exists_of_forall₂ (forall₂_of_plansItems hitems).2.flip hs with ⟨t, ht, n, hn⟩
    exact hschemas _ _ _ hn (hinner xs hxs t ht).2 (hinner xs hxs t ht).1
  generalize hdocument : Json.arr documents = document at h
  generalize hρ : role k = ρ at h
  cases h with
  | properties _ => cases hdocument
  | patterns _ => cases hdocument
  | allowed => cases hdocument
  | forbidden => cases hdocument
  | additional _ _ => exact absurd (eq_of_role hρ rfl ▸ hk) (by decide)
  | items _ _ => exact absurd (eq_of_role hρ rfl ▸ hk) (by decide)
  | itemList hitems =>
    cases hdocument
    exact hlist _ _ rfl hitems
  | leading hitems =>
    cases hdocument
    exact hlist _ _ rfl hitems
  | branches hitems =>
    cases hdocument
    exact hlist _ _ rfl hitems
  | other hrewrite =>
    subst hdocument
    rcases Rewrites.of_arr ⟨_, _, _, hrewrite⟩ with ⟨xs, rfl, hitems⟩
    rcases exists_of_forall₂ hitems.flip hs with ⟨x, hx, hrewrites⟩
    exact Rewrites.closed hrewrites (hinner xs rfl x hx).1
  | _ => exact (hinner _ hdocument.symm s hs).1.closed

theorem closed_named {documents : Fields Json} {name : String}
    (hk : k ∈ "dependencies" :: mapKeywords)
    (h : PlansKeyword c (role k) v p q (.obj documents)) (hs : (name, s) ∈ documents) :
    Closed s := by
  have hinner : ∀ ss, v = .obj ss → ∀ name x, (name, x) ∈ ss →
      Unreferenced x ∧ x.depth < (Json.obj members).depth := by
    rintro ss rfl name x hx
    exact ⟨hd.inner (Or.inl (.named hk hv hx)),
      Nat.lt_trans (Json.depth_lt_of_mem_obj hx) (Json.depth_lt_of_mem_obj hv)⟩
  have hentries : ∀ ss nodes, v = .obj ss → PlansEntries c ss nodes documents → Closed s := by
    intro ss nodes hss hentries
    rcases exists_of_forall₂ (forall₂_of_plansEntries hentries).2.flip hs with ⟨m, hm, -, n, hn⟩
    exact hschemas _ _ _ hn (hinner ss hss m.1 m.2 hm).2 (hinner ss hss m.1 m.2 hm).1
  generalize hdocument : Json.obj documents = document at h
  generalize hρ : role k = ρ at h
  cases h with
  | properties h =>
    cases hdocument
    exact hentries _ _ rfl h
  | patterns h =>
    cases hdocument
    exact hentries _ _ rfl h
  | allowed => cases hdocument
  | forbidden => cases hdocument
  | additional _ _ => exact absurd (eq_of_role hρ rfl ▸ hk) (by decide)
  | items _ _ => exact absurd (eq_of_role hρ rfl ▸ hk) (by decide)
  | itemList _ => cases hdocument
  | leading _ => cases hdocument
  | branches _ => cases hdocument
  | other hrewrite =>
    subst hdocument
    exact (Rewrites.settled_named ⟨_, _, _, hrewrite⟩ hd hk hv hs
      (fun _ _ hrewrites _ => Rewrites.settled hrewrites)).closed
  | _ => exact (hinner _ hdocument.symm name s hs).1.closed

end

/-- The document for the evaluator of a schema refers to nothing but handles. -/
theorem Plans.closed {d document : Json} {n : Node} (h : Plans c d n document)
    (hd : Unreferenced d) : Closed document := by
  generalize hdepth : d.depth = k
  induction k using Nat.strongRecOn generalizing d document n with
  | _ k ih =>
    subst hdepth
    cases h with
    | always b => exact .data (by simp)
    | deferred _ _ => exact .data (by simp)
    | inline _ _ _ => exact .data (by simp)
    | @keywords members documents p _ h =>
      have hschemas : ∀ t n y, Plans c t n y → t.depth < (Json.obj members).depth →
          Unreferenced t → Closed y :=
        fun t n y ht hlt htd => ih t.depth hlt ht htd rfl
      refine .schema (fun k hk => ?_) (fun s hs => ?_)
      · have hkeys := hd.keys k hk
        rw [← Bool.not_eq_true, Fields.contains_iff_mem_keys] at hkeys ⊢
        rw [keys_of_plansKeywords h]
        exact hkeys
      have hkeyword : ∀ {k y}, (k, y) ∈ documents →
          ∃ v p' q', (k, v) ∈ members ∧ PlansKeyword c (role k) v p' q' y := by
        intro k y hy
        rcases exists_of_forall₂ (forall₂_of_plansKeywords h).flip hy with
          ⟨⟨_, v⟩, hv, rfl, p', q', hplans⟩
        exact ⟨v, p', q', hv, hplans⟩
      cases hs with
      | single hk hs =>
        rcases hkeyword hs with ⟨v, p', q', hv, hplans⟩
        exact closed_single hd hv hschemas hk hplans
      | listed hk hxs hs =>
        rcases hkeyword hxs with ⟨v, p', q', hv, hplans⟩
        exact closed_listed hd hv hschemas hk hplans hs
      | named hk hss hs =>
        rcases hkeyword hss with ⟨v, p', q', hv, hplans⟩
        exact closed_named hd hv hschemas hk hplans hs

end Planning

namespace Engine

variable {o : Options} {r : Registry} {e : Engine}

/-- Evaluators are given what the schemas of handles are rewritten to. -/
theorem exists_handle_of_resource (hr : ofRegistry o r = .ok e) {resource : Resource}
    (h : resource ∈ e.context.resources) : ∃ handle g, r.get? handle = some g ∧
      resource.uri = EvaluationForm.resourceUri handle ∧
      Rewrites e.context.defined g.document resource.contents := by
  rcases ofRegistry_eq_ok_iff.mp hr with ⟨resources, entries, hresources, -, -, rfl⟩
  have hsome : some resource ∈ resources := by simpa using h
  rcases exists_of_forall₂ (forall₂_of_mapM hresources).flip hsome with ⟨⟨i, entry⟩, hmem, h⟩
  rcases List.mem_iff_getElem?.mp hmem with ⟨j, hj⟩
  obtain ⟨hi, hentry⟩ := List.getElem?_zip_eq_some.mp hj
  obtain ⟨hlt, rfl⟩ := List.getElem?_eq_some_iff.mp hi
  rw [List.getElem_range] at h
  unfold resourceOf at h
  dsimp only at h
  split at h
  · cases h
  · next f hschema =>
    rcases bind_eq_ok h with ⟨x, hx, h⟩
    cases h
    exact ⟨j, f, by rw [Registry.get?, hentry, Option.bind_some, hschema], rfl, _, _, _, hx⟩

/-- Evaluators are given closed documents by a registry whose schemas refer to nothing but by
markers. -/
theorem closed_resources (hr : ofRegistry o r = .ok e)
    (hregistry : ∀ handle g, r.get? handle = some g → Unreferenced g.document) :
    ∀ resource ∈ e.context.resources, Closed resource.contents := by
  intro resource hresource
  rcases exists_handle_of_resource hr hresource with ⟨handle, g, hg, -, hrewrites⟩
  exact hrewrites.closed (hregistry handle g hg)

end Engine

end HttpContract
