import HttpContract.Proofs.Building
import HttpContract.Proofs.Endorsement
import HttpContract.Proofs.Replacement

/-!
# Evaluators of rewritten schemas

An evaluator is built for a document that the schema of schemas accepts, that evaluation can go
through (`Sturdy`), and whose references lead to known documents (`Answered`) and to handles that
have one (`exists_build`). All this holds of what a schema is rewritten to if it holds of what the
schema is planned to (`Sound.rewritten`): the two differ in the schemas at positions that plans
follow, which are rewritten again.
-/

namespace HttpContract

open Library (listKeywords mapKeywords schemaKeywords)

namespace Evaluation

/-! ## What evaluation can go through -/

/-- The keywords of the schema, and those of the schemas that evaluation reaches from it, have
values of the right shape, and their patterns are well formed. -/
inductive Sturdy : Json → Prop where
  | bool (b : Bool) : Sturdy (.bool b)
  | obj {members : Fields Json}
      (hkeywords : ∀ m ∈ members, misshapen? m.1 m.2 = none ∧
        ∀ source ∈ (reachedFrom members m.1 m.2).patterns,
          (Pattern.compile? source).isSome = true)
      (hreached : ∀ m ∈ members, ∀ s ∈ (reachedFrom members m.1 m.2).schemas, Sturdy s) :
      Sturdy (.obj members)

variable {members : Fields Json} {k : String} {arg s : Json}

/-- Evaluation reaches schemas within the schema only. -/
theorem inner_of_reachedFrom (hm : (k, arg) ∈ members)
    (hs : s ∈ (reachedFrom members k arg).schemas) : Inner members s := by
  have hsingle : ∀ {k}, k ∈ schemaKeywords → (k, arg) ∈ members → s ∈ [arg] →
      Inner members s := by
    intro k hk hm hs
    obtain rfl := List.mem_singleton.mp hs
    exact .single hk hm
  have hlisted : ∀ {k}, k ∈ listKeywords → (k, arg) ∈ members → s ∈ (arg.items?).getD [] →
      Inner members s := by
    intro k hk hm hs
    rcases mem_items_getD hs with ⟨xs, rfl, hs⟩
    exact .listed hk hm hs
  have hnamed : ∀ {k}, k ∈ "dependencies" :: mapKeywords → (k, arg) ∈ members →
      s ∈ Fields.values ((arg.members?).getD []) → Inner members s := by
    intro k hk hm hs
    rcases List.mem_map.mp hs with ⟨m, hentry, rfl⟩
    rcases schemas_getD hentry with ⟨ss, rfl, hentry⟩
    exact .named hk hm hentry
  unfold reachedFrom at hs
  split at hs
  · cases hs
  · cases hs
  · cases hs
  · exact hnamed (by decide) hm hs
  · exact hsingle (by decide) hm hs
  · exact hlisted (by decide) hm hs
  · exact hlisted (by decide) hm hs
  · exact hlisted (by decide) hm hs
  · exact hlisted (by decide) hm hs
  · exact hsingle (by decide) hm hs
  · exact hsingle (by decide) hm hs
  · exact hsingle (by decide) hm hs
  · exact hsingle (by decide) hm hs
  · exact hsingle (by decide) hm hs
  · exact hsingle (by decide) hm hs
  · exact hnamed (by decide) hm (List.mem_filter.mp hs).1
  · exact hnamed (by decide) hm hs
  · exact hnamed (by decide) hm hs
  · dsimp only at hs
    split at hs
    · cases hs
    · rcases List.mem_cons.mp hs with rfl | hs
      · exact .single (by decide) hm
      · rcases List.mem_filterMap.mp hs with ⟨next, hnext, hget⟩
        refine .single ?_ (Fields.mem_of_get? hget)
        rcases List.mem_pair.mp hnext with rfl | rfl <;> decide
  · cases hs

theorem Verified.sturdy {d : Json} (h : Verified d) : Sturdy d := by
  generalize hdepth : d.depth = n
  induction n using Nat.strongRecOn generalizing d with
  | _ n ih =>
    subst hdepth
    have hschema := h.isSchema
    cases d with
    | obj members =>
      refine .obj (fun m hm => ⟨(h.keyword hm).1, (h.keyword hm).2.1⟩) (fun m hm s hs => ?_)
      have hlt := (inner_of_reachedFrom hm hs).depth_lt
      exact ih _ hlt (h.reached hm hs hlt) rfl
    | bool b => exact .bool b
    | _ => cases hschema

theorem sturdy_reference (handle : Nat) : Sturdy (EvaluationForm.reference handle) := by
  refine .obj (fun m hm => ?_) (fun m hm s hs => ?_)
  · obtain rfl := List.mem_singleton.mp hm
    exact ⟨rfl, fun source hsource => nomatch hsource⟩
  · obtain rfl := List.mem_singleton.mp hm
    cases hs

/-! ## Exchanging schemas -/

section

variable {P : Json → Prop} {members' : Fields Json} {v v' : Json}
  (hexchanged : ExchangedMembers P members members')

include hexchanged

theorem get?_of_exchanged (hk : k ∉ followedKeywords) :
    Fields.get? members k = Fields.get? members' k := by
  have hrel := rel_get?_of_name k hexchanged
  generalize Fields.get? members k = x at hrel ⊢
  generalize Fields.get? members' k = y at hrel ⊢
  cases hrel with
  | none => rfl
  | some h =>
    cases h with
    | beside _ => rfl
    | single hk' _ => rcases List.mem_pair.mp hk' with rfl | rfl <;> exact absurd (by decide) hk
    | named hk' _ => rcases List.mem_pair.mp hk' with rfl | rfl <;> exact absurd (by decide) hk
    | listed hk' _ => rcases List.mem_pair.mp hk' with rfl | rfl <;> exact absurd (by decide) hk

/-- What evaluation reaches from a keyword depends on the others only through the branches of
conditions. -/
theorem reachedFrom_exchanged : reachedFrom members k arg = reachedFrom members' k arg := by
  have hnext : ["then", "else"].filterMap (Fields.get? members) =
      ["then", "else"].filterMap (Fields.get? members') := by
    refine List.filterMap_congr (fun k hk => get?_of_exchanged hexchanged ?_)
    rcases List.mem_pair.mp hk with rfl | rfl <;> decide
  unfold reachedFrom
  dsimp only
  rw [hnext]

end

theorem Sturdy.exchange {members' : Fields Json} (h : Sturdy (.obj members))
    (hexchanged : ExchangedMembers Sturdy members members') : Sturdy (.obj members') := by
  cases h with
  | obj hkeywords hreached =>
    have hboth : ∀ m' ∈ members', (misshapen? m'.1 m'.2 = none ∧
        ∀ source ∈ (reachedFrom members' m'.1 m'.2).patterns,
          (Pattern.compile? source).isSome = true) ∧
        ∀ s ∈ (reachedFrom members' m'.1 m'.2).schemas, Sturdy s := by
      rintro ⟨k, v'⟩ hm'
      rcases exists_of_forall₂ hexchanged.flip hm' with ⟨⟨_, v⟩, hm, rfl, hvalue⟩
      rw [← reachedFrom_exchanged hexchanged]
      have hold := hkeywords _ hm
      cases hvalue with
      | beside _ => exact ⟨hold, hreached _ hm⟩
      | single hk hs =>
        rcases List.mem_pair.mp hk with rfl | rfl
        · refine ⟨⟨?_, fun _ hsource => nomatch hsource⟩, fun s hmem => ?_⟩
          · cases v' <;> rfl
          · exact List.mem_singleton.mp hmem ▸ hs
        · refine ⟨⟨?_, fun _ hsource => nomatch hsource⟩, fun s hmem => ?_⟩
          · cases v' <;> rfl
          · exact List.mem_singleton.mp hmem ▸ hs
      | @named ss ss' hk hschemas =>
        have hvalues : ∀ s ∈ Fields.values ss', Sturdy s := by
          intro s hs
          rcases List.mem_map.mp hs with ⟨m, hm, rfl⟩
          rcases exists_of_forall₂ hschemas.flip hm with ⟨_, -, -, hsturdy⟩
          exact hsturdy
        rcases List.mem_pair.mp hk with rfl | rfl
        · have hkeys : Fields.keys ss = Fields.keys ss' :=
            (keys_eq_of_forall₂ (R := fun _ _ => True) (hschemas.imp (fun _ _ hab =>
              ⟨hab.1, trivial⟩))).symm
          refine ⟨⟨rfl, fun source (hsource : source ∈ Fields.keys ss') => ?_⟩, hvalues⟩
          exact hold.2 source (show source ∈ Fields.keys ss from hkeys ▸ hsource)
        · exact ⟨⟨rfl, fun _ hsource => nomatch hsource⟩, hvalues⟩
      | @listed xs xs' hk hschemas =>
        have hitems : ∀ s ∈ xs', Sturdy s := by
          intro s hs
          obtain ⟨_, -, hsturdy : Sturdy s⟩ := exists_of_forall₂ hschemas.flip hs
          exact hsturdy
        rcases List.mem_pair.mp hk with rfl | rfl
        · exact ⟨⟨rfl, fun _ hsource => nomatch hsource⟩, hitems⟩
        · exact ⟨⟨rfl, fun _ hsource => nomatch hsource⟩, hitems⟩
    exact .obj (fun m' hm' => (hboth m' hm').1) (fun m' hm' => (hboth m' hm').2)

end Evaluation

/-! ## References to other documents -/

namespace Library

open Evaluation

/-- The references to other documents that a schema and the schemas within it declare have a
property. -/
inductive Answered (P : String → Prop) : Json → Prop where
  | schema {members : Fields Json}
      (hhere : ∀ r ∈ (declaredHere Evaluator.defaultBase (.obj members)).references, P r)
      (hinner : ∀ s ∈ subschemas (.obj members), Answered P s) : Answered P (.obj members)
  | data {d : Json} (hd : ∀ members, d ≠ .obj members) : Answered P d

theorem references_declared (fuel : Nat) (base : String) (d : Json) :
    (declared (fuel + 1) base d).references = (declaredHere (baseOf base d) d).references ++
      (subschemas d).flatMap (fun s => (declared fuel (baseOf base d) s).references) :=
  part_foldl_append (·.references) (fun _ _ => rfl) _ _ _

theorem baseOf_of_closed {base : String} {d : Json} (hd : Closed d) : baseOf base d = base := by
  unfold baseOf
  rw [hd.keywordText?_eq_none]

variable {P : String → Prop} {d : Json}

theorem Answered.references (h : Answered P d) (hd : Closed d) (fuel : Nat) :
    ∀ r ∈ (declared fuel Evaluator.defaultBase d).references, P r := by
  induction fuel generalizing d with
  | zero => exact fun r hr => nomatch hr
  | succ fuel ih =>
    intro r hr
    rw [references_declared, baseOf_of_closed hd] at hr
    cases h with
    | schema hhere hinner =>
      rcases List.mem_append.mp hr with hr | hr
      · exact hhere r hr
      · rcases List.mem_flatMap.mp hr with ⟨s, hs, hr⟩
        rcases inner_of_mem_subschemas hs with ⟨_, ⟨⟩, hmem⟩
        exact ih (hinner s hs) (hd.inner hmem) r hr
    | data hno =>
      cases d with
      | obj members => exact absurd rfl (hno members)
      | _ => cases hr

theorem answered_of_references (hd : Closed d) {fuel : Nat} (hfuel : d.depth < fuel)
    (h : ∀ r ∈ (declared fuel Evaluator.defaultBase d).references, P r) : Answered P d := by
  induction fuel generalizing d with
  | zero => exact absurd hfuel (Nat.not_lt_zero _)
  | succ fuel ih =>
    rw [references_declared, baseOf_of_closed hd] at h
    cases d with
    | obj members =>
      refine .schema (fun r hr => h r (List.mem_append_left _ hr)) (fun s hs => ?_)
      rcases inner_of_mem_subschemas hs with ⟨_, ⟨⟩, hinner⟩
      have hlt := hinner.depth_lt
      refine ih (hd.inner hinner) (by omega) (fun r hr => h r (List.mem_append_right _ ?_))
      exact List.mem_flatMap.mpr ⟨s, hs, hr⟩
    | _ => exact .data (by simp)

theorem answered_reference {handle : Nat} (h : P (EvaluationForm.resourceUri handle)) :
    Answered P (EvaluationForm.reference handle) := by
  refine .schema (fun r hr => ?_) (fun s hs => ?_)
  · unfold declaredHere at hr
    dsimp only at hr
    split at hr
    · cases hr
    · rcases List.mem_filterMap.mp hr with ⟨uri, huri, hr⟩
      obtain rfl := List.mem_singleton.mp
        (show uri ∈ [EvaluationForm.resourceUri handle] from huri)
      split at hr
      · cases hr
      · rw [EvaluationForm.absolute_resourceUri] at hr
        exact Option.some.inj hr ▸ h
  · rcases inner_of_mem_subschemas hs with ⟨_, ⟨⟩, hinner⟩
    exact absurd hinner (not_under_reference (by decide))

theorem Answered.exchange {members members' : Fields Json} (h : Answered P (.obj members))
    (hexchanged : ExchangedMembers (Answered P) members members') :
    Answered P (.obj members') := by
  cases h with
  | data hno => exact absurd rfl (hno members)
  | schema hhere hinner =>
    refine .schema (fun r hr => hhere r ?_) (fun s hs => ?_)
    · have htext : ∀ k, k ∉ followedKeywords →
          keywordText? (.obj members') k = keywordText? (.obj members) k :=
        fun k hk => congrArg (·.bind Json.text?) (get?_of_exchanged hexchanged hk).symm
      unfold declaredHere at hr ⊢
      dsimp only at hr ⊢
      rw [htext "$ref" (by decide), htext "$schema" (by decide)] at hr
      exact hr
    · rcases List.mem_flatMap.mp hs with ⟨⟨k, v'⟩, hm', hs⟩
      rcases exists_of_forall₂ hexchanged.flip hm' with ⟨⟨_, v⟩, hm, rfl, hvalue⟩
      cases hvalue with
      | beside _ => exact hinner s (List.mem_flatMap.mpr ⟨_, hm, hs⟩)
      | single hk hanswered =>
        rcases List.mem_pair.mp hk with rfl | rfl <;> exact List.mem_singleton.mp hs ▸ hanswered
      | @named ss ss' hk hschemas =>
        have hs : s ∈ Fields.values ss' := by
          rcases List.mem_pair.mp hk with rfl | rfl <;> exact hs
        rcases List.mem_map.mp hs with ⟨m, hm, rfl⟩
        rcases exists_of_forall₂ hschemas.flip hm with ⟨_, -, -, hanswered⟩
        exact hanswered
      | @listed xs xs' hk hschemas =>
        have hs : s ∈ xs' := by
          rcases List.mem_pair.mp hk with rfl | rfl <;> exact hs
        obtain ⟨_, -, hanswered : Answered P s⟩ := exists_of_forall₂ hschemas.flip hs
        exact hanswered

end Library

/-! ## Going through a document -/

namespace Evaluation

theorem exists_foldlM {ε α β : Type} {f : β → α → Except ε β} {xs : List α}
    (h : ∀ x ∈ xs, ∀ b, ∃ b', f b x = .ok b') (b : β) : ∃ b', xs.foldlM f b = .ok b' := by
  induction xs generalizing b with
  | nil => exact ⟨b, rfl⟩
  | cons x rest ih =>
    rcases h x List.mem_cons_self b with ⟨c, hc⟩
    rw [List.foldlM_cons, hc]
    exact ih (fun y hy => h y (List.mem_cons_of_mem _ hy)) c

theorem of_mem_references {members : Fields Json} {k r : String} {arg : Json}
    (h : r ∈ (reachedFrom members k arg).references) :
    k ∈ ["$ref", "$dynamicRef"] ∧ arg = .str r := by
  have htext : r ∈ arg.text?.toList → arg = .str r := by
    cases arg with
    | str s => exact fun h => congrArg Json.str (List.mem_singleton.mp h).symm
    | _ => exact fun h => nomatch h
  unfold reachedFrom at h
  split at h
  · exact ⟨by decide, htext h⟩
  · exact ⟨by decide, htext h⟩
  all_goals cases h

variable {R : List Resource} {l : Library} {P : Nat → Prop} {members : Fields Json}

/-- The only references in a settled document are those to handles. -/
theorem exists_handle_of_reference {k r : String} {arg : Json} (h : Settled P (.obj members))
    (hm : (k, arg) ∈ members) (hr : r ∈ (reachedFrom members k arg).references) :
    ∃ handle, P handle ∧ r = EvaluationForm.resourceUri handle := by
  rcases of_mem_references hr with ⟨hk, rfl⟩
  generalize hd : Json.obj members = d at h
  cases h with
  | @reference handle hP =>
    cases hd
    obtain ⟨rfl, heq⟩ := Prod.mk.inj (List.mem_singleton.mp hm)
    exact ⟨handle, hP, Json.str.inj heq⟩
  | @schema members' hkeys _ =>
    cases hd
    have hcontains : Fields.contains members k = true :=
      (Fields.contains_iff_mem_keys _ _).mpr (List.mem_map_of_mem hm)
    rw [hkeys k (by rcases List.mem_pair.mp hk with rfl | rfl <;> decide)] at hcontains
    cases hcontains
  | data hno => exact absurd hd.symm (hno members)

section

variable (hl : l.Offers R) (hP : ∀ handle, P handle → ∃ t, documentOf R handle = some t)
  (hR : ∀ handle t, documentOf R handle = some t → Sturdy t ∧ Settled P t)

include hl hP hR

/-- The check goes through everything that evaluation can reach from the document. -/
theorem exists_verify (fuel : Nat) {d : Json} (hsturdy : Sturdy d) (hsettled : Settled P d)
    (scope : Library.Scope) (followed : Followed) :
    ∃ followed', verify l fuel scope followed d = .ok followed' := by
  induction fuel generalizing d scope followed with
  | zero => exact ⟨followed, rfl⟩
  | succ fuel ih =>
    rw [verify_succ]
    cases hsturdy with
    | bool b => exact ⟨followed, rfl⟩
    | @obj members hkeywords hreached =>
      refine exists_foldlM (fun m hm b => ?_) followed
      rcases m with ⟨k, arg⟩
      dsimp only [Json.members?, Option.getD_some]
      unfold verifyKeyword
      split
      · exact ⟨b, rfl⟩
      · rcases hkeywords _ hm with ⟨hshape, hpatterns⟩
        have hfind : (reachedFrom members k arg).patterns.find?
            (fun source => (Pattern.compile? source).isNone) = none := by
          refine List.find?_eq_none.mpr (fun source hsource => ?_)
          rw [Option.isNone_iff_eq_none]
          exact Option.isSome_iff_ne_none.mp (hpatterns source hsource)
        dsimp only
        rw [hshape, hfind]
        have hreferences : ∃ c, (reachedFrom members k arg).references.foldlM
            (verifyReference l (verify l fuel) (scope.within (.obj members))) b = .ok c := by
          refine exists_foldlM (fun r hr c => ?_) b
          rcases exists_handle_of_reference hsettled hm hr with ⟨handle, hhandle, rfl⟩
          rcases hP handle hhandle with ⟨t, ht⟩
          unfold verifyReference
          split
          · exact ⟨c, rfl⟩
          · rw [Library.lookup_resourceUri, hl.document, ht]
            exact ih (hR handle t ht).1 (hR handle t ht).2 _ _
        rcases hreferences with ⟨c, hc⟩
        dsimp only
        rw [hc]
        exact exists_foldlM (fun s hs c => ih (hreached _ hm s hs)
          (hsettled.inner (inner_of_reachedFrom hm hs)) _ c) c

end

end Evaluation

/-! ## Building evaluators -/

namespace Library

/-- A reference leads to a document that evaluators of documents without identifiers know. -/
def Known (R : List Resource) (reference : String) : Prop :=
  withoutFragment reference ∈
    Evaluator.defaultBase :: (R ++ Metaschema.library.documents).map (·.uri)

variable {R : List Resource} {d : Json}

theorem isSome_document?_iff (hd : Closed d) (hR : ∀ r ∈ R, Closed r.contents) (uri : String) :
    ((extension Metaschema.library (R ++ [⟨Evaluator.defaultBase, d⟩])).document? uri).isSome =
        true ↔
      uri ∈ Evaluator.defaultBase :: (R ++ Metaschema.library.documents).map (·.uri) := by
  have hnone : (R ++ [(⟨Evaluator.defaultBase, d⟩ : Resource)]).flatMap
      (fun r => (declaredBy r).documents) = [] := by
    refine List.flatMap_eq_nil_iff.mpr (fun r hr => documents_of_closed _ _ ?_)
    rcases List.mem_append.mp hr with hr | hr
    · exact hR r hr
    · exact List.mem_singleton.mp hr ▸ hd
  unfold document? extension
  rw [hnone, Option.isSome_map, List.find?_isSome]
  simp [or_and_right, exists_or, eq_comm (a := uri)]

end Library

namespace Evaluator

open Library Evaluation

variable {R : List Resource} {d : Json}

theorem forall_references_iff {P : String → Prop} :
    (∀ r ∈ (R ++ [(⟨defaultBase, d⟩ : Resource)]).flatMap (fun r => (declaredBy r).references),
        P r) ↔
      (∀ r ∈ R.flatMap (fun r => (declaredBy r).references), P r) ∧
        ∀ r ∈ (declared (d.depth + 1) defaultBase d).references, P r := by
  rw [List.flatMap_append, List.forall_mem_append, List.flatMap_singleton]
  rfl

/-- Where an evaluator is built, all references to documents lead to known ones. -/
theorem known_of_build {e : Evaluator} (h : Evaluator.build d R = .ok e) (hd : Closed d)
    (hR : ∀ r ∈ R, Closed r.contents) :
    (∀ r ∈ R.flatMap (fun r => (declaredBy r).references), Known R r) ∧ Answered (Known R) d := by
  have hextend := (extend_eq_ok_iff _ _).mp (extend_of_build h hd).1
  simp only [isSome_document?_iff hd hR] at hextend
  rcases forall_references_iff.mp hextend.2 with ⟨hresources, hreferences⟩
  exact ⟨hresources, answered_of_references hd (Nat.lt_succ_self _) hreferences⟩

/-- An evaluator is built for a conforming document that evaluation can go through, if all its
references lead to something. -/
theorem exists_build_of_sturdy {P : Nat → Prop} (hR : ∀ r ∈ R, Closed r.contents)
    (hreferences : ∀ r ∈ R.flatMap (fun r => (declaredBy r).references), Known R r)
    (hP : ∀ handle, P handle → ∃ t, documentOf R handle = some t)
    (hdocuments : ∀ handle t, documentOf R handle = some t → Sturdy t ∧ Settled P t)
    (hconforms : Metaschema.Conforms d) (hsturdy : Sturdy d) (hsettled : Settled P d)
    (hanswered : Answered (Known R) d) : ∃ e, Evaluator.build d R = .ok e := by
  have hd := hsettled.closed
  have hlibrary : Metaschema.library.extend (R ++ [⟨defaultBase, d⟩]) =
      .ok (extension Metaschema.library (R ++ [⟨defaultBase, d⟩])) := by
    refine (extend_eq_ok_iff _ _).mpr ⟨rfl, ?_⟩
    simp only [isSome_document?_iff hd hR]
    exact forall_references_iff.mpr ⟨hreferences, hanswered.references hd _⟩
  have hverified := fun fuel => exists_verify (offers_of_extend hlibrary hd hR) hP hdocuments fuel
    hsturdy hsettled
  rcases hverified _ _ [] with ⟨followed, hfollowed⟩
  exact ⟨_, build_of_findings hd.keywordText?_eq_none hlibrary hconforms.findings hfollowed⟩

end Evaluator

/-! ## Rewritten schemas -/

namespace Evaluation

variable {members : Fields Json} {s : Json}

theorem exists_reached_of_planned (h : Planned members s) :
    ∃ m ∈ members, s ∈ (reachedFrom members m.1 m.2).schemas := by
  cases h with
  | single hk hs =>
    refine ⟨_, hs, ?_⟩
    rcases List.mem_pair.mp hk with rfl | rfl <;> exact List.mem_cons_self
  | listed hk hxs hs =>
    refine ⟨_, hxs, ?_⟩
    rcases List.mem_pair.mp hk with rfl | rfl <;> exact hs
  | @named k name ss s hk hss hs =>
    have hvalue : s ∈ Fields.values ss := List.mem_map_of_mem hs
    refine ⟨_, hss, ?_⟩
    rcases List.mem_pair.mp hk with rfl | rfl <;> exact hvalue

theorem Sturdy.planned (h : Sturdy (.obj members)) (hs : Planned members s) : Sturdy s := by
  rcases exists_reached_of_planned hs with ⟨m, hm, hreached⟩
  cases h with
  | obj _ h => exact h m hm s hreached

theorem mem_subschemas_of_planned (h : Planned members s) :
    s ∈ Library.subschemas (.obj members) := by
  cases h with
  | single hk hs =>
    refine List.mem_flatMap.mpr ⟨_, hs, ?_⟩
    rcases List.mem_pair.mp hk with rfl | rfl <;> exact List.mem_cons_self
  | listed hk hxs hs =>
    refine List.mem_flatMap.mpr ⟨_, hxs, ?_⟩
    rcases List.mem_pair.mp hk with rfl | rfl <;> exact hs
  | @named k name ss s hk hss hs =>
    have hvalue : s ∈ Fields.values ss := List.mem_map_of_mem hs
    refine List.mem_flatMap.mpr ⟨_, hss, ?_⟩
    rcases List.mem_pair.mp hk with rfl | rfl <;> exact hvalue

end Evaluation

theorem Library.Answered.planned {P : String → Prop} {members : Fields Json} {s : Json}
    (h : Library.Answered P (.obj members)) (hs : Evaluation.Planned members s) :
    Library.Answered P s := by
  cases h with
  | schema _ hinner => exact hinner s (Evaluation.mem_subschemas_of_planned hs)
  | data hno => exact absurd rfl (hno members)

namespace Planning

open Evaluation Library

variable {o : Options} {r : Registry} {e : Engine}

theorem Sound.of_planned {members documents : Fields Json} {p : Plan Node} {n : Node}
    {s document : Json} (h : Sound e (.obj members) (.plan p) (.obj documents))
    (hs : Planned members s) (hplans : Plans e.context s n document) :
    ∃ n, Sound e s n document := by
  rcases h.planned hs with ⟨n', document', hsound⟩
  obtain rfl := (plans_unique (e := e) hsound.plans hplans).1
  exact ⟨n', hsound⟩

/-- What a schema that the plan follows is rewritten to. -/
def RewrittenWithin (e : Engine) (members documents : Fields Json) (y : Json) : Prop :=
  ∃ s n document, Planned members s ∧ Planned documents document ∧ Sound e s n document ∧
    Rewrites e.context.defined s y

section

variable {members documents documents' : Fields Json} {p : Plan Node}
  (h : Sound e (.obj members) (.plan p) (.obj documents))

include h

/-- What rewriting makes of a keyword differs from what planning makes of it in the schemas that
plans follow. -/
theorem Sound.exchanged_keyword {k : String} {v y z : Json} (hm : (k, v) ∈ members)
    (hy : (k, y) ∈ documents) {q q' : Plan Node} (hplans : PlansKeyword e.context (role k) v q q' y)
    (hz : k ∈ EvaluationForm.dataKeywords ∧ z = v ∨
      k ∉ EvaluationForm.dataKeywords ∧ Rewrites e.context.defined v z) :
    Exchanged (RewrittenWithin e members documents) k y z := by
  by_cases hk : k ∉ followedKeywords
  · obtain rfl := eq_of_rewrites hk hplans (fun heq => h.required (heq ▸ hm)) hz
    exact .beside hk
  have hk := not_not.mp hk
  have hdata : k ∉ EvaluationForm.dataKeywords := by
    have hapart : ∀ k ∈ followedKeywords, k ∉ EvaluationForm.dataKeywords := by decide
    exact hapart k hk
  have hv : Rewrites e.context.defined v z :=
    hz.elim (fun hyes => absurd hyes.1 hdata) (·.2)
  have hsingle : ∀ n, k ∈ ["additionalProperties", "items"] → Plans e.context v n y →
      Exchanged (RewrittenWithin e members documents) k y z := by
    intro n hk hn
    have hs : Planned members v := .single hk hm
    rcases h.of_planned hs hn with ⟨n', hsound⟩
    exact .single hk ⟨v, n', y, hs, .single hk hy, hsound, hv⟩
  have hlisted : ∀ xs nodes ys, k ∈ ["allOf", "prefixItems"] → v = .arr xs → y = .arr ys →
      PlansItems e.context xs nodes ys →
        Exchanged (RewrittenWithin e members documents) k y z := by
    rintro xs nodes ys hk rfl rfl hitems
    rcases hv.arr with ⟨zs, rfl, hzs⟩
    refine .listed hk (forall₂_imp_of_mem (forall₂_of_common (forall₂_of_plansItems hitems).2 hzs)
      ?_)
    rintro y z hmem - ⟨x, hx, ⟨n, hn⟩, hrewrites⟩
    rcases h.of_planned (.listed hk hm hx) hn with ⟨n', hsound⟩
    exact ⟨x, n', y, .listed hk hm hx, .listed hk hy hmem, hsound, hrewrites⟩
  have hnamed : ∀ ss nodes ys, k ∈ ["patternProperties", "properties"] → v = .obj ss →
      y = .obj ys → PlansEntries e.context ss nodes ys →
        Exchanged (RewrittenWithin e members documents) k y z := by
    rintro ss nodes ys hk rfl rfl hentries
    have hget : entriesOf members k = ss := by
      unfold entriesOf
      rw [Fields.get?_of_mem h.ordered.1 hm]
      rfl
    have hnames := h.regular.names (List.mem_pair.mpr (List.mem_pair.mp hk).symm)
    rw [hget] at hnames
    rcases forall₂_of_namesApart hv hnames with ⟨zs, rfl, hzs⟩
    refine .named hk (forall₂_imp_of_mem
      (forall₂_of_common (forall₂_of_plansEntries hentries).2 hzs) ?_)
    rintro y z hmem - ⟨x, hx, ⟨hname, n, hn⟩, hname', hrewrites⟩
    rcases h.of_planned (.named hk hm hx) hn with ⟨n', hsound⟩
    exact ⟨hname.symm.trans hname', x.2, n', y.2, .named hk hm hx, .named hk hy hmem, hsound,
      hrewrites⟩
  have hbool : ∀ b, k = "additionalProperties" → v = .bool b → y = .bool b →
      Exchanged (RewrittenWithin e members documents) k y z := by
    rintro b rfl rfl rfl
    exact hsingle _ (by decide) (.always b)
  generalize hρ : role k = ρ at hplans
  cases hplans with
  | properties hentries => exact hnamed _ _ _ (by simp [eq_of_role hρ rfl]) rfl rfl hentries
  | patterns hentries => exact hnamed _ _ _ (by simp [eq_of_role hρ rfl]) rfl rfl hentries
  | allowed => exact hbool _ (eq_of_role hρ rfl) rfl rfl
  | forbidden => exact hbool _ (eq_of_role hρ rfl) rfl rfl
  | additional _ hn => exact hsingle _ (by simp [eq_of_role hρ rfl]) hn
  | items _ hn => exact hsingle _ (by simp [eq_of_role hρ rfl]) hn
  | itemList _ => exact absurd (eq_of_role hρ rfl ▸ hy) (h.verified.not_itemList _)
  | leading hitems => exact hlisted _ _ _ (by simp [eq_of_role hρ rfl]) rfl rfl hitems
  | branches hitems => exact hlisted _ _ _ (by simp [eq_of_role hρ rfl]) rfl rfl hitems
  | types _ => exact absurd (eq_of_role hρ rfl ▸ hk) (by decide)
  | default => exact absurd (eq_of_role hρ rfl ▸ hk) (by decide)
  | required => exact absurd (eq_of_role hρ rfl ▸ hk) (by decide)
  | data =>
    have hno : ∀ k ∈ followedKeywords, role k ≠ .data := by decide
    exact absurd hρ (hno k hk)
  | other _ =>
    have hno : ∀ k ∈ followedKeywords, role k ≠ .other := by decide
    exact absurd hρ (hno k hk)

theorem Sound.exchanged (hrewrites : RewritesMembers e.context.defined members documents') :
    ExchangedMembers (RewrittenWithin e members documents) documents documents' := by
  have hplans := forall₂_of_plansKeywords (plansKeywords_of_plans h.plans)
  refine forall₂_imp_of_mem (forall₂_of_common hplans hrewrites) ?_
  rintro ⟨k, y⟩ ⟨k'', z⟩ hy - ⟨⟨k', v⟩, hm, ⟨hkey, q, q', hkeyword⟩, hkey', hz⟩
  obtain rfl : k' = k := hkey
  obtain rfl : k' = k'' := hkey'
  exact ⟨rfl, h.exchanged_keyword hm hy hkeyword hz⟩

end

/-- What holds of the document that a schema is planned to, whenever an evaluator is built for one,
holds of the document that it is rewritten to, if schemas inside may be exchanged. -/
theorem Sound.rewritten {Q : Json → Prop} (hr : Engine.ofRegistry o r = .ok e)
    (hreference : ∀ handle, Defined e.context.defined handle →
      Q (EvaluationForm.reference handle))
    (hexchange : ∀ ms ms', Q (.obj ms) → ExchangedMembers Q ms ms' → Q (.obj ms'))
    (hinner : ∀ ms s, Q (.obj ms) → Fields.Ordered ms → Planned ms s → Q s)
    (hbuild : ∀ t n d evaluator, Sound e t n d → followsSpecification d = true →
      Evaluator.build d e.context.resources = .ok evaluator → Q d)
    {t t' document : Json} {n : Node} (h : Sound e t n document) (hQ : Q document)
    (hrewrites : Rewrites e.context.defined t t') : Q t' := by
  generalize hdepth : t.depth = k
  induction k using Nat.strongRecOn generalizing t t' document n with
  | _ k ih =>
    subst hdepth
    cases t with
    | obj members =>
      rcases hrewrites.obj with ⟨handle, hm, rfl⟩ | ⟨f, hm, hf⟩ | ⟨hm, documents', rfl, hmembers⟩
      · exact hreference handle (hrewrites.defined_of_deferred hm)
      · rcases h.inline hr hm with ⟨n', document', hsound, hspecification⟩
        have hplanned := h.plans
        obtain rfl := members_of_inline hm
        cases hplanned with
        | deferred hm' _ => simp [hm] at hm'
        | keywords hm' _ => simp [hm] at hm'
        | inline _ hplans hevaluator =>
          obtain rfl := (plans_unique (e := e) hsound.plans hplans).1
          exact ih _ (Json.depth_lt_of_mem_obj List.mem_cons_self) hsound
            (hbuild _ _ _ _ hsound hspecification hevaluator) hf rfl
      · cases h.plans with
        | deferred hm' _ => simp [hm] at hm'
        | inline hm' _ _ => simp [hm] at hm'
        | keywords _ _ =>
          refine hexchange _ _ hQ ((h.exchanged hmembers).imp ?_)
          rintro a b ⟨hkey, hvalue⟩
          refine ⟨hkey, hvalue.mono ?_⟩
          rintro y ⟨s, n', document', hs, hdocument, hsound, hy⟩
          exact ih _ hs.depth_lt hsound (hinner _ _ hQ h.free.ordered hdocument) hy rfl
    | bool b =>
      obtain rfl := hrewrites.scalar (by simp) (by simp)
      cases h.plans with
      | always => exact hQ
    | _ => cases h.plans

/-! ## Evaluators of rewritten schemas -/

/-- An evaluator is built for the document, so long as one is for all registered ones. -/
structure Buildable (e : Engine) (d : Json) : Prop where
  conforms : Metaschema.Conforms d
  sturdy : Sturdy d
  settled : Settled (Defined e.context.defined) d
  answered : Answered (Known e.context.resources) d

/-- The registered schemas follow the specification in force, and so do those that markers in them
lead to. -/
def Current (e : Engine) : Prop :=
  ∀ handle s, e.entry? handle = some s →
    followsSpecification s.evaluator.root = true ∧ Normalization.Specified e s.root

section

variable (hr : Engine.ofRegistry o r = .ok e)

include hr

theorem exists_documentOf_of_defined {handle : Nat} (h : Defined e.context.defined handle) :
    ∃ t, documentOf e.context.resources handle = some t := by
  rcases Engine.get?_of_defined hr h with ⟨g, hg⟩
  rcases Engine.exists_documentOf hr hg with ⟨t, ht, -⟩
  exact ⟨t, ht⟩

theorem known_resourceUri {handle : Nat} (h : Defined e.context.defined handle) :
    Known e.context.resources (EvaluationForm.resourceUri handle) := by
  rcases exists_documentOf_of_defined hr h with ⟨t, ht⟩
  rcases Option.map_eq_some_iff.mp ht with ⟨resource, hfind, -⟩
  have huri : resource.uri = EvaluationForm.resourceUri handle := by
    simpa using List.find?_some hfind
  have hmem := List.mem_reverse.mp (List.mem_of_find?_eq_some hfind)
  unfold Known
  rw [EvaluationForm.withoutFragment_resourceUri, ← huri]
  exact List.mem_cons_of_mem _ (List.mem_map_of_mem (List.mem_append_left _ hmem))

variable (hclosed : ∀ resource ∈ e.context.resources, Closed resource.contents)

include hclosed

theorem Sound.buildable {t t' document : Json} {n : Node} {evaluator : Evaluator}
    (h : Sound e t n document)
    (hbuild : Evaluator.build document e.context.resources = .ok evaluator)
    (hrewrites : Rewrites e.context.defined t t') : Buildable e t' where
  conforms := h.rewritten hr
    (fun _ _ => Metaschema.conforms_of_accepted (Metaschema.accepted_reference _))
    (fun _ _ => Metaschema.Conforms.exchange) (fun _ _ => Metaschema.Conforms.planned)
    (fun _ _ _ _ h _ _ => h.conforms) h.conforms hrewrites
  sturdy := h.rewritten hr (fun handle _ => sturdy_reference handle)
    (fun _ _ => Sturdy.exchange) (fun _ _ h _ => h.planned)
    (fun _ _ _ _ h _ _ => h.verified.sturdy) h.verified.sturdy hrewrites
  settled := hrewrites.settled h.unreferenced
  answered := h.rewritten hr (fun _ hdefined => answered_reference (known_resourceUri hr hdefined))
    (fun _ _ => Answered.exchange) (fun _ _ h _ => h.planned)
    (fun _ _ _ _ h _ hbuild =>
      (Evaluator.known_of_build hbuild (h.plans.closed h.unreferenced) hclosed).2)
    (Evaluator.known_of_build hbuild (h.plans.closed h.unreferenced) hclosed).2 hrewrites

variable (hregistry : Regulated r) (hcurrent : Current e)

omit hclosed in
include hregistry hcurrent in
/-- What a registered schema is planned to, an evaluator has been built for. -/
theorem exists_sound_of_get? {handle : Nat} {g : Fragment} (hg : r.get? handle = some g) :
    ∃ n document evaluator, Sound e g.document n document ∧
      Evaluator.build document e.context.resources = .ok evaluator := by
  rcases exists_of_rel (rel_symm (Engine.rel_entry? hr handle)) hg with
    ⟨s, hs, document, hplans, hbuild⟩
  rcases hcurrent handle s hs with ⟨hspecification, hspecified⟩
  rcases hregistry handle g hg with ⟨hordered, hunreferenced, hregular⟩
  exact ⟨s.root, document, s.evaluator,
    ⟨⟨hordered, hunreferenced, hplans, (verified_of_build hbuild hspecification).2, hspecified⟩,
      Metaschema.conforms_of_build hbuild, hregular⟩, hbuild⟩

include hregistry hcurrent in
theorem buildable_of_documentOf {handle : Nat} {d : Json}
    (h : documentOf e.context.resources handle = some d) : Buildable e d := by
  rcases exists_resource_of_documentOf h with ⟨resource, hresource, rfl⟩
  rcases Engine.exists_handle_of_resource hr hresource with ⟨_, g, hg, -, hrewrites⟩
  rcases exists_sound_of_get? hr hregistry hcurrent hg with ⟨n, document, evaluator, hsound, hbuild⟩
  exact hsound.buildable hr hclosed hbuild hrewrites

include hregistry hcurrent in
theorem Buildable.exists_build {d : Json} (h : Buildable e d)
    (hreferences : ∀ reference ∈ e.context.resources.flatMap (fun r => (declaredBy r).references),
      Known e.context.resources reference) :
    ∃ evaluator, Evaluator.build d e.context.resources = .ok evaluator :=
  Evaluator.exists_build_of_sturdy hclosed hreferences
    (fun _ => exists_documentOf_of_defined hr)
    (fun _ _ hd => ⟨(buildable_of_documentOf hr hclosed hregistry hcurrent hd).sturdy,
      (buildable_of_documentOf hr hclosed hregistry hcurrent hd).settled⟩)
    h.conforms h.sturdy h.settled h.answered

end

end Planning

/-! ## Schemas with one keyword -/

namespace Evaluation

theorem contains_singleton {k : String} {v : Json} (hk : k ∉ referring) :
    ∀ keyword ∈ referring, Fields.contains [(k, v)] keyword = false := by
  intro keyword hkeyword
  have hne : k ≠ keyword := fun heq => hk (heq ▸ hkeyword)
  simp [Fields.contains, Fields.get?_cons, Fields.get?_nil, hne]

theorem exists_of_inner_properties {schemas : Fields Json} {s : Json}
    (h : Inner [("properties", .obj schemas)] s) : ∃ name, (name, s) ∈ schemas := by
  cases h with
  | single hk hs => exact absurd ((Prod.mk.inj (List.mem_singleton.mp hs)).1 ▸ hk) (by decide)
  | listed hk hxs hs => exact nomatch (Prod.mk.inj (List.mem_singleton.mp hxs)).2
  | named hk hss hs =>
    obtain rfl := Json.obj.inj (Prod.mk.inj (List.mem_singleton.mp hss)).2
    exact ⟨_, hs⟩

theorem mem_of_inner_anyOf {schemas : List Json} {s : Json}
    (h : Inner [("anyOf", .arr schemas)] s) : s ∈ schemas := by
  cases h with
  | single hk hs => exact absurd ((Prod.mk.inj (List.mem_singleton.mp hs)).1 ▸ hk) (by decide)
  | listed hk hxs hs =>
    obtain rfl := Json.arr.inj (Prod.mk.inj (List.mem_singleton.mp hxs)).2
    exact hs
  | named hk hss hs => exact nomatch (Prod.mk.inj (List.mem_singleton.mp hss)).2

end Evaluation

namespace Planning

open Evaluation Library

variable {e : Engine}

namespace Buildable

/-- A keyword that neither identifies nor refers adds nothing but what it holds. -/
theorem singleton {k : String} {v : Json} (hk : k ∉ "$schema" :: referring)
    (hconforms : Metaschema.Conforms (.obj [(k, v)])) (hshape : misshapen? k v = none)
    (hpatterns : (reachedFrom [(k, v)] k v).patterns = [])
    (h : ∀ s, Inner [(k, v)] s → Buildable e s) : Buildable e (.obj [(k, v)]) where
  conforms := hconforms
  sturdy := by
    refine .obj (fun m hm => ?_) (fun m hm s hs => (h s (inner_of_reachedFrom hm hs)).sturdy)
    obtain rfl := List.mem_singleton.mp hm
    refine ⟨hshape, fun source hsource => ?_⟩
    rw [hpatterns] at hsource
    cases hsource
  settled := .schema (contains_singleton (fun hmem => hk (List.mem_cons_of_mem _ hmem)))
    (fun s hs => (h s hs).settled)
  answered := by
    refine .schema (fun reference hreference => ?_) (fun s hs => ?_)
    · have htext : ∀ keyword ∈ ["$ref", "$schema"],
          keywordText? (.obj [(k, v)]) keyword = none := by
        intro keyword hkeyword
        have hne : k ≠ keyword := by
          rintro rfl
          rcases List.mem_pair.mp hkeyword with rfl | rfl <;> exact hk (by decide)
        simp [keywordText?, Json.get?, Fields.get?_cons, Fields.get?_nil, hne]
      unfold declaredHere at hreference
      dsimp only at hreference
      rw [htext "$ref" (by decide), htext "$schema" (by decide)] at hreference
      split at hreference <;> cases hreference
    · rcases inner_of_mem_subschemas hs with ⟨_, ⟨⟩, hinner⟩
      exact (h s hinner).answered

theorem properties {schemas : Fields Json} (h : ∀ m ∈ schemas, Buildable e m.2) :
    Buildable e (.obj [("properties", .obj schemas)]) := by
  refine singleton (by decide) (Metaschema.conforms_properties (fun m hm => (h m hm).conforms)) rfl
    rfl (fun s hs => ?_)
  rcases exists_of_inner_properties hs with ⟨name, hs⟩
  exact h _ hs

theorem anyOf {schemas : List Json} (hne : schemas ≠ []) (h : ∀ s ∈ schemas, Buildable e s) :
    Buildable e (.obj [("anyOf", .arr schemas)]) := by
  exact singleton (by decide) (Metaschema.conforms_anyOf hne (fun s hs => (h s hs).conforms)) rfl
    rfl (fun s hs => h s (mem_of_inner_anyOf hs))

end Buildable

end Planning

end HttpContract
