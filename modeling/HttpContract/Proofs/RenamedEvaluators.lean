import HttpContract.Proofs.Blindness
import HttpContract.Proofs.RenamedLibraries

/-!
# Evaluators under a renaming of handles

When handles are renamed, what evaluation can reach from a document is checked alike
(`alike_verify`), so evaluators are built for the same documents, and they accept the same values
(`alike_build`).
-/

namespace HttpContract

open EvaluationForm Evaluation Library Json Identifier

variable {π : Nat → Nat}

/-! ## What evaluation reaches -/

/-- What evaluation reaches from a keyword, and what it reaches when handles are renamed. -/
structure Evaluation.Reached.Linked (π : Nat → Nat) (a b : Reached) : Prop where
  patterns : b.patterns = a.patterns
  references : b.references = a.references.map (rename π)
  readable : ∀ r ∈ a.references, Readable r
  schemas : List.Forall₂ (HttpContract.Linked π) a.schemas b.schemas

theorem Linked.isSchema {d d' : Json} (h : Linked π d d') : d'.isSchema = d.isSchema := by
  rcases h with ⟨-, k, rfl⟩
  cases d <;> simp [relinkAt_str, Json.isSchema]

theorem misshapen?_relinkAt (k : String) (arg : Json) :
    (misshapen? k (relinkAt (rename π) k arg)).isNone = (misshapen? k arg).isNone := by
  unfold misshapen?
  cases arg with
  | obj ms => rw [relinkAt_obj]
  | str s =>
    rw [relinkAt_str]
    dsimp only
    split <;> rfl
  | arr xs =>
    rw [relinkAt_arr]
    dsimp only
    split <;> rfl
  | _ => rfl

theorem forall₂_items_getD {arg : Json} (h : Tame arg) (k : String) :
    List.Forall₂ (Linked π) ((arg.items?).getD [])
      (((relinkAt (rename π) k arg).items?).getD []) := by
  cases arg with
  | arr xs =>
    rw [relinkAt_arr]
    exact forall₂_items h
  | str s => rw [relinkAt_str]; exact .nil
  | obj ms => rw [relinkAt_obj]; exact .nil
  | _ => exact .nil

theorem forall₂_values_getD {arg : Json} (h : Tame arg) (k : String) :
    List.Forall₂ (Linked π) (Fields.values ((arg.members?).getD []))
      (Fields.values (((relinkAt (rename π) k arg).members?).getD [])) := by
  cases arg with
  | obj ms =>
    rw [relinkAt_obj]
    exact forall₂_values h
  | str s => rw [relinkAt_str]; exact .nil
  | arr xs => rw [relinkAt_arr]; exact .nil
  | _ => exact .nil

/-- Corresponding keywords reach the same. -/
theorem linked_reachedFrom {members : Fields Json} (h : Tame (.obj members)) {k : String}
    {arg : Json} (hm : (k, arg) ∈ members) :
    (reachedFrom members k arg).Linked π
      (reachedFrom (relinkMembers (rename π) members) k (relinkAt (rename π) k arg)) := by
  have harg := h.of_mem_obj hm
  have hschemas : ∀ {ss ss' : List Json}, List.Forall₂ (Linked π) ss ss' →
      Reached.Linked π ⟨[], [], ss⟩ ⟨[], [], ss'⟩ :=
    fun hss => ⟨rfl, rfl, fun _ hr => absurd hr List.not_mem_nil, hss⟩
  have hself : ∀ k, List.Forall₂ (Linked π) [arg] [relinkAt (rename π) k arg] :=
    fun k => .cons (.relinkAt harg k) .nil
  have hreferences : ∀ k ∈ ["$ref", "$dynamicRef"], (k, arg) ∈ members →
      Reached.Linked π ⟨[], arg.text?.toList, []⟩
        ⟨[], (relinkAt (rename π) k arg).text?.toList, []⟩ := by
    intro k hk hm
    cases arg with
    | str r =>
      rw [relinkAt_str]
      rcases List.mem_pair.mp hk with rfl | rfl
      · refine ⟨rfl, rfl, fun r' hr => ?_, .nil⟩
        exact List.mem_singleton.mp hr ▸ h.members.references r hm
      · have hspells := h.members.others "$dynamicRef" (by decide) r hm
        refine ⟨rfl, ?_, fun r' hr => ?_, .nil⟩
        · exact congrArg (fun s => [s]) (rename_of_not_spells hspells).symm
        · exact List.mem_singleton.mp hr ▸ Or.inr hspells
    | arr xs => rw [relinkAt_arr]; exact hschemas .nil
    | obj ms => rw [relinkAt_obj]; exact hschemas .nil
    | _ => exact hschemas .nil
  unfold reachedFrom
  split
  · exact hreferences "$ref" (by decide) hm
  · exact hreferences "$dynamicRef" (by decide) hm
  · refine ⟨?_, rfl, fun _ hr => absurd hr List.not_mem_nil, .nil⟩
    cases arg with
    | str s => rw [relinkAt_str, if_neg (by decide)]
    | arr xs => rw [relinkAt_arr]; rfl
    | obj ms => rw [relinkAt_obj]; rfl
    | _ => rfl
  · refine ⟨?_, rfl, fun _ hr => absurd hr List.not_mem_nil, forall₂_values_getD harg _⟩
    rw [members?_relinkAt]
    cases arg.members? with
    | none => rfl
    | some ms => exact keys_relinkMembers ms
  · exact hschemas (hself _)
  · exact hschemas (forall₂_items_getD harg _)
  · exact hschemas (forall₂_items_getD harg _)
  · exact hschemas (forall₂_items_getD harg _)
  · exact hschemas (forall₂_items_getD harg _)
  · exact hschemas (hself _)
  · exact hschemas (hself _)
  · exact hschemas (hself _)
  · exact hschemas (hself _)
  · exact hschemas (hself _)
  · exact hschemas (hself _)
  · exact hschemas (List.rel_filter (fun d d' hd => by dsimp only; rw [hd.isSchema])
      (forall₂_values_getD harg _))
  · exact hschemas (forall₂_values_getD harg _)
  · exact hschemas (forall₂_values_getD harg _)
  · have hnext : List.Forall₂ (Linked π) (["then", "else"].filterMap (Fields.get? members))
        (["then", "else"].filterMap (Fields.get? (relinkMembers (rename π) members))) := by
      have hbranch : ∀ k, List.Forall₂ (Linked π) (Fields.get? members k).toList
          (Fields.get? (relinkMembers (rename π) members) k).toList := by
        intro k
        rw [get?_relinkMembers]
        cases hget : Fields.get? members k with
        | none => exact .nil
        | some s => exact .cons (.relinkAt (h.of_mem_obj (Fields.mem_of_get? hget)) k) .nil
      rw [List.filterMap_eq_flatMap_toList, List.filterMap_eq_flatMap_toList]
      exact forall₂_flatMap (fun k _ => hbranch k)
    refine hschemas ?_
    rw [← isEmpty_of_forall₂ hnext]
    split
    · exact .nil
    · exact .cons (.relinkAt harg _) hnext
  · exact hschemas .nil

/-! ## Checking what is reached -/

/-- A reference that has been followed, after handles are renamed. -/
noncomputable def renamed (π : Nat → Nat) (b : String × String) : String × String :=
  (rename π b.1, rename π b.2)

/-- The same references have been followed. -/
def SameFollowed (π : Nat → Nat) (a b : Followed) : Prop := b = a.map (renamed π)

section

variable (hπ : Function.Injective π) {l l' : Library} (hl : l.Renamed π l')
  {check check' : Scope → Followed → Json → Except SchemaFault Followed}
  (hcheck : ∀ (s : Scope) (followed : Followed) {d d' : Json}, Linked π d d' →
    Alike (SameFollowed π) (check s followed d)
      (check' (s.rename π) (followed.map (renamed π)) d'))

include hπ

theorem renamed_injective : Function.Injective (renamed π) := by
  rintro ⟨a, b⟩ ⟨a', b'⟩ h
  obtain ⟨ha, hb⟩ := Prod.mk.inj h
  exact Prod.ext (rename_inj hπ ha) (rename_inj hπ hb)

include hl hcheck

theorem alike_verifyReference (s : Scope) {r : String} (hr : Readable r) (followed : Followed) :
    Alike (SameFollowed π) (verifyReference l check s followed r)
      (verifyReference l' check' (s.rename π) (followed.map (renamed π)) (rename π r)) := by
  have hcontains : (followed.map (renamed π)).contains ((s.rename π).base, rename π r) =
      followed.contains (s.base, r) := by
    rw [Bool.eq_iff_iff, List.contains_iff_mem, List.contains_iff_mem]
    show renamed π (s.base, r) ∈ _ ↔ _
    exact List.mem_map_of_injective (renamed_injective hπ)
  have hlookup := alike_lookup hπ hl hr s
  unfold verifyReference
  rw [hcontains]
  split
  · exact .ok rfl
  · generalize l.lookup s r = x at hlookup ⊢
    generalize l'.lookup (s.rename π) (rename π r) = x' at hlookup ⊢
    cases hlookup with
    | error e e' => exact .error _ _
    | @ok b b' hb =>
      rcases b with ⟨t, inner⟩
      rcases b' with ⟨t', inner'⟩
      obtain rfl : inner' = inner.rename π := hb.2
      exact hcheck inner ((s.base, r) :: followed) hb.1

theorem alike_verifyKeyword (s : Scope) {members : Fields Json} (h : Tame (.obj members))
    {k : String} {arg : Json} (hm : (k, arg) ∈ members) (followed : Followed) :
    Alike (SameFollowed π) (verifyKeyword l check s members followed (k, arg))
      (verifyKeyword l' check' (s.rename π) (relinkMembers (rename π) members)
        (followed.map (renamed π)) (k, relinkAt (rename π) k arg)) := by
  have hreached : Reached.Linked π _ _ := linked_reachedFrom h hm
  have hshape : (misshapen? k (relinkAt (rename π) k arg)).isNone = _ := misshapen?_relinkAt k arg
  unfold verifyKeyword
  show Alike _ (if !s.known && !universal.contains k then _ else _)
    (if !s.known && !universal.contains k then _ else _)
  split
  · exact .ok rfl
  · dsimp only
    generalize misshapen? k arg = fault at hshape ⊢
    generalize misshapen? k (relinkAt (rename π) k arg) = fault' at hshape ⊢
    cases fault with
    | some v =>
      cases fault' with
      | some v' => exact .error _ _
      | none => cases hshape
    | none =>
      cases fault' with
      | some v' => cases hshape
      | none =>
        generalize reachedFrom members k arg = reached at hreached ⊢
        generalize reachedFrom (relinkMembers (rename π) members) k (relinkAt (rename π) k arg) =
          reached' at hreached ⊢
        dsimp only
        rw [hreached.patterns]
        split
        · exact .error _ _
        · have hreferences : List.Forall₂ (fun r r' => Readable r ∧ r' = rename π r)
              reached.references reached'.references := by
            rw [hreached.references, List.forall₂_map_right_iff]
            exact List.forall₂_same.mpr (fun r hr => ⟨hreached.readable r hr, rfl⟩)
          refine Alike.bind (R := SameFollowed π) (Alike.foldlM hreferences ?_ rfl)
            (fun a b hab => ?_)
          · rintro a b r r' rfl ⟨hr, rfl⟩
            exact alike_verifyReference hπ hl hcheck s hr a
          · refine Alike.foldlM hreached.schemas ?_ hab
            rintro a b d d' rfl hd
            exact hcheck s a hd

end

/-- Corresponding schemas are checked alike in corresponding libraries. -/
theorem alike_verify (hπ : Function.Injective π) {l l' : Library} (hl : l.Renamed π l') :
    ∀ (fuel : Nat) (s : Scope) (followed : Followed) {d d' : Json}, Linked π d d' →
      Alike (SameFollowed π) (verify l fuel s followed d)
        (verify l' fuel (s.rename π) (followed.map (renamed π)) d')
  | 0, _, _, _, _, _ => .ok rfl
  | fuel + 1, s, followed, d, d', h => by
    rw [verify_succ, verify_succ, h.isSchema, Scope.within_rename hπ s h]
    split
    · rcases h with ⟨htame, k, rfl⟩
      cases d with
      | obj members =>
        rw [relinkAt_obj]
        have hmembers : List.Forall₂ (fun m m' => m ∈ members ∧ m' = (m.1, relinkAt (rename π) m.1 m.2))
            members (relinkMembers (rename π) members) := by
          rw [relinkMembers_eq, List.forall₂_map_right_iff]
          exact List.forall₂_same.mpr (fun m hm => ⟨hm, rfl⟩)
        refine Alike.foldlM hmembers ?_ rfl
        rintro a b m m' rfl ⟨hm, rfl⟩
        exact alike_verifyKeyword hπ hl (alike_verify hπ hl fuel) _ htame hm a
      | bool b => exact .ok rfl
      | str s => rw [relinkAt_str]; exact .ok rfl
      | arr xs => rw [relinkAt_arr]; exact .ok rfl
      | _ => exact .ok rfl
    · exact .error _ _

/-! ## Building evaluators -/

/-- The identifier under which an evaluator has its schema. -/
def baseFor (d : Json) : String :=
  match keywordText? d "$id" with
  | some id => trimmed id
  | none => Evaluator.defaultBase

theorem Internal.spells {uri : String} (h : Internal uri) : Spells uri := by
  rcases h with ⟨handle, t, -, rfl⟩
  exact spells_extended handle t

theorem not_spells_defaultBase : ¬ Spells Evaluator.defaultBase := by decide +kernel

theorem linked_base {d d' : Json} (h : Linked π d d') :
    Resource.Linked π ⟨baseFor d, d⟩ ⟨baseFor d', d'⟩ := by
  refine ⟨?_, h⟩
  show baseFor d' = rename π (baseFor d)
  unfold baseFor
  rw [h.keyword_eq (by decide)]
  cases hid : keywordText? d "$id" with
  | none => exact (rename_of_not_spells not_spells_defaultBase).symm
  | some id =>
    have hspells := h.1.not_spells (by decide) hid
    exact (rename_of_not_internal π (fun hinternal =>
      hspells (Internal.spells (internal_of_trimmed hinternal)))).symm

theorem build_eq (d : Json) (resources : List Resource) : Evaluator.build d resources =
    match Metaschema.library.extend (resources ++ [⟨baseFor d, d⟩]) with
    | .error e => .error (.reference e)
    | .ok library =>
      match Metaschema.evaluator.findings d with
      | f :: _ => .error (.violates f.violation)
      | [] => (verify library ((⟨library, baseFor d, d⟩ : Evaluator).steps .null *
          (⟨library, baseFor d, d⟩ : Evaluator).steps .null)
          (⟨library, baseFor d, d⟩ : Evaluator).start.scope [] d).map
          (fun _ => ⟨library, baseFor d, d⟩) := by
  unfold Evaluator.build
  generalize Metaschema.evaluator.findings d = found
  show (match Metaschema.library.extend (resources ++ [⟨baseFor d, d⟩]) with
    | .error e => _
    | .ok library => _) = _
  cases Metaschema.library.extend (resources ++ [⟨baseFor d, d⟩]) with
  | error e => rfl
  | ok library =>
    cases found with
    | cons f rest => rfl
    | nil =>
      dsimp only
      show (verify library ((⟨library, baseFor d, d⟩ : Evaluator).steps .null *
          (⟨library, baseFor d, d⟩ : Evaluator).steps .null)
          (⟨library, baseFor d, d⟩ : Evaluator).start.scope [] d >>=
          fun _ => pure (⟨library, baseFor d, d⟩ : Evaluator)) = _
      generalize verify library _ _ [] d = verified
      cases verified <;> rfl

/-- Evaluators that accept the same values. -/
def Agreeing (e e' : Evaluator) : Prop := ∀ v, e.accepts v = e'.accepts v

theorem renames_start {l l' : Library} {d d' : Json} (h : Linked π d d') :
    Renames π (⟨l, baseFor d, d⟩ : Evaluator).start.scope
      (⟨l', baseFor d', d'⟩ : Evaluator).start.scope := by
  show (⟨baseFor d', [], followsSpecification d'⟩ : Scope) = _
  have hbase : baseFor d' = rename π (baseFor d) := (linked_base h).1
  rw [hbase, h.followsSpecification]
  rfl

section

variable (hπ : Function.Injective π) {l l' : Library} (hl : Library.Twins π l l') {d d' : Json}
  (h : Linked π d d')

include hl h

theorem steps_eq (v : Json) : (⟨l', baseFor d', d'⟩ : Evaluator).steps v =
    (⟨l, baseFor d, d⟩ : Evaluator).steps v := by
  rcases h with ⟨-, k, rfl⟩
  unfold Evaluator.steps
  dsimp only
  rw [hl.size, size_relinkAt]

include hπ

theorem agreeing_of_twins : Agreeing ⟨l, baseFor d, d⟩ ⟨l', baseFor d', d'⟩ := by
  intro v
  unfold Evaluator.accepts Evaluator.findings
  rw [steps_eq hl h]
  exact (match_rules hπ hl.renamed _ v h).valid _ _ (renames_start h)

end

/-- Evaluators are built for corresponding documents alike, and accept the same values. -/
theorem alike_build (hπ : Function.Injective π) {resources order resources' : List Resource}
    (hperm : resources.Perm order) (hapart : resources.Pairwise Library.Apart)
    (hlinked : List.Forall₂ (Resource.Linked π) order resources') {d d' : Json}
    (h : Linked π d d') :
    Alike Agreeing (Evaluator.build d resources) (Evaluator.build d' resources') := by
  have hextend := alike_extend hπ (twins_metaschema hπ) hperm hapart hlinked (linked_base h)
  have hfindings : (Metaschema.evaluator.findings d').isEmpty =
      (Metaschema.evaluator.findings d).isEmpty := by
    rcases h with ⟨-, k, rfl⟩
    exact Metaschema.isEmpty_findings_relinkAt (fun _ _ => rename_inj hπ) k d
  rw [build_eq, build_eq]
  generalize Metaschema.library.extend (resources ++ [⟨baseFor d, d⟩]) = x at hextend ⊢
  generalize Metaschema.library.extend (resources' ++ [⟨baseFor d', d'⟩]) = x' at hextend ⊢
  generalize Metaschema.evaluator.findings d = found at hfindings ⊢
  generalize Metaschema.evaluator.findings d' = found' at hfindings ⊢
  cases hextend with
  | error e e' => exact .error _ _
  | @ok l l' hl =>
    cases found with
    | cons f rest =>
      cases found' with
      | cons f' rest' => exact .error _ _
      | nil => cases hfindings
    | nil =>
      cases found' with
      | cons f' rest' => cases hfindings
      | nil =>
        dsimp only
        rw [steps_eq hl h, renames_start h]
        exact (alike_verify hπ hl.renamed _ _ [] h).map (fun _ _ _ => agreeing_of_twins hπ hl h)

end HttpContract
