import HttpContract.Proofs.Composition

/-!
# What schemas have looked at

`unevaluatedProperties` and `unevaluatedItems` depend on the members and items that a schema has
looked at. Where its parts hold, these are the ones it has schemas for, those that the branches of
`allOf` have looked at, and those that keywords beside have (`seesKey_obj_iff`,
`seesIndex_obj_iff`). Schemas that differ only inside their parts have therefore looked at the same
(`Related.seeAlike`).
-/

namespace HttpContract.Evaluation

open Library

variable {R : List Resource} {members : Fields Json} {s v x : Json} {p : Place} {k : String}

section Seen

variable (hR : Grounded R) (hfree : Free members)

include hR hfree

omit hR hfree in
theorem mem_under_iff {b : Place × Json} :
    b ∈ ((Fields.get? members k).map (branches p k)).getD [] ↔ ∃ (i : Nat) (s : Json),
      (itemsOf members k)[i]? = some s ∧ b = (p.entry k (toString i), s) := by
  unfold itemsOf
  cases Fields.get? members k with
  | none => simp
  | some arg =>
    rw [Option.map_some, Option.getD_some, Option.bind_some]
    cases arg with
    | arr xs => exact mem_branches_iff
    | _ =>
      refine iff_of_false List.not_mem_nil ?_
      rintro ⟨i, s, hs, -⟩
      simp [Json.items?] at hs

omit hfree in
/-- Where the branches of `allOf` hold, what they have looked at counts. -/
theorem mem_inPlace_iff {α : Type} {seen : Place → Json → Json → List α} (hfree : Free members)
    (hseen : ∀ s, Closed s → ∀ q q' : Place, q.scope.known = q'.scope.known →
      seen q s v = seen q' s v)
    (hbranches : ∀ s ∈ itemsOf members "allOf", Holds R s v) {a : α} :
    a ∈ inPlace (libraryOf R) (limit (libraryOf R)) seen origin members v ↔
      (∃ s ∈ itemsOf members "allOf", a ∈ seen origin s v) ∨
        a ∈ inPlace (libraryOf R) (limit (libraryOf R)) seen origin (beside members) v := by
  have hget : ∀ k, k ∉ followedKeywords →
      Fields.get? (beside members) k = Fields.get? members k :=
    fun k hk => get?_beside_of_not_mem hk
  have hnoBranches : Fields.get? (beside members) "allOf" = none := by
    rw [get?_beside, if_pos (by decide)]
  have hnone : ∀ k ∈ referring, Fields.get? members k = none :=
    fun k hk => Option.not_isSome_iff_eq_none.mp (by simpa [Fields.contains] using hfree.keys k hk)
  have hclosed : ∀ s ∈ itemsOf members "allOf", Closed s :=
    fun s hs => hfree.closed_of_mem_itemsOf (by decide) hs
  have hall : (((Fields.get? members "allOf").map (branches origin "allOf")).getD []).all
      (fun b => (limit (libraryOf R)).valid b.1 b.2 v) = true := by
    refine List.all_eq_true.mpr (fun b hb => ?_)
    rcases mem_under_iff.mp hb with ⟨i, s, hs, rfl⟩
    have hmem := List.mem_of_getElem? hs
    exact (valid_iff hR (hclosed s hmem) (by rfl)).mpr (hbranches s hmem)
  have hlook : a ∈ (((Fields.get? members "allOf").map (branches origin "allOf")).getD []).flatMap
      (fun b => seen b.1 b.2 v) ↔ ∃ s ∈ itemsOf members "allOf", a ∈ seen origin s v := by
    rw [List.mem_flatMap]
    constructor
    · rintro ⟨b, hb, ha⟩
      rcases mem_under_iff.mp hb with ⟨i, s, hs, rfl⟩
      have hmem := List.mem_of_getElem? hs
      have heq := hseen s (hclosed s hmem) (origin.entry "allOf" (toString i)) origin rfl
      exact ⟨s, hmem, heq ▸ ha⟩
    · rintro ⟨s, hmem, ha⟩
      rcases List.mem_iff_getElem?.mp hmem with ⟨i, hs⟩
      have heq := hseen s (hclosed s hmem) (origin.entry "allOf" (toString i)) origin rfl
      exact ⟨_, mem_under_iff.mpr ⟨i, s, hs, rfl⟩, heq.symm ▸ ha⟩
  unfold inPlace
  dsimp only
  rw [hall, if_pos rfl]
  simp only [hget "anyOf" (by decide), hget "oneOf" (by decide), hget "if" (by decide),
    hget "then" (by decide), hget "else" (by decide), hget "$ref" (by decide),
    hget "$dynamicRef" (by decide), hnone "$ref" (by decide), hnone "$dynamicRef" (by decide),
    hnoBranches, List.mem_append, hlook, List.flatMap_cons, List.flatMap_nil,
    Option.bind_none, Option.map_none, Option.getD_none, List.append_nil, List.not_mem_nil,
    List.all_nil, if_true, false_or, or_assoc]

omit hR hfree in
theorem Free.beside (hfree : Free members) : Free (beside members) where
  ordered := List.Pairwise.filter _ hfree.ordered
  named := by
    rw [entriesOf_beside, if_pos (by decide)]
    exact List.Pairwise.nil
  keys k hk := by
    rw [Fields.contains, get?_beside]
    split
    · rfl
    · exact hfree.keys k hk
  inner s hs := by
    have hsub : ∀ {m}, m ∈ Evaluation.beside members → m ∈ members :=
      fun hm => (List.mem_filter.mp hm).1
    refine hfree.inner s ?_
    cases hs with
    | single hk hs => exact .single hk (hsub hs)
    | listed hk hxs hs => exact .listed hk (hsub hxs) hs
    | named hk hss hs => exact .named hk (hsub hss) hs

/-- The members that a schema has looked at, by the keyword that has. -/
theorem mem_seenKeys_iff {entries : Fields Json} {name : String} :
    name ∈ seenKeys (libraryOf R) (limit (libraryOf R)) origin (.obj members) (.obj entries) ↔
      (∃ s x, (name, s) ∈ entriesOf members "properties" ∧ Fields.get? entries name = some x ∧
        Holds R s x) ∨
      (∃ x, (name, x) ∈ entries ∧ ∃ e ∈ entriesOf members "patternProperties",
        Pattern.found e.1 name = true ∧ Holds R e.2 x) ∨
      (∃ k ∈ ["additionalProperties", "unevaluatedProperties"], ∃ s x,
        Fields.get? members k = some s ∧ (name, x) ∈ entries ∧ Holds R s x) ∨
      (∃ m ∈ entriesOf members "dependentSchemas",
        Fields.contains entries m.1 = true ∧ SeesKey R m.2 (.obj entries) name) ∨
      name ∈ inPlace (libraryOf R) (limit (libraryOf R)) (limit (libraryOf R)).keys origin members
        (.obj entries) := by
  unfold seenKeys
  dsimp only
  rw [hfree.within]
  simp only [List.mem_append, List.mem_flatMap, or_assoc]
  refine or_congr ?_ (or_congr ?_ (or_congr ?_ (or_congr ?_ Iff.rfl)))
  · -- schemas for the name
    constructor
    · rintro ⟨⟨n, s⟩, hs, hname⟩
      cases hget : Fields.get? entries n with
      | none => simp [hget] at hname
      | some x =>
        simp only [hget] at hname
        split at hname
        · next hvalid =>
          obtain rfl := List.mem_singleton.mp hname
          have hclosed : Closed s := hfree.closed_of_mem_entriesOf (by decide) hs
          exact ⟨s, x, hs, hget, (valid_iff hR hclosed (by rfl)).mp hvalid⟩
        · cases hname
    · rintro ⟨s, x, hs, hget, hholds⟩
      have hclosed : Closed s := hfree.closed_of_mem_entriesOf (by decide) hs
      refine ⟨(name, s), hs, ?_⟩
      simp only [hget]
      rw [if_pos ((valid_iff hR hclosed (by rfl)).mpr hholds)]
      exact List.mem_singleton_self _
  · -- schemas for patterns in the name
    constructor
    · rintro ⟨⟨n, x⟩, hx, hname⟩
      dsimp only at hname
      split at hname
      · next hany =>
        obtain rfl := List.mem_singleton.mp hname
        rcases List.any_eq_true.mp hany with ⟨b, hb, hvalid⟩
        rcases List.mem_map.mp hb with ⟨e, he, rfl⟩
        rcases List.mem_filter.mp he with ⟨he, hfound⟩
        exact ⟨x, hx, e, he, hfound,
          (valid_iff hR (hfree.closed_of_mem_entriesOf (by decide) he) (by rfl)).mp hvalid⟩
      · cases hname
    · rintro ⟨x, hx, e, he, hfound, hholds⟩
      refine ⟨(name, x), hx, ?_⟩
      dsimp only
      rw [if_pos]
      · exact List.mem_singleton_self _
      · exact List.any_eq_true.mpr ⟨_, List.mem_map.mpr ⟨e, List.mem_filter.mpr ⟨he, hfound⟩, rfl⟩,
          (valid_iff hR (hfree.closed_of_mem_entriesOf (by decide) he) (by rfl)).mpr hholds⟩
  · -- schemas for whatever else there is
    refine exists_congr (fun k => and_congr_right (fun hk => ?_))
    have hk : k ∈ schemaKeywords := by
      rcases List.mem_pair.mp hk with rfl | rfl <;> decide
    cases hget : Fields.get? members k with
    | none => simp
    | some s =>
      have hinner := hfree.inner s (.single hk (Fields.mem_of_get? hget))
      rw [Option.map_some, Option.getD_some, List.mem_map]
      constructor
      · rintro ⟨⟨n, x⟩, hx, rfl⟩
        rcases List.mem_filter.mp hx with ⟨hx, hvalid⟩
        exact ⟨s, x, rfl, hx, (valid_iff hR hinner (by rfl)).mp hvalid⟩
      · rintro ⟨_, x, heq, hx, hholds⟩
        obtain rfl := Option.some.inj heq
        exact ⟨(name, x), List.mem_filter.mpr ⟨hx, (valid_iff hR hinner (by rfl)).mpr hholds⟩, rfl⟩
  · -- schemas for the value itself, if it has a member
    refine exists_congr (fun m => and_congr_right (fun hm => ?_))
    have hinner := hfree.closed_of_mem_entriesOf (by decide) hm
    split
    · next hcontains =>
      rw [mem_keys_iff hR hinner (by rfl)]
      simp [hcontains]
    · next hcontains => simp [hcontains]

/-- The members that keywords beside those that plans follow have looked at. -/
theorem mem_seenKeys_beside_iff {entries : Fields Json} {name : String} :
    name ∈ seenKeys (libraryOf R) (limit (libraryOf R)) origin (.obj (beside members))
        (.obj entries) ↔
      (∃ s x, Fields.get? members "unevaluatedProperties" = some s ∧ (name, x) ∈ entries ∧
        Holds R s x) ∨
      (∃ m ∈ entriesOf members "dependentSchemas",
        Fields.contains entries m.1 = true ∧ SeesKey R m.2 (.obj entries) name) ∨
      name ∈ inPlace (libraryOf R) (limit (libraryOf R)) (limit (libraryOf R)).keys origin
        (beside members) (.obj entries) := by
  have hadditional : Fields.get? (beside members) "additionalProperties" = none := by
    rw [get?_beside, if_pos (by decide)]
  have hunevaluated : Fields.get? (beside members) "unevaluatedProperties" =
      Fields.get? members "unevaluatedProperties" := get?_beside_of_not_mem (by decide)
  have hproperties : entriesOf (beside members) "properties" = [] := by
    rw [entriesOf_beside, if_pos (by decide)]
  have hpatterns : entriesOf (beside members) "patternProperties" = [] := by
    rw [entriesOf_beside, if_pos (by decide)]
  have hdependent : entriesOf (beside members) "dependentSchemas" =
      entriesOf members "dependentSchemas" := by
    rw [entriesOf_beside, if_neg (by decide)]
  rw [mem_seenKeys_iff hR hfree.beside, hproperties, hpatterns, hdependent]
  simp [hadditional, hunevaluated]

omit hR hfree in
/-- Where the parts hold, a keyword that plans follow has looked at a member exactly if there is a
schema for it. -/
theorem exists_looked_iff {entries : Fields Json} {name : String}
    (hparts : Parts (Holds R) members (.obj entries)) :
    (∃ s x, (name, s) ∈ entriesOf members "properties" ∧ Fields.get? entries name = some x ∧
        Holds R s x) ∨
      (∃ x, (name, x) ∈ entries ∧ ∃ e ∈ entriesOf members "patternProperties",
        Pattern.found e.1 name = true ∧ Holds R e.2 x) ∨
      (∃ s x, Fields.get? members "additionalProperties" = some s ∧ (name, x) ∈ entries ∧
        Holds R s x) ↔
      name ∈ Fields.keys entries ∧
        (¬ Undeclared members name ∨ Fields.contains members "additionalProperties" = true) := by
  have hkey : ∀ {x}, (name, x) ∈ entries → name ∈ Fields.keys entries :=
    fun hx => List.mem_map.mpr ⟨_, hx, rfl⟩
  constructor
  · rintro (⟨s, x, hs, hget, -⟩ | ⟨x, hx, e, he, hfound, -⟩ | ⟨s, x, hs, hx, -⟩)
    · refine ⟨hkey (Fields.mem_of_get? hget), Or.inl (fun hundeclared => ?_)⟩
      have hcontains := (Fields.contains_iff _ _).mpr ⟨s, hs⟩
      rw [Fields.contains, hundeclared.1] at hcontains
      cases hcontains
    · refine ⟨hkey hx, Or.inl (fun hundeclared => ?_)⟩
      rw [hundeclared.2 e he] at hfound
      cases hfound
    · exact ⟨hkey hx, Or.inr (Option.isSome_iff_exists.mpr ⟨s, hs⟩)⟩
  · rintro ⟨hname, hschema⟩
    rcases Option.isSome_iff_exists.mp ((Fields.contains_iff_mem_keys _ _).mpr hname) with ⟨x, hget⟩
    have hx : (name, x) ∈ entries := Fields.mem_of_get? hget
    have hmember := hparts.entries entries rfl (name, x) hx
    by_cases hundeclared : Undeclared members name
    · -- only additional properties have a schema for it
      rcases hschema with hdeclared | hadditional
      · exact absurd hundeclared hdeclared
      · rcases Option.isSome_iff_exists.mp hadditional with ⟨s, hs⟩
        exact Or.inr (Or.inr ⟨s, x, hs, hx, hmember.additional hundeclared s hs⟩)
    · rcases declared_of_not_undeclared hundeclared with ⟨s, hs⟩ | ⟨e, he, hfound⟩
      · exact Or.inl ⟨s, x, Fields.mem_of_get? hs, hget, hmember.named s hs⟩
      · exact Or.inr (Or.inl ⟨x, hx, e, he, hfound, hmember.matched e he hfound⟩)

/-- Where the parts hold, a member has been looked at if there is a schema for it, or if a branch or
another keyword has. -/
theorem seesKey_obj_iff {entries : Fields Json} {name : String}
    (hparts : Parts (Holds R) members (.obj entries)) :
    SeesKey R (.obj members) (.obj entries) name ↔
      (name ∈ Fields.keys entries ∧
        (¬ Undeclared members name ∨ Fields.contains members "additionalProperties" = true)) ∨
      (∃ s ∈ itemsOf members "allOf", SeesKey R s (.obj entries) name) ∨
      name ∈ seenKeys (libraryOf R) (limit (libraryOf R)) origin (.obj (beside members))
        (.obj entries) := by
  have hinPlace := mem_inPlace_iff hR hfree (a := name)
    (fun s hs q q' hq => (limit_agree_self hR hs (.obj entries)).keys q q' hq) hparts.branches
  have hsingle : ∀ P : String → Prop, (∃ k ∈ ["additionalProperties", "unevaluatedProperties"],
      P k) ↔ P "additionalProperties" ∨ P "unevaluatedProperties" := by
    intro P
    simp
  rw [← exists_looked_iff hparts, SeesKey,
    (limit_obj (offers_libraryOf R) hR hfree.closed origin (.obj entries)).2.1,
    mem_seenKeys_iff hR hfree, mem_seenKeys_beside_iff hR hfree, hinPlace, hsingle]
  have harrange : ∀ named matched added left dependent branch beside : Prop,
      (named ∨ matched ∨ (added ∨ left) ∨ dependent ∨ branch ∨ beside) ↔
        (named ∨ matched ∨ added) ∨ branch ∨ left ∨ dependent ∨ beside := by grind
  exact harrange _ _ _ _ _ _ _

/-- Where the parts hold, an item has been looked at if the schema has one for it, or if a branch or
another keyword has. -/
theorem seesIndex_obj_iff {xs : List Json} {i : Nat} (hparts : Parts (Holds R) members (.arr xs)) :
    SeesIndex R (.obj members) (.arr xs) i ↔
      if Fields.contains members "items" = true then i < xs.length
      else i < (itemsOf members "prefixItems").length ∨
        (∃ s ∈ itemsOf members "allOf", SeesIndex R s (.arr xs) i) ∨
        i ∈ seenIndices (libraryOf R) (limit (libraryOf R)) origin (.obj (beside members))
          (.arr xs) := by
  have hinPlace := mem_inPlace_iff hR hfree (a := i)
    (fun s hs q q' hq => (limit_agree_self hR hs (.arr xs)).indices q q' hq) hparts.branches
  have hbeside : Fields.contains (beside members) "items" = false := by
    rw [Fields.contains, get?_beside, if_pos (by decide)]
    rfl
  have hleading : leadingCount (beside members) = 0 := by
    rw [leadingCount, get?_beside, if_pos (by decide)]
    rfl
  rw [SeesIndex, (limit_obj (offers_libraryOf R) hR hfree.closed origin (.arr xs)).2.2]
  unfold seenIndices
  dsimp only
  rw [hfree.within, hfree.beside.within]
  cases hitems : Fields.contains members "items" with
  | true => simp
  | false =>
    simp only [hbeside, hleading, Bool.false_eq_true, if_false, List.mem_append, List.mem_range,
      List.flatMap_cons, List.flatMap_nil, List.append_nil, List.range_zero, List.not_mem_nil,
      get?_beside_of_not_mem (show "contains" ∉ followedKeywords by decide),
      get?_beside_of_not_mem (show "unevaluatedItems" ∉ followedKeywords by decide), hinPlace,
      false_or]
    exact or_assoc.trans (or_congr Iff.rfl or_left_comm)

end Seen

/-! ## Schemas that have looked at the same -/

/-- Two schemas have looked at the same members and items of a value. -/
structure SeeAlike (R : List Resource) (d d' v : Json) : Prop where
  keys : ∀ entries, v = .obj entries → ∀ name, SeesKey R d v name ↔ SeesKey R d' v name
  indices : ∀ xs, v = .arr xs → ∀ i, SeesIndex R d v i ↔ SeesIndex R d' v i

theorem SeeAlike.refl (d v : Json) : SeeAlike R d d v :=
  ⟨fun _ _ _ => Iff.rfl, fun _ _ _ => Iff.rfl⟩

theorem SeeAlike.symm {d d' : Json} (h : SeeAlike R d d' v) : SeeAlike R d' d v :=
  ⟨fun entries hv name => (h.keys entries hv name).symm, fun xs hv i => (h.indices xs hv i).symm⟩

theorem Covered.congr {members members' : Fields Json} (hbeside : beside members = beside members')
    (h : SeeAlike R (.obj members) (.obj members') v) (hcovered : Covered R members v) :
    Covered R members' v := by
  have hcontains : ∀ k ∉ followedKeywords,
      Fields.contains members k = Fields.contains members' k := by
    intro k hk
    rw [Fields.contains, Fields.contains, ← get?_beside_of_not_mem hk, hbeside,
      get?_beside_of_not_mem hk]
  constructor
  · intro hk entries hv name hname
    rw [← hcontains _ (by decide)] at hk
    exact (h.keys entries hv name).mp (hcovered.keys hk entries hv name hname)
  · intro hk xs hv i hi
    rw [← hcontains _ (by decide)] at hk
    exact (h.indices xs hv i).mp (hcovered.indices hk xs hv i hi)

/-- What schemas have looked at depends on the schemas that plans follow only through the names
under which they stand, as long as these hold, and on what branches have looked at. -/
theorem Related.seeAlike {E : Json → Json → Prop} {members members' : Fields Json}
    (h : Related E members members') (hR : Grounded R) (hfree : Free members)
    (hfree' : Free members') (hbeside : beside members = beside members')
    (hparts : Parts (Holds R) members v) (hparts' : Parts (Holds R) members' v)
    (hbranches : List.Forall₂ (fun s s' => SeeAlike R s s' v) (itemsOf members "allOf")
      (itemsOf members' "allOf")) : SeeAlike R (.obj members) (.obj members') v := by
  constructor
  · rintro entries rfl name
    rw [seesKey_obj_iff hR hfree hparts, seesKey_obj_iff hR hfree' hparts', hbeside,
      h.undeclared_iff, Fields.contains, Fields.contains, isSome_of_rel h.additional,
      exists_mem_iff_of_forall₂ (fun s s' hrel => hrel.keys entries rfl name) hbranches]
  · rintro xs rfl i
    rw [seesIndex_obj_iff hR hfree hparts, seesIndex_obj_iff hR hfree' hparts', hbeside,
      Fields.contains, Fields.contains, isSome_of_rel h.items, h.leading.length_eq,
      exists_mem_iff_of_forall₂ (fun s s' hrel => hrel.indices xs rfl i) hbranches]

end HttpContract.Evaluation
