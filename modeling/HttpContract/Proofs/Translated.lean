import HttpContract.Proofs.Agreement
import HttpContract.Proofs.Sorted
import HttpContract.Proofs.Tracing

/-!
# Rewritten schemas

Rewriting a schema of a description is done once: in what it makes, the schemas at every place where
a schema may stand are free of the keywords that only descriptions know, and rewriting it again
changes nothing (`rewrite_clean_and_idempotent`).

Both follow from one property of documents, `Translated`, which follows rewriting into the parts it
goes on to: whatever rewriting makes has it (`translated_of_rewrite`), and what has it is left as it
is (`Translated.rewrite_eq`). Data is none of these parts, so a document under `default` or `enum`
may look like a schema with references, as may the name of a property.
-/

namespace HttpContract.OpenApi

/-- Keywords that schemas of descriptions have, and rewritten schemas do not. -/
def foreignKeywords : List String :=
  ["$ref", "nullable", "example", "discriminator", "xml", "externalDocs"]

/-- Keywords under which there is a schema, or a list of schemas. -/
def schemaPlaces : List String :=
  ["allOf", "anyOf", "oneOf", "prefixItems", "items", "additionalProperties", "not", "if", "then",
    "else", "contains", "propertyNames"]

/-- The documents in a schema at places where schemas stand, the schema itself among them. -/
inductive Holds : (s : Json) → (t : Json) → Prop where
  | self {s : Json} : Holds s s
  | part {members : Fields Json} {s t : Json}
      (hs : Evaluation.Under schemaPlaces schemaPlaces mapKeywords members s) (h : Holds s t) :
      Holds (.obj members) t

/-- The documents in the value of a keyword that rewriting goes on to. -/
def partsOf (k : String) (v : Json) : List Json :=
  if dataKeywords.contains k then []
  else if mapKeywords.contains k then
    match v with
    | .obj schemas => Fields.values schemas
    | _ => []
  else
    match v with
    | .arr items => items
    | other => [other]

/-- There is nothing in the document for rewriting to do. -/
inductive Translated : Json → Prop where
  | plain {v : Json} (hv : ∀ members, v ≠ .obj members) : Translated v
  | schema {members : Fields Json} (hordered : Fields.Ordered members)
      (hkeys : ∀ k ∈ foreignKeywords, Fields.contains members k = false)
      (hparts : ∀ m ∈ members, ∀ x ∈ partsOf m.1 m.2, Translated x) : Translated (.obj members)

variable {cs : Components}

/-! ## Parts -/

theorem depth_lt_of_mem_partsOf {members : Fields Json} {k : String} {v x : Json}
    (hv : (k, v) ∈ members) (hx : x ∈ partsOf k v) : x.depth < (Json.obj members).depth := by
  have hlt := Json.depth_lt_of_mem_obj hv
  unfold partsOf at hx
  split at hx
  · cases hx
  · split at hx
    · split at hx
      · obtain ⟨m, hm, rfl⟩ := List.mem_map.mp hx
        exact Nat.lt_trans (Json.depth_lt_of_mem_obj hm) hlt
      · cases hx
    · split at hx
      · exact Nat.lt_trans (Json.depth_lt_of_mem_arr hx) hlt
      · obtain rfl := List.mem_singleton.mp hx
        exact hlt

theorem partsOf_examples (v : Json) : partsOf "examples" v = [] := by
  unfold partsOf
  rw [if_pos (by decide)]

/-- The places where schemas stand are among those that rewriting goes on to. -/
theorem Translated.of_under {members : Fields Json} {x : Json} (h : Translated (.obj members))
    (hx : Evaluation.Under schemaPlaces schemaPlaces mapKeywords members x) : Translated x := by
  have hplaces : ∀ k ∈ schemaPlaces, k ∉ dataKeywords ∧ k ∉ mapKeywords := by decide
  have hmaps : ∀ k ∈ mapKeywords, k ∉ dataKeywords := by decide
  cases h with
  | plain hv => exact absurd rfl (hv members)
  | schema _ _ hparts =>
    cases hx with
    | single hk hs =>
      cases x with
      | arr items => exact .plain (by simp)
      | _ =>
        apply hparts _ hs
        simp [partsOf, hplaces _ hk]
    | listed hk hxs hs =>
      apply hparts _ hxs
      simpa [partsOf, hplaces _ hk] using hs
    | @named k name schemas _ hk hss hs =>
      have hvalue : x ∈ Fields.values schemas := List.mem_map.mpr ⟨_, hs, rfl⟩
      apply hparts _ hss
      simpa [partsOf, hmaps _ hk, hk] using hvalue

theorem Translated.of_holds {s t : Json} (h : Translated s) (ht : Holds s t) : Translated t := by
  induction ht with
  | self => exact h
  | part hs _ ih => exact ih (h.of_under hs)

theorem Translated.contains_eq_false {members : Fields Json} (h : Translated (.obj members))
    {k : String} (hk : k ∈ foreignKeywords) : Fields.contains members k = false := by
  cases h with
  | plain hv => exact absurd rfl (hv members)
  | schema _ hkeys _ => exact hkeys k hk

/-! ## Nothing to do -/

theorem rewriteItems_eq_self {items : List Json} (h : ∀ x ∈ items, rewrite cs x = .ok x) :
    rewriteItems cs items = .ok items := by
  induction items with
  | nil => rfl
  | cons x rest ih =>
    obtain ⟨hx, hrest⟩ := List.forall_mem_cons.mp h
    rw [rewriteItems, hx, ih hrest]
    rfl

theorem rewriteNamed_eq_self {schemas : List (String × Json)}
    (h : ∀ m ∈ schemas, rewrite cs m.2 = .ok m.2) : rewriteNamed cs schemas = .ok schemas := by
  induction schemas with
  | nil => rfl
  | cons m rest ih =>
    obtain ⟨hm, hrest⟩ := List.forall_mem_cons.mp h
    rw [rewriteNamed, hm, ih hrest]
    rfl

theorem rewriteValue_eq_self {k : String} {v : Json}
    (h : ∀ x ∈ partsOf k v, rewrite cs x = .ok x) : rewriteValue cs k v = .ok v := by
  unfold partsOf at h
  unfold rewriteValue
  split
  · rfl
  · next hdata =>
    rw [if_neg hdata] at h
    split
    · next hmap =>
      rw [if_pos hmap] at h
      split
      · have hnamed := rewriteNamed_eq_self (fun m hm => h m.2 (List.mem_map.mpr ⟨m, hm, rfl⟩))
        rw [hnamed]
        rfl
      · rfl
    · next hmap =>
      rw [if_neg hmap] at h
      cases v with
      | arr items =>
        change (rewriteItems cs items).map Json.arr = _
        rw [rewriteItems_eq_self h]
        rfl
      | _ => exact h _ (List.mem_singleton.mpr rfl)

theorem rewriteMembers_eq_self {members : List (String × Json)}
    (hkeys : ∀ m ∈ members, m.1 ∉ foreignKeywords)
    (hparts : ∀ m ∈ members, ∀ x ∈ partsOf m.1 m.2, rewrite cs x = .ok x) (exemplified : Bool) :
    rewriteMembers cs exemplified members = .ok members := by
  induction members with
  | nil => rfl
  | cons m rest ih =>
    obtain ⟨hkey, hkeys⟩ := List.forall_mem_cons.mp hkeys
    obtain ⟨hm, hparts⟩ := List.forall_mem_cons.mp hparts
    have hdropped : droppedKeywords.contains m.1 = false := by
      simp_all [droppedKeywords, foreignKeywords]
    have hexample : m.1 ≠ "example" := by
      rintro heq
      simp [foreignKeywords, heq] at hkey
    rw [rewriteMembers_cons hdropped hexample, rewriteValue_eq_self hm, ih hkeys hparts]
    rfl

theorem Translated.rewrite_eq {s : Json} (h : Translated s) (cs : Components) :
    rewrite cs s = .ok s := by
  induction h with
  | @plain v hv =>
    cases v with
    | obj members => exact absurd rfl (hv members)
    | _ => rfl
  | @schema members hordered hkeys _ ih =>
    have habsent : ∀ k ∈ foreignKeywords, Fields.get? members k = none := by
      intro k hk
      simpa [Fields.contains] using hkeys k hk
    have hforeign : ∀ m ∈ members, m.1 ∉ foreignKeywords := by
      intro m hm hk
      have hcontained := (Fields.contains_iff members m.1).mpr ⟨m.2, hm⟩
      rw [hkeys m.1 hk] at hcontained
      cases hcontained
    rw [rewrite, habsent "$ref" (by decide), rewriteMembers_eq_self hforeign ih,
      habsent "nullable" (by decide)]
    simp [Bind.bind, Except.bind, pure, Except.pure, Fields.ofList_of_ordered hordered]

/-! ## What rewriting makes -/

theorem eq_of_rewrite_arr {v : Json} {items : List Json} (h : rewrite cs v = .ok (.arr items)) :
    v = .arr items := by
  cases v with
  | obj members =>
    rw [rewrite] at h
    split at h
    · next reference _ =>
      unfold marker at h
      split at h
      · split at h
        · cases h
        · split at h <;> simp [Marker.toJson] at h
      · cases h
    · obtain ⟨entries, -, h⟩ := bind_eq_ok h
      cases h
  | _ => exact Except.ok.inj h

theorem exists_of_rewriteItems {items items' : List Json} (h : rewriteItems cs items = .ok items') :
    ∀ x' ∈ items', ∃ x ∈ items, rewrite cs x = .ok x' := by
  induction items generalizing items' with
  | nil =>
    obtain rfl := Except.ok.inj h
    simp
  | cons x rest ih =>
    rw [rewriteItems] at h
    obtain ⟨x', hx, h⟩ := bind_eq_ok h
    obtain ⟨others, hothers, h⟩ := bind_eq_ok h
    obtain rfl := Except.ok.inj h
    refine List.forall_mem_cons.mpr ⟨⟨x, List.mem_cons_self, hx⟩, fun y' hy' => ?_⟩
    obtain ⟨y, hy, hrewrite⟩ := ih hothers y' hy'
    exact ⟨y, List.mem_cons_of_mem _ hy, hrewrite⟩

theorem exists_of_rewriteNamed {schemas entries : List (String × Json)}
    (h : rewriteNamed cs schemas = .ok entries) :
    ∀ x' ∈ Fields.values entries, ∃ x ∈ Fields.values schemas, rewrite cs x = .ok x' := by
  induction schemas generalizing entries with
  | nil =>
    obtain rfl := Except.ok.inj h
    simp [Fields.values]
  | cons m rest ih =>
    rw [rewriteNamed] at h
    obtain ⟨x', hx, h⟩ := bind_eq_ok h
    obtain ⟨others, hothers, h⟩ := bind_eq_ok h
    obtain rfl := Except.ok.inj h
    refine List.forall_mem_cons.mpr ⟨⟨m.2, List.mem_cons_self, hx⟩, fun y' hy' => ?_⟩
    obtain ⟨y, hy, hrewrite⟩ := ih hothers y' hy'
    exact ⟨y, List.mem_cons_of_mem _ hy, hrewrite⟩

/-- The parts of a rewritten value are rewritten parts of the value. -/
theorem exists_of_rewriteValue {k : String} {v v' : Json} (h : rewriteValue cs k v = .ok v') :
    ∀ x' ∈ partsOf k v', ∃ x ∈ partsOf k v, rewrite cs x = .ok x' := by
  unfold rewriteValue at h
  unfold partsOf
  split at h
  · next hdata =>
    rw [if_pos hdata]
    simp
  · next hdata =>
    rw [if_neg hdata, if_neg hdata]
    split at h
    · next hmap =>
      rw [if_pos hmap, if_pos hmap]
      split at h
      · obtain ⟨entries, hentries, rfl⟩ := map_eq_ok h
        exact exists_of_rewriteNamed hentries
      · next hobj =>
        obtain rfl := Except.ok.inj h
        cases v with
        | obj schemas => exact absurd rfl (hobj schemas)
        | _ => simp
    · next hmap =>
      rw [if_neg hmap, if_neg hmap]
      split at h
      · obtain ⟨items', hitems, rfl⟩ := map_eq_ok h
        exact exists_of_rewriteItems hitems
      · next harr =>
        -- What becomes of a single schema is single: only lists become lists.
        have hsingle : ∀ items, v' ≠ .arr items := by
          rintro items rfl
          exact harr items (eq_of_rewrite_arr h)
        cases v' with
        | arr items => exact absurd rfl (hsingle items)
        | _ => cases v <;> first | exact absurd rfl (harr _) | simpa using h

/-- A member of what is made of a schema holds examples, or has a keyword that stays and what
becomes of its value. -/
theorem exists_of_rewriteMembers {members entries : List (String × Json)} {exemplified : Bool}
    (h : rewriteMembers cs exemplified members = .ok entries) : ∀ e ∈ entries,
      e.1 = "examples" ∨ droppedKeywords.contains e.1 = false ∧ e.1 ≠ "example" ∧
        ∃ v, (e.1, v) ∈ members ∧ rewriteValue cs e.1 v = .ok e.2 := by
  induction members generalizing entries with
  | nil =>
    obtain rfl := Except.ok.inj h
    simp
  | cons m rest ih =>
    have hlater : ∀ others, rewriteMembers cs exemplified rest = .ok others → ∀ e ∈ others,
        e.1 = "examples" ∨ droppedKeywords.contains e.1 = false ∧ e.1 ≠ "example" ∧
          ∃ v, (e.1, v) ∈ m :: rest ∧ rewriteValue cs e.1 v = .ok e.2 := by
      intro others hothers e he
      rcases ih hothers e he with hexamples | ⟨hdropped, hexample, v, hv, hvalue⟩
      · exact Or.inl hexamples
      · exact Or.inr ⟨hdropped, hexample, v, List.mem_cons_of_mem _ hv, hvalue⟩
    by_cases hdropped : droppedKeywords.contains m.1 = true
    · rw [rewriteMembers, if_pos hdropped] at h
      exact hlater entries h
    rw [Bool.not_eq_true] at hdropped
    by_cases hexample : m.1 = "example"
    · rw [rewriteMembers, hdropped, if_neg Bool.false_ne_true, if_pos hexample] at h
      obtain ⟨others, hothers, h⟩ := bind_eq_ok h
      obtain rfl := Except.ok.inj h
      split
      · exact hlater others hothers
      · exact List.forall_mem_cons.mpr ⟨Or.inl rfl, hlater others hothers⟩
    · rw [rewriteMembers_cons hdropped hexample] at h
      obtain ⟨value, hvalue, h⟩ := bind_eq_ok h
      obtain ⟨others, hothers, h⟩ := bind_eq_ok h
      obtain rfl := Except.ok.inj h
      exact List.forall_mem_cons.mpr
        ⟨Or.inr ⟨hdropped, hexample, m.2, List.mem_cons_self, hvalue⟩, hlater others hothers⟩

theorem mem_partsOf_withNull {types x : Json} (hx : x ∈ partsOf "type" (withNull types)) :
    x ∈ partsOf "type" types ∨ ∃ t, x = .str t := by
  have hkey : dataKeywords.contains "type" = false ∧ mapKeywords.contains "type" = false := by
    decide
  unfold withNull at hx
  split at hx
  · simp only [partsOf, hkey.1, hkey.2] at hx
    rcases List.mem_pair.mp hx with rfl | rfl
    all_goals exact Or.inr ⟨_, rfl⟩
  · split at hx
    · exact Or.inl hx
    · simp only [partsOf, hkey.1, hkey.2] at hx ⊢
      rcases List.mem_append.mp hx with hx | hx
      · exact Or.inl hx
      · exact Or.inr ⟨_, List.mem_singleton.mp hx⟩
  · exact Or.inl hx

theorem Translated.widen {members : Fields Json} (h : Translated (.obj members)) :
    Translated (.obj (widen members)) := by
  unfold OpenApi.widen
  split
  · next types htypes =>
    cases h with
    | plain hv => exact absurd rfl (hv members)
    | schema hordered hkeys hparts =>
      refine .schema (Fields.ordered_insert hordered _ _) (fun k hk => ?_) (fun m hm x hx => ?_)
      · have hne : k ≠ "type" := by
          rintro rfl
          exact absurd hk (by decide)
        rw [Fields.contains_insert, hkeys k hk]
        simp [hne.symm]
      · rcases Fields.mem_of_mem_insert hm with rfl | hm
        · rcases mem_partsOf_withNull hx with hx | ⟨t, rfl⟩
          · exact hparts _ (Fields.mem_of_get? htypes) x hx
          · exact .plain (by simp)
        · exact hparts m hm x hx
  · exact h

theorem translated_of_marker {reference marked : Json} (h : marker cs reference = .ok marked) :
    Translated marked := by
  unfold marker at h
  split at h
  · split at h
    · cases h
    · split at h
      · obtain rfl := Except.ok.inj h
        refine .schema (List.pairwise_singleton _ _) (fun k hk => ?_) (fun m hm x hx => ?_)
        · have hne : Marker.key ≠ k := by
            rintro rfl
            exact absurd hk (by decide)
          simpa using hne
        · obtain rfl := List.mem_singleton.mp hm
          have hkey : Marker.key ∉ dataKeywords ∧ Marker.key ∉ mapKeywords := by decide
          obtain rfl : x = Json.ofNat _ := by simpa [partsOf, hkey, Json.ofNat] using hx
          exact .plain (by simp [Json.ofNat])
      · cases h
  · cases h

/-- The object made of the members that rewriting keeps. -/
theorem translated_of_rewriteMembers {members entries : List (String × Json)} {exemplified : Bool}
    (href : Fields.get? members "$ref" = none)
    (h : rewriteMembers cs exemplified members = .ok entries)
    (hparts : ∀ m ∈ members, ∀ x ∈ partsOf m.1 m.2, ∀ x', rewrite cs x = .ok x' → Translated x') :
    Translated (.obj (Fields.ofList entries)) := by
  have hentries := exists_of_rewriteMembers h
  refine .schema (Fields.ordered_ofList entries) (fun k hk => ?_) (fun e he x' hx' => ?_)
  · rw [← Bool.not_eq_true, Fields.contains_iff]
    rintro ⟨v', hv'⟩
    rcases hentries _ (Fields.mem_of_mem_ofList hv') with rfl | ⟨hdropped, hexample, v, hv, -⟩
    · exact absurd hk (by decide)
    · have hcases : k = "$ref" := by
        simp_all [foreignKeywords, droppedKeywords]
      have hcontained := (Fields.contains_iff members k).mpr ⟨v, hv⟩
      rw [hcases, Fields.contains, href] at hcontained
      cases hcontained
  · rcases hentries e (Fields.mem_of_mem_ofList he) with hexamples | ⟨-, -, v, hv, hvalue⟩
    · rw [hexamples, partsOf_examples] at hx'
      cases hx'
    · obtain ⟨x, hx, hrewrite⟩ := exists_of_rewriteValue hvalue x' hx'
      exact hparts _ hv x hx x' hrewrite

/-- Rewriting leaves nothing to do. The recursion goes on to the parts, which are less deep. -/
theorem translated_of_rewrite : ∀ (v : Json) {s : Json}, rewrite cs v = .ok s → Translated s
  | .obj members, s, h => by
    rw [rewrite] at h
    split at h
    · exact translated_of_marker h
    · next href =>
      obtain ⟨entries, hentries, h⟩ := bind_eq_ok h
      obtain rfl := Except.ok.inj h
      have hobj := translated_of_rewriteMembers href hentries
        (fun m hm x hx x' hx' => translated_of_rewrite x hx')
      split
      · exact hobj.widen
      · exact hobj
  | .null, _, h | .bool _, _, h | .num _, _, h | .str _, _, h | .arr _, _, h => by
    obtain rfl := Except.ok.inj h
    exact .plain (by simp)
termination_by v => v.depth
decreasing_by exact depth_lt_of_mem_partsOf hm hx

/-- What rewriting makes holds no schema with a keyword that only descriptions know, and rewriting
it again gives it back. -/
theorem rewrite_clean_and_idempotent {components : Components} {v s : Json}
    (h : rewrite components v = .ok s) :
    (∀ members, Holds s (.obj members) →
      ∀ k ∈ foreignKeywords, Fields.contains members k = false) ∧
    rewrite components s = .ok s := by
  have htranslated : Translated s := translated_of_rewrite v h
  constructor
  · intro members hholds k hk
    exact (htranslated.of_holds hholds).contains_eq_false hk
  · exact htranslated.rewrite_eq components

/-- A nullable schema with a property that refers to a component, a property named like a keyword,
an example, and a default that looks like a reference. -/
def describedPet : Json :=
  .obj [("default", .obj [("$ref", .str "here")]), ("example", .obj [("nullable", .bool true)]),
    ("nullable", .bool true),
    ("properties", .obj [("example", .obj [("type", .str "string"), ("xml", .obj [])]),
      ("owner", .obj [("$ref", .str "#/components/schemas/Owner")])]),
    ("type", .str "object")]

/-- What is made of it where the component has the handle seven. -/
def rewrittenPet : Json :=
  .obj [("default", .obj [("$ref", .str "here")]),
    ("examples", .arr [.obj [("nullable", .bool true)]]),
    ("properties", .obj [("example", .obj [("type", .str "string")]),
      ("owner", (Marker.deferred 7).toJson)]),
    ("type", .arr [.str "object", .str "null"])]

theorem rewrite_clean_and_idempotent_described :
    rewrite [("Owner", 7)] describedPet = .ok rewrittenPet ∧
    (∀ members, Holds rewrittenPet (.obj members) →
      ∀ k ∈ foreignKeywords, Fields.contains members k = false) ∧
    rewrite [("Owner", 7)] rewrittenPet = .ok rewrittenPet := by
  have hrewrite : rewrite [("Owner", 7)] describedPet = .ok rewrittenPet :=
    toOption_eq_some_iff.mp (by decide +kernel)
  exact ⟨hrewrite, rewrite_clean_and_idempotent hrewrite⟩

end HttpContract.OpenApi
