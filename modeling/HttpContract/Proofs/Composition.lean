import HttpContract.Proofs.Sufficiency

/-!
# Satisfying a schema

What a schema says of a value is composed of what its parts say. Of the keywords, six hold the
schemas that plans follow (`followedKeywords`): `Parts` says that these schemas hold of the value
and its parts. Two look at what the others have left over (`Covered`), and the remaining ones stand
by themselves (`Own`). `holds_obj_iff` is the composition.
-/

namespace HttpContract.Evaluation

open Library

/-! ## Outcomes at any place -/

/-- Where evaluation starts in a document that follows the specification. -/
def origin : Place := ⟨⟨"", [], true⟩, "", ""⟩

/-- The value satisfies the schema, where references lead to the resources. -/
def Holds (R : List Resource) (d v : Json) : Prop := (limit (libraryOf R)).valid origin d v = true

/-- The schema has looked at the member of this name. -/
def SeesKey (R : List Resource) (d v : Json) (name : String) : Prop :=
  name ∈ (limit (libraryOf R)).keys origin d v

/-- The schema has looked at the item with this index. -/
def SeesIndex (R : List Resource) (d v : Json) (i : Nat) : Prop :=
  i ∈ (limit (libraryOf R)).indices origin d v

theorem known_origin : origin.scope.known = true := rfl

variable {R : List Resource} {members : Fields Json} {d s v x : Json} {p : Place} {k : String}

theorem limit_agree_self (hR : Grounded R) (hd : Closed d) (v : Json) :
    (limit (libraryOf R)).Agree (limit (libraryOf R)) d v :=
  limit_agree_limit (offers_libraryOf R) (offers_libraryOf R) hR hd

theorem valid_iff (hR : Grounded R) (hd : Closed d) (hp : p.scope.known = true) :
    (limit (libraryOf R)).valid p d v = true ↔ Holds R d v := by
  rw [Holds, (limit_agree_self hR hd v).valid p origin hp]

theorem judge_eq_nil_iff (hR : Grounded R) (hd : Closed d) (hp : p.scope.known = true) :
    (limit (libraryOf R)).judge p d v = [] ↔ Holds R d v := by
  rw [← List.isEmpty_iff]
  exact valid_iff hR hd hp

theorem mem_keys_iff (hR : Grounded R) (hd : Closed d) (hp : p.scope.known = true)
    {name : String} : name ∈ (limit (libraryOf R)).keys p d v ↔ SeesKey R d v name := by
  rw [SeesKey, (limit_agree_self hR hd v).keys p origin hp]

theorem exists_enough (l : Library) (d v : Json) : ∃ n, enough l d v = n + 1 := by
  have hpos : 0 < enough l d v := Nat.mul_pos (Nat.succ_pos _) (Nat.succ_pos _)
  exact ⟨enough l d v - 1, by omega⟩

theorem holds_bool_iff {b : Bool} : Holds R (.bool b) v ↔ b = true := by
  rcases exists_enough (libraryOf R) (.bool b) v with ⟨n, hn⟩
  rw [Holds, valid_limit, hn]
  cases b <;> simp [Rules.valid, rules, findings]

/-- Only objects and `false` demand anything. -/
theorem holds_of_undemanding (hd : ∀ members, d ≠ .obj members) (hfalse : d ≠ .bool false) :
    Holds R d v := by
  rcases exists_enough (libraryOf R) d v with ⟨n, hn⟩
  rw [Holds, valid_limit, hn]
  cases d with
  | obj members => exact absurd rfl (hd members)
  | bool b =>
    cases b with
    | true => rfl
    | false => exact absurd rfl hfalse
  | _ => rfl

/-! ## Keywords that plans follow -/

/-- The keywords that hold the schemas that plans follow. -/
def followedKeywords : List String :=
  ["additionalProperties", "allOf", "items", "patternProperties", "prefixItems", "properties"]

/-- The keywords that look at what others have left over. -/
def unevaluatedKeywords : List String := ["unevaluatedItems", "unevaluatedProperties"]

/-- The keywords beside those that plans follow. -/
def beside (members : Fields Json) : Fields Json :=
  members.filter (fun m => !followedKeywords.contains m.1)

theorem get?_beside (members : Fields Json) (k : String) :
    Fields.get? (beside members) k =
      if k ∈ followedKeywords then none else Fields.get? members k := by
  rw [beside, Fields.get?_filter_keys (fun k => !followedKeywords.contains k)]
  by_cases hk : k ∈ followedKeywords <;> simp [hk]

theorem get?_beside_of_not_mem (hk : k ∉ followedKeywords) :
    Fields.get? (beside members) k = Fields.get? members k := by
  rw [get?_beside, if_neg hk]

theorem entriesOf_beside (members : Fields Json) (k : String) :
    entriesOf (beside members) k = if k ∈ followedKeywords then [] else entriesOf members k := by
  unfold entriesOf
  rw [get?_beside]
  split <;> rfl

/-- The schemas that a keyword of a schema lists. -/
def itemsOf (members : Fields Json) (k : String) : List Json :=
  ((Fields.get? members k).bind Json.items?).getD []

theorem exists_of_mem_itemsOf (h : s ∈ itemsOf members k) :
    ∃ xs, (k, .arr xs) ∈ members ∧ s ∈ xs := by
  unfold itemsOf at h
  cases hget : Fields.get? members k with
  | none => simp [hget] at h
  | some arg =>
    rw [hget] at h
    rcases mem_items_getD h with ⟨xs, rfl, hs⟩
    exact ⟨xs, Fields.mem_of_get? hget, hs⟩

/-- No schema is declared for members of this name, neither by the name nor by a pattern. -/
def Undeclared (members : Fields Json) (name : String) : Prop :=
  Fields.get? (entriesOf members "properties") name = none ∧
    ∀ e ∈ entriesOf members "patternProperties", Pattern.found e.1 name = false

theorem declared_of_not_undeclared {name : String} (h : ¬ Undeclared members name) :
    (∃ s, Fields.get? (entriesOf members "properties") name = some s) ∨
      ∃ e ∈ entriesOf members "patternProperties", Pattern.found e.1 name = true := by
  rcases not_and_or.mp h with hnamed | hmatched
  · exact Or.inl (Option.ne_none_iff_exists'.mp hnamed)
  · rw [not_forall₂] at hmatched
    rcases hmatched with ⟨e, he, hfound⟩
    exact Or.inr ⟨e, he, by simpa using hfound⟩

/-- The schemas for a member of the value hold of it. -/
structure MemberOf (A : Json → Json → Prop) (members : Fields Json) (name : String) (x : Json) :
    Prop where
  named : ∀ s, Fields.get? (entriesOf members "properties") name = some s → A s x
  matched : ∀ e ∈ entriesOf members "patternProperties", Pattern.found e.1 name = true → A e.2 x
  additional : Undeclared members name →
    ∀ s, Fields.get? members "additionalProperties" = some s → A s x

/-- The schemas for an item of the value hold of it. -/
structure ItemOf (A : Json → Json → Prop) (members : Fields Json) (i : Nat) (x : Json) :
    Prop where
  leading : ∀ s, (itemsOf members "prefixItems")[i]? = some s → A s x
  remaining : (itemsOf members "prefixItems").length ≤ i →
    ∀ s, Fields.get? members "items" = some s → A s x

/-- The schemas that plans follow hold of the value and of its parts. -/
structure Parts (A : Json → Json → Prop) (members : Fields Json) (v : Json) : Prop where
  branches : ∀ s ∈ itemsOf members "allOf", A s v
  entries : ∀ entries, v = .obj entries → ∀ m ∈ entries, MemberOf A members m.1 m.2
  items : ∀ xs, v = .arr xs → ∀ (i : Nat) (x : Json), xs[i]? = some x → ItemOf A members i x

theorem parts_and_iff {A B : Json → Json → Prop} :
    Parts (fun s x => A s x ∧ B s x) members v ↔ Parts A members v ∧ Parts B members v := by
  constructor
  · intro h
    refine ⟨⟨fun s hs => (h.branches s hs).1, fun entries hv m hm => ?_, fun xs hv i x hx => ?_⟩,
      ⟨fun s hs => (h.branches s hs).2, fun entries hv m hm => ?_, fun xs hv i x hx => ?_⟩⟩
    · have hmember := h.entries entries hv m hm
      exact ⟨fun s hs => (hmember.named s hs).1, fun e he hfound => (hmember.matched e he hfound).1,
        fun hundeclared s hs => (hmember.additional hundeclared s hs).1⟩
    · have hitem := h.items xs hv i x hx
      exact ⟨fun s hs => (hitem.leading s hs).1, fun hle s hs => (hitem.remaining hle s hs).1⟩
    · have hmember := h.entries entries hv m hm
      exact ⟨fun s hs => (hmember.named s hs).2, fun e he hfound => (hmember.matched e he hfound).2,
        fun hundeclared s hs => (hmember.additional hundeclared s hs).2⟩
    · have hitem := h.items xs hv i x hx
      exact ⟨fun s hs => (hitem.leading s hs).2, fun hle s hs => (hitem.remaining hle s hs).2⟩
  · rintro ⟨hA, hB⟩
    refine ⟨fun s hs => ⟨hA.branches s hs, hB.branches s hs⟩, fun entries hv m hm => ?_,
      fun xs hv i x hx => ?_⟩
    · have hmember := hA.entries entries hv m hm
      have hmember' := hB.entries entries hv m hm
      exact ⟨fun s hs => ⟨hmember.named s hs, hmember'.named s hs⟩,
        fun e he hfound => ⟨hmember.matched e he hfound, hmember'.matched e he hfound⟩,
        fun hundeclared s hs =>
          ⟨hmember.additional hundeclared s hs, hmember'.additional hundeclared s hs⟩⟩
    · have hitem := hA.items xs hv i x hx
      have hitem' := hB.items xs hv i x hx
      exact ⟨fun s hs => ⟨hitem.leading s hs, hitem'.leading s hs⟩,
        fun hle s hs => ⟨hitem.remaining hle s hs, hitem'.remaining hle s hs⟩⟩

/-- The keywords that plans follow hold related schemas under the same names. -/
structure Related (E : Json → Json → Prop) (members members' : Fields Json) : Prop where
  properties : List.Forall₂ (fun a b => a.1 = b.1 ∧ E a.2 b.2) (entriesOf members "properties")
    (entriesOf members' "properties")
  patterns : List.Forall₂ (fun a b => a.1 = b.1 ∧ E a.2 b.2)
    (entriesOf members "patternProperties") (entriesOf members' "patternProperties")
  additional : Option.Rel E (Fields.get? members "additionalProperties")
    (Fields.get? members' "additionalProperties")
  leading : List.Forall₂ E (itemsOf members "prefixItems") (itemsOf members' "prefixItems")
  items : Option.Rel E (Fields.get? members "items") (Fields.get? members' "items")
  branches : List.Forall₂ E (itemsOf members "allOf") (itemsOf members' "allOf")

namespace Related

variable {E : Json → Json → Prop} {members members' : Fields Json}

theorem symm (h : Related E members members') : Related (fun s' s => E s s') members' members where
  properties := (h.properties.imp (fun _ _ hab => ⟨hab.1.symm, hab.2⟩)).flip
  patterns := (h.patterns.imp (fun _ _ hab => ⟨hab.1.symm, hab.2⟩)).flip
  additional := rel_symm h.additional
  leading := h.leading.flip
  items := rel_symm h.items
  branches := h.branches.flip

/-- Keywords related to the same ones are related to each other. -/
theorem of_common {E' : Json → Json → Prop} {members'' : Fields Json}
    (h : Related E members members') (h' : Related E' members members'') :
    Related (fun y z => ∃ x, E x y ∧ E' x z) members' members'' where
  properties := (forall₂_of_common h.properties h'.properties).imp
    (fun _ _ ⟨x, _, hy, hz⟩ => ⟨hy.1.symm.trans hz.1, x.2, hy.2, hz.2⟩)
  patterns := (forall₂_of_common h.patterns h'.patterns).imp
    (fun _ _ ⟨x, _, hy, hz⟩ => ⟨hy.1.symm.trans hz.1, x.2, hy.2, hz.2⟩)
  additional := rel_of_common h.additional h'.additional
  leading := (forall₂_of_common h.leading h'.leading).imp (fun _ _ ⟨x, _, hboth⟩ => ⟨x, hboth⟩)
  items := rel_of_common h.items h'.items
  branches := (forall₂_of_common h.branches h'.branches).imp (fun _ _ ⟨x, _, hboth⟩ => ⟨x, hboth⟩)

theorem undeclared (h : Related E members members') {name : String}
    (hundeclared : Undeclared members name) : Undeclared members' name := by
  constructor
  · have hrel := rel_get? name h.properties
    rw [hundeclared.1] at hrel
    generalize Fields.get? (entriesOf members' "properties") name = x at hrel ⊢
    cases hrel
    rfl
  · intro e he
    rcases exists_of_forall₂ h.patterns.flip he with ⟨a, ha, heq, -⟩
    rw [← heq]
    exact hundeclared.2 a ha

theorem undeclared_iff (h : Related E members members') {name : String} :
    Undeclared members name ↔ Undeclared members' name :=
  ⟨h.undeclared, h.symm.undeclared⟩

/-- What related schemas say of the parts of a value, if branches do of the value itself and the
others do of smaller values. -/
theorem parts_of_depth (h : Related E members members') {A A' : Json → Json → Prop} {v : Json}
    (hv : v.Ordered)
    (hbranch : ∀ s s', s ∈ itemsOf members "allOf" → s' ∈ itemsOf members' "allOf" → E s s' →
      A s v → A' s' v)
    (hinner : ∀ s s' x, x.Ordered → x.depth < v.depth → E s s' → A s x → A' s' x)
    (hparts : Parts A members v) : Parts A' members' v := by
  refine ⟨fun s hs => ?_, ?_, ?_⟩
  · rcases exists_of_forall₂ h.branches.flip hs with ⟨s', hs', hrel⟩
    exact hbranch s' s hs' hs hrel (hparts.branches s' hs')
  · rintro entries rfl m hm
    have hmember := hparts.entries entries rfl m hm
    have hx : m.2.Ordered := Json.ordered_of_mem hv.2 hm
    have hlt : m.2.depth < (Json.obj entries).depth := Json.depth_lt_of_mem_obj hm
    refine ⟨fun s hs => ?_, fun e he hfound => ?_, fun hundeclared s hs => ?_⟩
    · rcases exists_of_rel (rel_get? m.1 h.properties) hs with ⟨s', hs', hrel⟩
      exact hinner s' s m.2 hx hlt hrel (hmember.named s' hs')
    · rcases exists_of_forall₂ h.patterns.flip he with ⟨e', he', heq, hrel⟩
      exact hinner e'.2 e.2 m.2 hx hlt hrel (hmember.matched e' he' (heq ▸ hfound))
    · rcases exists_of_rel h.additional hs with ⟨s', hs', hrel⟩
      exact hinner s' s m.2 hx hlt hrel
        (hmember.additional (h.undeclared_iff.mpr hundeclared) s' hs')
  · rintro xs rfl i x hi
    have hitem := hparts.items xs rfl i x hi
    have hmem : x ∈ xs := List.mem_of_getElem? hi
    have hx : x.Ordered := Json.ordered_of_mem_items hv hmem
    have hlt : x.depth < (Json.arr xs).depth := Json.depth_lt_of_mem_arr hmem
    refine ⟨fun s hs => ?_, fun hle s hs => ?_⟩
    · rcases exists_of_rel (rel_getElem? h.leading i) hs with ⟨s', hs', hrel⟩
      exact hinner s' s x hx hlt hrel (hitem.leading s' hs')
    · rcases exists_of_rel h.items hs with ⟨s', hs', hrel⟩
      exact hinner s' s x hx hlt hrel (hitem.remaining (h.leading.length_eq ▸ hle) s' hs')

/-- What related schemas say alike of the parts of a value, the parts of their schemas say. -/
theorem parts (h : Related E members members') {A A' : Json → Json → Prop} {v : Json}
    (hv : v.Ordered) (hE : ∀ s s' x, x.Ordered → E s s' → A s x → A' s' x)
    (hparts : Parts A members v) : Parts A' members' v :=
  h.parts_of_depth hv (fun s s' _ _ => hE s s' v hv) (fun s s' x hx _ => hE s s' x hx) hparts

end Related

/-- The keywords that stand by themselves are not violated. -/
def Own (R : List Resource) (members : Fields Json) (v : Json) : Prop :=
  ∀ m ∈ beside members, m.1 ∉ unevaluatedKeywords →
    keywordFindings (libraryOf R) (limit (libraryOf R)) origin (beside members) m.1 m.2 v = []

/-- Nothing is left over where nothing may be. -/
structure Covered (R : List Resource) (members : Fields Json) (v : Json) : Prop where
  keys : Fields.contains members "unevaluatedProperties" = true →
    ∀ entries, v = .obj entries → ∀ name ∈ Fields.keys entries, SeesKey R (.obj members) v name
  indices : Fields.contains members "unevaluatedItems" = true →
    ∀ xs, v = .arr xs → ∀ i < xs.length, SeesIndex R (.obj members) v i

/-! ## Keywords one by one -/

theorem keywordFindings_patternProperties {l : Library} {r : Rules} {arg : Json}
    (hknown : p.scope.known = true) (hmembers : takesOver members = false) :
    keywordFindings l r p members "patternProperties" arg v = patternProperties r p arg v := by
  unfold keywordFindings
  rw [hknown, hmembers]
  rfl

theorem keywordFindings_prefixItems {l : Library} {r : Rules} {arg : Json}
    (hknown : p.scope.known = true) :
    keywordFindings l r p members "prefixItems" arg v = leadingItems r p arg v := by
  unfold keywordFindings
  rw [hknown]
  rfl

theorem keywordFindings_unevaluatedProperties {l : Library} {r : Rules} {arg : Json}
    (hknown : p.scope.known = true) : keywordFindings l r p members "unevaluatedProperties" arg v =
      unevaluatedProperties l r p (.obj members) v := by
  unfold keywordFindings
  rw [hknown]
  rfl

theorem keywordFindings_unevaluatedItems {l : Library} {r : Rules} {arg : Json}
    (hknown : p.scope.known = true) : keywordFindings l r p members "unevaluatedItems" arg v =
      unevaluatedItems l r p (.obj members) v := by
  unfold keywordFindings
  rw [hknown]
  rfl

/-- Where `additionalProperties` takes over, the other two keywords for members report nothing. -/
theorem keywordFindings_of_takesOver {l : Library} {r : Rules} {arg : Json}
    (hmembers : takesOver members = true) (hk : k ∈ ["properties", "patternProperties"]) :
    keywordFindings l r p members k arg v = [] := by
  unfold keywordFindings
  rw [hmembers]
  rcases List.mem_pair.mp hk with rfl | rfl
  · split <;> rfl
  · split <;> rfl

theorem mem_indexed_iff {xs : List Json} {b : Nat × Json} :
    b ∈ indexed xs ↔ xs[b.1]? = some b.2 := by
  rw [List.mem_iff_getElem?]
  simp only [getElem?_indexed, Option.map_eq_some_iff]
  constructor
  · rintro ⟨i, x, hx, rfl⟩
    exact hx
  · exact fun h => ⟨b.1, b.2, h, rfl⟩

/-- The keywords for members say nothing of other values, and those for items neither. -/
theorem keywordFindings_of_other {l : Library} {r : Rules} {arg : Json} :
    (∀ k ∈ ["properties", "patternProperties", "additionalProperties", "unevaluatedProperties"],
      (∀ entries, v ≠ .obj entries) → keywordFindings l r p members k arg v = []) ∧
    ∀ k ∈ ["prefixItems", "items", "unevaluatedItems"],
      (∀ xs, v ≠ .arr xs) → keywordFindings l r p members k arg v = [] := by
  constructor
  · intro k hk hv
    simp only [List.mem_cons, List.not_mem_nil, or_false] at hk
    unfold keywordFindings
    cases v with
    | obj entries => exact absurd rfl (hv entries)
    | _ => rcases hk with rfl | rfl | rfl | rfl <;>
        simp [properties, patternProperties, additionalProperties, unevaluatedProperties]
  · intro k hk hv
    simp only [List.mem_cons, List.not_mem_nil, or_false] at hk
    unfold keywordFindings
    cases v with
    | arr xs => exact absurd rfl (hv xs)
    | _ => rcases hk with rfl | rfl | rfl <;>
        simp [leadingItems, remainingItems, unevaluatedItems]

/-- Keywords that stand by themselves do not depend on those that plans follow. -/
theorem keywordFindings_beside {l : Library} {r : Rules} {arg : Json} (hk : k ∉ followedKeywords)
    (hunevaluated : k ∉ unevaluatedKeywords) (href : k ∉ referring) :
    keywordFindings l r p (beside members) k arg v = keywordFindings l r p members k arg v := by
  have hget : ∀ k, k ∉ followedKeywords →
      Fields.get? (beside members) k = Fields.get? members k :=
    fun k hk => get?_beside_of_not_mem hk
  unfold keywordFindings
  split
  · rfl
  · split
    all_goals first
      | rfl
      | exact absurd (by decide) hk
      | exact absurd (by decide) hunevaluated
      | exact absurd (by decide) href
      | skip
    · unfold contains
      rw [hget "minContains" (by decide), hget "maxContains" (by decide)]
    · unfold conditional
      dsimp only
      generalize hnext : (if r.valid (p.keyword "if") arg v = true then "then" else "else") = next
      rw [hget next]
      rw [← hnext]
      split <;> decide

section Keywords

/-- A schema that identifies nothing and refers to nothing by itself, with ordered keywords and
ordered names of properties. -/
structure Free (members : Fields Json) : Prop where
  ordered : Fields.Ordered members
  named : Fields.Ordered (entriesOf members "properties")
  keys : ∀ k ∈ referring, Fields.contains members k = false
  inner : ∀ s, Inner members s → Closed s

theorem Free.closed (h : Free members) : Closed (.obj members) := .schema h.keys h.inner

theorem Free.closed_of_mem_entriesOf (h : Free members) {name : String}
    (hk : k ∈ "dependencies" :: mapKeywords) (hs : (name, s) ∈ entriesOf members k) : Closed s := by
  rcases exists_of_mem_entriesOf hs with ⟨ss, hm, hs⟩
  exact h.inner s (.named hk hm hs)

theorem Free.closed_of_mem_itemsOf (h : Free members) (hk : k ∈ listKeywords)
    (hs : s ∈ itemsOf members k) : Closed s := by
  rcases exists_of_mem_itemsOf hs with ⟨xs, hm, hs⟩
  exact h.inner s (.listed hk hm hs)

theorem Free.get?_iff (h : Free members) {arg : Json} :
    (k, arg) ∈ members ↔ Fields.get? members k = some arg :=
  ⟨fun hm => Fields.get?_of_mem h.ordered hm, Fields.mem_of_get?⟩

theorem Free.within (h : Free members) (scope : Scope) : scope.within (.obj members) = scope :=
  within_of_keywordText?_none h.closed.keywordText?_eq_none

/-- A keyword of the schema is not violated. -/
def Passes (R : List Resource) (members : Fields Json) (k : String) (v : Json) : Prop :=
  ∀ arg, Fields.get? members k = some arg →
    keywordFindings (libraryOf R) (limit (libraryOf R)) origin members k arg v = []

variable (hR : Grounded R) (hfree : Free members)

include hR hfree

theorem holds_obj_iff_passes : Holds R (.obj members) v ↔ ∀ k, Passes R members k v := by
  rw [Holds, (limit_obj (offers_libraryOf R) hR hfree.closed origin v).1, List.isEmpty_iff]
  unfold findings
  dsimp only
  rw [hfree.within, List.flatMap_eq_nil_iff]
  constructor
  · exact fun h k arg harg => h (k, arg) (Fields.mem_of_get? harg)
  · exact fun h m hm => h m.1 m.2 (hfree.get?_iff.mp hm)

theorem passes_allOf_iff :
    Passes R members "allOf" v ↔ ∀ s ∈ itemsOf members "allOf", Holds R s v := by
  unfold Passes itemsOf
  cases hget : Fields.get? members "allOf" with
  | none => simp
  | some arg =>
    have hm := Fields.mem_of_get? hget
    rw [Option.bind_some]
    simp only [Option.some.injEq, forall_eq']
    rw [keywordFindings_allOf known_origin, List.flatMap_eq_nil_iff]
    cases arg with
    | arr xs =>
      constructor
      · intro h s hs
        rcases List.mem_iff_getElem?.mp hs with ⟨i, hi⟩
        exact (judge_eq_nil_iff hR (hfree.inner s (.listed (by decide) hm hs)) rfl).mp
          (h _ (mem_branches_iff.mpr ⟨i, s, hi, rfl⟩))
      · intro h b hb
        rcases mem_branches_iff.mp hb with ⟨i, s, hi, rfl⟩
        have hs : s ∈ xs := List.mem_of_getElem? hi
        exact (judge_eq_nil_iff hR (hfree.inner s (.listed (by decide) hm hs)) rfl).mpr (h s hs)
    | _ => exact iff_of_true (fun b hb => nomatch hb) (fun s hs => nomatch hs)

theorem passes_properties_iff {entries : Fields Json} (htakes : takesOver members = false) :
    Passes R members "properties" (.obj entries) ↔ ∀ m ∈ entriesOf members "properties",
      ∀ x, Fields.get? entries m.1 = some x → Holds R m.2 x := by
  unfold Passes entriesOf
  cases hget : Fields.get? members "properties" with
  | none => simp
  | some arg =>
    have hm := Fields.mem_of_get? hget
    rw [Option.bind_some]
    simp only [Option.some.injEq, forall_eq']
    rw [keywordFindings_properties known_origin htakes]
    cases arg with
    | obj ss =>
      rw [properties_eq_nil_iff]
      exact forall₂_congr (fun m hs => forall₂_congr (fun x _ =>
        judge_eq_nil_iff hR (hfree.inner m.2 (.named (by decide) hm hs)) known_origin))
    | _ => exact iff_of_true rfl (fun m hs => nomatch hs)

theorem passes_patternProperties_iff {entries : Fields Json} (htakes : takesOver members = false) :
    Passes R members "patternProperties" (.obj entries) ↔
      ∀ e ∈ entriesOf members "patternProperties", ∀ m ∈ entries,
        Pattern.found e.1 m.1 = true → Holds R e.2 m.2 := by
  unfold Passes entriesOf
  cases hget : Fields.get? members "patternProperties" with
  | none => simp
  | some arg =>
    have hm := Fields.mem_of_get? hget
    rw [Option.bind_some]
    simp only [Option.some.injEq, forall_eq']
    rw [keywordFindings_patternProperties known_origin htakes]
    cases arg with
    | obj ss =>
      rw [patternProperties_eq_nil_iff]
      exact forall₂_congr (fun e hs => forall₃_congr (fun m _ _ =>
        judge_eq_nil_iff hR (hfree.inner e.2 (.named (by decide) hm hs)) known_origin))
    | _ => exact iff_of_true rfl (fun m hs => nomatch hs)

theorem passes_additionalProperties_iff {entries : Fields Json}
    (htakes : takesOver members = true) :
    Passes R members "additionalProperties" (.obj entries) ↔
      ∀ m ∈ entries, MemberOf (Holds R) members m.1 m.2 := by
  cases hget : Fields.get? members "additionalProperties" with
  | none => simp [takesOver, hget] at htakes
  | some arg =>
    have hinner := hfree.inner arg (.single (by decide) (Fields.mem_of_get? hget))
    unfold Passes
    simp only [hget, Option.some.injEq, forall_eq']
    rw [keywordFindings_additionalProperties known_origin, additionalProperties_eq_nil_iff htakes]
    refine forall₂_congr (fun m _ => ?_)
    rw [forall_declaredFor_iff, declaredFor_eq_nil_iff]
    constructor
    · rintro ⟨⟨hnamed, hmatched⟩, hrest⟩
      refine ⟨fun s hs => ?_, fun e he hfound => ?_, fun hundeclared s hs => ?_⟩
      · exact (judge_eq_nil_iff hR
          (hfree.closed_of_mem_entriesOf (by decide) (Fields.mem_of_get? hs)) (by rfl)).mp
          (hnamed s hs)
      · exact (judge_eq_nil_iff hR (hfree.closed_of_mem_entriesOf (by decide) he) (by rfl)).mp
          (hmatched e he hfound)
      · obtain rfl : arg = s := Option.some.inj (hget.symm.trans hs)
        exact (judge_eq_nil_iff hR hinner (by rfl)).mp (hrest hundeclared).2
    · rintro ⟨hnamed, hmatched, hrest⟩
      refine ⟨⟨fun s hs => ?_, fun e he hfound => ?_⟩, fun hundeclared => ⟨?_, ?_⟩⟩
      · exact (judge_eq_nil_iff hR
          (hfree.closed_of_mem_entriesOf (by decide) (Fields.mem_of_get? hs)) (by rfl)).mpr
          (hnamed s hs)
      · exact (judge_eq_nil_iff hR (hfree.closed_of_mem_entriesOf (by decide) he) (by rfl)).mpr
          (hmatched e he hfound)
      · rintro rfl
        exact absurd (holds_bool_iff.mp (hrest hundeclared _ hget)) (by decide)
      · exact (judge_eq_nil_iff hR hinner (by rfl)).mpr (hrest hundeclared arg hget)

/-- The three keywords for members of an object are not violated. -/
theorem passes_entries_iff {entries : Fields Json} (hentries : Fields.Ordered entries) :
    (Passes R members "properties" (.obj entries) ∧
      Passes R members "patternProperties" (.obj entries) ∧
      Passes R members "additionalProperties" (.obj entries)) ↔
        ∀ m ∈ entries, MemberOf (Holds R) members m.1 m.2 := by
  cases htakes : takesOver members with
  | true =>
    have hsilent : ∀ k ∈ ["properties", "patternProperties"],
        Passes R members k (.obj entries) :=
      fun k hk arg _ => keywordFindings_of_takesOver htakes hk
    rw [passes_additionalProperties_iff hR hfree htakes]
    exact ⟨fun h => h.2.2, fun h => ⟨hsilent _ (by decide), hsilent _ (by decide), h⟩⟩
  | false =>
    rw [passes_properties_iff hR hfree htakes, passes_patternProperties_iff hR hfree htakes]
    constructor
    · rintro ⟨hnamed, hmatched, -⟩ m hm
      refine ⟨fun s hs => ?_, fun e he hfound => hmatched e he m hm hfound, fun _ s hs => ?_⟩
      · exact hnamed (m.1, s) (Fields.mem_of_get? hs) m.2 (Fields.get?_of_mem hentries hm)
      · -- the keyword demands nothing unless it takes over
        refine holds_of_undemanding (fun keywords hobj => ?_) (fun hfalse => ?_)
        · simp [takesOver, hs, hobj] at htakes
        · simp [takesOver, hs, hfalse] at htakes
    · intro h
      refine ⟨fun m hm x hx => ?_, fun e he m hm hfound => (h m hm).matched e he hfound, ?_⟩
      · exact (h (m.1, x) (Fields.mem_of_get? hx)).named m.2 (Fields.get?_of_mem hfree.named hm)
      · intro arg _
        rw [keywordFindings_additionalProperties known_origin]
        simp [additionalProperties, htakes]

/-- The two keywords for items of a list are not violated. -/
theorem passes_items_iff {xs : List Json} :
    (Passes R members "prefixItems" (.arr xs) ∧ Passes R members "items" (.arr xs)) ↔
      ∀ (i : Nat) (x : Json), xs[i]? = some x → ItemOf (Holds R) members i x := by
  have hleading : Passes R members "prefixItems" (.arr xs) ↔ ∀ (i : Nat) (s x : Json),
      (itemsOf members "prefixItems")[i]? = some s → xs[i]? = some x → Holds R s x := by
    unfold Passes itemsOf
    cases hget : Fields.get? members "prefixItems" with
    | none => simp
    | some arg =>
      have hm := Fields.mem_of_get? hget
      rw [Option.bind_some]
      simp only [Option.some.injEq, forall_eq']
      rw [keywordFindings_prefixItems known_origin]
      cases arg with
      | arr ss =>
        rw [leadingItems_eq_nil_iff]
        refine forall₃_congr (fun i s x => forall₂_congr (fun hs _ => ?_))
        exact judge_eq_nil_iff hR
          (hfree.inner s (.listed (by decide) hm (List.mem_of_getElem? hs))) known_origin
      | _ =>
        refine iff_of_true ?_ (fun i s x hs => by simp [Json.items?] at hs)
        simp [leadingItems, branches, Json.items?, indexed]
  have hrest : Passes R members "items" (.arr xs) ↔ ∀ (i : Nat) (x : Json),
      (itemsOf members "prefixItems").length ≤ i → xs[i]? = some x →
        ∀ s, Fields.get? members "items" = some s → Holds R s x := by
    unfold Passes
    cases hget : Fields.get? members "items" with
    | none => simp
    | some arg =>
      have hinner := hfree.inner arg (.single (by decide) (Fields.mem_of_get? hget))
      simp only [Option.some.injEq, forall_eq']
      rw [keywordFindings_items known_origin, remainingItems_eq_nil_iff]
      exact forall₂_congr (fun i x => forall₂_congr (fun _ _ =>
        judge_eq_nil_iff hR hinner known_origin))
  rw [hleading, hrest]
  constructor
  · rintro ⟨hleading, hrest⟩ i x hx
    exact ⟨fun s hs => hleading i s x hs hx, fun hi s hs => hrest i x hi hx s hs⟩
  · intro h
    exact ⟨fun i s x hs hx => (h i x hx).leading s hs,
      fun i x hi hx s hs => (h i x hx).remaining hi s hs⟩

theorem passes_unevaluatedProperties_iff : Passes R members "unevaluatedProperties" v ↔
    (Fields.contains members "unevaluatedProperties" = true → ∀ entries, v = .obj entries →
      ∀ name ∈ Fields.keys entries, SeesKey R (.obj members) v name) := by
  unfold Passes Fields.contains
  cases hget : Fields.get? members "unevaluatedProperties" with
  | none => simp
  | some arg =>
    simp only [Option.some.injEq, forall_eq', Option.isSome_some, true_imp_iff]
    cases v with
    | obj entries =>
      have hkeys := (limit_obj (offers_libraryOf R) hR hfree.closed origin (.obj entries)).2.1
      rw [keywordFindings_unevaluatedProperties known_origin]
      unfold unevaluatedProperties SeesKey
      rw [hkeys]
      simp [List.filter_eq_nil_iff]
    | _ =>
      refine iff_of_true ?_ (fun _ h => nomatch h)
      exact keywordFindings_of_other.1 _ (by decide) (fun _ h => nomatch h)

theorem passes_unevaluatedItems_iff : Passes R members "unevaluatedItems" v ↔
    (Fields.contains members "unevaluatedItems" = true → ∀ xs, v = .arr xs →
      ∀ i < xs.length, SeesIndex R (.obj members) v i) := by
  unfold Passes Fields.contains
  cases hget : Fields.get? members "unevaluatedItems" with
  | none => simp
  | some arg =>
    simp only [Option.some.injEq, forall_eq', Option.isSome_some, true_imp_iff]
    cases v with
    | arr xs =>
      have hindices := (limit_obj (offers_libraryOf R) hR hfree.closed origin (.arr xs)).2.2
      rw [keywordFindings_unevaluatedItems known_origin]
      unfold unevaluatedItems SeesIndex
      rw [hindices]
      have hleft : ∀ i, i < xs.length ↔ ∃ x, (i, x) ∈ indexed xs := by
        intro i
        simp only [mem_indexed_iff]
        exact ⟨fun hi => ⟨xs[i], List.getElem?_eq_getElem hi⟩,
          fun ⟨_, hx⟩ => (List.getElem?_eq_some_iff.mp hx).1⟩
      simp [List.filter_eq_nil_iff, hleft]
    | _ =>
      refine iff_of_true ?_ (fun _ h => nomatch h)
      exact keywordFindings_of_other.2 _ (by decide) (fun _ h => nomatch h)

omit hR in
theorem passes_own_iff (hk : k ∉ followedKeywords) (hunevaluated : k ∉ unevaluatedKeywords) :
    Passes R members k v ↔ ∀ arg, (k, arg) ∈ beside members →
      keywordFindings (libraryOf R) (limit (libraryOf R)) origin (beside members) k arg v = [] := by
  have hmem : ∀ arg, (k, arg) ∈ beside members ↔ Fields.get? members k = some arg := by
    intro arg
    rw [← hfree.get?_iff, beside, List.mem_filter]
    simp [hk]
  unfold Passes
  simp only [hmem]
  refine forall₂_congr (fun arg hget => ?_)
  have href : k ∉ referring := by
    intro href
    have hcontains := hfree.keys k href
    rw [Fields.contains, hget] at hcontains
    cases hcontains
  rw [keywordFindings_beside hk hunevaluated href]

/-- A schema holds of a value exactly if its own keywords are not violated, the schemas inside it
hold of the value and of its parts, and nothing is left over. -/
theorem holds_obj_iff (hv : v.Ordered) : Holds R (.obj members) v ↔
    Own R members v ∧ Parts (Holds R) members v ∧ Covered R members v := by
  rw [holds_obj_iff_passes hR hfree]
  constructor
  · intro h
    refine ⟨fun m hm hunevaluated => ?_, ⟨?_, ?_, ?_⟩, ⟨?_, ?_⟩⟩
    · have hk : m.1 ∉ followedKeywords := by simpa using (List.mem_filter.mp hm).2
      exact (passes_own_iff hfree hk hunevaluated).mp (h m.1) m.2 hm
    · exact (passes_allOf_iff hR hfree).mp (h _)
    · rintro entries rfl
      exact (passes_entries_iff hR hfree hv.1).mp ⟨h _, h _, h _⟩
    · rintro xs rfl
      exact (passes_items_iff hR hfree).mp ⟨h _, h _⟩
    · exact (passes_unevaluatedProperties_iff hR hfree).mp (h _)
    · exact (passes_unevaluatedItems_iff hR hfree).mp (h _)
  · rintro ⟨hown, hparts, hcovered⟩ k
    have hentries : Passes R members "properties" v ∧ Passes R members "patternProperties" v ∧
        Passes R members "additionalProperties" v := by
      cases v with
      | obj entries => exact (passes_entries_iff hR hfree hv.1).mpr (hparts.entries entries rfl)
      | _ =>
        refine ⟨fun arg _ => ?_, fun arg _ => ?_, fun arg _ => ?_⟩
        all_goals exact keywordFindings_of_other.1 _ (by decide) (fun _ h => nomatch h)
    have hitems : Passes R members "prefixItems" v ∧ Passes R members "items" v := by
      cases v with
      | arr xs => exact (passes_items_iff hR hfree).mpr (hparts.items xs rfl)
      | _ =>
        refine ⟨fun arg _ => ?_, fun arg _ => ?_⟩
        all_goals exact keywordFindings_of_other.2 _ (by decide) (fun _ h => nomatch h)
    by_cases hk : k ∈ followedKeywords
    · simp only [followedKeywords, List.mem_cons, List.not_mem_nil, or_false] at hk
      rcases hk with rfl | rfl | rfl | rfl | rfl | rfl
      · exact hentries.2.2
      · exact (passes_allOf_iff hR hfree).mpr hparts.branches
      · exact hitems.2
      · exact hentries.2.1
      · exact hitems.1
      · exact hentries.1
    · by_cases hunevaluated : k ∈ unevaluatedKeywords
      · rcases List.mem_pair.mp hunevaluated with rfl | rfl
        · exact (passes_unevaluatedItems_iff hR hfree).mpr hcovered.indices
        · exact (passes_unevaluatedProperties_iff hR hfree).mpr hcovered.keys
      · exact (passes_own_iff hfree hk hunevaluated).mpr
          (fun arg hm => hown (k, arg) hm hunevaluated)

end Keywords

end HttpContract.Evaluation
