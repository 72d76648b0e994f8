import HttpContract.Proofs.BasicSchemas
import HttpContract.Proofs.Plans

/-!
# Judging keyword by keyword

A value violates nothing of a schema exactly if it violates nothing of each keyword
(`judge_obj_eq_nil_iff`), and for keywords that hold schemas this comes down to the schemas they
hold: one equivalence for each of them. `Judged` and `Verified` say that evaluation, and the check
that goes before it, have found nothing wrong, with enough steps left for the schema alone.
-/

namespace HttpContract.Json

theorem depth_lt_of_mem_arr {items : List Json} {x : Json} (h : x ∈ items) :
    x.depth < (arr items).depth := by
  rw [depth]
  exact Nat.lt_succ_of_le (depth_le_depthItems h)

theorem depth_lt_of_mem_obj {members : Fields Json} {k : String} {x : Json}
    (h : (k, x) ∈ members) : x.depth < (obj members).depth := by
  rw [depth]
  exact Nat.lt_succ_of_le (depth_le_depthMembers h)

end HttpContract.Json

namespace HttpContract.Evaluation

open Library

variable {l : Library} {r : Rules} {n : Nat} {p : Place} {members : Fields Json} {arg v : Json}

/-! ## Schemas -/

@[simp] theorem within_known (s : Scope) (schema : Json) : (s.within schema).known = s.known := by
  unfold Scope.within
  split
  · simp only [Scope.enter]
  · rfl

theorem judge_obj_eq_nil_iff : (rules l (n + 1)).judge p (.obj members) v = [] ↔
    ∀ m ∈ members, keywordFindings l (rules l n) { p with scope := p.scope.within (.obj members) }
      members m.1 m.2 v = [] := by
  rw [rules]
  dsimp only
  rw [findings, List.flatMap_eq_nil_iff]

/-! ## Keywords -/

theorem type_eq_nil_iff (hknown : p.scope.known = true) :
    keywordFindings l r p members "type" arg v = [] ↔ Assertion.typeViolations arg v = [] := by
  rw [keywordFindings_type hknown, List.map_eq_nil_iff]

theorem required_eq_nil_iff (hknown : p.scope.known = true) :
    keywordFindings l r p members "required" arg v = [] ↔
      Assertion.requiredViolations arg v = [] := by
  unfold keywordFindings
  rw [hknown]
  exact List.map_eq_nil_iff

theorem getElem?_indexed (xs : List Json) (i : Nat) :
    (indexed xs)[i]? = xs[i]?.map (fun x => (i, x)) := by
  unfold indexed
  by_cases hi : i < xs.length
  · simp [hi]
  · simp [hi]

theorem getElem?_branches (p : Place) (k : String) (xs : List Json) (i : Nat) :
    (branches p k (.arr xs))[i]? = xs[i]?.map (fun x => (p.entry k (toString i), x)) := by
  unfold branches
  rw [List.getElem?_map, Json.items?, Option.getD_some, getElem?_indexed, Option.map_map]
  rfl

theorem mem_branches_iff {k : String} {xs : List Json} {b : Place × Json} :
    b ∈ branches p k (.arr xs) ↔
      ∃ (i : Nat) (x : Json), xs[i]? = some x ∧ b = (p.entry k (toString i), x) := by
  rw [List.mem_iff_getElem?]
  simp only [getElem?_branches, Option.map_eq_some_iff]
  exact exists_congr (fun i => exists_congr (fun x => and_congr_right (fun _ => eq_comm)))

theorem allOf_eq_nil_iff {xs : List Json} (hknown : p.scope.known = true) :
    keywordFindings l r p members "allOf" (.arr xs) v = [] ↔
      ∀ (i : Nat) (x : Json), xs[i]? = some x →
        r.judge (p.entry "allOf" (toString i)) x v = [] := by
  rw [keywordFindings_allOf hknown, List.flatMap_eq_nil_iff]
  constructor
  · intro h i x hx
    exact h _ (mem_branches_iff.mpr ⟨i, x, hx, rfl⟩)
  · intro h b hb
    rcases mem_branches_iff.mp hb with ⟨i, x, hx, rfl⟩
    exact h i x hx

section Objects

variable {schemas entries : Fields Json}

theorem properties_eq_nil_iff : properties r p (.obj schemas) (.obj entries) = [] ↔
    ∀ m ∈ schemas, ∀ x, Fields.get? entries m.1 = some x →
      r.judge ((p.entry "properties" m.1).part m.1) m.2 x = [] := by
  unfold properties
  rw [List.flatMap_eq_nil_iff]
  refine forall₂_congr (fun m _ => ?_)
  cases hget : Fields.get? entries m.1 <;> simp [hget]

theorem patternProperties_eq_nil_iff : patternProperties r p (.obj schemas) (.obj entries) = [] ↔
    ∀ m ∈ schemas, ∀ x ∈ entries, Pattern.found m.1 x.1 = true →
      r.judge ((p.entry "patternProperties" m.1).part x.1) m.2 x.2 = [] := by
  unfold patternProperties
  simp only [List.flatMap_eq_nil_iff]
  refine forall₂_congr (fun m _ => forall₂_congr (fun x _ => ?_))
  cases Pattern.found m.1 x.1 <;> simp

/-- The schemas that the keywords of an object schema name for a member, by its name and by
patterns, each with its place. -/
def declaredFor (p : Place) (members : Fields Json) (name : String) : List (Place × Json) :=
  ((Fields.get? (((Fields.get? members "properties").bind Json.members?).getD []) name).map
      (fun s => ((p.entry "properties" name).part name, s))).toList ++
    matching p (((Fields.get? members "patternProperties").bind Json.members?).getD []) name

/-- A member is judged by the schemas declared for it, or by the additional one if there are none. -/
theorem declared_eq_nil_iff {declared : List (Place × Json)} {q : Place} (x : Json) :
    (match declared.map (fun b => (b.1, b.2, x)) with
      | [] => if arg = .bool false then [] else r.judge q arg x
      | known => known.flatMap (fun b => r.judge b.1 b.2.1 b.2.2)) = [] ↔
    (∀ b ∈ declared, r.judge b.1 b.2 x = []) ∧
      (declared = [] → arg ≠ .bool false → r.judge q arg x = []) := by
  cases declared with
  | nil => by_cases harg : arg = .bool false <;> simp [harg]
  | cons b rest =>
    change List.flatMap _ (List.map _ _) = [] ↔ _
    rw [List.flatMap_map, List.flatMap_eq_nil_iff]
    simp

/-- Where `additionalProperties` takes over, each member satisfies the schemas declared for it; one
without is admitted and satisfies the additional schema. -/
theorem additionalProperties_eq_nil_iff (htakes : takesOver members = true) :
    additionalProperties r p members arg (.obj entries) = [] ↔ ∀ m ∈ entries,
      (∀ b ∈ declaredFor p members m.1, r.judge b.1 b.2 m.2 = []) ∧
        (declaredFor p members m.1 = [] → arg ≠ .bool false ∧
          r.judge ((p.keyword "additionalProperties").part m.1) arg m.2 = []) := by
  unfold additionalProperties
  rw [htakes]
  simp only [Bool.not_true, Bool.false_eq_true, if_false]
  split
  · next hnone =>
    -- nothing is declared, so there must be no member at all
    obtain ⟨hnamed, hpatterns, rfl⟩ := hnone
    have hdeclared : ∀ name, declaredFor p members name = [] := by
      intro name
      rw [Option.isNone_iff_eq_none] at hnamed hpatterns
      simp [declaredFor, hnamed, hpatterns, matching]
    cases entries with
    | nil => simp
    | cons m rest =>
      exact iff_of_false (by simp) (fun h => ((h m List.mem_cons_self).2 (hdeclared _)).1 rfl)
  · have hrest : ∀ f : Finding,
        (if ((if arg = .bool false then (entries.filter (fun m =>
              ((declaredFor p members m.1).map (fun b => (b.1, b.2, m.2))).isEmpty)).map (·.1)
            else []) : List String).isEmpty = true then [] else [f]) = [] ↔
          ∀ m ∈ entries, declaredFor p members m.1 = [] → arg ≠ .bool false := by
      intro f
      by_cases harg : arg = .bool false
      · simp [harg, List.filter_eq_nil_iff]
      · simp [harg]
    change _ ++ _ = [] ↔ _
    rw [List.append_eq_nil_iff, List.flatMap_eq_nil_iff]
    refine (and_congr (forall₂_congr (fun (m : String × Json) _ => declared_eq_nil_iff m.2))
      (hrest _)).trans ?_
    constructor
    · rintro ⟨hall, hnone⟩ m hm
      exact ⟨(hall m hm).1, fun hnil => ⟨hnone m hm hnil, (hall m hm).2 hnil (hnone m hm hnil)⟩⟩
    · intro hall
      exact ⟨fun m hm => ⟨(hall m hm).1, fun hnil _ => ((hall m hm).2 hnil).2⟩,
        fun m hm hnil => ((hall m hm).2 hnil).1⟩

end Objects

/-! ## Lists -/

theorem leadingItems_eq_nil_iff {schemas items : List Json} :
    leadingItems r p (.arr schemas) (.arr items) = [] ↔ ∀ (i : Nat) (s x : Json),
      schemas[i]? = some s → items[i]? = some x →
        r.judge ((p.entry "prefixItems" (toString i)).part (toString i)) s x = [] := by
  unfold leadingItems
  rw [List.flatMap_eq_nil_iff]
  simp only [List.mem_iff_getElem?, List.getElem?_zip_eq_some, getElem?_branches,
    getElem?_indexed, Option.map_eq_some_iff]
  constructor
  · intro h i s x hs hx
    exact h (_, i, x) ⟨i, ⟨s, hs, rfl⟩, x, hx, rfl⟩
  · rintro h ⟨⟨q, s⟩, j, x⟩ ⟨i, ⟨_, hs, hb⟩, _, hx, hi⟩
    obtain ⟨rfl, rfl⟩ := Prod.mk.inj hb
    obtain ⟨rfl, rfl⟩ := Prod.mk.inj hi
    exact h i _ _ hs hx

theorem remainingItems_eq_nil_iff {items : List Json} :
    remainingItems r p members arg (.arr items) = [] ↔ ∀ (i : Nat) (x : Json),
      leadingCount members ≤ i → items[i]? = some x →
        r.judge ((p.keyword "items").part (toString i)) arg x = [] := by
  unfold remainingItems
  rw [List.flatMap_eq_nil_iff]
  simp only [List.mem_iff_getElem?, List.getElem?_drop, getElem?_indexed, Option.map_eq_some_iff]
  constructor
  · intro h i x hi hx
    obtain ⟨j, rfl⟩ := Nat.exists_eq_add_of_le hi
    exact h (_, x) ⟨j, x, hx, rfl⟩
  · rintro h _ ⟨j, x, hx, rfl⟩
    exact h _ x (Nat.le_add_right _ _) hx

/-! ## Found to be in order -/

/-- Evaluation has found that the value violates nothing of the schema. -/
def Judged (d v : Json) : Prop :=
  ∃ (l : Library) (n : Nat) (p : Place), p.scope.known = true ∧ (rules l n).judge p d v = []

namespace Judged

variable {k : String}

theorem bool_true (v : Json) : Judged (.bool true) v :=
  ⟨.empty, 1, ⟨⟨"", [], true⟩, "", ""⟩, rfl, rfl⟩

theorem keyword (h : Judged (.obj members) v) (hm : (k, arg) ∈ members) :
    ∃ (l : Library) (n : Nat) (p : Place), p.scope.known = true ∧
      keywordFindings l (rules l n) p members k arg v = [] := by
  rcases h with ⟨l, n, p, hknown, hnil⟩
  cases n with
  | zero => cases hnil
  | succ n =>
    exact ⟨l, n, _, (within_known _ _).trans hknown, judge_obj_eq_nil_iff.mp hnil (k, arg) hm⟩

theorem type (h : Judged (.obj members) v) (hm : ("type", arg) ∈ members) :
    Assertion.typeViolations arg v = [] := by
  rcases h.keyword hm with ⟨l, n, p, hknown, hnil⟩
  exact (type_eq_nil_iff hknown).mp hnil

theorem required (h : Judged (.obj members) v) (hm : ("required", arg) ∈ members) :
    Assertion.requiredViolations arg v = [] := by
  rcases h.keyword hm with ⟨l, n, p, hknown, hnil⟩
  exact (required_eq_nil_iff hknown).mp hnil

theorem branch {xs : List Json} {x : Json} (h : Judged (.obj members) v)
    (hm : ("allOf", .arr xs) ∈ members) (hx : x ∈ xs) : Judged x v := by
  rcases h.keyword hm with ⟨l, n, p, hknown, hnil⟩
  rcases List.mem_iff_getElem?.mp hx with ⟨i, hi⟩
  exact ⟨l, n, p.entry "allOf" (toString i), hknown, (allOf_eq_nil_iff hknown).mp hnil i x hi⟩

section

variable {entries schemas : Fields Json} {name source : String} {d x : Json}

/-- The findings of `additionalProperties` where it takes over the other two keywords. -/
theorem takenOver (h : Judged (.obj members) v) (htakes : takesOver members = true) :
    ∃ (arg : Json) (l : Library) (n : Nat) (p : Place),
      Fields.get? members "additionalProperties" = some arg ∧ p.scope.known = true ∧
        additionalProperties (rules l n) p members arg v = [] := by
  cases hget : Fields.get? members "additionalProperties" with
  | none => simp [takesOver, hget] at htakes
  | some arg =>
    rcases h.keyword (Fields.mem_of_get? hget) with ⟨l, n, p, hknown, hnil⟩
    rw [keywordFindings_additionalProperties hknown] at hnil
    exact ⟨arg, l, n, p, rfl, hknown, hnil⟩

/-- A member satisfies the schema of its name. -/
theorem property (h : Judged (.obj members) (.obj entries))
    (hm : Fields.get? members "properties" = some (.obj schemas))
    (hd : Fields.get? schemas name = some d) (hx : Fields.get? entries name = some x) :
    Judged d x := by
  cases htakes : takesOver members with
  | false =>
    rcases h.keyword (Fields.mem_of_get? hm) with ⟨l, n, p, hknown, hnil⟩
    rw [keywordFindings_properties hknown htakes, properties_eq_nil_iff] at hnil
    exact ⟨l, n, (p.entry "properties" name).part name, hknown,
      hnil (name, d) (Fields.mem_of_get? hd) x hx⟩
  | true =>
    rcases h.takenOver htakes with ⟨arg, l, n, p, -, hknown, hnil⟩
    rw [additionalProperties_eq_nil_iff htakes] at hnil
    have hdeclared : ((p.entry "properties" name).part name, d) ∈ declaredFor p members name := by
      simp [declaredFor, hm, Json.members?, hd]
    exact ⟨l, n, (p.entry "properties" name).part name, hknown,
      (hnil (name, x) (Fields.mem_of_get? hx)).1 _ hdeclared⟩

/-- A member satisfies the schema of a pattern that matches its name. -/
theorem pattern (h : Judged (.obj members) (.obj entries))
    (hm : Fields.get? members "patternProperties" = some (.obj schemas))
    (hd : (source, d) ∈ schemas) (hfound : Pattern.found source name = true)
    (hx : (name, x) ∈ entries) : Judged d x := by
  cases htakes : takesOver members with
  | false =>
    rcases h.keyword (Fields.mem_of_get? hm) with ⟨l, n, p, hknown, hnil⟩
    have hnil : patternProperties (rules l n) p (.obj schemas) (.obj entries) = [] := by
      unfold keywordFindings at hnil
      rw [hknown, htakes] at hnil
      exact hnil
    exact ⟨l, n, (p.entry "patternProperties" source).part name, hknown,
      patternProperties_eq_nil_iff.mp hnil (source, d) hd (name, x) hx hfound⟩
  | true =>
    rcases h.takenOver htakes with ⟨arg, l, n, p, -, hknown, hnil⟩
    rw [additionalProperties_eq_nil_iff htakes] at hnil
    have hdeclared : ((p.entry "patternProperties" source).part name, d) ∈
        declaredFor p members name := by
      simp only [declaredFor, hm, Option.bind_some, Json.members?, Option.getD_some]
      exact List.mem_append_right _
        (List.mem_map.mpr ⟨(source, d), List.mem_filter.mpr ⟨hd, hfound⟩, rfl⟩)
    exact ⟨l, n, (p.entry "patternProperties" source).part name, hknown,
      (hnil (name, x) hx).1 _ hdeclared⟩

/-- A member without a schema of its own satisfies the additional one. -/
theorem additional {keywords : Fields Json} (h : Judged (.obj members) (.obj entries))
    (hm : Fields.get? members "additionalProperties" = some (.obj keywords))
    (hnamed : ∀ schemas, Fields.get? members "properties" = some (.obj schemas) →
      Fields.get? schemas name = none)
    (hmatched : ∀ schemas, Fields.get? members "patternProperties" = some (.obj schemas) →
      ∀ m ∈ schemas, Pattern.found m.1 name = false) (hx : (name, x) ∈ entries) :
    Judged (.obj keywords) x := by
  have htakes : takesOver members = true := by simp [takesOver, hm]
  rcases h.takenOver htakes with ⟨arg, l, n, p, harg, hknown, hnil⟩
  obtain rfl : .obj keywords = arg := Option.some.inj (hm.symm.trans harg)
  rw [additionalProperties_eq_nil_iff htakes] at hnil
  have hdeclared : declaredFor p members name = [] := by
    have hnoName : Fields.get? (((Fields.get? members "properties").bind Json.members?).getD [])
        name = none := by
      cases hget : Fields.get? members "properties" with
      | none => rfl
      | some schemas =>
        cases schemas with
        | obj schemas => exact hnamed schemas hget
        | _ => rfl
    have hnoPattern : matching p
        (((Fields.get? members "patternProperties").bind Json.members?).getD []) name = [] := by
      unfold matching
      rw [List.map_eq_nil_iff, List.filter_eq_nil_iff]
      cases hget : Fields.get? members "patternProperties" with
      | none => simp
      | some schemas =>
        cases schemas with
        | obj schemas => exact fun m hm => by simpa using hmatched schemas hget m hm
        | _ => simp [Json.members?]
    rw [declaredFor, hnoName, hnoPattern]
    rfl
  exact ⟨l, n, (p.keyword "additionalProperties").part name, hknown,
    ((hnil (name, x) hx).2 hdeclared).2⟩

end

section

variable {items schemas : List Json} {i : Nat} {d x : Json}

theorem leading (h : Judged (.obj members) (.arr items))
    (hm : ("prefixItems", .arr schemas) ∈ members) (hd : schemas[i]? = some d)
    (hx : items[i]? = some x) : Judged d x := by
  rcases h.keyword hm with ⟨l, n, p, hknown, hnil⟩
  have hnil : leadingItems (rules l n) p (.arr schemas) (.arr items) = [] := by
    unfold keywordFindings at hnil
    rw [hknown] at hnil
    exact hnil
  exact ⟨l, n, (p.entry "prefixItems" (toString i)).part (toString i), hknown,
    leadingItems_eq_nil_iff.mp hnil i d x hd hx⟩

theorem remaining (h : Judged (.obj members) (.arr items)) (hm : ("items", d) ∈ members)
    (hi : leadingCount members ≤ i) (hx : items[i]? = some x) : Judged d x := by
  rcases h.keyword hm with ⟨l, n, p, hknown, hnil⟩
  rw [keywordFindings_items hknown] at hnil
  exact ⟨l, n, (p.keyword "items").part (toString i), hknown,
    remainingItems_eq_nil_iff.mp hnil i x hi hx⟩

end

end Judged

/-! ## Checked before evaluation -/

section

variable (l : Library) (check : Scope → Followed → Json → Except SchemaFault Followed)

/-- Check what a reference leads to, unless it has been followed. -/
def verifyReference (scope : Scope) (followed : Followed) (reference : String) :
    Except SchemaFault Followed :=
  if followed.contains (scope.base, reference) then .ok followed
  else
    match l.lookup scope reference with
    | .error e => .error (.reference e)
    | .ok (target, inner) => check inner ((scope.base, reference) :: followed) target

/-- Check what a keyword of a schema reaches. -/
def verifyKeyword (scope : Scope) (members : Fields Json) (followed : Followed)
    (m : String × Json) : Except SchemaFault Followed :=
  if !scope.known && !universal.contains m.1 then .ok followed
  else
    match misshapen? m.1 m.2 with
    | some v => .error (.violates v)
    | none =>
      match (reachedFrom members m.1 m.2).patterns.find?
        (fun source => (Pattern.compile? source).isNone) with
      | some source => .error (.badPattern source)
      | none => do
        let followed ← (reachedFrom members m.1 m.2).references.foldlM
          (verifyReference l check scope) followed
        (reachedFrom members m.1 m.2).schemas.foldlM (check scope) followed

theorem verify_succ (fuel : Nat) (scope : Scope) (followed : Followed) (schema : Json) :
    verify l (fuel + 1) scope followed schema =
      if schema.isSchema then
        ((schema.members?).getD []).foldlM (verifyKeyword l (verify l fuel) (scope.within schema)
          ((schema.members?).getD [])) followed
      else .error (.violates (.type schema ["boolean", "object"])) := by
  rw [verify]
  cases schema.isSchema with
  | false => rfl
  | true =>
    simp only [Bool.not_true, Bool.false_eq_true, if_false, if_true]
    congr 1
    funext a m
    rcases m with ⟨k, arg⟩
    unfold verifyKeyword
    dsimp only
    cases hk : (!(scope.within schema).known && !universal.contains k) with
    | true => rfl
    | false =>
      cases misshapen? k arg with
      | some v => rfl
      | none => rfl

end

/-- The check that precedes evaluation has passed over the schema, with enough steps left for all
levels of it. -/
def Verified (d : Json) : Prop :=
  ∃ (l : Library) (n : Nat) (scope : Scope) (followed followed' : Followed),
    scope.known = true ∧ d.depth < n ∧ verify l n scope followed d = .ok followed'

theorem exists_step_of_foldlM {ε α β : Type} {f : β → α → Except ε β} : ∀ {xs : List α} {b b' : β},
    xs.foldlM f b = .ok b' → ∀ x ∈ xs, ∃ c c', f c x = .ok c'
  | [], _, _, _, x, hx => absurd hx List.not_mem_nil
  | y :: rest, b, _, h, x, hx => by
    rw [List.foldlM_cons] at h
    cases hfirst : f b y with
    | error err =>
      rw [hfirst] at h
      cases h
    | ok between =>
      rw [hfirst] at h
      rcases List.mem_cons.mp hx with rfl | hx
      · exact ⟨b, between, hfirst⟩
      · exact exists_step_of_foldlM (b := between) h x hx

namespace Verified

theorem isSchema {d : Json} (h : Verified d) : d.isSchema = true := by
  rcases h with ⟨l, n, scope, followed, followed', hknown, hdepth, hverify⟩
  obtain ⟨n, rfl⟩ : ∃ k, n = k + 1 := ⟨n - 1, by omega⟩
  rw [verify_succ] at hverify
  cases hschema : d.isSchema with
  | true => rfl
  | false =>
    rw [hschema] at hverify
    cases hverify

/-- The check finds nothing wrong with a keyword by itself and goes on to the schemas that it hands
to evaluation. -/
theorem keyword {k : String} (h : Verified (.obj members)) (hm : (k, arg) ∈ members) :
    misshapen? k arg = none ∧
      (∀ source ∈ (reachedFrom members k arg).patterns,
        (Pattern.compile? source).isSome = true) ∧
      ∃ (l : Library) (n : Nat) (scope : Scope) (followed followed' : Followed),
        scope.known = true ∧ (Json.obj members).depth ≤ n ∧
          (reachedFrom members k arg).schemas.foldlM (verify l n scope) followed =
            .ok followed' := by
  rcases h with ⟨l, n, scope, followed, followed', hknown, hlt, hverify⟩
  obtain ⟨n, rfl⟩ : ∃ k, n = k + 1 := ⟨n - 1, by omega⟩
  rw [verify_succ] at hverify
  rcases exists_step_of_foldlM hverify (k, arg) hm with ⟨c, c', hstep⟩
  have hwithin : (scope.within (.obj members)).known = true := (within_known _ _).trans hknown
  unfold verifyKeyword at hstep
  rw [hwithin] at hstep
  dsimp only [Json.members?, Option.getD_some] at hstep
  cases hshape : misshapen? k arg with
  | some fault =>
    rw [hshape] at hstep
    cases hstep
  | none =>
    rw [hshape] at hstep
    cases hpatterns : (reachedFrom members k arg).patterns.find?
        (fun source => (Pattern.compile? source).isNone) with
    | some source =>
      rw [hpatterns] at hstep
      cases hstep
    | none =>
      rw [hpatterns] at hstep
      rcases bind_eq_ok hstep with ⟨between, -, hschemas⟩
      refine ⟨rfl, fun source hsource => ?_, l, n, _, between, c', hwithin, by omega, hschemas⟩
      simpa [Option.isSome_iff_ne_none] using List.find?_eq_none.mp hpatterns source hsource

/-- The check goes down to the schemas that a keyword hands to evaluation. -/
theorem reached {k : String} {d : Json} (h : Verified (.obj members)) (hm : (k, arg) ∈ members)
    (hd : d ∈ (reachedFrom members k arg).schemas) (hdepth : d.depth < (Json.obj members).depth) :
    Verified d := by
  rcases (h.keyword hm).2.2 with ⟨l, n, scope, followed, followed', hknown, hle, hschemas⟩
  rcases exists_step_of_foldlM hschemas d hd with ⟨c, c', hd'⟩
  exact ⟨l, n, scope, c, c', hknown, by omega, hd'⟩

theorem single {k : String} {d : Json} (h : Verified (.obj members)) (hm : (k, d) ∈ members)
    (hreached : d ∈ (reachedFrom members k d).schemas) : Verified d :=
  h.reached hm hreached (Json.depth_lt_of_mem_obj hm)

theorem listed {k : String} {xs : List Json} {d : Json} (h : Verified (.obj members))
    (hm : (k, .arr xs) ∈ members) (hd : d ∈ xs)
    (hreached : d ∈ (reachedFrom members k (.arr xs)).schemas) : Verified d :=
  h.reached hm hreached
    (Nat.lt_trans (Json.depth_lt_of_mem_arr hd) (Json.depth_lt_of_mem_obj hm))

theorem named {k name : String} {ss : Fields Json} {d : Json} (h : Verified (.obj members))
    (hm : (k, .obj ss) ∈ members) (hd : (name, d) ∈ ss)
    (hreached : d ∈ (reachedFrom members k (.obj ss)).schemas) : Verified d :=
  h.reached hm hreached
    (Nat.lt_trans (Json.depth_lt_of_mem_obj hd) (Json.depth_lt_of_mem_obj hm))

/-- The check does not let a list pass as a schema for items. -/
theorem not_itemList (h : Verified (.obj members)) (xs : List Json) :
    ("items", .arr xs) ∉ members := by
  intro hm
  have hverified : Verified (.arr xs) := h.single hm List.mem_cons_self
  cases hverified.isSchema

end Verified

end HttpContract.Evaluation
