import HttpContract.Proofs.Judging
import HttpContract.Proofs.Relinking

/-!
# Rules that agree

What a value violates of a schema depends on the rules only through what they say of the schemas
inside it: of those that apply to the same place for the value itself, of the others for smaller
values. Rules that agree on these (`Concur`) find violations of the same keywords
(`isEmpty_keywordFindings`) and have looked at the same members and items (`seenKeys_eq`,
`seenIndices_eq`), whatever the places in their reports.

The two sides may spell references in different ways (`Parallel`): on the right the schema is the
one on the left with its references renamed, and they are read in scopes that are related to those
on the left.
-/

namespace HttpContract.Evaluation

open Library Json

/-! ## Schemas within schemas -/

/-- The schemas directly under keywords of a schema: under those that hold one, under those that
hold a list, and under those that hold an object of schemas. -/
inductive Under (single listed named : List String) (members : Fields Json) : Json → Prop where
  | single {k : String} {s : Json} (hk : k ∈ single) (hs : (k, s) ∈ members) :
      Under single listed named members s
  | listed {k : String} {xs : List Json} {s : Json} (hk : k ∈ listed) (hxs : (k, .arr xs) ∈ members)
      (hs : s ∈ xs) : Under single listed named members s
  | named {k name : String} {ss : Fields Json} {s : Json} (hk : k ∈ named)
      (hss : (k, .obj ss) ∈ members) (hs : (name, s) ∈ ss) : Under single listed named members s

/-- The schemas that apply to the same place of the value. -/
def Applied : Fields Json → Json → Prop :=
  Under ["if", "then", "else", "not"] ["allOf", "anyOf", "oneOf"]
    ["dependencies", "dependentSchemas"]

/-- The schemas that evaluation and libraries look at. -/
def Inner : Fields Json → Json → Prop :=
  Under schemaKeywords listKeywords ("dependencies" :: mapKeywords)

theorem Under.mono {single single' listed listed' named named' : List String}
    {members : Fields Json} {s : Json} (h : Under single listed named members s)
    (hsingle : single ⊆ single') (hlisted : listed ⊆ listed') (hnamed : named ⊆ named') :
    Under single' listed' named' members s := by
  cases h with
  | single hk hs => exact .single (hsingle hk) hs
  | listed hk hxs hs => exact .listed (hlisted hk) hxs hs
  | named hk hss hs => exact .named (hnamed hk) hss hs

theorem Applied.inner {members : Fields Json} {s : Json} (h : Applied members s) :
    Inner members s :=
  Under.mono h (by decide) (by decide) (by decide)

theorem Under.depth_lt {single listed named : List String} {members : Fields Json} {s : Json}
    (h : Under single listed named members s) : s.depth < (Json.obj members).depth := by
  cases h with
  | single _ hs => exact Json.depth_lt_of_mem_obj hs
  | listed _ hxs hs =>
    exact Nat.lt_trans (Json.depth_lt_of_mem_arr hs) (Json.depth_lt_of_mem_obj hxs)
  | named _ hss hs =>
    exact Nat.lt_trans (Json.depth_lt_of_mem_obj hs) (Json.depth_lt_of_mem_obj hss)

/-! ## Agreement -/

/-- Rules say the same of two schemas and a value, at any two places with related scopes. -/
structure Rules.Match (S : Scope → Scope → Prop) (r r' : Rules) (s s' v : Json) : Prop where
  valid : ∀ p p' : Place, S p.scope p'.scope → r.valid p s v = r'.valid p' s' v
  keys : ∀ p p' : Place, S p.scope p'.scope → r.keys p s v = r'.keys p' s' v
  indices : ∀ p p' : Place, S p.scope p'.scope → r.indices p s v = r'.indices p' s' v

/-- Rules say the same of a schema and a value, at any two places in documents of which both follow
the specification in force or neither does. -/
abbrev Rules.Agree (r r' : Rules) (s v : Json) : Prop :=
  Rules.Match (fun a b => a.known = b.known) r r' s s v

/-- Two readings of references, and two ways of judging, come to the same for a schema and a value,
when the references in the schema are renamed on the right. -/
structure Parallel (f : String → String) (S : Scope → Scope → Prop) (l l' : Library) (r r' : Rules)
    (members : Fields Json) (v : Json) : Prop where
  here : ∀ s, Applied members s → ∀ k, r.Match S r' s (relinkAt f k s) v
  parts : ∀ s, Inner members s → ∀ k x, x.depth < v.depth → r.Match S r' s (relinkAt f k s) x
  targets : ∀ p p' : Place, S p.scope p'.scope → ∀ k arg, (k, arg) ∈ members →
    k ∈ ["$ref", "$dynamicRef"] →
      Option.Rel (fun b b' => S b.1.scope b'.1.scope ∧ r.Match S r' b.2 b'.2 v)
        (target? l p members k arg)
        (target? l' p' (relinkMembers f members) k (relinkAt f k arg))
  data : ∀ k ∈ ["const", "enum"], ∀ arg, (k, arg) ∈ members → relinkAt f k arg = arg
  known : ∀ a b, S a b → a.known = b.known
  within : ∀ a b, S a b →
    S (a.within (.obj members)) (b.within (.obj (relinkMembers f members)))

/-- Two readings of references, and two ways of judging, come to the same for a schema and a
value. -/
structure Concur (l l' : Library) (r r' : Rules) (members : Fields Json) (v : Json) : Prop where
  here : ∀ s, Applied members s → r.Agree r' s v
  parts : ∀ s, Inner members s → ∀ x, x.depth < v.depth → r.Agree r' s x
  targets : ∀ p p' : Place, p.scope.known = p'.scope.known → ∀ k arg, (k, arg) ∈ members →
    k ∈ ["$ref", "$dynamicRef"] →
      Option.Rel (fun b b' => b.2 = b'.2 ∧ b.1.scope.known = b'.1.scope.known ∧ r.Agree r' b.2 v)
        (target? l p members k arg) (target? l' p' members k arg)

theorem isEmpty_flatMap_congr {α β γ : Type} {xs : List α} {f : α → List β} {g : α → List γ}
    (h : ∀ x ∈ xs, (f x).isEmpty = (g x).isEmpty) :
    (xs.flatMap f).isEmpty = (xs.flatMap g).isEmpty := by
  rw [isEmpty_flatMap, isEmpty_flatMap, Bool.eq_iff_iff, List.all_eq_true, List.all_eq_true]
  exact forall₂_congr (fun x hx => by rw [h x hx])

theorem mem_of_mem_indexed {xs : List Json} {b : Nat × Json} (h : b ∈ indexed xs) : b.2 ∈ xs :=
  (List.of_mem_zip h).2

theorem branches_eq (p : Place) (k : String) (arg : Json) : branches p k arg =
    (indexed ((arg.items?).getD [])).map (fun b => (p.entry k (toString b.1), b.2)) :=
  rfl

theorem mem_items_getD {arg s : Json} (h : s ∈ (arg.items?).getD []) :
    ∃ xs, arg = .arr xs ∧ s ∈ xs := by
  cases arg with
  | arr xs => exact ⟨xs, rfl, h⟩
  | _ => cases h

variable {l l' : Library} {r r' : Rules} {p p' : Place} {members : Fields Json} {k : String}
  {arg v : Json}

theorem schemas_getD {arg : Json} {m : String × Json} (h : m ∈ (arg.members?).getD []) :
    ∃ ss, arg = .obj ss ∧ m ∈ ss := by
  cases arg with
  | obj ss => exact ⟨ss, rfl, h⟩
  | _ => cases h

/-- The schemas that a keyword of a schema holds under names. -/
def entriesOf (members : Fields Json) (k : String) : Fields Json :=
  ((Fields.get? members k).bind Json.members?).getD []

theorem exists_of_mem_entriesOf {m : String × Json} (h : m ∈ entriesOf members k) :
    ∃ ss, (k, .obj ss) ∈ members ∧ m ∈ ss := by
  unfold entriesOf at h
  cases hget : Fields.get? members k with
  | none => simp [hget] at h
  | some arg =>
    rw [hget] at h
    rcases schemas_getD h with ⟨ss, rfl, hm⟩
    exact ⟨ss, Fields.mem_of_get? hget, hm⟩

theorem forall_declaredFor_iff {name : String} {P : Place × Json → Prop} :
    (∀ b ∈ declaredFor p members name, P b) ↔
      (∀ s, Fields.get? (entriesOf members "properties") name = some s →
        P ((p.entry "properties" name).part name, s)) ∧
      ∀ e ∈ entriesOf members "patternProperties", Pattern.found e.1 name = true →
        P ((p.entry "patternProperties" e.1).part name, e.2) := by
  unfold declaredFor matching
  rw [List.forall_mem_append]
  refine and_congr ?_ ?_
  · simp [entriesOf]
  · rw [List.forall_mem_map]
    simp only [List.mem_filter, and_imp]
    rfl

theorem declaredFor_eq_nil_iff {name : String} : declaredFor p members name = [] ↔
    Fields.get? (entriesOf members "properties") name = none ∧
      ∀ e ∈ entriesOf members "patternProperties", Pattern.found e.1 name = false := by
  unfold declaredFor matching
  rw [List.append_eq_nil_iff]
  refine and_congr ?_ ?_
  · simp [entriesOf]
  · simp [entriesOf, List.filter_eq_nil_iff]

/-! ## Renamed references -/

section

variable {f : String → String}

theorem entriesOf_relinkMembers :
    entriesOf (relinkMembers f members) k = relinkMembers f (entriesOf members k) := by
  unfold entriesOf
  rw [get?_relinkMembers]
  cases Fields.get? members k with
  | none => rw [relinkMembers_eq]; rfl
  | some arg =>
    rw [Option.map_some, Option.bind_some, Option.bind_some, members?_relinkAt]
    cases arg.members? with
    | none => rw [relinkMembers_eq]; rfl
    | some ss => rfl

theorem forall_mem_relinkMembers {ms : Fields Json} {P : String × Json → Prop} :
    (∀ m ∈ relinkMembers f ms, P m) ↔ ∀ m ∈ ms, P (m.1, relinkAt f m.1 m.2) := by
  rw [relinkMembers_eq, List.forall_mem_map]

theorem flatMap_relinkMembers {α : Type} {ms : Fields Json} {g : String × Json → List α} :
    (relinkMembers f ms).flatMap g = ms.flatMap (fun m => g (m.1, relinkAt f m.1 m.2)) := by
  rw [relinkMembers_eq, List.flatMap_map]

theorem items?_getD_relinkAt :
    ((relinkAt f k arg).items?).getD [] = ((arg.items?).getD []).map (relinkAt f "") := by
  rw [items?_relinkAt]
  cases arg.items? <;> rfl

theorem branches_relinkAt : branches p k (relinkAt f k arg) =
    (indexed ((arg.items?).getD [])).map
      (fun b => (p.entry k (toString b.1), relinkAt f "" b.2)) := by
  rw [branches_eq, items?_getD_relinkAt]
  unfold indexed
  rw [List.length_map, List.zip_map_right, List.map_map]
  rfl

theorem takesOver_relinkMembers :
    takesOver (relinkMembers f members) = takesOver members := by
  unfold takesOver
  rw [get?_relinkMembers]
  cases Fields.get? members "additionalProperties" with
  | none => rfl
  | some arg =>
    cases arg with
    | bool b => cases b <;> rfl
    | _ => rfl

theorem relinkAt_eq_bool_iff {b : Bool} : relinkAt f k arg = .bool b ↔ arg = .bool b := by
  cases arg <;> simp [relinkAt_str]

theorem leadingCount_relinkMembers :
    leadingCount (relinkMembers f members) = leadingCount members := by
  unfold leadingCount
  rw [get?_relinkMembers]
  cases Fields.get? members "prefixItems" with
  | none => rfl
  | some arg =>
    rw [Option.map_some, Option.bind_some, Option.bind_some, items?_getD_relinkAt, List.length_map]

theorem count?_relinkAt : Assertion.count? (relinkAt f k arg) = Assertion.count? arg := by
  cases arg <;> rfl

theorem bind_count?_relinkMembers : (Fields.get? (relinkMembers f members) k).bind
    Assertion.count? = (Fields.get? members k).bind Assertion.count? := by
  rw [get?_relinkMembers]
  cases Fields.get? members k with
  | none => rfl
  | some arg => exact count?_relinkAt

theorem texts_relinkItems (xs : List Json) :
    (xs.map (relinkAt f "")).filterMap Json.text? = xs.filterMap Json.text? := by
  rw [List.filterMap_map]
  refine List.filterMap_congr (fun x _ => ?_)
  cases x with
  | str s => exact congrArg Json.text? (relink_str s)
  | _ => rfl

theorem requiredViolations_relinkAt :
    Assertion.requiredViolations (relinkAt f k arg) v = Assertion.requiredViolations arg v := by
  cases v with
  | obj entries =>
    cases arg with
    | arr names =>
      rw [relinkAt_arr]
      unfold Assertion.requiredViolations Assertion.missing
      dsimp only
      rw [texts_relinkItems]
    | _ => rfl
  | _ => cases arg <;> rfl

theorem typeViolations_relinkAt (hk : k ≠ "$ref") :
    Assertion.typeViolations (relinkAt f k arg) v = Assertion.typeViolations arg v := by
  cases arg with
  | str s => rw [relinkAt_str, if_neg hk]
  | arr names => simp only [Assertion.typeViolations, relinkAt_arr, texts_relinkItems]
  | _ => rfl

theorem dependentViolations_relinkAt :
    Assertion.dependentViolations (relinkAt f k arg) v = Assertion.dependentViolations arg v := by
  cases v with
  | obj entries =>
    cases arg with
    | obj deps =>
      rw [relinkAt_obj]
      unfold Assertion.dependentViolations
      dsimp only
      rw [flatMap_relinkMembers]
      refine List.flatMap_congr (fun m _ => ?_)
      dsimp only
      rw [requiredViolations_relinkAt]
    | _ => rfl
  | _ => cases arg <;> rfl

theorem sizeBound_relinkAt {size? : Json → Option Nat} {allowed : Nat → Nat → Bool}
    {violation : Json → Nat → Violation} :
    Assertion.sizeBound size? allowed violation (relinkAt f k arg) v =
      Assertion.sizeBound size? allowed violation arg v := by
  unfold Assertion.sizeBound
  rw [count?_relinkAt]

/-- Assertions do not depend on how references are spelled. -/
theorem violations_relinkAt (hk : k ≠ "$ref")
    (hdata : k ∈ ["const", "enum"] → relinkAt f k arg = arg) :
    Assertion.violations k (relinkAt f k arg) v = Assertion.violations k arg v := by
  -- texts and numbers stay, so only lists and objects have to be looked into
  have hscalar : ∀ {g : Json → Json → List Violation}, (∀ xs, g (.arr xs) v = []) →
      (∀ ms, g (.obj ms) v = []) → g (relinkAt f k arg) v = g arg v := by
    intro g harr hobj
    cases arg with
    | str s => rw [relinkAt_str, if_neg hk]
    | arr xs => rw [relinkAt_arr, harr, harr]
    | obj ms => rw [relinkAt_obj, hobj, hobj]
    | _ => rfl
  have hbound : ∀ allowed violation, Assertion.bound allowed violation (relinkAt f k arg) v =
      Assertion.bound allowed violation arg v :=
    fun _ _ => hscalar (fun _ => by cases v <;> rfl) (fun _ => by cases v <;> rfl)
  unfold Assertion.violations
  split
  · exact typeViolations_relinkAt hk
  · rw [hdata (by simp)]
  · rw [hdata (by simp)]
  · exact hbound _ _
  · exact hbound _ _
  · exact hbound _ _
  · exact hbound _ _
  · exact hscalar (fun _ => by cases v <;> rfl) (fun _ => by cases v <;> rfl)
  · exact sizeBound_relinkAt
  · exact sizeBound_relinkAt
  · exact sizeBound_relinkAt
  · exact sizeBound_relinkAt
  · exact sizeBound_relinkAt
  · exact sizeBound_relinkAt
  · cases arg with
    | str s => rw [relinkAt_str, if_neg hk]
    | _ => rfl
  · exact requiredViolations_relinkAt
  · exact dependentViolations_relinkAt
  · exact hscalar (fun _ => by cases v <;> rfl) (fun _ => by cases v <;> rfl)
  · exact hscalar (fun _ => by cases v <;> rfl) (fun _ => by cases v <;> rfl)
  · rfl

end

namespace Parallel

variable {f : String → String} {S : Scope → Scope → Prop}
  (h : Parallel f S l l' r r' members v) (hp : S p.scope p'.scope)

include h

theorem single (hk : k ∈ schemaKeywords) (hm : (k, arg) ∈ members) {x : Json}
    (hx : x.depth < v.depth) : r.Match S r' arg (relinkAt f k arg) x :=
  h.parts _ (.single hk hm) k x hx

theorem named {ss : Fields Json} {name : String} {s x : Json}
    (hk : k ∈ "dependencies" :: mapKeywords) (hm : (k, .obj ss) ∈ members) (hs : (name, s) ∈ ss)
    (hx : x.depth < v.depth) : r.Match S r' s (relinkAt f name s) x :=
  h.parts _ (.named hk hm hs) name x hx

include hp

/-- The schemas that apply to the same place, as the two sides see them. -/
theorem forall₂_branches (hk : k ∈ ["allOf", "anyOf", "oneOf"]) (hm : (k, arg) ∈ members) :
    List.Forall₂ (fun b b' => S b.1.scope b'.1.scope ∧ r.Match S r' b.2 b'.2 v)
      (branches p k arg) (branches p' k (relinkAt f k arg)) := by
  rw [branches_eq, branches_relinkAt, List.forall₂_map_left_iff, List.forall₂_map_right_iff]
  refine List.forall₂_same.mpr (fun b hb => ?_)
  rcases mem_items_getD (mem_of_mem_indexed hb) with ⟨_, rfl, hs⟩
  exact ⟨hp, h.here _ (.listed hk hm hs) ""⟩

/-! ## Findings -/

section

variable (hm : (k, arg) ∈ members)

include hm

theorem isEmpty_reference (hk : k ∈ ["$ref", "$dynamicRef"]) :
    (reference l r p members k arg v).isEmpty =
      (reference l' r' p' (relinkMembers f members) k (relinkAt f k arg) v).isEmpty := by
  have htargets := h.targets p p' hp k arg hm hk
  unfold reference
  generalize target? l p members k arg = x at htargets ⊢
  generalize target? l' p' (relinkMembers f members) k (relinkAt f k arg) = x' at htargets ⊢
  cases htargets with
  | none => rfl
  | some hb => exact hb.2.valid _ _ hb.1

theorem isEmpty_allOf (hk : k = "allOf") :
    ((branches p k arg).flatMap (fun (q, s) => r.judge q s v)).isEmpty =
      ((branches p' k (relinkAt f k arg)).flatMap (fun (q, s) => r'.judge q s v)).isEmpty :=
  isEmpty_flatMap_of_forall₂ (fun _ _ hb => hb.2.valid _ _ hb.1)
    (h.forall₂_branches hp (by simp [hk]) hm)

theorem forall₂_valid (hk : k ∈ ["allOf", "anyOf", "oneOf"]) :
    List.Forall₂ (fun b b' => S b.1.scope b'.1.scope ∧ r.Match S r' b.2 b'.2 v)
      ((branches p k arg).filter (fun (q, s) => r.valid q s v))
      ((branches p' k (relinkAt f k arg)).filter (fun (q, s) => r'.valid q s v)) :=
  filter_of_forall₂ (fun _ _ hb => hb.2.valid _ _ hb.1) (h.forall₂_branches hp hk hm)

theorem isEmpty_anyOf (hk : k = "anyOf") :
    (anyOf r p arg v).isEmpty = (anyOf r' p' (relinkAt f k arg) v).isEmpty := by
  subst hk
  have hany : (branches p "anyOf" arg).any (fun (q, s) => r.valid q s v) =
      (branches p' "anyOf" (relinkAt f "anyOf" arg)).any (fun (q, s) => r'.valid q s v) :=
    any_of_forall₂ (fun _ _ hb => hb.2.valid _ _ hb.1) (h.forall₂_branches hp (by decide) hm)
  unfold anyOf
  rw [hany]
  split <;> rfl

theorem isEmpty_oneOf (hk : k = "oneOf") :
    (oneOf r p arg v).isEmpty = (oneOf r' p' (relinkAt f k arg) v).isEmpty := by
  subst hk
  have hfound := h.forall₂_valid hp hm (by decide)
  unfold oneOf
  generalize (branches p "oneOf" arg).filter (fun (q, s) => r.valid q s v) = found at hfound ⊢
  generalize (branches p' "oneOf" (relinkAt f "oneOf" arg)).filter
    (fun (q, s) => r'.valid q s v) = found' at hfound ⊢
  cases hfound with
  | nil => rfl
  | cons _ hrest => cases hrest <;> rfl

theorem isEmpty_contains (hk : k = "contains") :
    (contains r p members arg v).isEmpty =
      (contains r' p' (relinkMembers f members) (relinkAt f k arg) v).isEmpty := by
  subst hk
  cases v with
  | arr xs =>
    have hfound : xs.filter (r.valid (p.keyword "contains") arg) =
        xs.filter (r'.valid (p'.keyword "contains") (relinkAt f "contains" arg)) :=
      List.filter_congr (fun x hx =>
        (h.single (by decide) hm (Json.depth_lt_of_mem_arr hx)).valid _ _ hp)
    unfold contains
    dsimp only
    rw [hfound, bind_count?_relinkMembers, bind_count?_relinkMembers]
    generalize (xs.filter
      (r'.valid (p'.keyword "contains") (relinkAt f "contains" arg))).length = found
    cases (Fields.get? members "minContains").bind Assertion.count? with
    | none =>
      cases (Fields.get? members "maxContains").bind Assertion.count? with
      | none => dsimp only; split <;> rfl
      | some m => dsimp only; split <;> rfl
    | some n =>
      cases (Fields.get? members "maxContains").bind Assertion.count? with
      | none => dsimp only; split <;> rfl
      | some m => dsimp only; split <;> first | rfl | (split <;> rfl)
  | _ => rfl

theorem isEmpty_dependentSchemas (hk : k = "dependentSchemas") :
    (dependentSchemas r p arg v).isEmpty =
      (dependentSchemas r' p' (relinkAt f k arg) v).isEmpty := by
  subst hk
  cases v with
  | obj entries =>
    cases arg with
    | obj ss =>
      rw [relinkAt_obj]
      unfold dependentSchemas
      dsimp only
      rw [flatMap_relinkMembers]
      refine isEmpty_flatMap_congr (fun m hs => ?_)
      dsimp only
      split
      · exact (h.here _ (.named (by decide) hm hs) m.1).valid _ _ hp
      · rfl
    | _ => rfl
  | _ => cases arg <;> rfl

theorem isEmpty_dependencies (hk : k = "dependencies") :
    (dependencies r p arg v).isEmpty = (dependencies r' p' (relinkAt f k arg) v).isEmpty := by
  subst hk
  cases v with
  | obj entries =>
    cases arg with
    | obj ss =>
      rw [relinkAt_obj]
      unfold dependencies
      dsimp only
      rw [flatMap_relinkMembers]
      refine isEmpty_flatMap_congr (fun m hs => ?_)
      rcases m with ⟨name, d⟩
      dsimp only
      split
      · have hmatch := (h.here _ (.named (by decide) hm hs) name).valid
          (p.entry "dependencies" name) (p'.entry "dependencies" name) hp
        -- a list names members, everything else is a schema
        cases d with
        | arr names =>
          have hrequired : Assertion.requiredViolations (relinkAt f name (.arr names)) (.obj entries) =
              Assertion.requiredViolations (.arr names) (.obj entries) := requiredViolations_relinkAt
          rw [relinkAt_arr] at hrequired ⊢
          dsimp only
          rw [List.isEmpty_map, List.isEmpty_map, hrequired]
        | _ => exact hmatch
      · rfl
    | _ => rfl
  | _ => cases arg <;> rfl

theorem isEmpty_conditional (hk : k = "if") :
    (conditional r p members arg v).isEmpty =
      (conditional r' p' (relinkMembers f members) (relinkAt f k arg) v).isEmpty := by
  subst hk
  unfold conditional
  rw [(h.here _ (.single (by decide) hm) "if").valid (p.keyword "if") (p'.keyword "if") hp]
  dsimp only
  generalize hnext : (if r'.valid (p'.keyword "if") (relinkAt f "if" arg) v then "then"
    else "else") = next
  have hmem : next ∈ ["if", "then", "else", "not"] := by
    rw [← hnext]
    split <;> simp
  rw [get?_relinkMembers]
  cases hget : Fields.get? members next with
  | none => rfl
  | some s => exact (h.here _ (.single hmem (Fields.mem_of_get? hget)) next).valid _ _ hp

theorem isEmpty_not (hk : k = "not") :
    (if r.valid (p.keyword k) arg v then [(p.keyword k).report (.negated arg v)]
      else []).isEmpty =
    (if r'.valid (p'.keyword k) (relinkAt f k arg) v then
        [(p'.keyword k).report (.negated (relinkAt f k arg) v)]
      else []).isEmpty := by
  rw [(h.here _ (.single (by simp [hk]) hm) k).valid (p.keyword k) (p'.keyword k) hp]
  split <;> rfl

theorem isEmpty_properties (hk : k = "properties") :
    (properties r p arg v).isEmpty = (properties r' p' (relinkAt f k arg) v).isEmpty := by
  subst hk
  cases v with
  | obj entries =>
    cases arg with
    | obj ss =>
      rw [relinkAt_obj]
      unfold properties
      dsimp only
      rw [flatMap_relinkMembers]
      refine isEmpty_flatMap_congr (fun m hs => ?_)
      dsimp only
      cases hget : Fields.get? entries m.1 with
      | none => rfl
      | some x =>
        exact (h.named (by decide) hm hs
          (Json.depth_lt_of_mem_obj (Fields.mem_of_get? hget))).valid _ _ hp
    | _ => rfl
  | _ => cases arg <;> rfl

theorem isEmpty_patternProperties (hk : k = "patternProperties") :
    (patternProperties r p arg v).isEmpty =
      (patternProperties r' p' (relinkAt f k arg) v).isEmpty := by
  subst hk
  cases v with
  | obj entries =>
    cases arg with
    | obj ss =>
      rw [relinkAt_obj]
      unfold patternProperties
      dsimp only
      rw [flatMap_relinkMembers]
      refine isEmpty_flatMap_congr (fun m hs => isEmpty_flatMap_congr (fun x hx => ?_))
      dsimp only
      split
      · exact (h.named (by decide) hm hs (Json.depth_lt_of_mem_obj hx)).valid _ _ hp
      · rfl
    | _ => rfl
  | _ => cases arg <;> rfl

theorem isEmpty_additionalProperties (hk : k = "additionalProperties") :
    (additionalProperties r p members arg v).isEmpty =
      (additionalProperties r' p' (relinkMembers f members) (relinkAt f k arg) v).isEmpty := by
  subst hk
  cases htakes : takesOver members with
  | false => simp [additionalProperties, htakes, takesOver_relinkMembers]
  | true =>
    have htakes' : takesOver (relinkMembers f members) = true :=
      takesOver_relinkMembers.trans htakes
    cases v with
    | obj entries =>
      rw [Bool.eq_iff_iff, List.isEmpty_iff, List.isEmpty_iff,
        additionalProperties_eq_nil_iff htakes, additionalProperties_eq_nil_iff htakes']
      refine forall₂_congr (fun x hx => ?_)
      have hdepth := Json.depth_lt_of_mem_obj hx
      have hjudge : ∀ {s s' : Json} {q q' : Place}, r.Match S r' s s' x.2 →
          S q.scope q'.scope → (r.judge q s x.2 = [] ↔ r'.judge q' s' x.2 = []) := by
        intro s s' q q' hmatch hq
        rw [← List.isEmpty_iff, ← List.isEmpty_iff]
        exact Bool.eq_iff_iff.mp (hmatch.valid q q' hq)
      refine and_congr ?_ ?_
      · rw [forall_declaredFor_iff, forall_declaredFor_iff, entriesOf_relinkMembers,
          entriesOf_relinkMembers, get?_relinkMembers, forall_mem_relinkMembers]
        refine and_congr ?_ (forall₃_congr (fun e he _ => ?_))
        · cases hget : Fields.get? (entriesOf members "properties") x.1 with
          | none => simp
          | some s =>
            rcases exists_of_mem_entriesOf (Fields.mem_of_get? hget) with ⟨ss, hss, hs⟩
            rw [Option.map_some]
            simp only [Option.some.injEq, forall_eq']
            exact hjudge (h.named (by decide) hss hs hdepth) hp
        · rcases exists_of_mem_entriesOf he with ⟨ss, hss, hs⟩
          exact hjudge (h.named (by decide) hss hs hdepth) hp
      · rw [declaredFor_eq_nil_iff, declaredFor_eq_nil_iff, entriesOf_relinkMembers,
          entriesOf_relinkMembers, get?_relinkMembers, forall_mem_relinkMembers,
          Option.map_eq_none_iff]
        exact imp_congr_right (fun _ => and_congr (not_congr relinkAt_eq_bool_iff.symm)
          (hjudge (h.single (by decide) hm hdepth) hp))
    | _ => simp [additionalProperties]

theorem isEmpty_propertyNames (hk : k = "propertyNames") :
    (propertyNames r p arg v).isEmpty = (propertyNames r' p' (relinkAt f k arg) v).isEmpty := by
  subst hk
  cases v with
  | obj entries =>
    cases arg with
    | obj ss =>
      cases entries with
      | nil => rfl
      | cons m rest =>
        refine isEmpty_flatMap_congr (fun x hx => ?_)
        -- a name is a text, and the object has at least one member
        have hdepth : (Json.str x.1).depth < (Json.obj (m :: rest)).depth :=
          Nat.lt_of_le_of_lt (Nat.zero_le _) (Json.depth_lt_of_mem_obj hx)
        exact (h.single (by decide) hm hdepth).valid _ _ hp
    | bool b =>
      cases entries with
      | nil => rfl
      | cons m rest => cases b <;> rfl
    | _ => cases entries <;> rfl
  | _ => cases arg <;> rfl

theorem isEmpty_leadingItems (hk : k = "prefixItems") :
    (leadingItems r p arg v).isEmpty = (leadingItems r' p' (relinkAt f k arg) v).isEmpty := by
  subst hk
  cases v with
  | arr xs =>
    unfold leadingItems
    dsimp only
    rw [branches_eq, branches_relinkAt, List.zip_map_left, List.zip_map_left, List.flatMap_map,
      List.flatMap_map]
    refine isEmpty_flatMap_congr (fun b hb => ?_)
    rcases List.of_mem_zip hb with ⟨hs, hx⟩
    rcases mem_items_getD (mem_of_mem_indexed hs) with ⟨_, rfl, hitem⟩
    exact (h.parts b.1.2 (.listed (by decide) hm hitem) "" _
      (Json.depth_lt_of_mem_arr (mem_of_mem_indexed hx))).valid _ _ hp
  | _ => rfl

theorem isEmpty_remainingItems (hk : k = "items") :
    (remainingItems r p members arg v).isEmpty =
      (remainingItems r' p' (relinkMembers f members) (relinkAt f k arg) v).isEmpty := by
  subst hk
  cases v with
  | arr xs =>
    unfold remainingItems
    rw [leadingCount_relinkMembers]
    refine isEmpty_flatMap_congr (fun b hb => ?_)
    have hx := mem_of_mem_indexed (List.mem_of_mem_drop hb)
    exact (h.single (by decide) hm (Json.depth_lt_of_mem_arr hx)).valid _ _ hp
  | _ => rfl

end

/-! ## What has been looked at -/

section

variable {α : Type} {seen seen' : Place → Json → Json → List α}

theorem flatMap_target (hseen : ∀ s s', r.Match S r' s s' v → ∀ q q' : Place,
    S q.scope q'.scope → seen q s v = seen' q' s' v)
    (hk : k ∈ ["$ref", "$dynamicRef"]) :
    (((Fields.get? members k).bind (target? l p members k)).map
        (fun b => seen b.1 b.2 v)).getD [] =
      (((Fields.get? (relinkMembers f members) k).bind
        (target? l' p' (relinkMembers f members) k)).map (fun b => seen' b.1 b.2 v)).getD [] := by
  rw [get?_relinkMembers]
  cases hget : Fields.get? members k with
  | none => rfl
  | some arg =>
    have htargets := h.targets p p' hp k arg (Fields.mem_of_get? hget) hk
    rw [Option.map_some, Option.bind_some, Option.bind_some]
    generalize target? l p members k arg = x at htargets ⊢
    generalize target? l' p' (relinkMembers f members) k (relinkAt f k arg) = x' at htargets ⊢
    cases htargets with
    | none => rfl
    | some hb => exact hseen _ _ hb.2 _ _ hb.1

theorem inPlace_eq (hseen : ∀ s s', r.Match S r' s s' v → ∀ q q' : Place,
    S q.scope q'.scope → seen q s v = seen' q' s' v) :
    inPlace l r seen p members v = inPlace l' r' seen' p' (relinkMembers f members) v := by
  have hunder : ∀ k ∈ ["allOf", "anyOf", "oneOf"],
      List.Forall₂ (fun b b' => S b.1.scope b'.1.scope ∧ r.Match S r' b.2 b'.2 v)
        (((Fields.get? members k).map (branches p k)).getD [])
        (((Fields.get? (relinkMembers f members) k).map (branches p' k)).getD []) := by
    intro k hk
    rw [get?_relinkMembers]
    cases hget : Fields.get? members k with
    | none => exact .nil
    | some arg => exact h.forall₂_branches hp hk (Fields.mem_of_get? hget)
  have hholds : ∀ b b' : Place × Json, S b.1.scope b'.1.scope ∧ r.Match S r' b.2 b'.2 v →
      r.valid b.1 b.2 v = r'.valid b'.1 b'.2 v :=
    fun _ _ hb => hb.2.valid _ _ hb.1
  have hlook : ∀ b b' : Place × Json, S b.1.scope b'.1.scope ∧ r.Match S r' b.2 b'.2 v →
      seen b.1 b.2 v = seen' b'.1 b'.2 v :=
    fun _ _ hb => hseen _ _ hb.2 _ _ hb.1
  have hsingle : ∀ k ∈ ["if", "then", "else", "not"], ∀ s, Fields.get? members k = some s →
      r.Match S r' s (relinkAt f k s) v :=
    fun k hk s hget => h.here s (.single hk (Fields.mem_of_get? hget)) k
  have hnext : ∀ k ∈ ["if", "then", "else", "not"],
      ((Fields.get? members k).map (fun s => seen (p.keyword k) s v)).getD [] =
        ((Fields.get? (relinkMembers f members) k).map
          (fun s => seen' (p'.keyword k) s v)).getD [] := by
    intro k hk
    rw [get?_relinkMembers]
    cases hget : Fields.get? members k with
    | none => rfl
    | some s => exact hseen s _ (hsingle k hk s hget) _ _ hp
  have hone := filter_of_forall₂ hholds (hunder "oneOf" (by decide))
  unfold inPlace
  dsimp only
  refine congrArg₂ (· ++ ·) (congrArg₂ (· ++ ·) (congrArg₂ (· ++ ·) (congrArg₂ (· ++ ·) ?_ ?_) ?_)
    ?_) ?_
  · exact List.flatMap_congr (fun k hk => h.flatMap_target hp hseen hk)
  · exact congrArg₂ (fun (b : Bool) ys => if b = true then ys else [])
      (all_of_forall₂ hholds (hunder "allOf" (by decide)))
      (flatMap_of_forall₂ hlook (hunder "allOf" (by decide)))
  · exact flatMap_of_forall₂ hlook (filter_of_forall₂ hholds (hunder "anyOf" (by decide)))
  · exact congrArg₂ (fun (n : Nat) ys => if n = 1 then ys else []) hone.length_eq
      (flatMap_of_forall₂ hlook hone)
  · have hthen := hnext "then" (by decide)
    have helse := hnext "else" (by decide)
    rw [get?_relinkMembers members "if"]
    cases hget : Fields.get? members "if" with
    | none => rfl
    | some c =>
      have hcondition := hsingle "if" (by decide) c hget
      rw [Option.map_some]
      dsimp only
      rw [hcondition.valid (p.keyword "if") (p'.keyword "if") hp,
        hseen c _ hcondition (p.keyword "if") (p'.keyword "if") hp, hthen, helse]

end

theorem seenKeys_eq : seenKeys l r p (.obj members) v =
    seenKeys l' r' p' (.obj (relinkMembers f members)) v := by
  have hp := h.within _ _ hp
  cases v with
  | obj entries =>
    have hpassing : ∀ k ∈ schemaKeywords, ∀ s, Fields.get? members k = some s →
        ∀ q q' : Place, S q.scope q'.scope →
          (entries.filter (fun m => r.valid (q.part m.1) s m.2)).map (·.1) =
            (entries.filter (fun m => r'.valid (q'.part m.1) (relinkAt f k s) m.2)).map (·.1) := by
      intro k hk s hget q q' hq
      refine congrArg (List.map _) (List.filter_congr (fun x hx => ?_))
      exact (h.single hk (Fields.mem_of_get? hget) (Json.depth_lt_of_mem_obj hx)).valid _ _ hq
    have hentries : ∀ k, ((Fields.get? (relinkMembers f members) k).bind Json.members?).getD [] =
        relinkMembers f (entriesOf members k) := fun k => entriesOf_relinkMembers
    unfold seenKeys
    dsimp only
    rw [hentries, hentries, hentries]
    refine congrArg₂ (· ++ ·) (congrArg₂ (· ++ ·) (congrArg₂ (· ++ ·) (congrArg₂ (· ++ ·) ?_ ?_)
      ?_) ?_) ?_
    · rw [flatMap_relinkMembers]
      refine List.flatMap_congr (fun m hm => ?_)
      rcases exists_of_mem_entriesOf hm with ⟨ss, hss, hm⟩
      dsimp only
      cases hget : Fields.get? entries m.1 with
      | none => rfl
      | some x =>
        exact congrArg (fun (b : Bool) => if b = true then [m.1] else [])
          ((h.named (by decide) hss hm
            (Json.depth_lt_of_mem_obj (Fields.mem_of_get? hget))).valid _ _ hp)
    · refine List.flatMap_congr (fun x hx => ?_)
      have hany : (matching { p with scope := p.scope.within (.obj members) }
            (entriesOf members "patternProperties") x.1).any (fun b => r.valid b.1 b.2 x.2) =
          (matching { p' with scope := p'.scope.within (.obj (relinkMembers f members)) }
            (relinkMembers f (entriesOf members "patternProperties")) x.1).any
              (fun b => r'.valid b.1 b.2 x.2) := by
        unfold matching
        rw [relinkMembers_eq (entriesOf members "patternProperties"), List.filter_map, List.map_map,
          List.any_map, List.any_map, Bool.eq_iff_iff, List.any_eq_true, List.any_eq_true]
        refine exists_congr (fun e => and_congr_right (fun he => ?_))
        rcases exists_of_mem_entriesOf (List.mem_filter.mp he).1 with ⟨ss, hss, hs⟩
        exact Bool.eq_iff_iff.mp
          ((h.named (by decide) hss hs (Json.depth_lt_of_mem_obj hx)).valid _ _ hp)
      exact congrArg (fun (b : Bool) => if b = true then [x.1] else []) hany
    · refine List.flatMap_congr (fun k hk => ?_)
      rw [get?_relinkMembers]
      cases hget : Fields.get? members k with
      | none => rfl
      | some s =>
        refine hpassing k ?_ s hget _ _ hp
        rcases List.mem_pair.mp hk with rfl | rfl <;> decide
    · rw [flatMap_relinkMembers]
      refine List.flatMap_congr (fun m hm => ?_)
      rcases exists_of_mem_entriesOf hm with ⟨ss, hss, hm⟩
      dsimp only
      split
      · exact (h.here _ (.named (by decide) hss hm) m.1).keys _ _ hp
      · rfl
    · exact h.inPlace_eq hp (fun s s' hmatch q q' hq => hmatch.keys q q' hq)
  | _ => rfl

theorem seenIndices_eq : seenIndices l r p (.obj members) v =
    seenIndices l' r' p' (.obj (relinkMembers f members)) v := by
  have hp := h.within _ _ hp
  cases v with
  | arr xs =>
    unfold seenIndices
    dsimp only
    rw [contains_relinkMembers, leadingCount_relinkMembers]
    split
    · rfl
    · refine congrArg₂ (· ++ ·) (congrArg (_ ++ ·) (List.flatMap_congr (fun k hk => ?_)))
        (h.inPlace_eq hp (fun s s' hmatch q q' hq => hmatch.indices q q' hq))
      rw [get?_relinkMembers]
      cases hget : Fields.get? members k with
      | none => rfl
      | some s =>
        refine congrArg (List.map _) (List.filter_congr (fun b hb => ?_))
        have hk : k ∈ schemaKeywords := by
          rcases List.mem_pair.mp hk with rfl | rfl <;> decide
        exact (h.single hk (Fields.mem_of_get? hget)
          (Json.depth_lt_of_mem_arr (mem_of_mem_indexed hb))).valid _ _ hp
  | _ => rfl

theorem isEmpty_unevaluatedProperties :
    (unevaluatedProperties l r p (.obj members) v).isEmpty =
      (unevaluatedProperties l' r' p' (.obj (relinkMembers f members)) v).isEmpty := by
  unfold unevaluatedProperties
  rw [h.seenKeys_eq hp]
  cases v with
  | obj entries =>
    dsimp only
    split <;> rfl
  | _ => rfl

theorem isEmpty_unevaluatedItems :
    (unevaluatedItems l r p (.obj members) v).isEmpty =
      (unevaluatedItems l' r' p' (.obj (relinkMembers f members)) v).isEmpty := by
  unfold unevaluatedItems
  rw [h.seenIndices_eq hp]
  cases v with
  | arr xs =>
    dsimp only
    split <;> rfl
  | _ => rfl

/-! ## Schemas -/

/-- A keyword is violated at both places or at neither. -/
theorem isEmpty_keywordFindings (hm : (k, arg) ∈ members) :
    (keywordFindings l r p members k arg v).isEmpty =
      (keywordFindings l' r' p' (relinkMembers f members) k (relinkAt f k arg) v).isEmpty := by
  unfold keywordFindings
  rw [h.known _ _ hp]
  split
  · rfl
  · split
    · exact h.isEmpty_reference hp hm (by decide)
    · exact h.isEmpty_reference hp hm (by decide)
    · exact h.isEmpty_additionalProperties hp hm rfl
    · exact h.isEmpty_allOf hp hm rfl
    · exact h.isEmpty_anyOf hp hm rfl
    · exact h.isEmpty_contains hp hm rfl
    · exact h.isEmpty_dependencies hp hm rfl
    · exact h.isEmpty_dependentSchemas hp hm rfl
    · exact h.isEmpty_conditional hp hm rfl
    · exact h.isEmpty_remainingItems hp hm rfl
    · exact h.isEmpty_not hp hm rfl
    · exact h.isEmpty_oneOf hp hm rfl
    · rw [takesOver_relinkMembers]
      split
      · rfl
      · exact h.isEmpty_patternProperties hp hm rfl
    · exact h.isEmpty_leadingItems hp hm rfl
    · rw [takesOver_relinkMembers]
      split
      · rfl
      · exact h.isEmpty_properties hp hm rfl
    · exact h.isEmpty_propertyNames hp hm rfl
    · exact h.isEmpty_unevaluatedItems hp
    · exact h.isEmpty_unevaluatedProperties hp
    · next hk _ _ _ _ _ _ _ _ _ _ _ _ _ _ _ _ _ =>
      rw [List.isEmpty_map, List.isEmpty_map,
        violations_relinkAt hk (fun hmem => h.data k hmem arg hm)]

theorem isEmpty_findings : (findings l r p (.obj members) v).isEmpty =
    (findings l' r' p' (.obj (relinkMembers f members)) v).isEmpty := by
  have hp := h.within _ _ hp
  unfold findings
  dsimp only
  rw [flatMap_relinkMembers]
  exact isEmpty_flatMap_congr (fun m hm => h.isEmpty_keywordFindings hp hm)

end Parallel

/-! ## The same schema on both sides -/

namespace Concur

variable (h : Concur l l' r r' members v) (hp : p.scope.known = p'.scope.known)

include h

theorem parallel : Parallel id (fun a b => a.known = b.known) l l' r r' members v where
  here s hs k := (relinkAt_id k s).symm ▸ h.here s hs
  parts s hs k x hx := (relinkAt_id k s).symm ▸ h.parts s hs x hx
  targets p p' hp k arg hm hk := by
    rw [relinkMembers_id, relinkAt_id]
    refine rel_mono (fun b b' hb => ⟨hb.2.1, ?_⟩) (h.targets p p' hp k arg hm hk)
    rw [← hb.1]
    exact hb.2.2
  data k _ arg _ := relinkAt_id k arg
  known _ _ hab := hab
  within a b hab := by rw [within_known, within_known, hab]

include hp

theorem isEmpty_findings :
    (findings l r p (.obj members) v).isEmpty = (findings l' r' p' (.obj members) v).isEmpty := by
  have hfindings := h.parallel.isEmpty_findings hp
  rwa [relinkMembers_id] at hfindings

theorem seenKeys_eq :
    seenKeys l r p (.obj members) v = seenKeys l' r' p' (.obj members) v := by
  have hkeys := h.parallel.seenKeys_eq hp
  rwa [relinkMembers_id] at hkeys

theorem seenIndices_eq :
    seenIndices l r p (.obj members) v = seenIndices l' r' p' (.obj members) v := by
  have hindices := h.parallel.seenIndices_eq hp
  rwa [relinkMembers_id] at hindices

end Concur

end HttpContract.Evaluation
