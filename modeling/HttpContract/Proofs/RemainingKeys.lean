import HttpContract.Proofs.Correspondence
import HttpContract.Proofs.SingleBranch
import HttpContract.Proofs.Withholding

/-!
# The keys that validation leaves

The branches of `allOf` are walked first. They drop nothing and may fill in defaults; then the owner
fills in its own defaults and drops what neither it nor a branch declares. What is filled in is
declared, so it is never dropped again, and the keys that are left are given by one formula:
`contains_validate_iff`.
-/

namespace HttpContract.Normalization

variable {e : Engine}

/-! ## Keys that are filled in -/

/-- A plan has a default for a property. References under the property have none. -/
def Provides (p : Plan Node) (key : String) : Prop :=
  ∃ m, (key, m) ∈ p.properties ∧ m.filling.isSome = true

/-- A plan that applies where `n` stands has a default for a property. -/
def Supplies (e : Engine) (n : Node) (key : String) : Prop :=
  ∃ q, Applies e n q ∧ Provides q key

theorem declaresOwn_of_provides {p : Plan Node} {key : String} (h : Provides p key) :
    p.declaresOwn key = true := by
  rcases h with ⟨m, hm, -⟩
  have hkey : Fields.contains p.properties key = true := (Fields.contains_iff _ _).mpr ⟨m, hm⟩
  simp [Plan.declaresOwn, hkey]

theorem declares_of_supplies {n : Node} {key : String} (h : Supplies e n key) :
    Declares e n key := by
  rcases h with ⟨q, hq, hprovides⟩
  exact ⟨q, hq, declaresOwn_of_provides hprovides⟩

theorem supplies_plan_iff {p : Plan Node} {key : String} :
    Supplies e (.plan p) key ↔ (∃ m ∈ p.allOf, Supplies e m key) ∨ Provides p key := by
  unfold Supplies
  simp only [applies_plan_iff]
  constructor
  · rintro ⟨q, rfl | ⟨m, hm, hq⟩, hprovides⟩
    · exact Or.inr hprovides
    · exact Or.inl ⟨m, hm, q, hq, hprovides⟩
  · rintro (⟨m, hm, q, hq, hprovides⟩ | hprovides)
    · exact ⟨q, Or.inr ⟨m, hm, hq⟩, hprovides⟩
    · exact ⟨p, Or.inl rfl, hprovides⟩

theorem supplies_iff_of_resolve? {n : Node} {s : CompiledSchema} {key : String}
    (hs : e.resolve? n = some s) : Supplies e n key ↔ Supplies e s.root key := by
  simp only [Supplies, applies_iff_of_resolve? hs]

theorem contains_withDefaults_iff {key : String} : ∀ {properties : List (String × Node)}
    {members : Fields Json}, Fields.contains (withDefaults properties members) key = true ↔
      Fields.contains members key = true ∨ ∃ m, (key, m) ∈ properties ∧ m.filling.isSome = true
  | [], members => by simp [withDefaults]
  | (name, n) :: rest, members => by
    rw [Corresponds.withDefaults_eq, List.foldl_cons, ← Corresponds.withDefaults_eq,
      contains_withDefaults_iff]
    cases hn : n.filling with
    | none =>
      -- this property has no default, so only the others count
      have hrest : (∃ m, (key, m) ∈ (name, n) :: rest ∧ m.filling.isSome = true) ↔
          ∃ m, (key, m) ∈ rest ∧ m.filling.isSome = true := by
        grind
      rw [hrest]
    | some d =>
      have hcons : (∃ m, (key, m) ∈ (name, n) :: rest ∧ m.filling.isSome = true) ↔
          name = key ∨ ∃ m, (key, m) ∈ rest ∧ m.filling.isSome = true := by
        grind
      rw [hcons]
      dsimp only
      split <;> grind [Fields.contains_insert]

/-- Filling in adds the keys that a plan has a default for. -/
theorem contains_filled_iff {p : Plan Node} {members : Fields Json} {key : String} :
    Fields.contains (filled e p members) key = true ↔
      Fields.contains members key = true ∨ e.options.useDefaults = true ∧ Provides p key := by
  unfold filled
  split
  · next h => simp [h, contains_withDefaults_iff, Provides]
  · next h => simp [h]

/-! ## Keys that are there after a walk -/

/-- The parts of an object along a plan, when the branches of the plan have been walked. -/
theorem contains_of_plan {p : Plan Node} {strip clean : Bool}
    {members between members' : Fields Json} {key : String}
    (hkeys : Fields.contains between key = true ↔ Fields.contains members key = true ∨
      e.options.useDefaults = true ∧ ∃ m ∈ p.allOf, Supplies e m key)
    (hparts : Parts e p strip (.obj between) (.obj members') clean) :
    Fields.contains members' key = true ↔
      (Fields.contains members key = true ∨
        e.options.useDefaults = true ∧ Supplies e (.plan p) key) ∧
      ¬ (strip = true ∧ Drops e p key) := by
  rw [contains_of_parts hparts, contains_filled_iff, hkeys, supplies_plan_iff, and_or_left, or_assoc]

mutual

/-- Where nothing may be dropped an object keeps its keys and gains those with a default. -/
theorem contains_of_turns_iff {n : Node} {strip clean : Bool} {v w : Json} :
    Turns e n strip v w clean → strip = false → ∀ {members members'}, v = .obj members →
      w = .obj members' → ∀ key, Fields.contains members' key = true ↔
        Fields.contains members key = true ∨ e.options.useDefaults = true ∧ Supplies e n key
  | .nowhere hn hs, _, members, members', hv, hw, key => by
    obtain rfl : members = members' := Json.obj.inj (hv.symm.trans hw)
    have hnone : ¬ Supplies e n key := by
      rintro ⟨q, hq, -⟩
      exact not_applies_of_resolve?_none hn hs q hq
    simp [hnone]
  | .reference hs h, hstrip, members, members', hv, hw, key => by
    rw [contains_of_turns_iff h hstrip hv hw, supplies_iff_of_resolve? hs]
  | .plan (p := p) hbranches hparts, hstrip, members, members', hv, hw, key => by
    rw [hw] at hparts
    have hcoerced : coerced e.options p.types v = .obj members := by rw [hv, coerced_obj]
    rcases (hcoerced ▸ hbranches.alike).eq_obj with ⟨between, hbetween⟩
    rw [hbetween] at hparts
    rw [contains_of_plan (contains_of_runs_iff hbranches rfl hcoerced hbetween key) hparts]
    simp [hstrip]
termination_by structural h => h

theorem contains_of_runs_iff {nodes : List Node} {strip clean : Bool} {v w : Json} :
    Runs e strip nodes v w clean → strip = false → ∀ {members members'}, v = .obj members →
      w = .obj members' → ∀ key, Fields.contains members' key = true ↔
        Fields.contains members key = true ∨
          e.options.useDefaults = true ∧ ∃ n ∈ nodes, Supplies e n key
  | .nil, _, members, members', hv, hw, key => by
    obtain rfl : members = members' := Json.obj.inj (hv.symm.trans hw)
    simp
  | .cons h hrest, hstrip, members, members', hv, hw, key => by
    rcases (hv ▸ h.alike).eq_obj with ⟨between, hbetween⟩
    rw [contains_of_runs_iff hrest hstrip hbetween hw, contains_of_turns_iff h hstrip hv hbetween]
    grind
termination_by structural h => h

end

/-- A walk along a node is one along the plan that the node comes to. -/
theorem exists_turns_of_head {n : Node} {p : Plan Node} (hp : Head e n p) {strip clean : Bool}
    {v w : Json} (h : Turns e n strip v w clean) :
    ∃ clean', Turns e (.plan p) strip v w clean' := by
  induction hp generalizing clean with
  | self => exact ⟨_, h⟩
  | reference hs _ ih =>
    rcases (turns_iff_of_resolve? hs).mp h with ⟨inner, hinner, -⟩
    exact ih hinner

/-- The keys of an object after a walk along the plan that a node comes to. -/
theorem contains_of_head {n : Node} {p : Plan Node} (hp : Head e n p) {strip clean : Bool}
    {members members' : Fields Json}
    (h : Turns e n strip (.obj members) (.obj members') clean) (key : String) :
    Fields.contains members' key = true ↔
      (Fields.contains members key = true ∨
        e.options.useDefaults = true ∧ Supplies e (.plan p) key) ∧
      ¬ (strip = true ∧ Drops e p key) := by
  rcases exists_turns_of_head hp h with ⟨clean', hplan⟩
  rcases turns_plan_iff.mp hplan with ⟨u, first, others, hbranches, hparts, -⟩
  rw [coerced_obj] at hbranches
  rcases hbranches.alike.eq_obj with ⟨between, rfl⟩
  exact contains_of_plan (contains_of_runs_iff hbranches rfl rfl rfl key) hparts

/-- A plan that admits no undeclared properties, like its branches, drops them all, unless it
declares nothing itself. -/
theorem drops_iff_of_not_admits {p : Plan Node} {key : String}
    (ho : e.options.removeAdditional = true) (hown : p.admitsAny = false)
    (hbranches : ∀ m ∈ p.allOf, ¬ Admits e m) :
    Drops e p key ↔ p.hasObjectKeywords = true ∧ ¬ Declares e (.plan p) key := by
  simp only [Drops, Plan.strips, ho, hown]
  grind

end HttpContract.Normalization

namespace HttpContract.Engine

open Normalization

variable {e : Engine} {s : CompiledSchema}

/-- Where undeclared properties are dropped and neither the schema nor a branch admits any, those
keys of an object are left that the schema or a branch declares, and those are added that one of
them has a default for. A schema that declares nothing itself drops nothing. -/
theorem contains_validate_iff (ho : e.options.removeAdditional = true) {p : Plan Node}
    (hp : Head e s.root p) (hown : p.admitsAny = false) (hbranches : ∀ m ∈ p.allOf, ¬ Admits e m)
    {members : Fields Json} (hends : Ends e s (.obj members)) :
    ∃ members', (e.validate s (.obj members)).value = .obj members' ∧
      ∀ key, Fields.contains members' key = true ↔
        (Fields.contains members key = true ∧
          (p.hasObjectKeywords = true → Declares e (.plan p) key)) ∨
        (e.options.useDefaults = true ∧ Supplies e (.plan p) key) := by
  rcases ends_iff_exists_turns.mp hends with ⟨w, clean, h⟩
  rcases h.alike.eq_obj with ⟨members', rfl⟩
  refine ⟨members', value_of_turns h, fun key => ?_⟩
  rw [contains_of_head hp h, drops_iff_of_not_admits ho hown hbranches]
  have hdeclares : Supplies e (.plan p) key → Declares e (.plan p) key := declares_of_supplies
  grind

/-- A schema that declares one property itself and has a default for another in a branch. -/
def extended : Fragment :=
  .ofMembers [("properties", .obj [("a", .bool true)]),
    ("allOf", .arr [.obj [("properties", .obj [("b", .obj [("default", .ofNat 1)])])]])]

/-- The plan for its branch. -/
def extendingPlan : Plan Node :=
  { Plan.empty with properties := [("b", .plan { Plan.empty with default := some (.ofNat 1) })] }

/-- The plan for it. -/
def extendedPlan : Plan Node :=
  { Plan.empty with properties := [("a", .plan Plan.empty)], allOf := [.plan extendingPlan] }

theorem basic_extended : Basic extended.document := by
  refine .obj (fun m hm => ?_)
  rcases List.mem_pair.mp hm with rfl | rfl
  · exact .property (.bool true)
  · exact .branch (.single (.property (.single (.default _))))

theorem contains_validate_extended : ∃ s members', ofRegistry .standard .empty =
      .ok (ofOptions .standard) ∧ (ofOptions .standard).compile extended = .ok s ∧
    Options.standard.removeAdditional = true ∧ Head (ofOptions .standard) s.root extendedPlan ∧
    extendedPlan.admitsAny = false ∧
    (∀ m ∈ extendedPlan.allOf, ¬ Admits (ofOptions .standard) m) ∧
    Ends (ofOptions .standard) s (.obj [("a", .ofNat 1), ("c", .ofNat 2)]) ∧
    ((ofOptions .standard).validate s (.obj [("a", .ofNat 1), ("c", .ofNat 2)])).value =
      .obj members' ∧
    ∀ key, Fields.contains members' key = true ↔
      (Fields.contains [("a", Json.ofNat 1), ("c", .ofNat 2)] key = true ∧
        (extendedPlan.hasObjectKeywords = true →
          Declares (ofOptions .standard) (.plan extendedPlan) key)) ∨
      ((ofOptions .standard).options.useDefaults = true ∧
        Supplies (ofOptions .standard) (.plan extendedPlan) key) := by
  rcases compile_of_basic .standard extended rfl rfl basic_extended with ⟨l, hs⟩
  have hhead : Head (ofOptions .standard) (.plan extendedPlan) extendedPlan := .self
  have hbranches : ∀ m ∈ extendedPlan.allOf, ¬ Admits (ofOptions .standard) m := by
    rintro m hm ⟨q, hq, hadmits⟩
    obtain rfl := List.mem_singleton.mp hm
    obtain rfl : q = extendingPlan := by simpa [extendingPlan, applies_plan_iff, Plan.empty] using hq
    cases hadmits
  have hends : Ends (ofOptions .standard) ⟨.plan extendedPlan,
      ⟨l, Evaluator.defaultBase, extended.document⟩, extended.document⟩
        (.obj [("a", .ofNat 1), ("c", .ofNat 2)]) := ⟨4, rfl⟩
  rcases contains_validate_iff rfl hhead rfl hbranches hends with ⟨members', hvalue, hkeys⟩
  exact ⟨_, members', ofRegistry_empty _, hs, rfl, hhead, rfl, hbranches, hends, hvalue, hkeys⟩

/-- A schema whose list of properties is empty keeps a property that nothing declares. -/
theorem contains_validate_nothingDeclared : ∃ s, ofRegistry .standard .empty =
      .ok (ofOptions .standard) ∧
    (ofOptions .standard).compile Gate.nothingDeclared = .ok s ∧
    ((ofOptions .standard).validate s (.obj [("a", .ofNat 1)])).value =
      .obj [("a", .ofNat 1)] ∧
    ¬ Declares (ofOptions .standard) s.root "a" ∧ ¬ Supplies (ofOptions .standard) s.root "a" := by
  rcases Gate.exists_compile_nothingDeclared with ⟨l, hs⟩
  have hdeclares : ¬ Declares (ofOptions .standard) (.plan Plan.empty) "a" := by
    rintro ⟨q, hq, hown⟩
    obtain rfl : q = Plan.empty := by simpa [Plan.empty, applies_plan_iff] using hq
    cases hown
  refine ⟨_, ofRegistry_empty _, hs, value_of_walk 3 ⟨.obj [("a", .ofNat 1)], []⟩ rfl, hdeclares,
    fun h => hdeclares (declares_of_supplies h)⟩

end HttpContract.Engine
