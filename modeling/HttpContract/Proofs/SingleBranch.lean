import HttpContract.Proofs.Building
import HttpContract.Proofs.Planning
import HttpContract.Proofs.Shapes
import HttpContract.Proofs.Validation

/-!
# A schema as the only branch of `allOf`

The branches of `allOf` drop nothing themselves, and the owner of a single branch declares nothing,
so it drops nothing either. Normalization under `{"allOf": [S]}` therefore leaves what normalization
under `S` leaves, plus the properties that `S` drops: `value_singly_iff` says when there are none.
-/

namespace HttpContract.Normalization

variable {e : Engine}

/-! ## With and without dropping -/

/-- The plan that a node comes to when references are followed. -/
inductive Head (e : Engine) : Node → Plan Node → Prop where
  | self {p : Plan Node} : Head e (.plan p) p
  | reference {n : Node} {s : CompiledSchema} {p : Plan Node} (hs : e.resolve? n = some s)
      (h : Head e s.root p) : Head e n p

/-- No property of a value is dropped by the plan that a node comes to. -/
def DropsNothing (e : Engine) (n : Node) (v : Json) : Prop :=
  ∀ members, v = .obj members → ∀ p, Head e n p → ∀ key, Fields.contains members key = true →
    ¬ Drops e p key

theorem head_plan_iff {p q : Plan Node} : Head e (.plan p) q ↔ q = p := by
  constructor
  · intro h
    cases h with
    | self => rfl
    | reference hs _ => simp at hs
  · rintro rfl
    exact Head.self

theorem head_iff_of_resolve? {n : Node} {s : CompiledSchema} {p : Plan Node}
    (hs : e.resolve? n = some s) : Head e n p ↔ Head e s.root p := by
  constructor
  · intro h
    cases h with
    | self => simp at hs
    | reference hs' h =>
      have heq : s = _ := Option.some.inj (hs.symm.trans hs')
      rw [heq]
      exact h
  · exact Head.reference hs

/-- No node stands for a property that a dropping plan does not declare. -/
theorem memberNodes_eq_nil_of_drops {p : Plan Node} {key : String} (h : Drops e p key) :
    memberNodes p key = [] := by
  rcases h with ⟨_, hstrips, _, hdeclares⟩
  have hown : p.declaresOwn key = false := by
    simpa using fun hown => hdeclares ⟨p, Applies.self, hown⟩
  obtain ⟨hnamed, hpatterns⟩ : Fields.contains p.properties key = false ∧
      ∀ x ∈ p.patterns, Pattern.found x.1 key = false := by
    simpa [Plan.declaresOwn] using hown
  have hget : Fields.get? p.properties key = none := by
    simpa [Fields.contains] using hnamed
  have hmatching : p.matching key = [] := by
    simp only [Plan.matching, List.filter_eq_nil_iff, Bool.not_eq_true]
    exact hpatterns
  have hadmits : p.admitsAny = false := by
    simp only [Plan.strips, Bool.and_eq_true, Bool.not_eq_true'] at hstrips
    exact hstrips.2
  unfold memberNodes
  rw [hget, hmatching]
  cases hadditional : p.additional with
  | schema n => simp [Plan.admitsAny, hadditional] at hadmits
  | _ => rfl

open Classical in
/-- Whether undeclared properties are dropped does not decide whether the walk has an outcome. -/
theorem exists_parts (he : e.Acyclic) {p : Plan Node} {strip clean : Bool} {v w : Json}
    (h : Parts e p strip v w clean) (strip' : Bool) :
    ∃ w' clean', Parts e p strip' v w' clean' := by
  cases h with
  | @object _ _ _ members ready members' hready hmembers =>
    rcases hready with ⟨fuel, hready⟩
    rcases exists_prepared he p strip' members with ⟨fuel', ready', hready'⟩
    have hruns : ∀ m ∈ ready', ∃ w clean, Runs e true (memberNodes p m.1) m.2 w clean := by
      intro m hm
      by_cases hdrops : Drops e p m.1
      · -- no node stands for what would be dropped
        rw [memberNodes_eq_nil_of_drops hdrops]
        exact ⟨m.2, true, .nil⟩
      · -- what is not dropped is there with and without dropping
        rw [eq_of_prepared hready', List.mem_filter] at hm
        refine exists_members_iff.mp ⟨_, _, hmembers⟩ m ?_
        rw [eq_of_prepared hready, List.mem_filter]
        exact ⟨hm.1, by simp [hdrops]⟩
    rcases exists_members_iff.mpr hruns with ⟨kept, clean', hkept⟩
    exact ⟨_, _, .object ⟨fuel', hready'⟩ hkept⟩
  | list hitems => exact ⟨_, _, .list hitems⟩
  | scalar hv => exact ⟨_, _, .scalar hv⟩

theorem exists_turns (he : e.Acyclic) {n : Node} {strip clean : Bool} {v w : Json} :
    Turns e n strip v w clean → ∀ strip', ∃ w' clean', Turns e n strip' v w' clean'
  | .nowhere hn hs, strip' => ⟨_, _, .nowhere hn hs⟩
  | .reference hs h, strip' => by
    rcases exists_turns he h strip' with ⟨w', clean', h'⟩
    exact ⟨_, _, .reference hs h'⟩
  | .plan hbranches hparts, strip' => by
    rcases exists_parts he hparts strip' with ⟨w', clean', hparts'⟩
    exact ⟨_, _, .plan hbranches hparts'⟩
termination_by structural h => h

theorem prepared_false (fuel : Nat) (p : Plan Node) (members : Fields Json) :
    prepared e fuel p false members = some (filled e p members) := by
  simp [prepared]

open Classical in
/-- Where nothing would be dropped it makes no difference whether dropping is allowed. -/
theorem parts_false_of_not_drops {p : Plan Node} {clean : Bool} {members : Fields Json} {w : Json}
    (h : Parts e p true (.obj members) w clean)
    (hnot : ∀ key, Fields.contains (filled e p members) key = true → ¬ Drops e p key) :
    Parts e p false (.obj members) w clean := by
  cases h with
  | @object _ _ _ _ ready members' hready hmembers =>
    rcases hready with ⟨fuel, hready⟩
    have hall : ready = filled e p members := by
      rw [eq_of_prepared hready]
      refine List.filter_eq_self.mpr (fun m hm => decide_eq_true ?_)
      rintro ⟨_, hdrops⟩
      have hkey : Fields.contains (filled e p members) m.1 = true :=
        (Fields.contains_iff _ _).mpr ⟨m.2, hm⟩
      exact hnot m.1 hkey hdrops
    exact .object ⟨fuel, by rw [prepared_false, hall]⟩ hmembers
  | scalar hv => simp [isScalar] at hv

theorem parts_false_of_not_obj {p : Plan Node} {clean : Bool} {v w : Json}
    (h : Parts e p true v w clean) (hv : ∀ members, v ≠ .obj members) :
    Parts e p false v w clean := by
  cases h with
  | object => exact absurd rfl (hv _)
  | list hitems => exact .list hitems
  | scalar hscalar => exact .scalar hscalar

/-- A walk along a plan leaves the same with and without dropping, when the plan drops no property
of the value it started from. What the branches added is declared and never dropped. -/
theorem eq_iff_of_plan {p : Plan Node} {clean clean' : Bool} {v w w' : Json}
    (h : Turns e (.plan p) true v w clean) (h' : Turns e (.plan p) false v w' clean') :
    w' = w ↔ DropsNothing e (.plan p) v := by
  rcases turns_plan_iff.mp h with ⟨u, first, others, hbranches, hparts, -⟩
  rcases turns_plan_iff.mp h' with ⟨u', first', others', hbranches', hparts', -⟩
  rcases hbranches.unique hbranches' with ⟨rfl, -⟩
  have hsame : Parts e p false u w others → w' = w := by
    intro hfalse
    exact (h'.unique (.plan hbranches hfalse)).1
  cases v with
  | obj members =>
    rw [coerced_obj] at hbranches
    rcases hbranches.alike.eq_obj with ⟨between, rfl⟩
    constructor
    · rintro rfl members' hv q hq key hcontains hdrops
      obtain rfl : members = members' := Json.obj.inj hv
      obtain rfl : q = p := head_plan_iff.mp hq
      rcases hparts.alike.eq_obj with ⟨left, rfl⟩
      have hbetween : Fields.contains between key = true :=
        contains_of_runs hbranches rfl members between rfl rfl key hcontains
      have hfilled : Fields.contains (filled e q between) key = true :=
        contains_filled_of_contains hbetween
      -- the walk without dropping keeps the key, the one with dropping does not
      have hkept : Fields.contains left key = true :=
        (contains_of_parts hparts' key).mpr ⟨hfilled, by simp⟩
      exact ((contains_of_parts hparts key).mp hkept).2 ⟨rfl, hdrops⟩
    · intro hnothing
      refine hsame (parts_false_of_not_drops hparts (fun key hfilled hdrops => ?_))
      -- the property is there from the start, or a branch or the plan itself declares it
      rcases contains_of_contains_filled hfilled with hbetween | hdeclares
      · rcases declares_of_runs hbranches members between rfl rfl key hbetween with
          hmembers | ⟨m, hm, q, hq, hown⟩
        · exact hnothing members rfl p Head.self key hmembers hdrops
        · exact hdrops.2.2.2 ⟨q, Applies.branch hm hq, hown⟩
      · exact hdrops.2.2.2 hdeclares
  | _ =>
    have hu : ∀ members, u ≠ .obj members := by
      rintro members rfl
      cases (alike_coerced e.options p.types _).trans hbranches.alike with
      | scalar _ hw => simp [isScalar] at hw
    exact ⟨fun _ members hv => by simp at hv, fun _ => hsame (parts_false_of_not_obj hparts hu)⟩

/-- A walk leaves the same with and without dropping, when the plan it comes to drops no property of
the value. -/
theorem eq_iff_dropsNothing {n : Node} {strip clean clean' : Bool} {v w w' : Json} :
    Turns e n strip v w clean → strip = true → Turns e n false v w' clean' →
      (w' = w ↔ DropsNothing e n v)
  | .nowhere hn hs, _, h' => by
    have hnone : ∀ p, ¬ Head e n p := by
      intro p hp
      cases hp with
      | self => exact hn _ rfl
      | reference hs' _ => simp [hs] at hs'
    have heq : w' = v := (h'.unique (.nowhere hn hs)).1
    exact ⟨fun _ _ _ p hp => absurd hp (hnone p), fun _ => heq⟩
  | .reference hs h, hstrip, h' => by
    rcases (turns_iff_of_resolve? hs).mp h' with ⟨inner, hinner, -⟩
    rw [eq_iff_dropsNothing h hstrip hinner]
    simp only [DropsNothing, head_iff_of_resolve? hs]
  | .plan hbranches hparts, hstrip, h' => by
    subst hstrip
    exact eq_iff_of_plan (.plan hbranches hparts) h'
termination_by structural h => h

/-! ## The owner of a single branch -/

open Planning (singleBranch)

theorem prepared_singleBranch (fuel : Nat) (n : Node) (strip : Bool) (members : Fields Json) :
    prepared e fuel (singleBranch n) strip members = some members := by
  have hstrips : (singleBranch n).strips = false := rfl
  have hfilled : filled e (singleBranch n) members = members := by
    unfold filled
    split <;> rfl
  unfold prepared
  rw [hstrips, hfilled]
  simp

theorem members_singleBranch (n : Node) (members : Fields Json) :
    Members e (singleBranch n) members members true := by
  induction members with
  | nil => exact .nil
  | cons m rest ih => exact .cons .nil ih

theorem items_singleBranch (n : Node) : ∀ (items : List Json) (index : Nat),
    Items e (singleBranch n) index items items true
  | [], _ => .nil
  | _ :: rest, index => .cons .nil (items_singleBranch n rest (index + 1))

/-- The owner of a single branch leaves the parts of a value as they are. -/
theorem parts_singleBranch (n : Node) (strip : Bool) (v : Json) :
    Parts e (singleBranch n) strip v v true := by
  cases v with
  | obj members =>
    exact .object ⟨0, prepared_singleBranch 0 n strip members⟩ (members_singleBranch n members)
  | arr items => exact .list (items_singleBranch n items 0)
  | _ => exact .scalar rfl

/-- Walking along the owner of a single branch is walking along the branch without dropping. -/
theorem turns_singleBranch_iff {n : Node} {strip clean : Bool} {v w : Json} :
    Turns e (.plan (singleBranch n)) strip v w clean ↔ Turns e n false v w clean := by
  have hcoerced : coerced e.options (singleBranch n).types v = v := by
    simp [coerced, singleBranch, Plan.empty]
  have hof : ∀ w clean, Turns e n false v w clean →
      Turns e (.plan (singleBranch n)) strip v w clean := by
    intro w clean h
    refine turns_plan_iff.mpr ⟨w, clean, true, ?_, parts_singleBranch n strip w, by simp⟩
    rw [hcoerced, ← Bool.and_true clean]
    exact .cons h .nil
  constructor
  · intro h
    rcases turns_plan_iff.mp h with ⟨u, first, others, hbranches, -, -⟩
    rw [hcoerced] at hbranches
    cases hbranches with
    | cons hbranch _ =>
      rcases h.unique (hof _ _ hbranch) with ⟨rfl, rfl⟩
      exact hbranch
  · exact hof w clean

end HttpContract.Normalization

namespace HttpContract.Engine

open Normalization

variable {o : Options} {r : Registry} {e : Engine} {f : Fragment} {s s' : CompiledSchema}

/-- A fragment and the fragment as the only branch of `allOf` come to an end for the same values,
and leave the same of a value exactly when the fragment itself, or the schema it refers to, drops no
property of it. -/
theorem value_singly_iff (hr : ofRegistry o r = .ok e) (hs : e.compile f = .ok s)
    (hs' : e.compile (Planning.singly f) = .ok s') (v : Json) :
    (Ends e s' v ↔ Ends e s v) ∧
      (Ends e s v →
        ((e.validate s' v).value = (e.validate s v).value ↔ DropsNothing e s.root v)) := by
  rcases ofRegistry_eq_ok hr with ⟨-, he⟩
  -- under `allOf` the walk is that of the fragment, without dropping at its place
  have hends : Ends e s' v ↔ ∃ w clean, Turns e s.root false v w clean := by
    rw [ends_iff_exists_turns, Planning.root_singly hs hs']
    simp only [turns_singleBranch_iff]
  constructor
  · rw [hends, ends_iff_exists_turns]
    constructor
    · rintro ⟨w, clean, h⟩
      exact exists_turns he h true
    · rintro ⟨w, clean, h⟩
      exact exists_turns he h false
  · intro hv
    rcases ends_iff_exists_turns.mp hv with ⟨w, clean, h⟩
    rcases exists_turns he h false with ⟨w', clean', h'⟩
    have hleft : Turns e s'.root true v w' clean' := by
      rw [Planning.root_singly hs hs']
      exact turns_singleBranch_iff.mpr h'
    rw [value_of_turns h, value_of_turns hleft]
    exact eq_iff_dropsNothing h rfl h'

/-! ## A property that one of the two drops -/

/-- A schema that declares one property. -/
def declaring (name : String) : Fragment := .ofMembers [("properties", .obj [(name, .bool true)])]

/-- A value with one property more. -/
def twoMembers : Json := .obj [("a", .ofNat 1), ("b", .ofNat 2)]

theorem basic_declaring (name : String) : Basic (declaring name).document :=
  .single (.property (.bool true))

theorem value_singly_declaring : ∃ e s s', ofRegistry .standard .empty = .ok e ∧
    e.compile (declaring "a") = .ok s ∧ e.compile (Planning.singly (declaring "a")) = .ok s' ∧
    (Ends e s' twoMembers ↔ Ends e s twoMembers) ∧
    (Ends e s twoMembers →
      ((e.validate s' twoMembers).value = (e.validate s twoMembers).value ↔
        DropsNothing e s.root twoMembers)) := by
  rcases compile_of_basic .standard (declaring "a") rfl rfl (basic_declaring "a") with ⟨_, hs⟩
  obtain ⟨_, hs'⟩ := compile_of_basic .standard (Planning.singly (declaring "a")) rfl rfl
    (.single (.branch (basic_declaring "a")))
  exact ⟨_, _, _, ofRegistry_empty _, hs, hs',
    value_singly_iff (ofRegistry_empty _) hs hs' twoMembers⟩

/-- A schema drops a property that stays when the schema is the only branch of `allOf`. -/
theorem value_singly_ne : ∃ e s s', ofRegistry .standard .empty = .ok e ∧
    e.compile (declaring "a") = .ok s ∧ e.compile (Planning.singly (declaring "a")) = .ok s' ∧
    (e.validate s twoMembers).value = .obj [("a", .ofNat 1)] ∧
    (e.validate s' twoMembers).value = twoMembers := by
  rcases compile_of_basic .standard (declaring "a") rfl rfl (basic_declaring "a") with ⟨_, hs⟩
  obtain ⟨_, hs'⟩ := compile_of_basic .standard (Planning.singly (declaring "a")) rfl rfl
    (.single (.branch (basic_declaring "a")))
  refine ⟨_, _, _, ofRegistry_empty _, hs, hs', ?_, ?_⟩
  · exact value_of_walk 3 ⟨.obj [("a", .ofNat 1)], []⟩ rfl
  · exact value_of_walk 3 ⟨twoMembers, []⟩ rfl

end HttpContract.Engine
