import HttpContract.Proofs.Judging
import HttpContract.Proofs.Loading
import HttpContract.Proofs.PlainTexts
import HttpContract.Proofs.Termination
import HttpContract.Service.Gate

/-!
# Undeclared members are withheld

Two response bodies that differ only in undeclared members have the same outcome for the client.
The members are those that `Purged` deletes: it follows the schema as the walk does, but only ever
deletes. Where a schema has neither branches nor patterns (`Straight`), the walk over a value and
the walk over what is left of it are the same at every step (`walk_eq_of_purged`). So are the
verdicts, and the gate shows the client nothing of what was deleted
(`Gate.sameOutcome_after_of_purged`).
-/

namespace HttpContract

/-! ## What is left of a value -/

namespace Plan

variable {ν : Type}

/-- Whether the schema declares properties and leaves no room for others. -/
def closes (p : Plan ν) : Bool := !p.properties.isEmpty && !p.admitsAny

/-- The members that are left of an object: the declared ones, where the schema closes it. -/
def kept (p : Plan ν) (members : Fields Json) : Fields Json :=
  members.filter (fun m => !p.closes || Fields.contains p.properties m.1)

theorem strips_eq_closes {p : Plan ν} (h : p.patterns = []) : p.strips = p.closes := by
  simp [strips, closes, hasObjectKeywords, h]

end Plan

namespace Normalization

variable {e : Engine}

mutual

/-- Along a node, `w` is left of `v` when all undeclared members are deleted from every object that
a schema closes. -/
inductive Purged (e : Engine) : Node → (v w : Json) → Prop where
  | nowhere {n : Node} {v : Json} (hn : ∀ p, n ≠ .plan p) (hs : e.resolve? n = none) :
      Purged e n v v
  | reference {n : Node} {s : CompiledSchema} {v w : Json} (hs : e.resolve? n = some s)
      (h : Purged e s.root v w) : Purged e n v w
  | object {p : Plan Node} {members members' : Fields Json}
      (h : PurgedMembers e p (p.kept members) members') :
      Purged e (.plan p) (.obj members) (.obj members')
  | list {p : Plan Node} {items items' : List Json} (h : PurgedItems e p 0 items items') :
      Purged e (.plan p) (.arr items) (.arr items')
  | scalar {p : Plan Node} {v : Json} (h : isScalar v = true) : Purged e (.plan p) v v

/-- The same along several nodes, one after the other. -/
inductive PurgedAlong (e : Engine) : List Node → (v w : Json) → Prop where
  | nil {v : Json} : PurgedAlong e [] v v
  | cons {n : Node} {rest : List Node} {v u w : Json} (h : Purged e n v u)
      (hrest : PurgedAlong e rest u w) : PurgedAlong e (n :: rest) v w

/-- The same for members. -/
inductive PurgedMembers (e : Engine) : Plan Node → (members members' : Fields Json) → Prop where
  | nil {p : Plan Node} : PurgedMembers e p [] []
  | cons {p : Plan Node} {key : String} {v w : Json} {rest rest' : Fields Json}
      (h : PurgedAlong e (memberNodes p key) v w) (hrest : PurgedMembers e p rest rest') :
      PurgedMembers e p ((key, v) :: rest) ((key, w) :: rest')

/-- The same for items, from an index on. -/
inductive PurgedItems (e : Engine) : Plan Node → (index : Nat) → (items items' : List Json) → Prop
    where
  | nil {p : Plan Node} {index : Nat} : PurgedItems e p index [] []
  | cons {p : Plan Node} {index : Nat} {v w : Json} {rest rest' : List Json}
      (h : PurgedAlong e (itemNodes p index) v w) (hrest : PurgedItems e p (index + 1) rest rest') :
      PurgedItems e p index (v :: rest) (w :: rest')

end

/-- None of the schemas that a node leads to has branches or patterns. -/
def Straight (e : Engine) (n : Node) : Prop :=
  ∀ p, Reaches e n (.plan p) → p.allOf = [] ∧ p.patterns = []

theorem Straight.of_reaches {n m : Node} (h : Straight e n) (hm : Reaches e n m) : Straight e m :=
  fun p hp => h p (hm.trans hp)

/-! ### There is one result -/

mutual

theorem Purged.unique {n : Node} {v w w' : Json} : Purged e n v w → Purged e n v w' → w = w'
  | .nowhere hn hs, h' => by
    cases h' with
    | nowhere _ _ => rfl
    | reference hs' _ => simp [hs] at hs'
    | _ => exact absurd rfl (hn _)
  | .reference hs h, h' => by
    cases h' with
    | nowhere _ hs' => simp [hs] at hs'
    | reference hs' h' =>
      obtain rfl := Option.some.inj (hs.symm.trans hs')
      exact h.unique h'
    | _ => simp at hs
  | .object h, h' => by
    cases h' with
    | nowhere hn _ => exact absurd rfl (hn _)
    | reference hs' _ => simp at hs'
    | object h' => rw [h.unique h']
    | scalar hv => simp [isScalar] at hv
  | .list h, h' => by
    cases h' with
    | nowhere hn _ => exact absurd rfl (hn _)
    | reference hs' _ => simp at hs'
    | list h' => rw [h.unique h']
    | scalar hv => simp [isScalar] at hv
  | .scalar hv, h' => by
    cases h' with
    | nowhere _ _ => rfl
    | reference hs' _ => simp at hs'
    | object _ => simp [isScalar] at hv
    | list _ => simp [isScalar] at hv
    | scalar _ => rfl
termination_by structural h => h

theorem PurgedAlong.unique {nodes : List Node} {v w w' : Json} :
    PurgedAlong e nodes v w → PurgedAlong e nodes v w' → w = w'
  | .nil, .nil => rfl
  | .cons h hrest, .cons h' hrest' => by
    rw [← h.unique h'] at hrest'
    exact hrest.unique hrest'
termination_by structural h => h

theorem PurgedMembers.unique {p : Plan Node} {members ms ms' : Fields Json} :
    PurgedMembers e p members ms → PurgedMembers e p members ms' → ms = ms'
  | .nil, .nil => rfl
  | .cons h hrest, .cons h' hrest' => by rw [h.unique h', hrest.unique hrest']
termination_by structural h => h

theorem PurgedItems.unique {p : Plan Node} {index : Nat} {items xs xs' : List Json} :
    PurgedItems e p index items xs → PurgedItems e p index items xs' → xs = xs'
  | .nil, .nil => rfl
  | .cons h hrest, .cons h' hrest' => by rw [h.unique h', hrest.unique hrest']
termination_by structural h => h

end

/-! ### What the walk keeps -/

/-- Without branches and patterns the walk keeps what the schema leaves of an object. -/
theorem prepared_of_straight (ho : e.options.removeAdditional = true) {p : Plan Node}
    (hbranches : p.allOf = []) (hpatterns : p.patterns = []) (fuel : Nat) (members : Fields Json) :
    prepared e fuel p true members = some (p.kept (filled e p members)) := by
  have hdeclares : ∀ key, p.declaresOwn key = Fields.contains p.properties key := by
    simp [Plan.declaresOwn, hpatterns]
  rw [prepared_of_unbranched ho hbranches, Plan.strips_eq_closes hpatterns]
  simp only [Plan.kept, hdeclares]

end Normalization

/-! ### There is a result -/

/-- The options with which validation only ever deletes. -/
def Options.purging (o : Options) : Options :=
  { o with removeAdditional := true, useDefaults := false, coerceTypes := false }

/-- The engine of the same registry with these options. -/
def Engine.purging (e : Engine) : Engine := { e with options := e.options.purging }

namespace Normalization

variable {e : Engine}

theorem resolve?_purging (e : Engine) (n : Node) : e.purging.resolve? n = e.resolve? n := by
  cases n <;> rfl

theorem eq_of_purging_branches {p : Plan Node} {strip clean : Bool} {v u : Json}
    (hstraight : Straight e (.plan p))
    (h : Runs e.purging strip p.allOf (coerced e.purging.options p.types v) u clean) : u = v := by
  rw [(hstraight p .here).1] at h
  cases h with
  | nil => simp [coerced, Engine.purging, Options.purging]

theorem eq_kept_of_prepared {p : Plan Node} {members ready : Fields Json}
    (hstraight : Straight e (.plan p))
    (h : ∃ fuel, prepared e.purging fuel p true members = some ready) : ready = p.kept members := by
  rcases h with ⟨fuel, h⟩
  rcases hstraight p .here with ⟨hbranches, hpatterns⟩
  exact Option.some.inj (h.symm.trans (prepared_of_straight rfl hbranches hpatterns fuel members))

mutual

/-- What the walk that only ever deletes leaves of a value. -/
theorem purged_of_turns {n : Node} {strip clean : Bool} {v w : Json} :
    Turns e.purging n strip v w clean → strip = true → Straight e n → Purged e n v w
  | .nowhere hn hs, _, _ => .nowhere hn (resolve?_purging e n ▸ hs)
  | .reference hs h, hstrip, hstraight =>
    have hs' := (resolve?_purging e n).symm.trans hs
    .reference hs' (purged_of_turns h hstrip (hstraight.of_reaches (.reference .here hs')))
  | .plan hbranches hparts, hstrip, hstraight => by
    have hkept := eq_of_purging_branches hstraight hbranches
    exact hkept ▸ purged_of_parts hparts hstrip hstraight
termination_by structural h => h

theorem purgedAlong_of_runs {nodes : List Node} {strip clean : Bool} {v w : Json} :
    Runs e.purging strip nodes v w clean → strip = true → (∀ n ∈ nodes, Straight e n) →
      PurgedAlong e nodes v w
  | .nil, _, _ => .nil
  | .cons h hrest, hstrip, hstraight =>
    .cons (purged_of_turns h hstrip (hstraight _ List.mem_cons_self))
      (purgedAlong_of_runs hrest hstrip (fun n hn => hstraight n (List.mem_cons_of_mem _ hn)))
termination_by structural h => h

theorem purged_of_parts {p : Plan Node} {strip clean : Bool} {v w : Json} :
    Parts e.purging p strip v w clean → strip = true → Straight e (.plan p) →
      Purged e (.plan p) v w
  | .object hready h, hstrip, hstraight => by
    have hkept := eq_kept_of_prepared hstraight (hstrip ▸ hready)
    exact .object (hkept ▸ purgedMembers_of_members h hstraight)
  | .list h, _, hstraight => .list (purgedItems_of_items h hstraight)
  | .scalar hv, _, _ => .scalar hv
termination_by structural h => h

theorem purgedMembers_of_members {p : Plan Node} {members members' : Fields Json} {clean : Bool} :
    Members e.purging p members members' clean → Straight e (.plan p) →
      PurgedMembers e p members members'
  | .nil, _ => .nil
  | .cons h hrest, hstraight =>
    .cons (purgedAlong_of_runs h rfl
      (fun _ hn => hstraight.of_reaches (reaches_of_mem_memberNodes hn)))
      (purgedMembers_of_members hrest hstraight)
termination_by structural h => h

theorem purgedItems_of_items {p : Plan Node} {index : Nat} {items items' : List Json}
    {clean : Bool} : Items e.purging p index items items' clean → Straight e (.plan p) →
      PurgedItems e p index items items'
  | .nil, _ => .nil
  | .cons h hrest, hstraight =>
    .cons (purgedAlong_of_runs h rfl
      (fun _ hn => hstraight.of_reaches (reaches_of_mem_itemNodes hn)))
      (purgedItems_of_items hrest hstraight)
termination_by structural h => h

end

/-! ## The walk does not see what is deleted -/

theorem filter_withDefaults (test : String → Bool) :
    ∀ {properties : List (String × Node)} {members : Fields Json},
      (∀ x ∈ properties, test x.1 = true) → Fields.Ordered members →
        (withDefaults properties members).filter (fun m => test m.1) =
          withDefaults properties (members.filter (fun m => test m.1)) := by
  intro properties
  simp only [Corresponds.withDefaults_eq]
  induction properties with
  | nil => exact fun _ _ => rfl
  | cons x rest ih =>
    intro members hkept hordered
    have hrest : ∀ y ∈ rest, test y.1 = true := fun y hy => hkept y (List.mem_cons_of_mem _ hy)
    have hcontains : Fields.contains (members.filter (fun m => test m.1)) x.1 =
        Fields.contains members x.1 := by
      unfold Fields.contains
      rw [Fields.get?_filter_keys, if_pos (hkept x List.mem_cons_self)]
    rw [List.foldl_cons, List.foldl_cons]
    cases x.2.filling with
    | none => exact ih hrest hordered
    | some d =>
      dsimp only
      rw [hcontains]
      by_cases habsent : Fields.contains members x.1 = true
      · rw [if_pos habsent, if_pos habsent]
        exact ih hrest hordered
      · rw [if_neg habsent, if_neg habsent,
          ← Fields.filter_insert hordered (hkept x List.mem_cons_self)]
        exact ih hrest (Fields.ordered_insert hordered _ _)

/-- Defaults are filled in for declared properties, and those are kept. -/
theorem kept_filled (p : Plan Node) {members : Fields Json} (h : Fields.Ordered members) :
    p.kept (filled e p members) = filled e p (p.kept members) := by
  unfold filled Plan.kept
  split
  · refine filter_withDefaults (fun key => !p.closes || Fields.contains p.properties key)
      (fun x hx => ?_) h
    have hdeclared : Fields.contains p.properties x.1 = true :=
      (Fields.contains_iff_mem_keys _ _).mpr (List.mem_map.mpr ⟨x, hx, rfl⟩)
    rw [hdeclared, Bool.or_true]
  · rfl

/-- Two values that a walk over a property of the name cannot tell apart. -/
def SameMember (walk : Walk) (p : Plan Node) (key : String) (v w : Json) : Prop :=
  ∀ a, chain walk (nodesFor p a key) ⟨v, []⟩ = chain walk (nodesFor p a key) ⟨w, []⟩

theorem walkMembers_congr {walk : Walk} {p : Plan Node} {a : At} {members members' : Fields Json}
    (h : List.Forall₂ (fun m m' => m.1 = m'.1 ∧ SameMember walk p m.1 m.2 m'.2) members members') :
    walkMembers walk p a members = walkMembers walk p a members' := by
  induction h with
  | nil => rfl
  | @cons m m' _ _ hm _ ih =>
    rcases m with ⟨key, v⟩
    rcases m' with ⟨key', w⟩
    obtain ⟨rfl, hsame⟩ : key = key' ∧ SameMember walk p key v w := hm
    rw [walkMembers, walkMembers, hsame a, ih]

/-- Filling in defaults does not tell two objects apart either. -/
theorem forall₂_filled {walk : Walk} {p : Plan Node} {members members' : Fields Json}
    (h : List.Forall₂ (fun m m' => m.1 = m'.1 ∧ SameMember walk p m.1 m.2 m'.2) members members') :
    List.Forall₂ (fun m m' => m.1 = m'.1 ∧ SameMember walk p m.1 m.2 m'.2) (filled e p members)
      (filled e p members') := by
  unfold filled
  split
  · simp only [Corresponds.withDefaults_eq]
    -- whatever the properties, since the defaults are the same on both sides
    generalize p.properties = properties
    induction properties generalizing members members' with
    | nil => exact h
    | cons x rest ih =>
      rw [List.foldl_cons, List.foldl_cons]
      cases x.2.filling with
      | none => exact ih h
      | some d =>
        have hcontains : Fields.contains members x.1 = Fields.contains members' x.1 :=
          isSome_of_rel (rel_get?_of_name x.1 h)
        dsimp only
        rw [hcontains]
        split
        · exact ih h
        · exact ih (forall₂_insert_of_name x.1 h (fun _ => rfl))
  · exact h

/-- Along at most one node, two values are walked over alike if the walk along the node does not
tell them apart. -/
theorem chain_eq_of_purgedAlong {walk : Walk} {nodes : List Node} {steps : List (Node × At × Bool)}
    {v w : Json} (hflagged : Flagged true nodes steps) (hlen : nodes.length ≤ 1)
    (hwalk : ∀ n ∈ nodes, ∀ a u, Purged e n v u → walk n a true v = walk n a true u)
    (h : PurgedAlong e nodes v w) : chain walk steps ⟨v, []⟩ = chain walk steps ⟨w, []⟩ := by
  cases h with
  | nil => rfl
  | @cons n rest _ u _ hpurged hrest =>
    cases rest with
    | cons m others => simp at hlen
    | nil =>
      cases hrest with
      | nil =>
        cases steps with
        | nil => simp [Flagged] at hflagged
        | cons step others =>
          obtain ⟨⟨hn, hf⟩, -⟩ : (step.1 = n ∧ step.2.2 = true) ∧ others = [] := by
            simpa [Flagged] using hflagged
          rcases step with ⟨m, a, flag⟩
          obtain rfl : m = n := hn
          obtain rfl : flag = true := hf
          rw [chain, chain]
          dsimp only
          rw [hwalk m List.mem_cons_self a _ hpurged]

theorem length_memberNodes {p : Plan Node} (h : p.patterns = []) (key : String) :
    (memberNodes p key).length ≤ 1 := by
  unfold memberNodes Plan.matching
  rw [h]
  cases Fields.get? p.properties key with
  | some n => simp
  | none => cases p.additional <;> simp

/-- Members that are left have the keys of those that are kept. -/
theorem keys_of_purgedMembers {p : Plan Node} {members members' : Fields Json} :
    PurgedMembers e p members members' → Fields.keys members' = Fields.keys members
  | .nil => rfl
  | .cons _ hrest => congrArg (_ :: ·) (keys_of_purgedMembers hrest)
termination_by structural h => h

/-- What is kept of members depends on their keys. -/
theorem kept_eq_self {p : Plan Node} {members members' : Fields Json}
    (h : Fields.keys members' = Fields.keys (p.kept members)) : p.kept members' = members' := by
  refine List.filter_eq_self.mpr (fun m hm => ?_)
  have hkey : m.1 ∈ Fields.keys (p.kept members) := h ▸ List.mem_map.mpr ⟨m, hm, rfl⟩
  rcases List.mem_map.mp hkey with ⟨x, hx, heq⟩
  rw [← heq]
  exact (List.mem_filter.mp hx).2

theorem forall₂_of_purgedMembers {walk : Walk} {p : Plan Node} {members members' : Fields Json}
    (hp : p.patterns = []) : PurgedMembers e p members members' →
      (∀ m ∈ members, ∀ n ∈ memberNodes p m.1, ∀ a u, Purged e n m.2 u →
        walk n a true m.2 = walk n a true u) →
      List.Forall₂ (fun m m' => m.1 = m'.1 ∧ SameMember walk p m.1 m.2 m'.2) members members'
  | .nil, _ => .nil
  | .cons h hrest, hwalk =>
    .cons ⟨rfl, fun a => chain_eq_of_purgedAlong (flagged_nodesFor p a _)
        (length_memberNodes hp _) (hwalk _ List.mem_cons_self) h⟩
      (forall₂_of_purgedMembers hp hrest (fun m hm => hwalk m (List.mem_cons_of_mem _ hm)))
termination_by structural h => h

theorem walkItems_eq_of_purgedItems {walk : Walk} {p : Plan Node} {a : At} {index : Nat}
    {items items' : List Json} : PurgedItems e p index items items' →
      (∀ x ∈ items, ∀ i, ∀ n ∈ itemNodes p i, ∀ a u, Purged e n x u →
        walk n a true x = walk n a true u) →
      walkItems walk p a index items = walkItems walk p a index items'
  | .nil, _ => rfl
  | .cons h hrest, hwalk => by
    have hhead := chain_eq_of_purgedAlong (flagged_nodeAt p a index)
      (length_itemNodes p index) (hwalk _ List.mem_cons_self index) h
    have htail := walkItems_eq_of_purgedItems (a := a) hrest
      (fun x hx => hwalk x (List.mem_cons_of_mem _ hx))
    rw [walkItems, walkItems, hhead, htail]
termination_by structural h => h

/-- A plan without branches comes to the parts of an object or a list at once. -/
theorem walkPlan_eq_of_walkParts {fuel : Nat} {walk : Walk} {p : Plan Node} {a : At} {v w : Json}
    (hbranches : p.allOf = []) (hv : coerced e.options p.types v = v)
    (hw : coerced e.options p.types w = w)
    (h : walkParts e fuel walk p a true v = walkParts e fuel walk p a true w) :
    walkPlan e fuel walk p a true v = walkPlan e fuel walk p a true w := by
  have hsteps : branchSteps p a = [] := by simp [branchSteps, hbranches]
  simp only [walkPlan, hsteps, chain, hv, hw, Option.bind_eq_bind, Option.bind_some, h]

/-- At every step the walk over a value is the walk over what is left of it. -/
theorem walk_eq_of_purged (ho : e.options.removeAdditional = true) (fuel : Nat) :
    ∀ (n : Node) (a : At) (v w : Json), v.Ordered → Straight e n → Purged e n v w →
      walk e fuel n a true v = walk e fuel n a true w := by
  induction fuel with
  | zero => exact fun _ _ _ _ _ _ _ => rfl
  | succ fuel ih =>
    intro n a v w hordered hstraight h
    cases h with
    | nowhere hn hs => rfl
    | @reference _ s _ _ hs h =>
      have hn : ∀ p, n ≠ .plan p := by
        rintro p rfl
        simp at hs
      have hroot := ih s.root ⟨"", ""⟩ v w hordered
        (hstraight.of_reaches (.reference .here hs)) h
      have hrun : runWith e (walk e fuel) s true v = runWith e (walk e fuel) s true w := by
        unfold runWith
        rw [hroot]
      rw [walk_of_reference hn, walk_of_reference hn, hs]
      dsimp only
      rw [hrun]
    | @object p members members' h =>
      rcases hstraight p .here with ⟨hbranches, hpatterns⟩
      have hkeys := keys_of_purgedMembers h
      have hkept : Fields.Ordered (p.kept members) := hordered.1.filter _
      have hmembers : List.Forall₂
          (fun m m' => m.1 = m'.1 ∧ SameMember (walk e fuel) p m.1 m.2 m'.2) (p.kept members)
            members' := by
        refine forall₂_of_purgedMembers hpatterns h (fun m hm n hn a u hu => ?_)
        have hm : m ∈ members := List.mem_of_mem_filter hm
        exact ih n a m.2 u (Json.ordered_of_mem hordered.2 hm)
          (hstraight.of_reaches (reaches_of_mem_memberNodes hn)) hu
      -- on both sides the walk goes over what is kept, with the defaults
      have hready : prepared e fuel p true members = some (filled e p (p.kept members)) := by
        rw [prepared_of_straight ho hbranches hpatterns, kept_filled p hordered.1]
      have hready' : prepared e fuel p true members' = some (filled e p members') := by
        rw [prepared_of_straight ho hbranches hpatterns,
          kept_filled p (Fields.ordered_of_keys_eq hkeys hkept), kept_eq_self hkeys]
      refine walkPlan_eq_of_walkParts hbranches (coerced_obj _ _ _) (coerced_obj _ _ _) ?_
      simp only [walkParts, hready, hready', Option.bind_eq_bind, Option.bind_some,
        walkMembers_congr (forall₂_filled hmembers)]
    | @list p items items' h =>
      rcases hstraight p .here with ⟨hbranches, hpatterns⟩
      refine walkPlan_eq_of_walkParts hbranches (coerced_arr _ _ _) (coerced_arr _ _ _) ?_
      simp only [walkParts]
      rw [walkItems_eq_of_purgedItems h (fun x hx i n hn a u hu => ?_)]
      exact ih n a x u (Json.ordered_of_mem_items hordered hx)
        (hstraight.of_reaches (reaches_of_mem_itemNodes hn)) hu
    | scalar hv => rfl

/-! ## More steps -/

/-- Every outcome of the one walk is an outcome of the other. -/
def Extends (walk walk' : Walk) : Prop :=
  ∀ n a strip v w, walk n a strip v = some w → walk' n a strip v = some w

section

variable {walk walk' : Walk} (hwalk : Extends walk walk')
include hwalk

theorem chain_mono : ∀ (steps : List (Node × At × Bool)) (v w : Walked),
    chain walk steps v = some w → chain walk' steps v = some w
  | [], _, _, h => h
  | (n, a, strip) :: rest, v, w, h => by
    rw [chain] at h ⊢
    rcases Option.bind_eq_some_iff.mp h with ⟨next, hnext, hrest⟩
    exact Option.bind_eq_some_iff.mpr
      ⟨next, hwalk n a strip v.value next hnext, chain_mono rest _ w hrest⟩

theorem walkMembers_mono (p : Plan Node) (a : At) :
    ∀ (members : Fields Json) (w : Fields Json × List FieldError),
      walkMembers walk p a members = some w → walkMembers walk' p a members = some w
  | [], _, h => h
  | (key, v) :: rest, w, h => by
    rw [walkMembers] at h ⊢
    rcases Option.bind_eq_some_iff.mp h with ⟨next, hnext, hrest⟩
    rcases Option.bind_eq_some_iff.mp hrest with ⟨others, hothers, hw⟩
    exact Option.bind_eq_some_iff.mpr ⟨next, chain_mono hwalk _ _ next hnext,
      Option.bind_eq_some_iff.mpr ⟨others, walkMembers_mono p a rest others hothers, hw⟩⟩

theorem walkItems_mono (p : Plan Node) (a : At) :
    ∀ (index : Nat) (items : List Json) (w : List Json × List FieldError),
      walkItems walk p a index items = some w → walkItems walk' p a index items = some w
  | _, [], _, h => h
  | index, v :: rest, w, h => by
    rw [walkItems] at h ⊢
    rcases Option.bind_eq_some_iff.mp h with ⟨next, hnext, hrest⟩
    rcases Option.bind_eq_some_iff.mp hrest with ⟨others, hothers, hw⟩
    exact Option.bind_eq_some_iff.mpr ⟨next, chain_mono hwalk _ _ next hnext,
      Option.bind_eq_some_iff.mpr ⟨others, walkItems_mono p a (index + 1) rest others hothers, hw⟩⟩

theorem walkParts_mono {fuel fuel' : Nat} (hle : fuel ≤ fuel') (p : Plan Node) (a : At)
    (strip : Bool) (v : Json) (w : Walked) (h : walkParts e fuel walk p a strip v = some w) :
    walkParts e fuel' walk' p a strip v = some w := by
  cases v with
  | obj members =>
    rcases Option.bind_eq_some_iff.mp h with ⟨ready, hready, hrest⟩
    rcases Option.bind_eq_some_iff.mp hrest with ⟨others, hothers, hw⟩
    exact Option.bind_eq_some_iff.mpr ⟨ready, prepared_mono hle hready,
      Option.bind_eq_some_iff.mpr ⟨others, walkMembers_mono hwalk p a ready others hothers, hw⟩⟩
  | arr items =>
    rcases Option.bind_eq_some_iff.mp h with ⟨others, hothers, hw⟩
    exact Option.bind_eq_some_iff.mpr ⟨others, walkItems_mono hwalk p a 0 items others hothers, hw⟩
  | _ => exact h

theorem walkPlan_mono {fuel fuel' : Nat} (hle : fuel ≤ fuel') (p : Plan Node) (a : At)
    (strip : Bool) (v : Json) (w : Walked) (h : walkPlan e fuel walk p a strip v = some w) :
    walkPlan e fuel' walk' p a strip v = some w := by
  rcases Option.bind_eq_some_iff.mp h with ⟨between, hbetween, hrest⟩
  rcases Option.bind_eq_some_iff.mp hrest with ⟨parts, hparts, hw⟩
  exact Option.bind_eq_some_iff.mpr ⟨between, chain_mono hwalk _ _ between hbetween,
    Option.bind_eq_some_iff.mpr ⟨parts, walkParts_mono hwalk hle p a strip _ parts hparts, hw⟩⟩

theorem runWith_mono (s : CompiledSchema) (strip : Bool) (v : Json) (w : Walked)
    (h : runWith e walk s strip v = some w) : runWith e walk' s strip v = some w := by
  rcases Option.bind_eq_some_iff.mp h with ⟨inner, hinner, hw⟩
  exact Option.bind_eq_some_iff.mpr ⟨inner, hwalk _ _ _ _ inner hinner, hw⟩

end

/-- More steps do not change the outcome of a walk. -/
theorem walk_mono {fuel fuel' : Nat} (hle : fuel ≤ fuel') :
    Extends (walk e fuel) (walk e fuel') := by
  induction fuel generalizing fuel' with
  | zero =>
    intro n a strip v w h
    simp [walk] at h
  | succ fuel ih =>
    obtain ⟨more, rfl⟩ : ∃ more, fuel' = more + 1 := ⟨fuel' - 1, by omega⟩
    have hwalk : Extends (walk e fuel) (walk e more) := ih (by omega)
    intro n a strip v w h
    by_cases hn : ∃ p, n = .plan p
    · rcases hn with ⟨p, rfl⟩
      exact walkPlan_mono hwalk (by omega) p a strip v w h
    · have hplan : ∀ p, n ≠ .plan p := fun p hp => hn ⟨p, hp⟩
      rw [walk_of_reference hplan] at h ⊢
      cases hs : e.resolve? n with
      | none =>
        rw [hs] at h
        exact h
      | some s =>
        rw [hs] at h
        rcases Option.bind_eq_some_iff.mp h with ⟨inner, hinner, hw⟩
        exact Option.bind_eq_some_iff.mpr ⟨inner, runWith_mono hwalk s strip v inner hinner, hw⟩

theorem run_mono {fuel fuel' : Nat} (hle : fuel ≤ fuel') {s : CompiledSchema} {strip : Bool}
    {v : Json} {w : Walked} (h : run e fuel s strip v = some w) : run e fuel' s strip v = some w :=
  runWith_mono (walk_mono hle) s strip v w h

end Normalization

/-- Where more steps do not change the outcome, it does not matter with how many of them the search
for it starts. -/
theorem firstOutcome_eq_of_mono {α : Type} {attempt : Nat → Option α}
    (hmono : ∀ fuel fuel' x, fuel ≤ fuel' → attempt fuel = some x → attempt fuel' = some x)
    (budget budget' : Nat) : firstOutcome attempt budget = firstOutcome attempt budget' := by
  have hfound : ∀ b b' x, firstOutcome attempt b = some x → firstOutcome attempt b' = some x := by
    intro b b' x hx
    rcases firstOutcome_eq_some hx with ⟨fuel, hfuel⟩
    rcases exists_firstOutcome (fun more hle => ⟨x, hmono fuel more x hle hfuel⟩) b' with ⟨y, hy⟩
    rcases firstOutcome_eq_some hy with ⟨fuel', hfuel'⟩
    have hxy := (hmono _ _ x (Nat.le_max_left fuel fuel') hfuel).symm.trans
      (hmono _ _ y (Nat.le_max_right fuel fuel') hfuel')
    rw [hy, Option.some.inj hxy]
  cases h : firstOutcome attempt budget with
  | some x => exact (hfound budget budget' x h).symm
  | none =>
    cases h' : firstOutcome attempt budget' with
    | none => rfl
    | some x => simpa [h] using hfound budget' budget x h'

namespace Engine

open Normalization

variable {o : Options} {r : Registry} {e : Engine} {s : CompiledSchema} {v v' w : Json}

/-- There is always something left of a value. -/
theorem exists_purged (hr : ofRegistry o r = .ok e) (hstraight : Straight e s.root) (v : Json) :
    ∃ w, Purged e s.root v w := by
  have hpurging : ofRegistry o.purging r = .ok e.purging := by
    rw [purging, (ofRegistry_eq_ok hr).1]
    exact ofRegistry_of_entryOf hr (fun _ => rfl)
  have hends : Ends e.purging s v := (ends_iff_shallow hpurging s v).2 (fun h => nomatch h)
  rcases ends_iff_exists_turns.mp hends with ⟨w, clean, hturns⟩
  exact ⟨w, purged_of_turns hturns rfl hstraight⟩

/-- What is deleted makes no difference to validation. -/
theorem validate_of_purged (ho : e.options.removeAdditional = true)
    (hstraight : Straight e s.root) (hv : v.Ordered) (hv' : v'.Ordered)
    (hw : Purged e s.root v w) (hw' : Purged e s.root v' w) :
    (e.validate s v).verdict = (e.validate s v').verdict ∧
      ((e.validate s v).verdict.success = true →
        (e.validate s v).value = (e.validate s v').value) := by
  have hrun : ∀ fuel, run e fuel s true v = run e fuel s true v' := by
    intro fuel
    have hwalk : walk e fuel s.root ⟨"", ""⟩ true v = walk e fuel s.root ⟨"", ""⟩ true v' :=
      (walk_eq_of_purged ho fuel s.root _ v w hv hstraight hw).trans
        (walk_eq_of_purged ho fuel s.root _ v' w hv' hstraight hw').symm
    simp only [run, runWith, hwalk]
  have hfirst : firstOutcome (fun fuel => run e fuel s true v) (e.budget s v) =
      firstOutcome (fun fuel => run e fuel s true v') (e.budget s v') := by
    rw [funext hrun]
    exact firstOutcome_eq_of_mono (fun _ _ _ hle h => run_mono hle h) _ _
  unfold validate
  rw [hfirst]
  cases firstOutcome (fun fuel => run e fuel s true v') (e.budget s v') with
  | some walked => exact ⟨rfl, fun _ => rfl⟩
  | none => exact ⟨rfl, fun hsuccess => absurd hsuccess Bool.false_ne_true⟩

end Engine

/-! ## What the client is shown -/

namespace Gate

open Normalization

/-- Two outcomes are one to the client: the same validated body, or rejections that differ in
nothing but the data they keep for the handler. -/
inductive SameOutcome : (outcome outcome' : Except Rejection ResponseOutcome) → Prop where
  | validated (w : Json) : SameOutcome (.ok (.validated w)) (.ok (.validated w))
  | rejected {r r' : Rejection} (hmessage : r.message = r'.message) (herrors : r.errors = r'.errors)
      (hresponse : r.toResponse = r'.toResponse) : SameOutcome (.error r) (.error r')

variable {o : Options} {registry : Registry} {e : Engine} {table : SchemaTable} {r : Repository}
  {a : ResponseArtifact} {operation : String} {status : Nat} {v v' w : Json}

/-- Where responses are validated, two bodies of which the same is left have the same outcome for
the client. -/
theorem sameOutcome_after_of_purged (hr : Engine.ofRegistry o registry = .ok e)
    (ho : o.removeAdditional = true) (hload : (Repository.empty e).load table false = .ok r)
    (ha : r.response? status operation = some a) (hstraight : Straight e a.schema.root)
    (hv : v.Ordered) (hv' : v'.Ordered) (hw : Purged e a.schema.root v w)
    (hw' : Purged e a.schema.root v' w) :
    SameOutcome (after r .rejecting operation status v).outcome
      (after r .rejecting operation status v').outcome := by
  obtain ⟨f, s, -, rfl⟩ := Repository.exists_validator_of_load hload ha
  have hengine : r.engine = e := Repository.engine_of_load hload
  have hremove : e.options.removeAdditional = true := (Engine.ofRegistry_eq_ok hr).1 ▸ ho
  rcases Engine.validate_of_purged hremove hstraight hv hv' hw hw' with ⟨hverdict, hvalue⟩
  unfold after
  rw [ha, hengine]
  dsimp only [ResponseArtifact.schema] at hverdict hvalue ⊢
  rw [← hverdict]
  by_cases hsuccess : (e.validate s v).verdict.success = true
  · rw [if_pos hsuccess, if_pos hsuccess, hvalue hsuccess]
    exact .validated _
  · rw [if_neg hsuccess, if_neg hsuccess]
    exact .rejected rfl rfl rfl

/-! ## Trees without notes -/

/-- A tree with a mark instead of a note. -/
def markedSizes : Json := .obj
  [("child", .obj [("size", .str "1")]), ("mark", .bool true), ("size", .str "2")]

/-- What is left of it, and of a tree with a note. -/
def bareSizes : Json := .obj [("child", .obj [("size", .str "1")]), ("size", .str "2")]

theorem purged_textSizes (l l' : Library) :
    Purged (Engine.sizedEngine l) (Engine.sizedSchema l').root Engine.textSizes bareSizes := by
  have hchild : Purged (Engine.sizedEngine l) (.deferred 0)
      (.obj [("note", .null), ("size", .str "1")]) (.obj [("size", .str "1")]) :=
    .reference rfl (.object (.cons (.cons (.scalar rfl) .nil) .nil))
  exact .object (.cons (.cons hchild .nil) (.cons (.cons (.scalar rfl) .nil) .nil))

theorem purged_markedSizes (l l' : Library) :
    Purged (Engine.sizedEngine l) (Engine.sizedSchema l').root markedSizes bareSizes := by
  have hchild : Purged (Engine.sizedEngine l) (.deferred 0)
      (.obj [("size", .str "1")]) (.obj [("size", .str "1")]) :=
    .reference rfl (.object (.cons (.cons (.scalar rfl) .nil) .nil))
  exact .object (.cons (.cons hchild .nil) (.cons (.cons (.scalar rfl) .nil) .nil))

/-- The client cannot tell a tree with a note from one with a mark. -/
theorem sameOutcome_after_sizedTree : ∃ e r a,
    Engine.ofRegistry .standard Engine.sizedTrees = .ok e ∧
    Options.standard.removeAdditional = true ∧
    (Repository.empty e).load (Repository.answering Engine.sizedTree) false = .ok r ∧
    r.response? 200 Repository.soleOperation = some a ∧ Straight e a.schema.root ∧
    Engine.textSizes.Ordered ∧ markedSizes.Ordered ∧
    Purged e a.schema.root Engine.textSizes bareSizes ∧
    Purged e a.schema.root markedSizes bareSizes ∧
    SameOutcome (after r .rejecting Repository.soleOperation 200 Engine.textSizes).outcome
      (after r .rejecting Repository.soleOperation 200 markedSizes).outcome := by
  rcases Engine.exists_ofRegistry_sizedTrees with ⟨l, l', he, hs⟩
  have hload := Repository.load_answering hs
  have ha := Repository.response?_answering (e := Engine.sizedEngine l) (Engine.sizedSchema l') 200
  have hstraight : Straight (Engine.sizedEngine l) (Engine.sizedSchema l').root := by
    intro p hp
    have hplain := Engine.plain_of_reaches he hs Engine.plainSchema_of_sizedTrees
      Engine.plainSchema_sizedTree hp
    exact ⟨hplain.allOf, hplain.patterns⟩
  have hv : Engine.textSizes.Ordered := by
    simp only [Engine.textSizes, Json.Ordered, Json.OrderedMembers, Fields.Ordered, and_true]
    decide
  have hv' : markedSizes.Ordered := by
    simp only [markedSizes, Json.Ordered, Json.OrderedMembers, Fields.Ordered, and_true]
    decide
  exact ⟨_, _, _, he, rfl, hload, ha, hstraight, hv, hv', purged_textSizes l l',
    purged_markedSizes l l', sameOutcome_after_of_purged he rfl hload ha hstraight hv hv'
      (purged_textSizes l l') (purged_markedSizes l l')⟩

/-! ## A schema that declares no property by name -/

/-- A schema of objects whose list of properties is empty. -/
def nothingDeclared : Fragment := .ofMembers [("properties", .obj [])]

/-- The compiled schema, with an evaluator that refers to the library. -/
def nothingDeclaredSchema (l : Library) : CompiledSchema :=
  ⟨.plan Plan.empty, ⟨l, Evaluator.defaultBase, nothingDeclared.document⟩, nothingDeclared.document⟩

theorem exists_compile_nothingDeclared : ∃ l,
    (Engine.ofOptions .standard).compile nothingDeclared = .ok (nothingDeclaredSchema l) := by
  refine Engine.compile_of_basic .standard nothingDeclared rfl rfl (.single (.properties ?_))
  exact fun m hm => absurd hm List.not_mem_nil

theorem accepts_nothingDeclared (l : Library) (members : Fields Json) :
    Evaluator.accepts ⟨l, Evaluator.defaultBase, nothingDeclared.document⟩ (.obj members) =
      true := by
  rcases Evaluator.exists_steps ⟨l, Evaluator.defaultBase, nothingDeclared.document⟩
    (.obj members) with ⟨n, hn⟩
  unfold Evaluator.accepts Evaluator.findings
  rw [hn, List.isEmpty_iff]
  refine Evaluation.judge_members (fun q hq m hm => ?_)
  obtain rfl := List.mem_singleton.mp hm
  have hknown : q.scope.known = true := by
    rw [hq]
    exact Evaluation.within_known _ _
  rw [Evaluation.keywordFindings_properties hknown rfl]
  exact Evaluation.properties_eq_nil (fun _ _ m hm => absurd hm List.not_mem_nil)

theorem after_nothingDeclared (l : Library) {members : Fields Json}
    (h : walk (Engine.ofOptions .standard) 3 (.plan Plan.empty) ⟨"", ""⟩ true (.obj members) =
      some ⟨.obj members, []⟩) :
    (after ⟨Engine.ofOptions .standard, [(Repository.soleOperation,
        Repository.answeringContract (nothingDeclaredSchema l))]⟩ .rejecting
      Repository.soleOperation 200 (.obj members)).outcome = .ok (.validated (.obj members)) := by
  have hleaves : Engine.Leaves (Engine.ofOptions .standard) (nothingDeclaredSchema l)
      (.obj members) (.obj members) true := by
    refine ⟨true, sound_walk 3 _ _ true _ _ h, ?_⟩
    exact (Bool.and_true _).symm ▸ (accepts_nothingDeclared l members).symm
  rcases Engine.validate_of_leaves hleaves with ⟨hvalue, hsuccess⟩
  unfold after
  rw [Repository.response?_answering]
  dsimp only
  rw [if_pos hsuccess, hvalue]

/-- All members are undeclared, and the client is shown them. -/
theorem not_sameOutcome_nothingDeclared : ∃ e r,
    Engine.ofRegistry .standard .empty = .ok e ∧
    (Repository.empty e).load (Repository.answering nothingDeclared) false = .ok r ∧
    ¬ SameOutcome
      (after r .rejecting Repository.soleOperation 200 (.obj [("secret", .bool true)])).outcome
      (after r .rejecting Repository.soleOperation 200 (.obj [])).outcome := by
  rcases exists_compile_nothingDeclared with ⟨l, hs⟩
  refine ⟨_, _, Engine.ofRegistry_empty _, Repository.load_answering hs, ?_⟩
  rw [after_nothingDeclared l rfl, after_nothingDeclared l rfl]
  intro h
  cases h

end Gate

end HttpContract
