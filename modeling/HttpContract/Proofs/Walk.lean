import HttpContract.Proofs.Declaring

/-!
# The walk as a relation

`Normalization.walk` counts its steps and says where each violation stands. Neither matters for what
becomes of a value: `Turns` gives the rules of the walk without them, one for each kind of node, and
`turns_iff` says that a walk with enough steps and the rules agree. The last argument of the
relation tells whether the walk found no violation.
-/

namespace HttpContract.Normalization

variable {e : Engine}

/-! ## Nodes of the parts of a value -/

/-- The nodes for a property, without their places. -/
def memberNodes (p : Plan Node) (key : String) : List Node :=
  match (Fields.get? p.properties key).toList ++ (p.matching key).map (·.2) with
  | [] =>
    match p.additional with
    | .schema n => [n]
    | _ => []
  | nodes => nodes

/-- The nodes for an item, without their places. -/
def itemNodes (p : Plan Node) (index : Nat) : List Node :=
  match p.leading[index]? with
  | some n => [n]
  | none => p.items.toList

theorem length_itemNodes (p : Plan Node) (i : Nat) : (itemNodes p i).length ≤ 1 := by
  unfold itemNodes
  split
  · simp
  · cases p.items <;> simp

/-- The nodes of a list of steps, each with the given flag. -/
def Flagged (strip : Bool) (nodes : List Node) (steps : List (Node × At × Bool)) : Prop :=
  steps.map (fun x => (x.1, x.2.2)) = nodes.map (fun n => (n, strip))

theorem Flagged.nil {strip : Bool} : Flagged strip [] [] := rfl

theorem Flagged.cons {strip : Bool} {n : Node} {a : At} {nodes : List Node}
    {steps : List (Node × At × Bool)} (h : Flagged strip nodes steps) :
    Flagged strip (n :: nodes) ((n, a, strip) :: steps) := by
  simpa [Flagged] using h

theorem flagged_nodesFor (p : Plan Node) (a : At) (key : String) :
    Flagged true (memberNodes p key) (nodesFor p a key) := by
  unfold nodesFor memberNodes
  cases Fields.get? p.properties key with
  | some n => simp [Flagged]
  | none =>
    cases p.matching key with
    | cons m rest => simp [Flagged]
    | nil => cases p.additional <;> simp [Flagged]

theorem flagged_nodeAt (p : Plan Node) (a : At) (index : Nat) :
    Flagged true (itemNodes p index) (nodeAt p a index) := by
  unfold nodeAt itemNodes
  cases p.leading[index]? with
  | some n => simp [Flagged]
  | none => cases p.items <;> simp [Flagged]

theorem flagged_branchSteps (p : Plan Node) (a : At) :
    Flagged false p.allOf (branchSteps p a) := by
  -- numbering the branches does not change them
  have hsnd : ((List.range p.allOf.length).zip p.allOf).map Prod.snd = p.allOf :=
    List.map_snd_zip (by simp)
  unfold Flagged branchSteps
  rw [List.map_map]
  calc ((List.range p.allOf.length).zip p.allOf).map
        ((fun x : Node × At × Bool => (x.1, x.2.2)) ∘
          fun x => (x.2, a.entry "allOf" (toString x.1), false))
      = (((List.range p.allOf.length).zip p.allOf).map Prod.snd).map (fun n => (n, false)) := by
        rw [List.map_map]; rfl
    _ = p.allOf.map (fun n => (n, false)) := by rw [hsnd]

/-! ## Rules -/

/-- Whether a value has no parts. -/
def isScalar : Json → Bool
  | .arr _ => false
  | .obj _ => false
  | _ => true

theorem ordered_of_isScalar {v : Json} (h : isScalar v = true) : v.Ordered := by
  cases v with
  | arr items => cases h
  | obj members => cases h
  | _ => trivial

mutual

/-- Walking along a node turns a value into another; the last argument says that no violation was
found. -/
inductive Turns (e : Engine) : Node → (strip : Bool) → Json → Json → (clean : Bool) → Prop where
  | nowhere {n : Node} {strip : Bool} {v : Json} (hn : ∀ p, n ≠ .plan p)
      (hs : e.resolve? n = none) : Turns e n strip v v true
  | reference {n : Node} {s : CompiledSchema} {strip clean : Bool} {v w : Json}
      (hs : e.resolve? n = some s) (h : Turns e s.root strip v w clean) :
      Turns e n strip v w (s.evaluator.accepts w && clean)
  | plan {p : Plan Node} {strip clean clean' : Bool} {v u w : Json}
      (hbranches : Runs e false p.allOf (coerced e.options p.types v) u clean)
      (hparts : Parts e p strip u w clean') : Turns e (.plan p) strip v w (clean && clean')

/-- Walking along several nodes one after the other, all with the same flag. -/
inductive Runs (e : Engine) :
    (strip : Bool) → List Node → Json → Json → (clean : Bool) → Prop where
  | nil {strip : Bool} {v : Json} : Runs e strip [] v v true
  | cons {strip clean clean' : Bool} {n : Node} {rest : List Node} {v u w : Json}
      (h : Turns e n strip v u clean) (hrest : Runs e strip rest u w clean') :
      Runs e strip (n :: rest) v w (clean && clean')

/-- Walking over the parts of a value along a plan. -/
inductive Parts (e : Engine) :
    Plan Node → (strip : Bool) → Json → Json → (clean : Bool) → Prop where
  | object {p : Plan Node} {strip clean : Bool} {members ready members' : Fields Json}
      (hready : ∃ fuel, prepared e fuel p strip members = some ready)
      (h : Members e p ready members' clean) : Parts e p strip (.obj members) (.obj members') clean
  | list {p : Plan Node} {strip clean : Bool} {items items' : List Json}
      (h : Items e p 0 items items' clean) : Parts e p strip (.arr items) (.arr items') clean
  | scalar {p : Plan Node} {strip : Bool} {v : Json} (h : isScalar v = true) :
      Parts e p strip v v true

/-- Walking over members. -/
inductive Members (e : Engine) : Plan Node → Fields Json → Fields Json → (clean : Bool) → Prop where
  | nil {p : Plan Node} : Members e p [] [] true
  | cons {p : Plan Node} {key : String} {v w : Json} {rest rest' : Fields Json}
      {clean clean' : Bool} (h : Runs e true (memberNodes p key) v w clean)
      (hrest : Members e p rest rest' clean') :
      Members e p ((key, v) :: rest) ((key, w) :: rest') (clean && clean')

/-- Walking over items from an index on. -/
inductive Items (e : Engine) :
    Plan Node → (index : Nat) → List Json → List Json → (clean : Bool) → Prop where
  | nil {p : Plan Node} {index : Nat} : Items e p index [] [] true
  | cons {p : Plan Node} {index : Nat} {v w : Json} {rest rest' : List Json}
      {clean clean' : Bool} (h : Runs e true (itemNodes p index) v w clean)
      (hrest : Items e p (index + 1) rest rest' clean') :
      Items e p index (v :: rest) (w :: rest') (clean && clean')

end

theorem turns_plan_iff {p : Plan Node} {strip clean : Bool} {v w : Json} :
    Turns e (.plan p) strip v w clean ↔ ∃ u first others,
      Runs e false p.allOf (coerced e.options p.types v) u first ∧ Parts e p strip u w others ∧
        clean = (first && others) := by
  constructor
  · intro h
    cases h with
    | nowhere hn _ => exact absurd rfl (hn p)
    | reference hs _ => simp at hs
    | plan hbranches hparts => exact ⟨_, _, _, hbranches, hparts, rfl⟩
  · rintro ⟨u, first, others, hbranches, hparts, rfl⟩
    exact .plan hbranches hparts

theorem turns_iff_of_resolve? {n : Node} {s : CompiledSchema} {strip clean : Bool} {v w : Json}
    (hs : e.resolve? n = some s) : Turns e n strip v w clean ↔
      ∃ inner, Turns e s.root strip v w inner ∧ clean = (s.evaluator.accepts w && inner) := by
  constructor
  · intro h
    cases h with
    | nowhere _ hs' => simp [hs] at hs'
    | reference hs' h =>
      obtain rfl : s = _ := Option.some.inj (hs.symm.trans hs')
      exact ⟨_, h, rfl⟩
    | plan _ _ => simp at hs
  · rintro ⟨inner, h, rfl⟩
    exact .reference hs h

/-! ## Walks follow the rules -/

theorem isEmpty_append {α : Type} (xs ys : List α) :
    (xs ++ ys).isEmpty = (xs.isEmpty && ys.isEmpty) := by
  cases xs with
  | nil => rfl
  | cons x rest => rfl

/-- A walk whose outcomes follow the rules. -/
def Sound (e : Engine) (walk : Walk) : Prop :=
  ∀ n a strip v w, walk n a strip v = some w → Turns e n strip v w.value w.errors.isEmpty

section

variable {walk : Walk}

theorem runs_of_chain (hwalk : Sound e walk) {strip : Bool} :
    ∀ (steps : List (Node × At × Bool)) (nodes : List Node) (v w : Walked),
      Flagged strip nodes steps → chain walk steps v = some w →
      ∃ clean, Runs e strip nodes v.value w.value clean ∧
        w.errors.isEmpty = (v.errors.isEmpty && clean) := by
  intro steps
  induction steps with
  | nil =>
    intro nodes v w hflag h
    have hnodes : nodes = [] := by simpa [Flagged] using hflag.symm
    have hvw : v = w := by simpa [chain] using h
    subst hnodes hvw
    exact ⟨true, Runs.nil, by simp⟩
  | cons step rest ih =>
    intro nodes v w hflag h
    rcases step with ⟨n, a, flag⟩
    cases nodes with
    | nil => simp [Flagged] at hflag
    | cons m others =>
      obtain ⟨⟨hn, hf⟩, hothers⟩ : (n = m ∧ flag = strip) ∧ Flagged strip others rest := by
        simpa [Flagged] using hflag
      subst hn hf
      rw [chain] at h
      cases hstep : walk n a flag v.value with
      | none => simp [hstep] at h
      | some next =>
        have hchain : chain walk rest ⟨next.value, v.errors ++ next.errors⟩ = some w := by
          simpa [hstep] using h
        have hturns : Turns e n flag v.value next.value next.errors.isEmpty :=
          hwalk n a flag v.value next hstep
        rcases ih others ⟨next.value, v.errors ++ next.errors⟩ w hothers hchain with
          ⟨clean, hruns, herrors⟩
        -- the violations so far are passed on, those of the rest come after them
        refine ⟨next.errors.isEmpty && clean, Runs.cons hturns hruns, ?_⟩
        rw [herrors, isEmpty_append, Bool.and_assoc]

theorem members_of_walkMembers (hwalk : Sound e walk) {p : Plan Node} {a : At} :
    ∀ (members members' : Fields Json) (errors : List FieldError),
      walkMembers walk p a members = some (members', errors) →
      Members e p members members' errors.isEmpty := by
  intro members
  induction members with
  | nil =>
    intro members' errors h
    obtain ⟨hm, herr⟩ : [] = members' ∧ [] = errors := by simpa [walkMembers] using h
    subst hm herr
    exact Members.nil
  | cons m rest ih =>
    intro members' errors h
    rcases m with ⟨key, v⟩
    rw [walkMembers] at h
    cases hchain : chain walk (nodesFor p a key) ⟨v, []⟩ with
    | none => simp [hchain] at h
    | some w =>
      cases hrest : walkMembers walk p a rest with
      | none => simp [hchain, hrest] at h
      | some others =>
        obtain ⟨hm, herr⟩ : (key, w.value) :: others.1 = members' ∧
            w.errors ++ others.2 = errors := by
          simpa [hchain, hrest] using h
        rcases runs_of_chain hwalk _ _ _ w (flagged_nodesFor p a key) hchain with
          ⟨clean, hruns, hclean⟩
        subst hm herr
        have heq : w.errors.isEmpty = clean := by simpa using hclean
        rw [isEmpty_append, heq]
        exact Members.cons hruns (ih others.1 others.2 hrest)

theorem items_of_walkItems (hwalk : Sound e walk) {p : Plan Node} {a : At} :
    ∀ (items : List Json) (index : Nat) (items' : List Json) (errors : List FieldError),
      walkItems walk p a index items = some (items', errors) →
      Items e p index items items' errors.isEmpty := by
  intro items
  induction items with
  | nil =>
    intro index items' errors h
    obtain ⟨hm, herr⟩ : [] = items' ∧ [] = errors := by simpa [walkItems] using h
    subst hm herr
    exact Items.nil
  | cons v rest ih =>
    intro index items' errors h
    rw [walkItems] at h
    cases hchain : chain walk (nodeAt p a index) ⟨v, []⟩ with
    | none => simp [hchain] at h
    | some w =>
      cases hrest : walkItems walk p a (index + 1) rest with
      | none => simp [hchain, hrest] at h
      | some others =>
        obtain ⟨hm, herr⟩ : w.value :: others.1 = items' ∧ w.errors ++ others.2 = errors := by
          simpa [hchain, hrest] using h
        rcases runs_of_chain hwalk _ _ _ w (flagged_nodeAt p a index) hchain with
          ⟨clean, hruns, hclean⟩
        subst hm herr
        have heq : w.errors.isEmpty = clean := by simpa using hclean
        rw [isEmpty_append, heq]
        exact Items.cons hruns (ih (index + 1) others.1 others.2 hrest)

theorem parts_of_walkParts (hwalk : Sound e walk) {fuel : Nat} {p : Plan Node} {a : At}
    {strip : Bool} {v : Json} {w : Walked} (h : walkParts e fuel walk p a strip v = some w) :
    Parts e p strip v w.value w.errors.isEmpty := by
  cases v with
  | obj members =>
    rw [walkParts] at h
    cases hready : prepared e fuel p strip members with
    | none => simp [hready] at h
    | some ready =>
      cases hmembers : walkMembers walk p a ready with
      | none => simp [hready, hmembers] at h
      | some x =>
        have hw : ⟨.obj x.1, x.2⟩ = w := by simpa [hready, hmembers] using h
        subst hw
        exact Parts.object ⟨fuel, hready⟩ (members_of_walkMembers hwalk ready x.1 x.2 hmembers)
  | arr items =>
    rw [walkParts] at h
    cases hitems : walkItems walk p a 0 items with
    | none => simp [hitems] at h
    | some x =>
      have hw : ⟨.arr x.1, x.2⟩ = w := by simpa [hitems] using h
      subst hw
      exact Parts.list (items_of_walkItems hwalk items 0 x.1 x.2 hitems)
  | _ =>
    have hw := Option.some.inj h
    subst hw
    exact Parts.scalar rfl

theorem turns_of_walkPlan (hwalk : Sound e walk) {fuel : Nat} {p : Plan Node} {a : At}
    {strip : Bool} {v : Json} {w : Walked} (h : walkPlan e fuel walk p a strip v = some w) :
    Turns e (.plan p) strip v w.value w.errors.isEmpty := by
  rw [walkPlan] at h
  cases hchain : chain walk (branchSteps p a) ⟨coerced e.options p.types v, []⟩ with
  | none => simp [hchain] at h
  | some b =>
    cases hparts : walkParts e fuel walk p a strip b.value with
    | none => simp [hchain, hparts] at h
    | some x =>
      obtain ⟨clean, hruns, hclean⟩ := runs_of_chain hwalk _ _ _ b (flagged_branchSteps p a) hchain
      have heq : b.errors.isEmpty = clean := by simpa using hclean
      have hw : ⟨x.value, b.errors ++ x.errors⟩ = w := by simpa [hchain, hparts] using h
      subst hw heq
      rw [isEmpty_append]
      exact Turns.plan hruns (parts_of_walkParts hwalk hparts)

@[simp] theorem isEmpty_limit {α : Type} (o : Options) (errors : List α) :
    (o.limit errors).isEmpty = errors.isEmpty := by
  unfold Options.limit
  split
  · rfl
  · cases errors with
    | nil => rfl
    | cons x rest => rfl

/-- The outcome of a validation found no violation when its walk found none and the evaluator
accepts what is left. -/
theorem runWith_eq_some {s : CompiledSchema} {strip : Bool} {v : Json} {w : Walked}
    (h : runWith e walk s strip v = some w) :
    ∃ inner, walk s.root ⟨"", ""⟩ strip v = some inner ∧ w.value = inner.value ∧
      w.errors.isEmpty = (s.evaluator.accepts w.value && inner.errors.isEmpty) := by
  unfold runWith at h
  cases hwalk : walk s.root ⟨"", ""⟩ strip v with
  | none => simp [hwalk] at h
  | some inner =>
    rw [hwalk] at h
    refine ⟨inner, rfl, ?_⟩
    have hw : w = _ := (Option.some.inj h).symm
    subst hw
    simp [isEmpty_append, Evaluator.accepts]

end

theorem walk_of_reference {n : Node} (hn : ∀ p, n ≠ .plan p) (fuel : Nat) (a : At) (strip : Bool)
    (v : Json) :
    walk e (fuel + 1) n a strip v =
      match e.resolve? n with
      | none => some ⟨v, []⟩
      | some s => do
        let w ← runWith e (walk e fuel) s strip v
        return ⟨w.value, w.errors.map (rebased a)⟩ := by
  cases n with
  | plan p => exact absurd rfl (hn p)
  | inline root evaluator source => rfl
  | deferred handle => rfl

/-- A walk with any number of steps follows the rules. -/
theorem sound_walk : ∀ fuel, Sound e (walk e fuel) := by
  intro fuel
  induction fuel with
  | zero =>
    intro n a strip v w h
    simp [walk] at h
  | succ fuel ih =>
    intro n a strip v w h
    by_cases hn : ∃ p, n = .plan p
    · rcases hn with ⟨p, rfl⟩
      exact turns_of_walkPlan ih h
    · have hplan : ∀ p, n ≠ .plan p := fun p hp => hn ⟨p, hp⟩
      rw [walk_of_reference hplan] at h
      cases hs : e.resolve? n with
      | none =>
        have hw : ⟨v, []⟩ = w := by simpa [hs] using h
        subst hw
        exact Turns.nowhere hplan hs
      | some s =>
        cases hrun : runWith e (walk e fuel) s strip v with
        | none => simp [hs, hrun] at h
        | some r =>
          rcases runWith_eq_some hrun with ⟨inner, hinner, hvalue, hclean⟩
          have hw : ⟨r.value, r.errors.map (rebased a)⟩ = w := by simpa [hs, hrun] using h
          subst hw
          have hturns : Turns e s.root strip v inner.value inner.errors.isEmpty :=
            ih s.root ⟨"", ""⟩ strip v inner hinner
          rw [← hvalue] at hturns
          -- where a violation stands does not matter for whether there is one
          have hempty : (r.errors.map (rebased a)).isEmpty = r.errors.isEmpty := by simp
          rw [hempty, hclean]
          exact Turns.reference hs hturns

/-! ## Enough steps

A derivation by the rules says how many steps the walk needs: from that number on, it comes to the
value of the derivation wherever it starts from. -/

theorem walkParts_of_isScalar {fuel : Nat} {along : Walk} {p : Plan Node} {a : At} {strip : Bool}
    {v : Json} (h : isScalar v = true) : walkParts e fuel along p a strip v = some ⟨v, []⟩ := by
  cases v with
  | obj members => simp [isScalar] at h
  | arr items => simp [isScalar] at h
  | _ => rfl

-- One theorem for each kind of derivation. The number of steps must not depend on the place that
-- the walk starts from, so the place is chosen after it.
mutual

theorem walk_of_turns {n : Node} {strip clean : Bool} {v w : Json} :
    Turns e n strip v w clean → ∃ least, ∀ fuel, least ≤ fuel → ∀ a, ∃ errors,
      walk e fuel n a strip v = some ⟨w, errors⟩ ∧ errors.isEmpty = clean
  | .nowhere hn hs => by
    refine ⟨1, fun fuel hle a => ⟨[], ?_, rfl⟩⟩
    obtain ⟨fuel, rfl⟩ : ∃ k, fuel = k + 1 := ⟨fuel - 1, by omega⟩
    rw [walk_of_reference hn, hs]
  | .reference (s := s) hs h => by
    rcases walk_of_turns h with ⟨least, hleast⟩
    refine ⟨least + 1, fun fuel hle a => ?_⟩
    obtain ⟨fuel, rfl⟩ : ∃ k, fuel = k + 1 := ⟨fuel - 1, by omega⟩
    rcases hleast fuel (by omega) ⟨"", ""⟩ with ⟨errors, hwalk, hclean⟩
    have hn : ∀ p, n ≠ .plan p := by
      rintro p rfl
      simp at hs
    rw [walk_of_reference hn, hs]
    dsimp only
    rw [runWith, hwalk]
    refine ⟨_, rfl, ?_⟩
    simp [isEmpty_append, Evaluator.accepts, hclean]
  | .plan (p := p) hbranches hparts => by
    rcases chain_of_runs hbranches with ⟨first, hfirst⟩
    rcases walkParts_of_parts hparts with ⟨others, hothers⟩
    refine ⟨max first others + 1, fun fuel hle a => ?_⟩
    obtain ⟨fuel, rfl⟩ : ∃ k, fuel = k + 1 := ⟨fuel - 1, by omega⟩
    have hlefirst : first ≤ fuel := by omega
    have hleothers : others ≤ fuel := by omega
    rcases hfirst fuel hlefirst (branchSteps p a) [] (flagged_branchSteps p a) with
      ⟨errors, hchain, hclean⟩
    rcases hothers fuel hleothers a with ⟨errors', hwalk, hclean'⟩
    refine ⟨errors ++ errors', ?_, by rw [isEmpty_append, hclean, hclean']⟩
    rw [walk, walkPlan, hchain]
    simp [hwalk]
termination_by structural h => h

theorem chain_of_runs {nodes : List Node} {strip clean : Bool} {v w : Json} :
    Runs e strip nodes v w clean → ∃ least, ∀ fuel, least ≤ fuel → ∀ steps before,
      Flagged strip nodes steps → ∃ errors,
        chain (walk e fuel) steps ⟨v, before⟩ = some ⟨w, before ++ errors⟩ ∧
          errors.isEmpty = clean
  | .nil => by
    refine ⟨0, fun fuel _ steps before hflag => ⟨[], ?_, rfl⟩⟩
    have hsteps : steps = [] := by simpa [Flagged] using hflag
    rw [hsteps, chain, List.append_nil]
  | .cons h hrest => by
    rcases walk_of_turns h with ⟨first, hfirst⟩
    rcases chain_of_runs hrest with ⟨others, hothers⟩
    refine ⟨max first others, fun fuel hle steps before hflag => ?_⟩
    cases steps with
    | nil => simp [Flagged] at hflag
    | cons step steps =>
      rcases step with ⟨m, a, flag⟩
      obtain ⟨⟨hm, hf⟩, hflags⟩ : (m = _ ∧ flag = strip) ∧ Flagged strip _ steps := by
        simpa [Flagged] using hflag
      rw [hm, hf]
      rcases hfirst fuel (by omega) a with ⟨errors, hwalk, hclean⟩
      rcases hothers fuel (by omega) steps (before ++ errors) hflags with ⟨errors', hchain, hclean'⟩
      refine ⟨errors ++ errors', ?_, by rw [isEmpty_append, hclean, hclean']⟩
      rw [chain, hwalk]
      simpa using hchain
termination_by structural h => h

theorem walkParts_of_parts {p : Plan Node} {strip clean : Bool} {v w : Json} :
    Parts e p strip v w clean → ∃ least, ∀ fuel, least ≤ fuel → ∀ a, ∃ errors,
      walkParts e fuel (walk e fuel) p a strip v = some ⟨w, errors⟩ ∧ errors.isEmpty = clean
  | .object hready h => by
    rcases hready with ⟨first, hready⟩
    rcases walkMembers_of_members h with ⟨others, hothers⟩
    refine ⟨max first others, fun fuel hle a => ?_⟩
    rcases hothers fuel (by omega) a with ⟨errors, hwalk, hclean⟩
    refine ⟨errors, ?_, hclean⟩
    rw [walkParts, prepared_mono (by omega) hready]
    simp [hwalk]
  | .list h => by
    rcases walkItems_of_items h with ⟨least, hleast⟩
    refine ⟨least, fun fuel hle a => ?_⟩
    rcases hleast fuel hle a with ⟨errors, hwalk, hclean⟩
    refine ⟨errors, ?_, hclean⟩
    rw [walkParts, hwalk]
    rfl
  | .scalar h => ⟨0, fun _ _ _ => ⟨[], walkParts_of_isScalar h, rfl⟩⟩
termination_by structural h => h

theorem walkMembers_of_members {p : Plan Node} {members members' : Fields Json} {clean : Bool} :
    Members e p members members' clean → ∃ least, ∀ fuel, least ≤ fuel → ∀ a, ∃ errors,
      walkMembers (walk e fuel) p a members = some (members', errors) ∧ errors.isEmpty = clean
  | .nil => ⟨0, fun _ _ _ => ⟨[], rfl, rfl⟩⟩
  | .cons h hrest => by
    rcases chain_of_runs h with ⟨first, hfirst⟩
    rcases walkMembers_of_members hrest with ⟨others, hothers⟩
    refine ⟨max first others, fun fuel hle a => ?_⟩
    obtain ⟨errors, hchain, hclean⟩ :=
      hfirst fuel (by omega) (nodesFor p a _) [] (flagged_nodesFor p a _)
    rcases hothers fuel (by omega) a with ⟨errors', hwalk, hclean'⟩
    refine ⟨errors ++ errors', ?_, by rw [isEmpty_append, hclean, hclean']⟩
    rw [walkMembers, hchain]
    simp [hwalk]
termination_by structural h => h

theorem walkItems_of_items {p : Plan Node} {index : Nat} {items items' : List Json} {clean : Bool} :
    Items e p index items items' clean → ∃ least, ∀ fuel, least ≤ fuel → ∀ a, ∃ errors,
      walkItems (walk e fuel) p a index items = some (items', errors) ∧ errors.isEmpty = clean
  | .nil => ⟨0, fun _ _ _ => ⟨[], rfl, rfl⟩⟩
  | .cons h hrest => by
    rcases chain_of_runs h with ⟨first, hfirst⟩
    rcases walkItems_of_items hrest with ⟨others, hothers⟩
    refine ⟨max first others, fun fuel hle a => ?_⟩
    obtain ⟨errors, hchain, hclean⟩ :=
      hfirst fuel (by omega) (nodeAt p a index) [] (flagged_nodeAt p a index)
    rcases hothers fuel (by omega) a with ⟨errors', hwalk, hclean'⟩
    refine ⟨errors ++ errors', ?_, by rw [isEmpty_append, hclean, hclean']⟩
    rw [walkItems, hchain]
    simp [hwalk]
termination_by structural h => h

end

/-- The rules describe the walk. -/
theorem turns_iff {n : Node} {strip clean : Bool} {v w : Json} :
    Turns e n strip v w clean ↔
      ∃ fuel a errors, walk e fuel n a strip v = some ⟨w, errors⟩ ∧ errors.isEmpty = clean := by
  constructor
  · intro h
    rcases walk_of_turns h with ⟨least, hleast⟩
    exact ⟨least, ⟨"", ""⟩, hleast least (Nat.le_refl _) ⟨"", ""⟩⟩
  · rintro ⟨fuel, a, errors, hwalk, hclean⟩
    have h := sound_walk fuel n a strip v ⟨w, errors⟩ hwalk
    rw [← hclean]
    exact h

/-! ## Outcomes of the parts -/

/-- The walk over members has an outcome when it has one for each of them. -/
theorem exists_members_iff {p : Plan Node} {members : Fields Json} :
    (∃ members' clean, Members e p members members' clean) ↔
      ∀ m ∈ members, ∃ w clean, Runs e true (memberNodes p m.1) m.2 w clean := by
  induction members with
  | nil => exact ⟨by simp, fun _ => ⟨[], true, .nil⟩⟩
  | cons m rest ih =>
    rcases m with ⟨key, v⟩
    constructor
    · rintro ⟨members', clean, h⟩
      cases h with
      | cons hruns hrest =>
        intro x hx
        rcases List.mem_cons.mp hx with rfl | hx
        · exact ⟨_, _, hruns⟩
        · exact ih.mp ⟨_, _, hrest⟩ x hx
    · intro h
      rcases h (key, v) List.mem_cons_self with ⟨w, clean, hruns⟩
      rcases ih.mpr (fun x hx => h x (List.mem_cons_of_mem _ hx)) with ⟨rest', clean', hrest⟩
      exact ⟨_, _, .cons hruns hrest⟩

/-- The walk over items has an outcome when it has one for each of them. -/
theorem exists_items_iff {p : Plan Node} {items : List Json} : ∀ {index : Nat},
    (∃ items' clean, Items e p index items items' clean) ↔
      ∀ i v, items[i]? = some v → ∃ w clean, Runs e true (itemNodes p (index + i)) v w clean := by
  induction items with
  | nil => exact fun {index} => ⟨by simp, fun _ => ⟨[], true, .nil⟩⟩
  | cons v rest ih =>
    intro index
    constructor
    · rintro ⟨items', clean, h⟩ i x hx
      cases h with
      | cons hruns hrest =>
        cases i with
        | zero =>
          obtain rfl : v = x := by simpa using hx
          exact ⟨_, _, hruns⟩
        | succ i =>
          have hshift : index + (i + 1) = index + 1 + i := by omega
          rw [hshift]
          exact ih.mp ⟨_, _, hrest⟩ i x (by simpa using hx)
    · intro h
      rcases h 0 v rfl with ⟨w, clean, hruns⟩
      have htail : ∀ i x, rest[i]? = some x →
          ∃ w clean, Runs e true (itemNodes p (index + 1 + i)) x w clean := by
        intro i x hx
        have hshift : index + 1 + i = index + (i + 1) := by omega
        rw [hshift]
        exact h (i + 1) x (by simpa using hx)
      rcases ih.mpr htail with ⟨rest', clean', hrest⟩
      exact ⟨_, _, .cons hruns hrest⟩

/-! ## One outcome -/

/-- Steps along nodes that all start from the root. -/
def rootSteps (strip : Bool) (nodes : List Node) : List (Node × At × Bool) :=
  nodes.map (fun n => (n, ⟨"", ""⟩, strip))

theorem flagged_rootSteps (strip : Bool) (nodes : List Node) :
    Flagged strip nodes (rootSteps strip nodes) := by
  simp [Flagged, rootSteps]

theorem Turns.unique {n : Node} {strip clean clean' : Bool} {v w w' : Json}
    (h : Turns e n strip v w clean) (h' : Turns e n strip v w' clean') :
    w = w' ∧ clean = clean' := by
  rcases walk_of_turns h with ⟨least, hleast⟩
  rcases walk_of_turns h' with ⟨least', hleast'⟩
  -- with enough steps for both, they are the same walk
  rcases hleast (max least least') (Nat.le_max_left _ _) ⟨"", ""⟩ with ⟨errors, hwalk, hclean⟩
  rcases hleast' (max least least') (Nat.le_max_right _ _) ⟨"", ""⟩ with ⟨errors', hwalk', hclean'⟩
  obtain ⟨hvalue, herrors⟩ : w = w' ∧ errors = errors' := by
    simpa using hwalk.symm.trans hwalk'
  exact ⟨hvalue, by rw [← hclean, ← hclean', herrors]⟩

theorem Runs.unique {nodes : List Node} {strip clean clean' : Bool} {v w w' : Json}
    (h : Runs e strip nodes v w clean) (h' : Runs e strip nodes v w' clean') :
    w = w' ∧ clean = clean' := by
  rcases chain_of_runs h with ⟨least, hleast⟩
  rcases chain_of_runs h' with ⟨least', hleast'⟩
  obtain ⟨errors, hchain, hclean⟩ := hleast (max least least') (Nat.le_max_left _ _)
    (rootSteps strip nodes) [] (flagged_rootSteps strip nodes)
  obtain ⟨errors', hchain', hclean'⟩ := hleast' (max least least') (Nat.le_max_right _ _)
    (rootSteps strip nodes) [] (flagged_rootSteps strip nodes)
  obtain ⟨hvalue, herrors⟩ : w = w' ∧ errors = errors' := by
    simpa using hchain.symm.trans hchain'
  exact ⟨hvalue, by rw [← hclean, ← hclean', herrors]⟩

theorem prepared_unique {p : Plan Node} {strip : Bool} {members ready ready' : Fields Json}
    (h : ∃ fuel, prepared e fuel p strip members = some ready)
    (h' : ∃ fuel, prepared e fuel p strip members = some ready') : ready = ready' := by
  rcases h with ⟨fuel, hready⟩
  rcases h' with ⟨fuel', hready'⟩
  have hmax := prepared_mono (Nat.le_max_left fuel fuel') hready
  have hmax' := prepared_mono (Nat.le_max_right fuel fuel') hready'
  exact Option.some.inj (hmax.symm.trans hmax')

end HttpContract.Normalization
