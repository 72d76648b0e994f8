import HttpContract.Proofs.Walk

/-!
# Validation by the rules of the walk

`Engine.validate` adds steps until they suffice. `Engine.Ends` says that some number of them does,
and `Engine.Leaves` what validation then leaves of the value, by the rules of the walk. The two
sides agree: `Engine.leaves_validate`, `Engine.validate_of_leaves`.
-/

namespace HttpContract

/-! ## Adding steps -/

theorem firstOutcome_eq_some {α : Type} {attempt : Nat → Option α} {budget : Nat} {outcome : α}
    (h : firstOutcome attempt budget = some outcome) : ∃ fuel, attempt fuel = some outcome := by
  rcases Option.map_eq_some_iff.mp h with ⟨found, -, rfl⟩
  exact found.property

theorem firstOutcome_of_eq_some {α : Type} {attempt : Nat → Option α} {budget : Nat} {outcome : α}
    (h : attempt budget = some outcome) : firstOutcome attempt budget = some outcome := by
  rw [firstOutcome_eq, h]

theorem exists_firstOutcome {α : Type} {attempt : Nat → Option α} {least : Nat}
    (h : ∀ fuel, least ≤ fuel → ∃ outcome, attempt fuel = some outcome) (budget : Nat) :
    ∃ outcome, firstOutcome attempt budget = some outcome := by
  -- every failure raises the budget, and from `least` on there is none
  have hsearch : ∀ gap budget, least ≤ budget + gap →
      ∃ outcome, firstOutcome attempt budget = some outcome := by
    intro gap
    induction gap with
    | zero =>
      intro budget hle
      rcases h budget hle with ⟨outcome, hattempt⟩
      rw [firstOutcome_eq, hattempt]
      exact ⟨outcome, rfl⟩
    | succ gap ih =>
      intro budget hle
      rw [firstOutcome_eq]
      cases hattempt : attempt budget with
      | some outcome => exact ⟨outcome, rfl⟩
      | none => exact ih (16 * budget + 1) (by omega)
  exact hsearch least budget (by omega)

/-- What is done to every outcome is done to the one that is found. -/
theorem firstOutcome_map {α β : Type} {attempt : Nat → Option α}
    (hmono : ∀ fuel fuel' x, fuel ≤ fuel' → attempt fuel = some x → attempt fuel' = some x)
    (f : α → β) (budget : Nat) :
    firstOutcome (fun fuel => (attempt fuel).map f) budget =
      (firstOutcome attempt budget).map f := by
  cases h : firstOutcome attempt budget with
  | some x =>
    rcases firstOutcome_eq_some h with ⟨fuel, hfuel⟩
    have hmapped : ∀ more, fuel ≤ more → (attempt more).map f = some (f x) := by
      intro more hle
      rw [hmono fuel more x hle hfuel, Option.map_some]
    rcases exists_firstOutcome (fun more hle => ⟨f x, hmapped more hle⟩) budget with ⟨y, hy⟩
    rcases firstOutcome_eq_some hy with ⟨fuel', hfuel'⟩
    rcases Option.map_eq_some_iff.mp hfuel' with ⟨x', hx', rfl⟩
    have hlarge := hmapped (max fuel fuel') (Nat.le_max_left fuel fuel')
    rw [hmono fuel' _ x' (Nat.le_max_right fuel fuel') hx', Option.map_some] at hlarge
    rw [hy, Option.map_some]
    exact hlarge
  | none =>
    cases hy : firstOutcome (fun fuel => (attempt fuel).map f) budget with
    | none => rfl
    | some y =>
      -- an outcome of the other search would be the image of one of this search
      rcases firstOutcome_eq_some hy with ⟨fuel, hfuel⟩
      rcases Option.map_eq_some_iff.mp hfuel with ⟨x, hx, -⟩
      rcases exists_firstOutcome (fun more hle => ⟨x, hmono fuel more x hle hx⟩) budget with ⟨z, hz⟩
      simp [h] at hz

namespace Engine

open Normalization

/-- Validation comes to an end: some number of steps suffices. -/
def Ends (e : Engine) (s : CompiledSchema) (v : Json) : Prop :=
  ∃ fuel, (run e fuel s true v).isSome = true

/-- What validation leaves of a value by the rules, and whether it finds no violation. -/
def Leaves (e : Engine) (s : CompiledSchema) (v w : Json) (clean : Bool) : Prop :=
  ∃ inner, Turns e s.root true v w inner ∧ clean = (s.evaluator.accepts w && inner)

variable {e : Engine} {s : CompiledSchema} {v w : Json} {clean : Bool}

theorem leaves_of_run {fuel : Nat} {walked : Walked} (h : run e fuel s true v = some walked) :
    Leaves e s v walked.value walked.errors.isEmpty := by
  rcases runWith_eq_some h with ⟨inner, hwalk, hvalue, hclean⟩
  rw [hclean, hvalue]
  exact ⟨inner.errors.isEmpty, sound_walk fuel s.root ⟨"", ""⟩ true v inner hwalk, rfl⟩

theorem run_of_leaves (h : Leaves e s v w clean) : ∃ least, ∀ fuel, least ≤ fuel →
    ∃ errors, run e fuel s true v = some ⟨w, errors⟩ ∧ errors.isEmpty = clean := by
  rcases h with ⟨inner, hturns, hclean⟩
  rcases walk_of_turns hturns with ⟨least, hleast⟩
  refine ⟨least, fun fuel hle => ?_⟩
  rcases hleast fuel hle ⟨"", ""⟩ with ⟨errors, hwalk, hinner⟩
  rw [run, runWith, hwalk]
  refine ⟨_, rfl, ?_⟩
  simp [isEmpty_append, Evaluator.accepts, hinner, hclean]

/-- Validation ends where the rules lead to an outcome. -/
theorem ends_iff : Ends e s v ↔ ∃ w clean, Leaves e s v w clean := by
  constructor
  · rintro ⟨fuel, h⟩
    rcases Option.isSome_iff_exists.mp h with ⟨walked, hrun⟩
    exact ⟨_, _, leaves_of_run hrun⟩
  · rintro ⟨w, clean, h⟩
    rcases run_of_leaves h with ⟨least, hleast⟩
    rcases hleast least (Nat.le_refl _) with ⟨errors, hrun, _⟩
    exact ⟨least, by rw [hrun]; rfl⟩

theorem Leaves.unique {w' : Json} {clean' : Bool} (h : Leaves e s v w clean)
    (h' : Leaves e s v w' clean') : w = w' ∧ clean = clean' := by
  rcases h with ⟨inner, hturns, hclean⟩
  rcases h' with ⟨inner', hturns', hclean'⟩
  rcases hturns.unique hturns' with ⟨hvalue, hinner⟩
  exact ⟨hvalue, by rw [hclean, hclean', hvalue, hinner]⟩

/-- Validation leaves what the rules say, and succeeds when they find no violation. -/
theorem validate_of_leaves (h : Leaves e s v w clean) :
    (e.validate s v).value = w ∧ (e.validate s v).verdict.success = clean := by
  rcases run_of_leaves h with ⟨least, hleast⟩
  have hends : ∀ fuel, least ≤ fuel → ∃ walked, run e fuel s true v = some walked := by
    intro fuel hle
    rcases hleast fuel hle with ⟨errors, hrun, _⟩
    exact ⟨_, hrun⟩
  rcases exists_firstOutcome hends (e.budget s v) with ⟨walked, hfirst⟩
  -- some number of steps has led to this outcome, and all that do lead to the same
  rcases firstOutcome_eq_some hfirst with ⟨fuel, hrun⟩
  rcases (leaves_of_run hrun).unique h with ⟨hvalue, hclean⟩
  unfold validate
  rw [hfirst]
  exact ⟨hvalue, (Verdict.ofErrors_success _).trans hclean⟩

/-- Where validation ends, what it leaves follows the rules. -/
theorem leaves_validate (h : Ends e s v) :
    Leaves e s v (e.validate s v).value (e.validate s v).verdict.success := by
  rcases ends_iff.mp h with ⟨w, clean, hleaves⟩
  rcases validate_of_leaves hleaves with ⟨hvalue, hsuccess⟩
  rw [hvalue, hsuccess]
  exact hleaves

/-- Success is reported only by a validation that came to an end. -/
theorem ends_of_success (h : (e.validate s v).verdict.success = true) : Ends e s v := by
  unfold validate at h
  split at h
  · next walked hfirst =>
    rcases firstOutcome_eq_some hfirst with ⟨fuel, hrun⟩
    exact ⟨fuel, by rw [hrun]; rfl⟩
  · simp [Verdict.failed] at h

theorem ends_iff_exists_turns :
    Ends e s v ↔ ∃ w clean, Turns e s.root true v w clean := by
  rw [ends_iff]
  constructor
  · rintro ⟨w, clean, inner, h, -⟩
    exact ⟨w, inner, h⟩
  · rintro ⟨w, inner, h⟩
    exact ⟨w, _, inner, h, rfl⟩

theorem value_of_turns (h : Turns e s.root true v w clean) :
    (e.validate s v).value = w :=
  (validate_of_leaves ⟨clean, h, rfl⟩).1

/-- A validation that does not come to an end leaves the value alone. -/
theorem value_of_not_ends (h : ¬ Ends e s v) : (e.validate s v).value = v := by
  unfold validate
  cases hfirst : firstOutcome (fun fuel => run e fuel s true v) (e.budget s v) with
  | none => rfl
  | some walked =>
    rcases firstOutcome_eq_some hfirst with ⟨fuel, hrun⟩
    exact absurd ⟨fuel, by rw [hrun]; rfl⟩ h

/-- What validation leaves can be read off any walk with enough steps. -/
theorem value_of_walk (fuel : Nat) (walked : Walked)
    (h : walk e fuel s.root ⟨"", ""⟩ true v = some walked) :
    (e.validate s v).value = walked.value :=
  value_of_turns (sound_walk fuel s.root ⟨"", ""⟩ true v walked h)

theorem ends_of_walk (fuel : Nat) (walked : Walked)
    (h : walk e fuel s.root ⟨"", ""⟩ true v = some walked) : Ends e s v :=
  ends_iff_exists_turns.mpr ⟨_, _, sound_walk fuel s.root ⟨"", ""⟩ true v walked h⟩

end Engine

end HttpContract
