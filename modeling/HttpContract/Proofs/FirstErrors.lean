import HttpContract.Proofs.Withholding

/-!
# The first violation

An engine reports every violation or only the first one. The one that reports the first cuts its
list at every reference that the walk follows, and again where the findings of the evaluator are put
before those of the walk. Its lists are then no prefixes of the complete ones, since what follows a
cut list is appended all the same. What survives is less: at every step the two walks leave the same
value and have the same violation in front (`Abreast`). A cut keeps no more than that, so the
outcome of one engine is the outcome of the other, cut once at the end (`run_reporting`).
-/

namespace HttpContract

/-- The options with every violation reported, or only the first. -/
def Options.reporting (o : Options) (all : Bool) : Options := { o with allErrors := all }

/-- The engine with every violation reported, or only the first. -/
def Engine.reporting (e : Engine) (all : Bool) : Engine :=
  { e with options := e.options.reporting all }

@[simp] theorem Options.limit_reporting_true {α : Type} (o : Options) (errors : List α) :
    (o.reporting true).limit errors = errors := rfl

@[simp] theorem Options.limit_reporting_false {α : Type} (o : Options) (errors : List α) :
    (o.reporting false).limit errors = errors.take 1 := rfl

namespace Normalization

variable {e : Engine} {all : Bool}

/-! ## What does not depend on the report -/

theorem resolve?_reporting (n : Node) : (e.reporting all).resolve? n = e.resolve? n := by
  cases n <;> rfl

theorem anyPlan_reporting (test : Plan Node → Bool) (fuel : Nat) :
    anyPlan (e.reporting all) test fuel = anyPlan e test fuel := by
  induction fuel with
  | zero => rfl
  | succ fuel ih =>
    funext n
    cases n with
    | plan p =>
      rw [anyPlan, anyPlan, ih]
    | inline root evaluator source =>
      change anyPlan (e.reporting all) test fuel root = anyPlan e test fuel root
      rw [ih]
    | deferred handle =>
      rw [anyPlan, anyPlan, resolve?_reporting, ih]
      all_goals simp

theorem prepared_reporting (fuel : Nat) (p : Plan Node) (strip : Bool) (members : Fields Json) :
    prepared (e.reporting all) fuel p strip members = prepared e fuel p strip members := by
  have hadmits : admits (e.reporting all) fuel = admits e fuel := by
    funext n
    exact congrFun (anyPlan_reporting _ fuel) n
  have hdeclared : declared (e.reporting all) fuel p = declared e fuel p := by
    funext key
    unfold declared declares
    rw [anyPlan_reporting]
  unfold prepared
  rw [hadmits, hdeclared]
  rfl

/-! ## Walks abreast -/

/-- Two lists of violations have the same one in front, or both are empty. -/
def SameFirst (errors errors' : List FieldError) : Prop := errors.head? = errors'.head?

theorem SameFirst.append {xs xs' ys ys' : List FieldError} (h : SameFirst xs xs')
    (h' : SameFirst ys ys') : SameFirst (xs ++ ys) (xs' ++ ys') := by
  unfold SameFirst at *
  rw [List.head?_append, List.head?_append, h, h']

theorem SameFirst.map {xs xs' : List FieldError} (h : SameFirst xs xs')
    (f : FieldError → FieldError) : SameFirst (xs.map f) (xs'.map f) := by
  unfold SameFirst at *
  rw [List.head?_map, List.head?_map, h]

/-- A cut keeps what is in front. -/
theorem sameFirst_take (xs : List FieldError) : SameFirst (xs.take 1) xs := by
  unfold SameFirst
  cases xs <;> rfl

/-- A cut keeps nothing else. -/
theorem SameFirst.take_eq {xs xs' : List FieldError} (h : SameFirst xs xs') :
    xs.take 1 = xs'.take 1 := by
  rw [List.take_one, List.take_one, h]

/-- Two values on their way are the same, with the same violation in front. -/
structure SameStart (w w' : Walked) : Prop where
  value : w.value = w'.value
  errors : SameFirst w.errors w'.errors

/-- Parts of two values on their way are the same, with the same violation in front. -/
def SameParts {α : Type} (x y : α × List FieldError) : Prop := x.1 = y.1 ∧ SameFirst x.2 y.2

/-- Two walks, step by step. -/
def Abreast (walk walk' : Walk) : Prop :=
  ∀ n a strip v, Option.Rel SameStart (walk n a strip v) (walk' n a strip v)

section

variable {walk walk' : Walk} (hwalk : Abreast walk walk')
include hwalk

theorem rel_chain (steps : List (Node × At × Bool)) : ∀ {w w' : Walked}, SameStart w w' →
    Option.Rel SameStart (chain walk steps w) (chain walk' steps w') := by
  induction steps with
  | nil => exact fun h => .some h
  | cons step rest ih =>
    rcases step with ⟨n, a, strip⟩
    intro w w' h
    rw [chain, chain, h.value]
    refine rel_bind (hwalk n a strip w'.value) (fun next next' hnext => ?_)
    exact ih ⟨hnext.value, h.errors.append hnext.errors⟩

theorem rel_walkMembers (p : Plan Node) (a : At) (members : Fields Json) :
    Option.Rel SameParts (walkMembers walk p a members) (walkMembers walk' p a members) := by
  induction members with
  | nil => exact .some ⟨rfl, rfl⟩
  | cons m rest ih =>
    rcases m with ⟨key, v⟩
    rw [walkMembers, walkMembers]
    refine rel_bind (rel_chain hwalk _ ⟨rfl, rfl⟩) (fun w w' hw => ?_)
    refine rel_bind ih (fun others others' hothers => ?_)
    exact .some ⟨by rw [hw.value, hothers.1], hw.errors.append hothers.2⟩

theorem rel_walkItems (p : Plan Node) (a : At) (items : List Json) : ∀ index : Nat,
    Option.Rel SameParts (walkItems walk p a index items) (walkItems walk' p a index items) := by
  induction items with
  | nil => exact fun _ => .some ⟨rfl, rfl⟩
  | cons v rest ih =>
    intro index
    rw [walkItems, walkItems]
    refine rel_bind (rel_chain hwalk _ ⟨rfl, rfl⟩) (fun w w' hw => ?_)
    refine rel_bind (ih (index + 1)) (fun others others' hothers => ?_)
    exact .some ⟨by rw [hw.value, hothers.1], hw.errors.append hothers.2⟩

theorem rel_walkParts (fuel : Nat) (p : Plan Node) (a : At) (strip : Bool) (v : Json) :
    Option.Rel SameStart (walkParts (e.reporting false) fuel walk p a strip v)
      (walkParts (e.reporting true) fuel walk' p a strip v) := by
  cases v with
  | obj members =>
    rw [walkParts, walkParts, prepared_reporting, prepared_reporting]
    cases prepared e fuel p strip members with
    | none => exact .none
    | some ready =>
      simp only [Option.bind_eq_bind, Option.bind_some]
      refine rel_bind (rel_walkMembers hwalk p a ready) (fun ms ms' h => ?_)
      exact .some ⟨congrArg Json.obj h.1, h.2⟩
  | arr items =>
    rw [walkParts, walkParts]
    refine rel_bind (rel_walkItems hwalk p a items 0) (fun xs xs' h => ?_)
    exact .some ⟨congrArg Json.arr h.1, h.2⟩
  | _ => exact .some ⟨rfl, rfl⟩

theorem rel_walkPlan (fuel : Nat) (p : Plan Node) (a : At) (strip : Bool) (v : Json) :
    Option.Rel SameStart (walkPlan (e.reporting false) fuel walk p a strip v)
      (walkPlan (e.reporting true) fuel walk' p a strip v) := by
  rw [walkPlan, walkPlan]
  refine rel_bind (rel_chain hwalk _ ⟨rfl, rfl⟩) (fun w w' hw => ?_)
  rw [hw.value]
  refine rel_bind (rel_walkParts hwalk fuel p a strip w'.value) (fun parts parts' h => ?_)
  exact .some ⟨h.value, hw.errors.append h.errors⟩

/-- However far apart the lists have come, one cut makes them equal. -/
theorem runWith_reporting (s : CompiledSchema) (strip : Bool) (v : Json) :
    runWith (e.reporting false) walk s strip v =
      (runWith (e.reporting true) walk' s strip v).map (fun w => ⟨w.value, w.errors.take 1⟩) := by
  have hroot := hwalk s.root ⟨"", ""⟩ strip v
  rw [runWith, runWith]
  generalize walk s.root ⟨"", ""⟩ strip v = x at hroot
  generalize walk' s.root ⟨"", ""⟩ strip v = y at hroot
  cases hroot with
  | none => rfl
  | @some w w' h =>
    let found := (s.evaluator.findings w'.value).map Finding.toFieldError
    have hfirst : SameFirst (found.take 1 ++ w.errors) (found ++ w'.errors) :=
      (sameFirst_take found).append h.errors
    have hcut : (found.take 1 ++ w.errors).take 1 = (found ++ w'.errors).take 1 := hfirst.take_eq
    rcases w with ⟨value, errors⟩
    obtain rfl : value = w'.value := h.value
    exact congrArg (fun errors => some (⟨w'.value, errors⟩ : Walked)) hcut

end

/-- With any number of steps the two walks are abreast: the induction is on the steps, and a
reference is where the lists of one of them are cut. -/
theorem abreast_walk (e : Engine) (fuel : Nat) :
    Abreast (walk (e.reporting false) fuel) (walk (e.reporting true) fuel) := by
  induction fuel with
  | zero => exact fun _ _ _ _ => .none
  | succ fuel ih =>
    intro n a strip v
    by_cases hn : ∃ p, n = .plan p
    · rcases hn with ⟨p, rfl⟩
      exact rel_walkPlan ih fuel p a strip v
    · have hplan : ∀ p, n ≠ .plan p := fun p hp => hn ⟨p, hp⟩
      rw [walk_of_reference hplan, walk_of_reference hplan, resolve?_reporting, resolve?_reporting]
      cases e.resolve? n with
      | none => exact .some ⟨rfl, rfl⟩
      | some s =>
        dsimp only
        rw [runWith_reporting ih s strip v]
        cases runWith (e.reporting true) (walk (e.reporting true) fuel) s strip v with
        | none => exact .none
        | some w => exact .some ⟨rfl, (sameFirst_take w.errors).map (rebased a)⟩

theorem run_reporting (e : Engine) (fuel : Nat) (s : CompiledSchema) (strip : Bool) (v : Json) :
    run (e.reporting false) fuel s strip v =
      (run (e.reporting true) fuel s strip v).map (fun w => ⟨w.value, w.errors.take 1⟩) :=
  runWith_reporting (abreast_walk e fuel) s strip v

end Normalization

/-! ## The two engines -/

/-- One outcome is the other with nothing but the first violation reported. -/
structure Validated.FirstOf (x y : Validated) : Prop where
  value : x.value = y.value
  success : x.verdict.success = y.verdict.success
  errors : x.verdict.errors = y.verdict.errors.take 1

namespace Engine

open Normalization

/-- Of the options, compiling an entry reads no more than whether keywords are checked. -/
theorem entryOf_reporting (c : Planning.Context) (o : Options) (all : Bool) :
    entryOf c (o.reporting all) = entryOf c o := rfl

/-- Freezing a registry does not depend on the report. -/
theorem ofRegistry_reporting (o : Options) (all : Bool) (r : Registry) :
    ofRegistry (o.reporting all) r = (ofRegistry o r).map (·.reporting all) := by
  simp only [ofRegistry, entryOf_reporting]
  generalize (numbered r).mapM (fun x => resourceOf r.definedFlags x.1 x.2) = resources
  cases resources with
  | error err => rfl
  | ok resources =>
    simp only [Except.bind, bind]
    generalize r.entries.mapM (entryOf ⟨r.definedFlags, resources.filterMap id⟩ o) = entries
    cases entries with
    | error err => rfl
    | ok entries =>
      dsimp only
      cases cycle? entries <;> rfl

theorem firstOf_validate (e : Engine) (s : CompiledSchema) (v : Json) :
    ((e.reporting false).validate s v).FirstOf ((e.reporting true).validate s v) := by
  let attempt (fuel : Nat) := run (e.reporting true) fuel s true v
  have hmono : ∀ fuel fuel' x, fuel ≤ fuel' → attempt fuel = some x → attempt fuel' = some x :=
    fun _ _ _ hle h => run_mono hle h
  have hfirst : firstOutcome (fun fuel => run (e.reporting false) fuel s true v) (e.budget s v) =
      (firstOutcome attempt (e.budget s v)).map (fun w => ⟨w.value, w.errors.take 1⟩) := by
    rw [← firstOutcome_map hmono]
    exact congrArg (firstOutcome · _) (funext (fun fuel => run_reporting e fuel s true v))
  have hbudget : ∀ all, (e.reporting all).budget s v = e.budget s v := fun _ => rfl
  unfold validate
  rw [hbudget, hbudget, hfirst]
  cases firstOutcome attempt (e.budget s v) with
  | none => exact ⟨rfl, rfl, rfl⟩
  | some w =>
    rcases w with ⟨value, errors⟩
    cases errors <;> exact ⟨rfl, rfl, rfl⟩

/-- Whether an engine reports every violation or only the first, it accepts the same registries and
the same schemas. Validation leaves the same value with the same success, and the one list of
violations is the other one cut after its first element. -/
theorem alike_reporting (o : Options) (r : Registry) :
    Alike (fun e e' => ∀ f, Alike (fun s s' => ∀ v, (e.validate s v).FirstOf (e'.validate s' v))
        (e.compile f) (e'.compile f))
      (ofRegistry (o.reporting false) r) (ofRegistry (o.reporting true) r) := by
  rw [ofRegistry_reporting, ofRegistry_reporting]
  cases ofRegistry o r with
  | error err => exact .error err err
  | ok e =>
    refine .ok (fun f => ?_)
    -- compiling looks at the report no more than freezing does
    have hcompile : (e.reporting false).compile f = (e.reporting true).compile f := rfl
    rw [hcompile]
    cases (e.reporting true).compile f with
    | error err => exact .error err err
    | ok s => exact .ok (firstOf_validate e s)

end Engine

end HttpContract
