import HttpContract.Proofs.Circularity
import HttpContract.Proofs.Correspondence
import HttpContract.Proofs.RenamedEvaluators

/-!
# Plans with other handles

The plan of a renumbered schema is the same but for its handles, and its evaluators accept the same
values (`Counterpart`). So it refers to the renumbered handles (`Counterpart.sameLocation`).
-/

namespace HttpContract

/-! ## Nodes with other handles -/

mutual

/-- A node, and the node of the renumbered schema. -/
inductive Counterpart (π : Nat → Nat) (defined : List Bool) : Node → Node → Prop where
  | deferred {handle : Nat} (h : defined[handle]?.getD false = true) :
      Counterpart π defined (.deferred handle) (.deferred (π handle))
  | inline {root root' : Node} {e e' : Evaluator} {source source' : Json}
      (h : Counterpart π defined root root') (he : Agreeing e e') :
      Counterpart π defined (.inline root e source) (.inline root' e' source')
  | plan {p p' : Plan Node} (types : p.types = p'.types) (default : p.default = p'.default)
      (required : p.required = p'.required)
      (properties : CounterpartNames π defined p.properties p'.properties)
      (patterns : CounterpartNames π defined p.patterns p'.patterns)
      (additional : CounterpartAdditional π defined p.additional p'.additional)
      (leading : Counterparts π defined p.leading p'.leading)
      (items : Counterparts π defined p.items.toList p'.items.toList)
      (allOf : Counterparts π defined p.allOf p'.allOf)
      (applied : p'.applied = p.applied.map π) : Counterpart π defined (.plan p) (.plan p')

/-- Nodes, and the nodes of the renumbered schemas. -/
inductive Counterparts (π : Nat → Nat) (defined : List Bool) : List Node → List Node → Prop where
  | nil : Counterparts π defined [] []
  | cons {n n' : Node} {rest rest' : List Node} (h : Counterpart π defined n n')
      (hrest : Counterparts π defined rest rest') :
      Counterparts π defined (n :: rest) (n' :: rest')

/-- Nodes under names, and the nodes of the renumbered schemas. -/
inductive CounterpartNames (π : Nat → Nat) (defined : List Bool) :
    List (String × Node) → List (String × Node) → Prop where
  | nil : CounterpartNames π defined [] []
  | cons {name : String} {n n' : Node} {rest rest' : List (String × Node)}
      (h : Counterpart π defined n n') (hrest : CounterpartNames π defined rest rest') :
      CounterpartNames π defined ((name, n) :: rest) ((name, n') :: rest')

/-- What is said about undeclared properties, and what the renumbered schema says. -/
inductive CounterpartAdditional (π : Nat → Nat) (defined : List Bool) :
    Additional Node → Additional Node → Prop where
  | unspecified : CounterpartAdditional π defined .unspecified .unspecified
  | allowed : CounterpartAdditional π defined .allowed .allowed
  | forbidden : CounterpartAdditional π defined .forbidden .forbidden
  | schema {n n' : Node} (h : Counterpart π defined n n') :
      CounterpartAdditional π defined (.schema n) (.schema n')

end

variable {π : Nat → Nat} {defined : List Bool}

theorem counterparts_iff {ns ns' : List Node} :
    Counterparts π defined ns ns' ↔ List.Forall₂ (Counterpart π defined) ns ns' := by
  constructor
  · intro h
    induction ns generalizing ns' with
    | nil => cases h; exact .nil
    | cons n rest ih =>
      cases h with
      | cons h hrest => exact .cons h (ih hrest)
  · intro h
    induction h with
    | nil => exact .nil
    | cons h _ ih => exact .cons h ih

theorem counterpartNames_iff {ns ns' : List (String × Node)} : CounterpartNames π defined ns ns' ↔
    List.Forall₂ (fun a b => a.1 = b.1 ∧ Counterpart π defined a.2 b.2) ns ns' := by
  constructor
  · intro h
    induction ns generalizing ns' with
    | nil => cases h; exact .nil
    | cons m rest ih =>
      cases h with
      | cons h hrest => exact .cons ⟨rfl, h⟩ (ih hrest)
  · intro h
    induction h with
    | nil => exact .nil
    | @cons a b _ _ hab _ ih =>
      rcases a with ⟨name, n⟩
      rcases b with ⟨name', n'⟩
      obtain ⟨rfl, h⟩ := hab
      exact .cons h ih

theorem counterpartAdditional_iff {a a' : Additional Node} :
    CounterpartAdditional π defined a a' ↔ Additional.Similar (Counterpart π defined) a a' := by
  constructor
  · rintro (_ | _ | _ | h)
    · exact .unspecified
    · exact .allowed
    · exact .forbidden
    · exact .schema h
  · rintro (_ | _ | _ | h)
    · exact .unspecified
    · exact .allowed
    · exact .forbidden
    · exact .schema h

theorem counterparts_toList_iff {x x' : Option Node} :
    Counterparts π defined x.toList x'.toList ↔ Option.Rel (Counterpart π defined) x x' := by
  rw [counterparts_iff]
  cases x <;> cases x' <;> simp

/-- A plan, and the plan of the renumbered schema. -/
structure Plan.Counterpart (π : Nat → Nat) (defined : List Bool) (p p' : Plan Node) : Prop where
  similar : Plan.Similar (HttpContract.Counterpart π defined) p p'
  applied : p'.applied = p.applied.map π

namespace Counterpart

theorem filling {n n' : Node} (h : Counterpart π defined n n') : n.filling = n'.filling := by
  cases h with
  | deferred _ => rfl
  | inline _ _ => rfl
  | plan _ default => exact default

theorem plan_iff {p p' : Plan Node} :
    Counterpart π defined (.plan p) (.plan p') ↔ Plan.Counterpart π defined p p' := by
  constructor
  · intro h
    cases h with
    | plan types default required properties patterns additional leading items allOf applied =>
      exact ⟨⟨types, default, required,
        (counterpartNames_iff.mp properties).imp (fun _ _ h => ⟨h.1, h.2, h.2.filling⟩),
        counterpartNames_iff.mp patterns, counterpartAdditional_iff.mp additional,
        counterparts_iff.mp leading, counterparts_toList_iff.mp items,
        counterparts_iff.mp allOf⟩, applied⟩
  · rintro ⟨h, applied⟩
    exact .plan h.types h.default h.required (counterpartNames_iff.mpr h.named)
      (counterpartNames_iff.mpr h.patterns) (counterpartAdditional_iff.mpr h.additional)
      (counterparts_iff.mpr h.leading) (counterparts_toList_iff.mpr h.items)
      (counterparts_iff.mpr h.allOf) applied

end Counterpart

mutual

/-- A renumbered node refers to the renumbered handles. -/
theorem Counterpart.sameLocation {n n' : Node} : Counterpart π defined n n' →
    n'.sameLocation = n.sameLocation.map π
  | .deferred _ => by rw [Node.sameLocation, Node.sameLocation]; rfl
  | .inline h _ => by
    rw [Node.sameLocation, Node.sameLocation]
    exact h.sameLocation
  | .plan _ _ _ _ _ _ _ _ allOf applied => by
    rw [Planning.sameLocation_plan, Planning.sameLocation_plan, applied, allOf.sameLocation,
      List.map_append]
termination_by structural h => h

theorem Counterparts.sameLocation {ns ns' : List Node} : Counterparts π defined ns ns' →
    Node.sameLocationAll ns' = (Node.sameLocationAll ns).map π
  | .nil => rfl
  | .cons h hrest => by
    rw [Node.sameLocationAll, Node.sameLocationAll, h.sameLocation, hrest.sameLocation,
      List.map_append]
termination_by structural h => h

end

end HttpContract
