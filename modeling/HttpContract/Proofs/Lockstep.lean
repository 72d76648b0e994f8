import HttpContract.Proofs.Correspondence
import HttpContract.Proofs.RenamedEvaluators

/-!
# Engines in lockstep

Where related nodes lead to references at the same places, and the evaluators found there accept the
same values, the walks along them find the same violations or none: they leave the same value with
the same verdict (`Lockstep.validate`).
-/

namespace HttpContract

open Normalization

/-- Compiled schemas with related nodes, whose evaluators accept the same values. -/
structure CompiledSchema.Alike (R : Node → Node → Prop) (s s' : CompiledSchema) : Prop where
  root : R s.root s'.root
  evaluator : Agreeing s.evaluator s'.evaluator

/-- A relation between the nodes of two engines that relates plans to plans and references to
references. -/
structure Lockstep (e e' : Engine) (R : Node → Node → Prop) : Prop where
  options : e.options = e'.options
  plan : ∀ {p n'}, R (.plan p) n' → ∃ p', n' = .plan p' ∧ Plan.Similar R p p'
  resolved : ∀ {n n'}, R n n' → (∀ p, n ≠ .plan p) → ∃ s s', e.resolve? n = some s ∧
    e'.resolve? n' = some s' ∧ s.Alike R s'

namespace Lockstep

variable {e e' : Engine} {R : Node → Node → Prop}

theorem corresponds (h : Lockstep e e' R) : Corresponds e e' R where
  options := h.options
  matched n n' hn := by
    by_cases hp : ∃ p, n = .plan p
    · rcases hp with ⟨p, rfl⟩
      rcases h.plan hn with ⟨p', rfl, hsimilar⟩
      exact .plan hsimilar
    · rcases h.resolved hn (fun p heq => hp ⟨p, heq⟩) with ⟨s, s', hs, hs', halike⟩
      exact .both hs hs' halike.root

-- by induction along the walk on the left, step by step the same on the right
mutual

/-- Walking along related nodes leaves the same value and finds violations alike. -/
theorem turns (h : Lockstep e e' R) (he' : e'.Acyclic) {n : Node} {strip clean : Bool}
    {v w : Json} : Turns e n strip v w clean → ∀ {n'}, R n n' → Turns e' n' strip v w clean
  | .nowhere hn hs, _, hrelated => by
    rcases h.resolved hrelated hn with ⟨s, _, hs', -⟩
    simp [hs] at hs'
  | @Turns.reference _ n s _ _ _ _ hs hturns, _, hrelated => by
    have hn : ∀ p, n ≠ .plan p := by
      rintro p rfl
      simp at hs
    rcases h.resolved hrelated hn with ⟨t, t', ht, ht', halike⟩
    have halike : s.Alike R t' := Option.some.inj (ht.symm.trans hs) ▸ halike
    have hwalk := Turns.reference ht' (turns h he' hturns halike.root)
    rw [← halike.evaluator] at hwalk
    exact hwalk
  | .plan hbranches hparts, _, hrelated => by
    rcases h.plan hrelated with ⟨p', rfl, hsimilar⟩
    have hruns := runs h he' hbranches hsimilar.allOf
    rw [h.options, hsimilar.types] at hruns
    exact .plan hruns (parts h he' hparts hsimilar)
termination_by structural hturns => hturns

theorem runs (h : Lockstep e e' R) (he' : e'.Acyclic) {nodes : List Node} {strip clean : Bool}
    {v w : Json} : Runs e strip nodes v w clean → ∀ {nodes'}, List.Forall₂ R nodes nodes' →
      Runs e' strip nodes' v w clean
  | .nil, _, hrelated => by
    cases hrelated
    exact .nil
  | .cons hturns hrest, _, hrelated => by
    cases hrelated with
    | cons hn hnodes => exact .cons (turns h he' hturns hn) (runs h he' hrest hnodes)
termination_by structural hruns => hruns

theorem parts (h : Lockstep e e' R) (he' : e'.Acyclic) {p : Plan Node} {strip clean : Bool}
    {v w : Json} : Parts e p strip v w clean → ∀ {p'}, Plan.Similar R p p' →
      Parts e' p' strip v w clean
  | .object hready hmembers, _, hsimilar =>
    .object (h.corresponds.prepared he' hsimilar hready) (members h he' hmembers hsimilar)
  | .list hitems, _, hsimilar => .list (items h he' hitems hsimilar)
  | .scalar hv, _, _ => .scalar hv
termination_by structural hparts => hparts

theorem members (h : Lockstep e e' R) (he' : e'.Acyclic) {p : Plan Node} {clean : Bool}
    {ms ms' : Fields Json} : Members e p ms ms' clean → ∀ {p'}, Plan.Similar R p p' →
      Members e' p' ms ms' clean
  | .nil, _, _ => .nil
  | .cons hruns hrest, _, hsimilar =>
    .cons (runs h he' hruns (hsimilar.memberNodes _)) (members h he' hrest hsimilar)
termination_by structural hmembers => hmembers

theorem items (h : Lockstep e e' R) (he' : e'.Acyclic) {p : Plan Node} {clean : Bool}
    {index : Nat} {xs xs' : List Json} : Items e p index xs xs' clean → ∀ {p'},
      Plan.Similar R p p' → Items e' p' index xs xs' clean
  | .nil, _, _ => .nil
  | .cons hruns hrest, _, hsimilar =>
    .cons (runs h he' hruns (hsimilar.itemNodes _)) (items h he' hrest hsimilar)
termination_by structural hitems => hitems

end

/-- What validation leaves on the one side, it leaves on the other. -/
theorem leaves (h : Lockstep e e' R) (he' : e'.Acyclic) {s s' : CompiledSchema}
    (hs : s.Alike R s') {v w : Json} {clean : Bool} (hleaves : Engine.Leaves e s v w clean) :
    Engine.Leaves e' s' v w clean := by
  rcases hleaves with ⟨inner, hturns, hclean⟩
  exact ⟨inner, h.turns he' hturns hs.root, by rw [hclean, hs.evaluator]⟩

/-- Validation along related nodes leaves the same value and has the same success. -/
theorem validate (h : Lockstep e e' R) (he : e.Acyclic) (he' : e'.Acyclic)
    {s s' : CompiledSchema} (hs : s.Alike R s') (v : Json) :
    (e.validate s v).value = (e'.validate s' v).value ∧
      (e.validate s v).verdict.success = (e'.validate s' v).verdict.success := by
  rcases Engine.value_of_corresponds h.corresponds he he' hs.root v with ⟨hends, hvalue⟩
  refine ⟨hvalue, ?_⟩
  by_cases hleft : Engine.Ends e s v
  · exact ((Engine.validate_of_leaves (h.leaves he' hs (Engine.leaves_validate hleft))).2).symm
  · have hno : (e.validate s v).verdict.success = false :=
      Bool.eq_false_iff.mpr (fun hsuccess => hleft (Engine.ends_of_success hsuccess))
    have hno' : (e'.validate s' v).verdict.success = false :=
      Bool.eq_false_iff.mpr (fun hsuccess => hleft (hends.mpr (Engine.ends_of_success hsuccess)))
    rw [hno, hno']

end Lockstep

end HttpContract
