import HttpContract.Proofs.Correspondence
import HttpContract.Proofs.Writing

/-!
# Rendering along corresponding nodes

Shapes collected along related nodes say the same about an object, and rendering has the same
outcome there, be it a document or an error: `Corresponds.eventually_write`. Numbers of steps can
differ, since one side may follow more references.
-/

namespace HttpContract

open Normalization Rendering

/-- From some number of steps on, attempts have the outcome. -/
def Eventually {α : Type} (attempt : Nat → Option α) (outcome : α) : Prop :=
  ∃ least, ∀ fuel, least ≤ fuel → attempt fuel = some outcome

theorem Eventually.firstOutcome {α : Type} {attempt : Nat → Option α} {outcome : α}
    (h : Eventually attempt outcome) (budget : Nat) :
    ∃ first, firstOutcome attempt budget = some first := by
  rcases h with ⟨least, hleast⟩
  exact exists_firstOutcome (fun fuel hle => ⟨outcome, hleast fuel hle⟩) budget

theorem Eventually.unique {α : Type} {attempt : Nat → Option α} {x y : α}
    (hx : Eventually attempt x) (hy : Eventually attempt y) : x = y := by
  rcases hx with ⟨least, hleast⟩
  rcases hy with ⟨least', hleast'⟩
  have hmax := hleast (max least least') (Nat.le_max_left _ _)
  exact Option.some.inj (hmax.symm.trans (hleast' _ (Nat.le_max_right _ _)))

/-- One step more makes no difference in the end. -/
theorem Eventually.of_succ {α : Type} {attempt : Nat → Option α} {outcome : α}
    (h : Eventually (fun fuel => attempt (fuel + 1)) outcome) : Eventually attempt outcome := by
  rcases h with ⟨least, hleast⟩
  refine ⟨least + 1, fun fuel hle => ?_⟩
  obtain ⟨rest, rfl⟩ : ∃ rest, fuel = rest + 1 := ⟨fuel - 1, by omega⟩
  exact hleast rest (by omega)

/-! ## Shapes -/

/-- Two shapes say the same, along related nodes. -/
structure Rendering.Shape.Similar (R : Node → Node → Prop) (s s' : Shape) : Prop where
  declared : s.declared = s'.declared
  properties : List.Forall₂ (fun a b => a.1 = b.1 ∧ R a.2 b.2) s.properties s'.properties
  patterns : List.Forall₂ (fun a b => a.1 = b.1 ∧ R a.2 b.2) s.patterns s'.patterns
  required : s.required = s'.required
  additional : Option.Rel R s.additional s'.additional
  allowAll : s.allowAll = s'.allowAll

variable {R : Node → Node → Prop} {p p' : Plan Node} {e e' : Engine}

namespace Rendering.Shape.Similar

theorem empty : Shape.Similar R Shape.empty Shape.empty where
  declared := rfl
  properties := .nil
  patterns := .nil
  required := rfl
  additional := .none
  allowAll := rfl

variable {s s' : Shape}

theorem declare {known known' : Fields Node}
    (h : List.Forall₂ (fun a b => a.1 = b.1 ∧ R a.2 b.2) known known') {a b : String × Node}
    (hab : a.1 = b.1 ∧ R a.2 b.2) : List.Forall₂ (fun a b => a.1 = b.1 ∧ R a.2 b.2)
      (Shape.declare known a) (Shape.declare known' b) := by
  have hcontains : Fields.contains known a.1 = Fields.contains known' b.1 := by
    rw [hab.1]
    exact isSome_of_rel (rel_get? b.1 h)
  unfold Shape.declare
  rw [hcontains]
  split
  · exact h
  · rw [hab.1]
    exact forall₂_insert b.1 h hab.2

theorem declareAll {known known' : Fields Node} {added added' : List (String × Node)}
    (h : List.Forall₂ (fun a b => a.1 = b.1 ∧ R a.2 b.2) known known')
    (hadded : List.Forall₂ (fun a b => a.1 = b.1 ∧ R a.2 b.2) added added') :
    List.Forall₂ (fun a b => a.1 = b.1 ∧ R a.2 b.2) (added.foldl Shape.declare known)
      (added'.foldl Shape.declare known') := by
  induction hadded generalizing known known' with
  | nil => exact h
  | cons hab _ ih => exact ih (declare h hab)

theorem speaks (hp : Plan.Similar R p p') : Shape.speaks p = Shape.speaks p' := by
  have hadditional := hp.additional
  unfold Shape.speaks
  rw [hp.hasObjectKeywords, hp.required]
  revert hadditional
  generalize p.additional = a
  generalize p'.additional = a'
  rintro (_ | _ | _ | _) <;> rfl

theorem add (h : Shape.Similar R s s') (hp : Plan.Similar R p p') :
    Shape.Similar R (s.add p) (s'.add p') where
  declared := by
    simp only [Shape.add, h.declared, speaks hp]
  properties := declareAll h.properties hp.named
  patterns := List.rel_append h.patterns hp.patterns
  required := by
    simp only [Shape.add, h.required, hp.required]
  additional := by
    have hknown := h.additional
    have hadditional := hp.additional
    unfold Shape.add
    dsimp only
    revert hknown hadditional
    generalize s.additional = known
    generalize s'.additional = known'
    generalize p.additional = a
    generalize p'.additional = a'
    rintro (hm | _) (_ | _ | _ | hn)
    all_goals first | exact .some hm | exact .some hn | exact .none
  allowAll := by
    have hadditional := hp.additional
    unfold Shape.add
    dsimp only
    rw [h.allowAll]
    revert hadditional
    generalize p.additional = a
    generalize p'.additional = a'
    rintro (_ | _ | _ | _) <;> rfl

theorem other? (h : Shape.Similar R s s') (key : String) :
    Option.Rel (Option.Rel R) (s.other? key) (s'.other? key) := by
  have hfound := rel_find? (f := fun e => Pattern.found e.1 key)
    (g := fun e => Pattern.found e.1 key) (fun x y hxy => by rw [hxy.1]) h.patterns
  have hadditional := h.additional
  unfold Shape.other?
  rw [h.allowAll]
  revert hfound hadditional
  generalize s.patterns.find? _ = x
  generalize s'.patterns.find? _ = x'
  generalize s.additional = y
  generalize s'.additional = y'
  rintro (hx | _) hy
  · exact .some (.some hx.2)
  · rcases hy with hn | _
    · exact .some (.some hn)
    · dsimp only
      split
      · exact .some .none
      · exact .none

/-- Members to be rendered, along related nodes. -/
abbrev Member (R : Node → Node → Prop) (a b : String × Option Node × Json) : Prop :=
  a.1 = b.1 ∧ Option.Rel R a.2.1 b.2.1 ∧ a.2.2 = b.2.2

theorem members (h : Shape.Similar R s s') (members : Fields Json) :
    List.Forall₂ (Member R) (s.declaredMembers members ++ s.otherMembers members)
      (s'.declaredMembers members ++ s'.otherMembers members) := by
  have hsame : List.Forall₂ Eq members members := List.forall₂_refl members
  refine List.rel_append (List.rel_filterMap ?_ h.properties) (List.rel_filterMap ?_ hsame)
  · rintro ⟨name, n⟩ ⟨name', n'⟩ hab
    obtain ⟨rfl, hn⟩ : name = name' ∧ R n n' := hab
    dsimp only
    cases Fields.get? members name with
    | none => exact .none
    | some v => exact .some ⟨rfl, .some hn, rfl⟩
  · rintro ⟨key, v⟩ _ rfl
    have hcontains : Fields.contains s.properties key = Fields.contains s'.properties key :=
      isSome_of_rel (rel_get? key h.properties)
    have hother := h.other? key
    dsimp only
    rw [hcontains]
    split
    · exact .none
    · revert hother
      generalize s.other? key = x
      generalize s'.other? key = x'
      rintro (hn | _)
      · exact .some ⟨rfl, hn, rfl⟩
      · exact .none

end Rendering.Shape.Similar

/-! ## Collecting -/

variable {n n' : Node}

theorem Normalization.Head.eventually_collect {s t : Shape} (h : Head e n p)
    (ht : Eventually (fun fuel => collect e fuel (.plan p) s) t) :
    Eventually (fun fuel => collect e fuel n s) t := by
  induction h with
  | self => exact ht
  | @reference n c _ hc _ ih =>
    have hn : ∀ q, n ≠ .plan q := by
      rintro q rfl
      simp at hc
    refine Eventually.of_succ ?_
    simp only [collect_of_reference hn, hc]
    exact ih ht

namespace Corresponds

/-- What is collected along a node is similar to what is collected along a related node. -/
theorem exists_collect (hc : Corresponds e e' R) : ∀ (fuel : Nat) (n n' : Node) (s s' t : Shape),
    Matched e e' R n n' → Shape.Similar R s s' → collect e fuel n s = some t →
      ∃ t', Shape.Similar R t t' ∧ Eventually (fun fuel => collect e' fuel n' s') t' := by
  intro fuel
  induction fuel with
  | zero =>
    intro n n' s s' t _ _ h
    simp [collect] at h
  | succ fuel ih =>
    -- the branches of a plan add to the shape one after the other
    have hbranches : ∀ nodes nodes', List.Forall₂ R nodes nodes' → ∀ s s' t, Shape.Similar R s s' →
        nodes.foldlM (fun s n => collect e fuel n s) s = some t → ∃ t', Shape.Similar R t t' ∧
          Eventually (fun fuel => nodes'.foldlM (fun s n => collect e' fuel n s) s') t' := by
      intro nodes nodes' hnodes
      induction hnodes with
      | nil =>
        intro s s' t hs h
        obtain rfl : s = t := by simpa using h
        exact ⟨s', hs, 0, fun _ _ => rfl⟩
      | @cons m m' _ _ hm _ ihnodes =>
        intro s s' t hs h
        rw [List.foldlM_cons] at h
        rcases Option.bind_eq_some_iff.mp h with ⟨between, hfirst, hrest⟩
        rcases ih m m' s s' between (hc.matched _ _ hm) hs hfirst with
          ⟨between', hbetween, least, hleast⟩
        rcases ihnodes between between' t hbetween hrest with ⟨t', ht, others, hothers⟩
        refine ⟨t', ht, max least others, fun fuel hle => ?_⟩
        dsimp only at hleast ⊢
        rw [List.foldlM_cons, hleast fuel (by omega)]
        exact hothers fuel (by omega)
    intro n n' s s' t hn hs h
    rcases hn.exists_resolve? with ⟨p, rfl⟩ | ⟨c, hc'⟩
    · rcases hn.exists_head rfl with ⟨p', hp', hsimilar⟩
      rw [collect] at h
      rcases hbranches _ _ hsimilar.allOf _ _ t (hs.add hsimilar) h with ⟨t', ht, hcollect⟩
      refine ⟨t', ht, hp'.eventually_collect (Eventually.of_succ ?_)⟩
      simpa only [collect] using hcollect
    · have hnoPlan : ∀ q, n ≠ .plan q := by
        rintro q rfl
        simp at hc'
      rw [collect_of_reference hnoPlan, hc'] at h
      exact ih c.root n' s s' t (hn.follow hc hc') hs h

end Corresponds

/-! ## Rendering -/

theorem Normalization.Head.eventually_write {path : String} {v : Json}
    {outcome : Except RenderError Json} (h : Head e n p)
    (hp : Eventually (fun fuel => write e fuel (.plan p) path v) outcome) :
    Eventually (fun fuel => write e fuel n path v) outcome := by
  induction h with
  | self => exact hp
  | @reference n c _ hc _ ih =>
    have hn : ∀ q, n ≠ .plan q := by
      rintro q rfl
      simp at hc
    refine Eventually.of_succ ?_
    simp only [write_of_reference hn, hc]
    exact ih hp

/-- Parts that are rendered the same in the end are rendered the same one after the other. -/
theorem eventually_sequence {α α' β : Type} {P : α → α' → Prop} {write₀ : α → Outcome β}
    {attempt : Nat → α' → Outcome β} {xs : List α} {xs' : List α'}
    (hwrite : ∀ x x' outcome, P x x' → write₀ x = some outcome →
      Eventually (fun fuel => attempt fuel x') outcome) (h : List.Forall₂ P xs xs') :
    ∀ outcome, sequence write₀ xs = some outcome →
      Eventually (fun fuel => sequence (attempt fuel) xs') outcome := by
  induction h with
  | nil =>
    intro outcome h
    exact ⟨0, fun _ _ => h⟩
  | @cons x x' rest rest' hx _ ih =>
    intro outcome h
    rw [Rendering.sequence] at h
    cases hfirst : write₀ x with
    | none => simp [hfirst] at h
    | some first =>
      rcases hwrite x x' first hx hfirst with ⟨least, hleast⟩
      cases first with
      | error err =>
        refine ⟨least, fun fuel hle => ?_⟩
        simp only [Rendering.sequence, hleast fuel hle]
        simpa [hfirst] using h
      | ok y =>
        cases hrest : sequence write₀ rest with
        | none => simp [hfirst, hrest] at h
        | some others =>
          rcases ih others hrest with ⟨least', hleast'⟩
          refine ⟨max least least', fun fuel hle => ?_⟩
          simp only [Rendering.sequence, hleast fuel (by omega), hleast' fuel (by omega)]
          simpa [hfirst, hrest] using h

theorem Eventually.map {α β : Type} {attempt : Nat → Option α} {outcome : α}
    (h : Eventually attempt outcome) (f : α → β) :
    Eventually (fun fuel => (attempt fuel).map f) (f outcome) := by
  rcases h with ⟨least, hleast⟩
  refine ⟨least, fun fuel hle => ?_⟩
  simp only [hleast fuel hle, Option.map_some]

namespace Corresponds

/-- A rendering along nodes of one engine comes out in the end along related nodes of the other. -/
def Follows (e' : Engine) (R : Node → Node → Prop) (write₀ : Node → String → Json → Outcome Json) :
    Prop :=
  ∀ n n' path v outcome, R n n' → write₀ n path v = some outcome →
    Eventually (fun fuel => write e' fuel n' path v) outcome

variable {write₀ : Node → String → Json → Outcome Json}

theorem eventually_object (hwrite : Follows e' R write₀) {s s' : Shape}
    (hs : Shape.Similar R s s') (path : String) (members : Fields Json)
    (outcome : Except RenderError Json) (h : object write₀ s path members = some outcome) :
    Eventually (fun fuel => object (write e' fuel) s' path members) outcome := by
  unfold object at h ⊢
  rw [← hs.required]
  split at h
  · exact ⟨0, fun _ _ => h⟩
  · rcases Option.map_eq_some_iff.mp h with ⟨inner, hinner, rfl⟩
    refine Eventually.map (eventually_sequence ?_ (hs.members members) inner hinner) _
    rintro ⟨key, n?, v⟩ ⟨key', n'?, v'⟩ out hab hout
    obtain ⟨rfl, hn, rfl⟩ : key = key' ∧ Option.Rel R n? n'? ∧ v = v' := hab
    cases hn with
    | none => exact ⟨0, fun _ _ => hout⟩
    | some hn =>
      rcases Option.map_eq_some_iff.mp hout with ⟨x, hx, rfl⟩
      exact (hwrite _ _ _ _ _ hn hx).map _

theorem eventually_list (hwrite : Follows e' R write₀) (hp : Plan.Similar R p p') (path : String)
    (items : List Json) (outcome : Except RenderError Json)
    (h : list write₀ p path items = some outcome) :
    Eventually (fun fuel => list (write e' fuel) p' path items) outcome := by
  have hsame : List.Forall₂ Eq ((List.range items.length).zip items)
      ((List.range items.length).zip items) := List.forall₂_refl _
  unfold list at h ⊢
  rcases Option.map_eq_some_iff.mp h with ⟨inner, hinner, rfl⟩
  refine Eventually.map (eventually_sequence ?_ hsame inner hinner) _
  rintro ⟨i, v⟩ _ out rfl hout
  have hnode : Option.Rel R ((p.leading[i]?).or p.items) ((p'.leading[i]?).or p'.items) :=
    rel_or (rel_getElem? hp.leading i) hp.items
  unfold item at hout ⊢
  dsimp only at hout ⊢
  generalize (p.leading[i]?).or p.items = x at hnode hout
  generalize (p'.leading[i]?).or p'.items = x' at hnode ⊢
  cases hnode with
  | some hn => exact hwrite _ _ _ _ _ hn hout
  | none => exact ⟨0, fun _ _ => hout⟩

theorem eventually_write_plan (hc : Corresponds e e' R) {fuel : Nat}
    (hwrite : Follows e' R (write e fuel)) (hp : Plan.Similar R p p') (path : String) (v : Json)
    (outcome : Except RenderError Json) (h : write e (fuel + 1) (.plan p) path v = some outcome) :
    Eventually (fun fuel => write e' (fuel + 1) (.plan p') path v) outcome := by
  simp only [write, ← hp.types] at h ⊢
  split at h
  · exact ⟨0, fun _ _ => h⟩
  · next members hvalue =>
    split at h
    · cases h
    · next shape hshape =>
      rcases hc.exists_collect _ _ _ _ _ _ (.plan hp) .empty hshape with
        ⟨shape', hsimilar, least, hleast⟩
      have hcollect : ∀ fuel, least ≤ fuel →
          collect e' (fuel + 1) (.plan p') Shape.empty = some shape' :=
        fun fuel hle => hleast (fuel + 1) (by omega)
      rw [hsimilar.declared] at h
      split at h
      · next hdeclared =>
        rcases eventually_object hwrite hsimilar path members outcome h with ⟨others, hothers⟩
        refine ⟨max least others, fun fuel hle => ?_⟩
        simp only [hcollect fuel (by omega), hdeclared, if_true]
        exact hothers fuel (by omega)
      · next hdeclared =>
        refine ⟨least, fun fuel hle => ?_⟩
        simp only [hcollect fuel hle, if_neg hdeclared]
        exact h
  · next items hvalue =>
    have hleading : p.leading.isEmpty = p'.leading.isEmpty := isEmpty_of_forall₂ hp.leading
    have hitems : p.items.isNone = p'.items.isNone := by
      rw [← Option.not_isSome, ← Option.not_isSome, isSome_of_rel hp.items]
    rw [hleading, hitems] at h
    split at h
    · next hnone =>
      simp only [if_pos hnone]
      exact ⟨0, fun _ _ => h⟩
    · next hsome =>
      simp only [if_neg hsome]
      exact eventually_list hwrite hp path items outcome h
  · exact ⟨0, fun _ _ => h⟩

/-- Rendering along related nodes has the same outcome in the end. -/
theorem eventually_write (hc : Corresponds e e' R) : ∀ (fuel : Nat) (n n' : Node) (path : String)
    (v : Json) (outcome : Except RenderError Json), Matched e e' R n n' →
      write e fuel n path v = some outcome →
        Eventually (fun fuel => write e' fuel n' path v) outcome := by
  intro fuel
  induction fuel with
  | zero =>
    intro n n' path v outcome _ h
    simp [write] at h
  | succ fuel ih =>
    intro n n' path v outcome hn h
    rcases hn.exists_resolve? with ⟨p, rfl⟩ | ⟨s, hs⟩
    · rcases hn.exists_head rfl with ⟨p', hp', hsimilar⟩
      refine hp'.eventually_write (Eventually.of_succ ?_)
      exact hc.eventually_write_plan
        (fun m m' path v out hm => ih m m' path v out (hc.matched _ _ hm)) hsimilar path v outcome h
    · have hnoPlan : ∀ q, n ≠ .plan q := by
        rintro q rfl
        simp at hs
      rw [write_of_reference hnoPlan, hs] at h
      exact ih s.root n' path v outcome (hn.follow hc hs) h

end Corresponds

namespace Engine

/-- Rendering along related nodes gives the same document or the same error. -/
theorem render_of_corresponds (hc : Corresponds e e' R) {s s' : CompiledSchema}
    (h : R s.root s'.root) (v : Json) : e.render s v = e'.render s' v := by
  have hmatched := hc.matched _ _ h
  have hright : ∀ fuel outcome, write e fuel s.root "" v = some outcome →
      Eventually (fun fuel => write e' fuel s'.root "" v) outcome :=
    fun fuel outcome => hc.eventually_write fuel _ _ _ _ _ hmatched
  have hleft : ∀ fuel outcome, write e' fuel s'.root "" v = some outcome →
      Eventually (fun fuel => write e fuel s.root "" v) outcome :=
    fun fuel outcome => hc.symm.eventually_write fuel _ _ _ _ _ hmatched.symm
  unfold render
  cases hfirst : firstOutcome (fun fuel => write e fuel s.root "" v) (e.budget s v) with
  | none =>
    cases hfirst' : firstOutcome (fun fuel => write e' fuel s'.root "" v) (e'.budget s' v) with
    | none => rfl
    | some outcome =>
      rcases firstOutcome_eq_some hfirst' with ⟨fuel, hwrite⟩
      rcases (hleft fuel outcome hwrite).firstOutcome (e.budget s v) with ⟨first, hsome⟩
      simp [hfirst] at hsome
  | some outcome =>
    rcases firstOutcome_eq_some hfirst with ⟨fuel, hwrite⟩
    rcases (hright fuel outcome hwrite).firstOutcome (e'.budget s' v) with ⟨outcome', hfirst'⟩
    rcases firstOutcome_eq_some hfirst' with ⟨fuel', hwrite'⟩
    -- both outcomes come back to the left, where there is only one
    have hback : Eventually (fun fuel => write e fuel s.root "" v) outcome := by
      rcases hright fuel outcome hwrite with ⟨least, hleast⟩
      exact hleft least outcome (hleast least (Nat.le_refl _))
    rw [hfirst', hback.unique (hleft fuel' outcome' hwrite')]

end Engine

end HttpContract
