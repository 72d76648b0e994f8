import HttpContract.Proofs.Plans
import HttpContract.Proofs.SingleBranch

/-!
# Corresponding nodes

Two engines can hold the same schemas with references at different places. A relation between their
nodes is a correspondence when related nodes come, after references on either side, to plans that
say the same with related nodes inside (`Corresponds`). What applies, is declared, dropped or left
of a value by the walk is then the same on both sides: `Corresponds.exists_turns`.
-/

namespace HttpContract

open Normalization

/-! ## Plans with related nodes -/

/-- The same is said about undeclared properties, along related nodes. -/
inductive Additional.Similar (R : Node → Node → Prop) :
    Additional Node → Additional Node → Prop where
  | unspecified : Similar R .unspecified .unspecified
  | allowed : Similar R .allowed .allowed
  | forbidden : Similar R .forbidden .forbidden
  | schema {n n' : Node} (h : R n n') : Similar R (.schema n) (.schema n')

/-- Two plans say the same, along related nodes. -/
structure Plan.Similar (R : Node → Node → Prop) (p p' : Plan Node) : Prop where
  types : p.types = p'.types
  default : p.default = p'.default
  required : p.required = p'.required
  properties : List.Forall₂ (fun a b => a.1 = b.1 ∧ R a.2 b.2 ∧ a.2.filling = b.2.filling)
    p.properties p'.properties
  patterns : List.Forall₂ (fun a b => a.1 = b.1 ∧ R a.2 b.2) p.patterns p'.patterns
  additional : Additional.Similar R p.additional p'.additional
  leading : List.Forall₂ R p.leading p'.leading
  items : Option.Rel R p.items p'.items
  allOf : List.Forall₂ R p.allOf p'.allOf

/-- Related nodes, seen from the other side. -/
abbrev Converse (R : Node → Node → Prop) : Node → Node → Prop := fun n' n => R n n'

variable {R : Node → Node → Prop} {p p' : Plan Node}

theorem Additional.Similar.symm {a a' : Additional Node} (h : Additional.Similar R a a') :
    Additional.Similar (Converse R) a' a := by
  cases h with
  | unspecified => exact .unspecified
  | allowed => exact .allowed
  | forbidden => exact .forbidden
  | schema h => exact .schema h

namespace Plan.Similar

theorem empty : Plan.Similar R Plan.empty Plan.empty where
  types := rfl
  default := rfl
  required := rfl
  properties := .nil
  patterns := .nil
  additional := .unspecified
  leading := .nil
  items := .none
  allOf := .nil

theorem symm (h : Plan.Similar R p p') : Plan.Similar (Converse R) p' p where
  types := h.types.symm
  default := h.default.symm
  required := h.required.symm
  properties := List.Forall₂.flip
    (h.properties.imp (fun _ _ hab => ⟨hab.1.symm, hab.2.1, hab.2.2.symm⟩))
  patterns := List.Forall₂.flip (h.patterns.imp (fun _ _ hab => ⟨hab.1.symm, hab.2⟩))
  additional := h.additional.symm
  leading := h.leading.flip
  items := rel_symm h.items
  allOf := h.allOf.flip

theorem named (h : Plan.Similar R p p') :
    List.Forall₂ (fun a b => a.1 = b.1 ∧ R a.2 b.2) p.properties p'.properties :=
  h.properties.imp (fun _ _ hab => ⟨hab.1, hab.2.1⟩)

theorem matching (h : Plan.Similar R p p') (key : String) :
    List.Forall₂ (fun a b => a.1 = b.1 ∧ R a.2 b.2) (p.matching key) (p'.matching key) :=
  List.rel_filter (fun _ _ hab => by simp only [hab.1]) h.patterns

theorem contains (h : Plan.Similar R p p') (key : String) :
    Fields.contains p.properties key = Fields.contains p'.properties key :=
  isSome_of_rel (rel_get? key h.named)

theorem declaresOwn (h : Plan.Similar R p p') (key : String) :
    p.declaresOwn key = p'.declaresOwn key := by
  have hsources : p.patterns.map (·.1) = p'.patterns.map (·.1) := by
    rw [← List.forall₂_eq_eq_eq, List.forall₂_map_left_iff, List.forall₂_map_right_iff]
    exact h.patterns.imp (fun _ _ hab => hab.1)
  have hany : ∀ xs : List (String × Node), xs.any (fun e => Pattern.found e.1 key) =
      (xs.map (·.1)).any (fun source => Pattern.found source key) := by
    intro xs
    rw [List.any_map]
    rfl
  unfold Plan.declaresOwn
  rw [h.contains, hany, hany, hsources]

theorem admitsAny (h : Plan.Similar R p p') : p.admitsAny = p'.admitsAny := by
  unfold Plan.admitsAny
  have hadditional := h.additional
  revert hadditional
  generalize p.additional = a
  generalize p'.additional = a'
  rintro (_ | _ | _ | _) <;> rfl

theorem hasObjectKeywords (h : Plan.Similar R p p') :
    p.hasObjectKeywords = p'.hasObjectKeywords := by
  unfold Plan.hasObjectKeywords
  rw [isEmpty_of_forall₂ h.properties, isEmpty_of_forall₂ h.patterns]

theorem strips (h : Plan.Similar R p p') : p.strips = p'.strips := by
  unfold Plan.strips
  rw [h.hasObjectKeywords, h.admitsAny]

theorem memberNodes (h : Plan.Similar R p p') (key : String) :
    List.Forall₂ R (memberNodes p key) (memberNodes p' key) := by
  have hnamed : List.Forall₂ R (Fields.get? p.properties key).toList
      (Fields.get? p'.properties key).toList :=
    toList_of_rel (rel_get? key h.named)
  have hmatching : List.Forall₂ R ((p.matching key).map (·.2)) ((p'.matching key).map (·.2)) := by
    rw [List.forall₂_map_left_iff, List.forall₂_map_right_iff]
    exact (h.matching key).imp (fun _ _ hab => hab.2)
  have hnodes : List.Forall₂ R
      ((Fields.get? p.properties key).toList ++ (p.matching key).map (·.2))
      ((Fields.get? p'.properties key).toList ++ (p'.matching key).map (·.2)) :=
    List.rel_append hnamed hmatching
  have hadditional := h.additional
  unfold Normalization.memberNodes
  revert hnodes hadditional
  generalize (Fields.get? p.properties key).toList ++ (p.matching key).map (·.2) = ns
  generalize (Fields.get? p'.properties key).toList ++ (p'.matching key).map (·.2) = ns'
  generalize p.additional = a
  generalize p'.additional = a'
  intro hnodes hadditional
  cases hnodes with
  | cons hn hrest => exact .cons hn hrest
  | nil =>
    cases hadditional with
    | schema hn => exact .cons hn .nil
    | _ => exact .nil

theorem itemNodes (h : Plan.Similar R p p') (index : Nat) :
    List.Forall₂ R (itemNodes p index) (itemNodes p' index) := by
  have hleading := rel_getElem? h.leading index
  have hitems := h.items
  unfold Normalization.itemNodes
  revert hleading
  generalize p.leading[index]? = x
  generalize p'.leading[index]? = x'
  rintro (hn | _)
  · exact .cons hn .nil
  · exact toList_of_rel hitems

end Plan.Similar

/-! ## Related nodes -/

/-- Both nodes come to plans that say the same along related nodes. References may be followed on
either side alone, or on both to nodes that are related again. -/
inductive Matched (e e' : Engine) (R : Node → Node → Prop) : Node → Node → Prop where
  | plan {p p' : Plan Node} (h : Plan.Similar R p p') : Matched e e' R (.plan p) (.plan p')
  | both {n n' : Node} {s s' : CompiledSchema} (hs : e.resolve? n = some s)
      (hs' : e'.resolve? n' = some s') (h : R s.root s'.root) : Matched e e' R n n'
  | left {n n' : Node} {s : CompiledSchema} (hs : e.resolve? n = some s)
      (h : Matched e e' R s.root n') : Matched e e' R n n'
  | right {n n' : Node} {s' : CompiledSchema} (hs' : e'.resolve? n' = some s')
      (h : Matched e e' R n s'.root) : Matched e e' R n n'

/-- A relation between the nodes of two engines that lasts when their schemas are followed. -/
structure Corresponds (e e' : Engine) (R : Node → Node → Prop) : Prop where
  options : e.options = e'.options
  matched : ∀ n n', R n n' → Matched e e' R n n'

variable {e e' : Engine} {n n' : Node}

theorem Matched.symm (h : Matched e e' R n n') : Matched e' e (Converse R) n' n := by
  induction h with
  | plan h => exact .plan h.symm
  | both hs hs' h => exact .both hs' hs h
  | left hs _ ih => exact .right hs ih
  | right hs' _ ih => exact .left hs' ih

theorem Corresponds.symm (h : Corresponds e e' R) : Corresponds e' e (Converse R) where
  options := h.options.symm
  matched n' n hn := (h.matched n n' hn).symm

namespace Matched

theorem exists_head (h : Matched e e' R n n') :
    ∀ {p}, n = .plan p → ∃ p', Head e' n' p' ∧ Plan.Similar R p p' := by
  induction h with
  | plan h =>
    intro p hp
    obtain rfl := Node.plan.inj hp
    exact ⟨_, .self, h⟩
  | both hs _ _ =>
    rintro _ rfl
    simp at hs
  | left hs _ _ =>
    rintro _ rfl
    simp at hs
  | right hs' _ ih =>
    intro p hn
    rcases ih hn with ⟨p', hp', hsimilar⟩
    exact ⟨p', .reference hs' hp', hsimilar⟩

/-- A node that stays related when its reference is followed. -/
theorem follow (hc : Corresponds e e' R) (h : Matched e e' R n n') :
    ∀ {s}, e.resolve? n = some s → Matched e e' R s.root n' := by
  induction h with
  | plan _ =>
    intro s hs
    simp at hs
  | both hs hs' h =>
    intro s hn
    obtain rfl := Option.some.inj (hs.symm.trans hn)
    exact .right hs' (hc.matched _ _ h)
  | left hs h _ =>
    intro s hn
    obtain rfl := Option.some.inj (hs.symm.trans hn)
    exact h
  | right hs' _ ih =>
    intro s hn
    exact .right hs' (ih hn)

/-- A related node is a plan or leads to one. -/
theorem exists_resolve? (h : Matched e e' R n n') :
    (∃ p, n = .plan p) ∨ ∃ s, e.resolve? n = some s := by
  induction h with
  | plan _ => exact Or.inl ⟨_, rfl⟩
  | both hs _ _ => exact Or.inr ⟨_, hs⟩
  | left hs _ _ => exact Or.inr ⟨_, hs⟩
  | right _ _ ih => exact ih

end Matched

/-! ## What applies and is declared -/

theorem Normalization.Head.applies {p q : Plan Node} (h : Head e n p)
    (hq : Applies e (.plan p) q) : Applies e n q := by
  induction h with
  | self => exact hq
  | reference hs _ ih => exact .reference hs (ih hq)

theorem Normalization.Head.exists_turns {p : Plan Node} {strip clean : Bool} {v w : Json}
    (h : Head e n p) (hw : Turns e (.plan p) strip v w clean) :
    ∃ clean', Turns e n strip v w clean' := by
  induction h with
  | self => exact ⟨clean, hw⟩
  | reference hs _ ih =>
    rcases ih hw with ⟨clean', hw'⟩
    exact ⟨_, .reference hs hw'⟩

namespace Corresponds

theorem exists_applies (hc : Corresponds e e' R) {n : Node} {q : Plan Node} : Applies e n q →
    ∀ {n'}, Matched e e' R n n' → ∃ q', Applies e' n' q' ∧ Plan.Similar R q q'
  | .self, _, h => by
    rcases h.exists_head rfl with ⟨p', hp', hsimilar⟩
    exact ⟨p', hp'.applies .self, hsimilar⟩
  | .branch hm happlies, _, h => by
    rcases h.exists_head rfl with ⟨p', hp', hsimilar⟩
    rcases exists_of_forall₂ hsimilar.allOf hm with ⟨m', hm', hrelated⟩
    rcases exists_applies hc happlies (hc.matched _ _ hrelated) with ⟨q', hq', hsimilar'⟩
    exact ⟨q', hp'.applies (.branch hm' hq'), hsimilar'⟩
  | .reference hs happlies, _, h => exists_applies hc happlies (h.follow hc hs)
termination_by structural h => h

theorem admits (hc : Corresponds e e' R) (h : Matched e e' R n n') (hn : Admits e n) :
    Admits e' n' := by
  rcases hn with ⟨q, hq, hadmits⟩
  rcases hc.exists_applies hq h with ⟨q', hq', hsimilar⟩
  exact ⟨q', hq', hsimilar.admitsAny ▸ hadmits⟩

theorem declares (hc : Corresponds e e' R) (h : Matched e e' R n n') {key : String}
    (hn : Declares e n key) : Declares e' n' key := by
  rcases hn with ⟨q, hq, hdeclares⟩
  rcases hc.exists_applies hq h with ⟨q', hq', hsimilar⟩
  exact ⟨q', hq', hsimilar.declaresOwn key ▸ hdeclares⟩

theorem drops (hc : Corresponds e e' R) (h : Plan.Similar R p p') {key : String}
    (hp : Drops e p key) : Drops e' p' key := by
  rcases hp with ⟨hremove, hstrips, hbranches, hdeclares⟩
  refine ⟨hc.options ▸ hremove, h.strips ▸ hstrips, ?_, ?_⟩
  · intro m' hm' hadmits
    rcases exists_of_forall₂ h.symm.allOf hm' with ⟨m, hm, hrelated⟩
    exact hbranches m hm (hc.symm.admits (hc.matched _ _ hrelated).symm hadmits)
  · intro hdeclares'
    exact hdeclares (hc.symm.declares (Matched.plan h).symm hdeclares')

theorem drops_iff (hc : Corresponds e e' R) (h : Plan.Similar R p p') (key : String) :
    Drops e p key ↔ Drops e' p' key :=
  ⟨hc.drops h, hc.symm.drops h.symm⟩

/-! ## The walk -/

theorem withDefaults_eq (properties : List (String × Node)) (members : Fields Json) :
    withDefaults properties members = properties.foldl
      (fun ms x =>
        match x.2.filling with
        | some d => if Fields.contains ms x.1 then ms else Fields.insert ms x.1 d
        | none => ms)
      members := by
  unfold withDefaults
  congr 1
  funext ms x
  rcases x with ⟨name, n⟩
  cases n <;> rfl

theorem withDefaults_congr (h : Plan.Similar R p p') (members : Fields Json) :
    withDefaults p.properties members = withDefaults p'.properties members := by
  have hproperties := h.properties
  generalize p.properties = xs at hproperties
  generalize p'.properties = ys at hproperties
  rw [withDefaults_eq, withDefaults_eq]
  induction hproperties generalizing members with
  | nil => rfl
  | cons hab _ ih =>
    rw [List.foldl_cons, List.foldl_cons, ih, hab.1, hab.2.2]

open Classical in
theorem prepared (hc : Corresponds e e' R) (he' : e'.Acyclic) (h : Plan.Similar R p p')
    {strip : Bool} {members ready : Fields Json}
    (hready : ∃ fuel, prepared e fuel p strip members = some ready) :
    ∃ fuel, prepared e' fuel p' strip members = some ready := by
  rcases hready with ⟨fuel, hready⟩
  rcases exists_prepared he' p' strip members with ⟨fuel', ready', hready'⟩
  have hfilled : filled e p members = filled e' p' members := by
    unfold filled
    rw [hc.options, withDefaults_congr h]
  have heq : ready' = ready := by
    rw [eq_of_prepared hready, eq_of_prepared hready', hfilled]
    exact List.filter_congr (fun m _ => by simp only [hc.drops_iff h])
  exact ⟨fuel', heq ▸ hready'⟩

-- by induction along the walk on the left; on the right only the verdicts can differ
mutual

/-- A walk along a node leaves what a walk along a related node leaves. -/
theorem exists_turns (hc : Corresponds e e' R) (he' : e'.Acyclic) {n : Node} {strip clean : Bool}
    {v w : Json} : Turns e n strip v w clean → ∀ {n'}, Matched e e' R n n' →
      ∃ clean', Turns e' n' strip v w clean'
  | .nowhere hn hs, _, h => by
    rcases h.exists_resolve? with ⟨p, hp⟩ | ⟨s, hs'⟩
    · exact absurd hp (hn p)
    · simp [hs] at hs'
  | .reference hs hturns, _, h => exists_turns hc he' hturns (h.follow hc hs)
  | .plan hbranches hparts, _, h => by
    rcases h.exists_head rfl with ⟨p', hp', hsimilar⟩
    rcases exists_runs hc he' hbranches hsimilar.allOf with ⟨first, hbranches'⟩
    rcases exists_parts hc he' hparts hsimilar with ⟨others, hparts'⟩
    rw [hc.options, hsimilar.types] at hbranches'
    exact hp'.exists_turns (.plan hbranches' hparts')
termination_by structural h => h

theorem exists_runs (hc : Corresponds e e' R) (he' : e'.Acyclic) {nodes : List Node}
    {strip clean : Bool} {v w : Json} : Runs e strip nodes v w clean → ∀ {nodes'},
      List.Forall₂ R nodes nodes' → ∃ clean', Runs e' strip nodes' v w clean'
  | .nil, _, h => by
    cases h
    exact ⟨true, .nil⟩
  | .cons hturns hrest, _, h => by
    cases h with
    | cons hn hnodes =>
      rcases exists_turns hc he' hturns (hc.matched _ _ hn) with ⟨first, hturns'⟩
      rcases exists_runs hc he' hrest hnodes with ⟨others, hrest'⟩
      exact ⟨_, .cons hturns' hrest'⟩
termination_by structural h => h

theorem exists_parts (hc : Corresponds e e' R) (he' : e'.Acyclic) {p : Plan Node}
    {strip clean : Bool} {v w : Json} : Parts e p strip v w clean → ∀ {p'},
      Plan.Similar R p p' → ∃ clean', Parts e' p' strip v w clean'
  | .object hready hmembers, _, h => by
    rcases exists_members hc he' hmembers h with ⟨clean', hmembers'⟩
    exact ⟨clean', .object (hc.prepared he' h hready) hmembers'⟩
  | .list hitems, _, h => by
    rcases exists_items hc he' hitems h with ⟨clean', hitems'⟩
    exact ⟨clean', .list hitems'⟩
  | .scalar hv, _, _ => ⟨true, .scalar hv⟩
termination_by structural h => h

theorem exists_members (hc : Corresponds e e' R) (he' : e'.Acyclic) {p : Plan Node}
    {clean : Bool} {members members' : Fields Json} : Members e p members members' clean →
      ∀ {p'}, Plan.Similar R p p' → ∃ clean', Members e' p' members members' clean'
  | .nil, _, _ => ⟨true, .nil⟩
  | .cons hruns hrest, _, h => by
    rcases exists_runs hc he' hruns (h.memberNodes _) with ⟨first, hruns'⟩
    rcases exists_members hc he' hrest h with ⟨others, hrest'⟩
    exact ⟨_, .cons hruns' hrest'⟩
termination_by structural h => h

theorem exists_items (hc : Corresponds e e' R) (he' : e'.Acyclic) {p : Plan Node}
    {clean : Bool} {index : Nat} {items items' : List Json} : Items e p index items items' clean →
      ∀ {p'}, Plan.Similar R p p' → ∃ clean', Items e' p' index items items' clean'
  | .nil, _, _ => ⟨true, .nil⟩
  | .cons hruns hrest, _, h => by
    rcases exists_runs hc he' hruns (h.itemNodes _) with ⟨first, hruns'⟩
    rcases exists_items hc he' hrest h with ⟨others, hrest'⟩
    exact ⟨_, .cons hruns' hrest'⟩
termination_by structural h => h

end

end Corresponds

namespace Engine

/-- Validation along related nodes comes to an end for the same values and leaves the same. -/
theorem value_of_corresponds (hc : Corresponds e e' R) (he : e.Acyclic) (he' : e'.Acyclic)
    {s s' : CompiledSchema} (h : R s.root s'.root) (v : Json) :
    (Ends e s v ↔ Ends e' s' v) ∧ (e.validate s v).value = (e'.validate s' v).value := by
  have hmatched := hc.matched _ _ h
  by_cases hends : Ends e s v
  · rcases ends_iff_exists_turns.mp hends with ⟨w, clean, hw⟩
    rcases hc.exists_turns he' hw hmatched with ⟨clean', hw'⟩
    refine ⟨iff_of_true hends (ends_iff_exists_turns.mpr ⟨w, clean', hw'⟩), ?_⟩
    rw [value_of_turns hw, value_of_turns hw']
  · have hends' : ¬ Ends e' s' v := by
      intro hends'
      rcases ends_iff_exists_turns.mp hends' with ⟨w, clean, hw⟩
      rcases hc.symm.exists_turns he hw hmatched.symm with ⟨clean', hw'⟩
      exact hends (ends_iff_exists_turns.mpr ⟨w, clean', hw'⟩)
    refine ⟨iff_of_false hends hends', ?_⟩
    rw [value_of_not_ends hends, value_of_not_ends hends']

end Engine

end HttpContract
