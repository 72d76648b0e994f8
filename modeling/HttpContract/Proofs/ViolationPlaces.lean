import HttpContract.Proofs.Handing
import HttpContract.Proofs.Pointers
import HttpContract.Proofs.Satisfaction
import HttpContract.Proofs.Withholding

/-!
# Where violations are

The place of a violation is written down step by step while a value is walked through: by the
evaluator, which looks at one value (`Evaluation.lies_of_mem_findings`), and by the walk, which
starts evaluators of its own at places of the value and puts these places before theirs. Where
there are neither branches nor patterns (`Planning.Unbranched`), no two schemas change the value at
one place. What an evaluator has looked at then stays as it was, and every violation that is
reported is at a place of the value that validation leaves
(`Engine.exists_resolve?_of_mem_errors`).
-/

namespace HttpContract

namespace Evaluation

/-! ## What evaluators find -/

/-- What was found is in the value that is judged at a place. -/
def Lies (v : Json) (p : Place) (x : Finding) : Prop :=
  ∃ u, Json.Pointer.Leads v p.instancePath x.instancePath u

section

variable {v w : Json} {p q : Place} {x : Finding}

theorem lies_of_mem_reports {violations : List Violation} (hx : x ∈ violations.map q.report)
    (h : q.instancePath = p.instancePath) : Lies v p x := by
  obtain ⟨violation, -, rfl⟩ := List.mem_map.mp hx
  refine ⟨v, ?_⟩
  rw [← h]
  exact .here

theorem lies_of_mem_report {violation : Violation} (hx : x ∈ [q.report violation])
    (h : q.instancePath = p.instancePath) : Lies v p x := by
  have hmapped : x ∈ [violation].map q.report := hx
  exact lies_of_mem_reports hmapped h

/-- One violation is reported, or none. -/
theorem lies_of_mem_ite {test : Prop} [Decidable test] {violation : Violation}
    (hx : x ∈ if test then [] else [q.report violation]) (h : q.instancePath = p.instancePath) :
    Lies v p x := by
  split at hx
  · cases hx
  · exact lies_of_mem_report hx h

/-- Where in the schema one stands does not matter. -/
theorem Lies.same (h : q.instancePath = p.instancePath) (hx : Lies v q x) : Lies v p x := by
  obtain ⟨u, hu⟩ := hx
  rw [h] at hu
  exact ⟨u, hu⟩

theorem Lies.member {members : Fields Json} {name : String} (hmem : (name, w) ∈ members)
    (h : q.instancePath = Json.Pointer.child p.instancePath name) (hx : Lies w q x) :
    Lies (.obj members) p x := by
  obtain ⟨u, hu⟩ := hx
  rw [h] at hu
  exact ⟨u, .member hmem hu⟩

theorem Lies.item {items : List Json} {i : Nat} (hi : items[i]? = some w)
    (h : q.instancePath = Json.Pointer.childIndex p.instancePath i) (hx : Lies w q x) :
    Lies (.arr items) p x := by
  obtain ⟨u, hu⟩ := hx
  rw [h] at hu
  exact ⟨u, .item hi hu⟩

/-- There is only one place in a text, and so what is found in a name is found where its object
is. -/
theorem Lies.name {name : String} (h : q.instancePath = p.instancePath)
    (hx : Lies (.str name) q x) : Lies v p x := by
  obtain ⟨u, hu⟩ := hx
  generalize hpath : x.instancePath = pointer at hu
  cases hu with
  | here =>
    refine ⟨v, ?_⟩
    rw [hpath, h]
    exact .here

end

/-- Whatever is judged, what is found is in it. -/
def Located (r : Rules) : Prop := ∀ p schema v, ∀ x ∈ r.judge p schema v, Lies v p x

theorem getElem?_of_mem_indexed {xs : List Json} {e : Nat × Json} (h : e ∈ indexed xs) :
    xs[e.1]? = some e.2 := by
  obtain ⟨i, hi⟩ := List.mem_iff_getElem?.mp h
  rw [getElem?_indexed] at hi
  obtain ⟨w, hw, rfl⟩ := Option.map_eq_some_iff.mp hi
  exact hw

theorem instancePath_of_mem_branches {p : Place} {k : String} {arg : Json} {b : Place × Json}
    (h : b ∈ branches p k arg) : b.1.instancePath = p.instancePath := by
  unfold branches at h
  obtain ⟨e, -, rfl⟩ := List.mem_map.mp h
  rfl

/-- The schemas of a name and of its patterns judge the member under the name. -/
theorem instancePath_of_declared {p : Place} {own sources : Fields Json} {name : String}
    {b : Place × Json} (h : b ∈ ((Fields.get? own name).map
      (fun s => ((p.entry "properties" name).part name, s))).toList ++ matching p sources name) :
    b.1.instancePath = Json.Pointer.child p.instancePath name := by
  rcases List.mem_append.mp h with h | h
  · obtain ⟨s, -, rfl⟩ := Option.map_eq_some_iff.mp (Option.mem_toList.mp h)
    rfl
  · obtain ⟨e, -, rfl⟩ := List.mem_map.mp h
    rfl

section

variable {l : Library} {r : Rules} (hr : Located r) {p : Place} {members : Fields Json}
  {k : String} {arg v : Json} {x : Finding}
include hr

theorem lies_properties (hx : x ∈ properties r p arg v) : Lies v p x := by
  unfold properties at hx
  split at hx
  · obtain ⟨⟨name, s⟩, -, hx⟩ := List.mem_flatMap.mp hx
    dsimp only at hx
    split at hx
    · next w hget => exact (hr _ _ _ x hx).member (Fields.mem_of_get? hget) rfl
    · cases hx
  · cases hx

theorem lies_patternProperties (hx : x ∈ patternProperties r p arg v) : Lies v p x := by
  unfold patternProperties at hx
  split at hx
  · obtain ⟨⟨source, s⟩, -, hx⟩ := List.mem_flatMap.mp hx
    obtain ⟨⟨name, w⟩, hmem, hx⟩ := List.mem_flatMap.mp hx
    dsimp only at hx
    split at hx
    · exact (hr _ _ _ x hx).member hmem rfl
    · cases hx
  · cases hx

theorem lies_additionalProperties (hx : x ∈ additionalProperties r p members arg v) :
    Lies v p x := by
  unfold additionalProperties at hx
  split at hx
  · cases hx
  · split at hx
    · next entries =>
      dsimp only at hx
      split at hx
      · split at hx
        · exact lies_of_mem_report hx rfl
        · cases hx
      · rcases List.mem_append.mp hx with hx | hx
        · -- a member is judged by what declares it, else by the additional schema
          obtain ⟨⟨name, w⟩, hmem, hx⟩ := List.mem_flatMap.mp hx
          dsimp only at hx
          split at hx
          · split at hx
            · cases hx
            · exact (hr _ _ _ x hx).member hmem rfl
          · obtain ⟨b, hdeclared, hx⟩ := List.mem_flatMap.mp hx
            obtain ⟨b', hb', rfl⟩ := List.mem_map.mp hdeclared
            exact (hr _ _ _ x hx).member hmem (instancePath_of_declared hb')
        · exact lies_of_mem_ite hx rfl
    · cases hx

theorem lies_propertyNames (hx : x ∈ propertyNames r p arg v) : Lies v p x := by
  unfold propertyNames at hx
  split at hx
  · exact lies_of_mem_report hx rfl
  · obtain ⟨⟨name, w⟩, -, hx⟩ := List.mem_flatMap.mp hx
    exact (hr _ _ _ x hx).name rfl
  · cases hx

theorem lies_leadingItems (hx : x ∈ leadingItems r p arg v) : Lies v p x := by
  unfold leadingItems at hx
  split at hx
  · obtain ⟨⟨⟨q, s⟩, ⟨i, w⟩⟩, hmem, hx⟩ := List.mem_flatMap.mp hx
    obtain ⟨hbranch, hindexed⟩ := List.of_mem_zip hmem
    refine (hr _ _ _ x hx).item (getElem?_of_mem_indexed hindexed) ?_
    exact congrArg (Json.Pointer.child · _) (instancePath_of_mem_branches hbranch)
  · cases hx

theorem lies_remainingItems (hx : x ∈ remainingItems r p members arg v) : Lies v p x := by
  unfold remainingItems at hx
  split at hx
  · obtain ⟨⟨i, w⟩, hmem, hx⟩ := List.mem_flatMap.mp hx
    exact (hr _ _ _ x hx).item (getElem?_of_mem_indexed (List.mem_of_mem_drop hmem)) rfl
  · cases hx

omit hr in
theorem lies_contains (hx : x ∈ contains r p members arg v) : Lies v p x := by
  have hreport : ∀ k, x ∈ [(p.keyword k).report (.contains v)] → Lies v p x :=
    fun k hx => lies_of_mem_report hx rfl
  unfold contains at hx
  split at hx
  · dsimp only at hx
    split at hx
    all_goals split_ifs at hx
    all_goals first | exact hreport _ hx | cases hx
  · cases hx

theorem lies_dependentSchemas (hx : x ∈ dependentSchemas r p arg v) : Lies v p x := by
  unfold dependentSchemas at hx
  split at hx
  · obtain ⟨⟨name, s⟩, -, hx⟩ := List.mem_flatMap.mp hx
    dsimp only at hx
    split at hx
    · exact (hr _ _ _ x hx).same rfl
    · cases hx
  · cases hx

theorem lies_dependencies (hx : x ∈ dependencies r p arg v) : Lies v p x := by
  unfold dependencies at hx
  split at hx
  · obtain ⟨⟨name, s⟩, -, hx⟩ := List.mem_flatMap.mp hx
    dsimp only at hx
    split at hx
    · split at hx
      · exact lies_of_mem_reports hx rfl
      · exact (hr _ _ _ x hx).same rfl
    · cases hx
  · cases hx

omit hr in
theorem lies_oneOf (hx : x ∈ oneOf r p arg v) : Lies v p x := by
  unfold oneOf at hx
  split at hx
  · exact lies_of_mem_report hx rfl
  · cases hx
  · exact lies_of_mem_report hx rfl

theorem lies_conditional (hx : x ∈ conditional r p members arg v) : Lies v p x := by
  unfold conditional at hx
  dsimp only at hx
  split at hx
  · exact (hr _ _ _ x hx).same rfl
  · cases hx

theorem lies_reference (hx : x ∈ reference l r p members k arg v) : Lies v p x := by
  unfold reference at hx
  split at hx
  · next q s htarget =>
    have hq : q.instancePath = p.instancePath := by
      unfold target? at htarget
      split at htarget
      · split at htarget
        · split_ifs at htarget
          cases htarget
          rfl
        · cases htarget
      · cases htarget
    exact (hr _ _ _ x hx).same hq
  · cases hx

theorem lies_branches (hx : x ∈ (branches p k arg).flatMap (fun b => r.judge b.1 b.2 v)) :
    Lies v p x := by
  obtain ⟨b, hb, hx⟩ := List.mem_flatMap.mp hx
  exact (hr _ _ _ x hx).same (instancePath_of_mem_branches hb)

omit hr in
theorem lies_unevaluatedProperties {schema : Json}
    (hx : x ∈ unevaluatedProperties l r p schema v) : Lies v p x := by
  unfold unevaluatedProperties at hx
  split at hx
  · exact lies_of_mem_ite hx rfl
  · cases hx

omit hr in
theorem lies_unevaluatedItems {schema : Json}
    (hx : x ∈ unevaluatedItems l r p schema v) : Lies v p x := by
  unfold unevaluatedItems at hx
  split at hx
  · exact lies_of_mem_ite hx rfl
  · cases hx

/-- What is found of a keyword is in the value. -/
theorem lies_of_mem_keywordFindings (hx : x ∈ keywordFindings l r p members k arg v) :
    Lies v p x := by
  unfold keywordFindings at hx
  split at hx
  · cases hx
  · split at hx
    · exact lies_reference hr hx
    · exact lies_reference hr hx
    · exact lies_additionalProperties hr hx
    · exact lies_branches hr hx
    · exact lies_of_mem_ite hx rfl
    · exact lies_contains hx
    · exact lies_dependencies hr hx
    · exact lies_dependentSchemas hr hx
    · exact lies_conditional hr hx
    · exact lies_remainingItems hr hx
    · split at hx
      · exact lies_of_mem_report hx rfl
      · cases hx
    · exact lies_oneOf hx
    · split at hx
      · cases hx
      · exact lies_patternProperties hr hx
    · exact lies_leadingItems hr hx
    · split at hx
      · cases hx
      · exact lies_properties hr hx
    · exact lies_propertyNames hr hx
    · exact lies_unevaluatedItems hx
    · exact lies_unevaluatedProperties hx
    · exact lies_of_mem_reports hx rfl

theorem lies_of_mem_findings {schema : Json} (hx : x ∈ findings l r p schema v) : Lies v p x := by
  unfold findings at hx
  split at hx
  · cases hx
  · exact lies_of_mem_report hx rfl
  · dsimp only at hx
    obtain ⟨⟨k, arg⟩, -, hx⟩ := List.mem_flatMap.mp hx
    exact (lies_of_mem_keywordFindings hr hx).same rfl
  · cases hx

end

/-- However many steps are allowed: what is found beyond the last one is where it was given up. -/
theorem located_rules (l : Library) (n : Nat) : Located (rules l n) := by
  induction n with
  | zero => exact fun p schema v x hx => lies_of_mem_report hx rfl
  | succ n ih => exact fun p schema v x hx => lies_of_mem_findings ih hx

end Evaluation

theorem Evaluator.leads_of_mem_findings {ev : Evaluator} {v : Json} {x : Finding}
    (hx : x ∈ ev.findings v) : ∃ u, Json.Pointer.Leads v "" x.instancePath u :=
  Evaluation.located_rules _ _ _ _ v x hx

/-! ## What the walk finds -/

namespace Normalization

variable {e : Engine}

/-- The violations are in the value, which stands at a place of a larger one. -/
def Placed (a : At) (v : Json) (errors : List FieldError) : Prop :=
  ∀ x ∈ errors, ∃ u, Json.Pointer.Leads v a.instancePath x.instancePath u

theorem placed_nil (a : At) (v : Json) : Placed a v [] := by
  intro x hx
  cases hx

theorem Placed.append {a : At} {v : Json} {errors errors' : List FieldError}
    (h : Placed a v errors) (h' : Placed a v errors') : Placed a v (errors ++ errors') := by
  intro x hx
  rcases List.mem_append.mp hx with hx | hx
  · exact h x hx
  · exact h' x hx

/-- A shortened list of violations has no other places. -/
theorem Placed.limit {a : At} {v : Json} {errors : List FieldError} (h : Placed a v errors)
    (o : Options) : Placed a v (o.limit errors) := by
  intro x hx
  unfold Options.limit at hx
  split at hx
  · exact h x hx
  · exact h x (List.mem_of_mem_take hx)

/-- The place where a validation was started comes before the places that it found. -/
theorem Placed.rebased {a : At} {v : Json} {errors : List FieldError}
    (h : Placed ⟨"", ""⟩ v errors) : Placed a v (errors.map (rebased a)) := by
  intro x hx
  obtain ⟨y, hy, rfl⟩ := List.mem_map.mp hx
  obtain ⟨u, hu⟩ := h y hy
  have hfront := hu.append a.instancePath
  rw [String.append_empty] at hfront
  exact ⟨u, hfront⟩

theorem Flagged.length_eq {strip : Bool} {nodes : List Node} {steps : List (Node × At × Bool)}
    (h : Flagged strip nodes steps) : steps.length = nodes.length := by
  have hlength := congrArg List.length h
  rw [List.length_map, List.length_map] at hlength
  exact hlength

theorem Flagged.mem {strip : Bool} {nodes : List Node} {steps : List (Node × At × Bool)}
    (h : Flagged strip nodes steps) {step : Node × At × Bool} (hstep : step ∈ steps) :
    step.1 ∈ nodes := by
  have hmem : (step.1, step.2.2) ∈ nodes.map (fun n => (n, strip)) :=
    h ▸ List.mem_map.mpr ⟨step, hstep, rfl⟩
  obtain ⟨n, hn, heq⟩ := List.mem_map.mp hmem
  cases heq
  exact hn

theorem instancePath_of_mem_nodesFor {p : Plan Node} {a : At} {key : String}
    {step : Node × At × Bool} (h : step ∈ nodesFor p a key) :
    step.2.1.instancePath = Json.Pointer.child a.instancePath key := by
  have hlisted : step ∈ ((Fields.get? p.properties key).map
      (fun n => (n, (a.part key).entry "properties" key, true))).toList ++ (p.matching key).map
        (fun m => (m.2, (a.part key).entry "patternProperties" m.1, true)) →
      step.2.1.instancePath = Json.Pointer.child a.instancePath key := by
    intro hstep
    rcases List.mem_append.mp hstep with hstep | hstep
    · obtain ⟨n, -, rfl⟩ := Option.map_eq_some_iff.mp (Option.mem_toList.mp hstep)
      rfl
    · obtain ⟨m, -, rfl⟩ := List.mem_map.mp hstep
      rfl
  unfold nodesFor at h
  dsimp only at h
  split at h
  · split at h
    · obtain rfl := List.mem_singleton.mp h
      rfl
    · cases h
  · exact hlisted h

theorem instancePath_of_mem_nodeAt {p : Plan Node} {a : At} {index : Nat}
    {step : Node × At × Bool} (h : step ∈ nodeAt p a index) :
    step.2.1.instancePath = Json.Pointer.childIndex a.instancePath index := by
  unfold nodeAt at h
  dsimp only at h
  split at h
  · obtain rfl := List.mem_singleton.mp h
    rfl
  · split at h
    · obtain rfl := List.mem_singleton.mp h
      rfl
    · cases h

/-- A walk along a node that leads to no branches and no patterns finds violations in the value that
it leaves. -/
def Places (e : Engine) (walk : Walk) : Prop :=
  ∀ n a strip v w, Straight e n → walk n a strip v = some w → Placed a w.value w.errors

section

variable {walk : Walk} (hwalk : Places e walk) {p : Plan Node} {a : At}
include hwalk

/-- No second walk changes what the first one has looked at. -/
theorem placed_of_chain {here : At} {steps : List (Node × At × Bool)} {v : Json} {w : Walked}
    (hlength : steps.length ≤ 1)
    (hsteps : ∀ step ∈ steps, Straight e step.1 ∧ step.2.1.instancePath = here.instancePath)
    (h : chain walk steps ⟨v, []⟩ = some w) : Placed here w.value w.errors := by
  match steps with
  | [] =>
    obtain rfl := Option.some.inj h
    exact placed_nil here v
  | [(n, a, strip)] =>
    obtain ⟨hstraight, hplace⟩ := hsteps _ List.mem_cons_self
    rw [chain] at h
    obtain ⟨next, hnext, hw⟩ := Option.bind_eq_some_iff.mp h
    obtain rfl := Option.some.inj hw
    have hplaced := hwalk n a strip v next hstraight hnext
    unfold Placed at hplaced
    rw [hplace] at hplaced
    exact hplaced
  | _ :: _ :: _ =>
    simp at hlength

theorem leads_of_walkMembers (hstraight : Straight e (.plan p)) :
    ∀ {members : List (String × Json)} {result : List (String × Json) × List FieldError},
      walkMembers walk p a members = some result →
        ∀ x ∈ result.2, ∃ m ∈ result.1, ∃ u,
          Json.Pointer.Leads m.2 (Json.Pointer.child a.instancePath m.1) x.instancePath u := by
  intro members
  induction members with
  | nil =>
    intro result h x hx
    cases h
    cases hx
  | cons m rest ih =>
    intro result h x hx
    obtain ⟨key, v⟩ := m
    rw [walkMembers] at h
    obtain ⟨w, hw, h⟩ := Option.bind_eq_some_iff.mp h
    obtain ⟨others, hothers, h⟩ := Option.bind_eq_some_iff.mp h
    cases h
    have hflagged := flagged_nodesFor p a key
    have hplaced : Placed (a.part key) w.value w.errors := by
      refine placed_of_chain hwalk ?_ (fun step hstep => ?_) hw
      · rw [hflagged.length_eq]
        exact length_memberNodes (hstraight p .here).2 key
      · exact ⟨hstraight.of_reaches (reaches_of_mem_memberNodes (hflagged.mem hstep)),
          instancePath_of_mem_nodesFor hstep⟩
    rcases List.mem_append.mp hx with hx | hx
    · exact ⟨_, List.mem_cons_self, hplaced x hx⟩
    · obtain ⟨m, hm, hleads⟩ := ih hothers x hx
      exact ⟨m, List.mem_cons_of_mem _ hm, hleads⟩

theorem leads_of_walkItems (hstraight : Straight e (.plan p)) :
    ∀ {items : List Json} {index : Nat} {result : List Json × List FieldError},
      walkItems walk p a index items = some result →
        ∀ x ∈ result.2, ∃ i v u, result.1[i]? = some v ∧
          Json.Pointer.Leads v (Json.Pointer.childIndex a.instancePath (index + i))
            x.instancePath u := by
  intro items
  induction items with
  | nil =>
    intro index result h x hx
    cases h
    cases hx
  | cons v rest ih =>
    intro index result h x hx
    rw [walkItems] at h
    obtain ⟨w, hw, h⟩ := Option.bind_eq_some_iff.mp h
    obtain ⟨others, hothers, h⟩ := Option.bind_eq_some_iff.mp h
    cases h
    have hflagged := flagged_nodeAt p a index
    have hplaced : Placed (a.part (toString index)) w.value w.errors := by
      refine placed_of_chain hwalk ?_ (fun step hstep => ?_) hw
      · rw [hflagged.length_eq]
        exact length_itemNodes p index
      · exact ⟨hstraight.of_reaches (reaches_of_mem_itemNodes (hflagged.mem hstep)),
          instancePath_of_mem_nodeAt hstep⟩
    rcases List.mem_append.mp hx with hx | hx
    · obtain ⟨u, hu⟩ := hplaced x hx
      exact ⟨0, w.value, u, rfl, hu⟩
    · obtain ⟨i, v', u, hi, hu⟩ := ih hothers x hx
      refine ⟨i + 1, v', u, hi, ?_⟩
      rw [Nat.add_right_comm] at hu
      exact hu

theorem placed_of_walkParts (hstraight : Straight e (.plan p)) {fuel : Nat} {strip : Bool}
    {v : Json} {w : Walked} (h : walkParts e fuel walk p a strip v = some w) :
    Placed a w.value w.errors := by
  intro x hx
  unfold walkParts at h
  split at h
  · obtain ⟨ready, -, h⟩ := Option.bind_eq_some_iff.mp h
    obtain ⟨result, hresult, h⟩ := Option.bind_eq_some_iff.mp h
    cases h
    obtain ⟨m, hm, u, hu⟩ := leads_of_walkMembers hwalk hstraight hresult x hx
    exact ⟨u, .member hm hu⟩
  · obtain ⟨result, hresult, h⟩ := Option.bind_eq_some_iff.mp h
    cases h
    obtain ⟨i, v', u, hi, hu⟩ := leads_of_walkItems hwalk hstraight hresult x hx
    rw [Nat.zero_add] at hu
    exact ⟨u, .item hi hu⟩
  · cases h
    cases hx

theorem placed_of_walkPlan (hstraight : Straight e (.plan p)) {fuel : Nat} {strip : Bool}
    {v : Json} {w : Walked} (h : walkPlan e fuel walk p a strip v = some w) :
    Placed a w.value w.errors := by
  unfold walkPlan at h
  -- without branches nothing happens before the parts of the value are walked over
  have hsteps : branchSteps p a = [] := by
    unfold branchSteps
    rw [(hstraight p .here).1]
    rfl
  rw [hsteps, chain, Option.bind_eq_bind, Option.bind_some] at h
  obtain ⟨parts, hparts, h⟩ := Option.bind_eq_some_iff.mp h
  cases h
  exact (placed_nil a _).append (placed_of_walkParts hwalk hstraight hparts)

/-- A validation looks at the value that its walk leaves. -/
theorem placed_of_runWith {s : CompiledSchema} {strip : Bool} {v : Json} {w : Walked}
    (hstraight : Straight e s.root) (h : runWith e walk s strip v = some w) :
    Placed ⟨"", ""⟩ w.value w.errors := by
  unfold runWith at h
  obtain ⟨inner, hinner, h⟩ := Option.bind_eq_some_iff.mp h
  cases h
  -- the evaluator is asked about what the walk leaves: both find places in one value
  have hfound : Placed ⟨"", ""⟩ inner.value
      ((s.evaluator.findings inner.value).map Finding.toFieldError) := by
    intro x hx
    obtain ⟨y, hy, rfl⟩ := List.mem_map.mp hx
    exact Evaluator.leads_of_mem_findings hy
  exact ((hfound.limit _).append (hwalk _ _ _ _ inner hstraight hinner)).limit _

end

/-- With any number of steps the walk finds violations in what it leaves: the induction is on the
steps, and a reference is where a validation starts again at the root. -/
theorem places_walk (e : Engine) (fuel : Nat) : Places e (walk e fuel) := by
  induction fuel with
  | zero =>
    intro n a strip v w _ h
    cases h
  | succ fuel ih =>
    intro n a strip v w hstraight h
    by_cases hn : ∃ p, n = .plan p
    · obtain ⟨p, rfl⟩ := hn
      exact placed_of_walkPlan ih hstraight h
    · rw [walk_of_reference (not_exists.mp hn)] at h
      split at h
      · cases h
        exact placed_nil a v
      · next s hs =>
        obtain ⟨inner, hinner, h⟩ := Option.bind_eq_some_iff.mp h
        cases h
        exact (placed_of_runWith ih (hstraight.of_reaches (.reference .here hs)) hinner).rebased

end Normalization

/-! ## Schemas without branches and patterns -/

namespace Planning

/-- No schema at a position that plans follow has branches or patterns. -/
def Unbranched (d : Json) : Prop :=
  ∀ around members, d = fill around (.obj members) →
    Fields.contains members "allOf" = false ∧ Fields.contains members "patternProperties" = false

theorem Unbranched.inside {d t : Json} (hd : Unbranched d) (h : Inside d t) : Unbranched t := by
  obtain ⟨F, rfl⟩ := h
  intro around members ht
  exact hd (F :: around) members (congrArg F.fill ht)

/-- There are no branches and patterns in a schema if it has none and there are none in the schemas
inside it. -/
theorem unbranched_of_inside {members : Fields Json}
    (h : Fields.contains members "allOf" = false ∧
      Fields.contains members "patternProperties" = false)
    (hinside : ∀ t, Inside (.obj members) t → Unbranched t) : Unbranched (.obj members) := by
  intro around inner hd
  cases around with
  | nil =>
    obtain rfl := Json.obj.inj hd
    exact h
  | cons F rest => exact hinside _ ⟨F, hd⟩ rest inner rfl

end Planning

namespace Engine

open Normalization Planning

variable {o : Options} {r : Registry} {e : Engine} {f : Fragment} {s : CompiledSchema} {v : Json}

theorem straight_of_unbranched (hr : ofRegistry o r = .ok e)
    (hregistry : ∀ handle g, r.get? handle = some g → Unbranched g.document)
    (hs : e.compile f = .ok s) (hf : Unbranched f.document) : Straight e s.root := by
  have hinherited : Inherited r Unbranched := ⟨fun d t hd ht => hd.inside ht, hregistry⟩
  obtain ⟨_, hroot, -⟩ := compiled_of_compile hs
  intro p hp
  obtain ⟨d, document, hd, hplans⟩ := belongs_of_reaches hr hinherited ⟨_, _, hf, hroot⟩ hp
  cases hplans with
  | always b => exact ⟨rfl, rfl⟩
  | @keywords members documents _ hm h =>
    obtain ⟨hbranches, hpatterns⟩ := hd [] members rfl
    constructor
    · rcases allOf_of_plansKeywords h with ⟨hnil, -⟩ | ⟨xs, docs, hxs, -, -⟩
      · exact hnil
      · rw [(Fields.contains_iff members "allOf").mpr ⟨_, hxs⟩] at hbranches
        cases hbranches
    · rcases patterns_of_plansKeywords h with ⟨hnil, -⟩ | ⟨entries, docs, hes, -, -⟩
      · exact hnil
      · rw [(Fields.contains_iff members "patternProperties").mpr ⟨_, hes⟩] at hpatterns
        cases hpatterns

theorem placed_validate (h : Straight e s.root) (v : Json) :
    Placed ⟨"", ""⟩ (e.validate s v).value (e.validate s v).verdict.errors := by
  unfold validate
  split
  · next w hw =>
    obtain ⟨fuel, hrun⟩ := firstOutcome_eq_some hw
    rw [Verdict.ofErrors_errors]
    exact placed_of_runWith (places_walk e fuel) h hrun
  · intro x hx
    obtain rfl := List.mem_singleton.mp hx
    exact ⟨v, .here⟩

/-- A validation that fails reports a violation. -/
theorem exists_mem_errors (h : (e.validate s v).verdict.success = false) :
    ∃ x, x ∈ (e.validate s v).verdict.errors := by
  unfold validate at h ⊢
  split at h
  · rw [Verdict.ofErrors_success] at h
    rw [Verdict.ofErrors_errors]
    exact List.isEmpty_eq_false_iff_exists_mem.mp h
  · exact ⟨_, List.mem_singleton.mpr rfl⟩

/-- Every violation that is reported is at a place of the value that validation leaves, if there are
no branches and no patterns where plans follow the schemas: however deep references are nested and
whatever characters there are in names. -/
theorem exists_resolve?_of_mem_errors (hr : ofRegistry o r = .ok e)
    (hregistry : ∀ handle g, r.get? handle = some g → g.document.Ordered ∧ Unbranched g.document)
    (hs : e.compile f = .ok s) (hf : f.document.Ordered ∧ Unbranched f.document)
    (hv : v.Ordered) : ∀ x ∈ (e.validate s v).verdict.errors,
      ∃ u, Json.Pointer.resolve? (e.validate s v).value x.instancePath = some u := by
  have hstraight := straight_of_unbranched hr (fun handle g hg => (hregistry handle g hg).2) hs hf.2
  have hordered := ordered_validate hr (fun handle g hg => (hregistry handle g hg).1) hs hf.1 hv
  intro x hx
  obtain ⟨u, hu⟩ := placed_validate hstraight v x hx
  exact ⟨u, Json.Pointer.resolve?_of_leads hordered hu⟩

/-! ### A name that is written differently -/

/-- A reference to whole numbers under a name that has to be escaped in a pointer. -/
def slashed : Fragment :=
  .ofMembers [("properties", .obj [("a/b~c", (Marker.inline (typed .integer)).toJson)])]

/-- A text under this name. -/
def slashedText : Json := .obj [("a/b~c", .str "x")]

/-- The plan for it, with the evaluator of the reference. -/
def slashedPlan (l : Library) : Plan Node :=
  { Plan.empty with properties := [("a/b~c", typedNode l .integer)] }

theorem unbranched_slashed : Unbranched slashed.document := by
  have htyped : Unbranched (typed .integer).document := by
    refine unbranched_of_inside ⟨rfl, rfl⟩ (fun t ht => ?_)
    rcases inside_cases ht with ⟨slot, hslot⟩ | hkey
    · cases slot <;> simp [Slot.keyword] at hslot
    · simp [Marker.key] at hkey
  have hmarker : Unbranched (Marker.inline (typed .integer)).toJson := by
    refine unbranched_of_inside ⟨rfl, rfl⟩ (fun t ht => ?_)
    rcases inside_cases ht with ⟨slot, hslot⟩ | hkey
    · cases slot <;> simp [Slot.keyword, Marker.key] at hslot
    · obtain rfl : (typed .integer).document = t := by simpa using hkey
      exact htyped
  refine unbranched_of_inside ⟨rfl, rfl⟩ (fun t ht => ?_)
  rcases inside_cases ht with ⟨slot, hslot⟩ | hkey
  · cases slot with
    | property before name after =>
      have hentries : before ++ (name, t) :: after =
          [("a/b~c", (Marker.inline (typed .integer)).toJson)] := by
        simpa [Slot.keyword, Slot.value] using hslot
      have hmem : (name, t) ∈ before ++ (name, t) :: after :=
        List.mem_append_right _ List.mem_cons_self
      rw [hentries] at hmem
      cases List.mem_singleton.mp hmem
      exact hmarker
    | _ => simp [Slot.keyword] at hslot
  · simp [Marker.key] at hkey

theorem exists_compile_slashed (o : Options) : ∃ l s, (ofOptions o).compile slashed = .ok s ∧
    s.root = .plan (slashedPlan l) := by
  obtain ⟨l, hnode⟩ := exists_node_typed o .integer
    (Json.Pointer.child (Json.Pointer.child "" "properties") "a/b~c")
  have hmembers : Planning.node (ofOptions o).context slashed.document "" =
      .ok (.plan (slashedPlan l), .obj [("properties", .obj [("a/b~c", .bool true)])]) := by
    have hmarker : Marker.ofMembers?
        [("properties", .obj [("a/b~c", (Marker.inline (typed .integer)).toJson)])] = none := rfl
    simp only [slashed, Fragment.ofMembers, Planning.node, hmarker, Planning.keywords,
      Planning.keyword, Planning.entries, Planning.memberNodes, hnode]
    rfl
  obtain ⟨l', hs⟩ := compile_of_basic o slashed rfl hmembers (.single (.property (.bool true)))
  exact ⟨l, _, hs, rfl⟩

theorem success_slashedText {l : Library} (hroot : s.root = .plan (slashedPlan l)) :
    ((ofOptions .standard).validate s slashedText).verdict.success = false := by
  have htext : Turns (ofOptions .standard) (typedNode l .integer) true (.str "x") (.str "x")
      false := by
    have hplan : Turns (ofOptions .standard) (.plan { Plan.empty with types := [.integer] }) true
        (.str "x") (.str "x") true := turns_plan_iff.mpr ⟨_, _, _, .nil, .scalar rfl, rfl⟩
    have hreference := Turns.reference (n := typedNode l .integer) rfl hplan
    dsimp only [typed, Fragment.ofMembers] at hreference
    rw [Evaluator.accepts_type] at hreference
    exact hreference
  have hready : prepared (ofOptions .standard) 1 (slashedPlan l) true [("a/b~c", .str "x")] =
      some [("a/b~c", .str "x")] := (prepared_of_straight rfl rfl rfl 1 _).trans rfl
  have hobject : Turns (ofOptions .standard) (.plan (slashedPlan l)) true slashedText slashedText
      false :=
    turns_plan_iff.mpr ⟨_, _, _, .nil, .object ⟨1, hready⟩ (.cons (.cons htext .nil) .nil), rfl⟩
  have hleaves : Leaves (ofOptions .standard) s slashedText slashedText false :=
    ⟨false, hroot ▸ hobject, (Bool.and_false _).symm⟩
  exact (validate_of_leaves hleaves).2

theorem exists_resolve?_slashed : ∃ e s x, ofRegistry .standard .empty = .ok e ∧
    (∀ handle g, Registry.empty.get? handle = some g →
      g.document.Ordered ∧ Unbranched g.document) ∧
    e.compile slashed = .ok s ∧ (slashed.document.Ordered ∧ Unbranched slashed.document) ∧
    slashedText.Ordered ∧ x ∈ (e.validate s slashedText).verdict.errors ∧
    ∃ u, Json.Pointer.resolve? (e.validate s slashedText).value x.instancePath = some u := by
  obtain ⟨l, s, hs, hroot⟩ := exists_compile_slashed .standard
  have hregistry : ∀ handle g, Registry.empty.get? handle = some g →
      g.document.Ordered ∧ Unbranched g.document := by
    intro handle g hget
    cases hget
  have hf : slashed.document.Ordered ∧ Unbranched slashed.document := by
    refine ⟨?_, unbranched_slashed⟩
    simp only [slashed, typed, Fragment.ofMembers, Marker.toJson, Json.Ordered, Json.OrderedMembers,
      Fields.Ordered, and_true]
    decide
  have hv : slashedText.Ordered := by
    simp only [slashedText, Json.Ordered, Json.OrderedMembers, Fields.Ordered, and_true]
    decide
  have hresolves := exists_resolve?_of_mem_errors (ofRegistry_empty .standard) hregistry hs hf hv
  obtain ⟨x, hx⟩ := exists_mem_errors (success_slashedText hroot)
  exact ⟨_, s, x, ofRegistry_empty _, hregistry, hs, hf, hv, hx, hresolves x hx⟩

end Engine

end HttpContract
