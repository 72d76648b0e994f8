import HttpContract.Proofs.Places
import HttpContract.Proofs.Walk

/-!
# Where a walk comes to

`Visits` lists the calls that a walk along a node makes: each goes along another node, over the
value that the calls before it have left, and stands at some place below the start. `Reaches` names
the nodes that such a walk can go along at all.
-/

namespace HttpContract.Normalization

variable {e : Engine}

/-! ## Calls -/

/-- Walking along the nodes over `v`, the walk comes to `n` when `u` is left. -/
def Entered (e : Engine) (strip : Bool) (nodes : List Node) (v : Json) (n : Node) (u : Json) :
    Prop :=
  ∃ before after clean, nodes = before ++ n :: after ∧ Runs e strip before v u clean

/-- Walking along the plan over `v`, the walk comes to `n` at a part of the value when `u` is left
there. -/
inductive PartEntered (e : Engine) (p : Plan Node) (strip : Bool) (v : Json) :
    (step : Step) → (n : Node) → (u : Json) → Prop where
  | member {members ready : Fields Json} {clean : Bool} {key : String} {x u : Json} {n : Node}
      (hbranches : Runs e false p.allOf (coerced e.options p.types v) (.obj members) clean)
      (hready : ∃ fuel, prepared e fuel p strip members = some ready) (hmem : (key, x) ∈ ready)
      (h : Entered e true (memberNodes p key) x n u) : PartEntered e p strip v (.key key) n u
  | item {items : List Json} {clean : Bool} {i : Nat} {x u : Json} {n : Node}
      (hbranches : Runs e false p.allOf (coerced e.options p.types v) (.arr items) clean)
      (hitem : items[i]? = some x) (h : Entered e true (itemNodes p i) x n u) :
      PartEntered e p strip v (.index i) n u

/-- Walking along `n` over `v`, the walk comes to `m` at a place below, when `u` is left there. The
flags say whether undeclared properties are dropped. -/
inductive Visits (e : Engine) : (n : Node) → (strip : Bool) → (v : Json) → (path : List Step) →
    (m : Node) → (strip' : Bool) → (u : Json) → Prop where
  | here {n : Node} {strip : Bool} {v : Json} : Visits e n strip v [] n strip v
  | reference {n m : Node} {s : CompiledSchema} {strip strip' : Bool} {v u : Json}
      {path : List Step} (hs : e.resolve? n = some s)
      (h : Visits e s.root strip v path m strip' u) : Visits e n strip v path m strip' u
  | branch {p : Plan Node} {n m : Node} {strip strip' : Bool} {v x u : Json} {path : List Step}
      (hn : Entered e false p.allOf (coerced e.options p.types v) n x)
      (h : Visits e n false x path m strip' u) : Visits e (.plan p) strip v path m strip' u
  | part {p : Plan Node} {n m : Node} {strip strip' : Bool} {v x u : Json} {step : Step}
      {path : List Step} (hn : PartEntered e p strip v step n x)
      (h : Visits e n true x path m strip' u) :
      Visits e (.plan p) strip v (step :: path) m strip' u

/-- The node `m` is `n` or one that the schemas within `n` are made of or refer to. -/
inductive Reaches (e : Engine) (n : Node) : Node → Prop where
  | here : Reaches e n n
  | reference {m : Node} {s : CompiledSchema} (h : Reaches e n m) (hs : e.resolve? m = some s) :
      Reaches e n s.root
  | branch {p : Plan Node} {m : Node} (h : Reaches e n (.plan p)) (hm : m ∈ p.allOf) :
      Reaches e n m
  | property {p : Plan Node} {name : String} {m : Node} (h : Reaches e n (.plan p))
      (hm : (name, m) ∈ p.properties) : Reaches e n m
  | pattern {p : Plan Node} {source : String} {m : Node} (h : Reaches e n (.plan p))
      (hm : (source, m) ∈ p.patterns) : Reaches e n m
  | additional {p : Plan Node} {m : Node} (h : Reaches e n (.plan p))
      (hm : p.additional = .schema m) : Reaches e n m
  | leading {p : Plan Node} {m : Node} (h : Reaches e n (.plan p)) (hm : m ∈ p.leading) :
      Reaches e n m
  | items {p : Plan Node} {m : Node} (h : Reaches e n (.plan p)) (hm : p.items = some m) :
      Reaches e n m

theorem Reaches.trans {n m k : Node} (h : Reaches e n m) (h' : Reaches e m k) : Reaches e n k := by
  induction h' with
  | here => exact h
  | reference _ hs ih => exact .reference ih hs
  | branch _ hm ih => exact .branch ih hm
  | property _ hm ih => exact .property ih hm
  | pattern _ hm ih => exact .pattern ih hm
  | additional _ hm ih => exact .additional ih hm
  | leading _ hm ih => exact .leading ih hm
  | items _ hm ih => exact .items ih hm

theorem reaches_of_mem_memberNodes {p : Plan Node} {key : String} {m : Node}
    (h : m ∈ memberNodes p key) : Reaches e (.plan p) m := by
  -- the node of a declared property or of a pattern that matches
  have hlisted : m ∈ (Fields.get? p.properties key).toList ++ (p.matching key).map (·.2) →
      Reaches e (.plan p) m := by
    intro hm
    rcases List.mem_append.mp hm with hm | hm
    · exact .property .here (Fields.mem_of_get? (Option.mem_toList.mp hm))
    · rcases List.mem_map.mp hm with ⟨⟨source, n⟩, hmem, rfl⟩
      exact .pattern .here (List.mem_filter.mp hmem).1
  unfold memberNodes at h
  split at h
  · split at h
    · next n hadditional =>
      obtain rfl : m = n := by simpa using h
      exact .additional .here hadditional
    · simp at h
  · exact hlisted h

theorem reaches_of_mem_itemNodes {p : Plan Node} {i : Nat} {m : Node} (h : m ∈ itemNodes p i) :
    Reaches e (.plan p) m := by
  unfold itemNodes at h
  split at h
  · next n hleading =>
    obtain rfl : m = n := by simpa using h
    exact .leading .here (List.mem_of_getElem? hleading)
  · exact .items .here (Option.mem_toList.mp h)

/-! ## Calls one after the other -/

theorem entered_cons_iff {strip : Bool} {m n : Node} {rest : List Node} {v u : Json} :
    Entered e strip (m :: rest) v n u ↔
      (n = m ∧ u = v) ∨ ∃ x clean, Turns e m strip v x clean ∧ Entered e strip rest x n u := by
  constructor
  · rintro ⟨before, after, clean, hnodes, hruns⟩
    cases before with
    | nil =>
      obtain ⟨rfl, -⟩ : m = n ∧ rest = after := by simpa using hnodes
      cases hruns with
      | nil => exact Or.inl ⟨rfl, rfl⟩
    | cons first before =>
      obtain ⟨rfl, rfl⟩ : m = first ∧ rest = before ++ n :: after := by simpa using hnodes
      cases hruns with
      | cons hfirst hbefore => exact Or.inr ⟨_, _, hfirst, before, after, _, rfl, hbefore⟩
  · rintro (⟨rfl, rfl⟩ | ⟨x, clean, hfirst, before, after, clean', rfl, hbefore⟩)
    · exact ⟨[], rest, true, rfl, .nil⟩
    · exact ⟨m :: before, after, _, rfl, .cons hfirst hbefore⟩

theorem Entered.mem {strip : Bool} {n : Node} {nodes : List Node} {v u : Json}
    (h : Entered e strip nodes v n u) : n ∈ nodes := by
  rcases h with ⟨before, after, _, rfl, _⟩
  simp

/-- A walk along several nodes has an outcome when each of its calls has one. -/
theorem exists_runs {strip : Bool} : ∀ {nodes : List Node} {v : Json},
    (∀ n u, Entered e strip nodes v n u → ∃ w clean, Turns e n strip u w clean) →
      ∃ w clean, Runs e strip nodes v w clean := by
  intro nodes
  induction nodes with
  | nil => exact fun _ => ⟨_, _, .nil⟩
  | cons n rest ih =>
    intro v h
    have hfirst : Entered e strip (n :: rest) v n v := entered_cons_iff.mpr (Or.inl ⟨rfl, rfl⟩)
    rcases h n v hfirst with ⟨u, clean, hturns⟩
    have hothers : ∀ m x, Entered e strip rest u m x → ∃ w c, Turns e m strip x w c := by
      intro m x hm
      exact h m x (entered_cons_iff.mpr (Or.inr ⟨u, clean, hturns, hm⟩))
    rcases ih hothers with ⟨w, clean', hrest⟩
    exact ⟨w, _, .cons hturns hrest⟩

/-! ## Outcomes of calls -/

/-- The calls of a walk that follows the rules, one after the other over the same value. -/
theorem exists_turns_of_entered {strip clean : Bool} {nodes : List Node} {v w : Json} :
    Runs e strip nodes v w clean → ∀ {n u}, Entered e strip nodes v n u →
      ∃ x c, Turns e n strip u x c ∧ (clean = true → c = true)
  | .nil, n, u, h => by simpa using h.mem
  | .cons hturns hrest, n, u, h => by
    rcases entered_cons_iff.mp h with ⟨rfl, rfl⟩ | ⟨x, c, hx, hn⟩
    · exact ⟨_, _, hturns, fun hclean => (Bool.and_eq_true_iff.mp hclean).1⟩
    · rcases hturns.unique hx with ⟨rfl, rfl⟩
      rcases exists_turns_of_entered hrest hn with ⟨y, c', hy, hc'⟩
      exact ⟨y, c', hy, fun hclean => hc' (Bool.and_eq_true_iff.mp hclean).2⟩
termination_by structural h => h

theorem runs_of_members {p : Plan Node} {key : String} {x : Json} {members members' : Fields Json}
    {clean : Bool} : Members e p members members' clean → (key, x) ∈ members →
      ∃ y c, Runs e true (memberNodes p key) x y c ∧ (clean = true → c = true)
  | .nil, hmem => by simp at hmem
  | .cons h hrest, hmem => by
    rcases List.mem_cons.mp hmem with heq | hmem
    · rcases Prod.mk.inj heq with ⟨rfl, rfl⟩
      exact ⟨_, _, h, fun hclean => (Bool.and_eq_true_iff.mp hclean).1⟩
    · rcases runs_of_members hrest hmem with ⟨y, c, hy, hc⟩
      exact ⟨y, c, hy, fun hclean => hc (Bool.and_eq_true_iff.mp hclean).2⟩
termination_by structural h => h

theorem runs_of_items {p : Plan Node} {x : Json} {index : Nat} {items items' : List Json}
    {clean : Bool} : Items e p index items items' clean → ∀ {i}, items[i]? = some x →
      ∃ y c, Runs e true (itemNodes p (index + i)) x y c ∧ (clean = true → c = true)
  | .nil, i, hitem => by simp at hitem
  | .cons h hrest, 0, hitem => by
    obtain rfl : _ = x := by simpa using hitem
    exact ⟨_, _, h, fun hclean => (Bool.and_eq_true_iff.mp hclean).1⟩
  | .cons h hrest, i + 1, hitem => by
    rcases runs_of_items hrest (i := i) (by simpa using hitem) with ⟨y, c, hy, hc⟩
    rw [show index + (i + 1) = index + 1 + i by omega]
    exact ⟨y, c, hy, fun hclean => hc (Bool.and_eq_true_iff.mp hclean).2⟩
termination_by structural h => h

theorem exists_turns_of_partEntered {p : Plan Node} {strip clean : Bool} {v w u : Json}
    {step : Step} {n : Node} (h : PartEntered e p strip v step n u)
    (hturns : Turns e (.plan p) strip v w clean) :
    ∃ x c, Turns e n true u x c ∧ (clean = true → c = true) := by
  rcases turns_plan_iff.mp hturns with ⟨left, first, others, hbranches, hparts, rfl⟩
  -- the branches leave the same for the call as for the walk, since walks have one outcome
  cases h with
  | member hbranches' hready hmem hn =>
    rcases hbranches.unique hbranches' with ⟨rfl, -⟩
    cases hparts with
    | object hready' hmembers =>
      obtain rfl := prepared_unique hready hready'
      rcases runs_of_members hmembers hmem with ⟨y, c, hruns, hc⟩
      rcases exists_turns_of_entered hruns hn with ⟨x, c', hx, hc'⟩
      exact ⟨x, c', hx, fun hclean => hc' (hc (Bool.and_eq_true_iff.mp hclean).2)⟩
    | scalar hscalar => simp [isScalar] at hscalar
  | item hbranches' hitem hn =>
    rcases hbranches.unique hbranches' with ⟨rfl, -⟩
    cases hparts with
    | list hitems =>
      rcases runs_of_items hitems hitem with ⟨y, c, hruns, hc⟩
      rw [Nat.zero_add] at hruns
      rcases exists_turns_of_entered hruns hn with ⟨x, c', hx, hc'⟩
      exact ⟨x, c', hx, fun hclean => hc' (hc (Bool.and_eq_true_iff.mp hclean).2)⟩
    | scalar hscalar => simp [isScalar] at hscalar

/-- Every call of a walk that has an outcome has one, and finds no violation when the walk finds
none. -/
theorem exists_turns_of_visits {n m : Node} {strip strip' : Bool} {v u : Json} {path : List Step}
    (h : Visits e n strip v path m strip' u) : ∀ {w clean}, Turns e n strip v w clean →
      ∃ x c, Turns e m strip' u x c ∧ (clean = true → c = true) := by
  induction h with
  | here => exact fun hturns => ⟨_, _, hturns, id⟩
  | reference hs _ ih =>
    intro w clean hturns
    rcases (turns_iff_of_resolve? hs).mp hturns with ⟨inner, hinner, rfl⟩
    rcases ih hinner with ⟨x, c, hx, hc⟩
    exact ⟨x, c, hx, fun hclean => hc (Bool.and_eq_true_iff.mp hclean).2⟩
  | branch hn _ ih =>
    intro w clean hturns
    rcases turns_plan_iff.mp hturns with ⟨left, first, others, hbranches, -, rfl⟩
    rcases exists_turns_of_entered hbranches hn with ⟨y, c, hy, hc⟩
    rcases ih hy with ⟨x, c', hx, hc'⟩
    exact ⟨x, c', hx, fun hclean => hc' (hc (Bool.and_eq_true_iff.mp hclean).1)⟩
  | part hn _ ih =>
    intro w clean hturns
    rcases exists_turns_of_partEntered hn hturns with ⟨y, c, hy, hc⟩
    rcases ih hy with ⟨x, c', hx, hc'⟩
    exact ⟨x, c', hx, fun hclean => hc' (hc hclean)⟩

end HttpContract.Normalization
