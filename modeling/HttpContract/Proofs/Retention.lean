import HttpContract.Proofs.Sites
import HttpContract.Proofs.Survival

/-!
# What is never lost

A part of a value can be dropped in one call of a walk and filled in again by a later one, so that
something stands at its place in the end. A part is retained if it is there in the end and no call
of the walk has missed it (`Engine.Retains`). That depends on the schemas alone: a part is retained
exactly if no schema that the walk comes to on the way, at the place of the schema itself, drops the
next step (`Engine.retains_iff`).
-/

namespace HttpContract.Normalization

variable {e : Engine}

/-! ## Missing parts -/

/-- Some call of the walk along `n` over `v` comes to a place on the path where the next step is
missing. -/
inductive Misses (e : Engine) : Node → (strip : Bool) → Json → List Step → Prop where
  | here {n : Node} {strip : Bool} {v : Json} {step : Step} {rest : List Step}
      (h : v.child? step = none) : Misses e n strip v (step :: rest)
  | reference {n : Node} {s : CompiledSchema} {strip : Bool} {v : Json} {path : List Step}
      (hs : e.resolve? n = some s) (h : Misses e s.root strip v path) : Misses e n strip v path
  | branch {p : Plan Node} {n : Node} {strip : Bool} {v x : Json} {path : List Step}
      (hn : Entered e false p.allOf (coerced e.options p.types v) n x)
      (h : Misses e n false x path) : Misses e (.plan p) strip v path
  | part {p : Plan Node} {n : Node} {strip clean : Bool} {v u x y : Json} {step : Step}
      {rest : List Step} (hbranches : Runs e false p.allOf (coerced e.options p.types v) u clean)
      (hx : u.child? step = some x)
      (hkept : ∀ key, step = .key key → ¬ (strip = true ∧ Drops e p key))
      (hn : Entered e true (partNodes p step) x n y) (h : Misses e n true y rest) :
      Misses e (.plan p) strip v (step :: rest)

/-- The part at the path is missing at some call of the walk or in the end. -/
def Loses (e : Engine) (n : Node) (strip : Bool) (v w : Json) (path : List Step) : Prop :=
  Misses e n strip v path ∨ w.part? path = none

/-- The part at the path is missing at some call of the walk along the nodes or in the end. -/
def LosesAlong (e : Engine) (strip : Bool) (nodes : List Node) (v w : Json) (path : List Step) :
    Prop :=
  (∃ n u, Entered e strip nodes v n u ∧ Misses e n strip u path) ∨ w.part? path = none

theorem Loses.reference {n : Node} {s : CompiledSchema} {strip : Bool} {v w : Json}
    {path : List Step} (hs : e.resolve? n = some s) (h : Loses e s.root strip v w path) :
    Loses e n strip v w path :=
  h.imp (.reference hs) id

theorem losesAlong_cons {n : Node} {rest : List Node} {strip clean : Bool} {v u w : Json}
    {path : List Step} (hturns : Turns e n strip v u clean) (hfirst : Loses e n strip v u path)
    (hrest : u.part? path = none → LosesAlong e strip rest u w path) :
    LosesAlong e strip (n :: rest) v w path := by
  rcases hfirst with hmisses | hu
  · exact Or.inl ⟨n, v, entered_cons_iff.mpr (Or.inl ⟨rfl, rfl⟩), hmisses⟩
  · rcases hrest hu with ⟨m, x, hm, hmisses⟩ | hw
    · exact Or.inl ⟨m, x, entered_cons_iff.mpr (Or.inr ⟨u, clean, hturns, hm⟩), hmisses⟩
    · exact Or.inr hw

theorem losesAlong_tail {n : Node} {rest : List Node} {strip clean : Bool} {v u w : Json}
    {path : List Step} (hturns : Turns e n strip v u clean)
    (hrest : LosesAlong e strip rest u w path) : LosesAlong e strip (n :: rest) v w path := by
  rcases hrest with ⟨m, x, hm, hmisses⟩ | hw
  · exact Or.inl ⟨m, x, entered_cons_iff.mpr (Or.inr ⟨u, clean, hturns, hm⟩), hmisses⟩
  · exact Or.inr hw

/-! ## Parts before and after -/

theorem child?_of_isScalar {v : Json} (hv : isScalar v = true) (step : Step) :
    v.child? step = none := by
  cases v with
  | obj members => cases hv
  | arr items => cases hv
  | _ => rfl

theorem part?_coerced_eq_none (o : Options) (types : List JsonType) {v : Json} {step : Step}
    {rest : List Step} (hv : v.part? (step :: rest) = none) :
    (coerced o types v).part? (step :: rest) = none := by
  rcases eq_or_isScalar_coerced o types v with heq | ⟨-, hscalar⟩
  · rw [heq, hv]
  · rw [Json.part?_cons, child?_of_isScalar hscalar]
    rfl

/-- Branches drop nothing at their place. -/
theorem exists_child?_of_runs {nodes : List Node} {clean : Bool} {v w x : Json} {step : Step}
    (h : Runs e false nodes v w clean) (hx : v.child? step = some x) :
    ∃ y, w.child? step = some y := by
  rw [← Option.isSome_iff_exists]
  cases v with
  | obj members =>
    rcases h.alike.eq_obj with ⟨members', rfl⟩
    cases step with
    | key key => exact contains_of_runs h rfl members members' rfl rfl key (by
        rw [Fields.contains]
        exact Option.isSome_iff_exists.mpr ⟨x, hx⟩)
    | index i => cases hx
  | arr items =>
    cases step with
    | key key => cases hx
    | index i =>
      cases h.alike with
      | scalar hv _ => cases hv
      | list hlength =>
        have hi : i < items.length := (List.getElem?_eq_some_iff.mp hx).1
        exact Option.isSome_iff_exists.mpr ⟨_, List.getElem?_eq_getElem (by omega)⟩
  | _ => cases hx

theorem child?_eq_none_of_drops {p : Plan Node} {clean : Bool} {v w : Json} {key : String}
    (h : Parts e p true v w clean) (hdrops : Drops e p key) : w.child? (.key key) = none := by
  cases h with
  | object hready hmembers =>
    rw [← Option.not_isSome_iff_eq_none]
    intro hsome
    exact ((contains_of_parts (.object hready hmembers) key).mp hsome).2 ⟨rfl, hdrops⟩
  | list _ => rfl
  | scalar hv => exact child?_of_isScalar hv _

/-! ## What is missing once is lost -/

section

variable {p : Plan Node} {strip clean clean' : Bool} {v u w : Json} {step : Step}
  {rest : List Step}

/-- A plan loses what it drops, what is missing before it and what is lost along its nodes. -/
theorem loses_plan (hbranches : Runs e false p.allOf (coerced e.options p.types v) u clean)
    (hparts : Parts e p strip u w clean')
    (hpart : ∀ x y c, u.child? step = some x → Runs e true (partNodes p step) x y c →
      LosesAlong e true (partNodes p step) x y rest) :
    Loses e (.plan p) strip v w (step :: rest) := by
  cases hv : v.child? step with
  | none => exact Or.inl (.here hv)
  | some before =>
    rcases exists_child?_of_runs hbranches (child?_coerced _ _ hv) with ⟨x, hx⟩
    by_cases hkept : ∀ key, step = .key key → ¬ (strip = true ∧ Drops e p key)
    · rcases child?_of_parts hkept hparts hx with ⟨y, c, hy, hruns, -⟩
      rcases hpart x y c hx hruns with ⟨n, z, hn, hmisses⟩ | hnone
      · exact Or.inl (.part hbranches hx hkept hn hmisses)
      · exact Or.inr (by rw [Json.part?_cons, hy, Option.bind_some, hnone])
    · simp only [not_forall, not_not] at hkept
      rcases hkept with ⟨key, rfl, rfl, hdrops⟩
      exact Or.inr (by rw [Json.part?_cons, child?_eq_none_of_drops hparts hdrops]; rfl)

/-- Walks over a value in which the path leads nowhere lose what may come to stand there. -/
def Irrecoverable (e : Engine) (rest : List Step) : Prop :=
  ∀ nodes x y c, Runs e true nodes x y c → x.part? rest = none → LosesAlong e true nodes x y rest

theorem loses_plan_of_between (hrest : Irrecoverable e rest)
    (hbranches : Runs e false p.allOf (coerced e.options p.types v) u clean)
    (hparts : Parts e p strip u w clean') (hu : u.part? (step :: rest) = none) :
    Loses e (.plan p) strip v w (step :: rest) := by
  refine loses_plan hbranches hparts (fun x y c hx hruns => hrest _ x y c hruns ?_)
  rw [Json.part?_cons, hx] at hu
  exact hu

end

mutual

theorem loses_of_turns {n : Node} {strip clean : Bool} {v w : Json} {step : Step}
    {rest : List Step} : Turns e n strip v w clean → Irrecoverable e rest →
      v.part? (step :: rest) = none → Loses e n strip v w (step :: rest)
  | .nowhere _ _, _, hv => Or.inr hv
  | .reference hs h, hrest, hv => (loses_of_turns h hrest hv).reference hs
  | .plan (p := p) hbranches hparts, hrest, hv => by
    have hcoerced := part?_coerced_eq_none e.options p.types hv
    rcases losesAlong_of_runs hbranches hrest hcoerced with ⟨n, x, hn, hmisses⟩ | hu
    · exact Or.inl (.branch hn hmisses)
    · exact loses_plan_of_between hrest hbranches hparts hu
termination_by structural h => h

theorem losesAlong_of_runs {nodes : List Node} {strip clean : Bool} {v w : Json} {step : Step}
    {rest : List Step} : Runs e strip nodes v w clean → Irrecoverable e rest →
      v.part? (step :: rest) = none → LosesAlong e strip nodes v w (step :: rest)
  | .nil, _, hv => Or.inr hv
  | .cons h hothers, hrest, hv =>
    losesAlong_cons h (loses_of_turns h hrest hv) (losesAlong_of_runs hothers hrest)
termination_by structural h => h

end

theorem irrecoverable (path : List Step) : Irrecoverable e path := by
  induction path with
  | nil =>
    intro nodes x y c _ hnone
    simp at hnone
  | cons step rest ih => exact fun nodes x y c hruns hnone => losesAlong_of_runs hruns ih hnone

/-- What is missing from a value is missed in the walk or missing in the end. -/
theorem losesAlong_of_part?_eq_none {nodes : List Node} {strip clean : Bool} {v w : Json}
    {path : List Step} (h : Runs e strip nodes v w clean) (hv : v.part? path = none) :
    LosesAlong e strip nodes v w path := by
  cases path with
  | nil => simp at hv
  | cons step rest => exact losesAlong_of_runs h (irrecoverable rest) hv

/-! ## What is dropped is lost -/

theorem loses_of_head {n : Node} {strip clean : Bool} {v w : Json} {p : Plan Node} {key : String}
    {rest : List Step} (hdrops : Drops e p key) : Turns e n strip v w clean → strip = true →
      Head e n p → Loses e n strip v w (.key key :: rest)
  | .nowhere hn hs, _, hhead => by
    cases hhead with
    | self => exact absurd rfl (hn _)
    | reference hs' _ => simp [hs] at hs'
  | .reference hs h, hstrip, hhead =>
    (loses_of_head hdrops h hstrip ((head_iff_of_resolve? hs).mp hhead)).reference hs
  | .plan _ hparts, hstrip, hhead => by
    subst hstrip
    obtain rfl := head_plan_iff.mp hhead
    exact Or.inr (by rw [Json.part?_cons, child?_eq_none_of_drops hparts hdrops]; rfl)
termination_by structural h => h

/-- Every walk along the node loses the part. -/
def AlwaysLoses (e : Engine) (n : Node) (strip : Bool) (path : List Step) : Prop :=
  ∀ v w clean, Turns e n strip v w clean → Loses e n strip v w path

theorem losesAlong_of_mem {n : Node} {path : List Step} : ∀ {nodes : List Node} {strip clean : Bool}
    {v w : Json}, Runs e strip nodes v w clean → n ∈ nodes → AlwaysLoses e n strip path →
      LosesAlong e strip nodes v w path
  | _, _, _, _, _, .nil, hn, _ => by cases hn
  | _, _, _, _, _, .cons h hothers, hn, hloses => by
    rcases List.mem_cons.mp hn with rfl | hn
    · exact losesAlong_cons h (hloses _ _ _ h) (losesAlong_of_part?_eq_none hothers)
    · exact losesAlong_tail h (losesAlong_of_mem hothers hn hloses)

/-- What is lost along a node that a plan names for a part is lost wherever the plan applies. -/
theorem alwaysLoses_of_applies {n m : Node} {q : Plan Node} {step : Step} {rest : List Step}
    (hq : Applies e n q) (hm : m ∈ partNodes q step) (hloses : AlwaysLoses e m true rest) :
    ∀ strip, AlwaysLoses e n strip (step :: rest) := by
  induction hq with
  | self =>
    intro strip v w clean h
    rcases turns_plan_iff.mp h with ⟨u, first, others, hbranches, hparts, -⟩
    exact loses_plan hbranches hparts (fun x y c _ hruns => losesAlong_of_mem hruns hm hloses)
  | branch hbranch _ ih =>
    intro strip v w clean h
    rcases turns_plan_iff.mp h with ⟨u, first, others, hbranches, hparts, -⟩
    rcases losesAlong_of_mem hbranches hbranch (ih hm false) with ⟨k, x, hk, hmisses⟩ | hu
    · exact Or.inl (.branch hk hmisses)
    · exact loses_plan_of_between (irrecoverable rest) hbranches hparts hu
  | reference hs _ ih =>
    intro strip v w clean h
    rcases (turns_iff_of_resolve? hs).mp h with ⟨inner, hinner, -⟩
    exact (ih hm strip v w inner hinner).reference hs

theorem alwaysLoses_of_below {m : Node} {p : Plan Node} {key : String} {rest : List Step}
    (hhead : Head e m p) (hdrops : Drops e p key) : ∀ {front : List Step} {S : Site},
      S.below e front m → ∃ n, S n ∧ AlwaysLoses e n true (front ++ .key key :: rest) := by
  intro front
  induction front with
  | nil => exact fun {S} hm => ⟨m, hm, fun v w clean h => loses_of_head hdrops h rfl hhead⟩
  | cons step front ih =>
    intro S hm
    obtain ⟨k, ⟨q, ⟨n, hn, hq⟩, hk⟩, hloses⟩ := ih (S := S.part e step) hm
    exact ⟨n, hn, alwaysLoses_of_applies hq hk hloses true⟩

/-! ## What is not dropped is not lost -/

/-- No plan that a node comes to on the way drops the next step. -/
def Site.Spares (e : Engine) (S : Site) (path : List Step) : Prop :=
  ∀ front step rest, path = front ++ step :: rest → (S.below e front).Spared e step

variable {S : Site}

theorem Site.Spares.nil (S : Site) : S.Spares e [] := by
  intro front step rest hpath
  simp at hpath

theorem Site.Spares.cons {step : Step} {rest : List Step} (h : S.Spared e step)
    (hrest : (S.part e step).Spares e rest) : S.Spares e (step :: rest) := by
  intro front next rest' hpath
  rcases List.cons_eq_append_iff.mp hpath with ⟨rfl, hnext⟩ | ⟨front', rfl, hrest'⟩
  · obtain ⟨rfl, -⟩ := List.cons_eq_cons.mp hnext
    exact h
  · exact hrest front' next rest' hrest'

theorem Site.Spares.head {step : Step} {rest : List Step} (h : S.Spares e (step :: rest)) :
    S.Spared e step :=
  h [] step rest rfl

theorem Site.Spares.tail {step : Step} {rest : List Step} (h : S.Spares e (step :: rest)) :
    (S.part e step).Spares e rest := by
  rintro front next rest' rfl
  exact h (step :: front) next rest' rfl

theorem Site.spared_of_declaresOwn {p : Plan Node} {key : String}
    (h : p.declaresOwn key = true) : Site.Spared e (· = .plan p) (.key key) := by
  rintro key' hkey n q rfl hhead ⟨-, -, -, hdeclares⟩
  obtain rfl := head_plan_iff.mp hhead
  obtain rfl := Step.key.inj hkey
  exact hdeclares ⟨q, .self, h⟩

theorem Site.part_eq_of_plan {p : Plan Node} {step : Step} {m : Node} (hallOf : p.allOf = [])
    (hm : partNodes p step = [m]) : Site.part e (· = .plan p) step = (· = m) := by
  funext n
  refine propext ⟨?_, ?_⟩
  · rintro ⟨q, ⟨_, rfl, hq⟩, hn⟩
    rcases applies_plan_iff.mp hq with rfl | ⟨k, hk, -⟩
    · rw [hm] at hn
      exact List.mem_singleton.mp hn
    · rw [hallOf] at hk
      cases hk
  · rintro rfl
    exact ⟨p, ⟨_, rfl, .self⟩, by rw [hm]; exact List.mem_singleton_self _⟩

/-- A part that no plan drops is there to the end, as the schemas at its place leave it. -/
theorem part?_of_evolves {path : List Step} : ∀ {S : Site} {v w x : Json}, S.Spares e path →
    Evolves e S v w → v.part? path = some x →
      ∃ y, w.part? path = some y ∧ Evolves e (S.below e path) x y := by
  induction path with
  | nil =>
    intro S v w x _ h hx
    obtain rfl : v = x := by simpa using hx
    exact ⟨w, by simp, h⟩
  | cons step rest ih =>
    intro S v w x hspares h hx
    rw [Json.part?_cons, Option.bind_eq_some_iff] at hx
    rcases hx with ⟨child, hchild, hx⟩
    rcases hspares.head.child?_of_evolves h hchild with ⟨child', hchild', hevolves⟩
    rcases ih hspares.tail hevolves hx with ⟨y, hy, hevolves'⟩
    exact ⟨y, by rw [Json.part?_cons, hchild', Option.bind_some, hy], hevolves'⟩

/-- No call misses a part that no plan drops. -/
theorem not_misses {n : Node} {strip : Bool} {v : Json} {path : List Step}
    (h : Misses e n strip v path) : ∀ {S : Site} {x : Json}, Happens e S n strip →
      S.Spares e path → v.part? path ≠ some x := by
  induction h with
  | here hnone =>
    intro S x _ _ hx
    rw [Json.part?_cons, hnone] at hx
    cases hx
  | reference hs _ ih => exact fun hn hspares => ih (hn.reference hs) hspares
  | @branch p n strip v u path hbranch _ ih =>
    intro S x hn hspares hx
    rcases hbranch with ⟨before, after, clean, hnodes, hruns⟩
    have hmem : ∀ m ∈ before, Happens e S m false :=
      fun m hm => hn.branch (by rw [hnodes]; exact List.mem_append_left _ hm)
    have hevolves : Evolves e S v u :=
      (Relation.ReflTransGen.single (.converted (hn.applies p .self))).trans
        (evolves_of_runs hruns hmem)
    rcases part?_of_evolves hspares hevolves hx with ⟨y, hy, -⟩
    exact ih (hn.branch (by rw [hnodes]; simp)) hspares hy
  | @part p n strip clean v u c y step rest hbranches hc _ hpart _ ih =>
    intro S x hn hspares hx
    have hevolves : Evolves e S v u :=
      (Relation.ReflTransGen.single (.converted (hn.applies p .self))).trans
        (evolves_of_runs hbranches (fun m hm => hn.branch hm))
    rcases part?_of_evolves hspares hevolves hx with ⟨z, hz, -⟩
    rw [Json.part?_cons, hc, Option.bind_some] at hz
    rcases hpart with ⟨before, after, clean, hnodes, hruns⟩
    have hmem : ∀ m ∈ partNodes p step, S.part e step m :=
      fun m hm => ⟨p, hn.applies p .self, hm⟩
    have hbefore : Evolves e (S.part e step) c y := evolves_of_runs hruns
      (fun m hm => happens_of_mem (hmem m (by rw [hnodes]; exact List.mem_append_left _ hm)) true)
    rcases part?_of_evolves hspares.tail hbefore hz with ⟨z', hz', -⟩
    exact ih (happens_of_mem (hmem n (by rw [hnodes]; simp)) true) hspares.tail hz'

end HttpContract.Normalization

namespace HttpContract.Engine

open Normalization

variable {e : Engine} {s : CompiledSchema} {v x : Json} {path : List Step}

/-- Validation leaves something at the path, and it has been there whenever a call of the walk came
by: it was neither dropped nor filled in by a default. -/
def Retains (e : Engine) (s : CompiledSchema) (v : Json) (path : List Step) : Prop :=
  (∃ y, (e.validate s v).value.part? path = some y) ∧ ¬ Misses e s.root true v path

/-- A part of a value is retained exactly if of all schemas that apply on the way to it none, with
its branches, strips the next step without declaring it. It then is what the schemas at its place
make of it. -/
theorem retains_iff (hends : Ends e s v) (hx : v.part? path = some x) :
    (Retains e s v path ↔ Site.Spares e (· = s.root) path) ∧
      (Retains e s v path → ∃ y, (e.validate s v).value.part? path = some y ∧
        Evolves e (Site.below e (· = s.root) path) x y) := by
  rcases ends_iff_exists_turns.mp hends with ⟨w, clean, hturns⟩
  have hroot : Happens e (· = s.root) s.root true := happens_of_mem (S := (· = s.root)) rfl true
  have hspares : Retains e s v path → Site.Spares e (· = s.root) path := by
    rintro ⟨⟨y, hy⟩, hnot⟩ front step rest rfl key rfl m p hm hhead hdrops
    obtain ⟨n, rfl, hloses⟩ : ∃ n, n = s.root ∧
        AlwaysLoses e n true (front ++ .key key :: rest) :=
      alwaysLoses_of_below hhead hdrops hm
    rw [value_of_turns hturns] at hy
    rcases hloses v w clean hturns with hmisses | hnone
    · exact hnot hmisses
    · simp [hnone] at hy
  have hevolves : Site.Spares e (· = s.root) path → ∃ y,
      (e.validate s v).value.part? path = some y ∧
        Evolves e (Site.below e (· = s.root) path) x y := by
    intro h
    rw [value_of_turns hturns]
    exact part?_of_evolves h (evolves_of_turns hturns hroot) hx
  refine ⟨⟨hspares, fun h => ?_⟩, fun h => hevolves (hspares h)⟩
  rcases hevolves h with ⟨y, hy, -⟩
  exact ⟨⟨y, hy⟩, fun hmisses => not_misses hmisses hroot h hx⟩

/-- An object with one property, itself an object with one property. -/
def within (name : String) : Fragment :=
  .ofMembers [("properties", .obj [("a", (declaring name).document)])]

theorem basic_within (name : String) : Basic (within name).document :=
  .single (.property (basic_declaring name))

/-- The plan for it. -/
def withinPlan (name : String) : Plan Node :=
  { Plan.empty with
    properties := [("a", .plan { Plan.empty with properties := [(name, .plan Plan.empty)] })] }

/-- A value with one property more than declared. -/
def twoWithin : Json := .obj [("a", .obj [("x", .ofNat 1), ("y", .ofNat 2)])]

theorem spares_withinPlan (e : Engine) (name : String) :
    Site.Spares e (· = .plan (withinPlan name)) [.key "a", .key name] := by
  have hname : Fields.contains [(name, Node.plan Plan.empty)] name = true := by simp
  refine .cons (Site.spared_of_declaresOwn rfl) ?_
  rw [Site.part_eq_of_plan rfl rfl]
  refine .cons (Site.spared_of_declaresOwn ?_) (.nil _)
  simp [Plan.declaresOwn, hname]

theorem retains_iff_within : ∃ e s, ofRegistry .standard .empty = .ok e ∧
    e.compile (within "x") = .ok s ∧ Ends e s twoWithin ∧
    twoWithin.part? [.key "a", .key "x"] = some (.ofNat 1) ∧
    Retains e s twoWithin [.key "a", .key "x"] ∧
    ∃ y, (e.validate s twoWithin).value.part? [.key "a", .key "x"] = some y ∧
      Evolves e (Site.below e (· = s.root) [.key "a", .key "x"]) (.ofNat 1) y := by
  rcases compile_of_basic .standard (within "x") rfl rfl (basic_within "x") with ⟨l, hs⟩
  have hends : Ends (ofOptions .standard) ⟨.plan (withinPlan "x"),
      ⟨l, Evaluator.defaultBase, (within "x").document⟩, (within "x").document⟩ twoWithin :=
    ⟨4, rfl⟩
  have hx : twoWithin.part? [.key "a", .key "x"] = some (.ofNat 1) := rfl
  have hretains := (retains_iff hends hx).1.mpr (spares_withinPlan _ "x")
  exact ⟨_, _, ofRegistry_empty _, hs, hends, hx, hretains, (retains_iff hends hx).2 hretains⟩

/-- Two branches for one object; each drops what the other declares. -/
def conflicting : Fragment :=
  .ofMembers [("allOf", .arr [(within "x").document, (within "y").document])]

/-- The plan for it. -/
def conflictingPlan : Plan Node :=
  { Plan.empty with allOf := [.plan (withinPlan "x"), .plan (withinPlan "y")] }

theorem basic_conflicting : Basic conflicting.document := by
  refine .single (.allOf (List.cons_ne_nil _ _) (fun v hv => ?_))
  rcases List.mem_pair.mp hv with rfl | rfl
  · exact basic_within "x"
  · exact basic_within "y"

/-- A property that one of the schemas at its place declares is dropped, though the object is
there to the end. -/
theorem not_retains_conflicting : ∃ e s q, ofRegistry .standard .empty = .ok e ∧
    e.compile conflicting = .ok s ∧ Ends e s twoWithin ∧
    (Site.below e (· = s.root) [.key "a"]).Has e q ∧ q.declaresOwn "x" = true ∧
    twoWithin.part? [.key "a", .key "x"] = some (.ofNat 1) ∧
    (e.validate s twoWithin).value.part? [.key "a"] = some (.obj []) ∧
    (e.validate s twoWithin).value.part? [.key "a", .key "x"] = none := by
  rcases compile_of_basic .standard conflicting rfl rfl basic_conflicting with ⟨l, hs⟩
  generalize hsame : (⟨.plan conflictingPlan, ⟨l, Evaluator.defaultBase, conflicting.document⟩,
    conflicting.document⟩ : CompiledSchema) = s
  have hvalue : ((ofOptions .standard).validate s twoWithin).value = .obj [("a", .obj [])] := by
    subst hsame
    exact value_of_walk 5 ⟨.obj [("a", .obj [])], []⟩ rfl
  have hbranch : Applies (ofOptions .standard) (.plan conflictingPlan) (withinPlan "x") :=
    .branch List.mem_cons_self .self
  refine ⟨_, s, { Plan.empty with properties := [("x", .plan Plan.empty)] }, ofRegistry_empty _, ?_,
    ?_, ?_, rfl, rfl, by rw [hvalue]; rfl, by rw [hvalue]; rfl⟩
  all_goals subst hsame
  · exact hs
  · exact ⟨5, rfl⟩
  · exact ⟨_, ⟨withinPlan "x", ⟨_, rfl, hbranch⟩, List.mem_cons_self⟩, .self⟩

end HttpContract.Engine
