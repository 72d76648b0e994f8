import HttpContract.Proofs.Accordance
import HttpContract.Proofs.PlainTexts
import HttpContract.Proofs.Sites
import HttpContract.Proofs.Transparency

/-!
# Accepted values have texts

Rendering looks at the value as it is given, validation at what the walk leaves of it. Where the
schemas that meet at one place are consistent (`Consistent`), nothing that rendering needs is added
by the walk: a value that validation accepts can be rendered (`Engine.exists_text_of_success`).
-/

namespace HttpContract

namespace Rendering

open Normalization
open Engine (Below acc_below)

variable {e : Engine}

/-! ## Shapes always come about -/

theorem mem_keys_add {s : Shape} {p : Plan Node} {name : String}
    (h : name ∈ Fields.keys (s.add p).required) :
    name ∈ Fields.keys s.required ∨ name ∈ p.required := by
  have hfold : ∀ (names : List String) (known : Fields Unit),
      Fields.contains (names.foldl (fun ns n => Fields.insert ns n ()) known) name = true →
        Fields.contains known name = true ∨ name ∈ names := by
    intro names
    induction names with
    | nil => exact fun known h => Or.inl h
    | cons n rest ih =>
      intro known h
      rcases ih _ h with h | h
      · rw [Fields.contains_insert] at h
        rcases Bool.or_eq_true_iff.mp h with heq | h
        · exact Or.inr (List.mem_cons.mpr (Or.inl (of_decide_eq_true heq).symm))
        · exact Or.inl h
      · exact Or.inr (List.mem_cons_of_mem _ h)
  rw [← Fields.contains_iff_mem_keys] at h ⊢
  exact hfold p.required s.required h

/-- The shape `t` is collected from `s`: what it requires some plan requires, and its declarations
stay in order. -/
structure Grows (P : Plan Node → Prop) (s t : Shape) : Prop where
  required : ∀ name ∈ Fields.keys t.required,
    name ∈ Fields.keys s.required ∨ ∃ q, P q ∧ name ∈ q.required
  ordered : Fields.Ordered s.properties → Fields.Ordered t.properties

theorem exists_collectAll : ∀ {nodes : List Node},
    (∀ n ∈ nodes, ∀ s, ∃ t, Grows (Applies e n) s t ∧
      Eventually (fun fuel => collect e fuel n s) t) → ∀ s, ∃ t,
        Grows (fun q => ∃ n ∈ nodes, Applies e n q) s t ∧
          Eventually (fun fuel => nodes.foldlM (fun s n => collect e fuel n s) s) t
  | [], _, s => ⟨s, ⟨fun _ hname => Or.inl hname, id⟩, 0, fun _ _ => rfl⟩
  | n :: rest, h, s => by
    rcases h n List.mem_cons_self s with ⟨between, hfirst, least, hleast⟩
    rcases exists_collectAll (fun m hm => h m (List.mem_cons_of_mem _ hm)) between with
      ⟨t, hrest, others, hothers⟩
    refine ⟨t, ⟨fun name hname => ?_, fun hs => hrest.ordered (hfirst.ordered hs)⟩,
      max least others, fun fuel hle => ?_⟩
    · rcases hrest.required name hname with hname | ⟨q, ⟨m, hm, hq⟩, hname⟩
      · rcases hfirst.required name hname with hname | ⟨q, hq, hname⟩
        · exact Or.inl hname
        · exact Or.inr ⟨q, ⟨n, List.mem_cons_self, hq⟩, hname⟩
      · exact Or.inr ⟨q, ⟨m, List.mem_cons_of_mem _ hm, hq⟩, hname⟩
    · dsimp only at hleast ⊢
      rw [List.foldlM_cons, hleast fuel (by omega)]
      exact hothers fuel (by omega)

/-- For accepted registries every node has a shape. -/
theorem exists_collect (he : e.Acyclic) (n : Node) : ∀ s, ∃ t, Grows (Applies e n) s t ∧
    Eventually (fun fuel => collect e fuel n s) t := by
  induction acc_below he n with
  | intro n _ ih =>
    intro s
    by_cases hn : ∃ p, n = .plan p
    · rcases hn with ⟨p, rfl⟩
      rcases exists_collectAll (fun m hm => ih m (.branch hm)) (s.add p) with ⟨t, ht, hcollect⟩
      refine ⟨t, ⟨fun name hname => ?_, fun hs => ht.ordered (ordered_declareAll _ hs)⟩,
        Eventually.of_succ (by simpa only [collect] using hcollect)⟩
      rcases ht.required name hname with hname | ⟨q, hq, hname⟩
      · rcases mem_keys_add hname with hname | hname
        · exact Or.inl hname
        · exact Or.inr ⟨p, .self, hname⟩
      · exact Or.inr ⟨q, applies_plan_iff.mpr (Or.inr hq), hname⟩
    · have hplan : ∀ p, n ≠ .plan p := fun p hp => hn ⟨p, hp⟩
      cases hs : e.resolve? n with
      | none =>
        refine ⟨s, ⟨fun name hname => Or.inl hname, id⟩,
          Eventually.of_succ ⟨0, fun fuel _ => ?_⟩⟩
        simp only [collect_of_reference hplan, hs]
      | some c =>
        rcases ih c.root (.reference hs) s with ⟨t, ht, hcollect⟩
        refine ⟨t, ⟨fun name hname => ?_, ht.ordered⟩, Eventually.of_succ ?_⟩
        · rcases ht.required name hname with hname | ⟨q, hq, hname⟩
          · exact Or.inl hname
          · exact Or.inr ⟨q, .reference hs hq, hname⟩
        · simpa only [collect_of_reference hplan, hs] using hcollect

/-! ## Parts that can be rendered -/

/-- A value can be rendered along a node. -/
def Renders (e : Engine) (n : Node) (v : Json) : Prop :=
  ∀ path, ∃ x, Eventually (fun fuel => write e fuel n path v) (.ok x)

theorem exists_sequence {α β : Type} {attempt : Nat → α → Outcome β} : ∀ {xs : List α},
    (∀ x ∈ xs, ∃ y, Eventually (fun fuel => attempt fuel x) (.ok y)) →
      ∃ ys, Eventually (fun fuel => sequence (attempt fuel) xs) (.ok ys)
  | [], _ => ⟨[], 0, fun _ _ => rfl⟩
  | x :: rest, h => by
    rcases h x List.mem_cons_self with ⟨y, least, hleast⟩
    rcases exists_sequence (fun x hx => h x (List.mem_cons_of_mem _ hx)) with
      ⟨ys, others, hothers⟩
    refine ⟨y :: ys, max least others, fun fuel hle => ?_⟩
    simp only [Rendering.sequence, hleast fuel (by omega), hothers fuel (by omega)]

theorem renders_of_head {n : Node} {p : Plan Node} {v : Json} (h : Head e n p)
    (hp : Renders e (.plan p) v) : Renders e n v := by
  intro path
  rcases hp path with ⟨x, hx⟩
  exact ⟨x, h.eventually_write hx⟩

/-- A node leads to a plan, or nothing is said about the value. -/
theorem exists_head_or_renders (he : e.Acyclic) (n : Node) :
    (∃ p, Head e n p) ∨ ∀ v, Renders e n v := by
  induction acc_below he n with
  | intro n _ ih =>
    by_cases hn : ∃ p, n = .plan p
    · rcases hn with ⟨p, rfl⟩
      exact Or.inl ⟨p, .self⟩
    · have hplan : ∀ p, n ≠ .plan p := fun p hp => hn ⟨p, hp⟩
      cases hs : e.resolve? n with
      | none =>
        refine Or.inr (fun v path => ⟨v, Eventually.of_succ ⟨0, fun fuel _ => ?_⟩⟩)
        simp only [write_of_reference hplan, hs]
      | some s =>
        rcases ih s.root (.reference hs) with ⟨p, hp⟩ | hroot
        · exact Or.inl ⟨p, .reference hs hp⟩
        · refine Or.inr (fun v path => ?_)
          rcases hroot v path with ⟨x, hx⟩
          refine ⟨x, Eventually.of_succ ?_⟩
          simpa only [write_of_reference hplan, hs] using hx

/-- In ordered objects and shapes every member that is rendered is found under its key. -/
theorem renders_of_mem {shape : Shape} {members : Fields Json} {key : String} {n? : Option Node}
    {x : Json} (hshape : Fields.Ordered shape.properties) (hmembers : Fields.Ordered members)
    (h : (key, n?, x) ∈ shape.declaredMembers members ++ shape.otherMembers members) :
    Fields.get? members key = some x ∧ shape.Renders key n? := by
  rcases List.mem_append.mp h with h | h
  · rcases List.mem_filterMap.mp h with ⟨⟨name, n⟩, hn, hx⟩
    rcases Option.map_eq_some_iff.mp hx with ⟨v, hv, heq⟩
    cases heq
    exact ⟨hv, Or.inl ⟨n, rfl, Fields.get?_of_mem hshape hn⟩⟩
  · rcases List.mem_filterMap.mp h with ⟨⟨name, v⟩, hv, hx⟩
    dsimp only at hx
    split at hx
    · cases hx
    · next hcontains =>
      rcases Option.map_eq_some_iff.mp hx with ⟨n, hn, heq⟩
      cases heq
      exact ⟨Fields.get?_of_mem hmembers hv, Or.inr ⟨by simpa using hcontains, hn⟩⟩

/-- An object can be rendered if it has what the plans that apply require and its members can be
rendered along the nodes that these plans name. -/
theorem exists_object {p : Plan Node} {shape : Shape} {members : Fields Json}
    (hordered : Fields.Ordered members)
    (hshape : Gathers (Applies e (.plan p)) Shape.empty shape)
    (hgrows : Grows (Applies e (.plan p)) Shape.empty shape)
    (hrequired : ∀ q, Applies e (.plan p) q → ∀ name ∈ q.required,
      Fields.contains members name = true)
    (hmembers : ∀ q key m x, Applies e (.plan p) q → m ∈ memberNodes q key →
      Fields.get? members key = some x → Renders e m x) (path : String) :
    ∃ x, Eventually (fun fuel => object (write e fuel) shape path members) (.ok x) := by
  have hfound : (Fields.keys shape.required).find? (fun name => !Fields.contains members name) =
      none := by
    refine List.find?_eq_none.mpr (fun name hname => ?_)
    rcases hgrows.required name hname with hempty | ⟨q, hq, hname⟩
    · cases hempty
    · simp [hrequired q hq name hname]
  have hparts : ∀ x ∈ shape.declaredMembers members ++ shape.otherMembers members,
      ∃ y, Eventually (fun fuel => member (write e fuel) path x) (.ok y) := by
    rintro ⟨key, n?, x⟩ hx
    cases n? with
    | none => exact ⟨(key, x), 0, fun _ _ => rfl⟩
    | some m =>
      rcases renders_of_mem (hgrows.ordered List.Pairwise.nil) hordered hx with ⟨hget, hrenders⟩
      rcases applies_of_renders hshape hrenders with ⟨q, hq, hm⟩
      rcases hmembers q key m x hq hm hget (Json.Pointer.child path key) with ⟨y, hy⟩
      exact ⟨(key, y), hy.map _⟩
  rcases exists_sequence hparts with ⟨ys, hys⟩
  unfold object
  simp only [hfound]
  exact ⟨_, hys.map _⟩

/-- A list can be rendered if its items can be rendered along the nodes for them. -/
theorem exists_list {p : Plan Node} {items : List Json}
    (hitems : ∀ i m x, m ∈ itemNodes p i → items[i]? = some x → Renders e m x) (path : String) :
    ∃ x, Eventually (fun fuel => list (write e fuel) p path items) (.ok x) := by
  have hparts : ∀ x ∈ (List.range items.length).zip items,
      ∃ y, Eventually (fun fuel => item (write e fuel) p path x) (.ok y) := by
    rintro ⟨i, x⟩ hx
    have hget : items[i]? = some x := by
      rcases List.mem_iff_getElem?.mp hx with ⟨j, hj⟩
      rw [show (List.range items.length).zip items = Evaluation.indexed items from rfl,
        Evaluation.getElem?_indexed] at hj
      rcases Option.map_eq_some_iff.mp hj with ⟨y, hy, heq⟩
      cases heq
      exact hy
    have hnodes := itemNodes_eq p i
    unfold item
    cases hn : (p.leading[i]?).or p.items with
    | none => exact ⟨x, 0, fun _ _ => rfl⟩
    | some m =>
      rw [hn] at hnodes
      have hm : m ∈ itemNodes p i := by
        rw [hnodes]
        exact List.mem_singleton.mpr rfl
      exact hitems i m x hm hget (Json.Pointer.childIndex path i)
  rcases exists_sequence hparts with ⟨ys, hys⟩
  exact ⟨_, hys.map _⟩

/-- A value can be rendered along a plan if it converts to the declared types, has what is required
and its parts can be rendered. -/
theorem renders_plan (he : e.Acyclic) {p : Plan Node} {v : Json} (hv : v.Ordered)
    (htypes : p.types ≠ [] → coerceAny? v p.types ≠ none)
    (hrequired : ∀ members, v = .obj members → ∀ q, Applies e (.plan p) q →
      ∀ name ∈ q.required, Fields.contains members name = true)
    (hparts : ∀ q step m x, Applies e (.plan p) q → m ∈ partNodes q step →
      v.child? step = some x → Renders e m x) : Renders e (.plan p) v := by
  intro path
  obtain ⟨u, hu⟩ : ∃ u, (if p.types.isEmpty then some v else coerceAny? v p.types) = some u := by
    split
    · exact ⟨v, rfl⟩
    · next hne => exact Option.ne_none_iff_exists'.mp (htypes (by simpa using hne))
  have hsame : isScalar u = false → u = v := by
    intro hscalar
    split at hu
    · exact (Option.some.inj hu).symm
    · rcases eq_or_isScalar_of_coerceAny? hu with heq | ⟨-, hu⟩
      · exact heq
      · simp [hu] at hscalar
  suffices h : ∃ x, Eventually (fun fuel => write e (fuel + 1) (.plan p) path v) (.ok x) by
    rcases h with ⟨x, hx⟩
    exact ⟨x, hx.of_succ⟩
  simp only [write, hu]
  cases u with
  | obj members =>
    obtain rfl := hsame rfl
    rcases exists_collect he (.plan p) Shape.empty with ⟨shape, hgrows, least, hleast⟩
    have hshape : Gathers (Applies e (.plan p)) Shape.empty shape :=
      gathers_of_collect least Shape.empty _ _ (hleast least (Nat.le_refl _))
    rcases exists_object hv.1 hshape hgrows (hrequired members rfl)
      (fun q key m x hq hm hx => hparts q (.key key) m x hq hm hx) path with ⟨x, least', hleast'⟩
    dsimp only at hleast hleast'
    cases hdeclared : shape.declared with
    | true =>
      refine ⟨x, max least least', fun fuel hle => ?_⟩
      simp only [hleast (fuel + 1) (by omega), hdeclared, if_true]
      exact hleast' fuel (by omega)
    | false =>
      refine ⟨.obj members, least, fun fuel hle => ?_⟩
      simp [hleast (fuel + 1) (by omega), hdeclared]
  | arr items =>
    obtain rfl := hsame rfl
    dsimp only
    split
    · exact ⟨.arr items, 0, fun _ _ => rfl⟩
    · exact exists_list (fun i m x hm hx => hparts p (.index i) m x .self hm hx) path
  | _ => exact ⟨_, 0, fun _ _ => rfl⟩

end Rendering

namespace Normalization

open Planning (Accords)
open Rendering (Renders renders_plan renders_of_head exists_head_or_renders)

variable {o : Options} {r : Registry} {e : Engine} {S : Site}

/-! ## Passes -/

/-- While the value changes at the site, the walk passes along the node and finds no violation, and
what comes out in the end is in accordance with the node. -/
def Passes (e : Engine) (S : Site) (n : Node) (v : Json) : Prop :=
  ∃ strip u w y, Happens e S n strip ∧ Evolves e S v u ∧ Turns e n strip u w true ∧
    Evolves e S w y ∧ Accords e.context n y

/-- The evaluators of the schemas that a node refers to follow the specification in force. -/
def Specified (e : Engine) (n : Node) : Prop :=
  ∀ m s, Reaches e n m → e.resolve? m = some s →
    Library.followsSpecification s.evaluator.root = true

theorem Specified.of_reaches {n m : Node} (h : Specified e n) (hm : Reaches e n m) :
    Specified e m :=
  fun k s hk => h k s (hm.trans hk)

theorem Passes.evolves {n : Node} {v : Json} (h : Passes e S n v) :
    ∃ y, Evolves e S v y ∧ Accords e.context n y := by
  rcases h with ⟨strip, u, w, y, hn, hbefore, hturns, hafter, haccords⟩
  exact ⟨y, hbefore.trans ((evolves_of_turns hturns hn).trans hafter), haccords⟩

theorem exists_turns_of_runs {strip clean : Bool} {nodes : List Node} {v w : Json} :
    Runs e strip nodes v w clean → (∀ n ∈ nodes, Happens e S n strip) → ∀ n ∈ nodes,
      ∃ u x c, Evolves e S v u ∧ Turns e n strip u x c ∧ Evolves e S x w ∧
        (clean = true → c = true)
  | .nil, _, n, hn => by simp at hn
  | .cons h hrest, hnodes, n, hn => by
    have hothers := fun m hm => hnodes m (List.mem_cons_of_mem _ hm)
    rcases List.mem_cons.mp hn with rfl | hn
    · exact ⟨_, _, _, .refl, h, evolves_of_runs hrest hothers,
        fun hclean => (Bool.and_eq_true_iff.mp hclean).1⟩
    · rcases exists_turns_of_runs hrest hothers n hn with ⟨u, x, c, hbefore, hturns, hafter, hc⟩
      exact ⟨u, x, c, (evolves_of_turns h (hnodes _ List.mem_cons_self)).trans hbefore, hturns,
        hafter, fun hclean => hc (Bool.and_eq_true_iff.mp hclean).2⟩
termination_by structural h => h

/-- The plan that the walk passes along: the value that comes to its parts, and what it leaves. -/
theorem Passes.plan {p : Plan Node} {v : Json} (h : Passes e S (.plan p) v) :
    ∃ strip u b w y, Happens e S (.plan p) strip ∧ Evolves e S v u ∧ Runs e false p.allOf u b true ∧
      Parts e p strip b w true ∧ Evolves e S w y ∧ Accords e.context (.plan p) y := by
  rcases h with ⟨strip, u, w, y, hn, hbefore, hturns, hafter, haccords⟩
  rcases turns_plan_iff.mp hturns with ⟨b, first, others, hbranches, hparts, hclean⟩
  obtain ⟨rfl, rfl⟩ := Bool.and_eq_true_iff.mp hclean.symm
  exact ⟨strip, _, b, w, y, hn, hbefore.tail (.converted (hn.applies _ .self)), hbranches, hparts,
    hafter, haccords⟩

theorem Passes.branch {p : Plan Node} {n : Node} {v : Json} (h : Passes e S (.plan p) v)
    (hn : n ∈ p.allOf) : Passes e S n v := by
  rcases h.plan with ⟨strip, u, b, w, y, hp, hbefore, hbranches, hparts, hafter, haccords⟩
  rcases exists_turns_of_runs hbranches (fun m hm => hp.branch hm) n hn with
    ⟨u', x, c, hbefore', hturns, hafter', hc⟩
  obtain rfl := hc rfl
  have hlast : Changes e S b w :=
    .parts (hp.applies _ .self) (fun htrue => hp.head htrue _ .self) hparts
  exact ⟨false, u', x, y, hp.branch hn, hbefore.trans hbefore', hturns,
    (hafter'.tail hlast).trans hafter, haccords.branch hn⟩

/-- What a reference accepts is in accordance with the schema it refers to. -/
theorem accords_of_reference (hr : Engine.ofRegistry o r = .ok e)
    (hregistry : ∀ handle g, r.get? handle = some g → g.document.Ordered) {n : Node} {v w : Json}
    {s : CompiledSchema} (h : Accords e.context n v) (hs : e.resolve? n = some s)
    (hspecification : Library.followsSpecification s.evaluator.root = true)
    (haccepts : s.evaluator.accepts w = true) : Accords e.context s.root w := by
  rcases h with ⟨d, document, hd, hplans, -⟩
  have hinherited : Engine.Inherited r Json.Ordered :=
    ⟨fun _ _ hd ht => Planning.ordered_of_inside ht hd, hregistry⟩
  rcases Engine.compiled_of_resolve? hr hinherited ⟨d, document, hd, hplans⟩ hs with
    ⟨d', hd', hcompiled⟩
  exact Planning.accords_of_compiled hcompiled hd' hspecification haccepts

/-- A reference has judged what its own pass left. -/
theorem Passes.reference (hr : Engine.ofRegistry o r = .ok e)
    (hregistry : ∀ handle g, r.get? handle = some g → g.document.Ordered) {n : Node} {v : Json}
    {s : CompiledSchema} (h : Passes e S n v) (hs : e.resolve? n = some s)
    (hspecification : Library.followsSpecification s.evaluator.root = true) :
    Passes e S s.root v := by
  rcases h with ⟨strip, u, w, y, hn, hbefore, hturns, hafter, haccords⟩
  rcases (turns_iff_of_resolve? hs).mp hturns with ⟨inner, hinner, hclean⟩
  obtain ⟨haccepts, rfl⟩ := Bool.and_eq_true_iff.mp hclean.symm
  exact ⟨strip, u, w, w, hn.reference hs, hbefore, hinner, .refl,
    accords_of_reference hr hregistry haccords hs hspecification haccepts⟩

/-- The walk passes along every plan that applies. -/
theorem Passes.applies (hr : Engine.ofRegistry o r = .ok e)
    (hregistry : ∀ handle g, r.get? handle = some g → g.document.Ordered) {n : Node}
    {q : Plan Node} {v : Json} (h : Passes e S n v) (hspecified : Specified e n)
    (hq : Applies e n q) : Passes e S (.plan q) v := by
  induction hq with
  | self => exact h
  | branch hm _ ih => exact ih (h.branch hm) (hspecified.of_reaches (.branch .here hm))
  | reference hs _ ih =>
    exact ih (h.reference hr hregistry hs (hspecified _ _ .here hs))
      (hspecified.of_reaches (.reference .here hs))

/-- The walk passes along the nodes for the parts of the value, at their own sites. -/
theorem Passes.part (hS : S.Consistent e) {p : Plan Node} {n : Node} {v x : Json} {step : Step}
    (h : Passes e S (.plan p) v) (hn : n ∈ partNodes p step) (hx : v.child? step = some x) :
    Passes e (S.part e step) n x := by
  rcases h.plan with ⟨strip, u, b, w, y, hp, hbefore, hbranches, hparts, hafter, haccords⟩
  have hself : S.Has e p := hp.applies _ .self
  have hstrip : strip = true → ∃ m, S m ∧ Head e m p := fun htrue => hp.head htrue _ .self
  rcases child?_of_evolves hS hself hn
    (hbefore.trans (evolves_of_runs hbranches (fun m hm => hp.branch hm))) hx with ⟨x', hx', hfirst⟩
  rcases child?_of_parts (hS.kept hself hn hstrip) hparts hx' with ⟨z, c, hz, hruns, hc⟩
  rcases child?_of_evolves hS hself hn hafter hz with ⟨y', hy', hlast⟩
  have hmem : ∀ m ∈ partNodes p step, S.part e step m := fun m hm => ⟨p, hself, hm⟩
  rcases exists_turns_of_runs hruns (fun m hm => happens_of_mem (hmem m hm) true) n hn with
    ⟨x'', z', c', hbefore', hturns, hafter', hc'⟩
  obtain rfl := hc' (hc rfl)
  refine ⟨true, x'', z', y', happens_of_mem (hmem n hn) true, hfirst.trans hbefore', hturns,
    hafter'.trans hlast, ?_⟩
  cases step with
  | key key =>
    cases y with
    | obj members => exact haccords.member hn hy'
    | _ => cases hy'
  | index i =>
    cases y with
    | arr items => exact haccords.item hn hy'
    | _ => cases hy'

/-! ## What passes can be rendered -/

theorem depth_lt_of_child? {v x : Json} {step : Step} (h : v.child? step = some x) :
    x.depth < v.depth := by
  cases v with
  | obj members =>
    cases step with
    | key key => exact Json.depth_lt_of_mem_obj (Fields.mem_of_get? h)
    | index i => cases h
  | arr items =>
    cases step with
    | key key => cases h
    | index i => exact Json.depth_lt_of_mem_arr (List.mem_of_getElem? h)
  | _ => cases h

theorem ordered_of_child? {v x : Json} {step : Step} (hv : v.Ordered)
    (h : v.child? step = some x) : x.Ordered := by
  cases v with
  | obj members =>
    cases step with
    | key key => exact Json.ordered_of_mem hv.2 (Fields.mem_of_get? h)
    | index i => cases h
  | arr items =>
    cases step with
    | key key => cases h
    | index i => exact Json.ordered_of_mem_items hv (List.mem_of_getElem? h)
  | _ => cases h

theorem reaches_of_mem_partNodes {p : Plan Node} {step : Step} {m : Node}
    (h : m ∈ partNodes p step) : Reaches e (.plan p) m := by
  cases step with
  | key key => exact reaches_of_mem_memberNodes h
  | index i => exact reaches_of_mem_itemNodes h

/-- What the walk passes over without violations can be rendered as it was before the walk. -/
theorem renders_of_passes (hr : Engine.ofRegistry o r = .ok e)
    (hregistry : ∀ handle g, r.get? handle = some g → g.document.Ordered) (depth : Nat) :
    ∀ (S : Site) (n : Node) (v : Json), v.depth < depth → v.Ordered →
      (∀ path, (S.below e path).Consistent e) → Specified e n → S n → Passes e S n v →
        Renders e n v := by
  have he : e.Acyclic := (Engine.ofRegistry_eq_ok hr).2
  induction depth with
  | zero => exact fun _ _ _ hlt => absurd hlt (Nat.not_lt_zero _)
  | succ depth ih =>
    intro S n v hlt hv hS hspecified hn hpasses
    rcases exists_head_or_renders he n with ⟨p, hp⟩ | hrenders
    · have hhere : S.Consistent e := hS []
      -- every plan that applies along the plan of the node is passed along
      have hall : ∀ q, Applies e (.plan p) q → S.Has e q ∧ Specified e (.plan q) ∧
          Passes e S (.plan q) v := by
        intro q hq
        have hq : Applies e n q := hp.applies hq
        exact ⟨⟨n, hn, hq⟩, hspecified.of_reaches (Rendering.reaches_of_applies hq),
          hpasses.applies hr hregistry hspecified hq⟩
      refine renders_of_head hp (renders_plan he hv ?_ ?_ ?_)
      · intro htypes hnone
        rcases hall p .self with ⟨hhas, -, hpass⟩
        rcases hpass.evolves with ⟨y, hevolves, haccords⟩
        have hy := coerceAny?_of_evolves hhere hhas htypes hevolves hnone
        rcases haccords.types with hnil | hadmitted
        · exact htypes hnil
        · simp [coerceAny?, hadmitted] at hy
      · rintro members rfl q hq name hname
        rcases hall q hq with ⟨hhas, -, hpass⟩
        rcases hpass.evolves with ⟨y, hevolves, haccords⟩
        rcases (alike_of_evolves hevolves).eq_obj with ⟨members', rfl⟩
        exact contains_of_evolves
          (fun q' m hq' hm => hhere.required q q' name m hhas hq' hname hm) hevolves rfl rfl
          (haccords.required hname)
      · intro q step m x hq hm hx
        rcases hall q hq with ⟨hhas, hspecified', hpass⟩
        exact ih (S.part e step) m x (Nat.lt_of_lt_of_le (depth_lt_of_child? hx)
          (Nat.le_of_lt_succ hlt)) (ordered_of_child? hv hx) (fun path => hS (step :: path))
          (hspecified'.of_reaches (reaches_of_mem_partNodes hm)) ⟨q, hhas, hm⟩
          (hpass.part hhere hm hx)
    · exact hrenders v

end Normalization

namespace Engine

open Normalization

variable {o : Options} {r : Registry} {e : Engine} {f : Fragment} {s : CompiledSchema}

/-- Rendering has one outcome. -/
theorem eventually_of_write (hr : ofRegistry o r = .ok e) (hs : e.compile f = .ok s) {fuel : Nat}
    {v : Json} {outcome : Except RenderError Json}
    (h : Rendering.write e fuel s.root "" v = some outcome) :
    Eventually (fun fuel => Rendering.write e fuel s.root "" v) outcome := by
  have hrevised : Planning.Revised o r r e e := by
    refine ⟨hr, hr, fun handle => ?_⟩
    cases r.get? handle with
    | none => exact .none
    | some g => exact .some (.refl _)
  rcases Planning.compiled_of_compile hs with ⟨document, hplans, -⟩
  have hmatched := hrevised.corresponds.matched _ _
    ⟨_, _, _, _, Planning.Wraps.refl f.document, hplans, hplans⟩
  exact hrevised.corresponds.eventually_write fuel _ _ _ _ _ hmatched h

theorem exists_text_of_renders (hr : ofRegistry o r = .ok e) (hs : e.compile f = .ok s) {v : Json}
    (h : Rendering.Renders e s.root v) : ∃ text, e.stringify s v = .ok text := by
  rcases h "" with ⟨x, hx⟩
  rcases hx.firstOutcome (e.budget s v) with ⟨first, hfirst⟩
  rcases firstOutcome_eq_some hfirst with ⟨fuel, hwrite⟩
  obtain rfl := (eventually_of_write hr hs hwrite).unique hx
  refine ⟨x.render, ?_⟩
  rw [stringify_eq, render, hfirst]
  rfl

/-- Where the schemas that meet at any place are consistent and name the specification in force or
none, every value that validation accepts has a text. -/
theorem exists_text_of_success (hr : ofRegistry o r = .ok e) (hs : e.compile f = .ok s)
    (hregistry : ∀ handle g, r.get? handle = some g → g.document.Ordered)
    (hf : f.document.Ordered)
    (hspecification : Library.followsSpecification s.evaluator.root = true)
    (hspecified : Specified e s.root) (hconsistent : Consistent e s.root) {v : Json}
    (hv : v.Ordered) (hsuccess : (e.validate s v).verdict.success = true) :
    ∃ text, e.stringify s v = .ok text := by
  rcases leaves_validate (ends_of_success hsuccess) with ⟨inner, hturns, hclean⟩
  rw [hsuccess] at hclean
  obtain ⟨haccepts, rfl⟩ := Bool.and_eq_true_iff.mp hclean.symm
  have haccords := Planning.accords_of_compiled (Planning.compiled_of_compile hs) hf hspecification
    haccepts
  refine exists_text_of_renders hr hs (renders_of_passes hr hregistry (v.depth + 1) (· = s.root)
    s.root v (Nat.lt_succ_self _) hv hconsistent hspecified rfl ?_)
  exact ⟨true, v, _, _, happens_of_mem (S := (· = s.root)) rfl true, .refl, hturns, .refl, haccords⟩

/-! ## Plain schemas are consistent -/

theorem head_of_applies {n : Node} {q : Plan Node} (h : Applies e n q)
    (hplain : ∀ p, Reaches e n (.plan p) → p.allOf = []) : Head e n q := by
  induction h with
  | self => exact .self
  | branch hm _ _ =>
    rw [hplain _ .here] at hm
    cases hm
  | reference hs _ ih =>
    exact .reference hs (ih (fun p hp => hplain p ((Reaches.reference .here hs).trans hp)))

theorem head_unique {n : Node} {p q : Plan Node} (h : Head e n p) (h' : Head e n q) : p = q := by
  induction h with
  | self => exact (head_plan_iff.mp h').symm
  | reference hs _ ih => exact ih ((head_iff_of_resolve? hs).mp h')

theorem eq_of_mem_partNodes {p : Plan Node} (hp : p.Plain) {step : Step} {m m' : Node}
    (hm : m ∈ partNodes p step) (hm' : m' ∈ partNodes p step) : m = m' := by
  cases step with
  | key key =>
    rw [partNodes, memberNodes_eq hp, Option.mem_toList] at hm hm'
    exact Option.some.inj (hm.symm.trans hm')
  | index i =>
    rw [partNodes, Rendering.itemNodes_eq, Option.mem_toList] at hm hm'
    exact Option.some.inj (hm.symm.trans hm')

/-- Where all plans that can be reached are plain, at most one node stands at any place. -/
theorem consistent_of_plain {n : Node} (hplain : ∀ p, Reaches e n (.plan p) → p.Plain) :
    Normalization.Consistent e n := by
  -- along the path there is always one node, and one plan that applies
  have hsites : ∀ (path : List Step) (S : Site), (∀ m, S m → Reaches e n m) →
      (∀ m m', S m → S m' → m = m') → (S.below e path).Consistent e := by
    intro path
    induction path with
    | nil =>
      intro S hreach hone
      have hhead : ∀ q, S.Has e q → ∃ m, S m ∧ Head e m q := by
        rintro q ⟨m, hm, hq⟩
        exact ⟨m, hm, head_of_applies hq (fun p hp => (hplain p ((hreach m hm).trans hp)).allOf)⟩
      have hsame : ∀ p q, S.Has e p → S.Has e q → p = q ∧ p.Plain := by
        intro p q hp hq
        rcases hhead p hp with ⟨m, hm, hp⟩
        rcases hhead q hq with ⟨m', hm', hq⟩
        obtain rfl := hone m m' hm hm'
        exact ⟨head_unique hp hq, hplain p ((hreach m hm).trans (Rendering.reaches_of_head hp))⟩
      refine ⟨fun p q hp hq _ v w hnone hsome => ?_, fun p q name m hp hq _ hm => ?_,
        fun m p q key hm hhead hq hdrops => ?_⟩
      · obtain ⟨rfl, -⟩ := hsame p q hp hq
        simp [hnone] at hsome
      · exact (hsame q q hq hq).2.filling name m hm
      · obtain ⟨rfl, -⟩ := hsame p q ⟨m, hm, hhead.applies .self⟩ hq
        exact memberNodes_eq_nil_of_drops hdrops
    | cons step path ih =>
      intro S hreach hone
      refine ih (S.part e step) ?_ ?_
      · rintro m ⟨q, ⟨k, hk, hq⟩, hm⟩
        exact (hreach k hk).trans
          ((Rendering.reaches_of_applies hq).trans (reaches_of_mem_partNodes hm))
      · rintro m m' ⟨q, ⟨k, hk, hq⟩, hm⟩ ⟨q', ⟨k', hk', hq'⟩, hm'⟩
        obtain rfl := hone k k' hk hk'
        have hheads : ∀ {p}, Applies e k p → Head e k p := fun hp =>
          head_of_applies hp (fun p hp => (hplain p ((hreach k hk).trans hp)).allOf)
        obtain rfl := head_unique (hheads hq) (hheads hq')
        have hp : q.Plain := hplain q ((hreach k hk).trans (Rendering.reaches_of_applies hq))
        exact eq_of_mem_partNodes hp hm hm'
  exact fun path => hsites path (· = n) (fun m hm => hm ▸ .here)
    (fun m m' hm hm' => hm.trans hm'.symm)

/-- A tree with a text as its size and a property that trees do not have. -/
def notedTree : Json := .obj [("note", .null), ("size", .str "1")]

/-- The tree as it is left. -/
def leftTree : Json := .obj [("size", .ofNat 1)]

theorem accepts_sizedDocument (l : Library) :
    Evaluator.accepts ⟨l, Evaluator.defaultBase, sizedDocument⟩ leftTree = true := by
  rcases Evaluator.exists_steps ⟨l, Evaluator.defaultBase, sizedDocument⟩ leftTree with ⟨n, hn⟩
  unfold Evaluator.accepts Evaluator.findings
  rw [hn, List.isEmpty_iff]
  refine Evaluation.judge_members (fun q hq m hm => ?_)
  have hknown : q.scope.known = true := by
    rw [hq]
    exact Evaluation.within_known _ _
  rcases List.mem_pair.mp hm with rfl | rfl
  · -- the size is the only member, and it has the declared type
    rw [Evaluation.keywordFindings_additionalProperties hknown]
    refine (Evaluation.additionalProperties_eq_nil_iff rfl).mpr (fun m hm => ?_)
    obtain rfl := List.mem_singleton.mp hm
    refine ⟨fun b hb => ?_, fun hnil => nomatch hnil⟩
    obtain rfl := List.mem_singleton.mp hb
    rw [Evaluation.judge_single, Evaluation.keywordFindings_type]
    · rfl
    · exact (Evaluation.within_known _ _).trans hknown
  · unfold Evaluation.keywordFindings
    rw [hknown]
    rfl

theorem specified_sizedTree (l l' : Library) : Specified (sizedEngine l) (sizedSchema l').root := by
  have hreach : ∀ m, Reaches (sizedEngine l) (sizedSchema l').root m →
      m = .plan sizedPlan ∨ m = .deferred 0 ∨
        m = .plan { Plan.empty with types := [.integer] } := by
    intro m hm
    induction hm with
    | here => exact Or.inl rfl
    | reference _ hs ih =>
      rcases ih with rfl | rfl | rfl
      · simp at hs
      · obtain rfl := Option.some.inj hs
        exact Or.inl rfl
      · simp at hs
    | property _ hm ih =>
      rcases ih with h | h | h
      · cases h
        rcases List.mem_pair.mp hm with heq | heq
        · exact Or.inr (Or.inl (congrArg Prod.snd heq))
        · exact Or.inr (Or.inr (congrArg Prod.snd heq))
      · cases h
      · cases h
        cases hm
    | _ _ hm ih =>
      rcases ih with h | h | h
      · cases h
        cases hm
      · cases h
      · cases h
        cases hm
  intro m s hm hs
  rcases hreach m hm with rfl | rfl | rfl
  · simp at hs
  · obtain rfl := Option.some.inj hs
    rfl
  · simp at hs

theorem ordered_sizedTree : sizedTree.document.Ordered := by
  simp only [sizedTree, sizedProperties, Fragment.ofMembers, Marker.toJson, Json.ofNat,
    Json.Ordered, Json.OrderedMembers, Fields.Ordered, and_true]
  decide

theorem ordered_sizedTrees :
    ∀ handle g, sizedTrees.get? handle = some g → g.document.Ordered := by
  intro handle g hg
  cases handle with
  | zero =>
    obtain rfl : sizedTree = g := Option.some.inj hg
    exact ordered_sizedTree
  | succ i => cases hg

/-- A tree that validation accepts has a text. -/
theorem exists_text_sizedTree : ∃ e s, ofRegistry .standard sizedTrees = .ok e ∧
    e.compile sizedTree = .ok s ∧
    (∀ handle g, sizedTrees.get? handle = some g → g.document.Ordered) ∧
    sizedTree.document.Ordered ∧ Library.followsSpecification s.evaluator.root = true ∧
    Specified e s.root ∧ Normalization.Consistent e s.root ∧ notedTree.Ordered ∧
    (e.validate s notedTree).verdict.success = true ∧
    ∃ text, e.stringify s notedTree = .ok text := by
  rcases exists_ofRegistry_sizedTrees with ⟨l, l', he, hs⟩
  have hconsistent : Normalization.Consistent (sizedEngine l) (sizedSchema l').root :=
    consistent_of_plain
      (fun p hp => plain_of_reaches he hs plainSchema_of_sizedTrees plainSchema_sizedTree hp)
  have hordered : notedTree.Ordered := by
    simp only [notedTree, Json.Ordered, Json.OrderedMembers, Fields.Ordered, and_true]
    decide
  have hsuccess : ((sizedEngine l).validate (sizedSchema l') notedTree).verdict.success = true := by
    have hturns := sound_walk (e := sizedEngine l) 3 (sizedSchema l').root ⟨"", ""⟩ true notedTree
      ⟨leftTree, []⟩ rfl
    refine (validate_of_leaves ⟨true, hturns, ?_⟩).2
    exact (Bool.and_true _).symm ▸ (accepts_sizedDocument l').symm
  exact ⟨_, _, he, hs, ordered_sizedTrees, ordered_sizedTree, rfl, specified_sizedTree l l',
    hconsistent, hordered, hsuccess, exists_text_of_success he hs ordered_sizedTrees
      ordered_sizedTree rfl (specified_sizedTree l l') hconsistent hordered hsuccess⟩

/-! ## A value that validation accepts and that has no text -/

/-- A schema that demands a property and has a default for it. -/
def supplied : Fragment :=
  .ofMembers
    [("properties", .obj [("a", .obj [("default", .ofNat 1)])]), ("required", .arr [.str "a"])]

/-- The plan of this schema. -/
def suppliedPlan : Plan Node :=
  { Plan.empty with
    required := ["a"]
    properties := [("a", .plan { Plan.empty with default := some (.ofNat 1) })] }

theorem basic_supplied : Basic supplied.document := by
  refine .obj (fun m hm => ?_)
  rcases List.mem_pair.mp hm with rfl | rfl
  · exact .property (.single (.default _))
  · exact .required "a"

theorem accepts_supplied (l : Library) :
    Evaluator.accepts ⟨l, Evaluator.defaultBase, supplied.document⟩ (.obj [("a", .ofNat 1)]) =
      true := by
  rcases Evaluator.exists_steps ⟨l, Evaluator.defaultBase, supplied.document⟩
    (.obj [("a", .ofNat 1)]) with ⟨n, hn⟩
  unfold Evaluator.accepts Evaluator.findings
  rw [hn, List.isEmpty_iff]
  refine Evaluation.judge_members (fun q hq m hm => ?_)
  have hknown : q.scope.known = true := by
    rw [hq]
    exact Evaluation.within_known _ _
  rcases List.mem_pair.mp hm with rfl | rfl
  · rw [Evaluation.keywordFindings_properties hknown rfl]
    refine Evaluation.properties_eq_nil (fun q' hq' m hm x hx => ?_)
    obtain rfl := List.mem_singleton.mp hm
    rw [Evaluation.judge_single]
    unfold Evaluation.keywordFindings
    rw [show _ = true from (Evaluation.within_known _ _).trans (hq' ▸ hknown)]
    rfl
  · exact (Evaluation.required_eq_nil_iff hknown).mpr rfl

/-- Validation supplies the required property, rendering misses it. -/
theorem no_text_supplied : ∃ e s, ofRegistry .standard .empty = .ok e ∧
    e.compile supplied = .ok s ∧ (e.validate s (.obj [])).verdict.success = true ∧
    ¬ ∃ text, e.stringify s (.obj []) = .ok text := by
  obtain ⟨l, hs⟩ := compile_of_basic .standard supplied (n := .plan suppliedPlan) rfl rfl
    basic_supplied
  refine ⟨_, _, ofRegistry_empty _, hs, ?_, ?_⟩
  · have hturns := sound_walk (e := ofOptions .standard) 3 (.plan suppliedPlan) ⟨"", ""⟩ true
      (.obj []) ⟨.obj [("a", .ofNat 1)], []⟩ rfl
    refine (validate_of_leaves ⟨true, hturns, ?_⟩).2
    exact (Bool.and_true _).symm ▸ (accepts_supplied l).symm
  · rintro ⟨text, htext⟩
    rw [stringify_eq, render_of_write rfl] at htext
    cases htext

end Engine

end HttpContract
