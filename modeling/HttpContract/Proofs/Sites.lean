import Mathlib.Logic.Relation
import HttpContract.Proofs.Correspondence
import HttpContract.Proofs.RenderedKeys

/-!
# Schemas that meet at one place

Several schemas can apply to one place of a value: a schema, the branches of its `allOf`, what they
refer to, and the schemas that each of them names for a property or an item. A `Site` has the nodes
that stand at one place. The walk changes the value there step by step (`Changes`), and the schemas
of the site are consistent if none of these changes undoes what the value lacks under one of them:
`coerceAny?_of_evolves`, `contains_of_evolves`, `child?_of_evolves`.
-/

namespace HttpContract

/-- No value that cannot be converted to the types `ts` is converted, to the types `us`, into one
that can. -/
def Stable (ts us : List JsonType) : Prop :=
  ∀ v w, coerceAny? v ts = none → coerceAny? v us = some w → coerceAny? w ts = none

namespace Normalization

/-- The nodes for a part of a value. -/
def partNodes (p : Plan Node) : Step → List Node
  | .key key => memberNodes p key
  | .index i => itemNodes p i

/-! ## Sites -/

/-- The nodes that stand at one place of a value. -/
abbrev Site : Type := Node → Prop

namespace Site

variable (e : Engine) (S : Site)

/-- The plan applies where the nodes stand. -/
def Has (q : Plan Node) : Prop := ∃ n, S n ∧ Applies e n q

/-- The nodes that the plans which apply name for a part of the value. -/
def part (step : Step) : Site := fun m => ∃ q, S.Has e q ∧ m ∈ partNodes q step

/-- The nodes that stand at a place below. -/
def below (path : List Step) : Site := path.foldl (part e) S

/-- The schemas that meet here do not repair what a value lacks under one of them: none converts
what another cannot convert into something it can, none fills in what another requires, and none
drops a property for which another names a schema. -/
structure Consistent : Prop where
  types : ∀ p q, S.Has e p → S.Has e q → p.types ≠ [] → Stable p.types q.types
  required : ∀ p q name n, S.Has e p → S.Has e q → name ∈ p.required →
    (name, n) ∈ q.properties → n.filling = none
  drops : ∀ n p q key, S n → Head e n p → S.Has e q → Drops e p key → memberNodes q key = []

end Site

/-- The schemas that meet at any place, read along the node, are consistent. -/
def Consistent (e : Engine) (n : Node) : Prop :=
  ∀ path, (Site.below e (· = n) path).Consistent e

/-! ## Changes -/

/-- One change of a value at a site: it is converted to the types of a plan, or its parts are walked
over. Properties are dropped only by the plan that a node comes to. -/
inductive Changes (e : Engine) (S : Site) : Json → Json → Prop where
  | converted {q : Plan Node} {v : Json} (hq : S.Has e q) :
      Changes e S v (coerced e.options q.types v)
  | parts {q : Plan Node} {strip clean : Bool} {v w : Json} (hq : S.Has e q)
      (hstrip : strip = true → ∃ n, S n ∧ Head e n q) (h : Parts e q strip v w clean) :
      Changes e S v w

/-- One change after the other. -/
abbrev Evolves (e : Engine) (S : Site) : Json → Json → Prop := Relation.ReflTransGen (Changes e S)

/-- Whatever a walk along the node does happens at the site. -/
structure Happens (e : Engine) (S : Site) (n : Node) (strip : Bool) : Prop where
  applies : ∀ q, Applies e n q → S.Has e q
  head : strip = true → ∀ p, Head e n p → ∃ m, S m ∧ Head e m p

variable {e : Engine} {S : Site}

theorem happens_of_mem {n : Node} (hn : S n) (strip : Bool) : Happens e S n strip :=
  ⟨fun _ hq => ⟨n, hn, hq⟩, fun _ _ hp => ⟨n, hn, hp⟩⟩

theorem Happens.reference {n : Node} {strip : Bool} {s : CompiledSchema}
    (h : Happens e S n strip) (hs : e.resolve? n = some s) : Happens e S s.root strip :=
  ⟨fun q hq => h.applies q (.reference hs hq), fun htrue p hp => h.head htrue p (.reference hs hp)⟩

theorem Happens.branch {p : Plan Node} {strip : Bool} {n : Node} (h : Happens e S (.plan p) strip)
    (hn : n ∈ p.allOf) : Happens e S n false :=
  ⟨fun q hq => h.applies q (.branch hn hq), by simp⟩

mutual

theorem evolves_of_turns {n : Node} {strip clean : Bool} {v w : Json} :
    Turns e n strip v w clean → Happens e S n strip → Evolves e S v w
  | .nowhere _ _, _ => .refl
  | .reference hs h, hn => evolves_of_turns h (hn.reference hs)
  | .plan hbranches hparts, hn =>
    have hself := hn.applies _ .self
    have hbranches := evolves_of_runs hbranches (fun _ hm => hn.branch hm)
    ((Relation.ReflTransGen.single (.converted hself)).trans hbranches).tail
      (.parts hself (fun htrue => hn.head htrue _ .self) hparts)
termination_by structural h => h

theorem evolves_of_runs {nodes : List Node} {strip clean : Bool} {v w : Json} :
    Runs e strip nodes v w clean → (∀ n ∈ nodes, Happens e S n strip) → Evolves e S v w
  | .nil, _ => .refl
  | .cons h hrest, hnodes =>
    (evolves_of_turns h (hnodes _ List.mem_cons_self)).trans
      (evolves_of_runs hrest (fun n hn => hnodes n (List.mem_cons_of_mem _ hn)))
termination_by structural h => h

end

/-! ## What changes keep -/

theorem Changes.alike {v w : Json} (h : Changes e S v w) : Alike v w := by
  cases h with
  | converted _ => exact alike_coerced _ _ v
  | parts _ _ h => exact h.alike

theorem alike_of_evolves {v w : Json} (h : Evolves e S v w) : Alike v w := by
  induction h with
  | refl => exact .refl v
  | tail _ h ih => exact ih.trans h.alike

theorem coerceAny?_eq_none_iff {v : Json} (hv : isScalar v = false) {types : List JsonType} :
    coerceAny? v types = none ↔ Coercion.admitted types v = false := by
  unfold coerceAny?
  constructor
  · intro h
    split at h
    · cases h
    · next hadmitted => simpa using hadmitted
  · intro h
    rw [if_neg (by simp [h]), List.findSome?_eq_none_iff]
    intro t ht
    have hadmits : t.admits v = false := by simpa using List.any_eq_false.mp h t ht
    unfold coerce?
    rw [if_neg (by simp [hadmits]), ← Option.not_isSome_iff_eq_none]
    intro hsome
    rw [isScalar_of_convert?_isSome (Option.some_get hsome).symm] at hv
    cases hv

/-- Whether an object or a list has one of the types does not depend on its parts. -/
theorem coerceAny?_eq_none_of_alike {v w : Json} (h : Alike v w) (hv : isScalar v = false)
    {types : List JsonType} (hnone : coerceAny? v types = none) : coerceAny? w types = none := by
  rw [coerceAny?_eq_none_iff hv] at hnone
  have hadmits : isScalar w = false ∧ ∀ t : JsonType, t.admits w = t.admits v := by
    cases h with
    | scalar hv' _ => simp [hv'] at hv
    | list _ => exact ⟨rfl, fun t => by cases t <;> rfl⟩
    | object => exact ⟨rfl, fun t => by cases t <;> rfl⟩
  rw [coerceAny?_eq_none_iff hadmits.1, ← hnone]
  unfold Coercion.admitted
  simp only [hadmits.2]

theorem coerceAny?_of_changes (hS : S.Consistent e) {p : Plan Node} (hp : S.Has e p)
    (htypes : p.types ≠ []) {v w : Json} (h : Changes e S v w)
    (hnone : coerceAny? v p.types = none) : coerceAny? w p.types = none := by
  cases h with
  | @converted q _ hq =>
    unfold coerced
    split
    · cases hw : coerceAny? v q.types with
      | none => exact hnone
      | some w => exact hS.types p q hp hq htypes v w hnone hw
    · exact hnone
  | parts _ _ h =>
    cases hscalar : isScalar v with
    | true =>
      cases h with
      | scalar _ => exact hnone
      | _ => cases hscalar
    | false => exact coerceAny?_eq_none_of_alike h.alike hscalar hnone

/-- What cannot be converted to the types of a plan never can. -/
theorem coerceAny?_of_evolves (hS : S.Consistent e) {p : Plan Node} (hp : S.Has e p)
    (htypes : p.types ≠ []) {v w : Json} (h : Evolves e S v w)
    (hnone : coerceAny? v p.types = none) : coerceAny? w p.types = none := by
  induction h with
  | refl => exact hnone
  | tail _ h ih => exact coerceAny?_of_changes hS hp htypes h ih

/-! ### Properties that are not filled in -/

theorem contains_of_withDefaults {name : String} : ∀ {properties : List (String × Node)}
    {members : Fields Json}, (∀ n, (name, n) ∈ properties → n.filling = none) →
      Fields.contains (withDefaults properties members) name = true →
        Fields.contains members name = true := by
  intro properties
  induction properties with
  | nil => exact fun _ h => h
  | cons x rest ih =>
    intro members hunfilled h
    rw [Corresponds.withDefaults_eq, List.foldl_cons, ← Corresponds.withDefaults_eq] at h
    have h := ih (fun n hn => hunfilled n (List.mem_cons_of_mem _ hn)) h
    split at h
    · next d hd =>
      split at h
      · exact h
      · -- the default is one for another property
        have hne : x.1 ≠ name := by
          rintro rfl
          simp [hunfilled x.2 List.mem_cons_self] at hd
        rwa [Fields.contains, Fields.get?_insert_of_ne members d hne] at h
    · exact h

theorem contains_of_changes {name : String} {v w : Json} {members members' : Fields Json}
    (hunfilled : ∀ q n, S.Has e q → (name, n) ∈ q.properties → n.filling = none)
    (h : Changes e S v w) (hv : v = .obj members) (hw : w = .obj members')
    (hname : Fields.contains members' name = true) : Fields.contains members name = true := by
  cases h with
  | converted _ =>
    subst hv
    rw [coerced_obj] at hw
    cases hw
    exact hname
  | @parts q _ _ _ _ hq _ h =>
    subst hv hw
    have hfilled := ((contains_of_parts h name).mp hname).1
    unfold filled at hfilled
    split at hfilled
    · exact contains_of_withDefaults (fun n hn => hunfilled q n hq hn) hfilled
    · exact hfilled

/-- A property for which there is no default has been there from the start. -/
theorem contains_of_evolves {name : String} {v w : Json} {members members' : Fields Json}
    (hunfilled : ∀ q n, S.Has e q → (name, n) ∈ q.properties → n.filling = none)
    (h : Evolves e S v w) (hv : v = .obj members) (hw : w = .obj members')
    (hname : Fields.contains members' name = true) : Fields.contains members name = true := by
  induction h generalizing members' with
  | refl =>
    subst hv
    cases hw
    exact hname
  | tail h hlast ih =>
    subst hv
    rcases (alike_of_evolves h).eq_obj with ⟨between, rfl⟩
    exact ih rfl (contains_of_changes hunfilled hlast rfl hw hname)

/-! ### Properties that are not dropped -/

theorem get?_of_members {p : Plan Node} {key : String} {x : Json} {members members' : Fields Json}
    {clean : Bool} : Members e p members members' clean → Fields.get? members key = some x →
      ∃ y c, Fields.get? members' key = some y ∧ Runs e true (memberNodes p key) x y c ∧
        (clean = true → c = true)
  | .nil, hx => by simp at hx
  | .cons h hrest, hx => by
    rw [Fields.get?_cons] at hx ⊢
    split at hx
    · next heq =>
      subst heq
      obtain rfl := Option.some.inj hx
      exact ⟨_, _, if_pos rfl, h, fun hclean => (Bool.and_eq_true_iff.mp hclean).1⟩
    · next hne =>
      rcases get?_of_members hrest hx with ⟨y, c, hy, hruns, hc⟩
      exact ⟨y, c, by rw [if_neg hne, hy], hruns,
        fun hclean => hc (Bool.and_eq_true_iff.mp hclean).2⟩
termination_by structural h => h

theorem getElem?_of_items {p : Plan Node} {x : Json} {index : Nat} {items items' : List Json}
    {clean : Bool} (h : Items e p index items items' clean) {i : Nat} (hx : items[i]? = some x) :
    ∃ y c, items'[i]? = some y ∧ Runs e true (itemNodes p (index + i)) x y c ∧
      (clean = true → c = true) := by
  induction items generalizing index items' clean i with
  | nil => simp at hx
  | cons first rest ih =>
    cases h with
    | cons h hrest =>
      cases i with
      | zero =>
        obtain rfl := Option.some.inj hx
        exact ⟨_, _, rfl, h, fun hclean => (Bool.and_eq_true_iff.mp hclean).1⟩
      | succ i =>
        obtain ⟨y, c, hy, hruns, hc⟩ := ih hrest (i := i) (by simpa using hx)
        rw [show index + (i + 1) = index + 1 + i by omega]
        exact ⟨y, c, by simpa using hy, hruns, fun hclean => hc (Bool.and_eq_true_iff.mp hclean).2⟩

/-- A part that is not dropped changes along the nodes for it. -/
theorem child?_of_parts {q : Plan Node} {strip clean : Bool} {v w x : Json} {step : Step}
    (hkept : ∀ key, step = .key key → ¬ (strip = true ∧ Drops e q key))
    (h : Parts e q strip v w clean) (hx : v.child? step = some x) :
    ∃ y c, w.child? step = some y ∧ Runs e true (partNodes q step) x y c ∧
      (clean = true → c = true) := by
  cases h with
  | object hready hmembers =>
    cases step with
    | key key =>
      rcases hready with ⟨fuel, hready⟩
      exact get?_of_members hmembers (get?_of_prepared hready (hkept key rfl) hx)
    | index i => cases hx
  | list hitems =>
    cases step with
    | key key => cases hx
    | index i =>
      rcases getElem?_of_items hitems (i := i) hx with ⟨y, c, hy, hruns, hc⟩
      rw [Nat.zero_add] at hruns
      exact ⟨y, c, hy, hruns, hc⟩
  | scalar hscalar =>
    cases v with
    | obj members => cases hscalar
    | arr items => cases hscalar
    | _ => cases hx

/-- No plan that a node of the site comes to drops the part. -/
def Site.Spared (e : Engine) (S : Site) (step : Step) : Prop :=
  ∀ key, step = .key key → ∀ n p, S n → Head e n p → ¬ Drops e p key

theorem Site.Spared.kept {q : Plan Node} {step : Step} (h : S.Spared e step) {strip : Bool}
    (hstrip : strip = true → ∃ n, S n ∧ Head e n q) :
    ∀ key, step = .key key → ¬ (strip = true ∧ Drops e q key) := by
  rintro key hstep ⟨rfl, hdrops⟩
  rcases hstrip rfl with ⟨n, hn, hhead⟩
  exact h key hstep n q hn hhead hdrops

/-- The nodes that some plan names for a part do not have it dropped by others. -/
theorem Site.Consistent.spared (hS : S.Consistent e) {q : Plan Node} {m : Node} {step : Step}
    (hq : S.Has e q) (hm : m ∈ partNodes q step) : S.Spared e step := by
  rintro key rfl n p hn hhead hdrops
  have hnone := hS.drops n p q key hn hhead hq hdrops
  rw [partNodes, hnone] at hm
  cases hm

theorem Site.Consistent.kept (hS : S.Consistent e) {q q' : Plan Node} {m : Node} {step : Step}
    (hq : S.Has e q) (hm : m ∈ partNodes q step) {strip : Bool}
    (hstrip : strip = true → ∃ n, S n ∧ Head e n q') :
    ∀ key, step = .key key → ¬ (strip = true ∧ Drops e q' key) :=
  (hS.spared hq hm).kept hstrip

theorem runs_part {q : Plan Node} (hq : S.Has e q) {step : Step} {x y : Json} {c : Bool}
    (h : Runs e true (partNodes q step) x y c) : Evolves e (S.part e step) x y :=
  evolves_of_runs h (fun _ hn => happens_of_mem ⟨q, hq, hn⟩ true)

theorem child?_coerced (o : Options) (types : List JsonType) {v x : Json} {step : Step}
    (hx : v.child? step = some x) : (coerced o types v).child? step = some x := by
  cases v with
  | obj members => simpa using hx
  | arr items => simpa using hx
  | _ => cases hx

theorem Site.Spared.child?_of_changes {step : Step} (hstep : S.Spared e step) {v w x : Json}
    (h : Changes e S v w) (hx : v.child? step = some x) :
    ∃ y, w.child? step = some y ∧ Evolves e (S.part e step) x y := by
  cases h with
  | converted _ => exact ⟨x, child?_coerced _ _ hx, .refl⟩
  | parts hq hstrip h =>
    rcases child?_of_parts (hstep.kept hstrip) h hx with ⟨y, c, hy, hruns, -⟩
    exact ⟨y, hy, runs_part hq hruns⟩

/-- A part that no plan drops is there to the end and changes at its own site. -/
theorem Site.Spared.child?_of_evolves {step : Step} (hstep : S.Spared e step) {v w x : Json}
    (h : Evolves e S v w) (hx : v.child? step = some x) :
    ∃ y, w.child? step = some y ∧ Evolves e (S.part e step) x y := by
  induction h with
  | refl => exact ⟨x, hx, .refl⟩
  | tail _ hlast ih =>
    rcases ih with ⟨y, hy, hevolves⟩
    rcases hstep.child?_of_changes hlast hy with ⟨z, hz, hevolves'⟩
    exact ⟨z, hz, hevolves.trans hevolves'⟩

/-- A part for which some plan names a node is there to the end and changes at its own site. -/
theorem child?_of_evolves (hS : S.Consistent e) {q : Plan Node} (hq : S.Has e q) {step : Step}
    {m : Node} (hm : m ∈ partNodes q step) {v w x : Json} (h : Evolves e S v w)
    (hx : v.child? step = some x) :
    ∃ y, w.child? step = some y ∧ Evolves e (S.part e step) x y :=
  (hS.spared hq hm).child?_of_evolves h hx

end Normalization

end HttpContract
