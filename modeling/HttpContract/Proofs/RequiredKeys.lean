import HttpContract.Proofs.RenderedKeys

/-!
# Required keys of what is written

Rendering asks whether the value has what is required, and writes what the shape of the object
renders. Both come from the same plans: a required property is there in the value, and it is written
exactly if one of these plans declares it or admits undeclared ones
(`contains_required_of_stringify`).
-/

namespace HttpContract.Rendering

open Normalization

variable {e : Engine}

/-! ## What shapes accumulate -/

section

variable (holds : Shape → Prop) (adds : Plan Node → Prop)

theorem accumulates_foldlM {search : Shape → Node → Option Shape}
    (hsearch : ∀ s n s', search s n = some s' →
      (holds s' ↔ holds s ∨ ∃ q, Applies e n q ∧ adds q)) :
    ∀ (nodes : List Node) (s s' : Shape), nodes.foldlM search s = some s' →
      (holds s' ↔ holds s ∨ ∃ q, (∃ n ∈ nodes, Applies e n q) ∧ adds q) := by
  intro nodes
  induction nodes with
  | nil =>
    intro s s' h
    obtain rfl : s = s' := by simpa using h
    simp
  | cons n rest ih =>
    intro s s' h
    rw [List.foldlM_cons] at h
    rcases Option.bind_eq_some_iff.mp h with ⟨between, hfirst, hrest⟩
    rw [ih between s' hrest, hsearch s n between hfirst, or_assoc]
    simp only [List.mem_cons, or_and_right, exists_or, exists_eq_left]

/-- What a shape gains from a plan, it gains along a node from each of the plans that apply. -/
theorem accumulates_of_collect (hadd : ∀ s p, holds (s.add p) ↔ holds s ∨ adds p) :
    ∀ (fuel : Nat) (s : Shape) (n : Node) (s' : Shape), collect e fuel n s = some s' →
      (holds s' ↔ holds s ∨ ∃ q, Applies e n q ∧ adds q) := by
  intro fuel
  induction fuel with
  | zero =>
    intro s n s' h
    simp [collect] at h
  | succ fuel ih =>
    intro s n s' h
    by_cases hn : ∃ p, n = .plan p
    · rcases hn with ⟨p, rfl⟩
      rw [collect] at h
      rw [accumulates_foldlM holds adds ih p.allOf _ s' h, hadd, or_assoc]
      simp only [applies_plan_iff, or_and_right, exists_or, exists_eq_left]
    · have hplan : ∀ p, n ≠ .plan p := fun p hp => hn ⟨p, hp⟩
      rw [collect_of_reference hplan] at h
      cases hs : e.resolve? n with
      | none =>
        obtain rfl : s = s' := by simpa [hs] using h
        simp [not_applies_of_resolve?_none hplan hs]
      | some c =>
        rw [ih s c.root s' (by simpa [hs] using h)]
        simp only [applies_iff_of_resolve? hs]

end

theorem contains_insertAll {name : String} : ∀ {names : List String} {known : Fields Unit},
    Fields.contains (names.foldl (fun known name => Fields.insert known name ()) known) name =
      true ↔ Fields.contains known name = true ∨ name ∈ names
  | [], known => by simp
  | first :: rest, known => by
    rw [List.foldl_cons, contains_insertAll, Fields.contains_insert, List.mem_cons, Bool.or_eq_true,
      decide_eq_true_eq]
    grind

theorem Shape.isSome_other?_iff {s : Shape} {key : String} : (s.other? key).isSome = true ↔
    (∃ x ∈ s.patterns, Pattern.found x.1 key = true) ∨ s.additional.isSome = true ∨
      s.allowAll = true := by
  unfold other?
  split
  · next source n hx =>
    have hfound : Pattern.found source key = true := by simpa using List.find?_some hx
    have hmatched : ∃ x ∈ s.patterns, Pattern.found x.1 key = true :=
      ⟨_, List.mem_of_find?_eq_some hx, hfound⟩
    exact ⟨fun _ => Or.inl hmatched, fun _ => rfl⟩
  · next hnone =>
    have hunmatched : ¬ ∃ x ∈ s.patterns, Pattern.found x.1 key = true := by
      rintro ⟨x, hx, hfound⟩
      exact List.find?_eq_none.mp hnone x hx hfound
    rw [or_iff_right hunmatched]
    cases s.additional <;> cases s.allowAll <;> simp

section

variable {fuel : Nat} {p : Plan Node} {shape : Shape}

theorem contains_required_iff (h : collect e fuel (.plan p) Shape.empty = some shape)
    (name : String) : Fields.contains shape.required name = true ↔
      ∃ q, Applies e (.plan p) q ∧ name ∈ q.required := by
  refine (accumulates_of_collect (fun s => Fields.contains s.required name = true)
    (fun q => name ∈ q.required) (fun _ _ => contains_insertAll) fuel _ _ _ h).trans ?_
  simp [Shape.empty]

theorem allowAll_iff (h : collect e fuel (.plan p) Shape.empty = some shape) :
    shape.allowAll = true ↔ ∃ q, Applies e (.plan p) q ∧ q.additional = .allowed := by
  refine (accumulates_of_collect (fun s => s.allowAll = true) (fun q => q.additional = .allowed)
    (fun s q => ?_) fuel _ _ _ h).trans ?_
  · cases hq : q.additional <;> simp [Shape.add, hq]
  · simp [Shape.empty]

theorem declared_iff (h : collect e fuel (.plan p) Shape.empty = some shape) :
    shape.declared = true ↔ ∃ q, Applies e (.plan p) q ∧ Shape.speaks q = true := by
  refine (accumulates_of_collect (fun s => s.declared = true) (fun q => Shape.speaks q = true)
    (fun s q => ?_) fuel _ _ _ h).trans ?_
  · simp [Shape.add]
  · simp [Shape.empty]

/-- A shape renders the properties that a plan behind it declares, and all others if such a plan
admits undeclared ones. -/
theorem exists_renders_iff (h : collect e fuel (.plan p) Shape.empty = some shape) (key : String) :
    (∃ node?, shape.Renders key node?) ↔ Declares e (.plan p) key ∨ Admits e (.plan p) := by
  have hshape : Gathers (Applies e (.plan p)) Shape.empty shape := gathers_of_collect fuel _ _ _ h
  constructor
  · rintro ⟨node?, hrenders⟩
    exact declares_or_admits_of_renders hshape hrenders
  · intro hplans
    cases hcontains : Fields.contains shape.properties key with
    | true =>
      rcases Option.isSome_iff_exists.mp hcontains with ⟨n, hn⟩
      exact ⟨some n, Or.inl ⟨n, rfl, hn⟩⟩
    | false =>
      -- the property is then matched by a pattern or counts among the undeclared ones
      suffices hother : (shape.other? key).isSome = true by
        rcases Option.isSome_iff_exists.mp hother with ⟨node?, hnode⟩
        exact ⟨node?, Or.inr ⟨hcontains, hnode⟩⟩
      rw [Shape.isSome_other?_iff]
      rcases hplans with ⟨q, hq, hown⟩ | ⟨q, hq, hadmits⟩
      · rcases Bool.or_eq_true_iff.mp hown with hnamed | hmatched
        · have hnamed := hshape.contains (Or.inr ⟨q, hq, hnamed⟩)
          simp [hcontains] at hnamed
        · rcases List.any_eq_true.mp hmatched with ⟨x, hx, hfound⟩
          exact Or.inl ⟨x, hshape.pattern.mpr (Or.inr ⟨q, hq, hx⟩), hfound⟩
      · unfold Plan.admitsAny at hadmits
        split at hadmits
        · next hallowed => exact Or.inr (Or.inr ((allowAll_iff h).mpr ⟨q, hq, hallowed⟩))
        · next n hadditional =>
          exact Or.inr (Or.inl (hshape.additional_isSome (Or.inr ⟨q, n, hq, hadditional⟩)))
        · cases hadmits

end

/-! ## Rendered objects -/

/-- A member that a shape renders is among the members that are rendered. -/
theorem get?_of_renders {s : Shape} {members : Fields Json} {key : String} {node? : Option Node}
    {v : Json} (h : s.Renders key node?) (hv : Fields.get? members key = some v) :
    Fields.get? (s.declaredMembers members ++ s.otherMembers members) key = some (node?, v) := by
  rw [Fields.get?_append, get?_declaredMembers, get?_otherMembers]
  rcases h with ⟨n, rfl, hn⟩ | ⟨hcontains, hother⟩
  · simp [hn, hv]
  · have hnone : Fields.get? s.properties key = none := by simpa [Fields.contains] using hcontains
    simp [hcontains, hnone, hv, hother]

theorem contains_rendered_iff {s : Shape} {members : Fields Json} {key : String} :
    Fields.contains (s.declaredMembers members ++ s.otherMembers members) key = true ↔
      Fields.contains members key = true ∧ ∃ node?, s.Renders key node? := by
  constructor
  · intro h
    rcases Option.isSome_iff_exists.mp h with ⟨⟨node?, v⟩, hget⟩
    rcases renders_of_get? hget with ⟨hv, hrenders⟩
    exact ⟨Option.isSome_iff_exists.mpr ⟨v, hv⟩, node?, hrenders⟩
  · rintro ⟨hkey, node?, hrenders⟩
    rcases Option.isSome_iff_exists.mp hkey with ⟨v, hv⟩
    exact Option.isSome_iff_exists.mpr ⟨_, get?_of_renders hrenders hv⟩

section

variable {write : Node → String → Json → Outcome Json} {path : String} {key : String}

/-- A member is written under its own key. -/
theorem fst_of_member {m : String × Option Node × Json} {y : String × Json}
    (h : member write path m = some (.ok y)) : y.1 = m.1 := by
  rcases m with ⟨name, node?, v⟩
  cases node? with
  | none =>
    obtain rfl : (name, v) = y := by simpa [member] using h
    rfl
  | some n =>
    rcases exists_of_map h with ⟨x, -, rfl⟩
    rfl

theorem contains_of_sequence : ∀ {members : Fields (Option Node × Json)} {written : Fields Json},
    sequence (member write path) members = some (.ok written) →
      Fields.contains written key = Fields.contains members key := by
  intro members
  induction members with
  | nil =>
    intro written h
    obtain rfl : [] = written := by simpa [sequence] using h
    rfl
  | cons m rest ih =>
    intro written h
    rcases sequence_cons_eq_ok h with ⟨⟨name, y⟩, others, hy, hothers, rfl⟩
    obtain rfl : name = m.1 := fst_of_member hy
    rw [Fields.contains_cons, ih hothers]
    exact (Fields.contains_cons _ _ _ _).symm

theorem get?_of_sequence {n : Node} {v : Json} : ∀ {members : Fields (Option Node × Json)}
    {written : Fields Json}, sequence (member write path) members = some (.ok written) →
      Fields.get? members key = some (some n, v) →
        ∃ y, Fields.get? written key = some y ∧
          write n (Json.Pointer.child path key) v = some (.ok y) := by
  intro members
  induction members with
  | nil =>
    intro written _ hget
    cases hget
  | cons m rest ih =>
    intro written h hget
    rcases sequence_cons_eq_ok h with ⟨⟨name, y⟩, others, hy, hothers, rfl⟩
    obtain rfl : name = m.1 := fst_of_member hy
    rcases m with ⟨name, node?, u⟩
    rw [Fields.get?_cons] at hget ⊢
    split at hget
    · next heq =>
      obtain ⟨rfl, rfl⟩ : node? = some n ∧ u = v := by simpa using hget
      subst heq
      rcases exists_of_map hy with ⟨x, hx, heq⟩
      obtain rfl : x = y := (Prod.mk.inj heq).2
      exact ⟨x, if_pos rfl, hx⟩
    · next hne =>
      rw [if_neg hne]
      exact ih hothers hget

end

theorem value?_eq {types : List JsonType} {v u : Json} (hv : isScalar v = false)
    (h : (if types.isEmpty then some v else coerceAny? v types) = some u) : u = v := by
  split at h
  · exact (Option.some.inj h).symm
  · rcases eq_or_isScalar_of_coerceAny? h with heq | ⟨hscalar, -⟩
    · exact heq
    · simp [hv] at hscalar

/-- An object is written as it is if its shape says nothing, and by its shape if it has what is
required. -/
theorem write_obj_eq_ok {fuel : Nat} {p : Plan Node} {path : String} {members : Fields Json}
    {x : Json} (h : write e (fuel + 1) (.plan p) path (.obj members) = some (.ok x)) :
    ∃ shape, collect e (fuel + 1) (.plan p) Shape.empty = some shape ∧
      (shape.declared = false ∧ x = .obj members ∨
        (∀ name, Fields.contains shape.required name = true →
          Fields.contains members name = true) ∧
        ∃ written, x = .obj written ∧ sequence (member (write e fuel) path)
          (shape.declaredMembers members ++ shape.otherMembers members) = some (.ok written)) := by
  simp only [write] at h
  split at h
  · simp at h
  · next members' hu =>
    obtain rfl : members' = members := Json.obj.inj (value?_eq rfl hu)
    split at h
    · simp at h
    · next shape hshape =>
      refine ⟨shape, hshape, ?_⟩
      split at h
      · unfold object at h
        split at h
        · simp at h
        · next hnone =>
          rcases exists_of_map h with ⟨written, hwritten, rfl⟩
          refine Or.inr ⟨fun name hname => ?_, written, rfl, hwritten⟩
          have hkey := List.find?_eq_none.mp hnone name
            ((Fields.contains_iff_mem_keys _ _).mp hname)
          simpa using hkey
      · next hdeclared =>
        obtain rfl : Json.obj members' = x := by simpa using h
        exact Or.inl ⟨by simpa using hdeclared, rfl⟩
  · next items hu => cases value?_eq rfl hu
  · next u hobj _ hu => exact absurd (value?_eq rfl hu) (hobj members)

theorem getElem?_of_sequence {α β : Type} {write : α → Outcome β} {a : α} : ∀ {xs : List α}
    {ys : List β} {i : Nat}, sequence write xs = some (.ok ys) → xs[i]? = some a →
      ∃ y, ys[i]? = some y ∧ write a = some (.ok y) := by
  intro xs
  induction xs with
  | nil =>
    intro ys i _ hi
    simp at hi
  | cons x rest ih =>
    intro ys i h hi
    rcases sequence_cons_eq_ok h with ⟨y, others, hy, hothers, rfl⟩
    cases i with
    | zero =>
      obtain rfl := Option.some.inj hi
      exact ⟨y, rfl, hy⟩
    | succ i => simpa using ih (i := i) hothers (by simpa using hi)

/-- An item is written along the node for it. -/
theorem write_arr_eq_ok {fuel : Nat} {p : Plan Node} {path : String} {items : List Json} {x : Json}
    (h : write e (fuel + 1) (.plan p) path (.arr items) = some (.ok x)) {i : Nat} {n : Node}
    {v : Json} (hn : itemNodes p i = [n]) (hv : items[i]? = some v) :
    ∃ written y, x = .arr written ∧ written[i]? = some y ∧
      write e fuel n (Json.Pointer.childIndex path i) v = some (.ok y) := by
  have hnode : (p.leading[i]?).or p.items = some n := by
    rw [itemNodes_eq] at hn
    cases hnode : (p.leading[i]?).or p.items with
    | none => simp [hnode] at hn
    | some m => simpa [hnode] using hn
  simp only [write] at h
  split at h
  · simp at h
  · next members hu => cases value?_eq rfl hu
  · next items' hu =>
    obtain rfl : items' = items := Json.arr.inj (value?_eq rfl hu)
    split at h
    · next hnone =>
      simp [List.isEmpty_iff.mp hnone.1, Option.isNone_iff_eq_none.mp hnone.2] at hnode
    · rcases exists_of_map h with ⟨written, hwritten, rfl⟩
      have hitem : ((List.range items'.length).zip items')[i]? = some (i, v) := by
        have hi := (List.getElem?_eq_some_iff.mp hv).1
        rw [List.getElem?_zip_eq_some]
        exact ⟨List.getElem?_range hi, hv⟩
      rcases getElem?_of_sequence hwritten hitem with ⟨y, hy, hwrite⟩
      refine ⟨written, y, rfl, hy, ?_⟩
      simpa [item, hnode] using hwrite
  · next u _ harr hu => exact absurd (value?_eq rfl hu) (harr items)

/-! ## Places where objects are rendered -/

/-- Rendering a value along a node comes to a plan with an object, at the given place. -/
inductive Enters (e : Engine) : Node → Json → List Step → Plan Node → Fields Json → Prop where
  | here {p : Plan Node} {members : Fields Json} : Enters e (.plan p) (.obj members) [] p members
  | reference {n : Node} {s : CompiledSchema} {v : Json} {path : List Step} {q : Plan Node}
      {inner : Fields Json} (hs : e.resolve? n = some s) (h : Enters e s.root v path q inner) :
      Enters e n v path q inner
  | member {p q : Plan Node} {shape : Shape} {members inner : Fields Json} {key : String} {n : Node}
      {v : Json} {path : List Step}
      (hshape : ∃ fuel, collect e fuel (.plan p) Shape.empty = some shape)
      (hn : shape.Renders key (some n)) (hv : Fields.get? members key = some v)
      (h : Enters e n v path q inner) : Enters e (.plan p) (.obj members) (.key key :: path) q inner
  | item {p q : Plan Node} {items : List Json} {inner : Fields Json} {i : Nat} {n : Node} {v : Json}
      {path : List Step} (hn : itemNodes p i = [n]) (hv : items[i]? = some v)
      (h : Enters e n v path q inner) : Enters e (.plan p) (.arr items) (.index i :: path) q inner

/-- An object has what the plans at its place require, and of that what is written keeps the
properties that these plans declare, or all if they admit undeclared ones. -/
def KeepsRequired (e : Engine) (p : Plan Node) (members written : Fields Json) : Prop :=
  ∀ q name, Applies e (.plan p) q → name ∈ q.required →
    Fields.contains members name = true ∧
      (Fields.contains written name = true ↔ Declares e (.plan p) name ∨ Admits e (.plan p))

/-- What an object is written as keeps its required properties where it is rendered. -/
theorem keepsRequired_of_write {fuel : Nat} {p : Plan Node} {path : String} {members : Fields Json}
    {x : Json} (h : write e (fuel + 1) (.plan p) path (.obj members) = some (.ok x)) :
    ∃ written, x = .obj written ∧ KeepsRequired e p members written := by
  rcases write_obj_eq_ok h with ⟨shape, hshape, ⟨hsilent, rfl⟩ | ⟨hrequired, written, rfl, hseq⟩⟩
  · -- a shape that says nothing requires nothing
    refine ⟨members, rfl, fun q name hq hname => ?_⟩
    have hspeaks : Shape.speaks q = true := by
      have hne : q.required.isEmpty = false := by
        cases hempty : q.required.isEmpty with
        | false => rfl
        | true => simp [List.isEmpty_iff.mp hempty] at hname
      simp [Shape.speaks, hne]
    have hdeclared := (declared_iff hshape).mpr ⟨q, hq, hspeaks⟩
    simp [hsilent] at hdeclared
  · refine ⟨written, rfl, fun q name hq hname => ?_⟩
    have hmember := hrequired name ((contains_required_iff hshape name).mpr ⟨q, hq, hname⟩)
    refine ⟨hmember, ?_⟩
    rw [contains_of_sequence hseq, contains_rendered_iff, exists_renders_iff hshape]
    simp [hmember]

/-- Wherever rendering comes to an object, what is written there keeps its required properties. -/
theorem keepsRequired_of_enters {n : Node} {v : Json} {path : List Step} {p : Plan Node}
    {members : Fields Json} (henters : Enters e n v path p members) :
    ∀ {fuel : Nat} {here : String} {x : Json}, write e fuel n here v = some (.ok x) →
      ∃ written, x.part? path = some (.obj written) ∧ KeepsRequired e p members written := by
  induction henters with
  | here =>
    intro fuel here x h
    cases fuel with
    | zero => simp [write] at h
    | succ fuel =>
      rcases keepsRequired_of_write h with ⟨written, rfl, hkeeps⟩
      exact ⟨written, Json.part?_nil _, hkeeps⟩
  | @reference n s v path q inner hs _ ih =>
    intro fuel here x h
    have hplan : ∀ p, n ≠ .plan p := by
      rintro p rfl
      simp at hs
    cases fuel with
    | zero => simp [write] at h
    | succ fuel =>
      rw [write_of_reference hplan, hs] at h
      exact ih h
  | @member p q shape members inner key n v path hshape hn hv _ ih =>
    intro fuel here x h
    rcases hshape with ⟨least, hshape⟩
    cases fuel with
    | zero => simp [write] at h
    | succ fuel =>
      rcases write_obj_eq_ok h with ⟨shape', hshape', hcases⟩
      obtain rfl := collect_unique hshape hshape'
      rcases hcases with ⟨hsilent, -⟩ | ⟨-, written, rfl, hseq⟩
      · -- a shape that says nothing renders nothing along a node
        have hgathers : Gathers (Applies e (.plan p)) Shape.empty shape :=
          gathers_of_collect least _ _ _ hshape
        rcases applies_of_renders hgathers hn with ⟨q, hq, hm⟩
        rcases (hgathers.silent hsilent).2 q hq with ⟨hkeywords, hadditional⟩
        simp [memberNodes_eq_nil hkeywords hadditional] at hm
      · rcases get?_of_sequence hseq (get?_of_renders hn hv) with ⟨y, hy, hwrite⟩
        rcases ih hwrite with ⟨inner, hinner, hkeeps⟩
        exact ⟨inner, Json.part?_key_eq_some_iff.mpr ⟨y, hy, hinner⟩, hkeeps⟩
  | item hn hv _ ih =>
    intro fuel here x h
    cases fuel with
    | zero => simp [write] at h
    | succ fuel =>
      rcases write_arr_eq_ok h hn hv with ⟨written, y, rfl, hy, hwrite⟩
      rcases ih hwrite with ⟨inner, hinner, hkeeps⟩
      exact ⟨inner, Json.part?_index_eq_some_iff.mpr ⟨y, hy, hinner⟩, hkeeps⟩

end HttpContract.Rendering

namespace HttpContract.Engine

open Normalization Rendering

variable {e : Engine} {s : CompiledSchema} {v : Json}

/-- Every object that is rendered for a text has the properties that the schemas at its place
require, and the text has those of them that one of these schemas declares, and all of them if one
admits undeclared properties. -/
theorem contains_required_of_stringify {text : String} (htext : e.stringify s v = .ok text) :
    ∃ x, e.render s v = .ok x ∧ text = x.render ∧
      ∀ path p members, Enters e s.root v path p members →
        ∃ written, x.part? path = some (.obj written) ∧ KeepsRequired e p members written := by
  rcases exists_render htext with ⟨x, hx, htext⟩
  rcases exists_write_of_render hx with ⟨fuel, hwrite⟩
  exact ⟨x, hx, htext, fun path p members henters => keepsRequired_of_enters henters hwrite⟩

/-- A schema that requires a property and declares the given ones. -/
def requiring (name : String) (properties : Fields Json) : Fragment :=
  .ofMembers [("properties", .obj properties), ("required", .arr [.str name])]

/-- The plan for it, with nodes for the properties. -/
def requiringPlan (name : String) (properties : List (String × Node)) : Plan Node :=
  { Plan.empty with properties := properties, required := [name] }

theorem basic_requiring (name : String) {properties : Fields Json}
    (h : ∀ m ∈ properties, Basic m.2) : Basic (requiring name properties).document := by
  refine .obj (fun m hm => ?_)
  rcases List.mem_cons.mp hm with rfl | hm
  · exact .properties h
  · obtain rfl := List.mem_singleton.mp hm
    exact .required name

theorem contains_required_declared : ∃ s x, ofRegistry .standard .empty =
      .ok (ofOptions .standard) ∧
    (ofOptions .standard).compile (requiring "b" [("b", .bool true)]) = .ok s ∧
    (ofOptions .standard).stringify s twoMembers = .ok (Json.render x) ∧
    ∀ path p members, Enters (ofOptions .standard) s.root twoMembers path p members →
      ∃ written, x.part? path = some (.obj written) ∧
        KeepsRequired (ofOptions .standard) p members written := by
  obtain ⟨l, hs⟩ := compile_of_basic .standard (requiring "b" [("b", .bool true)]) rfl rfl
    (basic_requiring "b" (fun _ hm => List.mem_singleton.mp hm ▸ .bool true))
  have htext : (ofOptions .standard).stringify
      ⟨.plan (requiringPlan "b" [("b", .plan Plan.empty)]),
        ⟨l, Evaluator.defaultBase, (requiring "b" [("b", .bool true)]).document⟩,
        (requiring "b" [("b", .bool true)]).document⟩ twoMembers =
      .ok (Json.render (.obj [("b", .ofNat 2)])) := by
    rw [stringify_eq, render_of_write rfl]
    rfl
  rcases contains_required_of_stringify htext with ⟨x, -, htext', hkeeps⟩
  exact ⟨_, x, ofRegistry_empty _, hs, htext.trans (congrArg _ htext'), hkeeps⟩

/-- A required property that is not declared is left out like any other that is not. -/
theorem not_contains_required_undeclared : ∃ s p, ofRegistry .standard .empty =
      .ok (ofOptions .standard) ∧
    (ofOptions .standard).compile (requiring "b" [("a", .bool true)]) = .ok s ∧
    Enters (ofOptions .standard) s.root twoMembers [] p [("a", .ofNat 1), ("b", .ofNat 2)] ∧
    "b" ∈ p.required ∧
    (ofOptions .standard).render s twoMembers = .ok (.obj [("a", .ofNat 1)]) ∧
    (ofOptions .standard).stringify s twoMembers =
      .ok (Json.render (.obj [("a", .ofNat 1)])) := by
  obtain ⟨l, hs⟩ := compile_of_basic .standard (requiring "b" [("a", .bool true)]) rfl rfl
    (basic_requiring "b" (fun _ hm => List.mem_singleton.mp hm ▸ .bool true))
  have hrender : (ofOptions .standard).render
      ⟨.plan (requiringPlan "b" [("a", .plan Plan.empty)]),
        ⟨l, Evaluator.defaultBase, (requiring "b" [("a", .bool true)]).document⟩,
        (requiring "b" [("a", .bool true)]).document⟩ twoMembers = .ok (.obj [("a", .ofNat 1)]) :=
    render_of_write rfl
  exact ⟨_, _, ofRegistry_empty _, hs, .here, List.mem_singleton.mpr rfl, hrender,
    (stringify_eq _ _ _).trans (congrArg (Except.map Json.render) hrender)⟩

end HttpContract.Engine
