import HttpContract.Proofs.Shaping
import HttpContract.Proofs.Survival

/-!
# Rendering as a relation

`Writes` gives the rules of successful rendering without the steps it counts and the paths it
reports errors with. What is written has a part only where the value has one, and of the same kind
(`keeps_of_writes`).
-/

namespace HttpContract.Rendering

open Normalization

variable {e : Engine}

/-! ## Rules -/

mutual

/-- Rendering a value along a node writes another. -/
inductive Writes (e : Engine) : Node → Json → Json → Prop where
  | nowhere {n : Node} {v : Json} (hn : ∀ p, n ≠ .plan p) (hs : e.resolve? n = none) :
      Writes e n v v
  | reference {n : Node} {s : CompiledSchema} {v x : Json} (hs : e.resolve? n = some s)
      (h : Writes e s.root v x) : Writes e n v x
  | scalar {p : Plan Node} {v x : Json} (hv : isScalar v = true) (hx : isScalar x = true) :
      Writes e (.plan p) v x
  | silent {p : Plan Node} {shape : Shape} {members : Fields Json}
      (hshape : Gathers (Applies e (.plan p)) Shape.empty shape) (h : shape.declared = false) :
      Writes e (.plan p) (.obj members) (.obj members)
  | object {p : Plan Node} {shape : Shape} {members written : Fields Json}
      (hshape : Gathers (Applies e (.plan p)) Shape.empty shape)
      (h : WritesMembers e (shape.declaredMembers members ++ shape.otherMembers members) written) :
      Writes e (.plan p) (.obj members) (.obj written)
  | list {p : Plan Node} {items written : List Json} (h : WritesItems e p 0 items written) :
      Writes e (.plan p) (.arr items) (.arr written)

/-- Rendering members, each along its node if it has one. -/
inductive WritesMembers (e : Engine) : Fields (Option Node × Json) → Fields Json → Prop where
  | nil : WritesMembers e [] []
  | node {key : String} {n : Node} {v x : Json} {rest : Fields (Option Node × Json)}
      {written : Fields Json} (h : Writes e n v x) (hrest : WritesMembers e rest written) :
      WritesMembers e ((key, some n, v) :: rest) ((key, x) :: written)
  | plain {key : String} {v : Json} {rest : Fields (Option Node × Json)} {written : Fields Json}
      (hrest : WritesMembers e rest written) :
      WritesMembers e ((key, none, v) :: rest) ((key, v) :: written)

/-- Rendering items from an index on, each along the node of the plan for it. -/
inductive WritesItems (e : Engine) :
    Plan Node → (index : Nat) → List Json → List Json → Prop where
  | nil {p : Plan Node} {index : Nat} : WritesItems e p index [] []
  | node {p : Plan Node} {index : Nat} {n : Node} {v x : Json} {rest written : List Json}
      (hn : itemNodes p index = [n]) (h : Writes e n v x)
      (hrest : WritesItems e p (index + 1) rest written) :
      WritesItems e p index (v :: rest) (x :: written)
  | plain {p : Plan Node} {index : Nat} {v : Json} {rest written : List Json}
      (hn : itemNodes p index = [])
      (hrest : WritesItems e p (index + 1) rest written) :
      WritesItems e p index (v :: rest) (v :: written)

end

/-! ## Rendering follows the rules -/

/-- A rendering whose successes follow the rules. -/
def Sound (e : Engine) (write : Node → String → Json → Outcome Json) : Prop :=
  ∀ n path v x, write n path v = some (.ok x) → Writes e n v x

theorem sequence_cons_eq_ok {α β : Type} {write : α → Outcome β} {x : α} {rest : List α}
    {ys : List β} (h : sequence write (x :: rest) = some (.ok ys)) :
    ∃ y others, write x = some (.ok y) ∧ sequence write rest = some (.ok others) ∧
      ys = y :: others := by
  rw [sequence] at h
  split at h
  · simp at h
  · simp at h
  · next y hy =>
    split at h
    · simp at h
    · simp at h
    · next others hothers =>
      refine ⟨y, others, hy, hothers, ?_⟩
      simpa using h.symm

theorem exists_of_map {α β : Type} {f : α → β} {r : Outcome α} {b : β}
    (h : r.map (fun x => x.map f) = some (.ok b)) : ∃ a, r = some (.ok a) ∧ f a = b := by
  cases r with
  | none => simp at h
  | some r =>
    cases r with
    | error err => simp [Except.map] at h
    | ok a => exact ⟨a, rfl, by simpa [Except.map] using h⟩

section

variable {write : Node → String → Json → Outcome Json}

theorem writesMembers_of_sequence (hwrite : Sound e write) (path : String) :
    ∀ (members : Fields (Option Node × Json)) (written : Fields Json),
      sequence (member write path) members = some (.ok written) →
        WritesMembers e members written := by
  intro members
  induction members with
  | nil =>
    intro written h
    obtain rfl : [] = written := by simpa [sequence] using h
    exact .nil
  | cons m rest ih =>
    intro written h
    rcases sequence_cons_eq_ok h with ⟨y, others, hy, hothers, rfl⟩
    rcases m with ⟨key, node?, v⟩
    cases node? with
    | none =>
      obtain rfl : (key, v) = y := by simpa [member] using hy
      exact .plain (ih others hothers)
    | some n =>
      rcases exists_of_map hy with ⟨x, hx, rfl⟩
      exact .node (hwrite n _ v x hx) (ih others hothers)

theorem itemNodes_eq (p : Plan Node) (i : Nat) :
    itemNodes p i = ((p.leading[i]?).or p.items).toList := by
  unfold itemNodes
  cases p.leading[i]? <;> rfl

theorem writesItems_of_sequence (hwrite : Sound e write) (p : Plan Node) (path : String) :
    ∀ (items : List Json) (index : Nat) (written : List Json),
      sequence (item write p path) ((List.range' index items.length).zip items) =
        some (.ok written) → WritesItems e p index items written := by
  intro items
  induction items with
  | nil =>
    intro index written h
    obtain rfl : [] = written := by simpa [sequence] using h
    exact .nil
  | cons v rest ih =>
    intro index written h
    rw [List.length_cons, List.range'_succ, List.zip_cons_cons] at h
    rcases sequence_cons_eq_ok h with ⟨y, others, hy, hothers, rfl⟩
    have hrest : WritesItems e p (index + 1) rest others := ih (index + 1) others hothers
    unfold item at hy
    split at hy
    · next n hn => exact .node (by rw [itemNodes_eq, hn]; rfl) (hwrite n _ v y hy) hrest
    · next hn =>
      obtain rfl : v = y := by simpa using hy
      exact .plain (by rw [itemNodes_eq, hn]; rfl) hrest

theorem writesItems_refl {p : Plan Node} (hn : ∀ i, itemNodes p i = []) :
    ∀ (items : List Json) (index : Nat), WritesItems e p index items items
  | [], _ => .nil
  | _ :: rest, index => .plain (hn index) (writesItems_refl hn rest (index + 1))

end

theorem writes_plan {fuel : Nat} (hwrite : Sound e (write e fuel)) {p : Plan Node} {path : String}
    {v x : Json} (h : write e (fuel + 1) (.plan p) path v = some (.ok x)) :
    Writes e (.plan p) v x := by
  -- only scalars are converted, so the cases below are those of the value itself
  have hvalue : ∀ {u}, (if p.types.isEmpty then some v else coerceAny? v p.types) = some u →
      u = v ∨ isScalar v = true ∧ isScalar u = true := by
    intro u hu
    split at hu
    · exact Or.inl (Option.some.inj hu).symm
    · exact eq_or_isScalar_of_coerceAny? hu
  simp only [write] at h
  split at h
  · simp at h
  · next members hu =>
    rcases hvalue hu with rfl | ⟨_, hscalar⟩
    · split at h
      · simp at h
      · next shape hshape =>
        have hgathers : Gathers (Applies e (.plan p)) Shape.empty shape :=
          gathers_of_collect (fuel + 1) Shape.empty (.plan p) shape hshape
        split at h
        · unfold object at h
          split at h
          · simp at h
          · rcases exists_of_map h with ⟨written, hwritten, rfl⟩
            exact .object hgathers (writesMembers_of_sequence hwrite path _ written hwritten)
        · next hdeclared =>
          obtain rfl : Json.obj members = x := by simpa using h
          exact .silent hgathers (by simpa using hdeclared)
    · simp [isScalar] at hscalar
  · next items hu =>
    rcases hvalue hu with rfl | ⟨_, hscalar⟩
    · split at h
      · next hnone =>
        obtain rfl : Json.arr items = x := by simpa using h
        rcases hnone with ⟨hleading, hitems⟩
        have hnodes : ∀ i, itemNodes p i = [] := by
          intro i
          rw [itemNodes_eq, List.isEmpty_iff.mp hleading, Option.isNone_iff_eq_none.mp hitems]
          rfl
        exact .list (writesItems_refl hnodes items 0)
      · rcases exists_of_map h with ⟨written, hwritten, rfl⟩
        rw [List.range_eq_range'] at hwritten
        exact .list (writesItems_of_sequence hwrite p path items 0 written hwritten)
    · simp [isScalar] at hscalar
  · next u hobj harr hu =>
    obtain rfl : u = x := by simpa using h
    have hscalar : isScalar u = true := by
      cases u with
      | obj members => exact absurd rfl (hobj members)
      | arr items => exact absurd rfl (harr items)
      | _ => rfl
    rcases hvalue hu with rfl | ⟨hv, _⟩
    · exact .scalar hscalar hscalar
    · exact .scalar hv hscalar

theorem write_of_reference {n : Node} (hn : ∀ p, n ≠ .plan p) (fuel : Nat) (path : String)
    (v : Json) :
    write e (fuel + 1) n path v =
      match e.resolve? n with
      | some s => write e fuel s.root path v
      | none => some (.ok v) := by
  cases n with
  | plan p => exact absurd rfl (hn p)
  | inline root evaluator source => rfl
  | deferred handle => rfl

/-- Rendering with any number of steps follows the rules. -/
theorem sound_write : ∀ fuel, Sound e (write e fuel) := by
  intro fuel
  induction fuel with
  | zero =>
    intro n path v x h
    simp [write] at h
  | succ fuel ih =>
    intro n path v x h
    by_cases hn : ∃ p, n = .plan p
    · rcases hn with ⟨p, rfl⟩
      exact writes_plan ih h
    · have hplan : ∀ p, n ≠ .plan p := fun p hp => hn ⟨p, hp⟩
      rw [write_of_reference hplan] at h
      cases hs : e.resolve? n with
      | none =>
        obtain rfl : v = x := by simpa [hs] using h
        exact .nowhere hplan hs
      | some s => exact .reference hs (ih s.root path v x (by simpa [hs] using h))

/-! ## Rendered members -/

/-- A shape renders a property along the given node, or as it is where there is none. -/
def Shape.Renders (s : Shape) (key : String) (node? : Option Node) : Prop :=
  (∃ n, node? = some n ∧ Fields.get? s.properties key = some n) ∨
    Fields.contains s.properties key = false ∧ s.other? key = some node?

theorem get?_declaredMembers (s : Shape) (members : Fields Json) (key : String) :
    Fields.get? (s.declaredMembers members) key =
      (Fields.get? s.properties key).bind
        (fun n => (Fields.get? members key).map (fun v => (some n, v))) := by
  unfold Shape.declaredMembers
  rw [Fields.get?_filterMap]
  · simp [Function.comp_def]
  · intro m b h
    rcases Option.map_eq_some_iff.mp h with ⟨v, _, rfl⟩
    rfl
  · intro n n' h
    simpa using h

theorem get?_otherMembers (s : Shape) (members : Fields Json) (key : String) :
    Fields.get? (s.otherMembers members) key =
      if Fields.contains s.properties key then none
      else (Fields.get? members key).bind
        (fun v => (s.other? key).map (fun n => (n, v))) := by
  unfold Shape.otherMembers
  rw [Fields.get?_filterMap]
  · cases hcontains : Fields.contains s.properties key with
    | true => simp [hcontains]
    | false => simp [hcontains, Function.comp_def]
  · intro m b h
    dsimp only at h
    split at h
    · simp at h
    · rcases Option.map_eq_some_iff.mp h with ⟨n, _, rfl⟩
      rfl
  · intro v v' h
    dsimp only at h ⊢
    split at h
    · next hcontains => rw [if_pos hcontains]
    · next hcontains =>
      rw [if_neg hcontains]
      simpa using h

theorem mem_of_mem_rendered {s : Shape} {members : Fields Json} {m : String × Option Node × Json}
    (h : m ∈ s.declaredMembers members ++ s.otherMembers members) : (m.1, m.2.2) ∈ members := by
  rcases List.mem_append.mp h with h | h
  · rcases List.mem_filterMap.mp h with ⟨⟨name, n⟩, -, hm⟩
    rcases Option.map_eq_some_iff.mp hm with ⟨v, hv, rfl⟩
    exact Fields.mem_of_get? hv
  · rcases List.mem_filterMap.mp h with ⟨⟨key, v⟩, hmem, hm⟩
    dsimp only at hm
    split at hm
    · cases hm
    · rcases Option.map_eq_some_iff.mp hm with ⟨n?, -, rfl⟩
      exact hmem

/-- A member that is rendered is one of the object. -/
theorem renders_of_get? {s : Shape} {members : Fields Json} {key : String} {node? : Option Node}
    {u : Json} (h : Fields.get? (s.declaredMembers members ++ s.otherMembers members) key =
      some (node?, u)) : Fields.get? members key = some u ∧ s.Renders key node? := by
  rw [Fields.get?_append, Option.or_eq_some_iff, get?_declaredMembers, get?_otherMembers] at h
  rcases h with h | ⟨_, h⟩
  · rcases Option.bind_eq_some_iff.mp h with ⟨n, hn, hu⟩
    rcases Option.map_eq_some_iff.mp hu with ⟨v, hv, heq⟩
    rcases Prod.mk.inj heq with ⟨rfl, rfl⟩
    exact ⟨hv, Or.inl ⟨n, rfl, hn⟩⟩
  · split at h
    · simp at h
    · next hcontains =>
      rcases Option.bind_eq_some_iff.mp h with ⟨v, hv, hu⟩
      rcases Option.map_eq_some_iff.mp hu with ⟨n, hn, heq⟩
      rcases Prod.mk.inj heq with ⟨rfl, rfl⟩
      exact ⟨hv, Or.inr ⟨by simpa using hcontains, hn⟩⟩

/-- What is written under a key is the member itself or what its node writes of it. -/
theorem written_of_get? {members : Fields (Option Node × Json)} {written : Fields Json}
    {key : String} {y : Json} : WritesMembers e members written →
      Fields.get? written key = some y → ∃ node? u, Fields.get? members key = some (node?, u) ∧
        (node? = none ∧ y = u ∨ ∃ n, node? = some n ∧ Writes e n u y)
  | .nil, h => by simp at h
  | .node hwrites hrest, h => by
    rw [Fields.get?_cons] at h
    rw [Fields.get?_cons]
    split at h
    · next heq =>
      obtain rfl := Option.some.inj h
      exact ⟨_, _, by rw [if_pos heq], Or.inr ⟨_, rfl, hwrites⟩⟩
    · next hne =>
      rw [if_neg hne]
      exact written_of_get? hrest h
  | .plain hrest, h => by
    rw [Fields.get?_cons] at h
    rw [Fields.get?_cons]
    split at h
    · next heq =>
      obtain rfl := Option.some.inj h
      exact ⟨_, _, by rw [if_pos heq], Or.inl ⟨rfl, rfl⟩⟩
    · next hne =>
      rw [if_neg hne]
      exact written_of_get? hrest h
termination_by structural h => h

theorem keeps_obj {members written : Fields Json}
    (h : ∀ key y, Fields.get? written key = some y →
      ∃ u, Fields.get? members key = some u ∧ ∀ path, Keeps y u path) (path : List Step) :
    Keeps (.obj written) (.obj members) path := by
  cases path with
  | nil => exact Alike.object.keeps_nil
  | cons step path =>
    intro z hz
    cases step with
    | index i => simp [Json.part?_cons, Json.child?] at hz
    | key key =>
      rcases Json.part?_key_eq_some_iff.mp hz with ⟨y, hy, hz⟩
      rcases h key y hy with ⟨u, hu, hkeeps⟩
      rcases hkeeps path z hz with ⟨z', hz', halike⟩
      exact ⟨z', Json.part?_key_eq_some_iff.mpr ⟨u, hu, hz'⟩, halike⟩

theorem keeps_arr {items written : List Json} (hlen : items.length = written.length)
    (h : ∀ (i : Nat) y, written[i]? = some y → ∃ u, items[i]? = some u ∧ ∀ path, Keeps y u path)
    (path : List Step) : Keeps (.arr written) (.arr items) path := by
  cases path with
  | nil => exact (Alike.list hlen).keeps_nil
  | cons step path =>
    intro z hz
    cases step with
    | key key => simp [Json.part?_cons, Json.child?] at hz
    | index i =>
      rcases Json.part?_index_eq_some_iff.mp hz with ⟨y, hy, hz⟩
      rcases h i y hy with ⟨u, hu, hkeeps⟩
      rcases hkeeps path z hz with ⟨z', hz', halike⟩
      exact ⟨z', Json.part?_index_eq_some_iff.mpr ⟨u, hu, hz'⟩, halike⟩

theorem keeps_scalar {v x : Json} (hv : isScalar v = true) (hx : isScalar x = true)
    (path : List Step) : Keeps x v path := by
  cases path with
  | nil => exact (Alike.scalar hx hv).keeps_nil
  | cons step path =>
    intro z hz
    cases x with
    | obj members => simp [isScalar] at hx
    | arr items => simp [isScalar] at hx
    | _ => simp [Json.part?_cons, Json.child?] at hz

theorem length_of_writesItems {p : Plan Node} {index : Nat} {items written : List Json} :
    WritesItems e p index items written → items.length = written.length
  | .nil => rfl
  | .node _ _ hrest => by rw [List.length_cons, List.length_cons, length_of_writesItems hrest]
  | .plain _ hrest => by rw [List.length_cons, List.length_cons, length_of_writesItems hrest]
termination_by structural h => h

mutual

/-- What is written has a part only where the value has one, and of the same kind. -/
theorem keeps_of_writes {n : Node} {v x : Json} : Writes e n v x → ∀ path, Keeps x v path
  | .nowhere _ _ => .refl v
  | .reference _ h => keeps_of_writes h
  | .scalar hv hx => keeps_scalar hv hx
  | .silent _ _ => .refl _
  | .object _ h => keeps_obj (fun key y hy => by
      rcases keeps_of_writesMembers h hy with ⟨a, ha, hkeeps⟩
      exact ⟨a.2, (renders_of_get? ha).1, hkeeps⟩)
  | .list h => keeps_arr (length_of_writesItems h) (fun _ _ hy => keeps_of_writesItems h hy)
termination_by structural h => h

theorem keeps_of_writesMembers {members : Fields (Option Node × Json)} {written : Fields Json} :
    WritesMembers e members written → ∀ {key y}, Fields.get? written key = some y →
      ∃ a, Fields.get? members key = some a ∧ ∀ path, Keeps y a.2 path
  | .nil, _, _, h => by simp at h
  | .node hwrites hrest, _, _, h => by
    rw [Fields.get?_cons] at h
    rw [Fields.get?_cons]
    split at h
    · next heq =>
      obtain rfl := Option.some.inj h
      exact ⟨_, by rw [if_pos heq], keeps_of_writes hwrites⟩
    · next hne =>
      rw [if_neg hne]
      exact keeps_of_writesMembers hrest h
  | .plain hrest, _, _, h => by
    rw [Fields.get?_cons] at h
    rw [Fields.get?_cons]
    split at h
    · next heq =>
      obtain rfl := Option.some.inj h
      exact ⟨_, by rw [if_pos heq], .refl _⟩
    · next hne =>
      rw [if_neg hne]
      exact keeps_of_writesMembers hrest h
termination_by structural h => h

theorem keeps_of_writesItems {p : Plan Node} {index : Nat} {items written : List Json} :
    WritesItems e p index items written → ∀ {i : Nat} {y}, written[i]? = some y →
      ∃ u, items[i]? = some u ∧ ∀ path, Keeps y u path
  | .nil, _, _, h => by simp at h
  | .node _ hwrites _, 0, _, h => by
    obtain rfl := Option.some.inj h
    exact ⟨_, rfl, keeps_of_writes hwrites⟩
  | .plain _ _, 0, _, h => by
    obtain rfl := Option.some.inj h
    exact ⟨_, rfl, .refl _⟩
  | .node _ _ hrest, i + 1, _, h => by
    simpa using keeps_of_writesItems hrest (i := i) (by simpa using h)
  | .plain _ hrest, i + 1, _, h => by
    simpa using keeps_of_writesItems hrest (i := i) (by simpa using h)
termination_by structural h => h

end

end HttpContract.Rendering
