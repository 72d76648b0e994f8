import HttpContract.Proofs.Walk

/-!
# What a walk keeps of a value

Scalars stay scalars, lists keep their length and objects stay objects. At the place where a node
stands an object gains only properties that the node declares, and loses none unless undeclared ones
may be dropped.
-/

namespace HttpContract.Normalization

variable {e : Engine}

/-! ## Conversion -/

@[simp] theorem convert?_obj (members : Fields Json) (t : JsonType) :
    Coercion.convert? (.obj members) t = none := by
  cases t <;> rfl

@[simp] theorem convert?_arr (items : List Json) (t : JsonType) :
    Coercion.convert? (.arr items) t = none := by
  cases t <;> rfl

theorem isScalar_of_convert? {v w : Json} {t : JsonType} (h : Coercion.convert? v t = some w) :
    isScalar w = true := by
  cases t with
  | number =>
    rcases Option.map_eq_some_iff.mp h with ⟨x, _, hx⟩
    rw [← hx]
    rfl
  | integer =>
    rcases Option.map_eq_some_iff.mp h with ⟨x, _, hx⟩
    rw [← hx]
    rfl
  | array => simp [Coercion.convert?] at h
  | object => simp [Coercion.convert?] at h
  | null =>
    simp only [Coercion.convert?] at h
    repeat' split at h
    all_goals cases h <;> rfl
  | boolean =>
    simp only [Coercion.convert?] at h
    repeat' split at h
    all_goals cases h <;> rfl
  | string =>
    simp only [Coercion.convert?] at h
    repeat' split at h
    all_goals cases h <;> rfl

theorem isScalar_of_convert?_isSome {v w : Json} {t : JsonType}
    (h : Coercion.convert? v t = some w) : isScalar v = true := by
  cases v with
  | obj members => simp at h
  | arr items => simp at h
  | _ => rfl

/-- Only scalars are converted, and only to scalars. -/
theorem eq_or_isScalar_of_coerceAny? {v w : Json} {types : List JsonType}
    (h : coerceAny? v types = some w) : w = v ∨ isScalar v = true ∧ isScalar w = true := by
  unfold coerceAny? at h
  split at h
  · exact Or.inl (Option.some.inj h).symm
  · rcases List.exists_of_findSome?_eq_some h with ⟨t, _, ht⟩
    unfold coerce? at ht
    split at ht
    · exact Or.inl (Option.some.inj ht).symm
    · exact Or.inr ⟨isScalar_of_convert?_isSome ht, isScalar_of_convert? ht⟩

theorem eq_or_isScalar_coerced (o : Options) (types : List JsonType) (v : Json) :
    coerced o types v = v ∨ isScalar v = true ∧ isScalar (coerced o types v) = true := by
  unfold coerced
  split
  · cases h : coerceAny? v types with
    | none => exact Or.inl rfl
    | some w => exact eq_or_isScalar_of_coerceAny? h
  · exact Or.inl rfl

@[simp] theorem coerced_obj (o : Options) (types : List JsonType) (members : Fields Json) :
    coerced o types (.obj members) = .obj members := by
  rcases eq_or_isScalar_coerced o types (.obj members) with h | ⟨h, _⟩
  · exact h
  · simp [isScalar] at h

@[simp] theorem coerced_arr (o : Options) (types : List JsonType) (items : List Json) :
    coerced o types (.arr items) = .arr items := by
  rcases eq_or_isScalar_coerced o types (.arr items) with h | ⟨h, _⟩
  · exact h
  · simp [isScalar] at h

theorem isScalar_coerced {v : Json} (h : isScalar v = true) (o : Options)
    (types : List JsonType) : isScalar (coerced o types v) = true := by
  rcases eq_or_isScalar_coerced o types v with heq | ⟨_, hw⟩
  · rw [heq]
    exact h
  · exact hw

/-! ## Kinds of values -/

/-- Both are scalars, lists of one length, or objects. -/
inductive Alike : Json → Json → Prop where
  | scalar {v w : Json} (hv : isScalar v = true) (hw : isScalar w = true) : Alike v w
  | list {xs ys : List Json} (h : ys.length = xs.length) : Alike (.arr xs) (.arr ys)
  | object {members members' : Fields Json} : Alike (.obj members) (.obj members')

theorem Alike.refl : ∀ v : Json, Alike v v
  | .obj _ => .object
  | .arr _ => .list rfl
  | .null | .bool _ | .num _ | .str _ => .scalar rfl rfl

theorem Alike.trans {u v w : Json} (h : Alike u v) (h' : Alike v w) : Alike u w := by
  cases h with
  | scalar hu hv =>
    cases h' with
    | scalar _ hw => exact .scalar hu hw
    | list => simp [isScalar] at hv
    | object => simp [isScalar] at hv
  | list hlen =>
    cases h' with
    | scalar hv _ => simp [isScalar] at hv
    | list hlen' => exact .list (hlen'.trans hlen)
  | object =>
    cases h' with
    | scalar hv _ => simp [isScalar] at hv
    | object => exact .object

theorem alike_coerced (o : Options) (types : List JsonType) (v : Json) :
    Alike v (coerced o types v) := by
  cases v with
  | obj members =>
    rw [coerced_obj]
    exact .object
  | arr items =>
    rw [coerced_arr]
    exact .list rfl
  | _ => exact .scalar rfl (isScalar_coerced rfl o types)

theorem length_of_items {p : Plan Node} {index : Nat} {items items' : List Json} {clean : Bool}
    (h : Items e p index items items' clean) : items'.length = items.length := by
  induction items generalizing index items' clean with
  | nil =>
    cases h
    rfl
  | cons v rest ih =>
    cases h with
    | cons _ hrest => rw [List.length_cons, List.length_cons, ih hrest]

theorem Parts.alike {p : Plan Node} {strip clean : Bool} {v w : Json}
    (h : Parts e p strip v w clean) : Alike v w := by
  cases h with
  | object _ _ => exact .object
  | list hitems => exact .list (length_of_items hitems)
  | scalar hv => exact .scalar hv hv

mutual

/-- A walk keeps the kind of a value. -/
theorem Turns.alike {n : Node} {strip clean : Bool} {v w : Json} :
    Turns e n strip v w clean → Alike v w
  | .nowhere _ _ => .refl v
  | .reference _ h => h.alike
  | .plan hbranches hparts =>
    (alike_coerced e.options _ v).trans (hbranches.alike.trans hparts.alike)
termination_by structural h => h

theorem Runs.alike {nodes : List Node} {strip clean : Bool} {v w : Json} :
    Runs e strip nodes v w clean → Alike v w
  | .nil => .refl v
  | .cons h hrest => h.alike.trans hrest.alike
termination_by structural h => h

end

/-! ## Keys of objects -/

theorem contains_withDefaults_of_contains (properties : List (String × Node)) (key : String) :
    ∀ members : Fields Json, Fields.contains members key = true →
      Fields.contains (withDefaults properties members) key = true := by
  induction properties with
  | nil =>
    intro members h
    exact h
  | cons entry rest ih =>
    intro members h
    rcases entry with ⟨name, n⟩
    refine ih _ ?_
    dsimp only
    repeat' split
    all_goals simp [h]

theorem contains_of_contains_withDefaults (properties : List (String × Node)) (key : String) :
    ∀ members : Fields Json, Fields.contains (withDefaults properties members) key = true →
      Fields.contains members key = true ∨ Fields.contains properties key = true := by
  induction properties with
  | nil =>
    intro members h
    exact Or.inl h
  | cons entry rest ih =>
    intro members h
    rcases entry with ⟨name, n⟩
    rw [Fields.contains_cons]
    rcases ih _ h with h | h
    · dsimp only at h
      repeat' split at h
      all_goals grind [Fields.contains_insert]
    · simp [h]

/-- Filling in defaults adds declared properties only. -/
theorem contains_of_contains_filled {p : Plan Node} {members : Fields Json} {key : String}
    (h : Fields.contains (filled e p members) key = true) :
    Fields.contains members key = true ∨ Declares e (.plan p) key := by
  unfold filled at h
  split at h
  · rcases contains_of_contains_withDefaults p.properties key members h with h | h
    · exact Or.inl h
    · exact Or.inr ⟨p, Applies.self, by simp [Plan.declaresOwn, h]⟩
  · exact Or.inl h

theorem contains_filled_of_contains {p : Plan Node} {members : Fields Json} {key : String}
    (h : Fields.contains members key = true) :
    Fields.contains (filled e p members) key = true := by
  unfold filled
  split
  · exact contains_withDefaults_of_contains p.properties key members h
  · exact h

theorem keys_of_members {p : Plan Node} {members members' : Fields Json} {clean : Bool}
    (h : Members e p members members' clean) : Fields.keys members' = Fields.keys members := by
  induction members generalizing members' clean with
  | nil =>
    cases h
    rfl
  | cons m rest ih =>
    cases h with
    | cons _ hrest =>
      have hkeys := ih hrest
      simp only [Fields.keys, List.map_cons] at hkeys ⊢
      rw [hkeys]

theorem contains_of_members {p : Plan Node} {members members' : Fields Json} {clean : Bool}
    (h : Members e p members members' clean) (key : String) :
    Fields.contains members' key = Fields.contains members key := by
  rw [Bool.eq_iff_iff, Fields.contains_iff_mem_keys, Fields.contains_iff_mem_keys,
    keys_of_members h]

/-- Of the members with defaults filled in, those are kept that are not dropped. -/
theorem contains_of_prepared {fuel : Nat} {p : Plan Node} {strip : Bool}
    {members ready : Fields Json} (h : prepared e fuel p strip members = some ready)
    (key : String) : Fields.contains ready key = true ↔
      Fields.contains (filled e p members) key = true ∧ ¬ (strip = true ∧ Drops e p key) := by
  rw [eq_of_prepared h]
  simp only [Fields.contains_iff, List.mem_filter, decide_eq_true_eq]
  constructor
  · rintro ⟨v, hmem, hkept⟩
    exact ⟨⟨v, hmem⟩, hkept⟩
  · rintro ⟨⟨v, hmem⟩, hkept⟩
    exact ⟨v, hmem, hkept⟩

/-- The members of an object after a walk over its parts along a plan. -/
theorem contains_of_parts {p : Plan Node} {strip clean : Bool} {members members' : Fields Json}
    (h : Parts e p strip (.obj members) (.obj members') clean) (key : String) :
    Fields.contains members' key = true ↔
      Fields.contains (filled e p members) key = true ∧ ¬ (strip = true ∧ Drops e p key) := by
  cases h with
  | object hready hmembers =>
    rcases hready with ⟨fuel, hready⟩
    rw [contains_of_members hmembers, contains_of_prepared hready]
  | scalar h => simp [isScalar] at h

theorem Alike.eq_obj {members : Fields Json} {w : Json} (h : Alike (.obj members) w) :
    ∃ members', w = .obj members' := by
  cases h with
  | scalar hv _ => simp [isScalar] at hv
  | object => exact ⟨_, rfl⟩

mutual

/-- An object gains only properties that the node declares. -/
theorem declares_of_turns {n : Node} {strip clean : Bool} {v w : Json} :
    Turns e n strip v w clean → ∀ members members', v = .obj members → w = .obj members' →
      ∀ key, Fields.contains members' key = true →
        Fields.contains members key = true ∨ Declares e n key
  | .nowhere _ _, members, members', hv, hw, key, h => by
    have heq : members = members' := Json.obj.inj (hv.symm.trans hw)
    rw [heq]
    exact Or.inl h
  | .reference hs hturns, members, members', hv, hw, key, h => by
    rcases declares_of_turns hturns members members' hv hw key h with h | ⟨q, hq, hown⟩
    · exact Or.inl h
    · exact Or.inr ⟨q, Applies.reference hs hq, hown⟩
  | .plan (p := p) hbranches hparts, members, members', hv, hw, key, h => by
    rw [hw] at hparts
    have hcoerced : coerced e.options p.types v = .obj members := by rw [hv, coerced_obj]
    rcases (hcoerced ▸ hbranches.alike).eq_obj with ⟨between, hbetween⟩
    rw [hbetween] at hparts
    rcases contains_of_contains_filled ((contains_of_parts hparts key).mp h).1 with h | h
    · rcases declares_of_runs hbranches members between hcoerced hbetween key h with
        h | ⟨m, hm, q, hq, hown⟩
      · exact Or.inl h
      · exact Or.inr ⟨q, Applies.branch hm hq, hown⟩
    · exact Or.inr h
termination_by structural h => h

theorem declares_of_runs {nodes : List Node} {strip clean : Bool} {v w : Json} :
    Runs e strip nodes v w clean → ∀ members members', v = .obj members → w = .obj members' →
      ∀ key, Fields.contains members' key = true →
        Fields.contains members key = true ∨ ∃ n ∈ nodes, Declares e n key
  | .nil, members, members', hv, hw, key, h => by
    have heq : members = members' := Json.obj.inj (hv.symm.trans hw)
    rw [heq]
    exact Or.inl h
  | .cons hturns hrest, members, members', hv, hw, key, h => by
    rcases (hv ▸ hturns.alike).eq_obj with ⟨between, hbetween⟩
    -- a node may declare what a later one adds, and the other way round
    rcases declares_of_runs hrest between members' hbetween hw key h with h | ⟨m, hm, hdeclares⟩
    · rcases declares_of_turns hturns members between hv hbetween key h with h | hdeclares
      · exact Or.inl h
      · exact Or.inr ⟨_, List.mem_cons_self, hdeclares⟩
    · exact Or.inr ⟨m, List.mem_cons_of_mem _ hm, hdeclares⟩
termination_by structural h => h

end

mutual

/-- Where nothing may be dropped an object loses no property. -/
theorem contains_of_turns {n : Node} {strip clean : Bool} {v w : Json} :
    Turns e n strip v w clean → strip = false → ∀ members members', v = .obj members →
      w = .obj members' → ∀ key, Fields.contains members key = true →
        Fields.contains members' key = true
  | .nowhere _ _, _, members, members', hv, hw, key, h => by
    have heq : members = members' := Json.obj.inj (hv.symm.trans hw)
    rw [← heq]
    exact h
  | .reference _ hturns, hstrip, members, members', hv, hw, key, h =>
    contains_of_turns hturns hstrip members members' hv hw key h
  | .plan (p := p) hbranches hparts, hstrip, members, members', hv, hw, key, h => by
    rw [hw] at hparts
    have hcoerced : coerced e.options p.types v = .obj members := by rw [hv, coerced_obj]
    rcases (hcoerced ▸ hbranches.alike).eq_obj with ⟨between, hbetween⟩
    rw [hbetween] at hparts
    -- branches never drop anything, whatever the flag
    have hkept : Fields.contains between key = true :=
      contains_of_runs hbranches rfl members between hcoerced hbetween key h
    exact (contains_of_parts hparts key).mpr ⟨contains_filled_of_contains hkept, by simp [hstrip]⟩
termination_by structural h => h

theorem contains_of_runs {nodes : List Node} {strip clean : Bool} {v w : Json} :
    Runs e strip nodes v w clean → strip = false → ∀ members members', v = .obj members →
      w = .obj members' → ∀ key, Fields.contains members key = true →
        Fields.contains members' key = true
  | .nil, _, members, members', hv, hw, key, h => by
    have heq : members = members' := Json.obj.inj (hv.symm.trans hw)
    rw [← heq]
    exact h
  | .cons hturns hrest, hstrip, members, members', hv, hw, key, h => by
    rcases (hv ▸ hturns.alike).eq_obj with ⟨between, hbetween⟩
    have hkept : Fields.contains between key = true :=
      contains_of_turns hturns hstrip members between hv hbetween key h
    exact contains_of_runs hrest hstrip between members' hbetween hw key hkept
termination_by structural h => h

end

end HttpContract.Normalization
