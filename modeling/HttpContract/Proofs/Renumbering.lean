import HttpContract.Proofs.RenamedEvaluators
import HttpContract.Proofs.Unreferenced

/-!
# Renumbered handles

`Renumbered` relates a document to the one in which every marker for a handle names another one.
Markers are replaced by references for evaluators (`alike_rewrite`), and the references to the
renumbered handles are the renamed ones.
-/

namespace HttpContract

open EvaluationForm Library Json Identifier

/-! ## Documents with other handles -/

mutual

/-- A document, and the one in which every marker for a handle names the renumbered handle. -/
inductive Renumbered (π : Nat → Nat) : Json → Json → Prop where
  | marker {members members' : Fields Json} {handle : Nat}
      (h : Marker.ofMembers? members = some (.ok (.deferred handle)))
      (h' : Marker.ofMembers? members' = some (.ok (.deferred (π handle)))) :
      Renumbered π (.obj members) (.obj members')
  | object {members members' : Fields Json}
      (hm : ∀ handle, Marker.ofMembers? members ≠ some (.ok (.deferred handle)))
      (h : RenumberedMembers π members members') : Renumbered π (.obj members) (.obj members')
  | list {items items' : List Json} (h : RenumberedItems π items items') :
      Renumbered π (.arr items) (.arr items')
  | scalar {d : Json} (hd : Normalization.isScalar d = true) : Renumbered π d d

/-- The members of an object, with renumbered handles in their values. -/
inductive RenumberedMembers (π : Nat → Nat) : Fields Json → Fields Json → Prop where
  | nil : RenumberedMembers π [] []
  | cons {k : String} {d d' : Json} {rest rest' : Fields Json} (h : Renumbered π d d')
      (hrest : RenumberedMembers π rest rest') :
      RenumberedMembers π ((k, d) :: rest) ((k, d') :: rest')

/-- The items of a list, with renumbered handles. -/
inductive RenumberedItems (π : Nat → Nat) : List Json → List Json → Prop where
  | nil : RenumberedItems π [] []
  | cons {d d' : Json} {rest rest' : List Json} (h : Renumbered π d d')
      (hrest : RenumberedItems π rest rest') : RenumberedItems π (d :: rest) (d' :: rest')

end

/-- No object in the document has the key of markers. -/
def Unmarked (d : Json) : Prop :=
  ∀ members, .obj members ∈ d.components → Fields.contains members Marker.key = false

theorem mem_members?_iff {c : Json} {members : Fields Json} :
    members ∈ c.members? ↔ c = .obj members := by
  cases c <;> simp [members?]

/-- What holds of the objects in a document can be decided object by object. -/
instance decidableForallObject (P : Fields Json → Prop) [DecidablePred P] (d : Json) :
    Decidable (∀ members, .obj members ∈ d.components → P members) :=
  decidable_of_iff (∀ c ∈ d.components, ∀ members ∈ c.members?, P members)
    ⟨fun h _ hm => h _ hm _ (mem_members?_iff.mpr rfl),
      fun h _ hc members hm => h members (mem_members?_iff.mp hm ▸ hc)⟩

instance (d : Json) : Decidable (Unmarked d) := decidableForallObject _ d

theorem Unmarked.of_subset {d d' : Json} (h : Unmarked d)
    (hsub : d'.components ⊆ d.components) : Unmarked d' :=
  fun members hm => h members (hsub hm)

variable {π : Nat → Nat}

namespace RenumberedMembers

variable {members members' : Fields Json}

theorem forall₂ : ∀ {members members' : Fields Json}, RenumberedMembers π members members' →
    List.Forall₂ (fun m m' => m.1 = m'.1 ∧ Renumbered π m.2 m'.2) members members'
  | _, _, .nil => .nil
  | _, _, .cons h hrest => .cons ⟨rfl, h⟩ hrest.forall₂

theorem rel_get? (h : RenumberedMembers π members members') (key : String) :
    Option.Rel (Renumbered π) (Fields.get? members key) (Fields.get? members' key) :=
  HttpContract.rel_get? key h.forall₂

end RenumberedMembers

theorem RenumberedItems.forall₂ : ∀ {items items' : List Json}, RenumberedItems π items items' →
    List.Forall₂ (Renumbered π) items items'
  | _, _, .nil => .nil
  | _, _, .cons h hrest => .cons h hrest.forall₂

namespace Renumbered

theorem obj {members : Fields Json} {d : Json} (h : Renumbered π (.obj members) d) :
    ∃ members', d = .obj members' ∧
      ((∃ handle, Marker.ofMembers? members = some (.ok (.deferred handle)) ∧
          Marker.ofMembers? members' = some (.ok (.deferred (π handle)))) ∨
        (∀ handle, Marker.ofMembers? members ≠ some (.ok (.deferred handle))) ∧
          RenumberedMembers π members members') := by
  cases h with
  | marker h h' => exact ⟨_, rfl, Or.inl ⟨_, h, h'⟩⟩
  | object hm h => exact ⟨_, rfl, Or.inr ⟨hm, h⟩⟩
  | scalar hd => cases hd

theorem arr {items : List Json} {d : Json} (h : Renumbered π (.arr items) d) :
    ∃ items', d = .arr items' ∧ RenumberedItems π items items' := by
  cases h with
  | list h => exact ⟨_, rfl, h⟩
  | scalar hd => cases hd

theorem eq_of_isScalar {d d' : Json} (h : Renumbered π d d')
    (hd : Normalization.isScalar d = true) : d' = d := by
  cases h with
  | scalar _ => rfl
  | marker _ _ => cases hd
  | object _ _ => cases hd
  | list _ => cases hd

theorem isSchema {d d' : Json} (h : Renumbered π d d') : d'.isSchema = d.isSchema := by
  cases h <;> rfl

theorem text? {d d' : Json} (h : Renumbered π d d') : d'.text? = d.text? := by
  cases h <;> rfl

end Renumbered

theorem ofMembers?_eq_none_iff {members : Fields Json} :
    Marker.ofMembers? members = none ↔ Fields.contains members Marker.key = false := by
  unfold Marker.ofMembers? Fields.contains
  cases Fields.get? members Marker.key <;> simp

/-- A marker for a handle has its number as its only member. -/
theorem members_of_deferred {members : Fields Json} {handle : Nat}
    (h : Marker.ofMembers? members = some (.ok (.deferred handle))) :
    ∃ n, members = [(Marker.key, .num n)] := by
  unfold Marker.ofMembers? at h
  split at h
  · cases h
  · next target htarget =>
    split at h
    · cases h
    · next hlength =>
      have hof : Marker.ofTarget target = .ok (.deferred handle) := by simpa using h
      obtain ⟨n, rfl⟩ : ∃ n, target = .num n := by
        unfold Marker.ofTarget at hof
        split at hof
        · exact ⟨_, rfl⟩
        · split at hof <;> cases hof
      match members, htarget, hlength with
      | [(key, inner)], htarget, _ =>
        obtain ⟨rfl, rfl⟩ : key = Marker.key ∧ inner = .num n := by
          simpa [Fields.get?_cons] using htarget
        exact ⟨n, rfl⟩
      | _ :: _ :: _, _, hlength => simp at hlength

-- what has no marker on either side is the same on both
mutual

theorem Renumbered.eq_of_unmarked_or {d d' : Json} : Renumbered π d d' →
    Unmarked d ∨ Unmarked d' → d' = d
  | .marker h h', hd => by
    rcases hd with hd | hd
    · rw [ofMembers?_eq_none_iff.mpr (hd _ (mem_components _))] at h
      cases h
    · rw [ofMembers?_eq_none_iff.mpr (hd _ (mem_components _))] at h'
      cases h'
  | .object _ h, hd =>
    congrArg Json.obj (h.eq_of_unmarked_or (hd.imp
      (fun hd _ hm => hd.of_subset (components_subset_obj hm))
      (fun hd _ hm => hd.of_subset (components_subset_obj hm))))
  | .list h, hd =>
    congrArg Json.arr (h.eq_of_unmarked_or (hd.imp
      (fun hd _ hx => hd.of_subset (components_subset_arr hx))
      (fun hd _ hx => hd.of_subset (components_subset_arr hx))))
  | .scalar _, _ => rfl
termination_by structural h => h

theorem RenumberedMembers.eq_of_unmarked_or {members members' : Fields Json} :
    RenumberedMembers π members members' →
      (∀ m ∈ members, Unmarked m.2) ∨ (∀ m ∈ members', Unmarked m.2) → members' = members
  | .nil, _ => rfl
  | .cons h hrest, hall => by
    rw [h.eq_of_unmarked_or (hall.imp (fun hall => hall _ List.mem_cons_self)
        (fun hall => hall _ List.mem_cons_self)),
      hrest.eq_of_unmarked_or (hall.imp (fun hall m hm => hall m (List.mem_cons_of_mem _ hm))
        (fun hall m hm => hall m (List.mem_cons_of_mem _ hm)))]
termination_by structural h => h

theorem RenumberedItems.eq_of_unmarked_or {items items' : List Json} :
    RenumberedItems π items items' →
      (∀ x ∈ items, Unmarked x) ∨ (∀ x ∈ items', Unmarked x) → items' = items
  | .nil, _ => rfl
  | .cons h hrest, hall => by
    rw [h.eq_of_unmarked_or (hall.imp (fun hall => hall _ List.mem_cons_self)
        (fun hall => hall _ List.mem_cons_self)),
      hrest.eq_of_unmarked_or (hall.imp (fun hall x hx => hall x (List.mem_cons_of_mem _ hx))
        (fun hall x hx => hall x (List.mem_cons_of_mem _ hx)))]
termination_by structural h => h

end

/-- A document without markers stays. -/
theorem Renumbered.eq_of_unmarked {d d' : Json} (h : Renumbered π d d') (hd : Unmarked d) :
    d' = d :=
  h.eq_of_unmarked_or (Or.inl hd)

mutual

theorem renumbered_of_unmarked : ∀ d : Json, Unmarked d → Renumbered π d d
  | .obj members, hd => by
    refine .object (fun handle hm => ?_) (renumberedMembers_of_unmarked members
      (fun _ hm => hd.of_subset (components_subset_obj hm)))
    rw [ofMembers?_eq_none_iff.mpr (hd _ (mem_components _))] at hm
    cases hm
  | .arr items, hd => .list (renumberedItems_of_unmarked items
      (fun _ hx => hd.of_subset (components_subset_arr hx)))
  | .null, _ => .scalar rfl
  | .bool _, _ => .scalar rfl
  | .num _, _ => .scalar rfl
  | .str _, _ => .scalar rfl
termination_by structural d => d

theorem renumberedMembers_of_unmarked : ∀ members : List (String × Json),
    (∀ m ∈ members, Unmarked m.2) → RenumberedMembers π members members
  | [], _ => .nil
  | (_, d) :: rest, hall => .cons (renumbered_of_unmarked d (hall _ List.mem_cons_self))
      (renumberedMembers_of_unmarked rest (fun m hm => hall m (List.mem_cons_of_mem _ hm)))
termination_by structural members => members

theorem renumberedItems_of_unmarked : ∀ items : List Json,
    (∀ x ∈ items, Unmarked x) → RenumberedItems π items items
  | [], _ => .nil
  | d :: rest, hall => .cons (renumbered_of_unmarked d (hall _ List.mem_cons_self))
      (renumberedItems_of_unmarked rest (fun x hx => hall x (List.mem_cons_of_mem _ hx)))
termination_by structural items => items

end

theorem Renumbered.unmarked {d d' : Json} (h : Renumbered π d d') (hd : Unmarked d') :
    Unmarked d :=
  h.eq_of_unmarked_or (Or.inr hd) ▸ hd

theorem RenumberedMembers.keys_eq {members members' : Fields Json}
    (h : RenumberedMembers π members members') : Fields.keys members' = Fields.keys members := by
  induction members generalizing members' with
  | nil => cases h; rfl
  | cons m rest ih =>
    cases h with
    | cons _ hrest => exact congrArg (List.cons _) (ih hrest)

mutual

/-- Members stay in their order. -/
theorem Renumbered.ordered {d d' : Json} : Renumbered π d d' → d.Ordered → d'.Ordered
  | .marker _ h', _ => by
    obtain ⟨n, rfl⟩ := members_of_deferred h'
    exact ⟨List.pairwise_singleton _ _, trivial, trivial⟩
  | .object _ h, hd => ⟨Fields.ordered_of_keys_eq h.keys_eq hd.1, h.ordered hd.2⟩
  | .list h, hd => h.ordered hd
  | .scalar _, hd => hd
termination_by structural h => h

theorem RenumberedMembers.ordered {members members' : Fields Json} :
    RenumberedMembers π members members' → OrderedMembers members → OrderedMembers members'
  | .nil, _ => trivial
  | .cons h hrest, hd => ⟨h.ordered hd.1, hrest.ordered hd.2⟩
termination_by structural h => h

theorem RenumberedItems.ordered {items items' : List Json} :
    RenumberedItems π items items' → OrderedItems items → OrderedItems items'
  | .nil, _ => trivial
  | .cons h hrest, hd => ⟨h.ordered hd.1, hrest.ordered hd.2⟩
termination_by structural h => h

end

/-! ## Markers -/

/-- What the objects are read as: markers of the same kind, or none on both sides. -/
inductive ReadAlike (π : Nat → Nat) (members members' : Fields Json) : Prop where
  | deferred {handle : Nat} (h : Marker.ofMembers? members = some (.ok (.deferred handle)))
      (h' : Marker.ofMembers? members' = some (.ok (.deferred (π handle))))
  | inline {f f' : Fragment} (h : Marker.ofMembers? members = some (.ok (.inline f)))
      (h' : Marker.ofMembers? members' = some (.ok (.inline f')))
      (hmembers : RenumberedMembers π members members')
  | malformed {err err' : MarkerError} (h : Marker.ofMembers? members = some (.error err))
      (h' : Marker.ofMembers? members' = some (.error err'))
      (hmembers : RenumberedMembers π members members')
  | other (h : Marker.ofMembers? members = none) (h' : Marker.ofMembers? members' = none)
      (hmembers : RenumberedMembers π members members')

theorem readAlike_of_members {members members' : Fields Json}
    (hm : ∀ handle, Marker.ofMembers? members ≠ some (.ok (.deferred handle)))
    (h : RenumberedMembers π members members') : ReadAlike π members members' := by
  have hget := h.rel_get? Marker.key
  have hlength := h.forall₂.length_eq
  unfold Marker.ofMembers? at hm
  cases htarget : Fields.get? members Marker.key with
  | none =>
    cases htarget' : Fields.get? members' Marker.key with
    | none =>
      exact .other (by rw [Marker.ofMembers?, htarget]) (by rw [Marker.ofMembers?, htarget']) h
    | some target' => rw [htarget, htarget'] at hget; cases hget
  | some target =>
    cases htarget' : Fields.get? members' Marker.key with
    | none => rw [htarget, htarget'] at hget; cases hget
    | some target' =>
      rw [htarget, htarget'] at hget
      cases hget with
      | some ht =>
        rw [htarget] at hm
        dsimp only at hm
        have hread : Marker.ofMembers? members = some
            (if 1 < members.length then .error .extraKeywords else Marker.ofTarget target) := by
          rw [Marker.ofMembers?, htarget]
        have hread' : Marker.ofMembers? members' = some
            (if 1 < members.length then .error .extraKeywords else Marker.ofTarget target') := by
          rw [Marker.ofMembers?, htarget', hlength]
        by_cases hlong : 1 < members.length
        · rw [if_pos hlong] at hread hread'
          exact .malformed hread hread' h
        · rw [if_neg hlong] at hread hread' hm
          cases ht with
          | marker _ _ => exact .inline hread hread' h
          | object _ _ => exact .inline hread hread' h
          | list _ => exact .malformed hread hread' h
          | scalar hd =>
            cases target with
            | num n =>
              cases hn : n.toNat? with
              | none =>
                rw [Marker.ofTarget, hn] at hread hread'
                exact .malformed hread hread' h
              | some handle =>
                rw [Marker.ofTarget, hn] at hm
                exact absurd rfl (hm handle)
            | bool b => exact .inline hread hread' h
            | obj ms => cases hd
            | arr xs => cases hd
            | _ => exact .malformed hread hread' h

theorem Renumbered.readAlike {members members' : Fields Json}
    (h : Renumbered π (.obj members) (.obj members')) : ReadAlike π members members' := by
  cases h with
  | marker h h' => exact .deferred h h'
  | object hm h => exact readAlike_of_members hm h
  | scalar hd => cases hd

theorem Fragment.not_str (f : Fragment) (s : String) : f.document ≠ .str s := by
  rcases f with ⟨d, hd⟩
  rintro rfl
  cases hd

/-! ## The strict check -/

/-- Objects are checked alike when what they hold is. -/
theorem check_obj_eq {members members' : Fields Json} {path : String}
    (h : Renumbered π (.obj members) (.obj members'))
    (htarget : RenumberedMembers π members members' →
      Keywords.checkTarget members' path = Keywords.checkTarget members path)
    (hkeywords : RenumberedMembers π members members' →
      Keywords.checkKeywords members' path = Keywords.checkKeywords members path) :
    Keywords.check (.obj members') path = Keywords.check (.obj members) path := by
  rw [Keywords.check, Keywords.check]
  cases h.readAlike with
  | deferred hm hm' =>
    -- there are no keywords to check in a marker for a handle
    obtain ⟨n, rfl⟩ := members_of_deferred hm
    obtain ⟨n', rfl⟩ := members_of_deferred hm'
    rw [hm, hm']
    rfl
  | inline hm hm' hmembers =>
    rw [hm, hm']
    exact htarget hmembers
  | malformed hm hm' hmembers =>
    rw [hm, hm']
    exact hkeywords hmembers
  | other hm hm' hmembers =>
    rw [hm, hm']
    exact hkeywords hmembers

theorem checkValue_schema (members : Fields Json) (path : String) :
    Keywords.checkValue .schema (.obj members) path = Keywords.check (.obj members) path := by
  rw [Keywords.checkValue, Keywords.check]

theorem checkValue_schemaOrList (members : Fields Json) (path : String) :
    Keywords.checkValue .schemaOrList (.obj members) path =
      Keywords.check (.obj members) path := by
  rw [Keywords.checkValue, Keywords.check]

-- the recursion is that of the check
mutual

/-- The strict check says the same about the renumbered document. -/
theorem check_eq : ∀ (d : Json) {d' : Json} (path : String), Renumbered π d d' →
    Keywords.check d' path = Keywords.check d path
  | .obj members, d', path, h => by
    obtain ⟨members', rfl, -⟩ := h.obj
    exact check_obj_eq h (checkTarget_eq members path) (checkKeywords_eq members path)
  | .arr _, _, path, h => by
    obtain ⟨_, rfl, -⟩ := h.arr
    rfl
  | .str _, _, _, h => by obtain rfl := h.eq_of_isScalar rfl; rfl
  | .null, _, _, h => by obtain rfl := h.eq_of_isScalar rfl; rfl
  | .bool _, _, _, h => by obtain rfl := h.eq_of_isScalar rfl; rfl
  | .num _, _, _, h => by obtain rfl := h.eq_of_isScalar rfl; rfl
termination_by structural d => d

theorem checkTarget_eq : ∀ (members : List (String × Json)) {members' : Fields Json}
    (path : String), RenumberedMembers π members members' →
      Keywords.checkTarget members' path = Keywords.checkTarget members path
  | [], _, _, .nil => rfl
  | (_, inner) :: _, _, path, .cons h _ => by
    rw [Keywords.checkTarget, Keywords.checkTarget]
    exact check_eq inner _ h
termination_by structural members => members

theorem checkKeywords_eq : ∀ (members : List (String × Json)) {members' : Fields Json}
    (path : String), RenumberedMembers π members members' →
      Keywords.checkKeywords members' path = Keywords.checkKeywords members path
  | [], _, _, .nil => rfl
  | (k, d) :: rest, _, path, .cons h hrest => by
    rw [Keywords.checkKeywords, Keywords.checkKeywords, checkValue_eq (Keywords.contentOf k) d _ h,
      checkKeywords_eq rest path hrest]
termination_by structural members => members

theorem checkValue_eq : ∀ (content : Keywords.Content) (d : Json) {d' : Json} (path : String),
    Renumbered π d d' → Keywords.checkValue content d' path = Keywords.checkValue content d path
  | content, .obj members, d', path, h => by
    obtain ⟨members', rfl, -⟩ := h.obj
    cases content with
    | schemaMap =>
      rw [Keywords.checkValue, Keywords.checkValue]
      cases h.readAlike with
      | deferred hm hm' =>
        obtain ⟨n, rfl⟩ := members_of_deferred hm
        obtain ⟨n', rfl⟩ := members_of_deferred hm'
        rfl
      | inline _ _ hmembers => exact checkMembers_eq members path hmembers
      | malformed _ _ hmembers => exact checkMembers_eq members path hmembers
      | other _ _ hmembers => exact checkMembers_eq members path hmembers
    | schemaOrList =>
      rw [checkValue_schemaOrList, checkValue_schemaOrList]
      exact check_obj_eq h (checkTarget_eq members path) (checkKeywords_eq members path)
    | schema =>
      rw [checkValue_schema, checkValue_schema]
      exact check_obj_eq h (checkTarget_eq members path) (checkKeywords_eq members path)
    | schemaList => rfl
    | other => rfl
  | content, .arr items, _, path, h => by
    obtain ⟨items', rfl, hitems⟩ := h.arr
    cases content with
    | schemaList =>
      rw [Keywords.checkValue, Keywords.checkValue]
      exact checkItems_eq items path 0 hitems
    | schemaOrList =>
      rw [Keywords.checkValue, Keywords.checkValue]
      exact checkItems_eq items path 0 hitems
    | _ => rfl
  | _, .str _, _, _, h => by obtain rfl := h.eq_of_isScalar rfl; rfl
  | _, .null, _, _, h => by obtain rfl := h.eq_of_isScalar rfl; rfl
  | _, .bool _, _, _, h => by obtain rfl := h.eq_of_isScalar rfl; rfl
  | _, .num _, _, _, h => by obtain rfl := h.eq_of_isScalar rfl; rfl
termination_by structural _ d => d

theorem checkMembers_eq : ∀ (members : List (String × Json)) {members' : Fields Json}
    (path : String), RenumberedMembers π members members' →
      Keywords.checkMembers members' path = Keywords.checkMembers members path
  | [], _, _, .nil => rfl
  | (_, d) :: rest, _, path, .cons h hrest => by
    rw [Keywords.checkMembers, Keywords.checkMembers, check_eq d _ h,
      checkMembers_eq rest path hrest]
termination_by structural members => members

theorem checkItems_eq : ∀ (items : List Json) {items' : List Json} (path : String) (i : Nat),
    RenumberedItems π items items' →
      Keywords.checkItems items' path i = Keywords.checkItems items path i
  | [], _, _, _, .nil => rfl
  | d :: rest, _, path, i, .cons h hrest => by
    rw [Keywords.checkItems, Keywords.checkItems, check_eq d _ h,
      checkItems_eq rest path (i + 1) hrest]
termination_by structural items => items

end

/-! ## Documents for evaluators -/

/-- No object with the key of markers stands under the names, at any depth. -/
def UnmarkedUnder (names : List String) (d : Json) : Prop :=
  ∀ members, .obj members ∈ d.components → ∀ k ∈ names, ∀ x, (k, x) ∈ members → Unmarked x

instance (names : List String) (d : Json) : Decidable (UnmarkedUnder names d) :=
  decidable_of_iff (∀ members : Fields Json, Json.obj members ∈ d.components →
      ∀ m ∈ members, m.1 ∈ names → Unmarked m.2)
    ⟨fun h _ hm k hk x hx => h _ hm (k, x) hx hk, fun h _ hm m hx hk => h _ hm m.1 hk m.2 hx⟩

namespace UnmarkedUnder

variable {names : List String}

theorem of_subset {d d' : Json} (h : UnmarkedUnder names d)
    (hsub : d'.components ⊆ d.components) : UnmarkedUnder names d' :=
  fun members hm => h members (hsub hm)

theorem of_mem_obj {members : Fields Json} {k : String} {d : Json}
    (h : UnmarkedUnder names (.obj members)) (hd : (k, d) ∈ members) : UnmarkedUnder names d :=
  h.of_subset (components_subset_obj hd)

theorem of_mem_arr {items : List Json} {d : Json} (h : UnmarkedUnder names (.arr items))
    (hd : d ∈ items) : UnmarkedUnder names d :=
  h.of_subset (components_subset_arr hd)

theorem mono {names' : List String} {d : Json} (h : UnmarkedUnder names d)
    (hsub : names' ⊆ names) : UnmarkedUnder names' d :=
  fun members hm k hk => h members hm k (hsub hk)

end UnmarkedUnder

/-- Handles that have a schema keep it when they are renumbered. -/
def SameDefined (π : Nat → Nat) (defined defined' : List Bool) : Prop :=
  ∀ handle, defined'[π handle]?.getD false = defined[handle]?.getD false

theorem tame_obj {members : Fields Json} (h : TameMembers members)
    (hall : ∀ m ∈ members, Tame m.2) : Tame (.obj members) := by
  intro ns hns
  rw [components] at hns
  rcases List.mem_cons.mp hns with heq | hns
  · exact Json.obj.inj heq ▸ h
  · rcases exists_of_mem_componentsMembers hns with ⟨m, hm, hns⟩
    exact hall m hm ns hns

theorem tame_arr {items : List Json} (h : ∀ x ∈ items, Tame x) : Tame (.arr items) := by
  intro ns hns
  rw [components] at hns
  rcases List.mem_cons.mp hns with heq | hns
  · cases heq
  · rcases exists_of_mem_componentsItems hns with ⟨x, hx, hns⟩
    exact h x hx ns hns

theorem tame_of_isScalar {d : Json} (h : Normalization.isScalar d = true) : Tame d := by
  intro ns hns
  cases d with
  | obj members => cases h
  | arr items => cases h
  | _ => cases List.mem_singleton.mp hns

theorem tame_reference (handle : Nat) : Tame (reference handle) := by
  refine tame_obj ⟨fun s hs => ?_, fun k hk s hs => ?_, fun k hk d hd => ?_⟩ (fun m hm => ?_)
  · obtain rfl := Json.str.inj (Prod.mk.inj (List.mem_singleton.mp hs)).2
    exact Or.inl ⟨handle, rfl⟩
  · obtain rfl := (Prod.mk.inj (List.mem_singleton.mp hs)).1
    exact absurd hk (by decide)
  · obtain rfl := (Prod.mk.inj (List.mem_singleton.mp hd)).1
    exact absurd hk (by decide)
  · obtain rfl := List.mem_singleton.mp hm
    exact tame_of_isScalar rfl

theorem relinkAt_reference (k : String) (handle : Nat) :
    relinkAt (rename π) k (reference handle) = reference (π handle) := by
  rw [reference, relinkAt_obj, relinkMembers_eq, List.map_singleton, relinkAt_str, if_pos rfl,
    rename_resourceUri]
  rfl

theorem data_of_fixed {k : String} (hk : k ∈ ["const", "enum"]) : k ∈ dataKeywords :=
  (by decide : ["const", "enum"] ⊆ dataKeywords) hk

/-- What the document under a key becomes, and what the renumbered one becomes. -/
structure Relinked (π : Nat → Nat) (d : Json) (k : String) (a b : Json) : Prop where
  tame : Tame a
  document : b = relinkAt (rename π) k a
  text : ∀ s, a = .str s → d = .str s
  same : Unmarked d → a = d

/-- What members become, and what the renumbered ones become. -/
structure RelinkedMembers (π : Nat → Nat) (members a b : Fields Json) : Prop where
  tame : ∀ m ∈ a, Tame m.2
  document : b = relinkMembers (rename π) a
  kept : ∀ m ∈ a, m.1 ∈ ["const", "enum"] ∨ (∃ s, m.2 = .str s) → m ∈ members
  same : (∀ m ∈ members, Unmarked m.2) → a = members

/-- What items become, and what the renumbered ones become. -/
structure RelinkedItems (π : Nat → Nat) (items a b : List Json) : Prop where
  tame : ∀ x ∈ a, Tame x
  document : b = a.map (relinkAt (rename π) "")
  same : (∀ x ∈ items, Unmarked x) → a = items

namespace RelinkedMembers

theorem nil : RelinkedMembers π [] [] [] :=
  ⟨fun _ hm => absurd hm List.not_mem_nil, rfl, fun _ hm => absurd hm List.not_mem_nil,
    fun _ => rfl⟩

theorem cons {k : String} {d a b : Json} {rest as bs : Fields Json} (h : Relinked π d k a b)
    (hkept : k ∈ ["const", "enum"] → a = d) (hrest : RelinkedMembers π rest as bs) :
    RelinkedMembers π ((k, d) :: rest) ((k, a) :: as) ((k, b) :: bs) where
  tame := List.forall_mem_cons.mpr ⟨h.tame, hrest.tame⟩
  document := by rw [relinkMembers, h.document, hrest.document]
  kept m hm hfixed := by
    rcases List.mem_cons.mp hm with rfl | hm
    · have heq : a = d := by
        rcases hfixed with hk | ⟨s, hs⟩
        · exact hkept hk
        · exact hs.trans (h.text s hs).symm
      exact heq ▸ List.mem_cons_self
    · exact List.mem_cons_of_mem _ (hrest.kept m hm hfixed)
  same hunmarked := by
    rw [h.same (hunmarked _ List.mem_cons_self),
      hrest.same (fun m hm => hunmarked m (List.mem_cons_of_mem _ hm))]

end RelinkedMembers

namespace RelinkedItems

theorem nil : RelinkedItems π [] [] [] :=
  ⟨fun _ hx => absurd hx List.not_mem_nil, rfl, fun _ => rfl⟩

theorem cons {d a b : Json} {rest as bs : List Json} (h : Relinked π d "" a b)
    (hrest : RelinkedItems π rest as bs) : RelinkedItems π (d :: rest) (a :: as) (b :: bs) where
  tame := List.forall_mem_cons.mpr ⟨h.tame, hrest.tame⟩
  document := by rw [List.map_cons, h.document, hrest.document]
  same hunmarked := by
    rw [h.same (hunmarked _ List.mem_cons_self),
      hrest.same (fun x hx => hunmarked x (List.mem_cons_of_mem _ hx))]

end RelinkedItems

theorem not_unmarked_of_marker {members : Fields Json} {m : Except MarkerError Marker}
    (h : Marker.ofMembers? members = some m) : ¬ Unmarked (.obj members) := by
  intro hd
  rw [ofMembers?_eq_none_iff.mpr (hd _ (mem_components _))] at h
  cases h

theorem not_spells_of_mem {members : Fields Json} (h : Foreign (.obj members)) {k : String}
    {d : Json} (hm : (k, d) ∈ members) : k = "$ref" → ∀ s, d = .str s → ¬ Spells s := by
  rintro rfl s rfl
  exact h members (mem_components _) "$ref" (by decide) s hm

namespace Relinked

variable {k : String}

/-- What is copied stays when handles are renamed. -/
theorem copied {d : Json} (hforeign : Foreign d)
    (hspells : k = "$ref" → ∀ s, d = .str s → ¬ Spells s) : Relinked π d k d d where
  tame := hforeign.tame
  document := by
    have hrelink : relink (rename π) d = d := hforeign.relink_eq
    by_cases hk : k = "$ref"
    · cases d with
      | str s => rw [relinkAt_str, if_pos hk, rename_of_not_spells (hspells hk s rfl)]
      | arr xs =>
        rw [relink, relinkAt_arr] at hrelink
        rw [relinkAt_arr, hrelink]
      | obj ms =>
        rw [relink, relinkAt_obj] at hrelink
        rw [relinkAt_obj, hrelink]
      | _ => rfl
    · rw [relinkAt_of_ne hk, hrelink]
  text _ hs := hs
  same _ := rfl

theorem reference {members : Fields Json} {handle : Nat}
    (hm : Marker.ofMembers? members = some (.ok (.deferred handle))) :
    Relinked π (.obj members) k (reference handle) (reference (π handle)) where
  tame := tame_reference handle
  document := (relinkAt_reference k handle).symm
  text _ hs := by cases hs
  same h := absurd h (not_unmarked_of_marker hm)

/-- A marker that is followed is `true` for the evaluator. -/
theorem followed {members : Fields Json} {m : Except MarkerError Marker}
    (hm : Marker.ofMembers? members = some m) :
    Relinked π (.obj members) k (.bool true) (.bool true) where
  tame := tame_of_isScalar rfl
  document := rfl
  text _ hs := by cases hs
  same h := absurd h (not_unmarked_of_marker hm)

/-- What the schema in a marker becomes, the marker becomes. -/
theorem target {members : Fields Json} {f : Fragment} {d a b : Json}
    (hm : Marker.ofMembers? members = some (.ok (.inline f))) (hd : d = f.document)
    (h : Relinked π d k a b) : Relinked π (.obj members) k a b where
  tame := h.tame
  document := h.document
  text s hs := absurd (hd ▸ h.text s hs) (f.not_str s)
  same hunmarked := absurd hunmarked (not_unmarked_of_marker hm)

theorem obj {members as bs : Fields Json} (hforeign : Foreign (.obj members))
    (h : RelinkedMembers π members as bs) : Relinked π (.obj members) k (.obj as) (.obj bs) where
  tame := by
    have htext : ∀ key ∈ resolving, ∀ s, (key, .str s) ∈ as → ¬ Spells s := fun key hkey s hs =>
      hforeign members (mem_components _) key hkey s (h.kept _ hs (Or.inr ⟨s, rfl⟩))
    refine tame_obj ⟨fun s hs => Or.inr (htext "$ref" (by decide) s hs),
      fun key hkey s hs => htext key (List.mem_cons_of_mem _ hkey) s hs,
      fun key hkey d hd π => ?_⟩ h.tame
    have hne : key ≠ "$ref" := by
      rcases List.mem_pair.mp hkey with rfl | rfl <;> decide
    rw [relinkAt_of_ne hne]
    exact (hforeign.of_mem_obj (h.kept _ hd (Or.inl hkey))).relink_eq
  document := by rw [relinkAt_obj, h.document]
  text _ hs := by cases hs
  same hunmarked :=
    congrArg Json.obj (h.same (fun _ hm => hunmarked.of_subset (components_subset_obj hm)))

theorem arr {items as bs : List Json} (h : RelinkedItems π items as bs) :
    Relinked π (.arr items) k (.arr as) (.arr bs) where
  tame := tame_arr h.tame
  document := by rw [relinkAt_arr, h.document]
  text _ hs := by cases hs
  same hunmarked :=
    congrArg Json.arr (h.same (fun _ hx => hunmarked.of_subset (components_subset_arr hx)))

end Relinked

variable {defined defined' : List Bool}

theorem alike_requireDefined (hdefined : SameDefined π defined defined') (handle : Nat)
    (path : String) : Alike (fun _ _ => defined[handle]?.getD false = true)
      (requireDefined defined handle path) (requireDefined defined' (π handle) path) := by
  unfold requireDefined
  rw [hdefined]
  split
  · next h => exact .ok h
  · exact .error _ _

-- the recursion is that of the replacement
mutual

/-- Markers are replaced alike: what the renumbered document becomes is what the document becomes,
with references to the renumbered handles. -/
theorem alike_rewrite (hdefined : SameDefined π defined defined') : ∀ (d : Json) {d' : Json}
    (path : String) (inPlace : Bool) (k : String), Renumbered π d d' → Foreign d →
      UnmarkedUnder dataKeywords d → (k = "$ref" → ∀ s, d = .str s → ¬ Spells s) →
        Alike (fun a b => Relinked π d k a.1 b.1 ∧ b.2 = a.2.map π)
          (rewrite defined d path inPlace) (rewrite defined' d' path inPlace)
  | .obj members, d', path, inPlace, k, h, hforeign, hdata, _ => by
    obtain ⟨members', rfl, -⟩ := h.obj
    rw [rewrite, rewrite]
    cases h.readAlike with
    | deferred hm hm' =>
      rw [hm, hm']
      refine (alike_requireDefined hdefined _ path).bind
        (fun _ _ _ => .ok ⟨Relinked.reference hm, ?_⟩)
      cases inPlace <;> rfl
    | inline hm hm' hmembers =>
      rw [hm, hm']
      exact alike_rewriteTarget hdefined members path inPlace k hm hmembers hforeign hdata
    | malformed hm hm' _ =>
      rw [hm, hm']
      exact .error _ _
    | other hm hm' hmembers =>
      rw [hm, hm']
      exact (alike_rewriteMembers hdefined members members path inPlace hmembers
        (List.Subset.refl _) hforeign hdata).bind
        (fun a b hab => .ok ⟨Relinked.obj hforeign hab.1, hab.2⟩)
  | .arr items, d', path, inPlace, k, h, hforeign, hdata, _ => by
    obtain ⟨items', rfl, hitems⟩ := h.arr
    rw [rewrite, rewrite]
    exact (alike_rewriteItems hdefined items path 0 inPlace hitems
      (fun x hx => hforeign.of_mem_arr hx) (fun x hx => hdata.of_mem_arr hx)).bind
      (fun a b hab => .ok ⟨Relinked.arr hab.1, hab.2⟩)
  | .str s, d', path, inPlace, k, h, hforeign, _, hspells => by
    obtain rfl := h.eq_of_isScalar rfl
    exact .ok ⟨.copied hforeign hspells, rfl⟩
  | .null, d', path, inPlace, k, h, hforeign, _, hspells => by
    obtain rfl := h.eq_of_isScalar rfl
    exact .ok ⟨.copied hforeign hspells, rfl⟩
  | .bool b, d', path, inPlace, k, h, hforeign, _, hspells => by
    obtain rfl := h.eq_of_isScalar rfl
    exact .ok ⟨.copied hforeign hspells, rfl⟩
  | .num n, d', path, inPlace, k, h, hforeign, _, hspells => by
    obtain rfl := h.eq_of_isScalar rfl
    exact .ok ⟨.copied hforeign hspells, rfl⟩
termination_by structural d => d

theorem alike_rewriteTarget (hdefined : SameDefined π defined defined') :
    ∀ (members : List (String × Json)) {members' : Fields Json} (path : String) (inPlace : Bool)
    (k : String) {f : Fragment}, Marker.ofMembers? members = some (.ok (.inline f)) →
      RenumberedMembers π members members' → Foreign (.obj members) →
        UnmarkedUnder dataKeywords (.obj members) →
          Alike (fun a b => Relinked π (.obj members) k a.1 b.1 ∧ b.2 = a.2.map π)
            (rewriteTarget defined members path inPlace)
            (rewriteTarget defined' members' path inPlace)
  | [], _, _, _, _, _, hm, _, _, _ => by cases hm
  | (key, inner) :: rest, members', path, inPlace, k, f, hm, hmembers, hforeign, hdata => by
    have hmem : (key, inner) ∈ (key, inner) :: rest := List.mem_cons_self
    have heq : inner = f.document :=
      (Prod.mk.inj (List.cons.inj (Planning.members_of_inline hm)).1).2
    cases hmembers with
    | cons hinner _ =>
      rw [rewriteTarget, rewriteTarget]
      exact (alike_rewrite hdefined inner _ inPlace k hinner (hforeign.of_mem_obj hmem)
        (hdata.of_mem_obj hmem) (fun _ s hs => absurd (heq ▸ hs) (f.not_str s))).mono
        (fun a b hab => ⟨hab.1.target hm heq, hab.2⟩)
termination_by structural members => members

theorem alike_rewriteMembers (hdefined : SameDefined π defined defined') :
    ∀ (members : List (String × Json)) (whole : Fields Json) {members' : Fields Json}
    (path : String) (inPlace : Bool), RenumberedMembers π members members' → members ⊆ whole →
      Foreign (.obj whole) → UnmarkedUnder dataKeywords (.obj whole) →
        Alike (fun a b => RelinkedMembers π members a.1 b.1 ∧ b.2 = a.2.map π)
          (rewriteMembers defined members path inPlace)
          (rewriteMembers defined' members' path inPlace)
  | [], _, _, _, _, .nil, _, _, _ => .ok ⟨.nil, rfl⟩
  | (k, d) :: rest, whole, _, path, inPlace, .cons hd hrest, hsub, hforeign, hdata => by
    have hmem : (k, d) ∈ whole := hsub List.mem_cons_self
    have hothers := alike_rewriteMembers hdefined rest whole path inPlace hrest
      (fun m hm => hsub (List.mem_cons_of_mem _ hm)) hforeign hdata
    have hspells := not_spells_of_mem hforeign hmem
    rw [rewriteMembers, rewriteMembers]
    split
    · next hk =>
      -- there are no markers in data
      obtain rfl := hd.eq_of_unmarked
        (hdata whole (mem_components _) k (List.contains_iff_mem.mp hk) d hmem)
      exact hothers.bind (fun a b hab => .ok
        ⟨.cons (.copied (hforeign.of_mem_obj hmem) hspells) (fun _ => rfl) hab.1, hab.2⟩)
    · next hk =>
      have hnot : k ∉ ["const", "enum"] :=
        fun hfixed => hk (List.contains_iff_mem.mpr (data_of_fixed hfixed))
      refine (alike_rewrite hdefined d _ _ k hd (hforeign.of_mem_obj hmem)
        (hdata.of_mem_obj hmem) hspells).bind (fun x y hxy => hothers.bind (fun a b hab => .ok
        ⟨.cons hxy.1 (fun hfixed => absurd hfixed hnot) hab.1, ?_⟩))
      dsimp only
      rw [hxy.2, hab.2, List.map_append]
termination_by structural members => members

theorem alike_rewriteItems (hdefined : SameDefined π defined defined') :
    ∀ (items : List Json) {items' : List Json} (path : String) (i : Nat) (inPlace : Bool),
    RenumberedItems π items items' → (∀ x ∈ items, Foreign x) →
      (∀ x ∈ items, UnmarkedUnder dataKeywords x) →
        Alike (fun a b => RelinkedItems π items a.1 b.1 ∧ b.2 = a.2.map π)
          (rewriteItems defined items path i inPlace)
          (rewriteItems defined' items' path i inPlace)
  | [], _, _, _, _, .nil, _, _ => .ok ⟨.nil, rfl⟩
  | d :: rest, _, path, i, inPlace, .cons hd hrest, hforeign, hdata => by
    rw [rewriteItems, rewriteItems]
    refine (alike_rewrite hdefined d _ inPlace "" hd (hforeign d List.mem_cons_self)
      (hdata d List.mem_cons_self) (fun hk => absurd hk (by decide))).bind
      (fun x y hxy => (alike_rewriteItems hdefined rest path (i + 1) inPlace hrest
        (fun x hx => hforeign x (List.mem_cons_of_mem _ hx))
        (fun x hx => hdata x (List.mem_cons_of_mem _ hx))).bind
        (fun a b hab => .ok ⟨.cons hxy.1 hab.1, ?_⟩))
    dsimp only
    rw [hxy.2, hab.2, List.map_append]
termination_by structural items => items

end

end HttpContract
