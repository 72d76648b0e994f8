import HttpContract.Proofs.Satisfaction
import HttpContract.Proofs.Survival

/-!
# What each option lets happen

Three options let a walk change a value, and each of them is for changes of one kind: scalars are
converted, absent members are filled in, undeclared members are dropped. So without defaults objects
only lose keys, without dropping they only gain some, and without conversion scalars stay what they
are: `validate_arises`.
-/

namespace HttpContract.Normalization

/-! ## Values that arise from others -/

/-- The ways in which the keys of an object can change. -/
inductive Direction where
  | losing
  | gaining

namespace Direction

/-- From the first object to the second the keys change in one way only. -/
def Keys : Direction → Fields Json → Fields Json → Prop
  | losing, members, members' =>
    ∀ key, Fields.contains members' key = true → Fields.contains members key = true
  | gaining, members, members' =>
    ∀ key, Fields.contains members key = true → Fields.contains members' key = true

/-- The options let keys change in one way only. -/
def Only (o : Options) : Direction → Prop
  | losing => o.useDefaults = false
  | gaining => o.removeAdditional = false

end Direction

/-- The second value arises from the first: scalars stay scalars, and stay the same unless they may
be converted, lists keep their length and order, and the keys of objects change in one way only. -/
inductive Arises (convert : Bool) (d : Direction) : Json → Json → Prop where
  | scalar {v w : Json} (hv : isScalar v = true) (hw : isScalar w = true)
      (h : convert = false → w = v) : Arises convert d v w
  | list {items items' : List Json} (hlength : items'.length = items.length)
      (h : ∀ (i : Nat) x y, items[i]? = some x → items'[i]? = some y → Arises convert d x y) :
      Arises convert d (.arr items) (.arr items')
  | object {members members' : Fields Json} (hkeys : d.Keys members members')
      (h : ∀ key x y, Fields.get? members key = some x → Fields.get? members' key = some y →
        Arises convert d x y) : Arises convert d (.obj members) (.obj members')

variable {e : Engine} {convert : Bool} {d : Direction}

theorem Direction.Keys.refl (d : Direction) (members : Fields Json) : d.Keys members members := by
  cases d <;> exact fun _ h => h

theorem Direction.Keys.trans {a b c : Fields Json} (h : d.Keys a b) (h' : d.Keys b c) :
    d.Keys a c := by
  cases d with
  | losing => exact fun key hc => h key (h' key hc)
  | gaining => exact fun key ha => h' key (h key ha)

/-- A key that is there before and after has been there all along. -/
theorem Direction.Keys.between {a b c : Fields Json} {key : String} (h : d.Keys a b)
    (h' : d.Keys b c) (ha : Fields.contains a key = true) (hc : Fields.contains c key = true) :
    Fields.contains b key = true := by
  cases d with
  | losing => exact h' key hc
  | gaining => exact h key ha

mutual

theorem Arises.refl : ∀ v : Json, Arises convert d v v
  | .obj members => .object (.refl d members) (fun key x y hx hy => by
      obtain rfl := Option.some.inj (hx.symm.trans hy)
      exact Arises.refl_member members _ (Fields.mem_of_get? hx))
  | .arr items => .list rfl (fun i x y hx hy => by
      obtain rfl := Option.some.inj (hx.symm.trans hy)
      exact Arises.refl_item items _ (List.mem_of_getElem? hx))
  | .null | .bool _ | .num _ | .str _ => .scalar rfl rfl (fun _ => rfl)
termination_by structural v => v

theorem Arises.refl_item : ∀ items : List Json, ∀ x ∈ items, Arises convert d x x
  | [], _, hx => by cases hx
  | first :: rest, x, hx => by
    rcases List.mem_cons.mp hx with heq | hx
    · exact heq ▸ Arises.refl first
    · exact Arises.refl_item rest x hx
termination_by structural items => items

theorem Arises.refl_member : ∀ members : List (String × Json), ∀ m ∈ members,
    Arises convert d m.2 m.2
  | [], _, hm => by cases hm
  | (_, first) :: rest, m, hm => by
    rcases List.mem_cons.mp hm with heq | hm
    · exact heq ▸ Arises.refl first
    · exact Arises.refl_member rest m hm
termination_by structural members => members

end

theorem Arises.trans {u v w : Json} (h : Arises convert d u v) (h' : Arises convert d v w) :
    Arises convert d u w := by
  induction h generalizing w with
  | scalar hu hv heq =>
    cases h' with
    | scalar _ hw heq' => exact .scalar hu hw (fun hc => (heq' hc).trans (heq hc))
    | list => cases hv
    | object => cases hv
  | list hlength _ ih =>
    cases h' with
    | scalar hv => cases hv
    | list hlength' h' =>
      refine .list (hlength'.trans hlength) (fun i x z hx hz => ?_)
      -- the list between has an item there, since all have one length
      have hi := (List.getElem?_eq_some_iff.mp hz).1
      obtain ⟨y, hy⟩ : ∃ y, _ = some y := ⟨_, List.getElem?_eq_getElem (hlength' ▸ hi)⟩
      exact ih i x y hx hy (h' i y z hy hz)
  | object hkeys _ ih =>
    cases h' with
    | scalar hv => cases hv
    | object hkeys' h' =>
      refine .object (hkeys.trans hkeys') (fun key x z hx hz => ?_)
      have hbetween := hkeys.between hkeys' (Option.isSome_iff_exists.mpr ⟨x, hx⟩)
        (Option.isSome_iff_exists.mpr ⟨z, hz⟩)
      rcases Option.isSome_iff_exists.mp hbetween with ⟨y, hy⟩
      exact ih key x y hx hy (h' key y z hy hz)

/-! ## What a walk does -/

theorem arises_coerced (o : Options) (types : List JsonType) (v : Json) :
    Arises o.coerceTypes d v (coerced o types v) := by
  rcases eq_or_isScalar_coerced o types v with heq | ⟨hv, hw⟩
  · rw [heq]
    exact .refl v
  · exact .scalar hv hw (fun hoff => by simp [coerced, hoff])

/-- Preparing an object changes its keys in the one way that the options leave, and no member. -/
theorem keys_of_prepared (hd : d.Only e.options) {fuel : Nat} {p : Plan Node} {strip : Bool}
    {members ready : Fields Json} (h : prepared e fuel p strip members = some ready) :
    d.Keys members ready := by
  cases d with
  | losing =>
    intro key hkey
    have hfilled := ((contains_of_prepared h key).mp hkey).1
    unfold filled at hfilled
    rwa [if_neg (by simp [show e.options.useDefaults = false from hd])] at hfilled
  | gaining =>
    intro key hkey
    refine (contains_of_prepared h key).mpr ⟨contains_filled_of_contains hkey, ?_⟩
    rintro ⟨-, hremove, -⟩
    simp [show e.options.removeAdditional = false from hd] at hremove

/-- A member that is kept is kept as it is. -/
theorem eq_of_get?_prepared {fuel : Nat} {p : Plan Node} {strip : Bool}
    {members ready : Fields Json} {key : String} {x y : Json}
    (h : prepared e fuel p strip members = some ready) (hx : Fields.get? members key = some x)
    (hy : Fields.get? ready key = some y) : x = y := by
  have hkept := ((contains_of_prepared h key).mp (Option.isSome_iff_exists.mpr ⟨y, hy⟩)).2
  exact Option.some.inj ((get?_of_prepared h hkept hx).symm.trans hy)

mutual

/-- What a walk leaves arises from the value in the way that the options allow. -/
theorem arises_of_turns (hd : d.Only e.options) {n : Node} {strip clean : Bool} {v w : Json} :
    Turns e n strip v w clean → Arises e.options.coerceTypes d v w
  | .nowhere _ _ => .refl v
  | .reference _ h => arises_of_turns hd h
  | .plan hbranches hparts =>
    (arises_coerced e.options _ v).trans
      ((arises_of_runs hd hbranches).trans (arises_of_parts hd hparts))
termination_by structural h => h

theorem arises_of_runs (hd : d.Only e.options) {nodes : List Node} {strip clean : Bool}
    {v w : Json} : Runs e strip nodes v w clean → Arises e.options.coerceTypes d v w
  | .nil => .refl v
  | .cons h hrest => (arises_of_turns hd h).trans (arises_of_runs hd hrest)
termination_by structural h => h

theorem arises_of_parts (hd : d.Only e.options) {p : Plan Node} {strip clean : Bool} {v w : Json} :
    Parts e p strip v w clean → Arises e.options.coerceTypes d v w
  | .object ⟨_, hready⟩ h => by
    have hsame := keys_of_members h
    refine .trans (.object (keys_of_prepared hd hready) (fun key x y hx hy => ?_))
      (.object ?_ (fun key x y hx hy => arises_of_members hd h hx hy))
    · exact eq_of_get?_prepared hready hx hy ▸ .refl x
    · cases d with
      | losing => exact fun key hkey => (contains_of_members h key).symm.trans hkey
      | gaining => exact fun key hkey => (contains_of_members h key).trans hkey
  | .list h => .list (length_of_items h) (fun _ _ _ hx hy => arises_of_items hd h hx hy)
  | .scalar _ => .refl _
termination_by structural h => h

theorem arises_of_members (hd : d.Only e.options) {p : Plan Node} {members members' : Fields Json}
    {clean : Bool} : Members e p members members' clean → ∀ {key x y},
      Fields.get? members key = some x → Fields.get? members' key = some y →
        Arises e.options.coerceTypes d x y
  | .nil, _, _, _, hx, _ => by cases hx
  | .cons h hrest, key, x, y, hx, hy => by
    rw [Fields.get?_cons] at hx hy
    split at hx
    · next heq =>
      rw [if_pos heq] at hy
      obtain rfl := Option.some.inj hx
      obtain rfl := Option.some.inj hy
      exact arises_of_runs hd h
    · next hne =>
      rw [if_neg hne] at hy
      exact arises_of_members hd hrest hx hy
termination_by structural h => h

theorem arises_of_items (hd : d.Only e.options) {p : Plan Node} {index : Nat}
    {items items' : List Json} {clean : Bool} : Items e p index items items' clean →
      ∀ {i : Nat} {x y}, items[i]? = some x → items'[i]? = some y →
        Arises e.options.coerceTypes d x y
  | .nil, _, _, _, hx, _ => by cases hx
  | .cons h _, 0, _, _, hx, hy => by
    obtain rfl := Option.some.inj hx
    obtain rfl := Option.some.inj hy
    exact arises_of_runs hd h
  | .cons _ hrest, i + 1, _, _, hx, hy => arises_of_items hd hrest (i := i) hx hy
termination_by structural h => h

end

end HttpContract.Normalization

namespace HttpContract.Engine

open Normalization

theorem arises_validate_of_only (e : Engine) (s : CompiledSchema) (v : Json) {d : Direction}
    (hd : d.Only e.options) : Arises e.options.coerceTypes d v (e.validate s v).value := by
  by_cases hends : Ends e s v
  · rcases ends_iff_exists_turns.mp hends with ⟨w, clean, hturns⟩
    rw [value_of_turns hturns]
    exact arises_of_turns hd hturns
  · rw [value_of_not_ends hends]
    exact .refl v

/-- A validator that converts nothing, fills in nothing and drops nothing changes nothing. -/
theorem value_of_passive {e : Engine} (he : e.options.Passive) (s : CompiledSchema) (v : Json) :
    (e.validate s v).value = v := by
  by_cases hends : Ends e s v
  · rcases ends_iff_exists_turns.mp hends with ⟨w, clean, hturns⟩
    rw [value_of_turns hturns]
    exact (steady_turns he.keeping hturns (.of_passive he)).1
  · exact value_of_not_ends hends

/-- Each option is for changes of its own kind. Without defaults what validation leaves arises from
the value by losing keys and converting scalars, without dropping by gaining keys and converting
scalars. Either way scalars stay the same without conversion, and without all three options
everything does. -/
theorem validate_arises (e : Engine) (s : CompiledSchema) (v : Json) :
    (e.options.useDefaults = false →
      Arises e.options.coerceTypes .losing v (e.validate s v).value) ∧
    (e.options.removeAdditional = false →
      Arises e.options.coerceTypes .gaining v (e.validate s v).value) ∧
    (e.options.Passive → (e.validate s v).value = v) :=
  ⟨arises_validate_of_only e s v (d := .losing), arises_validate_of_only e s v (d := .gaining),
    fun he => value_of_passive he s v⟩

end HttpContract.Engine
