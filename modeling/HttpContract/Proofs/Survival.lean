import HttpContract.Proofs.Shapes
import HttpContract.Proofs.Visits

/-!
# What survives a walk

A part of a value is lost in a walk only where some plan drops it, or something around it: what no
plan drops on the way is still there at the end, with the same kind of value (`part_of_turns`).
-/

namespace HttpContract.Normalization

variable {e : Engine}

/-- The walk along `n` over `v` comes to no plan that drops a step of the path. -/
def Undropped (e : Engine) (n : Node) (strip : Bool) (v : Json) (path : List Step) : Prop :=
  ∀ front key rest p u, path = front ++ .key key :: rest →
    Visits e n strip v front (.plan p) true u → ¬ Drops e p key

/-- What is known of the calls that a walk along several nodes makes. -/
def UndroppedRuns (e : Engine) (strip : Bool) (nodes : List Node) (v : Json) (path : List Step) :
    Prop :=
  ∀ n u, Entered e strip nodes v n u → Undropped e n strip u path

theorem Undropped.reference {n : Node} {s : CompiledSchema} {strip : Bool} {v : Json}
    {path : List Step} (h : Undropped e n strip v path) (hs : e.resolve? n = some s) :
    Undropped e s.root strip v path :=
  fun front key rest p u hpath hvisits => h front key rest p u hpath (.reference hs hvisits)

theorem Undropped.branches {p : Plan Node} {strip : Bool} {v : Json} {path : List Step}
    (h : Undropped e (.plan p) strip v path) :
    UndroppedRuns e false p.allOf (coerced e.options p.types v) path :=
  fun _ _ hn front key rest q x hpath hvisits =>
    h front key rest q x hpath (.branch hn hvisits)

theorem Undropped.part {p : Plan Node} {strip : Bool} {v u : Json} {step : Step} {n : Node}
    {path : List Step} (h : Undropped e (.plan p) strip v (step :: path))
    (hn : PartEntered e p strip v step n u) : Undropped e n true u path :=
  fun front key rest q x hpath hvisits =>
    h (step :: front) key rest q x (by rw [hpath, List.cons_append]) (.part hn hvisits)

theorem Undropped.not_drops {p : Plan Node} {v : Json} {key : String} {path : List Step}
    (h : Undropped e (.plan p) true v (.key key :: path)) : ¬ Drops e p key :=
  h [] key path p v rfl .here

theorem UndroppedRuns.head {strip : Bool} {n : Node} {rest : List Node} {v : Json}
    {path : List Step} (h : UndroppedRuns e strip (n :: rest) v path) :
    Undropped e n strip v path :=
  h n v (entered_cons_iff.mpr (Or.inl ⟨rfl, rfl⟩))

theorem UndroppedRuns.tail {strip clean : Bool} {n : Node} {rest : List Node} {v u : Json}
    {path : List Step} (h : UndroppedRuns e strip (n :: rest) v path)
    (hturns : Turns e n strip v u clean) : UndroppedRuns e strip rest u path :=
  fun m x hm => h m x (entered_cons_iff.mpr (Or.inr ⟨u, clean, hturns, hm⟩))

/-! ## Parts that are kept -/

/-- The value at the place, if there is one, is of the same kind afterwards. -/
def Keeps (v w : Json) (path : List Step) : Prop :=
  ∀ y, v.part? path = some y → ∃ z, w.part? path = some z ∧ Alike y z

theorem Keeps.refl (v : Json) (path : List Step) : Keeps v v path :=
  fun y hy => ⟨y, hy, .refl y⟩

theorem Keeps.trans {u v w : Json} {path : List Step} (h : Keeps u v path) (h' : Keeps v w path) :
    Keeps u w path := by
  intro x hx
  rcases h x hx with ⟨y, hy, hxy⟩
  rcases h' y hy with ⟨z, hz, hyz⟩
  exact ⟨z, hz, hxy.trans hyz⟩

theorem Alike.keeps_nil {v w : Json} (h : Alike v w) : Keeps v w [] := by
  intro y hy
  obtain rfl : v = y := by simpa using hy
  exact ⟨w, by simp, h⟩

theorem keeps_coerced (o : Options) (types : List JsonType) (v : Json) (path : List Step) :
    Keeps v (coerced o types v) path := by
  cases path with
  | nil => exact (alike_coerced o types v).keeps_nil
  | cons step rest =>
    cases v with
    | obj members =>
      rw [coerced_obj]
      exact .refl _ _
    | arr items =>
      rw [coerced_arr]
      exact .refl _ _
    | _ =>
      intro y hy
      simp [Json.part?_cons, Json.child?] at hy

theorem get?_filter {members : Fields Json} {key : String} (keep : String × Json → Bool)
    (hkeep : ∀ v, keep (key, v) = true) :
    Fields.get? (members.filter keep) key = Fields.get? members key := by
  induction members with
  | nil => rfl
  | cons m rest ih =>
    rcases m with ⟨k, v⟩
    rw [List.filter_cons]
    by_cases heq : k = key
    · subst heq
      simp [hkeep, Fields.get?_cons]
    · split
      · simp [Fields.get?_cons, heq, ih]
      · simp [Fields.get?_cons, heq, ih]

theorem get?_withDefaults {key : String} {v : Json} : ∀ {properties : List (String × Node)}
    {members : Fields Json}, Fields.get? members key = some v →
      Fields.get? (withDefaults properties members) key = some v := by
  intro properties
  induction properties with
  | nil => exact fun h => h
  | cons entry rest ih =>
    intro members h
    rcases entry with ⟨name, n⟩
    refine ih ?_
    dsimp only
    split
    · split
      · split
        · exact h
        · next habsent =>
          -- a default is filled in for another property, since this one is there
          have hne : name ≠ key := by
            rintro rfl
            simp [Fields.contains, h] at habsent
          rw [Fields.get?_insert_of_ne members _ hne]
          exact h
      · exact h
    · exact h

theorem get?_filled {p : Plan Node} {members : Fields Json} {key : String} {v : Json}
    (h : Fields.get? members key = some v) : Fields.get? (filled e p members) key = some v := by
  unfold filled
  split
  · exact get?_withDefaults h
  · exact h

open Classical in
theorem get?_of_prepared {fuel : Nat} {p : Plan Node} {strip : Bool} {members ready : Fields Json}
    {key : String} {v : Json} (hready : prepared e fuel p strip members = some ready)
    (hkept : ¬ (strip = true ∧ Drops e p key)) (h : Fields.get? members key = some v) :
    Fields.get? ready key = some v := by
  have hall : ∀ x : Json, decide (¬ (strip = true ∧ Drops e p (key, x).1)) = true :=
    fun _ => decide_eq_true hkept
  rw [eq_of_prepared hready, get?_filter _ hall]
  exact get?_filled h

-- One theorem for each kind of derivation. Those for the parts are told which branches were walked
-- before, since the calls at the parts are named from where the plan was entered.
mutual

/-- What no plan drops on the way is still there after the walk. -/
theorem part_of_turns {n : Node} {strip clean : Bool} {v w : Json} :
    Turns e n strip v w clean → ∀ {path}, Undropped e n strip v path → Keeps v w path
  | .nowhere _ _, path, _ => .refl v path
  | .reference hs h, _, hpath => part_of_turns h (hpath.reference hs)
  | .plan hbranches hparts, [], _ => (Turns.plan hbranches hparts).alike.keeps_nil
  | .plan hbranches hparts, step :: path, hpath => by
    have hbetween := part_of_runs hbranches hpath.branches
    have hlast := part_of_parts hparts hbranches hpath
    exact (keeps_coerced _ _ _ _).trans (hbetween.trans hlast)
termination_by structural h => h

theorem part_of_runs {nodes : List Node} {strip clean : Bool} {v w : Json} :
    Runs e strip nodes v w clean → ∀ {path}, UndroppedRuns e strip nodes v path → Keeps v w path
  | .nil, path, _ => .refl v path
  | .cons h hrest, _, hpath =>
    (part_of_turns h hpath.head).trans (part_of_runs hrest (hpath.tail h))
termination_by structural h => h

theorem part_of_parts {p : Plan Node} {strip clean : Bool} {v w : Json} :
    Parts e p strip v w clean → ∀ {start c step path},
      Runs e false p.allOf (coerced e.options p.types start) v c →
        Undropped e (.plan p) strip start (step :: path) → Keeps v w (step :: path)
  | .object hready h, start, c, .key key, path, hruns, hpath => by
    intro y hy
    rcases Json.part?_key_eq_some_iff.mp hy with ⟨x, hx, hrest⟩
    have hkept : ¬ (strip = true ∧ Drops e p key) := by
      rintro ⟨rfl, hdrops⟩
      exact hpath.not_drops hdrops
    rcases hready with ⟨fuel, hprepared⟩
    have hx' := get?_of_prepared hprepared hkept hx
    have hundropped : UndroppedRuns e true (memberNodes p key) x path := by
      intro n u hn
      exact hpath.part (.member hruns ⟨fuel, hprepared⟩ (Fields.mem_of_get? hx') hn)
    rcases part_of_members h hx' hundropped hrest with ⟨z, hz, z', hz', halike⟩
    exact ⟨z', Json.part?_key_eq_some_iff.mpr ⟨z, hz, hz'⟩, halike⟩
  | .object _ _, _, _, .index _, _, _, _ => by
    intro y hy
    simp [Json.part?_cons, Json.child?] at hy
  | .list h, start, c, .index i, path, hruns, hpath => by
    intro y hy
    rcases Json.part?_index_eq_some_iff.mp hy with ⟨x, hx, hrest⟩
    have hundropped : UndroppedRuns e true (itemNodes p (0 + i)) x path := by
      intro n u hn
      rw [Nat.zero_add] at hn
      exact hpath.part (.item hruns hx hn)
    rcases part_of_items h hx hundropped hrest with ⟨z, hz, z', hz', halike⟩
    exact ⟨z', Json.part?_index_eq_some_iff.mpr ⟨z, hz, hz'⟩, halike⟩
  | .list _, _, _, .key _, _, _, _ => by
    intro y hy
    simp [Json.part?_cons, Json.child?] at hy
  | .scalar hv, _, _, step, path, _, _ => .refl _ _
termination_by structural h => h

theorem part_of_members {p : Plan Node} {members members' : Fields Json} {clean : Bool} :
    Members e p members members' clean → ∀ {key path x y}, Fields.get? members key = some x →
      UndroppedRuns e true (memberNodes p key) x path → x.part? path = some y →
        ∃ z, Fields.get? members' key = some z ∧ ∃ z', z.part? path = some z' ∧ Alike y z'
  | .nil, _, _, _, _, hx, _, _ => by simp at hx
  | .cons h hrest, key, path, x, y, hx, hpath, hy => by
    rw [Fields.get?_cons] at hx
    split at hx
    · next heq =>
      subst heq
      obtain rfl := Option.some.inj hx
      rcases part_of_runs h hpath y hy with ⟨z', hz', halike⟩
      exact ⟨_, by rw [Fields.get?_cons, if_pos rfl], z', hz', halike⟩
    · next hne =>
      rcases part_of_members hrest hx hpath hy with ⟨z, hz, hrest⟩
      exact ⟨z, by rw [Fields.get?_cons, if_neg hne, hz], hrest⟩
termination_by structural h => h

theorem part_of_items {p : Plan Node} {index : Nat} {items items' : List Json} {clean : Bool} :
    Items e p index items items' clean → ∀ {i path x y}, items[i]? = some x →
      UndroppedRuns e true (itemNodes p (index + i)) x path → x.part? path = some y →
        ∃ z, items'[i]? = some z ∧ ∃ z', z.part? path = some z' ∧ Alike y z'
  | .nil, _, _, _, _, hx, _, _ => by simp at hx
  | .cons h hrest, 0, path, x, y, hx, hpath, hy => by
    obtain rfl := Option.some.inj hx
    rcases part_of_runs h hpath y hy with ⟨z', hz', halike⟩
    exact ⟨_, rfl, z', hz', halike⟩
  | .cons h hrest, i + 1, path, x, y, hx, hpath, hy => by
    rw [show index + (i + 1) = index + 1 + i by omega] at hpath
    rcases part_of_items hrest (i := i) (by simpa using hx) hpath hy with ⟨z, hz, hrest⟩
    exact ⟨z, by simpa using hz, hrest⟩
termination_by structural h => h

end

end HttpContract.Normalization
