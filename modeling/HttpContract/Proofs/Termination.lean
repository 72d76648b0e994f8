import HttpContract.Proofs.References
import HttpContract.Proofs.Shapes
import HttpContract.Proofs.Validation
import HttpContract.Proofs.Visits

/-!
# When validation ends

At one place of the value a walk goes from schema to schema only finitely often, since accepted
registries have no cycle there. So it ends when there is a bound on the depth of the places it comes
to (`ends_iff`). Only defaults can make the value deeper on the way, and only those that are or hold
objects can call for further defaults: without them every walk ends.
-/

namespace HttpContract.Normalization

variable {e : Engine}

/-! ## Ranks -/

/-- Every call of a walk keeps the rank, and calls at parts of the value descend from it. -/
structure Descends {ι : Type} (e : Engine) (below : ι → ι → Prop)
    (Rank : ι → Node → (strip : Bool) → Json → Prop) : Prop where
  reference : ∀ {i n strip v s}, Rank i n strip v → e.resolve? n = some s → Rank i s.root strip v
  branch : ∀ {i p strip v n u}, Rank i (.plan p) strip v →
    Entered e false p.allOf (coerced e.options p.types v) n u → Rank i n false u
  part : ∀ {i p strip v step n u}, Rank i (.plan p) strip v → PartEntered e p strip v step n u →
    ∃ j, below j i ∧ Rank j n true u

/-- A walk has an outcome when its calls at parts of the value descend in a well-founded order: at
one place the order of the schemas is well-founded. -/
theorem exists_turns_of_descends {ι : Type} {below : ι → ι → Prop}
    {Rank : ι → Node → Bool → Json → Prop} (he : e.Acyclic) (hwf : WellFounded below)
    (h : Descends e below Rank) (i : ι) :
    ∀ n strip v, Rank i n strip v → ∃ w clean, Turns e n strip v w clean := by
  -- `descend` is for calls at parts of the value, `inPlace` for those at the same place
  induction hwf.apply i with
  | intro i _ descend =>
  intro n
  induction Engine.acc_below he n with
  | intro n _ inPlace =>
  intro strip v hrank
  by_cases hn : ∃ p, n = .plan p
  · rcases hn with ⟨p, rfl⟩
    obtain ⟨u, clean, hbranches⟩ : ∃ u clean,
        Runs e false p.allOf (coerced e.options p.types v) u clean :=
      exists_runs (fun m x hm => inPlace m (.branch hm.mem) false x (h.branch hrank hm))
    have hcalls : ∀ {step k x}, PartEntered e p strip v step k x →
        ∃ w c, Turns e k true x w c := by
      intro step k x hk
      rcases h.part hrank hk with ⟨j, hj, hrank'⟩
      exact descend j hj k true x hrank'
    have hparts : ∃ w clean', Parts e p strip u w clean' := by
      cases u with
      | obj members =>
        rcases exists_prepared he p strip members with ⟨fuel, ready, hready⟩
        have hall : ∀ m ∈ ready, ∃ w c, Runs e true (memberNodes p m.1) m.2 w c := by
          intro m hm
          exact exists_runs (fun k x hk => hcalls (.member hbranches ⟨fuel, hready⟩ hm hk))
        rcases exists_members_iff.mpr hall with ⟨members', clean', hmembers⟩
        exact ⟨_, _, .object ⟨fuel, hready⟩ hmembers⟩
      | arr items =>
        have hall : ∀ i x, items[i]? = some x →
            ∃ w c, Runs e true (itemNodes p (0 + i)) x w c := by
          intro i x hitem
          rw [Nat.zero_add]
          exact exists_runs (fun k y hk => hcalls (.item hbranches hitem hk))
        rcases exists_items_iff.mpr hall with ⟨items', clean', hitems⟩
        exact ⟨_, _, .list hitems⟩
      | _ => exact ⟨_, _, .scalar rfl⟩
    rcases hparts with ⟨w, clean', hparts⟩
    exact ⟨w, _, .plan hbranches hparts⟩
  · have hplan : ∀ p, n ≠ .plan p := fun p hp => hn ⟨p, hp⟩
    cases hs : e.resolve? n with
    | none => exact ⟨v, true, .nowhere hplan hs⟩
    | some s =>
      rcases inPlace s.root (.reference hs) strip v (h.reference hrank hs) with ⟨w, clean, hturns⟩
      exact ⟨w, _, .reference hs hturns⟩

/-! ## Bounded depth -/

/-- The walk along `n` over `v` comes to no place deeper than `depth`. -/
def Shallow (e : Engine) (depth : Nat) (n : Node) (strip : Bool) (v : Json) : Prop :=
  ∀ path m strip' u, Visits e n strip v path m strip' u → path.length ≤ depth

theorem descends_shallow : Descends e (· < ·) (Shallow e) where
  reference h hs path m strip' u hvisits := h path m strip' u (.reference hs hvisits)
  branch h hn path m strip' u hvisits := h path m strip' u (.branch hn hvisits)
  part := by
    intro depth p strip v step n u h hn
    -- the call itself is one step deep, so there is a depth to descend from
    have hpos : 1 ≤ depth := h [step] n true u (.part hn .here)
    refine ⟨depth - 1, by omega, fun path m strip' x hvisits => ?_⟩
    have hle : path.length + 1 ≤ depth := h (step :: path) m strip' x (.part hn hvisits)
    omega

theorem Shallow.mono {depth depth' : Nat} {n : Node} {strip : Bool} {v : Json}
    (h : Shallow e depth n strip v) (hle : depth ≤ depth') : Shallow e depth' n strip v :=
  fun path m strip' u hvisits => Nat.le_trans (h path m strip' u hvisits) hle

/-- What is known of the calls that a walk along several nodes makes. -/
def ShallowRuns (e : Engine) (depth : Nat) (strip : Bool) (nodes : List Node) (v : Json) : Prop :=
  ∀ n u, Entered e strip nodes v n u → Shallow e depth n strip u

theorem shallow_plan {p : Plan Node} {strip : Bool} {v : Json} {depth : Nat}
    (hbranches : ShallowRuns e depth false p.allOf (coerced e.options p.types v))
    (hparts : ∀ step n u, PartEntered e p strip v step n u → Shallow e depth n true u) :
    Shallow e (depth + 1) (.plan p) strip v := by
  intro path m strip' u hvisits
  cases hvisits with
  | here => simp
  | reference hs _ => simp at hs
  | branch hn hvisits => exact Nat.le_succ_of_le (hbranches _ _ hn _ _ _ _ hvisits)
  | part hn hvisits => exact Nat.succ_le_succ (hparts _ _ _ hn _ _ _ _ hvisits)

mutual

/-- A walk that has an outcome comes to places of bounded depth. -/
theorem exists_shallow {n : Node} {strip clean : Bool} {v w : Json} :
    Turns e n strip v w clean → ∃ depth, Shallow e depth n strip v
  | .nowhere hn hs => by
    refine ⟨0, fun path m strip' u hvisits => ?_⟩
    cases hvisits with
    | here => simp
    | reference hs' _ => simp [hs] at hs'
    | branch _ _ => exact absurd rfl (hn _)
    | part _ _ => exact absurd rfl (hn _)
  | .reference (s := s) hs h => by
    rcases exists_shallow h with ⟨depth, hdepth⟩
    refine ⟨depth, fun path m strip' u hvisits => ?_⟩
    cases hvisits with
    | here => simp
    | reference hs' hvisits =>
      obtain rfl : s = _ := Option.some.inj (hs.symm.trans hs')
      exact hdepth _ _ _ _ hvisits
    | branch _ _ => simp at hs
    | part _ _ => simp at hs
  | .plan hbranches hparts => by
    rcases exists_shallowRuns hbranches with ⟨first, hfirst⟩
    rcases exists_shallow_of_parts hparts with ⟨others, hothers⟩
    refine ⟨max first others + 1, shallow_plan ?_ ?_⟩
    · intro n u hn
      exact (hfirst n u hn).mono (Nat.le_max_left _ _)
    · intro step n u hn
      exact (hothers hbranches step n u hn).mono (Nat.le_max_right _ _)
termination_by structural h => h

theorem exists_shallowRuns {nodes : List Node} {strip clean : Bool} {v w : Json} :
    Runs e strip nodes v w clean → ∃ depth, ShallowRuns e depth strip nodes v
  | .nil => ⟨0, fun n u hn => by simpa using hn.mem⟩
  | .cons h hrest => by
    rcases exists_shallow h with ⟨first, hfirst⟩
    rcases exists_shallowRuns hrest with ⟨others, hothers⟩
    refine ⟨max first others, fun n u hn => ?_⟩
    rcases entered_cons_iff.mp hn with ⟨rfl, rfl⟩ | ⟨x, c, hx, hn⟩
    · exact hfirst.mono (Nat.le_max_left _ _)
    · rcases h.unique hx with ⟨rfl, -⟩
      exact (hothers n u hn).mono (Nat.le_max_right _ _)
termination_by structural h => h

theorem exists_shallow_of_parts {p : Plan Node} {strip clean : Bool} {v w : Json} :
    Parts e p strip v w clean → ∃ depth, ∀ {start : Json} {c : Bool},
      Runs e false p.allOf (coerced e.options p.types start) v c →
        ∀ step n u, PartEntered e p strip start step n u → Shallow e depth n true u
  | .object hready h => by
    rcases exists_shallow_of_members h with ⟨depth, hdepth⟩
    refine ⟨depth, fun hbranches step n u hn => ?_⟩
    cases hn with
    | member hbranches' hready' hmem hn =>
      rcases hbranches.unique hbranches' with ⟨hobj, -⟩
      obtain rfl := Json.obj.inj hobj
      obtain rfl := prepared_unique hready hready'
      exact hdepth _ _ hmem n u hn
    | item hbranches' _ _ => exact absurd (hbranches.unique hbranches').1 (by simp)
  | .list h => by
    rcases exists_shallow_of_items h with ⟨depth, hdepth⟩
    refine ⟨depth, fun hbranches step n u hn => ?_⟩
    cases hn with
    | member hbranches' _ _ _ => exact absurd (hbranches.unique hbranches').1 (by simp)
    | item hbranches' hitem hn =>
      rcases hbranches.unique hbranches' with ⟨harr, -⟩
      obtain rfl := Json.arr.inj harr
      exact hdepth _ _ hitem n u (by rwa [Nat.zero_add])
  | .scalar hv => by
    refine ⟨0, fun hbranches step n u hn => ?_⟩
    cases hn with
    | member hbranches' _ _ _ => simp [(hbranches.unique hbranches').1, isScalar] at hv
    | item hbranches' _ _ => simp [(hbranches.unique hbranches').1, isScalar] at hv
termination_by structural h => h

theorem exists_shallow_of_members {p : Plan Node} {members members' : Fields Json} {clean : Bool} :
    Members e p members members' clean → ∃ depth, ∀ key x, (key, x) ∈ members →
      ShallowRuns e depth true (memberNodes p key) x
  | .nil => ⟨0, fun key x hmem => by simp at hmem⟩
  | .cons h hrest => by
    rcases exists_shallowRuns h with ⟨first, hfirst⟩
    rcases exists_shallow_of_members hrest with ⟨others, hothers⟩
    refine ⟨max first others, fun key x hmem n u hn => ?_⟩
    rcases List.mem_cons.mp hmem with heq | hmem
    · rcases Prod.mk.inj heq with ⟨rfl, rfl⟩
      exact (hfirst n u hn).mono (Nat.le_max_left _ _)
    · exact (hothers key x hmem n u hn).mono (Nat.le_max_right _ _)
termination_by structural h => h

theorem exists_shallow_of_items {p : Plan Node} {index : Nat} {items items' : List Json}
    {clean : Bool} : Items e p index items items' clean → ∃ depth, ∀ i x, items[i]? = some x →
      ShallowRuns e depth true (itemNodes p (index + i)) x
  | .nil => ⟨0, fun i x hitem => by simp at hitem⟩
  | .cons h hrest => by
    rcases exists_shallowRuns h with ⟨first, hfirst⟩
    rcases exists_shallow_of_items hrest with ⟨others, hothers⟩
    refine ⟨max first others, fun i x hitem n u hn => ?_⟩
    cases i with
    | zero =>
      obtain rfl : _ = x := by simpa using hitem
      exact (hfirst n u hn).mono (Nat.le_max_left _ _)
    | succ i =>
      rw [show index + (i + 1) = index + 1 + i by omega] at hn
      exact (hothers i x (by simpa using hitem) n u hn).mono (Nat.le_max_right _ _)
termination_by structural h => h

end

/-! ## Defaults without objects -/

/-- At most `objects` objects are nested in one another, and at most `lists` lists around the
outermost of them; the members of an object can be in lists of their own. -/
inductive Nests : (objects lists : Nat) → Json → Prop where
  | scalar {objects lists : Nat} {v : Json} (h : isScalar v = true) : Nests objects lists v
  | list {objects lists : Nat} {items : List Json} (h : ∀ x ∈ items, Nests objects lists x) :
      Nests objects (lists + 1) (.arr items)
  | object {objects lists : Nat} {members : Fields Json} (inner : String × Json → Nat)
      (h : ∀ m ∈ members, Nests objects (inner m) m.2) : Nests (objects + 1) lists (.obj members)

/-- A value without objects. -/
def Flat (v : Json) : Prop := ∃ lists, Nests 0 lists v

/-- No default of the schemas that a walk along `n` can come to is or holds an object. -/
def FlatDefaults (e : Engine) (n : Node) : Prop :=
  ∀ p, Reaches e n (.plan p) → ∀ d, p.default = some d → Flat d

theorem FlatDefaults.of_reaches {n m : Node} (h : FlatDefaults e n) (hm : Reaches e n m) :
    FlatDefaults e m :=
  fun p hp d hd => h p (hm.trans hp) d hd

theorem Nests.mono {objects lists : Nat} {v : Json} (h : Nests objects lists v) :
    ∀ {objects' lists' : Nat}, objects ≤ objects' → lists ≤ lists' → Nests objects' lists' v := by
  induction h with
  | scalar h => exact fun _ _ => .scalar h
  | list h ih =>
    intro objects' lists' ho hl
    obtain ⟨lists', rfl⟩ : ∃ k, lists' = k + 1 := ⟨lists' - 1, by omega⟩
    exact .list (fun x hx => ih x hx ho (by omega))
  | object inner h ih =>
    intro objects' lists' ho hl
    obtain ⟨objects', rfl⟩ : ∃ k, objects' = k + 1 := ⟨objects' - 1, by omega⟩
    exact .object inner (fun m hm => ih m hm (by omega) (Nat.le_refl _))

theorem nests_obj_iff {objects lists : Nat} {members : Fields Json} :
    Nests (objects + 1) lists (.obj members) ↔ ∀ m ∈ members, ∃ inner, Nests objects inner m.2 := by
  constructor
  · intro h m hm
    cases h with
    | scalar hv => simp [isScalar] at hv
    | object inner h => exact ⟨inner m, h m hm⟩
  · intro h
    -- each member may need another number of lists, so one is chosen for each
    have hall : ∀ m, ∃ inner, m ∈ members → Nests objects inner m.2 := by
      intro m
      by_cases hm : m ∈ members
      · rcases h m hm with ⟨inner, hinner⟩
        exact ⟨inner, fun _ => hinner⟩
      · exact ⟨0, fun hmem => absurd hmem hm⟩
    rcases Classical.skolem.mp hall with ⟨inner, hinner⟩
    exact .object inner (fun m hm => hinner m hm)

theorem nests_arr_iff {objects lists : Nat} {items : List Json} :
    Nests objects (lists + 1) (.arr items) ↔ ∀ x ∈ items, Nests objects lists x := by
  constructor
  · intro h
    cases h with
    | scalar hv => simp [isScalar] at hv
    | list h => exact h
  · exact .list

theorem not_nests_zero_obj {lists : Nat} {members : Fields Json} :
    ¬ Nests 0 lists (.obj members) := by
  intro h
  cases h with
  | scalar hv => simp [isScalar] at hv

theorem not_nests_zero_arr {objects : Nat} {items : List Json} :
    ¬ Nests objects 0 (.arr items) := by
  intro h
  cases h with
  | scalar hv => simp [isScalar] at hv

theorem exists_nests_of_forall {α : Type} (value : α → Json) : ∀ (xs : List α),
    (∀ x ∈ xs, ∃ objects lists, Nests objects lists (value x)) →
      ∃ objects lists, ∀ x ∈ xs, Nests objects lists (value x) := by
  intro xs
  induction xs with
  | nil => exact fun _ => ⟨0, 0, by simp⟩
  | cons x rest ih =>
    intro h
    rcases h x List.mem_cons_self with ⟨objects, lists, hx⟩
    rcases ih (fun y hy => h y (List.mem_cons_of_mem _ hy)) with ⟨objects', lists', hrest⟩
    refine ⟨max objects objects', max lists lists', fun y hy => ?_⟩
    rcases List.mem_cons.mp hy with rfl | hy
    · exact hx.mono (Nat.le_max_left _ _) (Nat.le_max_left _ _)
    · exact (hrest y hy).mono (Nat.le_max_right _ _) (Nat.le_max_right _ _)

mutual

/-- Every value nests finitely many objects and lists. -/
theorem exists_nests : ∀ v : Json, ∃ objects lists, Nests objects lists v
  | .arr items => by
    rcases exists_nests_of_forall id items (exists_nests_items items) with ⟨objects, lists, h⟩
    exact ⟨objects, lists + 1, .list h⟩
  | .obj members => by
    rcases exists_nests_of_forall Prod.snd members (exists_nests_members members) with
      ⟨objects, lists, h⟩
    have hmembers : ∀ m ∈ members, ∃ inner, Nests objects inner m.2 :=
      fun m hm => ⟨lists, h m hm⟩
    exact ⟨objects + 1, 0, nests_obj_iff.mpr hmembers⟩
  | .null | .bool _ | .num _ | .str _ => ⟨0, 0, .scalar rfl⟩
termination_by structural v => v

theorem exists_nests_items : ∀ items : List Json, ∀ x ∈ items, ∃ objects lists,
    Nests objects lists (id x)
  | [], x, hx => by simp at hx
  | first :: rest, x, hx => by
    rcases List.mem_cons.mp hx with heq | hx
    · rw [heq]
      exact exists_nests first
    · exact exists_nests_items rest x hx
termination_by structural items => items

theorem exists_nests_members : ∀ members : List (String × Json), ∀ m ∈ members, ∃ objects lists,
    Nests objects lists m.2
  | [], m, hm => by simp at hm
  | (_, v) :: rest, m, hm => by
    rcases List.mem_cons.mp hm with heq | hm
    · rw [heq]
      exact exists_nests v
    · exact exists_nests_members rest m hm
termination_by structural members => members

end

theorem nests_coerced {objects lists : Nat} {v : Json} (h : Nests objects lists v) (o : Options)
    (types : List JsonType) : Nests objects lists (coerced o types v) := by
  cases h with
  | scalar hv => exact .scalar (isScalar_coerced hv o types)
  | list h =>
    rw [coerced_arr]
    exact .list h
  | object inner h =>
    rw [coerced_obj]
    exact .object inner h

/-- A member with defaults filled in is one of the object or a default. -/
theorem mem_withDefaults {m : String × Json} : ∀ {properties : List (String × Node)}
    {members : Fields Json}, m ∈ withDefaults properties members →
      m ∈ members ∨ ∃ name p, (name, .plan p) ∈ properties ∧ p.default = some m.2 := by
  intro properties
  induction properties with
  | nil => exact fun h => Or.inl h
  | cons entry rest ih =>
    intro members h
    rcases entry with ⟨name, n⟩
    rcases ih h with h | ⟨name', p, hmem, hd⟩
    · dsimp only at h
      split at h
      · split at h
        · next d hd =>
          split at h
          · exact Or.inl h
          · rcases Fields.mem_of_mem_insert h with rfl | h
            · exact Or.inr ⟨name, _, List.mem_cons_self, hd⟩
            · exact Or.inl h
        · exact Or.inl h
      · exact Or.inl h
    · exact Or.inr ⟨name', p, List.mem_cons_of_mem _ hmem, hd⟩

theorem mem_filled {p : Plan Node} {members : Fields Json} {m : String × Json}
    (h : m ∈ filled e p members) :
    m ∈ members ∨ e.options.useDefaults = true ∧
      ∃ q d, Reaches e (.plan p) (.plan q) ∧ q.default = some d ∧ m.2 = d := by
  unfold filled at h
  split at h
  · next huse =>
    rcases mem_withDefaults h with h | ⟨name, q, hmem, hd⟩
    · exact Or.inl h
    · exact Or.inr ⟨huse, q, m.2, .property .here hmem, hd, rfl⟩
  · exact Or.inl h

/-- Defaults that are filled in along `n` are flat. -/
def FillsFlat (e : Engine) (n : Node) : Prop :=
  e.options.useDefaults = true → FlatDefaults e n

theorem FillsFlat.of_reaches {n m : Node} (h : FillsFlat e n) (hm : Reaches e n m) :
    FillsFlat e m :=
  fun huse => (h huse).of_reaches hm

open Classical in
theorem nests_of_prepared {p : Plan Node} {strip : Bool} {fuel objects : Nat}
    {members ready : Fields Json} (hflat : FillsFlat e (.plan p))
    (h : ∀ m ∈ members, ∃ inner, Nests objects inner m.2)
    (hready : prepared e fuel p strip members = some ready) :
    ∀ m ∈ ready, ∃ inner, Nests objects inner m.2 := by
  intro m hm
  rw [eq_of_prepared hready, List.mem_filter] at hm
  rcases mem_filled hm.1 with hm | ⟨huse, q, d, hq, hd, hvalue⟩
  · exact h m hm
  · -- a flat default has no objects, which no bound on their nesting excludes
    rcases hflat huse q hq d hd with ⟨lists, hlists⟩
    rw [hvalue]
    exact ⟨lists, hlists.mono (Nat.zero_le _) (Nat.le_refl _)⟩

mutual

/-- Where defaults are flat a walk nests no objects or lists that were not nested before. -/
theorem nests_of_turns {n : Node} {strip clean : Bool} {v w : Json} :
    Turns e n strip v w clean → FillsFlat e n → ∀ {objects lists}, Nests objects lists v →
      Nests objects lists w
  | .nowhere _ _, _, _, _, hv => hv
  | .reference hs h, hflat, _, _, hv =>
    nests_of_turns h (hflat.of_reaches (.reference .here hs)) hv
  | .plan (p := p) hbranches hparts, hflat, _, _, hv => by
    have hflats : ∀ m ∈ p.allOf, FillsFlat e m :=
      fun _ hm => hflat.of_reaches (.branch .here hm)
    exact nests_of_parts hparts hflat (nests_of_runs hbranches hflats (nests_coerced hv _ _))
termination_by structural h => h

theorem nests_of_runs {nodes : List Node} {strip clean : Bool} {v w : Json} :
    Runs e strip nodes v w clean → (∀ n ∈ nodes, FillsFlat e n) → ∀ {objects lists},
      Nests objects lists v → Nests objects lists w
  | .nil, _, _, _, hv => hv
  | .cons h hrest, hflat, _, _, hv =>
    nests_of_runs hrest (fun n hn => hflat n (List.mem_cons_of_mem _ hn))
      (nests_of_turns h (hflat _ List.mem_cons_self) hv)
termination_by structural h => h

theorem nests_of_parts {p : Plan Node} {strip clean : Bool} {v w : Json} :
    Parts e p strip v w clean → FillsFlat e (.plan p) → ∀ {objects lists},
      Nests objects lists v → Nests objects lists w
  | .object _ _, _, 0, _, hv => absurd hv not_nests_zero_obj
  | .object hready h, hflat, objects + 1, lists, hv => by
    rcases hready with ⟨fuel, hready⟩
    have hkept := nests_of_prepared hflat (nests_obj_iff.mp hv) hready
    exact nests_obj_iff.mpr (nests_of_members h hflat hkept)
  | .list _, _, _, 0, hv => absurd hv not_nests_zero_arr
  | .list h, hflat, objects, lists + 1, hv =>
    nests_arr_iff.mpr (nests_of_items h hflat (nests_arr_iff.mp hv))
  | .scalar _, _, _, _, hv => hv
termination_by structural h => h

theorem nests_of_members {p : Plan Node} {members members' : Fields Json} {clean : Bool} :
    Members e p members members' clean → FillsFlat e (.plan p) → ∀ {objects},
      (∀ m ∈ members, ∃ inner, Nests objects inner m.2) →
        ∀ m ∈ members', ∃ inner, Nests objects inner m.2
  | .nil, _, _, _ => by simp
  | .cons h hrest, hflat, objects, hmembers => by
    intro m hm
    rcases List.mem_cons.mp hm with rfl | hm
    · rcases hmembers _ List.mem_cons_self with ⟨inner, hinner⟩
      exact ⟨inner, nests_of_runs h
        (fun n hn => hflat.of_reaches (reaches_of_mem_memberNodes hn)) hinner⟩
    · exact nests_of_members hrest hflat (fun x hx => hmembers x (List.mem_cons_of_mem _ hx)) m hm
termination_by structural h => h

theorem nests_of_items {p : Plan Node} {index : Nat} {items items' : List Json} {clean : Bool} :
    Items e p index items items' clean → FillsFlat e (.plan p) → ∀ {objects lists},
      (∀ x ∈ items, Nests objects lists x) → ∀ x ∈ items', Nests objects lists x
  | .nil, _, _, _, _ => by simp
  | .cons h hrest, hflat, objects, lists, hitems => by
    intro x hx
    rcases List.mem_cons.mp hx with heq | hx
    · rw [heq]
      exact nests_of_runs h (fun n hn => hflat.of_reaches (reaches_of_mem_itemNodes hn))
        (hitems _ List.mem_cons_self)
    · exact nests_of_items hrest hflat (fun y hy => hitems y (List.mem_cons_of_mem _ hy)) x hx
termination_by structural h => h

end

theorem nests_of_entered {strip : Bool} {nodes : List Node} {v u : Json} {n : Node}
    {objects lists : Nat} (h : Entered e strip nodes v n u) (hflat : ∀ m ∈ nodes, FillsFlat e m)
    (hv : Nests objects lists v) : Nests objects lists u := by
  rcases h with ⟨before, after, clean, rfl, hruns⟩
  exact nests_of_runs hruns (fun m hm => hflat m (List.mem_append_left _ hm)) hv

/-- Where defaults are flat, calls at parts of the value descend by the nesting of objects and, at
the same nesting of objects, by that of lists. -/
theorem descends_nests : Descends e (Prod.Lex (· < ·) (· < ·))
    (fun i n _ v => FillsFlat e n ∧ Nests i.1 i.2 v) where
  reference h hs := ⟨h.1.of_reaches (.reference .here hs), h.2⟩
  branch h hn := ⟨h.1.of_reaches (.branch .here hn.mem), nests_of_entered hn
    (fun _ hm => h.1.of_reaches (.branch .here hm)) (nests_coerced h.2 _ _)⟩
  part := by
    rintro ⟨objects, lists⟩ p strip v step n u ⟨hflat, hv⟩ hn
    have hbranches : ∀ {x c}, Runs e false p.allOf (coerced e.options p.types v) x c →
        Nests objects lists x := by
      intro x c hruns
      exact nests_of_runs hruns (fun m hm => hflat.of_reaches (.branch .here hm))
        (nests_coerced hv _ _)
    cases hn with
    | member hruns hready hmem hn =>
      -- one object less, and as many lists as the member happens to have
      rcases hready with ⟨fuel, hready⟩
      have hobj := hbranches hruns
      cases objects with
      | zero => exact absurd hobj not_nests_zero_obj
      | succ objects =>
        rcases nests_of_prepared hflat (nests_obj_iff.mp hobj) hready _ hmem with ⟨inner, hinner⟩
        have hflats : ∀ {key : String}, ∀ m ∈ memberNodes p key, FillsFlat e m := fun m hm =>
          hflat.of_reaches (reaches_of_mem_memberNodes hm)
        exact ⟨(objects, inner), .left _ _ (Nat.lt_succ_self objects), hflats n hn.mem,
          nests_of_entered hn hflats hinner⟩
    | item hruns hitem hn =>
      -- as many objects, and one list less
      have harr := hbranches hruns
      cases lists with
      | zero => exact absurd harr not_nests_zero_arr
      | succ lists =>
        have hflats : ∀ {i : Nat}, ∀ m ∈ itemNodes p i, FillsFlat e m := fun m hm =>
          hflat.of_reaches (reaches_of_mem_itemNodes hm)
        exact ⟨(objects, lists), .right _ (Nat.lt_succ_self lists), hflats n hn.mem,
          nests_of_entered hn hflats
            (nests_arr_iff.mp harr _ (List.mem_of_getElem? hitem))⟩

end HttpContract.Normalization

namespace HttpContract.Engine

open Normalization

/-- For every value validated against a schema of an accepted registry: validation ends exactly when
its walk comes to places of bounded depth, and it does end when no default is filled in that is or
holds an object. -/
theorem ends_iff_shallow {o : Options} {r : Registry} {e : Engine} (hr : ofRegistry o r = .ok e)
    (s : CompiledSchema) (v : Json) :
    (Ends e s v ↔ ∃ depth, Shallow e depth s.root true v) ∧
      ((o.useDefaults = true → FlatDefaults e s.root) → Ends e s v) := by
  rcases ofRegistry_eq_ok hr with ⟨rfl, he⟩
  rw [ends_iff_exists_turns]
  refine ⟨⟨?_, ?_⟩, ?_⟩
  · rintro ⟨w, clean, h⟩
    exact exists_shallow h
  · rintro ⟨depth, h⟩
    exact exists_turns_of_descends he Nat.lt_wfRel.wf descends_shallow depth s.root true v h
  · intro hflat
    rcases exists_nests v with ⟨objects, lists, hv⟩
    exact exists_turns_of_descends he (Prod.lex Nat.lt_wfRel Nat.lt_wfRel).wf descends_nests
      (objects, lists) s.root true v ⟨hflat, hv⟩

/-! ## A default without end -/

/-- A schema for objects whose member `next` is an object of the same kind, and the empty object
where it is absent. -/
def endless : Fragment :=
  .ofMembers [("properties", .obj [("next",
    .obj [("allOf", .arr [(Marker.deferred 0).toJson]), ("default", .obj [])])])]

/-- The registry of this schema alone. -/
def endlessRegistry : Registry := ⟨[⟨"endless", some endless⟩]⟩

/-- The document for the evaluator of this schema. -/
def endlessDocument : Json :=
  .obj [("properties", .obj [("next",
    .obj [("allOf", .arr [.bool true]), ("default", .obj [])])])]

/-- The plan of the member. -/
def nextPlan : Plan Node := { Plan.empty with default := some (.obj []), allOf := [.deferred 0] }

/-- The plan of this schema. -/
def endlessPlan : Plan Node := { Plan.empty with properties := [("next", .plan nextPlan)] }

theorem basic_endlessDocument : Basic endlessDocument := by
  refine .single (.property (.obj (fun m hm => ?_)))
  simp only [List.mem_cons, List.not_mem_nil, or_false] at hm
  rcases hm with rfl | rfl
  · exact .branch (.bool true)
  · exact .default _

/-- The document that evaluators of other schemas can refer to. -/
def endlessResource : Resource where
  uri := EvaluationForm.resourceUri 0
  contents := .obj [("properties", .obj [("next",
    .obj [("allOf", .arr [EvaluationForm.reference 0]), ("default", .obj [])])])]

/-- The engine of the registry. -/
def endlessEngine (l : Library) : Engine where
  options := .standard
  context := ⟨[true], [endlessResource]⟩
  entries := [some ⟨.plan endlessPlan, ⟨l, Evaluator.defaultBase, endlessDocument⟩,
    endless.document⟩]

/-- A reference to the schema. -/
def endlessReference : Fragment := ⟨(Marker.deferred 0).toJson, rfl⟩

/-- The reference when it is compiled. -/
def endlessSchema (l : Library) : CompiledSchema :=
  ⟨.deferred 0, ⟨l, Evaluator.defaultBase, .bool true⟩, endlessReference.document⟩

theorem exists_ofRegistry_endless : ∃ l l',
    ofRegistry .standard endlessRegistry = .ok (endlessEngine l) ∧
    (endlessEngine l).compile endlessReference = .ok (endlessSchema l') := by
  have hresources : ∀ r ∈ [endlessResource],
      (Library.declared (r.contents.depth + 1) r.uri r.contents).references = [] :=
    List.forall_mem_singleton.mpr (Library.references_of_unidentified 0 _ rfl)
  obtain ⟨l, hentry⟩ := Planning.compile_of_basic ⟨[true], [endlessResource]⟩ .standard
    endless.document "endless#" rfl (n := .plan endlessPlan) rfl basic_endlessDocument hresources
  obtain ⟨l', hcompile⟩ := Planning.compile_of_basic ⟨[true], [endlessResource]⟩ .standard
    endlessReference.document "" rfl (n := .deferred 0) rfl (.bool true) hresources
  -- the engine accepts the registry: the reference stands at another place than the schema
  refine ⟨l, l', ofRegistry_eq_ok_iff.mpr ⟨[some endlessResource], (endlessEngine l).entries, rfl,
    ?_, rfl, rfl⟩, hcompile⟩
  show (entryOf ⟨[true], [endlessResource]⟩ .standard ⟨"endless", some endless⟩).bind _ = _
  unfold entryOf
  dsimp only
  rw [show entryPath ⟨"endless", some endless⟩ = "endless#" from rfl, hentry]
  rfl

/-- The walk comes back to the reference, one level deeper each time. -/
theorem visits_endless (l : Library) (depth : Nat) (strip : Bool) : ∃ path strip',
    path.length = depth ∧
    Visits (endlessEngine l) (.deferred 0) strip (.obj []) path (.deferred 0) strip' (.obj []) := by
  induction depth generalizing strip with
  | zero => exact ⟨[], strip, rfl, .here⟩
  | succ depth ih =>
    rcases ih false with ⟨path, strip', hlength, hvisits⟩
    have hnext : Visits (endlessEngine l) (.plan nextPlan) true (.obj []) path (.deferred 0) strip'
        (.obj []) := .branch ⟨[], [], true, rfl, .nil⟩ hvisits
    have hready : prepared (endlessEngine l) 1 endlessPlan strip [] = some [("next", .obj [])] := by
      cases strip <;> rfl
    have hmember : PartEntered (endlessEngine l) endlessPlan strip (.obj []) (.key "next")
        (.plan nextPlan) (.obj []) :=
      .member .nil ⟨1, hready⟩ List.mem_cons_self ⟨[], [], true, rfl, .nil⟩
    exact ⟨.key "next" :: path, strip', congrArg (· + 1) hlength,
      .reference rfl (.part hmember hnext)⟩

theorem ends_iff_shallow_endless : ∃ e s, ofRegistry .standard endlessRegistry = .ok e ∧
    e.compile endlessReference = .ok s ∧
    (Ends e s (.obj []) ↔ ∃ depth, Shallow e depth s.root true (.obj [])) ∧
    ((Options.standard.useDefaults = true → FlatDefaults e s.root) → Ends e s (.obj [])) := by
  rcases exists_ofRegistry_endless with ⟨l, l', hr, hs⟩
  exact ⟨_, _, hr, hs, ends_iff_shallow hr _ _⟩

/-- A validation that does not end: no number of steps suffices. -/
theorem not_ends_endless : ∃ e s, ofRegistry .standard endlessRegistry = .ok e ∧
    e.compile endlessReference = .ok s ∧ ∀ fuel, run e fuel s true (.obj []) = none := by
  rcases exists_ofRegistry_endless with ⟨l, l', hr, hs⟩
  refine ⟨_, _, hr, hs, fun fuel => ?_⟩
  rw [← Option.not_isSome_iff_eq_none]
  intro hrun
  -- a walk that ends would come to no place deeper than some bound
  rcases ends_iff_exists_turns.mp ⟨fuel, hrun⟩ with ⟨w, clean, hturns⟩
  rcases exists_shallow hturns with ⟨depth, hshallow⟩
  rcases visits_endless l (depth + 1) true with ⟨path, strip', hlength, hvisits⟩
  have hle : path.length ≤ depth := hshallow path _ strip' _ hvisits
  omega

end HttpContract.Engine
