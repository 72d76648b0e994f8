import HttpContract.Proofs.Building
import HttpContract.Proofs.Planning
import HttpContract.Proofs.Termination

/-!
# What success says about the value that is left

A reference is judged by a pass of its own, at the moment the walk comes to it. Later branches of
`allOf`, other schemas for the same property and the owner of the branches can go on changing what
the pass has judged. `success_passive_iff` says which references have to be judged again for the
value that is left to satisfy the schema; where no place has a reference beside other schemas there
are none (`passive_success_of_separate`).
-/

namespace HttpContract.Normalization

variable {e : Engine}

/-! ## References and the places they stand at -/

/-- Read along `n`, the value `v` has `u` at a place, and `m` stands there. -/
inductive Stands (e : Engine) : (n : Node) → (v : Json) → (path : List Step) → (m : Node) →
    (u : Json) → Prop where
  | here {n : Node} {v : Json} : Stands e n v [] n v
  | reference {n m : Node} {s : CompiledSchema} {v u : Json} {path : List Step}
      (hs : e.resolve? n = some s) (h : Stands e s.root v path m u) : Stands e n v path m u
  | branch {p : Plan Node} {n m : Node} {v u : Json} {path : List Step} (hn : n ∈ p.allOf)
      (h : Stands e n v path m u) : Stands e (.plan p) v path m u
  | member {p : Plan Node} {n m : Node} {members : Fields Json} {key : String} {x u : Json}
      {path : List Step} (hmem : (key, x) ∈ members) (hn : n ∈ memberNodes p key)
      (h : Stands e n x path m u) : Stands e (.plan p) (.obj members) (.key key :: path) m u
  | item {p : Plan Node} {n m : Node} {items : List Json} {i : Nat} {x u : Json}
      {path : List Step} (hitem : items[i]? = some x) (hn : n ∈ itemNodes p i)
      (h : Stands e n x path m u) : Stands e (.plan p) (.arr items) (.index i :: path) m u

/-- Every reference that stands in the value accepts what is there. -/
def Satisfied (e : Engine) (n : Node) (v : Json) : Prop :=
  ∀ path m u s, Stands e n v path m u → e.resolve? m = some s → s.evaluator.accepts u = true

/-- A pass along the schema `s`, made at a place by the walk along `n` over `v`, has left `u`. -/
def Left (e : Engine) (n : Node) (strip : Bool) (v : Json) (path : List Step)
    (s : CompiledSchema) (u : Json) : Prop :=
  ∃ m strip' x clean, Visits e n strip v path m strip' x ∧ e.resolve? m = some s ∧
    Turns e s.root strip' x u clean

theorem satisfied_iff_of_resolve? {n : Node} {s : CompiledSchema} {v : Json}
    (hs : e.resolve? n = some s) :
    Satisfied e n v ↔ s.evaluator.accepts v = true ∧ Satisfied e s.root v := by
  constructor
  · intro h
    exact ⟨h [] n v s .here hs, fun path m u t hm => h path m u t (.reference hs hm)⟩
  · rintro ⟨haccepts, h⟩ path m u t hm ht
    cases hm with
    | here =>
      obtain rfl := Option.some.inj (hs.symm.trans ht)
      exact haccepts
    | reference hs' hm =>
      obtain rfl := Option.some.inj (hs.symm.trans hs')
      exact h path m u t hm ht
    | branch _ _ => simp at hs
    | member _ _ _ => simp at hs
    | item _ _ _ => simp at hs

/-- The references at the parts of the value that accept what is there. -/
def PartsSatisfied (e : Engine) (p : Plan Node) (v : Json) : Prop :=
  (∀ members, v = .obj members → ∀ m ∈ members, ∀ n ∈ memberNodes p m.1, Satisfied e n m.2) ∧
    ∀ items, v = .arr items → ∀ i x, items[i]? = some x → ∀ n ∈ itemNodes p i, Satisfied e n x

theorem satisfied_plan_iff {p : Plan Node} {v : Json} :
    Satisfied e (.plan p) v ↔ (∀ n ∈ p.allOf, Satisfied e n v) ∧ PartsSatisfied e p v := by
  constructor
  · intro h
    refine ⟨fun n hn path m u t hm => h path m u t (.branch hn hm), ?_, ?_⟩
    · rintro members rfl ⟨key, x⟩ hmem n hn path m u t hm
      exact h (.key key :: path) m u t (.member hmem hn hm)
    · rintro items rfl i x hitem n hn path m u t hm
      exact h (.index i :: path) m u t (.item hitem hn hm)
  · rintro ⟨hbranches, hmembers, hitems⟩ path m u t hm ht
    cases hm with
    | here => simp at ht
    | reference hs _ => simp at hs
    | branch hn hm => exact hbranches _ hn _ m u t hm ht
    | member hmem hn hm => exact hmembers _ rfl _ hmem _ hn _ m u t hm ht
    | item hitem hn hm => exact hitems _ rfl _ _ hitem _ hn _ m u t hm ht

/-! ## Walks that keep the value -/

/-- The plans that stand anywhere in the value convert nothing. -/
def Steady (e : Engine) (n : Node) (v : Json) : Prop :=
  ∀ path p u, Stands e n v path (.plan p) u → coerced e.options p.types u = u

namespace Steady

variable {n : Node} {p : Plan Node} {s : CompiledSchema} {v : Json}

theorem of_passive (he : e.options.Passive) : Steady e n v :=
  fun _ _ _ _ => by simp [coerced, he.2.2]

theorem reference (h : Steady e n v) (hs : e.resolve? n = some s) : Steady e s.root v :=
  fun path p u hp => h path p u (.reference hs hp)

theorem branch (h : Steady e (.plan p) v) (hn : n ∈ p.allOf) : Steady e n v :=
  fun path q u hq => h path q u (.branch hn hq)

theorem member {members : Fields Json} {key : String} (h : Steady e (.plan p) (.obj members))
    (hv : (key, v) ∈ members) (hn : n ∈ memberNodes p key) : Steady e n v :=
  fun path q u hq => h (.key key :: path) q u (.member hv hn hq)

theorem item {items : List Json} {i : Nat} (h : Steady e (.plan p) (.arr items))
    (hv : items[i]? = some v) (hn : n ∈ itemNodes p i) : Steady e n v :=
  fun path q u hq => h (.index i :: path) q u (.item hv hn hq)

end Steady

theorem prepared_of_keeping (he : e.options.Keeping) (fuel : Nat) (p : Plan Node) (strip : Bool)
    (members : Fields Json) : prepared e fuel p strip members = some members := by
  simp [prepared, filled, he.1, he.2]

mutual

/-- A walk that keeps members, over a value in which nothing is converted, changes nothing and finds
no violation where the references are satisfied. -/
theorem steady_turns (he : e.options.Keeping) {n : Node} {strip clean : Bool} {v w : Json} :
    Turns e n strip v w clean → Steady e n v → w = v ∧ (clean = true ↔ Satisfied e n v)
  | .nowhere hn hs, _ => by
    refine ⟨rfl, fun _ path m u t hm ht => ?_, fun _ => rfl⟩
    cases hm with
    | here => simp [hs] at ht
    | reference hs' _ => simp [hs] at hs'
    | branch _ _ => exact absurd rfl (hn _)
    | member _ _ _ => exact absurd rfl (hn _)
    | item _ _ _ => exact absurd rfl (hn _)
  | .reference hs h, hsteady => by
    rcases steady_turns he h (hsteady.reference hs) with ⟨hw, hclean⟩
    refine ⟨hw, ?_⟩
    rw [satisfied_iff_of_resolve? hs, Bool.and_eq_true, hclean, hw]
  | .plan hbranches hparts, hsteady => by
    have hkept := hsteady [] _ _ .here
    rcases steady_runs he hbranches (fun n hn => by rw [hkept]; exact hsteady.branch hn) with
      ⟨hu, hfirst⟩
    rw [hkept] at hu hfirst
    rcases steady_parts he hparts (by rw [hu]; exact hsteady) with ⟨hw, hothers⟩
    refine ⟨hw.trans hu, ?_⟩
    rw [satisfied_plan_iff, Bool.and_eq_true, hfirst, hothers, hu]
termination_by structural h => h

theorem steady_runs (he : e.options.Keeping) {nodes : List Node} {strip clean : Bool}
    {v w : Json} : Runs e strip nodes v w clean → (∀ n ∈ nodes, Steady e n v) →
      w = v ∧ (clean = true ↔ ∀ n ∈ nodes, Satisfied e n v)
  | .nil, _ => ⟨rfl, by simp⟩
  | .cons h hrest, hsteady => by
    rcases steady_turns he h (hsteady _ List.mem_cons_self) with ⟨hu, hfirst⟩
    rcases steady_runs he hrest
      (fun n hn => by rw [hu]; exact hsteady n (List.mem_cons_of_mem _ hn)) with ⟨hw, hothers⟩
    rw [hu] at hw hothers
    refine ⟨hw, ?_⟩
    rw [Bool.and_eq_true, hfirst, hothers, List.forall_mem_cons]
termination_by structural h => h

theorem steady_parts (he : e.options.Keeping) {p : Plan Node} {strip clean : Bool} {v w : Json} :
    Parts e p strip v w clean → Steady e (.plan p) v →
      w = v ∧ (clean = true ↔ PartsSatisfied e p v)
  | .object hready h, hsteady => by
    rcases hready with ⟨fuel, hready⟩
    -- nothing is filled in and nothing dropped
    have hkept := Option.some.inj ((prepared_of_keeping he fuel p strip _).symm.trans hready)
    rcases steady_members he h (fun m hm n hn => hsteady.member (hkept ▸ hm) hn) with
      ⟨hmembers, hclean⟩
    refine ⟨by rw [hmembers, hkept], ?_⟩
    rw [hclean, ← hkept]
    constructor
    · exact fun hall => ⟨fun members hv => Json.obj.inj hv ▸ hall, fun items hv => by simp at hv⟩
    · exact fun hall => hall.1 _ rfl
  | .list h, hsteady => by
    rcases steady_items he h (fun i x hx n hn => hsteady.item hx (Nat.zero_add i ▸ hn)) with
      ⟨hitems, hclean⟩
    refine ⟨by rw [hitems], ?_⟩
    rw [hclean]
    simp only [Nat.zero_add]
    constructor
    · exact fun hall => ⟨fun members hv => by simp at hv, fun items hv => Json.arr.inj hv ▸ hall⟩
    · exact fun hall => hall.2 _ rfl
  | .scalar hv, _ => by
    refine ⟨rfl, fun _ => ⟨?_, ?_⟩, fun _ => rfl⟩
    · rintro members rfl
      simp [isScalar] at hv
    · rintro items rfl
      simp [isScalar] at hv
termination_by structural h => h

theorem steady_members (he : e.options.Keeping) {p : Plan Node} {members members' : Fields Json}
    {clean : Bool} : Members e p members members' clean →
      (∀ m ∈ members, ∀ n ∈ memberNodes p m.1, Steady e n m.2) → members' = members ∧
        (clean = true ↔ ∀ m ∈ members, ∀ n ∈ memberNodes p m.1, Satisfied e n m.2)
  | .nil, _ => ⟨rfl, by simp⟩
  | .cons h hrest, hsteady => by
    rcases steady_runs he h (hsteady _ List.mem_cons_self) with ⟨hw, hfirst⟩
    rcases steady_members he hrest (fun m hm => hsteady m (List.mem_cons_of_mem _ hm)) with
      ⟨hmembers, hothers⟩
    refine ⟨by rw [hw, hmembers], ?_⟩
    rw [Bool.and_eq_true, hfirst, hothers, List.forall_mem_cons]
termination_by structural h => h

theorem steady_items (he : e.options.Keeping) {p : Plan Node} {index : Nat}
    {items items' : List Json} {clean : Bool} : Items e p index items items' clean →
      (∀ i x, items[i]? = some x → ∀ n ∈ itemNodes p (index + i), Steady e n x) →
        items' = items ∧ (clean = true ↔
          ∀ i x, items[i]? = some x → ∀ n ∈ itemNodes p (index + i), Satisfied e n x)
  | .nil, _ => ⟨rfl, by simp⟩
  | .cons h hrest, hsteady => by
    have hnext : ∀ i, index + (i + 1) = index + 1 + i := fun i => by omega
    rcases steady_runs he h (hsteady 0 _ rfl) with ⟨hw, hfirst⟩
    rcases steady_items he hrest (fun i x hx n hn => hsteady (i + 1) x hx n (hnext i ▸ hn)) with
      ⟨hitems, hothers⟩
    refine ⟨by rw [hw, hitems], ?_⟩
    rw [Bool.and_eq_true, hfirst, hothers]
    constructor
    · rintro ⟨hhead, htail⟩ i x hitem
      cases i with
      | zero =>
        obtain rfl := Option.some.inj hitem
        exact hhead
      | succ i =>
        rw [hnext]
        exact htail i x (by simpa using hitem)
    · intro hall
      refine ⟨hall 0 _ rfl, fun i x hitem => ?_⟩
      rw [← hnext]
      exact hall (i + 1) x (by simpa using hitem)
termination_by structural h => h

end

theorem Stands.congr {e' : Engine} (hresolve : ∀ n, e.resolve? n = e'.resolve? n) {n m : Node}
    {v u : Json} {path : List Step} (h : Stands e n v path m u) : Stands e' n v path m u := by
  induction h with
  | here => exact .here
  | reference hs _ ih => exact .reference (hresolve _ ▸ hs) ih
  | branch hn _ ih => exact .branch hn ih
  | member hmem hn _ ih => exact .member hmem hn ih
  | item hitem hn _ ih => exact .item hitem hn ih

theorem Satisfied.congr {e' : Engine} (hresolve : ∀ n, e.resolve? n = e'.resolve? n) {n : Node}
    {v : Json} (h : Satisfied e n v) : Satisfied e' n v :=
  fun path m u s hm hs =>
    h path m u s (hm.congr (fun k => (hresolve k).symm)) ((hresolve m).trans hs)

/-! ## What passes have judged -/

/-- What a pass of a walk without violations leaves is accepted by the schema of the pass. -/
theorem accepts_of_left {n : Node} {strip : Bool} {v w u : Json} {path : List Step}
    {s : CompiledSchema} (h : Left e n strip v path s u) (hturns : Turns e n strip v w true) :
    s.evaluator.accepts u = true := by
  rcases h with ⟨m, strip', x, clean, hvisits, hs, hpass⟩
  rcases exists_turns_of_visits hvisits hturns with ⟨y, c, hm, hc⟩
  rcases (turns_iff_of_resolve? hs).mp hm with ⟨inner, hinner, hclean⟩
  rcases hpass.unique hinner with ⟨rfl, -⟩
  rw [hc rfl] at hclean
  exact (Bool.and_eq_true_iff.mp hclean.symm).1

/-- The references of which no pass has left what stands at their place accept it all the same. -/
def Settles (e : Engine) (n : Node) (strip : Bool) (v w : Json) : Prop :=
  ∀ path m u s, Stands e n w path m u → e.resolve? m = some s → ¬ Left e n strip v path s u →
    s.evaluator.accepts u = true

/-- What a walk without violations leaves satisfies all references when it satisfies those that were
not judged as they are now. -/
theorem satisfied_iff_settles {n : Node} {strip : Bool} {v w : Json}
    (h : Turns e n strip v w true) : Satisfied e n w ↔ Settles e n strip v w := by
  constructor
  · exact fun hall path m u s hm hs _ => hall path m u s hm hs
  · intro hrest path m u s hm hs
    -- a pass that left what stands there has judged it as it is now
    by_cases hleft : Left e n strip v path s u
    · exact accepts_of_left hleft h
    · exact hrest path m u s hm hs hleft

/-! ## Places with one schema -/

/-- No reference stands anywhere in the schemas that `n` is made of. -/
def Plain (e : Engine) (n : Node) : Prop := ∀ m, Reaches e n m → e.resolve? m = none

/-- Wherever several schemas meet at one place of the value, none of them holds a reference. -/
def Separate (e : Engine) (n : Node) : Prop :=
  ∀ p, Reaches e n (.plan p) → (p.allOf = [] ∨ Plain e (.plan p)) ∧
    ∀ key, (memberNodes p key).length ≤ 1 ∨ ∀ m ∈ memberNodes p key, Plain e m

theorem Separate.of_reaches {n m : Node} (h : Separate e n) (hm : Reaches e n m) :
    Separate e m :=
  fun p hp => h p (hm.trans hp)

theorem reaches_of_stands {n m : Node} {v u : Json} {path : List Step}
    (h : Stands e n v path m u) : Reaches e n m := by
  induction h with
  | here => exact .here
  | reference hs _ ih => exact (Reaches.reference .here hs).trans ih
  | branch hn _ ih => exact (Reaches.branch .here hn).trans ih
  | member _ hn _ ih => exact (reaches_of_mem_memberNodes hn).trans ih
  | item _ hn _ ih => exact (reaches_of_mem_itemNodes hn).trans ih

theorem exists_member_of_members {p : Plan Node} {key : String} {x : Json}
    {members members' : Fields Json} {clean : Bool} : Members e p members members' clean →
      (key, x) ∈ members' →
        ∃ y c, (key, y) ∈ members ∧ Runs e true (memberNodes p key) y x c
  | .nil, hmem => by simp at hmem
  | .cons h hrest, hmem => by
    rcases List.mem_cons.mp hmem with heq | hmem
    · rcases Prod.mk.inj heq with ⟨rfl, rfl⟩
      exact ⟨_, _, List.mem_cons_self, h⟩
    · rcases exists_member_of_members hrest hmem with ⟨y, c, hy, hruns⟩
      exact ⟨y, c, List.mem_cons_of_mem _ hy, hruns⟩
termination_by structural h => h

theorem exists_item_of_items {p : Plan Node} {x : Json} {index : Nat} {items items' : List Json}
    {clean : Bool} : Items e p index items items' clean → ∀ {i}, items'[i]? = some x →
      ∃ y c, items[i]? = some y ∧ Runs e true (itemNodes p (index + i)) y x c
  | .nil, i, hitem => by simp at hitem
  | .cons h hrest, 0, hitem => by
    obtain rfl := Option.some.inj hitem
    exact ⟨_, _, rfl, h⟩
  | .cons h hrest, i + 1, hitem => by
    rcases exists_item_of_items hrest (i := i) (by simpa using hitem) with ⟨y, c, hy, hruns⟩
    rw [show index + (i + 1) = index + 1 + i by omega]
    exact ⟨y, c, by simpa using hy, hruns⟩
termination_by structural h => h

/-- A walk along at most one node comes to it over the value it started from. -/
theorem entered_of_length {strip : Bool} {nodes : List Node} {n : Node} {v w : Json} {clean : Bool}
    (hlen : nodes.length ≤ 1) (hn : n ∈ nodes) (h : Runs e strip nodes v w clean) :
    Entered e strip nodes v n v ∧ ∃ c, Turns e n strip v w c := by
  obtain ⟨m, rfl⟩ : ∃ m, nodes = [m] := by
    cases nodes with
    | nil => simp at hn
    | cons m rest =>
      have hzero : rest.length = 0 := by simpa using hlen
      obtain rfl : rest = [] := List.eq_nil_of_length_eq_zero hzero
      exact ⟨m, rfl⟩
  obtain rfl : n = m := by simpa using hn
  cases h with
  | cons hturns hrest =>
    cases hrest with
    | nil => exact ⟨entered_cons_iff.mpr (Or.inl ⟨rfl, rfl⟩), _, hturns⟩

/-- Where several schemas meet only without references, every reference that stands in what a walk
leaves has been judged by a pass that left what stands there. -/
theorem left_of_stands {n m : Node} {w u : Json} {path : List Step}
    (h : Stands e n w path m u) : ∀ {strip v clean s}, Turns e n strip v w clean →
      Separate e n → e.resolve? m = some s → Left e n strip v path s u := by
  induction h with
  | here =>
    intro strip v clean s hturns _ hs
    rcases (turns_iff_of_resolve? hs).mp hturns with ⟨inner, hinner, -⟩
    exact ⟨_, _, _, _, .here, hs, hinner⟩
  | reference hs' _ ih =>
    intro strip v clean s hturns hsep hs
    rcases (turns_iff_of_resolve? hs').mp hturns with ⟨inner, hinner, -⟩
    obtain ⟨k, strip', x, c, hvisits, hk, hpass⟩ :=
      ih hinner (hsep.of_reaches (.reference .here hs')) hs
    exact ⟨k, strip', x, c, .reference hs' hvisits, hk, hpass⟩
  | @branch p n m v u path hn hm _ =>
    intro strip start clean s _ hsep hs
    -- a plan with branches holds no reference, so none can stand here
    have hreaches : Reaches e (.plan p) m := (Reaches.branch .here hn).trans (reaches_of_stands hm)
    rcases (hsep p .here).1 with hnone | hplain
    · simp [hnone] at hn
    · rw [hplain m hreaches] at hs
      simp at hs
  | @member p n m members key x u path hmem hn hm ih =>
    intro strip start clean s hturns hsep hs
    rcases (hsep p .here).2 key with hlen | hplain
    · rcases turns_plan_iff.mp hturns with ⟨left, first, others, hbranches, hparts, -⟩
      cases hparts with
      | object hready hmembers =>
        rcases exists_member_of_members hmembers hmem with ⟨y, c, hy, hruns⟩
        rcases entered_of_length hlen hn hruns with ⟨hentered, c', hx⟩
        have hsep' : Separate e n := hsep.of_reaches (reaches_of_mem_memberNodes hn)
        rcases ih hx hsep' hs with ⟨k, strip', z, c'', hvisits, hk, hpass⟩
        exact ⟨k, strip', z, c'', .part (.member hbranches hready hy hentered) hvisits, hk, hpass⟩
      | scalar hv => simp [isScalar] at hv
    · rw [hplain n hn m (reaches_of_stands hm)] at hs
      simp at hs
  | @item p n m items i x u path hitem hn hm ih =>
    intro strip start clean s hturns hsep hs
    rcases turns_plan_iff.mp hturns with ⟨left, first, others, hbranches, hparts, -⟩
    cases hparts with
    | list hitems =>
      rcases exists_item_of_items hitems hitem with ⟨y, c, hy, hruns⟩
      rw [Nat.zero_add] at hruns
      rcases entered_of_length (length_itemNodes p i) hn hruns with ⟨hentered, c', hx⟩
      have hsep' : Separate e n := hsep.of_reaches (reaches_of_mem_itemNodes hn)
      rcases ih hx hsep' hs with ⟨k, strip', z, c'', hvisits, hk, hpass⟩
      exact ⟨k, strip', z, c'', .part (.item hbranches hy hentered) hvisits, hk, hpass⟩
    | scalar hv => simp [isScalar] at hv

end HttpContract.Normalization

namespace HttpContract.Engine

open Normalization

/-- The engine of the same registry that checks values as they are. -/
def passive (e : Engine) : Engine := { e with options := e.options.passive }

variable {o : Options} {r : Registry} {e : Engine} {f : Fragment} {s : CompiledSchema} {v : Json}

theorem ofRegistry_passive (h : ofRegistry o r = .ok e) :
    ofRegistry o.passive r = .ok e.passive := by
  rw [passive, (ofRegistry_eq_ok h).1]
  exact ofRegistry_of_entryOf h (fun _ => rfl)

theorem compile_passive (h : e.compile f = .ok s) : e.passive.compile f = .ok s := h

theorem resolve?_passive (e : Engine) (n : Node) : e.passive.resolve? n = e.resolve? n := by
  cases n <;> rfl

theorem satisfied_passive_iff {n : Node} : Satisfied e.passive n v ↔ Satisfied e n v :=
  ⟨.congr (resolve?_passive e), .congr (fun m => (resolve?_passive e m).symm)⟩

/-- A value in which nothing is converted is left as it is by a validator that keeps members, and
judged by the schema and all references. -/
theorem validate_of_steady (hr : ofRegistry o r = .ok e) (ho : o.Keeping)
    (hsteady : Steady e s.root v) : (e.validate s v).value = v ∧
      ((e.validate s v).verdict.success = true ↔
        s.evaluator.accepts v = true ∧ Satisfied e s.root v) := by
  -- without defaults every walk ends
  have hends : Ends e s v := (ends_iff_shallow hr s v).2 (by simp [ho.2])
  rcases ends_iff.mp hends with ⟨w, clean, inner, hturns, hclean⟩
  have hoptions : e.options = o := (ofRegistry_eq_ok hr).1
  rcases steady_turns (hoptions ▸ ho) hturns hsteady with ⟨rfl, hinner⟩
  rcases validate_of_leaves ⟨inner, hturns, hclean⟩ with ⟨hvalue, hsuccess⟩
  refine ⟨hvalue, ?_⟩
  rw [hsuccess, hclean, Bool.and_eq_true, hinner]

/-- The passive validator succeeds where the schema and all references accept the value. -/
theorem success_passive_iff_satisfied (hr : ofRegistry o r = .ok e) :
    (e.passive.validate s v).verdict.success = true ↔
      s.evaluator.accepts v = true ∧ Satisfied e s.root v := by
  have hsteady : Steady e.passive s.root v := .of_passive (Options.passive_passive e.options)
  rw [(validate_of_steady (ofRegistry_passive hr) (Options.passive_passive o).keeping hsteady).2,
    satisfied_passive_iff]

/-- Success means that the value left satisfies the schema, where several schemas meet at one place
of the value only without references. -/
theorem passive_success_of_separate (hr : ofRegistry o r = .ok e) (hsep : Separate e s.root)
    (hv : (e.validate s v).verdict.success = true) :
    (e.passive.validate s (e.validate s v).value).verdict.success = true := by
  rcases leaves_validate (ends_of_success hv) with ⟨inner, hturns, hclean⟩
  rw [hv] at hclean
  rcases Bool.and_eq_true_iff.mp hclean.symm with ⟨haccepts, rfl⟩
  rw [success_passive_iff_satisfied hr]
  refine ⟨haccepts, fun path m u t hm ht => ?_⟩
  exact accepts_of_left (left_of_stands hm hturns hsep ht) hturns

/-- When validation succeeds, the validator of the same registry and fragment that neither converts
nor fills in nor drops anything accepts what is left exactly if the references do that were not
judged as the value is now. -/
theorem success_passive_iff (hr : ofRegistry o r = .ok e) (hs : e.compile f = .ok s)
    (hv : (e.validate s v).verdict.success = true) :
    ofRegistry o.passive r = .ok e.passive ∧ e.passive.compile f = .ok s ∧
      ((e.passive.validate s (e.validate s v).value).verdict.success = true ↔
        Settles e s.root true v (e.validate s v).value) := by
  refine ⟨ofRegistry_passive hr, compile_passive hs, ?_⟩
  rcases leaves_validate (ends_of_success hv) with ⟨inner, hturns, hclean⟩
  rw [hv] at hclean
  rcases Bool.and_eq_true_iff.mp hclean.symm with ⟨haccepts, rfl⟩
  -- the evaluator of the schema itself comes last, so only references are left to judge
  rw [success_passive_iff_satisfied hr, satisfied_iff_settles hturns]
  exact ⟨fun h => h.2, fun h => ⟨haccepts, h⟩⟩

/-! ## A value that is judged before it is changed back -/

/-- The schema of a type. -/
def typed (t : JsonType) : Fragment := .ofMembers [("type", .str t.name)]

/-- References to two types, as branches of `allOf`. -/
def bothTyped (t t' : JsonType) : Fragment :=
  .ofMembers [("allOf", .arr [(Marker.inline (typed t)).toJson, (Marker.inline (typed t')).toJson])]

/-- The node of a reference to a type. -/
def typedNode (l : Library) (t : JsonType) : Node :=
  .inline (.plan { Plan.empty with types := [t] })
    ⟨l, Evaluator.defaultBase, (typed t).document⟩ (typed t).document

/-- The compiled schema of references to two types. -/
def bothTypedSchema (l l' l'' : Library) (t t' : JsonType) : CompiledSchema :=
  ⟨.plan { Plan.empty with allOf := [typedNode l t, typedNode l' t'] },
    ⟨l'', Evaluator.defaultBase, .obj [("allOf", .arr [.bool true, .bool true])]⟩,
    (bothTyped t t').document⟩

theorem exists_node_typed (o : Options) (t : JsonType) (path : String) : ∃ l,
    Planning.node (ofOptions o).context (Marker.inline (typed t)).toJson path =
      .ok (typedNode l t, .bool true) := by
  refine Planning.node_inline_of_basic _ (typed t) ?_ (.single (.type t))
    (fun _ hr => absurd hr List.not_mem_nil)
  cases t <;> rfl

theorem exists_compile_bothTyped (o : Options) (t t' : JsonType) : ∃ l l' l'',
    (ofOptions o).compile (bothTyped t t') = .ok (bothTypedSchema l l' l'' t t') := by
  obtain ⟨l, hfirst⟩ :=
    exists_node_typed o t (Json.Pointer.childIndex (Json.Pointer.child "" "allOf") 0)
  obtain ⟨l', hsecond⟩ :=
    exists_node_typed o t' (Json.Pointer.childIndex (Json.Pointer.child "" "allOf") 1)
  refine ⟨l, l', compile_of_basic o (bothTyped t t') rfl (Planning.node_allOf _ ?_) ?_⟩
  · rw [Planning.list, Planning.itemNodes, Planning.itemNodes, hfirst, Nat.zero_add, hsecond]
    rfl
  · refine .single (.allOf (List.cons_ne_nil _ _) (fun x hx => ?_))
    obtain rfl : x = .bool true := by simpa using hx
    exact .bool true

/-- A reference to a type turns a scalar into the value of the type that it converts to. -/
theorem turns_typedNode {e : Engine} (l : Library) {t : JsonType} {v w : Json}
    (hw : isScalar w = true) (hcoerced : coerced e.options [t] v = w)
    (hadmits : t.admits w = true) : Turns e (typedNode l t) false v w true := by
  have hplan : Turns e (.plan { Plan.empty with types := [t] }) false v w true :=
    turns_plan_iff.mpr ⟨w, true, true, hcoerced ▸ Runs.nil, .scalar hw, rfl⟩
  have hreference := Turns.reference (n := typedNode l t) rfl hplan
  dsimp only [typed, Fragment.ofMembers] at hreference
  rw [Evaluator.accepts_type, hadmits] at hreference
  exact hreference

/-- A text becomes a truth value, which is judged, and then the text again. -/
theorem leaves_bothTyped (l l' l'' : Library) :
    Leaves (ofOptions .standard) (bothTypedSchema l l' l'' .boolean .string) (.str "true")
      (.str "true") true := by
  have hboolean : Turns (ofOptions .standard) (typedNode l .boolean) false (.str "true")
      (.bool true) true := turns_typedNode l rfl rfl rfl
  have hstring : Turns (ofOptions .standard) (typedNode l' .string) false (.bool true)
      (.str "true") true := turns_typedNode l' rfl rfl rfl
  have hbranches : Runs (ofOptions .standard) false [typedNode l .boolean, typedNode l' .string]
      (.str "true") (.str "true") true := .cons hboolean (.cons hstring .nil)
  refine ⟨true, turns_plan_iff.mpr ⟨_, _, _, hbranches, .scalar rfl, rfl⟩, ?_⟩
  have haccepts := Evaluator.accepts_allOf_true l'' Evaluator.defaultBase
    (show ∀ x ∈ [Json.bool true, .bool true], x = .bool true by simp) (.str "true")
  exact (congrArg (· && true) haccepts).symm

/-- Checked as it is, the text is no truth value. -/
theorem passive_bothTyped (o : Options) (l l' l'' : Library) :
    ((ofOptions o).passive.validate (bothTypedSchema l l' l'' .boolean .string)
      (.str "true")).verdict.success = false := by
  rw [← Bool.not_eq_true, success_passive_iff_satisfied (ofRegistry_empty o)]
  rintro ⟨-, hall⟩
  have hrejects := hall [] (typedNode l .boolean) (.str "true") _
    (.branch List.mem_cons_self .here) rfl
  dsimp only [typed, Fragment.ofMembers] at hrejects
  rw [Evaluator.accepts_type] at hrejects
  exact absurd hrejects (by decide)

theorem success_passive_bothTyped : ∃ e s, ofRegistry .standard .empty = .ok e ∧
    e.compile (bothTyped .boolean .string) = .ok s ∧
    (e.validate s (.str "true")).verdict.success = true ∧
    ofRegistry Options.standard.passive .empty = .ok e.passive ∧
    e.passive.compile (bothTyped .boolean .string) = .ok s ∧
    ((e.passive.validate s (e.validate s (.str "true")).value).verdict.success = true ↔
      Settles e s.root true (.str "true") (e.validate s (.str "true")).value) := by
  rcases exists_compile_bothTyped .standard .boolean .string with ⟨l, l', l'', hs⟩
  have hsuccess := (validate_of_leaves (leaves_bothTyped l l' l'')).2
  exact ⟨_, _, ofRegistry_empty _, hs, hsuccess,
    success_passive_iff (ofRegistry_empty _) hs hsuccess⟩

/-- Validation succeeds and leaves a value that does not satisfy the schema. -/
theorem success_and_not_passive : ∃ e s w, ofRegistry .standard .empty = .ok e ∧
    e.compile (bothTyped .boolean .string) = .ok s ∧
    (e.validate s (.str "true")).verdict.success = true ∧ (e.validate s (.str "true")).value = w ∧
    ofRegistry Options.standard.passive .empty = .ok e.passive ∧
    e.passive.compile (bothTyped .boolean .string) = .ok s ∧
    (e.passive.validate s w).verdict.success = false := by
  rcases exists_compile_bothTyped .standard .boolean .string with ⟨l, l', l'', hs⟩
  rcases validate_of_leaves (leaves_bothTyped l l' l'') with ⟨hvalue, hsuccess⟩
  exact ⟨_, _, _, ofRegistry_empty _, hs, hsuccess, hvalue, ofRegistry_passive (ofRegistry_empty _),
    compile_passive hs, passive_bothTyped _ l l' l''⟩

end HttpContract.Engine
