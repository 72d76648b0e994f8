import HttpContract.Proofs.Assembling
import HttpContract.Proofs.SingleBranch
import HttpContract.Proofs.Writing

/-!
# Rendered keys and validated keys

Rendering and validation decide separately which properties of an object stay. A property that is
written can be missing from what validation leaves only if the walk comes to a plan that drops it,
or drops something around it (`written_keys_iff`). Where the schemas are unambiguous there is no
such plan: rendering then goes down along the same nodes as the walk.
-/

namespace HttpContract.Rendering

open Normalization

variable {e : Engine}

/-! ## What plans that apply keep from being dropped -/

theorem not_drops_of_admitsAny {p q : Plan Node} {key : String} (hq : Applies e (.plan p) q)
    (hadmits : q.admitsAny = true) : ¬ Drops e p key := by
  rintro ⟨_, hstrips, hbranches, _⟩
  rcases applies_plan_iff.mp hq with rfl | ⟨m, hm, hq⟩
  · simp [Plan.strips, hadmits] at hstrips
  · exact hbranches m hm ⟨q, hq, hadmits⟩

/-- A property that a shape renders is declared by a plan behind the shape, or such a plan admits
undeclared ones. -/
theorem declares_or_admits_of_renders {p : Plan Node} {shape : Shape} {key : String}
    {node? : Option Node} (hshape : Gathers (Applies e (.plan p)) Shape.empty shape)
    (h : shape.Renders key node?) : Declares e (.plan p) key ∨ Admits e (.plan p) := by
  rcases h with ⟨n, _, hn⟩ | ⟨_, hother⟩
  · rcases hshape.property hn with hn | ⟨q, hq, hn⟩
    · simp [Shape.empty] at hn
    · exact Or.inl ⟨q, hq, by simp [Plan.declaresOwn, Fields.contains, hn]⟩
  · -- a pattern declares the property, the other two cases admit undeclared ones
    unfold Shape.other? at hother
    split at hother
    · next source n hfound =>
      rcases hshape.pattern.mp (List.mem_of_find?_eq_some hfound) with hmem | ⟨q, hq, hmem⟩
      · simp [Shape.empty] at hmem
      · have hmatch : Pattern.found source key = true := by
          simpa using List.find?_some hfound
        refine Or.inl ⟨q, hq, ?_⟩
        simp only [Plan.declaresOwn, Bool.or_eq_true, List.any_eq_true]
        exact Or.inr ⟨_, hmem, hmatch⟩
    · split at hother
      · next n hadditional =>
        rcases hshape.additional hadditional with hn | ⟨q, hq, hn⟩
        · simp [Shape.empty] at hn
        · exact Or.inr ⟨q, hq, by simp [Plan.admitsAny, hn]⟩
      · split at hother
        · next hallowed =>
          rcases hshape.allowed hallowed with hn | ⟨q, hq, hn⟩
          · simp [Shape.empty] at hn
          · exact Or.inr ⟨q, hq, by simp [Plan.admitsAny, hn]⟩
        · simp at hother

/-- A property that a shape renders is not dropped by the plan the shape was collected for. -/
theorem not_drops_of_renders {p : Plan Node} {shape : Shape} {key : String} {node? : Option Node}
    (hshape : Gathers (Applies e (.plan p)) Shape.empty shape) (h : shape.Renders key node?) :
    ¬ Drops e p key := by
  rcases declares_or_admits_of_renders hshape h with hdeclares | ⟨q, hq, hadmits⟩
  · exact fun hdrops => hdrops.2.2.2 hdeclares
  · exact not_drops_of_admitsAny hq hadmits

/-- A property that is written is not dropped by the plan it was written along. -/
theorem not_drops_of_written {p : Plan Node} {v x y : Json} {key : String} {rest : List Step}
    (h : Writes e (.plan p) v x) (hy : x.part? (.key key :: rest) = some y) : ¬ Drops e p key := by
  cases h with
  | nowhere hn _ => exact absurd rfl (hn p)
  | reference hs _ => simp at hs
  | scalar _ hx =>
    cases x with
    | obj members => simp [isScalar] at hx
    | _ => simp [Json.part?_cons, Json.child?] at hy
  | silent hshape hsilent =>
    have hkeywords := ((hshape.silent hsilent).2 p .self).1
    rintro ⟨_, hstrips, _⟩
    simp [Plan.strips, hkeywords] at hstrips
  | object hshape hwritten =>
    rcases Json.part?_key_eq_some_iff.mp hy with ⟨z, hz, _⟩
    rcases written_of_get? hwritten hz with ⟨node?, u, hu, _⟩
    exact not_drops_of_renders hshape (renders_of_get? hu).2
  | list _ => simp [Json.part?_cons, Json.child?] at hy

/-! ## Unambiguous schemas -/

/-- Of the plans that apply at one place, all name the same node for a property, and the plan that
the others are branches of names the node of every item that one of them names. -/
def Unambiguous (e : Engine) (n : Node) : Prop :=
  ∀ p, Reaches e n (.plan p) →
    (∀ q q' key m m', Applies e (.plan p) q → Applies e (.plan p) q' → m ∈ memberNodes q key →
      m' ∈ memberNodes q' key → m = m') ∧
    ∀ q i, Applies e (.plan p) q → ∀ m ∈ itemNodes q i, m ∈ itemNodes p i

theorem Unambiguous.of_reaches {n m : Node} (h : Unambiguous e n) (hm : Reaches e n m) :
    Unambiguous e m :=
  fun p hp => h p (hm.trans hp)

theorem mem_memberNodes_of_get? {p : Plan Node} {key : String} {n : Node}
    (h : Fields.get? p.properties key = some n) : n ∈ memberNodes p key := by
  simp [memberNodes, h]

theorem mem_memberNodes_of_pattern {p : Plan Node} {key source : String} {n : Node}
    (hmem : (source, n) ∈ p.patterns) (hfound : Pattern.found source key = true) :
    n ∈ memberNodes p key := by
  have hmatching : n ∈ (p.matching key).map (·.2) :=
    List.mem_map.mpr ⟨(source, n), List.mem_filter.mpr ⟨hmem, hfound⟩, rfl⟩
  unfold memberNodes
  split
  · next hnil =>
    rw [(List.append_eq_nil_iff.mp hnil).2] at hmatching
    simp at hmatching
  · next nodes _ => exact List.mem_append_right _ hmatching

/-- Where neither a declaration nor a pattern settles how a property is rendered, the plans behind
the shape name the additional node for it or none. -/
theorem mem_memberNodes_iff_of_undeclared {p q : Plan Node} {shape : Shape} {key : String}
    {m : Node} (hshape : Gathers (Applies e (.plan p)) Shape.empty shape)
    (hcontains : Fields.contains shape.properties key = false)
    (hnone : shape.patterns.find? (fun e => Pattern.found e.1 key) = none)
    (hq : Applies e (.plan p) q) : m ∈ memberNodes q key ↔ q.additional = .schema m := by
  have hunnamed : Fields.get? q.properties key = none := by
    cases hget : Fields.get? q.properties key with
    | none => rfl
    | some n =>
      have hown : Fields.contains q.properties key = true := by
        rw [Fields.contains, hget]
        rfl
      have hcontains' := hshape.contains (Or.inr ⟨q, hq, hown⟩)
      simp [hcontains] at hcontains'
  have hunmatched : q.matching key = [] := by
    refine List.filter_eq_nil_iff.mpr (fun x hx => ?_)
    exact List.find?_eq_none.mp hnone x (hshape.pattern.mpr (Or.inr ⟨q, hq, hx⟩))
  rw [memberNodes, hunnamed, hunmatched]
  cases q.additional <;> simp [eq_comm]

/-- The node that a shape renders a property along is one that a plan behind the shape names. -/
theorem applies_of_renders {p : Plan Node} {shape : Shape} {key : String} {m : Node}
    (hshape : Gathers (Applies e (.plan p)) Shape.empty shape) (h : shape.Renders key (some m)) :
    ∃ q, Applies e (.plan p) q ∧ m ∈ memberNodes q key := by
  rcases h with ⟨n, heq, hn⟩ | ⟨hcontains, hother⟩
  · obtain rfl := Option.some.inj heq
    rcases hshape.property hn with hn | ⟨q, hq, hn⟩
    · simp [Shape.empty] at hn
    · exact ⟨q, hq, mem_memberNodes_of_get? hn⟩
  · -- no plan names the property itself, so patterns come first and then undeclared properties
    unfold Shape.other? at hother
    split at hother
    · next source n hfound =>
      rcases hshape.pattern.mp (List.mem_of_find?_eq_some hfound) with hmem | ⟨q, hq, hmem⟩
      · simp [Shape.empty] at hmem
      · obtain rfl := Option.some.inj (Option.some.inj hother)
        have hmatch : Pattern.found source key = true := by
          simpa using List.find?_some hfound
        exact ⟨q, hq, mem_memberNodes_of_pattern hmem hmatch⟩
    · next hnone =>
      split at hother
      · next n hadditional =>
        obtain rfl := Option.some.inj (Option.some.inj hother)
        rcases hshape.additional hadditional with hn | ⟨q, hq, hn⟩
        · simp [Shape.empty] at hn
        · exact ⟨q, hq, (mem_memberNodes_iff_of_undeclared hshape hcontains hnone hq).mpr hn⟩
      · split at hother <;> simp at hother

/-- The node that a shape renders a property along is one that a plan behind the shape names, if any
plan names one. -/
theorem exists_node_of_renders {p q' : Plan Node} {shape : Shape} {key : String}
    {node? : Option Node} {m' : Node} (hshape : Gathers (Applies e (.plan p)) Shape.empty shape)
    (h : shape.Renders key node?) (hq' : Applies e (.plan p) q') (hm' : m' ∈ memberNodes q' key) :
    ∃ m q, node? = some m ∧ Applies e (.plan p) q ∧ m ∈ memberNodes q key := by
  cases node? with
  | some m =>
    rcases applies_of_renders hshape h with ⟨q, hq, hm⟩
    exact ⟨m, q, rfl, hq, hm⟩
  | none =>
    -- the property is rendered as it is only where no plan names a node for it
    rcases h with ⟨n, hn, _⟩ | ⟨hcontains, hother⟩
    · cases hn
    · unfold Shape.other? at hother
      split at hother
      · simp at hother
      · next hnone =>
        split at hother
        · simp at hother
        · next hadditional =>
          have hsome := hshape.additional_isSome (Or.inr
            ⟨q', m', hq', (mem_memberNodes_iff_of_undeclared hshape hcontains hnone hq').mp hm'⟩)
          simp [hadditional] at hsome

/-! ## The walk along rendered values -/

theorem exists_head_of_visits {n m : Node} {strip strip' : Bool} {v u : Json} {path : List Step}
    (h : Visits e n strip v path m strip' u) : ∀ {p}, m = .plan p → ∃ q, Head e n q := by
  induction h with
  | here =>
    rintro p rfl
    exact ⟨p, .self⟩
  | reference hs _ ih =>
    intro p hm
    rcases ih hm with ⟨q, hq⟩
    exact ⟨q, .reference hs hq⟩
  | branch _ _ _ => exact fun _ => ⟨_, .self⟩
  | part _ _ _ => exact fun _ => ⟨_, .self⟩

theorem applies_of_head {n : Node} {p q : Plan Node} (h : Head e n p) (hq : Applies e n q) :
    Applies e (.plan p) q := by
  induction h with
  | self => exact hq
  | reference hs _ ih => exact ih ((applies_iff_of_resolve? hs).mp hq)

theorem reaches_of_head {n : Node} {p : Plan Node} (h : Head e n p) : Reaches e n (.plan p) := by
  induction h with
  | self => exact .here
  | reference hs _ ih => exact (Reaches.reference .here hs).trans ih

theorem writes_of_head {n : Node} {p : Plan Node} {v x : Json} (h : Head e n p)
    (hx : Writes e n v x) : Writes e (.plan p) v x := by
  induction h with
  | self => exact hx
  | reference hs _ ih =>
    cases hx with
    | nowhere _ hs' => simp [hs] at hs'
    | reference hs' hx =>
      obtain rfl := Option.some.inj (hs.symm.trans hs')
      exact ih hx
    | _ => simp at hs

/-- A plan that says nothing about objects names no node for their members. -/
theorem memberNodes_eq_nil {p : Plan Node} (hkeywords : p.hasObjectKeywords = false)
    (hadditional : p.additional = .unspecified) (key : String) : memberNodes p key = [] := by
  obtain ⟨hproperties, hpatterns⟩ : p.properties = [] ∧ p.patterns = [] := by
    simpa [Plan.hasObjectKeywords] using hkeywords
  simp [memberNodes, Plan.matching, hproperties, hpatterns, hadditional]

/-- What is written of a member is written along the node that some plan names for it. -/
theorem exists_writes_of_member {p q : Plan Node} {v x y : Json} {key : String} {path : List Step}
    {m : Node} (hamb : Unambiguous e (.plan p)) (h : Writes e (.plan p) v x)
    (hy : x.part? (.key key :: path) = some y) (hq : Applies e (.plan p) q)
    (hm : m ∈ memberNodes q key) : ∃ u z, Writes e m u z ∧ z.part? path = some y := by
  cases h with
  | nowhere hn _ => exact absurd rfl (hn p)
  | reference hs _ => simp at hs
  | scalar _ hx =>
    cases x with
    | obj members => simp [isScalar] at hx
    | _ => simp [Json.part?_cons, Json.child?] at hy
  | silent hshape hsilent =>
    rcases (hshape.silent hsilent).2 q hq with ⟨hkeywords, hadditional⟩
    simp [memberNodes_eq_nil hkeywords hadditional] at hm
  | object hshape hwritten =>
    rcases Json.part?_key_eq_some_iff.mp hy with ⟨z, hz, hrest⟩
    rcases written_of_get? hwritten hz with ⟨node?, u, hu, hwrites⟩
    -- the node that it is written along is named by some plan, hence the one in question
    rcases exists_node_of_renders hshape (renders_of_get? hu).2 hq hm with ⟨m', q', rfl, hq', hm'⟩
    obtain rfl := (hamb p .here).1 q q' key m m' hq hq' hm hm'
    rcases hwrites with ⟨hnone, _⟩ | ⟨n, hn, hwrites⟩
    · simp at hnone
    · obtain rfl := Option.some.inj hn
      exact ⟨u, z, hwrites, hrest⟩
  | list _ => simp [Json.part?_cons, Json.child?] at hy

theorem writes_of_item {p : Plan Node} {index i : Nat} {items written : List Json} {z : Json}
    {m : Node} (h : WritesItems e p index items written) (hz : written[i]? = some z)
    (hm : m ∈ itemNodes p (index + i)) : ∃ u, Writes e m u z := by
  induction items generalizing index i written with
  | nil =>
    cases h
    simp at hz
  | cons v rest ih =>
    cases i with
    | zero =>
      rw [Nat.add_zero] at hm
      cases h with
      | node hn hwrites _ =>
        obtain rfl := Option.some.inj hz
        rw [hn, List.mem_singleton] at hm
        exact ⟨v, hm ▸ hwrites⟩
      | plain hn _ =>
        rw [hn] at hm
        simp at hm
    | succ i =>
      rw [show index + (i + 1) = index + 1 + i by omega] at hm
      cases h with
      | node _ _ hrest => exact ih hrest hz hm
      | plain _ hrest => exact ih hrest hz hm

theorem exists_writes_of_item {p q : Plan Node} {v x y : Json} {i : Nat} {path : List Step}
    {m : Node} (hamb : Unambiguous e (.plan p)) (h : Writes e (.plan p) v x)
    (hy : x.part? (.index i :: path) = some y) (hq : Applies e (.plan p) q)
    (hm : m ∈ itemNodes q i) : ∃ u z, Writes e m u z ∧ z.part? path = some y := by
  cases h with
  | nowhere hn _ => exact absurd rfl (hn p)
  | reference hs _ => simp at hs
  | scalar _ hx =>
    cases x with
    | arr items => simp [isScalar] at hx
    | _ => simp [Json.part?_cons, Json.child?] at hy
  | silent _ _ => simp [Json.part?_cons, Json.child?] at hy
  | object _ _ => simp [Json.part?_cons, Json.child?] at hy
  | list hitems =>
    rcases Json.part?_index_eq_some_iff.mp hy with ⟨z, hz, hrest⟩
    have hm' : m ∈ itemNodes p (0 + i) := by
      rw [Nat.zero_add]
      exact (hamb p .here).2 q i hq m hm
    rcases writes_of_item hitems hz hm' with ⟨u, hwrites⟩
    exact ⟨u, z, hwrites, hrest⟩

theorem exists_writes_of_partEntered {p q : Plan Node} {strip : Bool} {v u v' x y : Json}
    {step : Step} {path : List Step} {n : Node} (hn : PartEntered e p strip v step n u)
    (hamb : Unambiguous e (.plan q)) (hp : Applies e (.plan q) p) (h : Writes e (.plan q) v' x)
    (hy : x.part? (step :: path) = some y) : ∃ u z, Writes e n u z ∧ z.part? path = some y := by
  cases hn with
  | member _ _ _ hn => exact exists_writes_of_member hamb h hy hp hn.mem
  | item _ _ hn => exact exists_writes_of_item hamb h hy hp hn.mem

theorem reaches_of_partEntered {p : Plan Node} {strip : Bool} {v u : Json} {step : Step} {n : Node}
    (h : PartEntered e p strip v step n u) : Reaches e (.plan p) n := by
  cases h with
  | member _ _ _ hn => exact reaches_of_mem_memberNodes hn.mem
  | item _ _ hn => exact reaches_of_mem_itemNodes hn.mem

theorem reaches_of_applies {n : Node} {q : Plan Node} (h : Applies e n q) :
    Reaches e n (.plan q) := by
  induction h with
  | self => exact .here
  | branch hm _ ih => exact (Reaches.branch .here hm).trans ih
  | reference hs _ ih => exact (Reaches.reference .here hs).trans ih

/-- Where the schemas are unambiguous, no plan that the walk comes to drops a step that is written.
The walk is at a node all of whose plans apply at the plan that is being written. -/
theorem not_drops_of_visits {n m : Node} {strip strip' : Bool} {v u : Json} {front : List Step}
    (h : Visits e n strip v front m strip' u) :
    ∀ {p q v' x y key rest}, m = .plan p → strip' = true → Unambiguous e (.plan q) →
      (∀ k, Applies e n k → Applies e (.plan q) k) → (strip = true → Head e n q) →
        Writes e (.plan q) v' x → x.part? (front ++ .key key :: rest) = some y →
          ¬ Drops e p key := by
  induction h with
  | here =>
    intro p q v' x y key rest hm hstrip _ _ hhead hx hy
    -- the plan that may drop is the one that is being written
    subst hm
    obtain rfl := head_plan_iff.mp (hhead hstrip)
    exact not_drops_of_written hx hy
  | reference hs _ ih =>
    intro p q v' x y key rest hm hstrip hamb happlies hhead hx hy
    exact ih hm hstrip hamb (fun k hk => happlies k (.reference hs hk))
      (fun htrue => (head_iff_of_resolve? hs).mp (hhead htrue)) hx hy
  | branch hn _ ih =>
    intro p q v' x y key rest hm hstrip hamb happlies _ hx hy
    -- a branch drops nothing at its own place, only below
    exact ih hm hstrip hamb (fun k hk => happlies k (.branch hn.mem hk)) (by simp) hx hy
  | part hn hvisits ih =>
    intro p q v' x y key rest hm hstrip hamb happlies _ hx hy
    rcases exists_head_of_visits hvisits hm with ⟨k, hk⟩
    have hp : Applies e (.plan q) _ := happlies _ .self
    -- rendering goes down along the same node, and comes to the same plan there
    rcases exists_writes_of_partEntered hn hamb hp hx hy with ⟨u, z, hz, hrest⟩
    have hdown : Reaches e (.plan q) _ := (reaches_of_applies hp).trans (reaches_of_partEntered hn)
    have hreaches : Reaches e (.plan q) (.plan k) := hdown.trans (reaches_of_head hk)
    exact ih hm hstrip (hamb.of_reaches hreaches) (fun _ => applies_of_head hk) (fun _ => hk)
      (writes_of_head hk hz) hrest

/-- Where the schemas are unambiguous, the walk drops nothing on the way to what is written. -/
theorem undropped_of_writes {n : Node} {v v' x y : Json} {strip : Bool} {path : List Step}
    (hamb : Unambiguous e n) (hx : Writes e n v x) (hy : x.part? path = some y) :
    Undropped e n strip v' path := by
  rintro front key rest p u rfl hvisits
  rcases exists_head_of_visits hvisits rfl with ⟨q, hq⟩
  exact not_drops_of_visits hvisits rfl rfl (hamb.of_reaches (reaches_of_head hq))
    (fun _ => applies_of_head hq) (fun _ => hq) (writes_of_head hq hx) hy

/-! ## Keys -/

/-- At every place where both values have an object, the keys of the first are keys of the
second. -/
def KeysWithin (x w : Json) : Prop :=
  ∀ path members members', x.part? path = some (.obj members) →
    w.part? path = some (.obj members') → ∀ key, Fields.contains members key = true →
      Fields.contains members' key = true

/-- The keys of `x` that a walk along `n` over `v` drops on the way are keys of `w` all the same. -/
def Refilled (e : Engine) (n : Node) (v x w : Json) : Prop :=
  ∀ path members members', x.part? path = some (.obj members) →
    w.part? path = some (.obj members') → ∀ key, Fields.contains members key = true →
      ¬ Undropped e n true v (path ++ [.key key]) → Fields.contains members' key = true

theorem part?_of_contains {x : Json} {path : List Step} {members : Fields Json} {key : String}
    (hx : x.part? path = some (.obj members)) (hkey : Fields.contains members key = true) :
    ∃ y, x.part? (path ++ [.key key]) = some y := by
  rcases Option.isSome_iff_exists.mp hkey with ⟨y, hy⟩
  exact ⟨y, by rw [Json.part?_append, hx]; exact Json.part?_key_eq_some_iff.mpr ⟨y, hy, by simp⟩⟩

theorem contains_of_part? {w z : Json} {path : List Step} {members : Fields Json} {key : String}
    (hw : w.part? path = some (.obj members)) (hz : w.part? (path ++ [.key key]) = some z) :
    Fields.contains members key = true := by
  rw [Json.part?_append, hw] at hz
  rcases Json.part?_key_eq_some_iff.mp hz with ⟨y, hy, _⟩
  exact Option.isSome_iff_exists.mpr ⟨y, hy⟩

/-- A written key that the walk does not drop on the way is there after the walk. -/
theorem contains_of_undropped {n : Node} {strip clean : Bool} {v w x : Json} {path : List Step}
    {members members' : Fields Json} {key : String} (hx : Writes e n v x)
    (hw : Turns e n strip v w clean) (hmembers : x.part? path = some (.obj members))
    (hmembers' : w.part? path = some (.obj members')) (hkey : Fields.contains members key = true)
    (hpath : Undropped e n strip v (path ++ [.key key])) : Fields.contains members' key = true := by
  rcases part?_of_contains hmembers hkey with ⟨y, hy⟩
  -- what is written is there in the value, and what is there is kept by the walk
  have hkeeps : Keeps x w (path ++ [.key key]) :=
    (keeps_of_writes hx _).trans (part_of_turns hw hpath)
  rcases hkeeps y hy with ⟨z, hz, _⟩
  exact contains_of_part? hmembers' hz

end HttpContract.Rendering

namespace HttpContract.Engine

open Normalization Rendering

variable {o : Options} {r : Registry} {e : Engine} {f : Fragment} {s : CompiledSchema} {v x : Json}

theorem exists_write_of_render (h : e.render s v = .ok x) :
    ∃ fuel, write e fuel s.root "" v = some (.ok x) := by
  unfold render at h
  split at h
  · next outcome hfirst =>
    rcases firstOutcome_eq_some hfirst with ⟨fuel, hwrite⟩
    exact ⟨fuel, by rw [hwrite, h]⟩
  · simp at h

theorem writes_of_render (h : e.render s v = .ok x) : Writes e s.root v x := by
  rcases exists_write_of_render h with ⟨fuel, hwrite⟩
  exact sound_write fuel s.root "" v x hwrite

theorem render_of_write {outcome : Except RenderError Json}
    (h : write e (e.budget s v) s.root "" v = some outcome) : e.render s v = outcome := by
  have hfirst : firstOutcome (fun fuel => write e fuel s.root "" v) (e.budget s v) = some outcome :=
    firstOutcome_of_eq_some h
  unfold render
  rw [hfirst]

/-- A text is that of the document which is rendered. -/
theorem exists_render {text : String} (h : e.stringify s v = .ok text) :
    ∃ x, e.render s v = .ok x ∧ text = x.render := by
  rw [stringify_eq] at h
  cases hx : e.render s v with
  | error err => simp [hx, Except.map] at h
  | ok x =>
    refine ⟨x, rfl, ?_⟩
    simpa [hx, Except.map] using h.symm

/-- For every value that has a text and whose validation ends: the keys of the text are among those
that validation leaves exactly when each key that the walk drops on the way is filled in again; and
they are among them wherever the schemas are unambiguous. -/
theorem written_keys_iff {text : String} (htext : e.stringify s v = .ok text)
    (hends : Ends e s v) : ∃ x, e.render s v = .ok x ∧ text = x.render ∧
      (KeysWithin x (e.validate s v).value ↔ Refilled e s.root v x (e.validate s v).value) ∧
      (Unambiguous e s.root → KeysWithin x (e.validate s v).value) := by
  rcases exists_render htext with ⟨x, hx, htext⟩
  have hwrites := writes_of_render hx
  rcases leaves_validate hends with ⟨inner, hturns, -⟩
  refine ⟨x, hx, htext, ⟨?_, ?_⟩, ?_⟩
  · intro h path members members' hmembers hmembers' key hkey _
    exact h path members members' hmembers hmembers' key hkey
  · intro h path members members' hmembers hmembers' key hkey
    by_cases hpath : Undropped e s.root true v (path ++ [.key key])
    · exact contains_of_undropped hwrites hturns hmembers hmembers' hkey hpath
    · exact h path members members' hmembers hmembers' key hkey hpath
  · intro hamb path members members' hmembers hmembers' key hkey
    rcases part?_of_contains hmembers hkey with ⟨y, hy⟩
    exact contains_of_undropped hwrites hturns hmembers hmembers' hkey
      (undropped_of_writes hamb hwrites hy)

/-! ## A key that is written and not left -/

/-- A schema for the items of a list, as a branch of `allOf`. -/
def itemsDeclaring (name : String) : Fragment :=
  .ofMembers [("allOf", .arr [.obj [("items", (declaring name).document)]])]

/-- A list of one object. -/
def oneItem : Json := .arr [twoMembers]

/-- Under `allOf` the walk goes down into the items, and rendering does not. -/
theorem itemsDeclaring_facts : ∃ s, (ofOptions .standard).compile (itemsDeclaring "a") = .ok s ∧
    (ofOptions .standard).render s oneItem = .ok oneItem ∧ Ends (ofOptions .standard) s oneItem ∧
    ((ofOptions .standard).validate s oneItem).value = .arr [.obj [("a", .ofNat 1)]] := by
  obtain ⟨_, hs⟩ := compile_of_basic .standard (itemsDeclaring "a") rfl rfl
    (.single (.branch (.single (.items (basic_declaring "a")))))
  refine ⟨_, hs, render_of_write rfl, ?_, ?_⟩
  · exact ends_of_walk 5 ⟨.arr [.obj [("a", .ofNat 1)]], []⟩ rfl
  · exact value_of_walk 5 ⟨.arr [.obj [("a", .ofNat 1)]], []⟩ rfl

theorem written_keys_itemsDeclaring : ∃ e s x, ofRegistry .standard .empty = .ok e ∧
    e.compile (itemsDeclaring "a") = .ok s ∧ e.stringify s oneItem = .ok x.render ∧
    (KeysWithin x (e.validate s oneItem).value ↔
      Refilled e s.root oneItem x (e.validate s oneItem).value) ∧
    (Unambiguous e s.root → KeysWithin x (e.validate s oneItem).value) := by
  rcases itemsDeclaring_facts with ⟨s, hs, hrender, hends, -⟩
  have htext : (ofOptions .standard).stringify s oneItem = .ok oneItem.render := by
    rw [stringify_eq, hrender]
    rfl
  rcases written_keys_iff htext hends with ⟨x, hx, -, hkeys⟩
  obtain rfl : oneItem = x := Except.ok.inj (hrender.symm.trans hx)
  exact ⟨_, s, oneItem, ofRegistry_empty _, hs, htext, hkeys⟩

/-- A text has a key of an item that validation drops. -/
theorem not_keysWithin_itemsDeclaring : ∃ e s x, ofRegistry .standard .empty = .ok e ∧
    e.compile (itemsDeclaring "a") = .ok s ∧ e.render s oneItem = .ok x ∧
    e.stringify s oneItem = .ok x.render ∧ Ends e s oneItem ∧
    ¬ KeysWithin x (e.validate s oneItem).value := by
  rcases itemsDeclaring_facts with ⟨s, hs, hrender, hends, hvalue⟩
  refine ⟨_, s, oneItem, ofRegistry_empty _, hs, hrender, ?_, hends, ?_⟩
  · rw [stringify_eq, hrender]
    rfl
  · intro hkeys
    rw [hvalue] at hkeys
    have hb := hkeys [.index 0] [("a", .ofNat 1), ("b", .ofNat 2)] [("a", .ofNat 1)] rfl rfl "b"
      (by decide)
    exact absurd hb (by decide)

end HttpContract.Engine
