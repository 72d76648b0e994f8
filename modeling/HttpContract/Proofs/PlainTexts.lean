import HttpContract.Proofs.Correspondence
import HttpContract.Proofs.Positions
import HttpContract.Proofs.References
import HttpContract.Proofs.RenderedKeys
import HttpContract.Proofs.Sorted

/-!
# Texts by plain schemas

Schemas are plain where they use no branches, no patterns and no defaults, and demand or forbid
properties only beside some that they declare. Rendering then takes the same decisions as the walk:
what is written is, up to the order of members, what validation leaves
(`Engine.sorted_eq_value_of_stringify`).
-/

namespace HttpContract

open Normalization Rendering

/-! ## Plain plans -/

/-- Objects are among the values of the declared types. -/
def Plan.DescribesObjects (p : Plan Node) : Prop := p.types = [] ∨ .object ∈ p.types

/-- The plan has no branches and no patterns, fills nothing in, and demands or forbids properties of
objects only beside some that it declares. -/
structure Plan.Plain (p : Plan Node) : Prop where
  allOf : p.allOf = []
  patterns : p.patterns = []
  filling : ∀ name n, (name, n) ∈ p.properties → n.filling = none
  declares : p.DescribesObjects → p.required ≠ [] ∨ p.additional = .forbidden → p.properties ≠ []

namespace Plan.Plain

variable {p : Plan Node} {e : Engine}

theorem withDefaults_eq (hp : p.Plain) (members : Fields Json) :
    withDefaults p.properties members = members := by
  have hfilling := hp.filling
  rw [Corresponds.withDefaults_eq]
  generalize p.properties = xs at hfilling
  induction xs with
  | nil => rfl
  | cons x rest ih =>
    rw [List.foldl_cons, hfilling x.1 x.2 List.mem_cons_self]
    exact ih (fun name n hn => hfilling name n (List.mem_cons_of_mem _ hn))

/-- The properties that the walk keeps. -/
def keeps (p : Plan Node) (key : String) : Bool := !p.strips || p.declaresOwn key

theorem prepared_eq (hp : p.Plain) (ho : e.options.removeAdditional = true) (fuel : Nat)
    (members : Fields Json) : prepared e fuel p true members =
      some (members.filter (fun m => keeps p m.1)) := by
  have hfilled : filled e p members = members := by
    unfold filled
    split
    · exact hp.withDefaults_eq members
    · rfl
  rw [prepared_of_unbranched ho hp.allOf, hfilled]
  rfl

theorem matching_eq (hp : p.Plain) (key : String) : p.matching key = [] := by
  simp [Plan.matching, hp.patterns]

theorem declaresOwn_eq (hp : p.Plain) (key : String) :
    p.declaresOwn key = Fields.contains p.properties key := by
  simp [Plan.declaresOwn, hp.patterns]

theorem collect_eq (hp : p.Plain) (fuel : Nat) :
    collect e (fuel + 1) (.plan p) Shape.empty = some (Shape.empty.add p) := by
  rw [collect, hp.allOf]
  rfl

/-- How a member is rendered: along its node, as it is, or not at all. -/
def rendered (p : Plan Node) (key : String) : Option (Option Node) :=
  match Fields.get? p.properties key with
  | some n => some (some n)
  | none =>
    match p.additional with
    | .schema n => some (some n)
    | .allowed => some none
    | _ => none

theorem get?_members (hp : p.Plain) (members : Fields Json) (key : String) :
    Fields.get? ((Shape.empty.add p).declaredMembers members ++
        (Shape.empty.add p).otherMembers members) key =
      (rendered p key).bind (fun n? => (Fields.get? members key).map (fun v => (n?, v))) := by
  have hproperties : Fields.get? (Shape.empty.add p).properties key =
      Fields.get? p.properties key := by
    show Fields.get? (p.properties.foldl Shape.declare []) key = _
    rw [get?_declare]
    simp
  have hother : (Shape.empty.add p).other? key =
      match p.additional with
      | .schema n => some (some n)
      | .allowed => some none
      | _ => none := by
    unfold Shape.other? Shape.add
    rw [hp.patterns]
    cases p.additional <;> rfl
  rw [Fields.get?_append, get?_declaredMembers, get?_otherMembers, hproperties, hother,
    Fields.contains, hproperties]
  unfold rendered
  cases Fields.get? p.properties key with
  | some n => cases Fields.get? members key <;> simp
  | none => cases p.additional <;> cases Fields.get? members key <;> simp

end Plan.Plain

/-! ## Keys of rendered members -/

theorem keys_filterMap_sublist {α β : Type} {f : String × α → Option (String × β)}
    (hkey : ∀ m b, f m = some b → b.1 = m.1) (m : Fields α) :
    (Fields.keys (m.filterMap f)).Sublist (Fields.keys m) := by
  induction m with
  | nil => exact .slnil
  | cons x rest ih =>
    rw [List.filterMap_cons]
    cases hx : f x with
    | none => exact ih.cons x.1
    | some b =>
      unfold Fields.keys at ih ⊢
      rw [List.map_cons, List.map_cons, hkey x b hx]
      exact ih.cons_cons x.1

theorem ordered_declareAll (added : List (String × Node)) {known : Fields Node}
    (h : Fields.Ordered known) : Fields.Ordered (added.foldl Shape.declare known) := by
  induction added generalizing known with
  | nil => exact h
  | cons x rest ih =>
    refine ih ?_
    unfold Shape.declare
    split
    · exact h
    · exact Fields.ordered_insert h x.1 x.2

/-- No member of an ordered object is rendered twice. -/
theorem nodup_keys_members {s : Shape} (hs : Fields.Ordered s.properties) {members : Fields Json}
    (h : Fields.Ordered members) :
    (Fields.keys (s.declaredMembers members ++ s.otherMembers members)).Nodup := by
  have hdeclared : (Fields.keys (s.declaredMembers members)).Sublist
      (Fields.keys s.properties) := by
    refine keys_filterMap_sublist (fun m b hb => ?_) _
    rcases Option.map_eq_some_iff.mp hb with ⟨v, -, rfl⟩
    rfl
  have hother : (Fields.keys (s.otherMembers members)).Sublist (Fields.keys members) := by
    refine keys_filterMap_sublist (fun m b hb => ?_) _
    dsimp only at hb
    split at hb
    · cases hb
    · rcases Option.map_eq_some_iff.mp hb with ⟨n, -, rfl⟩
      rfl
  rw [Fields.keys, List.map_append, List.nodup_append]
  refine ⟨(Fields.nodup_keys_of_ordered hs).sublist hdeclared,
    (Fields.nodup_keys_of_ordered h).sublist hother, ?_⟩
  -- other members are those that are not declared
  rintro key hkey _ hkey' rfl
  have hcontains : Fields.contains s.properties key = true :=
    (Fields.contains_iff_mem_keys _ _).mpr (hdeclared.subset hkey)
  have hsome : (Fields.get? (s.otherMembers members) key).isSome = true :=
    (Fields.contains_iff_mem_keys _ _).mpr hkey'
  rw [get?_otherMembers, if_pos hcontains] at hsome
  cases hsome

/-! ## The walk along what is written -/

/-- A rendering that writes, up to the order of members, what the walk leaves. -/
def Traces (e : Engine) (n : Node) (write : String → Json → Outcome Json) : Prop :=
  ∀ path v x, v.Ordered → write path v = some (.ok x) → ∃ clean, Turns e n true v x.sorted clean

variable {e : Engine} {p : Plan Node} {write₀ : Node → String → Json → Outcome Json}

theorem coerced_of_coerceAny? (ho : e.options.coerceTypes = true) {types : List JsonType}
    {v u : Json} (h : (if types.isEmpty then some v else coerceAny? v types) = some u) :
    coerced e.options types v = u := by
  unfold coerced
  split at h
  · next hempty => simpa [hempty] using h
  · next hempty =>
    unfold coerceAny? at h
    split at h
    · next hadmitted => simpa [hadmitted] using h
    · next hadmitted =>
      simp [ho, hempty, hadmitted, coerceAny?, h]

theorem forall₂_of_sequence {α β : Type} {write : α → Outcome β} : ∀ {xs : List α} {ys : List β},
    sequence write xs = some (.ok ys) → List.Forall₂ (fun x y => write x = some (.ok y)) xs ys
  | [], ys, h => by
    obtain rfl : [] = ys := by simpa [Rendering.sequence] using h
    exact .nil
  | x :: rest, ys, h => by
    rcases sequence_cons_eq_ok h with ⟨y, others, hy, hothers, rfl⟩
    exact .cons hy (forall₂_of_sequence hothers)

/-- What is written under a key: the value itself, or what its node writes of it. -/
def WrittenAs (write₀ : Node → String → Json → Outcome Json) (path key : String)
    (m : Option Node × Json) (y : Json) : Prop :=
  m.1 = none ∧ y = m.2 ∨
    ∃ n, m.1 = some n ∧ write₀ n (Json.Pointer.child path key) m.2 = some (.ok y)

theorem forall₂_of_members {path : String} {members : Fields (Option Node × Json)}
    {written : Fields Json} (h : sequence (member write₀ path) members = some (.ok written)) :
    List.Forall₂ (fun m y => m.1 = y.1 ∧ WrittenAs write₀ path m.1 m.2 y.2) members written := by
  refine (forall₂_of_sequence h).imp (fun m y hm => ?_)
  rcases m with ⟨key, node?, v⟩
  cases node? with
  | none =>
    obtain rfl : (key, v) = y := by simpa [member] using hm
    exact ⟨rfl, Or.inl ⟨rfl, rfl⟩⟩
  | some n =>
    rcases exists_of_map hm with ⟨x, hx, rfl⟩
    exact ⟨rfl, Or.inr ⟨n, rfl, hx⟩⟩

theorem members_map {f : String → Json → Json} : ∀ {members : Fields Json},
    (∀ m ∈ members, ∃ clean, Runs e true (memberNodes p m.1) m.2 (f m.1 m.2) clean) →
      ∃ clean, Members e p members (members.map (fun m => (m.1, f m.1 m.2))) clean
  | [], _ => ⟨true, .nil⟩
  | (key, v) :: rest, h => by
    rcases h (key, v) List.mem_cons_self with ⟨first, hruns⟩
    rcases members_map (fun m hm => h m (List.mem_cons_of_mem _ hm)) with ⟨others, hrest⟩
    exact ⟨_, .cons hruns hrest⟩

theorem memberNodes_eq (hp : p.Plain) (key : String) :
    memberNodes p key = ((Plan.Plain.rendered p key).bind id).toList := by
  unfold memberNodes Plan.Plain.rendered
  rw [hp.matching_eq]
  cases Fields.get? p.properties key with
  | some n => rfl
  | none => cases p.additional <;> rfl

/-- Objects are never the result of a conversion. -/
theorem describesObjects_of_coerceAny? {v : Json} {members : Fields Json}
    (h : (if p.types.isEmpty then some v else coerceAny? v p.types) = some (.obj members)) :
    p.DescribesObjects := by
  split at h
  · next hempty => exact Or.inl (List.isEmpty_iff.mp hempty)
  · right
    -- what is converted becomes a scalar, so the object was admitted as it is
    unfold coerceAny? at h
    split at h
    · next hadmitted =>
      obtain rfl := Option.some.inj h
      rcases List.any_eq_true.mp hadmitted with ⟨t, ht, hadmits⟩
      cases t <;> simp_all [JsonType.admits]
    · rcases List.exists_of_findSome?_eq_some h with ⟨t, ht, hcoerce⟩
      unfold coerce? at hcoerce
      split at hcoerce
      · next hnone hadmits =>
        exact absurd (List.any_eq_true.mpr ⟨t, ht, hadmits⟩) hnone
      · exact absurd (isScalar_of_convert? hcoerce) (by simp [isScalar])

/-- A plain plan that says anything keeps the properties of objects that it renders. -/
theorem keeps_eq (hp : p.Plain) (hobjects : p.DescribesObjects) (hspeaks : Shape.speaks p = true)
    (key : String) : Plan.Plain.keeps p key = (Plan.Plain.rendered p key).isSome := by
  have hdeclares := hp.declares hobjects
  unfold Plan.Plain.keeps Plan.Plain.rendered
  rw [hp.declaresOwn_eq, Fields.contains]
  unfold Shape.speaks Plan.hasObjectKeywords at hspeaks
  unfold Plan.strips Plan.hasObjectKeywords Plan.admitsAny
  rw [hp.patterns] at hspeaks ⊢
  cases hget : Fields.get? p.properties key with
  | some n => simp
  | none =>
    cases hadditional : p.additional with
    | allowed => simp
    | schema n => simp
    | forbidden =>
      have hne := hdeclares (Or.inr hadditional)
      simp [hne]
    | unspecified =>
      have hne : p.properties ≠ [] := by
        intro hnil
        refine hdeclares (Or.inl ?_) hnil
        rintro hrequired
        simp [hnil, hrequired, hadditional] at hspeaks
      simp [hne]

theorem get?_written (hp : p.Plain) {path : String} {members written : Fields Json}
    (h : sequence (member write₀ path) ((Shape.empty.add p).declaredMembers members ++
      (Shape.empty.add p).otherMembers members) = some (.ok written)) (key : String) :
    Option.Rel (WrittenAs write₀ path key)
      ((Plan.Plain.rendered p key).bind
        (fun n? => (Fields.get? members key).map (fun v => (n?, v))))
      (Fields.get? written key) := by
  rw [← hp.get?_members]
  exact rel_get?_of_name key (forall₂_of_members h)

/-- Members are written under their own keys. -/
theorem keys_written {path : String} {members : Fields (Option Node × Json)} {written : Fields Json}
    (h : sequence (member write₀ path) members = some (.ok written)) :
    Fields.keys written = Fields.keys members := by
  unfold Fields.keys
  rw [← List.forall₂_eq_eq_eq, List.forall₂_map_left_iff, List.forall₂_map_right_iff]
  exact ((forall₂_of_members h).imp (fun _ _ hab => hab.1.symm)).flip

/-- What is written of a member is what the walk leaves of it. -/
theorem runs_of_written (hp : p.Plain)
    (hwrite : ∀ key, ∀ n ∈ memberNodes p key, Traces e n (write₀ n)) {path key : String}
    {n? : Option Node} {v y : Json} (hn? : Plan.Plain.rendered p key = some n?)
    (hv : v.Ordered) (h : WrittenAs write₀ path key (n?, v) y) :
    ∃ clean, Runs e true (memberNodes p key) v y.sorted clean := by
  have hnodes := memberNodes_eq hp key
  rw [hn?] at hnodes
  rcases h with ⟨hnone, hy⟩ | ⟨n, hn, hy⟩
  · dsimp only at hnone hy
    subst hnone hy
    rw [hnodes, Json.sorted_of_ordered _ hv]
    exact ⟨true, .nil⟩
  · dsimp only at hn hy
    subst hn
    have hmem : n ∈ memberNodes p key := by
      rw [hnodes]
      exact List.mem_singleton.mpr rfl
    rcases hwrite key n hmem _ v _ hv hy with ⟨clean, hturns⟩
    rw [hnodes]
    exact ⟨_, .cons hturns .nil⟩

/-- The members that a plain plan writes are those that the walk leaves. -/
theorem members_of_written (hp : p.Plain) (hobjects : p.DescribesObjects)
    (hspeaks : Shape.speaks p = true)
    (hwrite : ∀ key, ∀ n ∈ memberNodes p key, Traces e n (write₀ n)) {path : String}
    {members written : Fields Json} (hordered : (Json.obj members).Ordered)
    (h : sequence (member write₀ path) ((Shape.empty.add p).declaredMembers members ++
      (Shape.empty.add p).otherMembers members) = some (.ok written)) :
    ∃ clean, Members e p (members.filter (fun m => Plan.Plain.keeps p m.1))
      (Fields.ofList (Json.sortedMembers written)) clean := by
  let left : String → Json → Json :=
    fun key v => ((Fields.get? written key).map Json.sorted).getD v
  -- the members that are kept, each with what is written under its key
  have heq : Fields.ofList (Json.sortedMembers written) =
      (members.filter (fun m => Plan.Plain.keeps p m.1)).map (fun m => (m.1, left m.1 m.2)) := by
    refine Fields.eq_of_get? (Fields.ordered_ofList _)
      (Fields.ordered_map left (List.Pairwise.filter _ hordered.1)) (fun key => ?_)
    have hnodup : (Fields.keys (written.map (fun m => (m.1, m.2.sorted)))).Nodup := by
      rw [Fields.keys_map (fun _ => Json.sorted)]
      rw [keys_written h]
      exact nodup_keys_members (ordered_declareAll p.properties List.Pairwise.nil) hordered.1
    rw [Json.sortedMembers_eq, Fields.get?_ofList hnodup, Fields.get?_map (fun _ => Json.sorted),
      Fields.get?_map left, Fields.get?_filter_keys, keeps_eq hp hobjects hspeaks]
    have hrel := get?_written hp h key
    dsimp only [left]
    generalize Plan.Plain.rendered p key = n? at hrel ⊢
    generalize Fields.get? members key = v? at hrel ⊢
    generalize Fields.get? written key = y? at hrel ⊢
    cases n? with
    | none =>
      cases hrel
      rfl
    | some n =>
      cases v? with
      | none =>
        cases hrel
        rfl
      | some v =>
        cases hrel
        rfl
  rw [heq]
  refine members_map (fun m hm => ?_)
  rcases List.mem_filter.mp hm with ⟨hm, hkeep⟩
  rw [keeps_eq hp hobjects hspeaks] at hkeep
  rcases Option.isSome_iff_exists.mp hkeep with ⟨n?, hn?⟩
  have hrel := get?_written hp h m.1
  rw [hn?, Fields.get?_of_mem hordered.1 hm] at hrel
  dsimp only [left]
  generalize Fields.get? written m.1 = y? at hrel ⊢
  cases hrel with
  | some hy => exact runs_of_written hp hwrite hn? (Json.ordered_of_mem hordered.2 hm) hy

/-! ## Items -/

theorem items_of_written (hwrite : ∀ i, ∀ n ∈ itemNodes p i, Traces e n (write₀ n))
    (path : String) : ∀ (items : List Json) (index : Nat) (written : List Json),
      Json.OrderedItems items → sequence (item write₀ p path)
        ((List.range' index items.length).zip items) = some (.ok written) →
          ∃ clean, Items e p index items (Json.sortedItems written) clean := by
  intro items
  induction items with
  | nil =>
    intro index written _ h
    obtain rfl : [] = written := by simpa [Rendering.sequence] using h
    exact ⟨true, .nil⟩
  | cons v rest ih =>
    intro index written hordered h
    rw [List.length_cons, List.range'_succ, List.zip_cons_cons] at h
    rcases sequence_cons_eq_ok h with ⟨y, others, hy, hothers, rfl⟩
    rcases ih (index + 1) others hordered.2 hothers with ⟨clean', hrest⟩
    have hnodes := itemNodes_eq p index
    have hruns : ∃ clean, Runs e true (itemNodes p index) v y.sorted clean := by
      unfold item at hy
      split at hy
      · next n hn =>
        dsimp only at hn
        rw [hn] at hnodes
        have hmem : n ∈ itemNodes p index := by
          rw [hnodes]
          exact List.mem_singleton.mpr rfl
        rcases hwrite index n hmem _ v y hordered.1 hy with ⟨clean, hturns⟩
        rw [hnodes]
        exact ⟨_, .cons hturns .nil⟩
      · next hn =>
        dsimp only at hn
        obtain rfl : v = y := by simpa using hy
        rw [hn] at hnodes
        rw [hnodes, Json.sorted_of_ordered v hordered.1]
        exact ⟨true, .nil⟩
    rcases hruns with ⟨clean, hruns⟩
    exact ⟨_, .cons hruns hrest⟩

theorem items_refl (hn : ∀ i, itemNodes p i = []) : ∀ (items : List Json) (index : Nat),
    Items e p index items items true
  | [], _ => .nil
  | v :: rest, index => by
    have hruns : Runs e true (itemNodes p index) v v true := by
      rw [hn]
      exact .nil
    exact .cons hruns (items_refl hn rest (index + 1))

theorem members_refl (hn : ∀ key, memberNodes p key = []) (members : Fields Json) :
    Members e p members members true := by
  induction members with
  | nil => exact .nil
  | cons m rest ih =>
    have hruns : Runs e true (memberNodes p m.1) m.2 m.2 true := by
      rw [hn]
      exact .nil
    exact .cons hruns ih

/-! ## Plain schemas -/

theorem sorted_of_isScalar {v : Json} (h : isScalar v = true) : v.sorted = v := by
  cases v with
  | obj members => cases h
  | arr items => cases h
  | _ => rfl

/-- The walk along a plain plan that has nothing to say about objects leaves them alone. -/
theorem turns_of_silent (hp : p.Plain) (hremove : e.options.removeAdditional = true)
    (hsilent : Shape.speaks p = false) (members : Fields Json) :
    Turns e (.plan p) true (.obj members) (.obj members) true := by
  obtain ⟨hproperties, hadditional⟩ : p.properties = [] ∧ p.additional = .unspecified := by
    unfold Shape.speaks Plan.hasObjectKeywords at hsilent
    cases hadditional : p.additional <;> simp_all
  have hnodes : ∀ key, memberNodes p key = [] := by
    intro key
    rw [memberNodes_eq hp]
    simp [Plan.Plain.rendered, hproperties, hadditional]
  have hkept : members.filter (fun m => Plan.Plain.keeps p m.1) = members := by
    refine List.filter_eq_self.mpr (fun m _ => ?_)
    simp [Plan.Plain.keeps, Plan.strips, Plan.hasObjectKeywords, hproperties, hp.patterns]
  have hbranches : Runs e false p.allOf (coerced e.options p.types (.obj members)) (.obj members)
      true := by
    rw [hp.allOf, coerced_obj]
    exact .nil
  refine .plan hbranches (.object ⟨0, ?_⟩ (members_refl hnodes members))
  rw [hp.prepared_eq hremove, hkept]

theorem turns_of_write_plan (hcoerce : e.options.coerceTypes = true)
    (hremove : e.options.removeAdditional = true) (hp : p.Plain) {fuel : Nat}
    (hmembers : ∀ key, ∀ n ∈ memberNodes p key, Traces e n (write e fuel n))
    (hitems : ∀ i, ∀ n ∈ itemNodes p i, Traces e n (write e fuel n)) :
    Traces e (.plan p) (write e (fuel + 1) (.plan p)) := by
  intro path v x hv h
  have hruns : ∀ {u}, (if p.types.isEmpty then some v else coerceAny? v p.types) = some u →
      Runs e false p.allOf (coerced e.options p.types v) u true := by
    intro u hu
    rw [hp.allOf, coerced_of_coerceAny? hcoerce hu]
    exact .nil
  -- only scalars are converted
  have hsame : ∀ {u}, (if p.types.isEmpty then some v else coerceAny? v p.types) = some u →
      isScalar u = false → u = v := by
    intro u hu hscalar
    split at hu
    · exact (Option.some.inj hu).symm
    · rcases eq_or_isScalar_of_coerceAny? hu with heq | ⟨_, hu⟩
      · exact heq
      · rw [hu] at hscalar
        cases hscalar
  simp only [write] at h
  split at h
  · simp at h
  · next members hu =>
    obtain rfl := hsame hu rfl
    rw [hp.collect_eq] at h
    dsimp only at h
    split at h
    · next hspeaks =>
      have hspeaks : Shape.speaks p = true := by simpa [Shape.add, Shape.empty] using hspeaks
      unfold object at h
      split at h
      · simp at h
      · rcases exists_of_map h with ⟨written, hwritten, rfl⟩
        have hobjects := describesObjects_of_coerceAny? hu
        rcases members_of_written hp hobjects hspeaks hmembers hv hwritten with ⟨clean, hwalk⟩
        rw [Json.sorted]
        exact ⟨_, .plan (hruns hu) (.object ⟨0, hp.prepared_eq hremove 0 members⟩ hwalk)⟩
    · next hspeaks =>
      have hsilent : Shape.speaks p = false := by simpa [Shape.add, Shape.empty] using hspeaks
      obtain rfl : Json.obj members = x := by simpa using h
      rw [Json.sorted_of_ordered _ hv]
      exact ⟨_, turns_of_silent hp hremove hsilent members⟩
  · next items hu =>
    obtain rfl := hsame hu rfl
    split at h
    · next hnone =>
      obtain rfl : Json.arr items = x := by simpa using h
      rcases hnone with ⟨hleading, hitems⟩
      have hnodes : ∀ i, itemNodes p i = [] := by
        intro i
        rw [itemNodes_eq, List.isEmpty_iff.mp hleading, Option.isNone_iff_eq_none.mp hitems]
        rfl
      rw [Json.sorted_of_ordered _ hv]
      exact ⟨_, .plan (hruns hu) (.list (items_refl hnodes items 0))⟩
    · rcases exists_of_map h with ⟨written, hwritten, rfl⟩
      rw [List.range_eq_range'] at hwritten
      rcases items_of_written hitems path items 0 written hv hwritten with ⟨clean, hwalk⟩
      rw [Json.sorted]
      exact ⟨_, .plan (hruns hu) (.list hwalk)⟩
  · next u hobj harr hu =>
    obtain rfl : u = x := by simpa using h
    have hscalar : isScalar u = true := by
      cases u with
      | obj members => exact absurd rfl (hobj members)
      | arr items => exact absurd rfl (harr items)
      | _ => rfl
    rw [sorted_of_isScalar hscalar]
    exact ⟨_, .plan (hruns hu) (.scalar hscalar)⟩

/-- What is written along a node is what the walk leaves, where all plans that can be reached are
plain. -/
theorem traces_of_plain (hcoerce : e.options.coerceTypes = true)
    (hremove : e.options.removeAdditional = true) : ∀ (fuel : Nat) (n : Node),
      (∀ p, Reaches e n (.plan p) → p.Plain) → Traces e n (write e fuel n) := by
  intro fuel
  induction fuel with
  | zero =>
    intro n _ path v x _ h
    simp [write] at h
  | succ fuel ih =>
    intro n hplain
    by_cases hn : ∃ p, n = .plan p
    · rcases hn with ⟨p, rfl⟩
      refine turns_of_write_plan hcoerce hremove (hplain p .here) ?_ ?_
      · exact fun key m hm =>
          ih m (fun q hq => hplain q ((reaches_of_mem_memberNodes hm).trans hq))
      · exact fun i m hm => ih m (fun q hq => hplain q ((reaches_of_mem_itemNodes hm).trans hq))
    · have hnoPlan : ∀ p, n ≠ .plan p := fun p hp => hn ⟨p, hp⟩
      intro path v x hv h
      rw [write_of_reference hnoPlan] at h
      cases hs : e.resolve? n with
      | none =>
        obtain rfl : v = x := by simpa [hs] using h
        rw [Json.sorted_of_ordered v hv]
        exact ⟨_, .nowhere hnoPlan hs⟩
      | some s =>
        rw [hs] at h
        have hroot : ∀ q, Reaches e s.root (.plan q) → q.Plain :=
          fun q hq => hplain q ((Reaches.reference .here hs).trans hq)
        rcases ih s.root hroot path v x hv h with ⟨clean, hturns⟩
        exact ⟨_, .reference hs hturns⟩

end HttpContract

namespace HttpContract.Planning

/-- The keywords describe objects: `type`, if it is there and names any type, names this one. -/
def DescribeObjects (members : Fields Json) : Prop :=
  Fields.contains members "type" = true →
    ∃ v ts, ("type", v) ∈ members ∧ types? v = some ts ∧ (ts = [] ∨ .object ∈ ts)

/-- The keywords of a plain schema: there are no branches and no patterns, no property has a
default, and where objects are described, what is required or forbidden of them stands beside
declared properties. -/
structure PlainKeywords (members : Fields Json) : Prop where
  branches : Fields.contains members "allOf" = false
  patterns : Fields.contains members "patternProperties" = false
  defaults : ∀ entries, ("properties", .obj entries) ∈ members → ∀ x ∈ entries, ¬ CarriesDefault x.2
  declares : DescribeObjects members → Fields.contains members "required" = true ∨
    ("additionalProperties", .bool false) ∈ members →
      Fields.contains members "properties" = true ∧ ("properties", .obj []) ∉ members

/-- At every position that plans follow there is a plain schema. -/
def PlainSchema (d : Json) : Prop :=
  ∀ around members, d = fill around (.obj members) → PlainKeywords members

theorem plainSchema_of_not_obj {d : Json} (h : ∀ members, d ≠ .obj members) : PlainSchema d := by
  intro around members hd
  cases around with
  | nil => exact absurd hd (h members)
  | cons F rest =>
    rcases exists_fill_eq_obj F (fill rest (.obj members)) with ⟨outer, houter⟩
    exact absurd (hd.trans houter) (h outer)

theorem plainKeywords_of_absent {members : Fields Json}
    (h : ∀ k ∈ ["allOf", "patternProperties", "properties", "required", "additionalProperties"],
      Fields.contains members k = false) : PlainKeywords members where
  branches := h _ (by decide)
  patterns := h _ (by decide)
  defaults := by
    intro entries hentries
    have hcontains := (Fields.contains_iff members "properties").mpr ⟨_, hentries⟩
    simp [h "properties" (by decide)] at hcontains
  declares := by
    rintro - (hrequired | hforbidden)
    · simp [h "required" (by decide)] at hrequired
    · have hcontains := (Fields.contains_iff members "additionalProperties").mpr ⟨_, hforbidden⟩
      simp [h "additionalProperties" (by decide)] at hcontains

/-- A schema is plain if its keywords are and the schemas inside it are plain. -/
theorem plainSchema_of_inside {members : Fields Json} (h : PlainKeywords members)
    (hinside : ∀ t, Inside (.obj members) t → PlainSchema t) : PlainSchema (.obj members) := by
  intro around inner hd
  cases around with
  | nil =>
    obtain rfl := Json.obj.inj hd
    exact h
  | cons F rest => exact hinside _ ⟨F, hd⟩ rest inner rfl

end HttpContract.Planning

namespace HttpContract.Engine

open Planning Normalization Rendering

variable {r : Registry} {e : Engine} {f : Fragment} {s : CompiledSchema}

theorem inherited_plainSchema
    (h : ∀ handle g, r.get? handle = some g → PlainSchema g.document) :
    Inherited r PlainSchema where
  inside := by
    rintro _ t hd ⟨F, rfl⟩ around members rfl
    exact hd (F :: around) members rfl
  registry := h

theorem plain_of_belongs {p : Plan Node} (h : Belongs e PlainSchema (.plan p)) : p.Plain := by
  rcases h with ⟨d, document, hd, hplans⟩
  cases hplans with
  | always b => exact ⟨rfl, rfl, by simp [Plan.empty], by simp [Plan.empty]⟩
  | @keywords members documents _ hm h =>
    have hplain : PlainKeywords members := hd [] members rfl
    have hobjects : p.DescribesObjects → DescribeObjects members := by
      intro hp htype
      rcases types_of_plansKeywords h with ⟨-, hnone⟩ | ⟨v, hv, -, hts⟩
      · simp [htype] at hnone
      · exact ⟨v, _, hv, hts, hp⟩
    have hproperties : Fields.contains members "properties" = true ∧
        ("properties", .obj []) ∉ members → p.properties ≠ [] := by
      rintro ⟨hcontains, hnonempty⟩ hnil
      rcases properties_of_plansKeywords h with ⟨-, hnone⟩ | ⟨entries, docs, hes, -, hentries⟩
      · simp [hcontains] at hnone
      · rw [hnil] at hentries
        cases hentries
        exact hnonempty hes
    refine ⟨?_, ?_, ?_, ?_⟩
    · rcases allOf_of_plansKeywords h with ⟨hnil, -⟩ | ⟨xs, docs, hxs, -, -⟩
      · exact hnil
      · have hcontains := (Fields.contains_iff members "allOf").mpr ⟨_, hxs⟩
        simp [hplain.branches] at hcontains
    · rcases patterns_of_plansKeywords h with ⟨hnil, -⟩ | ⟨entries, docs, hes, -, -⟩
      · exact hnil
      · have hcontains := (Fields.contains_iff members "patternProperties").mpr ⟨_, hes⟩
        simp [hplain.patterns] at hcontains
    · intro name n hn
      rcases properties_of_plansKeywords h with ⟨hnil, -⟩ | ⟨entries, docs, hes, -, hentries⟩
      · simp [hnil] at hn
      · rcases exists_of_plansEntries hentries hn with ⟨t, document, ht, -, hplans⟩
        rw [filling_of_plans hplans]
        exact carried_of_not_carriesDefault (hplain.defaults entries hes (name, t) ht)
    · rintro hp (hrequired | hforbidden)
      · rcases required_of_plansKeywords h with ⟨hnil, -⟩ | ⟨v, hv, -, -⟩
        · exact absurd hnil hrequired
        · exact hproperties (hplain.declares (hobjects hp)
            (Or.inl ((Fields.contains_iff _ _).mpr ⟨v, hv⟩)))
      · rcases additional_of_plansKeywords h with ⟨hnone, -⟩ | ⟨v, document, hv, -, hadditions⟩
        · rw [hnone] at hforbidden
          cases hforbidden
        · rw [hforbidden] at hadditions
          cases hadditions
          exact hproperties (hplain.declares (hobjects hp) (Or.inr hv))

/-- Where fragment and registry are plain schemas, all plans that can be reached are plain. -/
theorem plain_of_reaches (hr : ofRegistry .standard r = .ok e) (hs : e.compile f = .ok s)
    (hregistry : ∀ handle g, r.get? handle = some g → PlainSchema g.document)
    (hf : PlainSchema f.document) {p : Plan Node} (hp : Reaches e s.root (.plan p)) : p.Plain := by
  rcases compiled_of_compile hs with ⟨document, hplans, -⟩
  exact plain_of_belongs
    (belongs_of_reaches hr (inherited_plainSchema hregistry) ⟨_, document, hf, hplans⟩ hp)

/-- Where fragment and registry are plain schemas, validation of a value that has a text comes to an
end, and the text is that of the value it leaves, up to the order of members. -/
theorem sorted_eq_value_of_stringify (hr : ofRegistry .standard r = .ok e)
    (hs : e.compile f = .ok s)
    (hregistry : ∀ handle g, r.get? handle = some g → PlainSchema g.document)
    (hf : PlainSchema f.document) {v : Json} (hv : v.Ordered) {text : String}
    (htext : e.stringify s v = .ok text) :
    ∃ x : Json, text = x.render ∧ Ends e s v ∧ x.sorted = (e.validate s v).value := by
  have ho : e.options = .standard := (ofRegistry_eq_ok hr).1
  have hplain : ∀ p, Reaches e s.root (.plan p) → p.Plain :=
    fun p hp => plain_of_reaches hr hs hregistry hf hp
  rcases exists_render htext with ⟨x, hx, rfl⟩
  -- what is written is what the walk leaves
  have hturns : ∃ clean, Turns e s.root true v x.sorted clean := by
    unfold render at hx
    split at hx
    · next outcome hfirst =>
      rcases firstOutcome_eq_some hfirst with ⟨fuel, hwrite⟩
      rw [hx] at hwrite
      exact traces_of_plain (by rw [ho]; rfl) (by rw [ho]; rfl) fuel s.root hplain "" v x hv hwrite
    · cases hx
  rcases hturns with ⟨clean, hturns⟩
  exact ⟨x, rfl, ends_iff_exists_turns.mpr ⟨_, _, hturns⟩, (value_of_turns hturns).symm⟩

/-! ## A schema that refers to itself -/

/-- The properties of a tree with a size. -/
def sizedProperties : Fields Json :=
  [("child", (Marker.deferred 0).toJson), ("size", .obj [("type", .str JsonType.integer.name)])]

/-- A schema for trees with sizes and nothing else. -/
def sizedTree : Fragment :=
  .ofMembers [("additionalProperties", .bool false), ("properties", .obj sizedProperties)]

/-- The registry of this schema alone. -/
def sizedTrees : Registry := ⟨[⟨"tree", some sizedTree⟩]⟩

/-- A tree whose sizes are texts, with a property that trees do not have. -/
def textSizes : Json := .obj
  [("child", .obj [("note", .null), ("size", .str "1")]), ("size", .str "2")]

/-- The tree as it is written. -/
def sizes : Json := .obj [("child", .obj [("size", .ofNat 1)]), ("size", .ofNat 2)]

theorem plainSchema_sizedTree : PlainSchema sizedTree.document := by
  have hmarker : PlainSchema (Marker.deferred 0).toJson := by
    refine plainSchema_of_inside (plainKeywords_of_absent (by decide)) (fun t ht => ?_)
    rcases inside_cases ht with ⟨slot, hslot⟩ | hkey
    · have hkeyword := congrArg Prod.fst (List.mem_singleton.mp hslot)
      exact absurd hkeyword (keyword_ne_key slot)
    · cases hkey
      exact plainSchema_of_not_obj (by simp [Json.ofNat])
  have hsize : PlainSchema (.obj [("type", .str JsonType.integer.name)]) := by
    refine plainSchema_of_inside (plainKeywords_of_absent (by decide)) (fun t ht => ?_)
    rcases inside_cases ht with ⟨slot, hslot⟩ | hkey
    · cases slot <;> simp [Slot.keyword] at hslot
    · simp [Marker.key] at hkey
  refine plainSchema_of_inside ⟨rfl, rfl, ?_, fun _ _ => ⟨rfl, by decide⟩⟩ (fun t ht => ?_)
  · intro entries hentries x hx
    obtain rfl : entries = sizedProperties := by simpa using hentries
    rintro ⟨members, hmembers, hdefault⟩
    rcases List.mem_pair.mp hx with rfl | rfl
    · cases hmembers
      exact absurd hdefault (by decide)
    · cases hmembers
      exact absurd hdefault (by decide)
  · rcases inside_cases ht with ⟨slot, hslot⟩ | hkey
    · cases slot with
      | property before name after =>
        have hentries : before ++ (name, t) :: after = sizedProperties := by
          simpa [Slot.keyword, Slot.value] using hslot
        have hmem : (name, t) ∈ before ++ (name, t) :: after :=
          List.mem_append_right _ List.mem_cons_self
        rw [hentries] at hmem
        rcases List.mem_pair.mp hmem with heq | heq
        · cases heq
          exact hmarker
        · cases heq
          exact hsize
      | additional =>
        obtain rfl : t = .bool false := by simpa [Slot.keyword, Slot.value] using hslot
        exact plainSchema_of_not_obj (by simp)
      | _ => simp [Slot.keyword] at hslot
    · simp at hkey

/-- The document for the evaluator of this schema. -/
def sizedDocument : Json := .obj
  [("additionalProperties", .bool false),
    ("properties", .obj
      [("child", .bool true), ("size", .obj [("type", .str JsonType.integer.name)])])]

/-- The plan of this schema. -/
def sizedPlan : Plan Node :=
  { Plan.empty with
    properties := [("child", .deferred 0), ("size", .plan { Plan.empty with types := [.integer] })]
    additional := .forbidden }

/-- The document that evaluators of other schemas can refer to. -/
def sizedResource : Resource where
  uri := EvaluationForm.resourceUri 0
  contents := .obj
    [("additionalProperties", .bool false),
      ("properties", .obj [("child", EvaluationForm.reference 0),
        ("size", .obj [("type", .str JsonType.integer.name)])])]

theorem basic_sizedDocument : Basic sizedDocument := by
  refine .obj (fun m hm => ?_)
  rcases List.mem_pair.mp hm with rfl | rfl
  · exact .additionalProperties (.bool false)
  · refine .properties (fun m hm => ?_)
    rcases List.mem_pair.mp hm with rfl | rfl
    · exact .bool true
    · exact .single (.type .integer)

/-- This schema, with an evaluator that refers to the library. -/
def sizedSchema (l : Library) : CompiledSchema :=
  ⟨.plan sizedPlan, ⟨l, Evaluator.defaultBase, sizedDocument⟩, sizedTree.document⟩

/-- The registry of this schema, with an evaluator that refers to the library. -/
def sizedEngine (l : Library) : Engine :=
  ⟨.standard, ⟨[true], [sizedResource]⟩, [some (sizedSchema l)]⟩

theorem exists_ofRegistry_sizedTrees :
    ∃ l l', ofRegistry .standard sizedTrees = .ok (sizedEngine l) ∧
      (sizedEngine l).compile sizedTree = .ok (sizedSchema l') := by
  have hresources : ∀ r ∈ [sizedResource],
      (Library.declared (r.contents.depth + 1) r.uri r.contents).references = [] :=
    List.forall_mem_singleton.mpr (Library.references_of_unidentified 0 _ rfl)
  obtain ⟨l, hentry⟩ := Planning.compile_of_basic ⟨[true], [sizedResource]⟩ .standard
    sizedTree.document "tree#" rfl (n := .plan sizedPlan) rfl basic_sizedDocument hresources
  obtain ⟨l', hs⟩ := Planning.compile_of_basic ⟨[true], [sizedResource]⟩ .standard
    sizedTree.document "" rfl (n := .plan sizedPlan) rfl basic_sizedDocument hresources
  refine ⟨l, l', ?_, hs⟩
  refine ofRegistry_eq_ok_iff.mpr ⟨[some sizedResource], [some (sizedSchema l)], rfl, ?_, rfl, rfl⟩
  show (entryOf ⟨[true], [sizedResource]⟩ .standard ⟨"tree", some sizedTree⟩).bind _ = _
  unfold entryOf
  dsimp only
  rw [show entryPath ⟨"tree", some sizedTree⟩ = "tree#" from rfl, hentry]
  rfl

theorem plainSchema_of_sizedTrees (handle : Nat) (g : Fragment)
    (h : sizedTrees.get? handle = some g) : PlainSchema g.document := by
  cases handle with
  | zero =>
    obtain rfl : sizedTree = g := Option.some.inj h
    exact plainSchema_sizedTree
  | succ i => cases h

/-- What is written for texts as sizes is what validation leaves of them. -/
theorem sorted_eq_value_sizedTree : ∃ e s, ofRegistry .standard sizedTrees = .ok e ∧
    e.compile sizedTree = .ok s ∧
    (∀ handle g, sizedTrees.get? handle = some g → PlainSchema g.document) ∧
    PlainSchema sizedTree.document ∧ textSizes.Ordered ∧
    e.stringify s textSizes = .ok sizes.render ∧
    ∃ x : Json, sizes.render = x.render ∧ Ends e s textSizes ∧
      x.sorted = (e.validate s textSizes).value := by
  rcases exists_ofRegistry_sizedTrees with ⟨l, l', he, hs⟩
  have hrender : (sizedEngine l).render (sizedSchema l') textSizes = .ok sizes :=
    render_of_write rfl
  have htext : (sizedEngine l).stringify (sizedSchema l') textSizes = .ok sizes.render :=
    (stringify_eq _ _ _).trans (congrArg (Except.map Json.render) hrender)
  have hordered : textSizes.Ordered := by
    simp only [textSizes, Json.Ordered, Json.OrderedMembers, Fields.Ordered, and_true]
    decide
  exact ⟨_, _, he, hs, plainSchema_of_sizedTrees, plainSchema_sizedTree, hordered, htext,
    sorted_eq_value_of_stringify he hs plainSchema_of_sizedTrees plainSchema_sizedTree hordered
      htext⟩

end HttpContract.Engine
