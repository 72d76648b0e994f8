import HttpContract.Proofs.Approval
import HttpContract.Proofs.Transparency

/-!
# Markers are transparent to verdicts

Where nothing is converted, filled in or dropped, a schema and the schema in which one subschema has
been replaced by a marker that names it accept the same values: `success_iff_of_marker`. Evaluators
read the marker as `true`, which looks at no member and no item, so no schema may ask what others
have left over when nothing but branches of `allOf` lies between it and the marker (`Unseen`).
-/

namespace HttpContract.Planning

open Evaluation Normalization

variable {o : Options} {r : Registry} {e : Engine}

/-! ## The marker itself -/

/-- A marker approves of what the schema it names approves of. -/
theorem approves_marker_iff (hr : Engine.ofRegistry o r = .ok e)
    (hR : Grounded e.context.resources) {x document document' v : Json} {m : Marker} {t : Fragment}
    {n n' : Node} (hx : Marker.read? x = some (.ok m)) (hm : Names r m t)
    (h : Proper e x n document) (ht : Proper e t.document n' document') :
    Approves e x v ↔ Approves e t.document v := by
  rcases exists_compiled_of_marker hr hx hm h.plans with ⟨rfl, s, hs, inner, hplans, hbuild⟩
  have hclosed : Closed inner := hplans.closed ht.unreferenced
  rw [approves_iff h.plans, approves_iff hplans, satisfied_iff_of_resolve? hs,
    accepts_iff_holds hR hbuild hclosed (h.specified n s .here hs)]
  exact and_iff_right (holds_bool_iff.mpr rfl)

theorem read?_target {d : Json} (hd : d.isSchema = true) :
    Marker.read? (Frame.target.fill d) = some (.ok (.inline ⟨d, hd⟩)) := by
  cases d with
  | obj members => rfl
  | bool b => rfl
  | _ => cases hd

/-- What a marker carries is planned along with the marker. -/
theorem Proper.target (hr : Engine.ofRegistry o r = .ok e) {d document : Json} {n : Node}
    (hd : d.isSchema = true) (h : Proper e (Frame.target.fill d) n document) :
    ∃ n' document', Proper e d n' document' := by
  have hinside : Inside (.obj [(Marker.key, d)]) d := ⟨.target, rfl⟩
  rcases exists_compiled_of_marker hr (t := ⟨d, hd⟩) (read?_target hd) rfl h.plans with
    ⟨-, s, hs, inner, hplans, hbuild⟩
  rcases verified_of_build hbuild (h.specified n s .here hs) with ⟨-, hverified⟩
  exact ⟨s.root, inner, ordered_of_inside hinside h.ordered,
    h.unreferenced.inner (Or.inr List.mem_cons_self), hplans, hverified,
    h.specified.of_reaches (.reference .here hs)⟩

/-! ## Schemas around a marker -/

/-- The hole is a branch of `allOf`, for the same place of the value. -/
def Slot.isBranch : Slot → Bool
  | branch .. => true
  | _ => false

/-- The hole is a branch of `allOf`, for the same place of the value. -/
def Frame.isBranch : Frame → Bool
  | .keyword slot _ _ => slot.isBranch
  | .target => false

/-- The keyword stands beside the hole. -/
def Frame.has : Frame → String → Bool
  | .keyword _ left right, k => Fields.contains (left ++ right) k
  | .target, _ => false

/-- No schema asks what others have left over where nothing but branches of `allOf` lies between it
and the hole. -/
def Unseen : List Frame → Prop
  | [] => True
  | F :: rest =>
    ((∀ G ∈ F :: rest, G.isBranch = true) → ∀ k ∈ unevaluatedKeywords, F.has k = false) ∧
      Unseen rest

section

variable {slot : Slot} {left right : Fields Json} {d d' : Json}

/-- The keywords of schemas that differ in the value of one keyword. -/
theorem get?_fill_cases {k : String} {v v' : Json} (h : Fields.Ordered (left ++ (k, v) :: right))
    (h' : Fields.Ordered (left ++ (k, v') :: right)) (name : String) :
    Fields.get? (left ++ (k, v) :: right) name = Fields.get? (left ++ (k, v') :: right) name ∨
      name = k ∧ Fields.get? (left ++ (k, v) :: right) name = some v ∧
        Fields.get? (left ++ (k, v') :: right) name = some v' := by
  by_cases hname : name = k
  · subst hname
    exact Or.inr ⟨rfl, Fields.get?_of_mem h (List.mem_append_right _ List.mem_cons_self),
      Fields.get?_of_mem h' (List.mem_append_right _ List.mem_cons_self)⟩
  · have hname' : k ≠ name := fun heq => hname heq.symm
    exact Or.inl (by simp [Fields.get?_append, Fields.get?_cons, hname'])

theorem mem_followedKeywords (slot : Slot) : slot.keyword ∈ followedKeywords := by
  cases slot <;> simp [Slot.keyword, followedKeywords]

theorem beside_fill (v : Json) :
    beside (left ++ (slot.keyword, v) :: right) = beside (left ++ right) := by
  simp [beside, List.filter_append, mem_followedKeywords slot]

variable (h : Fields.Ordered (left ++ (slot.keyword, slot.value d) :: right))
  (h' : Fields.Ordered (left ++ (slot.keyword, slot.value d') :: right))

include h h'

/-- Branches of `allOf` differ at most where the hole is one of them. -/
theorem forall₂_branches_fill :
    List.Forall₂ (fun s s' => s = s' ∨ slot.isBranch = true ∧ s = d ∧ s' = d')
      (itemsOf (left ++ (slot.keyword, slot.value d) :: right) "allOf")
      (itemsOf (left ++ (slot.keyword, slot.value d') :: right) "allOf") := by
  have hsame : ∀ xs : List Json,
      List.Forall₂ (fun s s' => s = s' ∨ slot.isBranch = true ∧ s = d ∧ s' = d') xs xs :=
    fun xs => List.forall₂_same.mpr (fun _ _ => Or.inl rfl)
  unfold itemsOf
  rcases get?_fill_cases h h' "allOf" with heq | ⟨heq, hget, hget'⟩
  · rw [heq]
    exact hsame _
  · rw [hget, hget']
    cases slot with
    | branch before after =>
      exact List.rel_append (hsame before) (.cons (Or.inr ⟨rfl, rfl, rfl⟩) (hsame after))
    | _ => simp [Slot.keyword] at heq

theorem forall₂_entries_fill {k : String} (hk : k ∈ ["properties", "patternProperties"]) :
    List.Forall₂ (fun a b => a.1 = b.1 ∧ (a.2 = b.2 ∨ a.2 = d ∧ b.2 = d'))
      (entriesOf (left ++ (slot.keyword, slot.value d) :: right) k)
      (entriesOf (left ++ (slot.keyword, slot.value d') :: right) k) := by
  have hsame : ∀ ms : Fields Json,
      List.Forall₂ (fun a b => a.1 = b.1 ∧ (a.2 = b.2 ∨ a.2 = d ∧ b.2 = d')) ms ms :=
    fun ms => List.forall₂_same.mpr (fun _ _ => ⟨rfl, Or.inl rfl⟩)
  unfold entriesOf
  rcases get?_fill_cases h h' k with heq | ⟨rfl, hget, hget'⟩
  · rw [heq]
    exact hsame _
  · rw [hget, hget']
    cases slot with
    | property before name after =>
      exact List.rel_append (hsame before) (.cons ⟨rfl, Or.inr ⟨rfl, rfl⟩⟩ (hsame after))
    | pattern before source after =>
      exact List.rel_append (hsame before) (.cons ⟨rfl, Or.inr ⟨rfl, rfl⟩⟩ (hsame after))
    | _ => simp [Slot.keyword] at hk

theorem forall₂_leading_fill : List.Forall₂ (fun s s' => s = s' ∨ s = d ∧ s' = d')
    (itemsOf (left ++ (slot.keyword, slot.value d) :: right) "prefixItems")
    (itemsOf (left ++ (slot.keyword, slot.value d') :: right) "prefixItems") := by
  have hsame : ∀ xs : List Json, List.Forall₂ (fun s s' => s = s' ∨ s = d ∧ s' = d') xs xs :=
    fun xs => List.forall₂_same.mpr (fun _ _ => Or.inl rfl)
  unfold itemsOf
  rcases get?_fill_cases h h' "prefixItems" with heq | ⟨heq, hget, hget'⟩
  · rw [heq]
    exact hsame _
  · rw [hget, hget']
    cases slot with
    | leading before after =>
      exact List.rel_append (hsame before) (.cons (Or.inr ⟨rfl, rfl⟩) (hsame after))
    | _ => simp [Slot.keyword] at heq

theorem rel_fill {k : String} (hk : k ∈ ["additionalProperties", "items"])
    (hlist : ∀ before after, slot ≠ .itemList before after) :
    Option.Rel (fun s s' => s = s' ∨ s = d ∧ s' = d')
      (Fields.get? (left ++ (slot.keyword, slot.value d) :: right) k)
      (Fields.get? (left ++ (slot.keyword, slot.value d') :: right) k) := by
  rcases get?_fill_cases h h' k with heq | ⟨rfl, hget, hget'⟩
  · rw [heq]
    cases Fields.get? (left ++ (slot.keyword, slot.value d') :: right) k with
    | none => exact .none
    | some s => exact .some (Or.inl rfl)
  · rw [hget, hget']
    cases slot with
    | additional => exact .some (Or.inr ⟨rfl, rfl⟩)
    | items => exact .some (Or.inr ⟨rfl, rfl⟩)
    | itemList before after => exact absurd rfl (hlist before after)
    | _ => simp [Slot.keyword] at hk

/-- Schemas that differ in what stands in the hole. -/
theorem related_fill (hlist : ∀ before after, slot ≠ .itemList before after) :
    Related (fun s s' => s = s' ∨ s = d ∧ s' = d')
      (left ++ (slot.keyword, slot.value d) :: right)
      (left ++ (slot.keyword, slot.value d') :: right) where
  properties := forall₂_entries_fill h h' (by decide)
  patterns := forall₂_entries_fill h h' (by decide)
  additional := rel_fill h h' (by decide) hlist
  leading := forall₂_leading_fill h h'
  items := rel_fill h h' (by decide) hlist
  branches := (forall₂_branches_fill h h').imp (fun _ _ hs => hs.imp_right (fun hs => hs.2))

end

/-! ## Documents of schemas around a marker -/

theorem beside_eq_of_plansKeywords {c : Context}
    {members members' documents documents' : Fields Json} {p p' q q' : Plan Node}
    (hbeside : beside members = beside members')
    (h : PlansKeywords c members p q documents) (h' : PlansKeywords c members' p' q' documents') :
    beside documents = beside documents' := by
  have hfiltered : ∀ {members documents : Fields Json} {p q : Plan Node},
      PlansKeywords c members p q documents → List.Forall₂
        (fun a b => a.1 = b.1 ∧ ∃ p q, PlansKeyword c (role a.1) a.2 p q b.2)
        (beside members) (beside documents) :=
    fun h => filter_of_forall₂ (fun a b hab => by rw [hab.1]) (forall₂_of_plansKeywords h)
  have hleft := hfiltered h
  rw [hbeside] at hleft
  refine eq_of_forall₂ hleft (hfiltered h') ?_
  rintro a b b' - ⟨hkey, p, q, hb⟩ ⟨hkey', p', q', hb'⟩
  exact Prod.ext (hkey.symm.trans hkey') (plansKeyword_unique (e := ⟨.standard, c, []⟩) hb hb').1

/-- The keywords of a schema that does not ask what others have left over. -/
theorem covered_of_unseen {R : List Resource} {documents : Fields Json} {v : Json}
    (h : ∀ k ∈ unevaluatedKeywords, Fields.contains documents k = false) :
    Covered R documents v := by
  constructor
  · intro hcontains
    rw [h _ (by decide)] at hcontains
    cases hcontains
  · intro hcontains
    rw [h _ (by decide)] at hcontains
    cases hcontains

/-- The keywords for what is left over stand beside the hole. -/
theorem Proper.contains_eq_has {slot : Slot} {left right documents : Fields Json} {d : Json}
    {p : Plan Node}
    (h : Proper e (.obj (left ++ (slot.keyword, slot.value d) :: right)) (.plan p) (.obj documents))
    {k : String} (hk : k ∈ unevaluatedKeywords) :
    Fields.contains documents k = (Frame.keyword slot left right).has k := by
  have hne : slot.keyword ≠ k := by
    rintro rfl
    cases slot <;> simp [Slot.keyword, unevaluatedKeywords] at hk
  have hbeside : Fields.contains (left ++ (slot.keyword, slot.value d) :: right) k =
      Fields.contains (left ++ right) k := by
    simp [Fields.contains, Fields.get?_append, Fields.get?_cons, hne]
  rw [Frame.has, ← hbeside, Bool.eq_iff_iff, Fields.contains_iff_mem_keys,
    Fields.contains_iff_mem_keys, keys_of_plansKeywords (plansKeywords_of_plans h.plans)]

section

variable {slot : Slot} {left right documents documents' : Fields Json}
  {d d' document document' v : Json} {p p' : Plan Node} {n n' : Node}
  (h : Proper e (.obj (left ++ (slot.keyword, slot.value d) :: right)) (.plan p) (.obj documents))
  (h' : Proper e (.obj (left ++ (slot.keyword, slot.value d') :: right)) (.plan p')
    (.obj documents'))

include h h'

omit h h' in
/-- A schema that is planned and checked lists no items in the old way. -/
theorem not_itemList_of_proper {members : Fields Json}
    (h : Proper e (.obj members) (.plan p) (.obj documents))
    (hm : (slot.keyword, slot.value d) ∈ members) (before after : List Json) :
    slot ≠ .itemList before after := by
  rintro rfl
  rcases exists_of_rel (rel_symm h.follows.1.items) (Fields.get?_of_mem h.ordered.1 hm) with
    ⟨n, -, document, hplans⟩
  cases hplans

theorem related_of_proper : Related (fun s s' => s = s' ∨ s = d ∧ s' = d')
    (left ++ (slot.keyword, slot.value d) :: right)
    (left ++ (slot.keyword, slot.value d') :: right) :=
  related_fill h.ordered.1 h'.ordered.1
    (not_itemList_of_proper h (List.mem_append_right _ List.mem_cons_self))

theorem beside_eq_of_proper : beside documents = beside documents' :=
  beside_eq_of_plansKeywords ((beside_fill _).trans (beside_fill _).symm)
    (plansKeywords_of_plans h.plans) (plansKeywords_of_plans h'.plans)

/-- Schemas have approved parts alike if what stands in the hole is approved alike. -/
theorem parts_approves_iff (hv : v.Ordered)
    (hd : ∀ x : Json, x.Ordered → (Approves e d x ↔ Approves e d' x)) :
    Parts (Approves e) (left ++ (slot.keyword, slot.value d) :: right) v ↔
      Parts (Approves e) (left ++ (slot.keyword, slot.value d') :: right) v := by
  constructor
  · refine (related_of_proper h h').parts hv ?_
    rintro s s' x hx (rfl | ⟨rfl, rfl⟩) hs
    · exact hs
    · exact (hd x hx).mp hs
  · refine (related_of_proper h h').symm.parts hv ?_
    rintro s s' x hx (rfl | ⟨rfl, rfl⟩) hs
    · exact hs
    · exact (hd x hx).mpr hs

/-- The documents have looked at the same if those of branches in the hole have. -/
theorem seeAlike_of_approved (hR : Grounded e.context.resources) (hv : v.Ordered)
    (hplans : Plans e.context d n document) (hplans' : Plans e.context d' n' document')
    (hbranch : slot.isBranch = true → SeeAlike e.context.resources document document' v)
    (hparts : Parts (Approves e) (left ++ (slot.keyword, slot.value d) :: right) v)
    (hparts' : Parts (Approves e) (left ++ (slot.keyword, slot.value d') :: right) v) :
    SeeAlike e.context.resources (.obj documents) (.obj documents') v := by
  have hrelated := ((related_of_proper h h').of_common h.follows.2).of_common h'.follows.2
  have hbranches := forall₂_of_common (forall₂_of_common
    (forall₂_branches_fill h.ordered.1 h'.ordered.1) h.follows.2.branches) h'.follows.2.branches
  refine hrelated.seeAlike hR h.free h'.free (beside_eq_of_proper h h') (h.parts_holds hv hparts)
    (h'.parts_holds hv hparts') (hbranches.imp ?_)
  rintro y y' ⟨s', -, ⟨s, -, hs, k, hy⟩, k', hy'⟩
  rcases hs with rfl | ⟨hslot, rfl, rfl⟩
  · obtain rfl := (plans_unique (e := e) hy hy').1
    exact .refl _ _
  · obtain rfl := (plans_unique (e := e) hplans hy).1
    obtain rfl := (plans_unique (e := e) hplans' hy').1
    exact hbranch hslot

/-- Nothing is left over of a value alike, if no schema asks for it or the documents have looked at
the same. -/
theorem covered_iff_of_proper
    (hsee : (∀ k ∈ unevaluatedKeywords, (Frame.keyword slot left right).has k = false) ∨
      SeeAlike e.context.resources (.obj documents) (.obj documents') v) :
    Covered e.context.resources documents v ↔ Covered e.context.resources documents' v := by
  have hbeside := beside_eq_of_proper h h'
  rcases hsee with hunasked | hsee
  · exact iff_of_true (covered_of_unseen (fun k hk => h.contains_eq_has hk ▸ hunasked k hk))
      (covered_of_unseen (fun k hk => h'.contains_eq_has hk ▸ hunasked k hk))
  · exact ⟨Covered.congr hbeside hsee, Covered.congr hbeside.symm hsee.symm⟩

/-- Schemas approve alike if what stands in the hole is approved alike and nothing is left over
alike. -/
theorem approves_iff_of_proper (hR : Grounded e.context.resources) (hv : v.Ordered)
    (hd : ∀ x : Json, x.Ordered → (Approves e d x ↔ Approves e d' x))
    (hcovered : Parts (Approves e) (left ++ (slot.keyword, slot.value d) :: right) v →
      (Covered e.context.resources documents v ↔ Covered e.context.resources documents' v)) :
    Approves e (.obj (left ++ (slot.keyword, slot.value d) :: right)) v ↔
      Approves e (.obj (left ++ (slot.keyword, slot.value d') :: right)) v := by
  have hown : Own e.context.resources documents v ↔ Own e.context.resources documents' v := by
    unfold Own
    rw [beside_eq_of_proper h h']
  rw [h.approves_iff hR hv, h'.approves_iff hR hv, hown, ← parts_approves_iff h h' hv hd]
  exact and_congr_right (fun _ => and_congr_right hcovered)

end

/-! ## A marker in the place of a schema -/

section

variable {x v : Json} {m : Marker} {t : Fragment}

/-- A schema and the schema with a marker in the place of another approve of the same values. Where
something else than branches of `allOf` lies between, and the values are approved of, the documents
for their evaluators have looked at the same. -/
theorem approves_fill (hr : Engine.ofRegistry o r = .ok e) (hR : Grounded e.context.resources)
    (hx : Marker.read? x = some (.ok m)) (hm : Names r m t) : ∀ {around : List Frame},
      Unseen around → ∀ {n n' : Node} {document document' : Json},
        Proper e (fill around x) n document →
        Proper e (fill around t.document) n' document' → ∀ {v : Json}, v.Ordered →
          (Approves e (fill around x) v ↔ Approves e (fill around t.document) v) ∧
          (¬ (∀ F ∈ around, F.isBranch = true) → Approves e (fill around x) v →
            SeeAlike e.context.resources document document' v)
  | [], _, _, _, _, _, h, h', _, _ =>
    ⟨approves_marker_iff hr hR hx hm h h', fun hno => absurd (fun _ hF => nomatch hF) hno⟩
  | .target :: rest, hunseen, _, _, _, _, h, h', v, hv => by
    have hschema : (fill rest x).isSchema = true := isSchema_fill (isSchema_of_read? hx) rest
    have hschema' : (fill rest t.document).isSchema = true := isSchema_fill t.isSchema rest
    rcases h.target hr hschema with ⟨k, inner, hinside⟩
    rcases h'.target hr hschema' with ⟨k', inner', hinside'⟩
    have hboth := (approves_fill hr hR hx hm hunseen.2 hinside hinside' hv).1
    rcases exists_compiled_of_marker hr (t := ⟨_, hschema⟩) (read?_target hschema) rfl h.plans with
      ⟨rfl, -⟩
    rcases exists_compiled_of_marker hr (t := ⟨_, hschema'⟩) (read?_target hschema') rfl h'.plans
      with ⟨rfl, -⟩
    refine ⟨?_, fun _ _ => .refl _ _⟩
    rw [fill_cons, fill_cons, approves_marker_iff hr hR (t := ⟨_, hschema⟩) (read?_target hschema)
      rfl h hinside, approves_marker_iff hr hR (t := ⟨_, hschema'⟩) (read?_target hschema') rfl h'
      hinside']
    exact hboth
  | .keyword slot left right :: rest, hunseen, _, _, _, _, h, h', v, hv => by
    rcases exists_plan_of_plans h.plans with ⟨p, documents, rfl, rfl, hp⟩
    rcases exists_plan_of_plans h'.plans with ⟨p', documents', rfl, rfl, hp'⟩
    have hmem : ∀ d : Json, (slot.keyword, slot.value d) ∈
        left ++ (slot.keyword, slot.value d) :: right :=
      fun _ => List.mem_append_right _ List.mem_cons_self
    rcases Proper.inside h (hmem _) with ⟨k, inner, hinside⟩
    rcases Proper.inside h' (hmem _) with ⟨k', inner', hinside'⟩
    have hinner := fun {y : Json} (hy : y.Ordered) =>
      approves_fill hr hR hx hm hunseen.2 hinside hinside' hy
    have hparts := parts_approves_iff h h' hv (fun y hy => (hinner hy).1)
    -- what stands in the hole counts for the same place only if it is a branch
    have hsee : ¬ (∀ F ∈ Frame.keyword slot left right :: rest, F.isBranch = true) →
        Parts (Approves e) (left ++ (slot.keyword, slot.value (fill rest x)) :: right) v →
          SeeAlike e.context.resources (.obj documents) (.obj documents') v := by
      intro hno happroved
      refine seeAlike_of_approved h h' hR hv hinside.plans hinside'.plans (fun hslot => ?_)
        happroved (hparts.mp happroved)
      refine (hinner hv).2 (fun hrest => hno ?_) ?_
      · exact List.forall_mem_cons.mpr ⟨hslot, hrest⟩
      · cases slot with
        | branch before after =>
          exact happroved.branches _ (mem_itemsOf h.ordered.1 (hmem _)
            (List.mem_append_right before List.mem_cons_self))
        | _ => cases hslot
    refine ⟨?_, fun hno happroved => hsee hno ((Proper.approves_iff h hR hv).mp happroved).2.1⟩
    refine approves_iff_of_proper h h' hR hv (fun y hy => (hinner hy).1) (fun happroved => ?_)
    refine covered_iff_of_proper h h' ?_
    by_cases hall : ∀ F ∈ Frame.keyword slot left right :: rest, F.isBranch = true
    · exact Or.inl (hunseen.1 hall)
    · exact Or.inr (hsee hall happroved)

end

end HttpContract.Planning

namespace HttpContract.Engine

open Planning Evaluation Normalization

variable {o : Options} {r : Registry} {e : Engine} {f f' : Fragment} {s s' : CompiledSchema}
  {v : Json}

/-- A compiled schema belongs to one that is planned and checked. -/
theorem exists_proper_of_compile (hs : e.compile f = .ok s) (hordered : f.document.Ordered)
    (hunreferenced : Unreferenced f.document)
    (hspecification : Library.followsSpecification s.evaluator.root = true)
    (hspecified : Specified e s.root) :
    ∃ document, Proper e f.document s.root document ∧
      Evaluator.build document e.context.resources = .ok s.evaluator := by
  rcases compiled_of_compile hs with ⟨document, hplans, hbuild⟩
  exact ⟨document, ⟨hordered, hunreferenced, hplans,
    (verified_of_build hbuild hspecification).2, hspecified⟩, hbuild⟩

/-- The passive validator succeeds for the values that the schema approves of. -/
theorem success_iff_approves (hr : ofRegistry o r = .ok e) (ho : o.Passive)
    (hR : Grounded e.context.resources) {d document : Json} (h : Proper e d s.root document)
    (hbuild : Evaluator.build document e.context.resources = .ok s.evaluator)
    (hspecification : Library.followsSpecification s.evaluator.root = true) :
    (e.validate s v).verdict.success = true ↔ Approves e d v := by
  have hpassive : e.options.Passive := (ofRegistry_eq_ok hr).1 ▸ ho
  rw [(validate_of_steady hr ho.keeping (.of_passive hpassive)).2, approves_iff h.plans,
    accepts_iff_holds hR hbuild (h.plans.closed h.unreferenced) hspecification]

/-- Where values are checked as they are, a schema with a marker in the place of a schema that the
marker names succeeds for the same values. The schemas refer to nothing but by markers, and no
schema asks what others have left over where nothing but branches of `allOf` lies between it and the
marker. -/
theorem success_iff_of_marker (hr : ofRegistry o r = .ok e) (ho : o.Passive)
    (hregistry : ∀ handle g, r.get? handle = some g → Unreferenced g.document)
    (hacyclic : Evaluation.Acyclic e.context.resources) {x : Json} {m : Marker} {t : Fragment}
    {around : List Frame} (hx : Marker.read? x = some (.ok m)) (hm : Names r m t)
    (hunseen : Unseen around) (hf : f.document = fill around x)
    (hf' : f'.document = fill around t.document) (hs : e.compile f = .ok s)
    (hs' : e.compile f' = .ok s') (hordered : f.document.Ordered)
    (hordered' : f'.document.Ordered) (hunreferenced : Unreferenced f.document)
    (hunreferenced' : Unreferenced f'.document)
    (hspecification : Library.followsSpecification s.evaluator.root = true)
    (hspecification' : Library.followsSpecification s'.evaluator.root = true)
    (hspecified : Specified e s.root) (hspecified' : Specified e s'.root) (hv : v.Ordered) :
    (e.validate s v).verdict.success = true ↔ (e.validate s' v).verdict.success = true := by
  have hR : Grounded e.context.resources := ⟨closed_resources hr hregistry, hacyclic⟩
  rcases exists_proper_of_compile hs hordered hunreferenced hspecification hspecified with
    ⟨document, hproper, hbuild⟩
  rcases exists_proper_of_compile hs' hordered' hunreferenced' hspecification' hspecified' with
    ⟨document', hproper', hbuild'⟩
  rw [success_iff_approves hr ho hR hproper hbuild hspecification,
    success_iff_approves hr ho hR hproper' hbuild' hspecification', hf, hf']
  exact (approves_fill hr hR hx hm hunseen (hf ▸ hproper) (hf' ▸ hproper') hv).1

/-! ## A list of trees -/

/-- The compiled schema of a list of what the node stands for. -/
def listSchema (l : Library) (n : Node) (item document : Json) : CompiledSchema :=
  ⟨.plan { Plan.empty with items := some n },
    ⟨l, Evaluator.defaultBase, .obj [("items", document)]⟩, (listOf item).document⟩

theorem exists_compile_listOf (l : Library) :
    (∃ l', (treeEngine l).passive.compile (listOf (Marker.deferred 0).toJson) =
      .ok (listSchema l' (.deferred 0) (Marker.deferred 0).toJson (.bool true))) ∧
    ∃ l', (treeEngine l).passive.compile (listOf tree.document) =
      .ok (listSchema l' (.plan treePlan) tree.document treeDocument) := by
  have hresources : ∀ r ∈ [treeResource],
      (Library.declared (r.contents.depth + 1) r.uri r.contents).references = [] :=
    List.forall_mem_singleton.mpr (Library.references_of_unidentified 0 _ rfl)
  exact ⟨Planning.compile_of_basic ⟨[true], [treeResource]⟩ Options.standard.passive
      (listOf (Marker.deferred 0).toJson).document "" rfl rfl (.single (.items (.bool true)))
      hresources,
    Planning.compile_of_basic ⟨[true], [treeResource]⟩ Options.standard.passive
      (listOf tree.document).document "" rfl rfl (.single (.items basic_treeDocument)) hresources⟩

/-- From trees and lists of them nothing is reached but trees. -/
theorem specified_listSchema (l l' : Library) {n : Node} (item document : Json)
    (hn : n = .deferred 0 ∨ n = .plan treePlan) :
    Specified (treeEngine l).passive (listSchema l' n item document).root := by
  have hreach : ∀ m, Reaches (treeEngine l).passive (listSchema l' n item document).root m →
      m = (listSchema l' n item document).root ∨ m = .deferred 0 ∨ m = .plan treePlan := by
    intro m hm
    induction hm with
    | here => exact Or.inl rfl
    | reference _ hs ih =>
      rcases ih with rfl | rfl | rfl
      · cases hs
      · obtain rfl := Option.some.inj hs
        exact Or.inr (Or.inr rfl)
      · cases hs
    | property _ hm ih =>
      rcases ih with h | h | h
      · cases h
        cases hm
      · cases h
      · cases h
        exact Or.inr (Or.inl (congrArg Prod.snd (List.mem_singleton.mp hm)))
    | items _ hm ih =>
      rcases ih with h | h | h
      · cases h
        obtain rfl := Option.some.inj hm
        exact Or.inr hn
      · cases h
      · cases h
        cases hm
    | _ _ hm ih =>
      rcases ih with h | h | h
      · cases h
        cases hm
      · cases h
      · cases h
        cases hm
  intro m s hm hs
  rcases hreach m hm with rfl | rfl | rfl
  · cases hs
  · obtain rfl := Option.some.inj hs
    rfl
  · cases hs

theorem unmentioned_trees : Unmentioned tree.document ∧
    Unmentioned (listOf (Marker.deferred 0).toJson).document ∧
    Unmentioned (listOf tree.document).document := by
  simp only [unmentioned_iff]
  decide

theorem ordered_lists : (listOf (Marker.deferred 0).toJson).document.Ordered ∧
    (listOf tree.document).document.Ordered ∧ (Json.arr [nestedTree]).Ordered := by
  simp only [listOf, tree, nestedTree, Fragment.ofMembers, Marker.toJson, Json.ofNat,
    Json.Ordered, Json.OrderedItems, Json.OrderedMembers, Fields.Ordered, and_true]
  decide

/-- A tree is not at the same place of a value as the tree it belongs to. -/
theorem acyclic_tree : Evaluation.Acyclic [treeResource] := by
  intro r hr h
  obtain rfl := List.mem_singleton.mp hr
  rcases Relation.TransGen.head'_iff.mp h with ⟨y, hy, -⟩
  generalize hd : treeResource.contents = d at hy
  cases hy with
  | applied h =>
    cases hd
    cases h with
    | single hk hs => exact absurd ((Prod.mk.inj (List.mem_singleton.mp hs)).1 ▸ hk) (by decide)
    | listed hk hxs _ => exact absurd ((Prod.mk.inj (List.mem_singleton.mp hxs)).1 ▸ hk) (by decide)
    | named hk hss _ => exact absurd ((Prod.mk.inj (List.mem_singleton.mp hss)).1 ▸ hk) (by decide)
  | reference h => simp [treeResource, EvaluationForm.reference] at hd

/-- A reference to the schema of trees accepts the lists of trees that the schema itself does. -/
theorem success_iff_listOf_tree : ∃ e s s',
    ofRegistry Options.standard.passive treeRegistry = .ok e ∧ Options.standard.passive.Passive ∧
    (∀ handle g, treeRegistry.get? handle = some g → Unreferenced g.document) ∧
    Evaluation.Acyclic e.context.resources ∧
    Marker.read? (Marker.deferred 0).toJson = some (.ok (.deferred 0)) ∧
    Names treeRegistry (.deferred 0) tree ∧ Unseen [.keyword .items [] []] ∧
    (listOf (Marker.deferred 0).toJson).document =
      fill [.keyword .items [] []] (Marker.deferred 0).toJson ∧
    (listOf tree.document).document = fill [.keyword .items [] []] tree.document ∧
    e.compile (listOf (Marker.deferred 0).toJson) = .ok s ∧
    e.compile (listOf tree.document) = .ok s' ∧
    (listOf (Marker.deferred 0).toJson).document.Ordered ∧ (listOf tree.document).document.Ordered ∧
    Unreferenced (listOf (Marker.deferred 0).toJson).document ∧
    Unreferenced (listOf tree.document).document ∧
    Library.followsSpecification s.evaluator.root = true ∧
    Library.followsSpecification s'.evaluator.root = true ∧ Specified e s.root ∧
    Specified e s'.root ∧ (Json.arr [nestedTree]).Ordered ∧
    ((e.validate s (.arr [nestedTree])).verdict.success = true ↔
      (e.validate s' (.arr [nestedTree])).verdict.success = true) := by
  rcases exists_ofRegistry_tree with ⟨l, he, -⟩
  rcases exists_compile_listOf l with ⟨⟨k, hs⟩, k', hs'⟩
  rcases unmentioned_trees with ⟨htree, hlist, hlist'⟩
  rcases ordered_lists with ⟨hordered, hordered', hv⟩
  have hregistry : ∀ handle g, treeRegistry.get? handle = some g → Unreferenced g.document := by
    intro handle g hg
    cases handle with
    | zero =>
      obtain rfl : tree = g := Option.some.inj hg
      exact htree.unreferenced
    | succ i => cases hg
  have hunseen : Unseen [.keyword .items [] []] :=
    ⟨fun hall => absurd (hall _ List.mem_cons_self) (by decide), trivial⟩
  have hspecified := specified_listSchema l k (Marker.deferred 0).toJson (.bool true) (Or.inl rfl)
  have hspecified' := specified_listSchema l k' tree.document treeDocument (Or.inr rfl)
  have he' := ofRegistry_passive he
  exact ⟨_, _, _, he', ⟨rfl, rfl, rfl⟩, hregistry, acyclic_tree, rfl, rfl, hunseen, rfl, rfl, hs,
    hs', hordered, hordered', hlist.unreferenced, hlist'.unreferenced, rfl, rfl, hspecified,
    hspecified', hv, success_iff_of_marker he' ⟨rfl, rfl, rfl⟩ hregistry acyclic_tree
      (m := .deferred 0) (t := tree) rfl rfl hunseen rfl rfl hs hs' hordered hordered'
      hlist.unreferenced hlist'.unreferenced rfl rfl hspecified hspecified' hv⟩

/-! ## A schema that asks what is left over -/

/-- A schema as a branch beside which no property may be left over. -/
def closing (d : Json) : Fragment :=
  .ofMembers [("allOf", .arr [d]), ("unevaluatedProperties", .bool false)]

/-- The compiled schema, with the node of the branch and its document. -/
def closingSchema (l : Library) (n : Node) (d document : Json) : CompiledSchema :=
  ⟨.plan { Plan.empty with allOf := [n] },
    ⟨l, Evaluator.defaultBase, (closing document).document⟩, (closing d).document⟩

theorem basic_closing {d : Json} (hd : Basic d) : Basic (closing d).document := by
  refine .obj (fun m hm => ?_)
  rcases List.mem_pair.mp hm with rfl | rfl
  · exact .branch hd
  · exact .unevaluatedProperties (.bool false)

theorem node_closing {c : Context} {d document : Json} {n : Node}
    (h : node c d (Json.Pointer.childIndex (Json.Pointer.child "" "allOf") 0) = .ok (n, document)) :
    node c (closing d).document "" =
      .ok (.plan { Plan.empty with allOf := [n] }, (closing document).document) := by
  have hkeywords : keywords c [("allOf", .arr [d]), ("unevaluatedProperties", .bool false)] ""
      Plan.empty = .ok ({ Plan.empty with allOf := [n] },
        [("allOf", .arr [document]), ("unevaluatedProperties", .bool false)]) := by
    simp only [keywords, keyword, list, Planning.itemNodes, h]
    rfl
  have hmarker : Marker.ofMembers?
      [("allOf", .arr [d]), ("unevaluatedProperties", .bool false)] = none := by
    simp [Marker.ofMembers?, Marker.key, Fields.get?]
  rw [closing, Fragment.ofMembers, node, hmarker]
  simp only [hkeywords]
  rfl

theorem exists_compile_closing (o : Options) {d document : Json} {n : Node}
    (hcheck : Keywords.check (closing d).document "" = .ok ())
    (h : node (ofOptions o).context d (Json.Pointer.childIndex (Json.Pointer.child "" "allOf") 0) =
      .ok (n, document)) (hd : Basic document) :
    ∃ l, (ofOptions o).compile (closing d) = .ok (closingSchema l n d document) :=
  compile_of_basic o (closing d) hcheck (node_closing h) (basic_closing hd)

/-- A value with one property. -/
def onlyA : Json := .obj [("a", .ofNat 1)]

theorem accepts_closing (l : Library) :
    Evaluator.accepts ⟨l, Evaluator.defaultBase, (closing (.bool true)).document⟩ onlyA = false ∧
    Evaluator.accepts ⟨l, Evaluator.defaultBase, (closing (declaring "a").document).document⟩
      onlyA = true := by
  have hsteps : ∀ ev : Evaluator, ∃ n, ev.steps onlyA = n + 4 := by
    intro ev
    have hle : 2 * 2 ≤ ev.steps onlyA :=
      Nat.mul_le_mul (Nat.le_add_left 2 _) (Nat.le_add_left 2 _)
    exact ⟨ev.steps onlyA - 4, (Nat.sub_add_cancel hle).symm⟩
  constructor
  · rcases hsteps ⟨l, Evaluator.defaultBase, (closing (.bool true)).document⟩ with ⟨n, hn⟩
    unfold Evaluator.accepts Evaluator.findings
    rw [hn]
    rfl
  · rcases hsteps ⟨l, Evaluator.defaultBase, (closing (declaring "a").document).document⟩ with
      ⟨n, hn⟩
    unfold Evaluator.accepts Evaluator.findings
    rw [hn]
    rfl

/-- The node of a schema that declares the property. -/
def declaringNode : Node := .plan { Plan.empty with properties := [("a", .plan Plan.empty)] }

/-- The property that the branch declares is left over when a marker stands in the place of the
branch. -/
theorem success_only_without_marker : ∃ e s s' around,
    ofRegistry Options.standard.passive .empty = .ok e ∧
    (closing (Marker.inline (declaring "a")).toJson).document =
      fill around (Marker.inline (declaring "a")).toJson ∧
    (closing (declaring "a").document).document = fill around (declaring "a").document ∧
    e.compile (closing (Marker.inline (declaring "a")).toJson) = .ok s ∧
    e.compile (closing (declaring "a").document) = .ok s' ∧
    (e.validate s onlyA).verdict.success = false ∧
    (e.validate s' onlyA).verdict.success = true := by
  obtain ⟨_, hnode⟩ := @node_inline_of_basic (ofOptions Options.standard.passive).context
    (declaring "a") (Json.Pointer.childIndex (Json.Pointer.child "" "allOf") 0) _ _ rfl
    (basic_declaring "a") (fun _ hr => absurd hr List.not_mem_nil)
  obtain ⟨l, hs⟩ := exists_compile_closing Options.standard.passive rfl hnode (.bool true)
  obtain ⟨l', hs'⟩ := exists_compile_closing Options.standard.passive (n := declaringNode)
    (d := (declaring "a").document) rfl rfl (basic_declaring "a")
  refine ⟨_, _, _, [.keyword (.branch [] []) [] [("unevaluatedProperties", .bool false)]],
    ofRegistry_empty _, rfl, rfl, hs, hs', ?_, ?_⟩
  · rw [← Bool.not_eq_true, (validate_of_steady (ofRegistry_empty _)
      (Options.passive_passive _).keeping (.of_passive (Options.passive_passive _))).2]
    rintro ⟨haccepts, -⟩
    rw [closingSchema, (accepts_closing l).1] at haccepts
    cases haccepts
  · have hturns := sound_walk (e := ofOptions Options.standard.passive) 4
      (.plan { Plan.empty with allOf := [declaringNode] }) ⟨"", ""⟩ true onlyA ⟨onlyA, []⟩ rfl
    refine (validate_of_leaves ⟨true, hturns, ?_⟩).2
    exact (Bool.and_true _).symm ▸ (accepts_closing l').2.symm

end HttpContract.Engine