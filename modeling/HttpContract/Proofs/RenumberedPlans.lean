import HttpContract.Proofs.Counterparts
import HttpContract.Proofs.Lockstep
import HttpContract.Proofs.Renumbering
import HttpContract.Proofs.Rewriting

/-!
# Plans of renumbered schemas

Planning follows the markers of a schema, and treats the renumbered schema alike: it plans a node
that is the same but for its handles, and a document for evaluators that refers to the renumbered
handles. One recursion along planning shows both (`alike_node`), and renumbered schemas are compiled
alike (`alike_compile`).
-/

namespace HttpContract

open EvaluationForm Library Json Identifier Evaluation

variable {π : Nat → Nat} {defined : List Bool}

/-! ## What planning comes to -/

/-- A property of a schema and of those that planning comes to from it. -/
inductive Throughout (P : Fields Json → Prop) : Json → Prop where
  | schema {members : Fields Json} (here : P members)
      (planned : ∀ s, Planned members s → Throughout P s)
      (carried : ∀ s, (Marker.key, s) ∈ members → Throughout P s) : Throughout P (.obj members)
  | other {d : Json} (hd : ∀ members, d ≠ .obj members) : Throughout P d

namespace Throughout

variable {P Q : Fields Json → Prop} {members : Fields Json}

theorem here (h : Throughout P (.obj members)) : P members := by
  cases h with
  | schema here _ _ => exact here
  | other hd => exact absurd rfl (hd members)

theorem planned (h : Throughout P (.obj members)) {s : Json} (hs : Planned members s) :
    Throughout P s := by
  cases h with
  | schema _ planned _ => exact planned s hs
  | other hd => exact absurd rfl (hd members)

theorem carried (h : Throughout P (.obj members)) {s : Json} (hs : (Marker.key, s) ∈ members) :
    Throughout P s := by
  cases h with
  | schema _ _ carried => exact carried s hs
  | other hd => exact absurd rfl (hd members)

theorem and {d : Json} (hP : Throughout P d) (hQ : Throughout Q d) :
    Throughout (fun members => P members ∧ Q members) d := by
  induction hP with
  | schema here _ _ ihplanned ihcarried =>
    exact .schema ⟨here, hQ.here⟩ (fun s hs => ihplanned s hs (hQ.planned hs))
      (fun s hs => ihcarried s hs (hQ.carried hs))
  | other hd => exact .other hd

/-- What holds of the objects in a document holds of the schemas among them. -/
theorem of_components {d : Json} (h : ∀ members, .obj members ∈ d.components → P members) :
    Throughout P d := by
  generalize hdepth : d.depth = k
  induction k using Nat.strongRecOn generalizing d with
  | _ k ih =>
    subst hdepth
    cases d with
    | obj members =>
      have hinner : ∀ {s : Json}, s.depth < (Json.obj members).depth →
          s.components ⊆ (Json.obj members).components → Throughout P s :=
        fun hlt hsub => ih _ hlt (fun ms hms => h ms (hsub hms)) rfl
      exact .schema (h members (mem_components _))
        (fun s hs => hinner hs.depth_lt (components_subset_of_under hs))
        (fun s hs => hinner (Json.depth_lt_of_mem_obj hs) (components_subset_obj hs))
    | _ => exact .other (by simp)

end Throughout

/-- What the schema of schemas demands where planning does not look: what is required are names,
without markers between them, and there is one schema for items. -/
structure Formed (members : Fields Json) : Prop where
  required : ∀ v, ("required", v) ∈ members → Unmarked v
  items : ∀ xs, ("items", .arr xs) ∉ members

theorem ne_key_of_mem {members : Fields Json} (hm : Marker.ofMembers? members = none) {k : String}
    {v : Json} (hv : (k, v) ∈ members) : k ≠ Marker.key := by
  rintro rfl
  have hcontains := ofMembers?_eq_none_iff.mp hm
  rw [(Fields.contains_iff _ _).mpr ⟨v, hv⟩] at hcontains
  cases hcontains

/-- In a marker there is no other keyword. -/
theorem formed_marker (v : Json) : Formed [(Marker.key, v)] where
  required _ hv := absurd (Prod.mk.inj (List.mem_singleton.mp hv)).1 (by decide)
  items _ hxs := absurd (Prod.mk.inj (List.mem_singleton.mp hxs)).1 (by decide)

theorem throughout_marker {P : Fields Json → Prop} {v : Json} (here : P [(Marker.key, v)])
    (h : Throughout P v) : Throughout P (.obj [(Marker.key, v)]) := by
  have hkey : ∀ {k : String} {w : Json}, (k, w) ∈ [(Marker.key, v)] → k = Marker.key ∧ w = v :=
    fun hw => Prod.mk.inj (List.mem_singleton.mp hw)
  refine .schema here (fun s hs => ?_) (fun s hs => (hkey hs).2 ▸ h)
  cases hs with
  | single hk hs => exact absurd ((hkey hs).1 ▸ hk) (by decide)
  | listed hk hxs _ => exact absurd ((hkey hxs).1 ▸ hk) (by decide)
  | named hk hss _ => exact absurd ((hkey hss).1 ▸ hk) (by decide)

theorem formed_of_deferred {members : Fields Json} {handle : Nat}
    (hm : Marker.ofMembers? members = some (.ok (.deferred handle))) :
    Throughout Formed (.obj members) := by
  obtain ⟨n, rfl⟩ := members_of_deferred hm
  exact throughout_marker (formed_marker _) (.other (by simp))

theorem unmarked_of_isScalar {d : Json} (h : Normalization.isScalar d = true) : Unmarked d := by
  intro members hm
  cases d with
  | obj members => cases h
  | arr items => cases h
  | _ => cases List.mem_singleton.mp hm

theorem unmarked_arr {items : List Json} (h : ∀ x ∈ items, Unmarked x) : Unmarked (.arr items) := by
  intro members hm
  rw [components] at hm
  rcases List.mem_cons.mp hm with heq | hm
  · cases heq
  · rcases exists_of_mem_componentsItems hm with ⟨x, hx, hm⟩
    exact h x hx members hm

theorem ordered_of_planned {members : Fields Json} {s : Json} (h : Planned members s)
    (hordered : (Json.obj members).Ordered) : s.Ordered := by
  cases h with
  | single _ hs => exact Json.ordered_of_mem hordered.2 hs
  | listed _ hxs hs => exact Json.ordered_of_mem_items (Json.ordered_of_mem hordered.2 hxs) hs
  | named _ hss hs => exact Json.ordered_of_mem (Json.ordered_of_mem hordered.2 hss).2 hs

namespace Planning

/-- A schema that is planned is in form if its document for the evaluator conforms. -/
theorem Plans.formed {c : Context} {d document : Json} {n : Node} (h : Plans c d n document)
    (hordered : d.Ordered) (hconforms : Metaschema.Conforms document) : Throughout Formed d := by
  generalize hdepth : d.depth = k
  induction k using Nat.strongRecOn generalizing d document n with
  | _ k ih =>
    subst hdepth
    cases h with
    | always b => exact .other (by simp)
    | deferred hm _ => exact formed_of_deferred hm
    | inline hm h hbuild =>
      cases members_of_inline hm
      exact throughout_marker (formed_marker _) (ih _ (Json.depth_lt_of_mem_obj List.mem_cons_self) h
        (Json.ordered_of_mem hordered.2 List.mem_cons_self) (Metaschema.conforms_of_build hbuild)
        rfl)
    | @keywords members documents p hm h =>
      have hkeyword : ∀ {k v}, (k, v) ∈ members →
          ∃ y, (k, y) ∈ documents ∧ ∃ p q, PlansKeyword c (role k) v p q y := by
        intro k v hv
        rcases exists_of_forall₂ (forall₂_of_plansKeywords h) hv with ⟨⟨_, y⟩, hy, rfl, hplans⟩
        exact ⟨y, hy, hplans⟩
      have hdocuments := Fields.ordered_of_keys_eq (keys_of_plansKeywords h) hordered.1
      -- a list is no schema
      have hlist : ∀ xs, ("items", .arr xs) ∉ documents := by
        intro xs hxs
        have hlist := (hconforms.single (by decide : "items" ∈ _)
          (Fields.get?_of_mem hdocuments hxs)).isSchema
        cases hlist
      refine .schema ⟨fun v hv => ?_, fun xs hxs => ?_⟩ (fun s hs => ?_) (fun s hs => ?_)
      · rcases hkeyword hv with ⟨y, hy, p, q, hplans⟩
        cases hplans
        rcases hconforms.required (Fields.get?_of_mem hdocuments hy) with ⟨names, rfl, hnames⟩
        refine unmarked_arr (fun x hx => ?_)
        rcases hnames x hx with ⟨s, rfl⟩
        exact unmarked_of_isScalar rfl
      · rcases hkeyword hxs with ⟨y, hy, p, q, hplans⟩
        cases hplans with
        | items hv _ => exact hv xs rfl
        | itemList _ => exact hlist _ hy
      · rcases (follows_of_plansKeywords h hordered.1 hlist).2.exists_of_planned hordered.1 hs with
          ⟨y, hy, n, hplans⟩
        exact ih s.depth hs.depth_lt hplans (ordered_of_planned hs hordered)
          (hconforms.planned hdocuments hy) rfl
      · exact absurd rfl (ne_key_of_mem hm hs)

end Planning

/-- A schema is in form if the renumbered one is. -/
theorem formed_of_renumbered {d d' : Json} (h : Throughout Formed d') (hd : Renumbered π d d') :
    Throughout Formed d := by
  induction h generalizing d with
  | other hd' =>
    refine .other (fun members hm => ?_)
    subst hm
    rcases hd.obj with ⟨members', rfl, -⟩
    exact hd' _ rfl
  | @schema members' here _ _ ihplanned ihcarried =>
    cases hd with
    | scalar hs => cases hs
    | marker hm _ => exact formed_of_deferred hm
    | @object members _ _ hmembers =>
      have hmember : ∀ {k v}, (k, v) ∈ members → ∃ v', (k, v') ∈ members' ∧ Renumbered π v v' := by
        intro k v hv
        rcases exists_of_forall₂ hmembers.forall₂ hv with ⟨⟨_, v'⟩, hv', rfl, hrenumbered⟩
        exact ⟨v', hv', hrenumbered⟩
      refine .schema ⟨fun v hv => ?_, fun xs hxs => ?_⟩ (fun s hs => ?_) (fun s hs => ?_)
      · rcases hmember hv with ⟨v', hv', hrenumbered⟩
        exact hrenumbered.unmarked (here.required v' hv')
      · rcases hmember hxs with ⟨v', hv', hrenumbered⟩
        rcases hrenumbered.arr with ⟨xs', rfl, -⟩
        exact here.items xs' hv'
      · cases hs with
        | single hk hs =>
          rcases hmember hs with ⟨s', hs', hrenumbered⟩
          exact ihplanned s' (.single hk hs') hrenumbered
        | listed hk hxs hs =>
          rcases hmember hxs with ⟨v', hv', hrenumbered⟩
          rcases hrenumbered.arr with ⟨xs', rfl, hitems⟩
          rcases exists_of_forall₂ hitems.forall₂ hs with ⟨s', hs', hrenumbered⟩
          exact ihplanned s' (.listed hk hv' hs') hrenumbered
        | named hk hss hs =>
          rcases hmember hss with ⟨v', hv', hrenumbered⟩
          rcases hrenumbered.obj with ⟨ss', rfl, ⟨handle, hm, -⟩ | ⟨-, hmembers⟩⟩
          · -- the number in a marker is no schema
            obtain ⟨n, rfl⟩ := members_of_deferred hm
            obtain rfl := (Prod.mk.inj (List.mem_singleton.mp hs)).2
            exact .other (by simp)
          · rcases exists_of_forall₂ hmembers.forall₂ hs with ⟨⟨_, s'⟩, hs', rfl, hrenumbered⟩
            exact ihplanned s' (.named hk hv' hs') hrenumbered
      · rcases hmember hs with ⟨v', hv', hrenumbered⟩
        exact ihcarried v' hv' hrenumbered

/-- The keys under which planning looks for schemas. -/
def Planning.followed : List String :=
  ["properties", "patternProperties", "additionalProperties", "items", "prefixItems", "allOf",
    Marker.key]

/-- There are no markers in the data of a schema, nor under the keywords for data in what planning
hands over to evaluators. -/
structure Parted (members : Fields Json) : Prop where
  data : ∀ k ∈ dataKeywords, ∀ v, (k, v) ∈ members → Unmarked v
  handed : ∀ k v, (k, v) ∈ members → k ∉ Planning.followed → UnmarkedUnder dataKeywords v

theorem UnmarkedUnder.parted {d : Json} (h : UnmarkedUnder dataKeywords d) :
    Throughout Parted d :=
  .of_components (fun members hm =>
    ⟨h members hm, fun _ _ hv _ =>
      h.of_subset (List.Subset.trans (components_subset_obj hv)
        (components_subset d hm))⟩)

/-- What planning needs to know of a schema to treat the renumbered one alike. -/
def Ready (members : Fields Json) : Prop := Formed members ∧ Parted members

/-! ## Planning -/

/-- What renumbered schemas are planned against: the same handles have schemas, and there are the
same documents, all apart from each other. -/
structure Planning.Context.Renumbered (π : Nat → Nat) (c c' : Context) : Prop where
  injective : Function.Injective π
  defined : SameDefined π c.defined c'.defined
  resources : ∃ order, c.resources.Perm order ∧
    List.Forall₂ (Resource.Linked π) order c'.resources
  apart : c.resources.Pairwise Library.Apart

namespace Planning

variable {c c' : Context}

theorem alike_evaluator (hc : Context.Renumbered π c c') {d d' : Json} (h : Linked π d d')
    (path : String) : Alike Agreeing (evaluator c d path) (evaluator c' d' path) := by
  rcases hc.resources with ⟨order, hperm, hlinked⟩
  have hbuild := alike_build hc.injective hperm hc.apart hlinked h
  unfold evaluator
  generalize Evaluator.build d c.resources = x at hbuild ⊢
  generalize Evaluator.build d' c'.resources = x' at hbuild ⊢
  cases hbuild with
  | ok h => exact .ok h
  | error e e' => exact .error _ _

theorem types?_eq {d d' : Json} (h : Renumbered π d d') : types? d' = types? d := by
  have hitems : ∀ {names names' : List Json}, RenumberedItems π names names' →
      names'.mapM (fun n => n.text?.bind JsonType.ofName?) =
        names.mapM (fun n => n.text?.bind JsonType.ofName?) := by
    intro names
    induction names with
    | nil => rintro _ ⟨⟩; rfl
    | cons n rest ih =>
      intro names' hnames
      cases hnames with
      | cons hn hrest => rw [List.mapM_cons, List.mapM_cons, hn.text?, ih hrest]
  cases d with
  | obj members =>
    obtain ⟨members', rfl, -⟩ := h.obj
    rfl
  | arr names =>
    obtain ⟨names', rfl, hnames⟩ := h.arr
    exact hitems hnames
  | _ => rw [h.eq_of_isScalar rfl]

/-- The names of types have no room for markers. -/
theorem unmarked_of_types? {d : Json} {ts : List JsonType} (h : types? d = some ts) :
    Unmarked d := by
  have hnames : ∀ (names : List Json) (ts : List JsonType),
      names.mapM (fun n => n.text?.bind JsonType.ofName?) = some ts →
        ∀ n ∈ names, Unmarked n := by
    intro names
    induction names with
    | nil => exact fun _ _ _ hn => absurd hn List.not_mem_nil
    | cons n rest ih =>
      intro ts hts
      rw [List.mapM_cons] at hts
      rcases Option.bind_eq_some_iff.mp hts with ⟨t, ht, hts⟩
      rcases Option.bind_eq_some_iff.mp hts with ⟨others, hothers, -⟩
      refine List.forall_mem_cons.mpr ⟨?_, ih others hothers⟩
      cases n with
      | str name => exact unmarked_of_isScalar rfl
      | _ => cases ht
  cases d with
  | obj members => cases h
  | arr names => exact unmarked_arr (hnames names ts h)
  | _ => exact unmarked_of_isScalar rfl

/-- Readings of a keyword's value and of the renumbered one. -/
structure ReadingsAlike (π : Nat → Nat) (defined : List Bool) (k : String) (v : Json)
    (r r' : Readings) : Prop where
  node : k ∈ ["additionalProperties", "items"] →
    Alike (fun x y => Counterpart π defined x.1 y.1 ∧ Relinked π v k x.2 y.2) (r.node ())
      (r'.node ())
  entries : k ∈ ["patternProperties", "properties"] → ∀ patterns reason,
    Alike (fun x y => CounterpartNames π defined x.1 y.1 ∧ Relinked π v k x.2 y.2)
      (r.entries patterns reason) (r'.entries patterns reason)
  list : k ∈ ["allOf", "prefixItems"] →
    Alike (fun x y => Counterparts π defined x.1 y.1 ∧ Relinked π v k x.2 y.2) (r.list ())
      (r'.list ())

theorem alike_keyword (hc : Context.Renumbered π c c') {k here : String} {v v' : Json}
    {r r' : Readings} {p p' : Plan Node} (hp : Plan.Counterpart π c.defined p p')
    (hv : Renumbered π v v') (hforeign : Foreign v)
    (hspells : k = "$ref" → ∀ s, v = .str s → ¬ Spells s)
    (hown : k ∈ dataKeywords → Unmarked v)
    (hhanded : k ∉ followed → UnmarkedUnder dataKeywords v) (hnames : k = "required" → Unmarked v)
    (hitems : k = "items" → ∀ xs, v ≠ .arr xs) (hkey : k ≠ Marker.key)
    (hr : ReadingsAlike π c.defined k v r r') :
    Alike (fun x y => Plan.Counterpart π c.defined x.1 y.1 ∧ Relinked π v k x.2 y.2)
      (keyword c k v here r p) (keyword c' k v' here r' p') := by
  have hcopied : Unmarked v → v' = v ∧ Relinked π v k v v' := by
    intro hunmarked
    obtain rfl := hv.eq_of_unmarked hunmarked
    exact ⟨rfl, .copied hforeign hspells⟩
  unfold keyword
  split
  · rw [types?_eq hv]
    cases hts : types? v with
    | none => exact .error _ _
    | some ts =>
      obtain ⟨rfl, hrelinked⟩ := hcopied (unmarked_of_types? hts)
      exact .ok ⟨⟨{ hp.similar with types := rfl }, hp.applied⟩, hrelinked⟩
  · obtain ⟨rfl, hrelinked⟩ := hcopied (hown (by decide))
    exact .ok ⟨⟨{ hp.similar with default := rfl }, hp.applied⟩, hrelinked⟩
  · obtain ⟨rfl, hrelinked⟩ := hcopied (hnames rfl)
    exact .ok ⟨⟨{ hp.similar with required := rfl }, hp.applied⟩, hrelinked⟩
  · refine (hr.entries (by decide) _ _).bind (fun x y hxy => .ok ⟨⟨?_, hp.applied⟩, hxy.2⟩)
    exact { hp.similar with
      properties := (counterpartNames_iff.mp hxy.1).imp (fun _ _ h => ⟨h.1, h.2, h.2.filling⟩) }
  · refine (hr.entries (by decide) _ _).bind (fun x y hxy => .ok ⟨⟨?_, hp.applied⟩, hxy.2⟩)
    exact { hp.similar with patterns := counterpartNames_iff.mp hxy.1 }
  · have hnode := (hr.node (by decide)).bind (S := fun x y =>
      Plan.Counterpart π c.defined x.1 y.1 ∧ Relinked π v "additionalProperties" x.2 y.2)
      (f := fun x => .ok ({ p with additional := .schema x.1 }, x.2))
      (g := fun x => .ok ({ p' with additional := .schema x.1 }, x.2))
      (fun x y hxy => .ok ⟨⟨{ hp.similar with additional := .schema hxy.1 }, hp.applied⟩, hxy.2⟩)
    cases v with
    | bool b =>
      obtain ⟨rfl, hrelinked⟩ := hcopied (unmarked_of_isScalar rfl)
      cases b
      · exact .ok ⟨⟨{ hp.similar with additional := .forbidden }, hp.applied⟩, hrelinked⟩
      · exact .ok ⟨⟨{ hp.similar with additional := .allowed }, hp.applied⟩, hrelinked⟩
    | obj members =>
      obtain ⟨members', rfl, -⟩ := hv.obj
      exact hnode
    | arr items =>
      obtain ⟨items', rfl, -⟩ := hv.arr
      exact hnode
    | _ =>
      obtain rfl := hv.eq_of_isScalar rfl
      exact hnode
  · have hnode := (hr.node (by decide)).bind (S := fun x y =>
      Plan.Counterpart π c.defined x.1 y.1 ∧ Relinked π v "items" x.2 y.2)
      (f := fun x => .ok ({ p with items := some x.1 }, x.2))
      (g := fun x => .ok ({ p' with items := some x.1 }, x.2))
      (fun x y hxy => .ok ⟨⟨{ hp.similar with items := .some hxy.1 }, hp.applied⟩, hxy.2⟩)
    cases v with
    | arr items => exact absurd rfl (hitems rfl items)
    | obj members =>
      obtain ⟨members', rfl, -⟩ := hv.obj
      exact hnode
    | _ =>
      obtain rfl := hv.eq_of_isScalar rfl
      exact hnode
  · refine (hr.list (by decide)).bind (fun x y hxy => .ok ⟨⟨?_, hp.applied⟩, hxy.2⟩)
    exact { hp.similar with leading := counterparts_iff.mp hxy.1 }
  · refine (hr.list (by decide)).bind (fun x y hxy => .ok ⟨⟨?_, hp.applied⟩, hxy.2⟩)
    exact { hp.similar with allOf := counterparts_iff.mp hxy.1 }
  · split
    · next hk =>
      obtain ⟨rfl, hrelinked⟩ := hcopied (hown (List.contains_iff_mem.mp hk))
      exact .ok ⟨hp, hrelinked⟩
    · have hother : k ∉ followed := by
        simp only [followed, List.mem_cons, List.not_mem_nil, or_false]
        tauto
      refine (alike_rewrite hc.defined v _ _ k hv hforeign (hhanded hother) hspells).bind
        (fun x y hxy => .ok ⟨⟨{ hp.similar with }, ?_⟩, hxy.1⟩)
      show p'.applied ++ y.2 = (p.applied ++ x.2).map π
      rw [hp.applied, hxy.2, List.map_append]

/-- The number in a marker is no schema. -/
theorem exists_error_of_deferred (patterns : Bool) (n : Number) (here : String) :
    ∃ err, memberNodes c [(Marker.key, .num n)] patterns here = .error err := by
  rw [memberNodes]
  cases patterns with
  | false => exact ⟨_, rfl⟩
  | true =>
    dsimp only
    cases requirePattern Marker.key (Json.Pointer.child here Marker.key) with
    | error err => exact ⟨err, rfl⟩
    | ok _ => exact ⟨_, rfl⟩

-- the recursion is that of planning
mutual

/-- A renumbered schema is planned as the schema is: its node is the renumbered one, and its
document for evaluators refers to the renumbered handles. -/
theorem alike_node (hc : Context.Renumbered π c c') : ∀ (d : Json) {d' : Json} (path k : String),
    Renumbered π d d' → Foreign d → UnmarkedUnder ["const", "enum"] d → Throughout Ready d →
      Alike (fun x y => Counterpart π c.defined x.1 y.1 ∧ Relinked π d k x.2 y.2) (node c d path)
        (node c' d' path)
  | .bool b, _, path, k, h, hforeign, _, _ => by
    obtain rfl := h.eq_of_isScalar rfl
    exact .ok ⟨Counterpart.plan_iff.mpr ⟨.empty, rfl⟩,
      .copied hforeign (fun _ s hs => by cases hs)⟩
  | .obj members, d', path, k, h, hforeign, hfixed, hready => by
    obtain ⟨members', rfl, -⟩ := h.obj
    rw [node, node]
    cases h.readAlike with
    | deferred hm hm' =>
      rw [hm, hm']
      exact (alike_requireDefined hc.defined _ path).bind (fun _ _ hhandle =>
        .ok ⟨.deferred hhandle, .followed hm⟩)
    | inline hm hm' hmembers =>
      rw [hm, hm']
      exact alike_target hc members _ k hm hmembers hforeign hfixed hready
    | malformed hm hm' _ =>
      rw [hm, hm']
      exact .error _ _
    | other hm hm' hmembers =>
      rw [hm, hm']
      exact (alike_keywords hc members members path hm hmembers (List.Subset.refl _) hforeign hfixed
        hready ⟨.empty, rfl⟩).bind
        (fun x y hxy => .ok ⟨Counterpart.plan_iff.mpr hxy.1, .obj hforeign hxy.2⟩)
  | .arr _, _, _, _, h, _, _, _ => by
    obtain ⟨_, rfl, -⟩ := h.arr
    exact .error _ _
  | .null, _, _, _, h, _, _, _ => by
    obtain rfl := h.eq_of_isScalar rfl
    exact .error _ _
  | .num _, _, _, _, h, _, _, _ => by
    obtain rfl := h.eq_of_isScalar rfl
    exact .error _ _
  | .str _, _, _, _, h, _, _, _ => by
    obtain rfl := h.eq_of_isScalar rfl
    exact .error _ _
termination_by structural d => d

theorem alike_target (hc : Context.Renumbered π c c') : ∀ (members : List (String × Json))
    {members' : Fields Json} (path k : String) {f : Fragment},
    Marker.ofMembers? members = some (.ok (.inline f)) → RenumberedMembers π members members' →
      Foreign (.obj members) → UnmarkedUnder ["const", "enum"] (.obj members) →
        Throughout Ready (.obj members) →
          Alike (fun x y => Counterpart π c.defined x.1 y.1 ∧ Relinked π (.obj members) k x.2 y.2)
            (target c members path) (target c' members' path)
  | [], _, _, _, _, hm, _, _, _, _ => by cases hm
  | (key, inner) :: rest, _, path, k, f, hm, .cons hinner _, hforeign, hfixed, hready => by
    have hmem : (key, inner) ∈ (key, inner) :: rest := List.mem_cons_self
    rw [target, target]
    refine (alike_node hc inner path k hinner (hforeign.of_mem_obj hmem) (hfixed.of_mem_obj hmem)
      ?_).bind (fun x y hxy => ?_)
    · obtain ⟨rfl, -⟩ := Prod.mk.inj (List.cons.inj (members_of_inline hm)).1
      exact hready.carried hmem
    · exact (alike_evaluator hc ⟨hxy.2.tame, k, hxy.2.document⟩ path).bind
        (fun e e' he => .ok ⟨.inline hxy.1 he, .followed hm⟩)
termination_by structural members => members

theorem alike_keywords (hc : Context.Renumbered π c c') : ∀ (members : List (String × Json))
    (whole : Fields Json) {members' : Fields Json} (path : String) {p p' : Plan Node},
    Marker.ofMembers? whole = none → RenumberedMembers π members members' → members ⊆ whole →
      Foreign (.obj whole) → UnmarkedUnder ["const", "enum"] (.obj whole) →
        Throughout Ready (.obj whole) → Plan.Counterpart π c.defined p p' →
          Alike (fun x y => Plan.Counterpart π c.defined x.1 y.1 ∧
              RelinkedMembers π members x.2 y.2)
            (keywords c members path p) (keywords c' members' path p')
  | [], _, _, _, _, _, _, .nil, _, _, _, _, hp => .ok ⟨hp, .nil⟩
  | (k, v) :: rest, whole, _, path, p, p', hm, .cons hv hrest, hsub, hforeign, hfixed, hready,
      hp => by
    have hmem : (k, v) ∈ whole := hsub List.mem_cons_self
    have hinner := hforeign.of_mem_obj hmem
    have hfree := hfixed.of_mem_obj hmem
    obtain ⟨hformed, hparted⟩ := hready.here
    rw [keywords, keywords]
    refine (alike_keyword hc hp hv hinner (not_spells_of_mem hforeign hmem)
      (fun hk => hparted.data k hk v hmem) (hparted.handed k v hmem)
      (fun hk => hformed.required v (hk ▸ hmem))
      (fun hk xs hxs => hformed.items xs (hk ▸ hxs ▸ hmem)) (ne_key_of_mem hm hmem)
      { node := fun hk => alike_node hc v _ k hv hinner hfree (hready.planned (.single hk hmem))
        entries := fun hk patterns reason => alike_entries hc v patterns reason _ k hv hinner hfree
          (fun ms hms m hm => hready.planned (.named hk (hms ▸ hmem) hm))
        list := fun hk => alike_list hc v _ k hv hinner hfree
          (fun xs hxs x hx => hready.planned (.listed hk (hxs ▸ hmem) hx)) }).bind
      (fun x y hxy => (alike_keywords hc rest whole path hm hrest
        (fun m hm => hsub (List.mem_cons_of_mem _ hm)) hforeign hfixed hready hxy.1).bind
        (fun a b hab => .ok ⟨hab.1, .cons hxy.2 (fun hk => hxy.2.same ?_) hab.2⟩))
    exact hfixed whole (mem_components _) k hk v hmem
termination_by structural members => members

theorem alike_entries (hc : Context.Renumbered π c c') : ∀ (v : Json) {v' : Json}
    (patterns : Bool) (reason : InvalidReason) (here k : String), Renumbered π v v' → Foreign v →
      UnmarkedUnder ["const", "enum"] v →
        (∀ members, v = .obj members → ∀ m ∈ members, Throughout Ready m.2) →
          Alike (fun x y => CounterpartNames π c.defined x.1 y.1 ∧ Relinked π v k x.2 y.2)
            (entries c v patterns reason here) (entries c' v' patterns reason here)
  | .obj members, v', patterns, reason, here, k, h, hforeign, hfixed, hready => by
    obtain ⟨members', rfl, hcases⟩ := h.obj
    rw [entries, entries]
    rcases hcases with ⟨handle, hm, hm'⟩ | ⟨-, hmembers⟩
    · obtain ⟨n, rfl⟩ := members_of_deferred hm
      obtain ⟨n', rfl⟩ := members_of_deferred hm'
      obtain ⟨err, herr⟩ := exists_error_of_deferred (c := c) patterns n here
      obtain ⟨err', herr'⟩ := exists_error_of_deferred (c := c') patterns n' here
      rw [herr, herr']
      exact .error _ _
    · exact (alike_memberNodes hc members members patterns here hmembers (List.Subset.refl _)
        hforeign hfixed (hready members rfl)).bind
        (fun x y hxy => .ok ⟨hxy.1, .obj hforeign hxy.2⟩)
  | .arr _, _, _, _, _, _, h, _, _, _ => by
    obtain ⟨_, rfl, -⟩ := h.arr
    exact .error _ _
  | .null, _, _, _, _, _, h, _, _, _ => by
    obtain rfl := h.eq_of_isScalar rfl
    exact .error _ _
  | .bool _, _, _, _, _, _, h, _, _, _ => by
    obtain rfl := h.eq_of_isScalar rfl
    exact .error _ _
  | .num _, _, _, _, _, _, h, _, _, _ => by
    obtain rfl := h.eq_of_isScalar rfl
    exact .error _ _
  | .str _, _, _, _, _, _, h, _, _, _ => by
    obtain rfl := h.eq_of_isScalar rfl
    exact .error _ _
termination_by structural v => v

theorem alike_memberNodes (hc : Context.Renumbered π c c') : ∀ (members : List (String × Json))
    (whole : Fields Json) {members' : Fields Json} (patterns : Bool) (here : String),
    RenumberedMembers π members members' → members ⊆ whole → Foreign (.obj whole) →
      UnmarkedUnder ["const", "enum"] (.obj whole) → (∀ m ∈ whole, Throughout Ready m.2) →
        Alike (fun x y => CounterpartNames π c.defined x.1 y.1 ∧
            RelinkedMembers π members x.2 y.2)
          (memberNodes c members patterns here) (memberNodes c' members' patterns here)
  | [], _, _, _, _, .nil, _, _, _, _ => .ok ⟨.nil, .nil⟩
  | (name, v) :: rest, whole, _, patterns, here, .cons hv hrest, hsub, hforeign, hfixed,
      hready => by
    have hmem : (name, v) ∈ whole := hsub List.mem_cons_self
    have hnode := alike_node hc v (Json.Pointer.child here name) name hv
      (hforeign.of_mem_obj hmem) (hfixed.of_mem_obj hmem) (hready _ hmem)
    have hothers := alike_memberNodes hc rest whole patterns here hrest
      (fun m hm => hsub (List.mem_cons_of_mem _ hm)) hforeign hfixed hready
    have hboth := hnode.bind (fun x y hxy => hothers.bind
      (S := fun x y => CounterpartNames π c.defined x.1 y.1 ∧
        RelinkedMembers π ((name, v) :: rest) x.2 y.2)
      (f := fun a => .ok ((name, x.1) :: a.1, (name, x.2) :: a.2))
      (g := fun b => .ok ((name, y.1) :: b.1, (name, y.2) :: b.2))
      (fun a b hab => .ok ⟨.cons hxy.1 hab.1, .cons hxy.2 (fun hk => hxy.2.same
        (hfixed whole (mem_components _) name hk v hmem)) hab.2⟩))
    rw [memberNodes, memberNodes]
    dsimp only
    split
    · cases requirePattern name (Json.Pointer.child here name) with
      | error err => exact .error _ _
      | ok _ => exact hboth
    · exact hboth
termination_by structural members => members

theorem alike_list (hc : Context.Renumbered π c c') : ∀ (v : Json) {v' : Json} (here k : String),
    Renumbered π v v' → Foreign v → UnmarkedUnder ["const", "enum"] v →
      (∀ xs, v = .arr xs → ∀ x ∈ xs, Throughout Ready x) →
        Alike (fun x y => Counterparts π c.defined x.1 y.1 ∧ Relinked π v k x.2 y.2)
          (list c v here) (list c' v' here)
  | .arr xs, _, here, k, h, hforeign, hfixed, hready => by
    obtain ⟨xs', rfl, hitems⟩ := h.arr
    rw [list, list]
    exact (alike_itemNodes hc xs here 0 hitems (fun x hx => hforeign.of_mem_arr hx)
      (fun x hx => hfixed.of_mem_arr hx) (hready xs rfl)).bind
      (fun x y hxy => .ok ⟨hxy.1, .arr hxy.2⟩)
  | .obj _, _, _, _, h, _, _, _ => by
    obtain ⟨_, rfl, -⟩ := h.obj
    exact .error _ _
  | .null, _, _, _, h, _, _, _ => by
    obtain rfl := h.eq_of_isScalar rfl
    exact .error _ _
  | .bool _, _, _, _, h, _, _, _ => by
    obtain rfl := h.eq_of_isScalar rfl
    exact .error _ _
  | .num _, _, _, _, h, _, _, _ => by
    obtain rfl := h.eq_of_isScalar rfl
    exact .error _ _
  | .str _, _, _, _, h, _, _, _ => by
    obtain rfl := h.eq_of_isScalar rfl
    exact .error _ _
termination_by structural v => v

theorem alike_itemNodes (hc : Context.Renumbered π c c') : ∀ (xs : List Json) {xs' : List Json}
    (here : String) (i : Nat), RenumberedItems π xs xs' → (∀ x ∈ xs, Foreign x) →
      (∀ x ∈ xs, UnmarkedUnder ["const", "enum"] x) → (∀ x ∈ xs, Throughout Ready x) →
        Alike (fun x y => Counterparts π c.defined x.1 y.1 ∧ RelinkedItems π xs x.2 y.2)
          (itemNodes c xs here i) (itemNodes c' xs' here i)
  | [], _, _, _, .nil, _, _, _ => .ok ⟨.nil, .nil⟩
  | v :: rest, _, here, i, .cons hv hrest, hforeign, hfixed, hready => by
    rw [itemNodes, itemNodes]
    exact (alike_node hc v _ "" hv (hforeign v List.mem_cons_self) (hfixed v List.mem_cons_self)
      (hready v List.mem_cons_self)).bind (fun x y hxy =>
        (alike_itemNodes hc rest here (i + 1) hrest
          (fun x hx => hforeign x (List.mem_cons_of_mem _ hx))
          (fun x hx => hfixed x (List.mem_cons_of_mem _ hx))
          (fun x hx => hready x (List.mem_cons_of_mem _ hx))).bind
          (fun a b hab => .ok ⟨.cons hxy.1 hab.1, .cons hxy.2 hab.2⟩))
termination_by structural xs => xs

end

/-! ## Compiling -/

/-- Only schemas in form are compiled. -/
theorem formed_of_compileUnchecked {d : Json} {path : String} {s : CompiledSchema}
    (hordered : d.Ordered) (h : compileUnchecked c d path = .ok s) : Throughout Formed d := by
  rcases bind_eq_ok h with ⟨⟨n, document⟩, hnode, h⟩
  rcases bind_eq_ok h with ⟨e, hevaluator, -⟩
  exact (plans_of_node d path n document hnode).formed hordered
    (Metaschema.conforms_of_build (build_of_evaluator hevaluator))

theorem alike_compileUnchecked (hc : Context.Renumbered π c c') {d d' : Json} (path : String)
    (h : Renumbered π d d') (hordered : d.Ordered) (hforeign : Foreign d)
    (hfixed : UnmarkedUnder ["const", "enum"] d) (hparted : Throughout Parted d) :
    Alike (CompiledSchema.Alike (Counterpart π c.defined)) (compileUnchecked c d path)
      (compileUnchecked c' d' path) := by
  by_cases hformed : Throughout Formed d
  · exact (alike_node hc d path "" h hforeign hfixed (hformed.and hparted)).bind (fun x y hxy =>
      (alike_evaluator hc ⟨hxy.2.tame, "", hxy.2.document⟩ path).bind
        (fun e e' he => .ok ⟨hxy.1, he⟩))
  · have hfails : ∀ s, compileUnchecked c d path ≠ .ok s :=
      fun s hs => hformed (formed_of_compileUnchecked hordered hs)
    have hfails' : ∀ s, compileUnchecked c' d' path ≠ .ok s := fun s hs =>
      hformed (formed_of_renumbered (formed_of_compileUnchecked (h.ordered hordered) hs) h)
    generalize compileUnchecked c d path = x at hfails ⊢
    generalize compileUnchecked c' d' path = x' at hfails' ⊢
    cases x with
    | ok s => exact absurd rfl (hfails s)
    | error err =>
      cases x' with
      | ok s => exact absurd rfl (hfails' s)
      | error err' => exact .error _ _

/-- A schema is compiled exactly if the renumbered one is. -/
theorem alike_compile (hc : Context.Renumbered π c c') (o : Options) {d d' : Json} (path : String)
    (h : Renumbered π d d') (hordered : d.Ordered) (hforeign : Foreign d)
    (hfixed : UnmarkedUnder ["const", "enum"] d) (hparted : Throughout Parted d) :
    Alike (CompiledSchema.Alike (Counterpart π c.defined)) (compile c o d path)
      (compile c' o d' path) := by
  have hunchecked := alike_compileUnchecked hc path h hordered hforeign hfixed hparted
  unfold compile
  rw [check_eq d path h]
  cases o.strict with
  | false => exact hunchecked
  | true =>
    cases Keywords.check d path with
    | error err => exact .error _ _
    | ok _ => exact hunchecked

end Planning

end HttpContract
