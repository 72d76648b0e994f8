import HttpContract.Proofs.Acyclic
import HttpContract.Proofs.Planning
import HttpContract.Proofs.Pointwise

/-!
# Planning as a relation

`Plans` gives the rules by which a schema gets its node and the document for its evaluator, without
places and errors: `plans_of_node`. A keyword matters to a plan only by its role.
-/

namespace HttpContract.Planning

/-! ## Rules -/

/-- What a keyword does to a plan. -/
inductive Role where
  | types
  | default
  | required
  | properties
  | patterns
  | additional
  | items
  | leading
  | branches
  /-- The keyword holds data and says nothing to the plan. -/
  | data
  | other
deriving DecidableEq

/-- The role of a keyword. -/
def role : String → Role
  | "type" => .types
  | "default" => .default
  | "required" => .required
  | "properties" => .properties
  | "patternProperties" => .patterns
  | "additionalProperties" => .additional
  | "items" => .items
  | "prefixItems" => .leading
  | "allOf" => .branches
  | k => if EvaluationForm.dataKeywords.contains k then .data else .other

/-- The keyword that alone has a role. -/
def Role.keyword? : Role → Option String
  | .types => some "type"
  | .default => some "default"
  | .required => some "required"
  | .properties => some "properties"
  | .patterns => some "patternProperties"
  | .additional => some "additionalProperties"
  | .items => some "items"
  | .leading => some "prefixItems"
  | .branches => some "allOf"
  | .data => none
  | .other => none

theorem eq_of_role {k keyword : String} {ρ : Role} (h : role k = ρ)
    (hρ : ρ.keyword? = some keyword) : k = keyword := by
  subst h
  unfold role at hρ
  split at hρ
  all_goals try exact Option.some.inj hρ
  split at hρ <;> cases hρ

mutual

/-- A schema has a node, and a document for its evaluator. -/
inductive Plans (c : Context) : Json → Node → Json → Prop where
  | always (b : Bool) : Plans c (.bool b) (.plan Plan.empty) (.bool b)
  | deferred {members : Fields Json} {handle : Nat}
      (hm : Marker.ofMembers? members = some (.ok (.deferred handle)))
      (hdefined : c.defined[handle]?.getD false = true) :
      Plans c (.obj members) (.deferred handle) (.bool true)
  | inline {key : String} {inner document : Json} {rest : Fields Json} {f : Fragment} {root : Node}
      {evaluator : Evaluator}
      (hm : Marker.ofMembers? ((key, inner) :: rest) = some (.ok (.inline f)))
      (h : Plans c inner root document)
      (hevaluator : Evaluator.build document c.resources = .ok evaluator) :
      Plans c (.obj ((key, inner) :: rest)) (.inline root evaluator inner) (.bool true)
  | keywords {members documents : Fields Json} {p : Plan Node}
      (hm : Marker.ofMembers? members = none)
      (h : PlansKeywords c members Plan.empty p documents) :
      Plans c (.obj members) (.plan p) (.obj documents)

/-- Keywords in their order turn a plan into another. -/
inductive PlansKeywords (c : Context) :
    Fields Json → Plan Node → Plan Node → Fields Json → Prop where
  | nil {p : Plan Node} : PlansKeywords c [] p p []
  | cons {k : String} {v document : Json} {rest documents : Fields Json} {p q q' : Plan Node}
      (h : PlansKeyword c (role k) v p q document) (hrest : PlansKeywords c rest q q' documents) :
      PlansKeywords c ((k, v) :: rest) p q' ((k, document) :: documents)

/-- A keyword turns a plan into another. -/
inductive PlansKeyword (c : Context) : Role → Json → Plan Node → Plan Node → Json → Prop where
  | types {v : Json} {p : Plan Node} {ts : List JsonType} (h : types? v = some ts) :
      PlansKeyword c .types v p { p with types := ts } v
  | default {v : Json} {p : Plan Node} : PlansKeyword c .default v p { p with default := some v } v
  | required {v : Json} {p : Plan Node} :
      PlansKeyword c .required v p { p with required := texts v } v
  | properties {members documents : Fields Json} {p : Plan Node} {nodes : List (String × Node)}
      (h : PlansEntries c members nodes documents) :
      PlansKeyword c .properties (.obj members) p { p with properties := nodes } (.obj documents)
  | patterns {members documents : Fields Json} {p : Plan Node} {nodes : List (String × Node)}
      (h : PlansEntries c members nodes documents) :
      PlansKeyword c .patterns (.obj members) p { p with patterns := nodes } (.obj documents)
  | allowed {p : Plan Node} :
      PlansKeyword c .additional (.bool true) p { p with additional := .allowed } (.bool true)
  | forbidden {p : Plan Node} :
      PlansKeyword c .additional (.bool false) p { p with additional := .forbidden } (.bool false)
  | additional {v document : Json} {p : Plan Node} {n : Node} (hv : ∀ b, v ≠ .bool b)
      (h : Plans c v n document) :
      PlansKeyword c .additional v p { p with additional := .schema n } document
  | items {v document : Json} {p : Plan Node} {n : Node} (hv : ∀ xs, v ≠ .arr xs)
      (h : Plans c v n document) : PlansKeyword c .items v p { p with items := some n } document
  | itemList {xs documents : List Json} {p : Plan Node} {nodes : List Node}
      (h : PlansItems c xs nodes documents) :
      PlansKeyword c .items (.arr xs) p { p with leading := nodes, leadingKeyword := "items" }
        (.arr documents)
  | leading {xs documents : List Json} {p : Plan Node} {nodes : List Node}
      (h : PlansItems c xs nodes documents) :
      PlansKeyword c .leading (.arr xs) p { p with leading := nodes } (.arr documents)
  | branches {xs documents : List Json} {p : Plan Node} {nodes : List Node}
      (h : PlansItems c xs nodes documents) :
      PlansKeyword c .branches (.arr xs) p { p with allOf := nodes } (.arr documents)
  | data {v : Json} {p : Plan Node} : PlansKeyword c .data v p p v
  | other {v document : Json} {p : Plan Node} {path : String} {inPlace : Bool} {applied : List Nat}
      (h : EvaluationForm.rewrite c.defined v path inPlace = .ok (document, applied)) :
      PlansKeyword c .other v p { p with applied := p.applied ++ applied } document

/-- The members of an object of schemas have nodes. -/
inductive PlansEntries (c : Context) :
    Fields Json → List (String × Node) → Fields Json → Prop where
  | nil : PlansEntries c [] [] []
  | cons {name : String} {v document : Json} {n : Node} {rest documents : Fields Json}
      {nodes : List (String × Node)} (h : Plans c v n document)
      (hrest : PlansEntries c rest nodes documents) :
      PlansEntries c ((name, v) :: rest) ((name, n) :: nodes) ((name, document) :: documents)

/-- The items of a list of schemas have nodes. -/
inductive PlansItems (c : Context) : List Json → List Node → List Json → Prop where
  | nil : PlansItems c [] [] []
  | cons {v document : Json} {n : Node} {rest documents : List Json} {nodes : List Node}
      (h : Plans c v n document) (hrest : PlansItems c rest nodes documents) :
      PlansItems c (v :: rest) (n :: nodes) (document :: documents)

end

variable {c : Context}

/-! ## Lists of rules -/

theorem forall₂_of_plansEntries {entries documents : Fields Json} {nodes : List (String × Node)}
    (h : PlansEntries c entries nodes documents) :
    List.Forall₂ (fun a b => a.1 = b.1 ∧ ∃ document, Plans c a.2 b.2 document) entries nodes ∧
      List.Forall₂ (fun a b => a.1 = b.1 ∧ ∃ n, Plans c a.2 n b.2) entries documents := by
  induction documents generalizing entries nodes with
  | nil =>
    cases h
    exact ⟨.nil, .nil⟩
  | cons m rest ih =>
    cases h with
    | cons h hrest =>
      rcases ih hrest with ⟨hnodes, hdocuments⟩
      exact ⟨.cons ⟨rfl, _, h⟩ hnodes, .cons ⟨rfl, _, h⟩ hdocuments⟩

theorem forall₂_of_plansItems {xs documents : List Json} {nodes : List Node}
    (h : PlansItems c xs nodes documents) :
    List.Forall₂ (fun t n => ∃ document, Plans c t n document) xs nodes ∧
      List.Forall₂ (fun t document => ∃ n, Plans c t n document) xs documents := by
  induction documents generalizing xs nodes with
  | nil =>
    cases h
    exact ⟨.nil, .nil⟩
  | cons m rest ih =>
    cases h with
    | cons h hrest =>
      rcases ih hrest with ⟨hnodes, hdocuments⟩
      exact ⟨.cons ⟨_, h⟩ hnodes, .cons ⟨_, h⟩ hdocuments⟩

theorem forall₂_of_plansKeywords : ∀ {members documents : Fields Json} {p q : Plan Node},
    PlansKeywords c members p q documents → List.Forall₂
      (fun a b => a.1 = b.1 ∧ ∃ p q, PlansKeyword c (role a.1) a.2 p q b.2) members documents
  | _, _, _, _, .nil => .nil
  | _, _, _, _, .cons h hrest => .cons ⟨rfl, _, _, h⟩ (forall₂_of_plansKeywords hrest)
termination_by structural _ _ _ _ h => h

/-! ## Planning follows the rules -/

theorem build_of_evaluator {document : Json} {path : String} {e : Evaluator}
    (h : evaluator c document path = .ok e) : Evaluator.build document c.resources = .ok e := by
  unfold evaluator at h
  split at h
  · next e' he =>
    obtain rfl := Except.ok.inj h
    exact he
  · cases h

/-- Readings of a value that follow the rules. -/
structure ReadingsPlan (c : Context) (v : Json) (r : Readings) : Prop where
  node : ∀ {n document}, r.node () = .ok (n, document) → Plans c v n document
  entries : ∀ {patterns reason nodes document}, r.entries patterns reason = .ok (nodes, document) →
    ∃ members documents, v = .obj members ∧ document = .obj documents ∧
      PlansEntries c members nodes documents
  list : ∀ {nodes document}, r.list () = .ok (nodes, document) →
    ∃ xs documents, v = .arr xs ∧ document = .arr documents ∧ PlansItems c xs nodes documents

theorem plansKeyword_of_keyword {r : Readings} {k here : String} {v document : Json}
    {p q : Plan Node} (hr : ReadingsPlan c v r) (h : keyword c k v here r p = .ok (q, document)) :
    PlansKeyword c (role k) v p q document := by
  unfold keyword at h
  split at h
  · split at h
    · next ts hts =>
      cases h
      exact .types hts
    · cases h
  · cases h
    exact .default
  · cases h
    exact .required
  · rcases bind_eq_ok h with ⟨x, hx, h⟩
    rcases hr.entries hx with ⟨members, documents, rfl, hdocument, hentries⟩
    cases h
    rw [hdocument]
    exact .properties hentries
  · rcases bind_eq_ok h with ⟨x, hx, h⟩
    rcases hr.entries hx with ⟨members, documents, rfl, hdocument, hentries⟩
    cases h
    rw [hdocument]
    exact .patterns hentries
  · split at h
    · cases h
      exact .allowed
    · cases h
      exact .forbidden
    · next htrue hfalse =>
      rcases bind_eq_ok h with ⟨x, hx, h⟩
      cases h
      refine .additional (fun b hb => ?_) (hr.node hx)
      cases b with
      | true => exact htrue hb
      | false => exact hfalse hb
  · split at h
    · rcases bind_eq_ok h with ⟨x, hx, h⟩
      rcases hr.list hx with ⟨xs, documents, hxs, hdocument, hitems⟩
      cases hxs
      cases h
      rw [hdocument]
      exact .itemList hitems
    · next hv =>
      rcases bind_eq_ok h with ⟨x, hx, h⟩
      cases h
      exact .items hv (hr.node hx)
  · rcases bind_eq_ok h with ⟨x, hx, h⟩
    rcases hr.list hx with ⟨xs, documents, rfl, hdocument, hitems⟩
    cases h
    rw [hdocument]
    exact .leading hitems
  · rcases bind_eq_ok h with ⟨x, hx, h⟩
    rcases hr.list hx with ⟨xs, documents, rfl, hdocument, hitems⟩
    cases h
    rw [hdocument]
    exact .branches hitems
  · next h1 h2 h3 h4 h5 h6 h7 h8 h9 =>
    have hrole : role k = if EvaluationForm.dataKeywords.contains k then .data else .other := by
      unfold role
      split <;> first | contradiction | rfl
    rw [hrole]
    split at h
    · next hdata =>
      cases h
      rw [if_pos hdata]
      exact .data
    · next hdata =>
      rw [if_neg hdata]
      rcases bind_eq_ok h with ⟨x, hx, h⟩
      cases h
      exact .other hx

-- the recursion is that of planning
mutual

/-- A schema that is planned has its node and its document by the rules. -/
theorem plans_of_node : ∀ (v : Json) (path : String) (n : Node) (document : Json),
    node c v path = .ok (n, document) → Plans c v n document
  | .bool b, _, _, _, h => by
    cases h
    exact .always b
  | .obj members, path, n, document, h => by
    rw [node] at h
    split at h
    · cases h
    · next handle hm =>
      rcases bind_eq_ok h with ⟨_, hdefined, h⟩
      cases h
      refine .deferred hm ?_
      unfold EvaluationForm.requireDefined at hdefined
      split at hdefined
      · assumption
      · cases hdefined
    · next f hm => exact plans_of_target members _ n document f hm h
    · next hm =>
      rcases bind_eq_ok h with ⟨x, hx, h⟩
      cases h
      exact .keywords hm (plans_of_keywords members path _ _ _ hx)
  | .arr _, _, _, _, h => by cases h
  | .null, _, _, _, h => by cases h
  | .num _, _, _, _, h => by cases h
  | .str _, _, _, _, h => by cases h
termination_by structural v => v

theorem plans_of_target : ∀ (members : List (String × Json)) (path : String) (n : Node)
    (document : Json) (f : Fragment), Marker.ofMembers? members = some (.ok (.inline f)) →
      target c members path = .ok (n, document) → Plans c (.obj members) n document
  | [], _, _, _, _, _, h => by cases h
  | (_, inner) :: _, path, _, _, _, hm, h => by
    rw [target] at h
    rcases bind_eq_ok h with ⟨x, hx, h⟩
    rcases bind_eq_ok h with ⟨e, he, h⟩
    cases h
    exact .inline hm (plans_of_node inner path _ _ hx) (build_of_evaluator he)
termination_by structural members => members

theorem plans_of_keywords : ∀ (members : List (String × Json)) (path : String) (p q : Plan Node)
    (documents : List (String × Json)), keywords c members path p = .ok (q, documents) →
      PlansKeywords c members p q documents
  | [], _, _, _, _, h => by
    cases h
    exact .nil
  | (k, v) :: rest, path, _, _, _, h => by
    rw [keywords] at h
    rcases bind_eq_ok h with ⟨x, hx, h⟩
    rcases bind_eq_ok h with ⟨y, hy, h⟩
    cases h
    have hreadings : ReadingsPlan c v
        ⟨fun _ => node c v (Json.Pointer.child path k),
          fun patterns reason => entries c v patterns reason (Json.Pointer.child path k),
          fun _ => list c v (Json.Pointer.child path k)⟩ :=
      ⟨fun h => plans_of_node v _ _ _ h, fun h => plans_of_entries v _ _ _ _ _ h,
        fun h => plans_of_list v _ _ _ h⟩
    exact .cons (plansKeyword_of_keyword hreadings hx) (plans_of_keywords rest path _ _ _ hy)
termination_by structural members => members

theorem plans_of_entries : ∀ (v : Json) (patterns : Bool) (reason : InvalidReason) (here : String)
    (nodes : List (String × Node)) (document : Json),
    entries c v patterns reason here = .ok (nodes, document) → ∃ members documents,
      v = .obj members ∧ document = .obj documents ∧ PlansEntries c members nodes documents
  | .obj members, patterns, _, here, _, _, h => by
    rw [entries] at h
    rcases bind_eq_ok h with ⟨x, hx, h⟩
    cases h
    exact ⟨_, _, rfl, rfl, plans_of_memberNodes members patterns here _ _ hx⟩
  | .arr _, _, _, _, _, _, h => by cases h
  | .null, _, _, _, _, _, h => by cases h
  | .bool _, _, _, _, _, _, h => by cases h
  | .num _, _, _, _, _, _, h => by cases h
  | .str _, _, _, _, _, _, h => by cases h
termination_by structural v => v

theorem plans_of_memberNodes : ∀ (members : List (String × Json)) (patterns : Bool) (here : String)
    (nodes : List (String × Node)) (documents : List (String × Json)),
    memberNodes c members patterns here = .ok (nodes, documents) →
      PlansEntries c members nodes documents
  | [], _, _, _, _, h => by
    cases h
    exact .nil
  | (name, v) :: rest, patterns, here, nodes, documents, h => by
    rw [memberNodes] at h
    -- what follows the check of the pattern is the same for both kinds of entries
    have hrest : (node c v (Json.Pointer.child here name) >>= fun x =>
        memberNodes c rest patterns here >>= fun y =>
          (pure ((name, x.1) :: y.1, (name, x.2) :: y.2) : Except CompileError _)) =
        .ok (nodes, documents) := by
      dsimp only at h
      split at h
      · rcases bind_eq_ok h with ⟨_, -, h⟩
        exact h
      · exact h
    rcases bind_eq_ok hrest with ⟨x, hx, hrest⟩
    rcases bind_eq_ok hrest with ⟨y, hy, hrest⟩
    cases hrest
    exact .cons (plans_of_node v _ _ _ hx) (plans_of_memberNodes rest patterns here _ _ hy)
termination_by structural members => members

theorem plans_of_list : ∀ (v : Json) (here : String) (nodes : List Node) (document : Json),
    list c v here = .ok (nodes, document) → ∃ xs documents, v = .arr xs ∧
      document = .arr documents ∧ PlansItems c xs nodes documents
  | .arr xs, here, _, _, h => by
    rw [list] at h
    rcases bind_eq_ok h with ⟨x, hx, h⟩
    cases h
    exact ⟨_, _, rfl, rfl, plans_of_itemNodes xs here 0 _ _ hx⟩
  | .obj _, _, _, _, h => by cases h
  | .null, _, _, _, h => by cases h
  | .bool _, _, _, _, h => by cases h
  | .num _, _, _, _, h => by cases h
  | .str _, _, _, _, h => by cases h
termination_by structural v => v

theorem plans_of_itemNodes : ∀ (xs : List Json) (here : String) (index : Nat) (nodes : List Node)
    (documents : List Json), itemNodes c xs here index = .ok (nodes, documents) →
      PlansItems c xs nodes documents
  | [], _, _, _, _, h => by
    cases h
    exact .nil
  | v :: rest, here, index, _, _, h => by
    rw [itemNodes] at h
    rcases bind_eq_ok h with ⟨x, hx, h⟩
    rcases bind_eq_ok h with ⟨y, hy, h⟩
    cases h
    exact .cons (plans_of_node v _ _ _ hx) (plans_of_itemNodes rest here (index + 1) _ _ hy)
termination_by structural xs => xs

end

/-! ## Compiled schemas -/

/-- A compiled schema belongs to a document: its root is the node, and its evaluator is built for
the document that goes with the node. -/
def Compiled (c : Context) (v : Json) (s : CompiledSchema) : Prop :=
  ∃ document, Plans c v s.root document ∧ Evaluator.build document c.resources = .ok s.evaluator

theorem compiled_of_compile {o : Options} {v : Json} {path : String} {s : CompiledSchema}
    (h : compile c o v path = .ok s) : Compiled c v s := by
  rcases evaluator_of_compile c h with ⟨document, hnode, hevaluator⟩
  exact ⟨document, plans_of_node v path _ _ hnode, build_of_evaluator hevaluator⟩

end HttpContract.Planning

namespace HttpContract

/-- The default that is filled in for an absent property with a node. References have none. -/
def Node.filling : Node → Option Json
  | .plan p => p.default
  | _ => none

end HttpContract

namespace HttpContract.Engine

open Planning (Compiled compiled_of_compile)

variable {o : Options} {r : Registry} {e : Engine}

theorem rel_of_entryOf {c : Planning.Context} {entry : Registry.Entry}
    {compiled : Option CompiledSchema} (h : entryOf c o entry = .ok compiled) :
    Option.Rel (fun f s => ∃ path, Planning.compile c o f.document path = .ok s) entry.schema
      compiled := by
  unfold entryOf at h
  split at h
  · next hschema =>
    cases h
    rw [hschema]
    exact .none
  · next f hschema =>
    rw [hschema]
    rcases map_eq_ok h with ⟨s, hcompile, rfl⟩
    exact .some ⟨_, hcompile⟩

/-- Where all entries of a registry compile, each one that has a schema has a compiled one. -/
theorem rel_compile {c : Planning.Context} {entries : List (Option CompiledSchema)}
    (h : r.entries.mapM (entryOf c o) = .ok entries) (handle : Nat) :
    Option.Rel (fun f s => ∃ path, Planning.compile c o f.document path = .ok s) (r.get? handle)
      ((entries[handle]?).bind id) := by
  have hrel := rel_getElem? (forall₂_of_mapM h) handle
  unfold Registry.get?
  generalize r.entries[handle]? = x at hrel ⊢
  generalize entries[handle]? = y at hrel ⊢
  cases hrel with
  | none => exact .none
  | some h => exact rel_of_entryOf h

/-- The entries of an accepted registry are the compiled schemas of its handles. -/
theorem rel_entry? (hr : ofRegistry o r = .ok e) (handle : Nat) :
    Option.Rel (fun f s => Compiled e.context f.document s) (r.get? handle) (e.entry? handle) := by
  rcases ofRegistry_eq_ok_iff.mp hr with ⟨resources, entries, -, hentries, -, rfl⟩
  exact rel_mono (fun _ _ ⟨_, h⟩ => compiled_of_compile h) (rel_compile hentries handle)

/-- A handle that schemas may refer to has a schema. -/
theorem get?_of_defined (hr : ofRegistry o r = .ok e) {handle : Nat}
    (h : e.context.defined[handle]?.getD false = true) : ∃ f, r.get? handle = some f := by
  rcases ofRegistry_eq_ok_iff.mp hr with ⟨resources, entries, -, -, -, rfl⟩
  have hflag : (r.definedFlags[handle]?).getD false = true := h
  rw [Registry.definedFlags, List.getElem?_map] at hflag
  unfold Registry.get?
  cases hentry : r.entries[handle]? with
  | none => simp [hentry] at hflag
  | some entry => exact Option.isSome_iff_exists.mp (by simpa [hentry] using hflag)

end HttpContract.Engine
