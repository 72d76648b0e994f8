import HttpContract.Proofs.Agreement
import HttpContract.Proofs.Building
import HttpContract.Proofs.Positions

/-!
# Strict mode

In strict mode the keywords of a schema are checked in one traversal from its root. Planning goes
through the schema a second time and compiles what markers carry without another check, and
evaluators read all that plans do not follow. The traversal has been everywhere they come to: where
a schema compiles, it and the registered schemas have known keywords only, at every depth, and every
plan that can be reached belongs to a part of one of them (`Engine.vetted_of_strict`).
-/

namespace HttpContract.Keywords

open Json.Pointer (child)
open Planning (Inside Slot members_of_inline)

/-! ## The parts of a schema -/

/-- The keywords that hold a schema that plans do not follow. -/
def asideSchemas : List String :=
  ["not", "if", "then", "else", "contains", "propertyNames", "additionalItems", "unevaluatedItems",
    "unevaluatedProperties", "contentSchema"]

/-- The keywords that hold a list of schemas that plans do not follow. -/
def asideLists : List String := ["anyOf", "oneOf"]

/-- The keywords that hold schemas under names, and plans do not follow these. -/
def asideMaps : List String := ["dependentSchemas", "$defs", "definitions"]

/-- The schemas in a schema that plans do not follow: evaluators read them, or references in the
schema lead to them. -/
def Aside : Fields Json → Json → Prop := Evaluation.Under asideSchemas asideLists asideMaps

/-- The schema `t` is a part of the schema `d`, or the one that the marker `d` carries. -/
inductive Part : Json → Json → Prop where
  | followed {d t : Json} (h : Inside d t) : Part d t
  | aside {members : Fields Json} {t : Json} (h : Aside members t) : Part (.obj members) t

/-- The schema is one of those given, or a part of one of them at any depth. -/
def Occurs (given : Json → Prop) (t : Json) : Prop :=
  ∃ d, given d ∧ Relation.ReflTransGen Part d t

theorem Occurs.of_given {given : Json → Prop} {d : Json} (h : given d) : Occurs given d :=
  ⟨d, h, .refl⟩

theorem Occurs.part {given : Json → Prop} {d t : Json} (h : Occurs given d) (hpart : Part d t) :
    Occurs given t := by
  obtain ⟨root, hroot, hsteps⟩ := h
  exact ⟨root, hroot, hsteps.tail hpart⟩

/-! ## What has passed the check -/

/-- The check succeeds for the schema, at some place. -/
def Passes (d : Json) : Prop := ∃ path, check d path = .ok ()

variable {members : Fields Json} {path : String} {k : String} {t : Json}

theorem mem_of_checkKeywords (h : checkKeywords members path = .ok ()) :
    ∀ m ∈ members, m.1 ∈ known ∧ checkValue (contentOf m.1) m.2 (child path m.1) = .ok () := by
  induction members with
  | nil =>
    intro m hm
    cases hm
  | cons m rest ih =>
    intro x hx
    rw [checkKeywords] at h
    split at h
    · next hknown =>
      obtain ⟨_, hvalue, hrest⟩ := bind_eq_ok h
      rcases List.mem_cons.mp hx with rfl | hx
      · exact ⟨List.contains_iff_mem.mp hknown, hvalue⟩
      · exact ih hrest x hx
    · cases h

theorem passes_of_checkItems {index : Nat} {xs : List Json}
    (h : checkItems xs path index = .ok ()) : ∀ x ∈ xs, Passes x := by
  induction xs generalizing index with
  | nil =>
    intro x hx
    cases hx
  | cons y rest ih =>
    intro x hx
    rw [checkItems] at h
    obtain ⟨_, hy, hrest⟩ := bind_eq_ok h
    rcases List.mem_cons.mp hx with rfl | hx
    · exact ⟨_, hy⟩
    · exact ih hrest x hx

theorem passes_of_checkMembers (h : checkMembers members path = .ok ()) :
    ∀ m ∈ members, Passes m.2 := by
  induction members with
  | nil =>
    intro m hm
    cases hm
  | cons m rest ih =>
    intro x hx
    rw [checkMembers] at h
    obtain ⟨_, hm, hrest⟩ := bind_eq_ok h
    rcases List.mem_cons.mp hx with rfl | hx
    · exact ⟨_, hm⟩
    · exact ih hrest x hx

/-- Where a keyword holds a schema, this is checked as any other. -/
theorem checkValue_schema (d : Json) (path : String) :
    checkValue .schema d path = check d path := by
  cases d <;> rfl

theorem checkValue_other (d : Json) (path : String) : checkValue .other d path = .ok () := by
  cases d <;> rfl

/-- All keywords of a schema that passes are known, and their values pass. Markers are no exception:
theirs is a known keyword that holds nothing to check. -/
theorem Passes.keywords (h : Passes (.obj members)) : ∀ m ∈ members,
    m.1 ∈ known ∧ ∃ path, checkValue (contentOf m.1) m.2 path = .ok () := by
  obtain ⟨path, h⟩ := h
  intro m hm
  rw [check] at h
  split at h
  · next hmarker =>
    -- the check goes on with the schema that is carried and does not look at the member itself
    have hknown : Marker.key ∈ known := by decide
    have hcontent : contentOf Marker.key = .other := by decide
    rw [members_of_inline hmarker] at hm
    obtain rfl := List.mem_singleton.mp hm
    refine ⟨hknown, path, ?_⟩
    rw [hcontent]
    exact checkValue_other _ path
  · obtain ⟨hknown, hvalue⟩ := mem_of_checkKeywords h m hm
    exact ⟨hknown, _, hvalue⟩

theorem Passes.single (h : Passes (.obj members)) (hk : contentOf k = .schema)
    (hm : (k, t) ∈ members) : Passes t := by
  obtain ⟨-, path, hvalue⟩ := h.keywords _ hm
  rw [hk, checkValue_schema] at hvalue
  exact ⟨path, hvalue⟩

theorem Passes.listed {xs : List Json} (h : Passes (.obj members))
    (hk : contentOf k = .schemaList ∨ contentOf k = .schemaOrList)
    (hm : (k, .arr xs) ∈ members) (ht : t ∈ xs) : Passes t := by
  obtain ⟨-, path, hvalue⟩ := h.keywords _ hm
  have hitems : checkItems xs path 0 = .ok () := by
    rcases hk with hk | hk
    · rw [hk] at hvalue
      exact hvalue
    · rw [hk] at hvalue
      exact hvalue
  exact passes_of_checkItems hitems t ht

theorem Passes.named {ss : Fields Json} {name : String} (h : Passes (.obj members))
    (hk : contentOf k = .schemaMap) (hm : (k, .obj ss) ∈ members) (ht : (name, t) ∈ ss) :
    Passes t := by
  obtain ⟨-, path, hvalue⟩ := h.keywords _ hm
  rw [hk] at hvalue
  exact passes_of_checkMembers hvalue _ ht

/-- Where a keyword may hold a list instead of a schema, no list is taken for one. -/
theorem Passes.either (h : Passes (.obj members)) (hk : contentOf k = .schemaOrList)
    (hm : (k, t) ∈ members) : Passes t := by
  obtain ⟨-, path, hvalue⟩ := h.keywords _ hm
  rw [hk] at hvalue
  cases t with
  | obj inner => exact ⟨path, hvalue⟩
  | _ => exact ⟨path, rfl⟩

theorem Passes.target (h : Passes (.obj [(Marker.key, t)])) : Passes t := by
  cases t with
  | obj inner =>
    obtain ⟨path, h⟩ := h
    exact ⟨child path Marker.key, h⟩
  | _ => exact ⟨"", rfl⟩

/-- The check looks into every keyword that plans follow. -/
theorem Passes.slot {slot : Slot} (h : Passes (.obj members))
    (hm : (slot.keyword, slot.value t) ∈ members) : Passes t := by
  cases slot with
  | property before name after =>
    exact h.named (k := "properties") (by decide) hm List.mem_append_cons_self
  | pattern before source after =>
    exact h.named (k := "patternProperties") (by decide) hm List.mem_append_cons_self
  | additional => exact h.single (k := "additionalProperties") (by decide) hm
  | items => exact h.either (k := "items") (by decide) hm
  | itemList before after =>
    exact h.listed (k := "items") (Or.inr (by decide)) hm List.mem_append_cons_self
  | leading before after =>
    exact h.listed (k := "prefixItems") (Or.inl (by decide)) hm List.mem_append_cons_self
  | branch before after =>
    exact h.listed (k := "allOf") (Or.inl (by decide)) hm List.mem_append_cons_self

theorem contentOf_asideSchemas : ∀ k ∈ asideSchemas, contentOf k = .schema := by
  decide

theorem contentOf_asideLists : ∀ k ∈ asideLists, contentOf k = .schemaList := by
  decide

theorem contentOf_asideMaps : ∀ k ∈ asideMaps, contentOf k = .schemaMap := by
  decide

/-- It looks into the others that hold schemas, too. -/
theorem Passes.aside (h : Passes (.obj members)) (ht : Aside members t) : Passes t := by
  cases ht with
  | single hk hs => exact h.single (contentOf_asideSchemas _ hk) hs
  | listed hk hxs hs => exact h.listed (Or.inl (contentOf_asideLists _ hk)) hxs hs
  | named hk hss hs => exact h.named (contentOf_asideMaps _ hk) hss hs

/-- What has passed the check has done so with all its parts. -/
theorem Passes.part {d : Json} (h : Passes d) (hpart : Part d t) : Passes t := by
  cases hpart with
  | followed hinside =>
    obtain ⟨frame, hd⟩ := hinside
    subst hd
    cases frame with
    | keyword slot left right =>
      exact h.slot List.mem_append_cons_self
    | target => exact h.target
  | aside ht => exact h.aside ht

theorem Passes.of_occurs {given : Json → Prop} (hgiven : ∀ d, given d → Passes d)
    (h : Occurs given t) : Passes t := by
  obtain ⟨d, hd, hsteps⟩ := h
  induction hsteps with
  | refl => exact hgiven d hd
  | tail _ hpart ih => exact ih.part hpart

end HttpContract.Keywords

namespace HttpContract

open Keywords (Occurs)

theorem Planning.check_of_compile {c : Context} {o : Options} {d : Json} {path : String}
    {s : CompiledSchema} (h : compile c o d path = .ok s) (hstrict : o.strict = true) :
    Keywords.check d path = .ok () := by
  unfold compile at h
  rw [if_pos hstrict] at h
  obtain ⟨_, hcheck, -⟩ := bind_eq_ok h
  exact hcheck

namespace Engine

open Planning Normalization

variable {o : Options} {r : Registry} {e : Engine}

/-- The documents of the registered schemas. -/
def Registered (r : Registry) (d : Json) : Prop :=
  ∃ handle g, r.get? handle = some g ∧ d = g.document

/-- The document of the fragment, and those of the registered schemas. -/
def Supplied (r : Registry) (f : Fragment) (d : Json) : Prop := d = f.document ∨ Registered r d

/-- Every plan that is reached from the node belongs to one of the given schemas or to a part of
one, and all these have known keywords only. -/
structure Vetted (e : Engine) (given : Json → Prop) (n : Node) : Prop where
  planned : ∀ p, Reaches e n (.plan p) → Belongs e (Occurs given) (.plan p)
  known : ∀ members, Occurs given (.obj members) → ∀ m ∈ members, m.1 ∈ Keywords.known

theorem inherited_occurs {given : Json → Prop} (h : ∀ d, Registered r d → given d) :
    Inherited r (Occurs given) where
  inside _ _ hd hinside := hd.part (.followed hinside)
  registry handle g hg := .of_given (h _ ⟨handle, g, hg, rfl⟩)

/-- In strict mode all registered schemas have passed the check. -/
theorem passes_of_registered (hr : ofRegistry o r = .ok e) (hstrict : o.strict = true) {d : Json}
    (h : Registered r d) : Keywords.Passes d := by
  obtain ⟨handle, g, hg, rfl⟩ := h
  obtain ⟨resources, entries, -, hentries, -, rfl⟩ := ofRegistry_eq_ok_iff.mp hr
  have hrel := rel_compile hentries handle
  rw [hg] at hrel
  generalize (entries[handle]?).bind id = x at hrel
  cases hrel with
  | some hcompile =>
    obtain ⟨path, hcompile⟩ := hcompile
    exact ⟨path, check_of_compile hcompile hstrict⟩

theorem vetted_of_compiled (hr : ofRegistry o r = .ok e) {given : Json → Prop}
    (hregistry : ∀ d, Registered r d → given d) (hpasses : ∀ d, given d → Keywords.Passes d)
    {d : Json} {s : CompiledSchema} (hd : given d) (hs : Compiled e.context d s) :
    Vetted e given s.root where
  planned p hp := by
    obtain ⟨document, hplans, -⟩ := hs
    exact belongs_of_reaches hr (inherited_occurs hregistry) ⟨d, document, .of_given hd, hplans⟩ hp
  known members hmembers m hm := ((Keywords.Passes.of_occurs hpasses hmembers).keywords m hm).1

/-- In strict mode everything that is compiled is vetted: what the handles of an accepted registry
stand for, by the registered schemas, and what fragments are compiled to, by these and the
fragment. -/
theorem vetted_of_strict (hr : ofRegistry o r = .ok e) (hstrict : o.strict = true) :
    (∀ handle s, e.entry? handle = some s → Vetted e (Registered r) s.root) ∧
      ∀ f s, e.compile f = .ok s → Vetted e (Supplied r f) s.root := by
  have hregistered : ∀ d, Registered r d → Keywords.Passes d := by
    intro d hd
    exact passes_of_registered hr hstrict hd
  constructor
  · intro handle s hs
    have hentry := rel_entry? hr handle
    rw [hs] at hentry
    generalize hget : r.get? handle = x at hentry
    cases hentry with
    | some hcompiled =>
      exact vetted_of_compiled hr (fun _ hd => hd) hregistered ⟨handle, _, hget, rfl⟩ hcompiled
  · intro f s hs
    have hpasses : ∀ d, Supplied r f d → Keywords.Passes d := by
      intro d hd
      rcases hd with rfl | hd
      · have ho : e.options.strict = true := (ofRegistry_eq_ok hr).1 ▸ hstrict
        exact ⟨"", check_of_compile hs ho⟩
      · exact hregistered d hd
    exact vetted_of_compiled hr (fun _ hd => Or.inr hd) hpasses (Or.inl rfl)
      (compiled_of_compile hs)

/-- The options with which unknown keywords are rejected. -/
def strictly : Options := { Options.standard with strict := true }

/-- A schema with a part that plans do not follow. -/
def residual : Fragment := .ofMembers [("unevaluatedProperties", .obj [("type", .str "string")])]

/-- A marker that carries the schema. -/
def carrier : Fragment := ⟨(Marker.inline residual).toJson, rfl⟩

/-- Plans do not follow the part, and compile what the marker carries without checking it; the
check has been there. -/
theorem vetted_carrier : ofRegistry strictly .empty = .ok (ofOptions strictly) ∧
    strictly.strict = true ∧ ∃ s, (ofOptions strictly).compile carrier = .ok s ∧
      Vetted (ofOptions strictly) (Supplied .empty carrier) s.root ∧
      Occurs (Supplied .empty carrier) (.obj [("type", .str "string")]) := by
  have hbasic : Basic residual.document :=
    .single (.unevaluatedProperties (.single (.type .string)))
  have hplan : node (ofOptions strictly).context residual.document
      (Json.Pointer.child "" Marker.key) = .ok (.plan Plan.empty, residual.document) := rfl
  obtain ⟨l, hnode⟩ := node_inline_of_basic (ofOptions strictly).context residual hplan hbasic
    (fun _ hmem => absurd hmem List.not_mem_nil)
  obtain ⟨l', hs⟩ := compile_of_basic strictly carrier rfl hnode (.bool true)
  have hvetted := (vetted_of_strict (ofRegistry_empty strictly) rfl).2 carrier _ hs
  refine ⟨ofRegistry_empty strictly, rfl, _, hs, hvetted, ?_⟩
  have hcarried : Occurs (Supplied .empty carrier) residual.document :=
    (Occurs.of_given (Or.inl rfl)).part (.followed ⟨.target, rfl⟩)
  exact hcarried.part (.aside (.single (k := "unevaluatedProperties") (by decide)
    List.mem_cons_self))

end Engine

end HttpContract
