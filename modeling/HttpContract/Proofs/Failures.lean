import HttpContract.Proofs.Contexts
import HttpContract.Proofs.Pointwise

/-!
# What compilation fails with

Three recursions go through a schema: the strict check, planning, and the replacement of markers in
what plans do not follow. Each of them may fail at every schema it comes to. What is known of a
schema at its place often passes to the schemas inside it (`Spreads`); where it excludes an error at
the schema that it is known of, compilation of the whole does not fail with this error
(`Planning.avoids_compile`).
-/

namespace HttpContract

-- in a mutual block the linter sees only what a theorem itself uses
set_option linter.unusedSectionVars false

open Json.Pointer (child childIndex)

/-- The computation fails with no such error. -/
def Avoids {ε α : Type} (P : ε → Prop) (x : Except ε α) : Prop := ∀ e, x = .error e → ¬ P e

namespace Avoids

variable {ε α β : Type} {P : ε → Prop}

theorem ok (a : α) : Avoids P (.ok a : Except ε α) := by
  intro e h
  cases h

theorem error {e : ε} (h : ¬ P e) : Avoids P (.error e : Except ε α) := by
  intro e' heq
  obtain rfl := Except.error.inj heq
  exact h

theorem bind {x : Except ε α} {f : α → Except ε β} (h : Avoids P x)
    (hf : ∀ a, Avoids P (f a)) : Avoids P (x >>= f) := by
  intro e hbind
  cases x with
  | error e' => exact h e (congrArg Except.error (Except.error.inj hbind))
  | ok a => exact hf a e hbind

theorem map {x : Except ε α} (h : Avoids P x) (f : α → β) : Avoids P (x.map f) := by
  intro e hmap
  cases x with
  | error e' => exact h e (congrArg Except.error (Except.error.inj hmap))
  | ok a => cases hmap

theorem mapM {f : α → Except ε β} {xs : List α} (h : ∀ x ∈ xs, Avoids P (f x)) :
    Avoids P (xs.mapM f) := by
  intro e herror
  obtain ⟨x, hx, hfx⟩ := exists_of_mapM_eq_error herror
  exact h x hx e hfx

end Avoids

/-! ## What is known of schemas -/

/-- What is known of a document at a place is known of its parts at theirs. -/
structure Spreads (S : Json → String → Prop) : Prop where
  member : ∀ {members path}, S (.obj members) path → ∀ m ∈ members, S m.2 (child path m.1)
  item : ∀ {items path}, S (.arr items) path →
    ∀ i x, items[i]? = some x → S x (childIndex path i)

/-- What is known of a document at a place is known of the parts in which markers are replaced; data
is left alone. -/
structure SpreadsRewritten (S : Json → String → Prop) : Prop where
  member : ∀ {members path}, S (.obj members) path →
    ∀ m ∈ members, m.1 ∉ EvaluationForm.dataKeywords → S m.2 (child path m.1)
  item : ∀ {items path}, S (.arr items) path →
    ∀ i x, items[i]? = some x → S x (childIndex path i)

section

variable {S : Json → String → Prop} {path : String}

theorem Spreads.rewritten (hS : Spreads S) : SpreadsRewritten S where
  member h m hm _ := hS.member h m hm
  item := hS.item

/-- What is known of items, the first of which has an index. -/
def ItemsFrom (S : Json → String → Prop) (items : List Json) (path : String) (index : Nat) :
    Prop :=
  ∀ i x, items[i]? = some x → S x (childIndex path (index + i))

theorem SpreadsRewritten.items (hS : SpreadsRewritten S) {items : List Json}
    (h : S (.arr items) path) : ItemsFrom S items path 0 := by
  intro i x hi
  rw [Nat.zero_add]
  exact hS.item h i x hi

theorem ItemsFrom.head {items : List Json} {x : Json} {index : Nat}
    (h : ItemsFrom S (x :: items) path index) : S x (childIndex path index) :=
  h 0 x rfl

theorem ItemsFrom.tail {items : List Json} {x : Json} {index : Nat}
    (h : ItemsFrom S (x :: items) path index) : ItemsFrom S items path (index + 1) := by
  intro i y hi
  rw [Nat.add_right_comm]
  exact h (i + 1) y hi

/-- The schema that a marker carries is under the member of markers, which is no data. -/
theorem SpreadsRewritten.target (hS : SpreadsRewritten S) {members : Fields Json} {f : Fragment}
    (h : S (.obj members) path)
    (hmarker : Marker.ofMembers? members = some (.ok (.inline f))) :
    ∀ m ∈ members, S m.2 (child path Marker.key) := by
  obtain rfl := Planning.members_of_inline hmarker
  intro m hm
  obtain rfl := List.mem_singleton.mp hm
  exact hS.member h _ List.mem_cons_self (show Marker.key ∉ EvaluationForm.dataKeywords by decide)

end

/-! ## The strict check -/

namespace Keywords

/-- What is known of an object excludes errors at its unknown keywords. -/
def ExcludesUnknown (P : CompileError → Prop) (S : Json → String → Prop) : Prop :=
  ∀ members path k v, S (.obj members) path → (k, v) ∈ members → k ∉ known →
    ¬ P (.unknownKeyword k path)

/-- The members are some of those of an object that something is known of. -/
def Among (S : Json → String → Prop) (members : Fields Json) (path : String) : Prop :=
  ∃ all, S (.obj all) path ∧ members ⊆ all

theorem Among.tail {S : Json → String → Prop} {m : String × Json} {members : Fields Json}
    {path : String} (h : Among S (m :: members) path) : Among S members path := by
  obtain ⟨all, hall, hsub⟩ := h
  exact ⟨all, hall, fun x hx => hsub (List.mem_cons_of_mem _ hx)⟩

variable {P : CompileError → Prop} {S : Json → String → Prop} (hS : Spreads S)
  (hP : ExcludesUnknown P S)
include hS hP

mutual

theorem avoids_check : ∀ (schema : Json) (path : String), S schema path →
    Avoids P (check schema path)
  | .obj members, path, h => by
    rw [check]
    split
    · next hmarker => exact avoids_checkTarget members path (hS.rewritten.target h hmarker)
    · exact avoids_checkKeywords members path ⟨members, h, fun _ hm => hm⟩
  | .arr _, _, _ => .ok _
  | .null, _, _ => .ok _
  | .bool _, _, _ => .ok _
  | .num _, _, _ => .ok _
  | .str _, _, _ => .ok _
termination_by structural schema => schema

theorem avoids_checkTarget : ∀ (members : List (String × Json)) (path : String),
    (∀ m ∈ members, S m.2 (child path Marker.key)) → Avoids P (checkTarget members path)
  | [], _, _ => .ok _
  | (_, inner) :: _, _, h => avoids_check inner _ (h _ List.mem_cons_self)
termination_by structural members => members

theorem avoids_checkKeywords : ∀ (members : List (String × Json)) (path : String),
    Among S members path → Avoids P (checkKeywords members path)
  | [], _, _ => .ok _
  | (k, value) :: rest, path, h => by
    obtain ⟨all, hall, hsub⟩ := h
    have hmem : (k, value) ∈ all := hsub List.mem_cons_self
    rw [checkKeywords]
    split
    · exact (avoids_checkValue (contentOf k) value _ (hS.member hall _ hmem)).bind
        (fun _ => avoids_checkKeywords rest path (Among.tail ⟨all, hall, hsub⟩))
    · next hunknown =>
      rw [List.contains_iff_mem] at hunknown
      exact .error (hP all path k value hall hmem hunknown)
termination_by structural members => members

theorem avoids_checkValue : ∀ (content : Content) (value : Json) (path : String), S value path →
    Avoids P (checkValue content value path)
  | content, .obj members, path, h => by
    cases content with
    | schemaMap => exact avoids_checkMembers members path (hS.member h)
    | schemaList => exact .ok _
    | other => exact .ok _
    | schema =>
      rw [checkValue]
      split
      · next hmarker => exact avoids_checkTarget members path (hS.rewritten.target h hmarker)
      · exact avoids_checkKeywords members path ⟨members, h, fun _ hm => hm⟩
    | schemaOrList =>
      rw [checkValue]
      split
      · next hmarker => exact avoids_checkTarget members path (hS.rewritten.target h hmarker)
      · exact avoids_checkKeywords members path ⟨members, h, fun _ hm => hm⟩
  | content, .arr items, path, h => by
    cases content with
    | schemaList => exact avoids_checkItems items path 0 (hS.rewritten.items h)
    | schemaOrList => exact avoids_checkItems items path 0 (hS.rewritten.items h)
    | _ => exact .ok _
  | content, .null, _, _ => by cases content <;> exact .ok _
  | content, .bool _, _, _ => by cases content <;> exact .ok _
  | content, .num _, _, _ => by cases content <;> exact .ok _
  | content, .str _, _, _ => by cases content <;> exact .ok _
termination_by structural _ value => value

theorem avoids_checkMembers : ∀ (members : List (String × Json)) (path : String),
    (∀ m ∈ members, S m.2 (child path m.1)) → Avoids P (checkMembers members path)
  | [], _, _ => .ok _
  | (_, schema) :: rest, path, h =>
    (avoids_check schema _ (h _ List.mem_cons_self)).bind
      (fun _ => avoids_checkMembers rest path (List.forall_mem_cons.mp h).2)
termination_by structural members => members

theorem avoids_checkItems : ∀ (items : List Json) (path : String) (index : Nat),
    ItemsFrom S items path index → Avoids P (checkItems items path index)
  | [], _, _, _ => .ok _
  | schema :: rest, path, index, h =>
    (avoids_check schema _ h.head).bind (fun _ => avoids_checkItems rest path (index + 1) h.tail)
termination_by structural items => items

end

end Keywords

/-! ## Documents for evaluators -/

/-- What is known of schemas excludes errors at markers for handles without a schema, and no error
for schemas that are malformed is in question. -/
structure Excludes (defined : List Bool) (P : CompileError → Prop) (S : Json → String → Prop) :
    Prop where
  undefinedReference : ∀ {members path handle}, S (.obj members) path →
    Marker.ofMembers? members = some (.ok (.deferred handle)) →
      defined[handle]?.getD false = false → ¬ P (.undefinedReference handle path)
  invalidSchema : ∀ path reason, ¬ P (.invalidSchema path reason)

namespace EvaluationForm

variable {defined : List Bool} {P : CompileError → Prop} {S : Json → String → Prop}

theorem avoids_requireDefined (hP : Excludes defined P S) {members : Fields Json} {handle : Nat}
    {path : String} (h : S (.obj members) path)
    (hmarker : Marker.ofMembers? members = some (.ok (.deferred handle))) :
    Avoids P (requireDefined defined handle path) := by
  unfold requireDefined
  split
  · exact .ok _
  · next hundefined =>
    rw [Bool.not_eq_true] at hundefined
    exact .error (hP.undefinedReference h hmarker hundefined)

variable (hS : SpreadsRewritten S) (hP : Excludes defined P S)
include hS hP

mutual

theorem avoids_rewrite : ∀ (v : Json) (path : String) (inPlace : Bool), S v path →
    Avoids P (rewrite defined v path inPlace)
  | .obj members, path, inPlace, h => by
    rw [rewrite]
    cases hmarker : Marker.ofMembers? members with
    | none => exact (avoids_rewriteMembers members path inPlace (hS.member h)).bind (fun _ => .ok _)
    | some m =>
      cases m with
      | error e => exact .error (hP.invalidSchema _ _)
      | ok marker =>
        cases marker with
        | inline f => exact avoids_rewriteTarget members path inPlace (hS.target h hmarker)
        | deferred handle => exact (avoids_requireDefined hP h hmarker).bind (fun _ => .ok _)
  | .arr items, path, inPlace, h => by
    rw [rewrite]
    exact (avoids_rewriteItems items path 0 inPlace (hS.items h)).bind (fun _ => .ok _)
  | .null, _, _, _ => .ok _
  | .bool _, _, _, _ => .ok _
  | .num _, _, _, _ => .ok _
  | .str _, _, _, _ => .ok _
termination_by structural v => v

theorem avoids_rewriteTarget : ∀ (members : List (String × Json)) (path : String)
    (inPlace : Bool), (∀ m ∈ members, S m.2 (child path Marker.key)) →
      Avoids P (rewriteTarget defined members path inPlace)
  | [], _, _, _ => .ok _
  | (_, inner) :: _, _, inPlace, h => avoids_rewrite inner _ inPlace (h _ List.mem_cons_self)
termination_by structural members => members

theorem avoids_rewriteMembers : ∀ (members : List (String × Json)) (path : String)
    (inPlace : Bool),
    (∀ m ∈ members, m.1 ∉ dataKeywords → S m.2 (child path m.1)) →
      Avoids P (rewriteMembers defined members path inPlace)
  | [], _, _, _ => .ok _
  | (key, value) :: rest, path, inPlace, h => by
    have hrest := avoids_rewriteMembers rest path inPlace (List.forall_mem_cons.mp h).2
    rw [rewriteMembers]
    split
    · exact hrest.bind (fun _ => .ok _)
    · next hdata =>
      rw [List.contains_iff_mem] at hdata
      exact (avoids_rewrite value _ _ (h _ List.mem_cons_self hdata)).bind
        (fun _ => hrest.bind (fun _ => .ok _))
termination_by structural members => members

theorem avoids_rewriteItems : ∀ (items : List Json) (path : String) (index : Nat)
    (inPlace : Bool), ItemsFrom S items path index →
      Avoids P (rewriteItems defined items path index inPlace)
  | [], _, _, _, _ => .ok _
  | item :: rest, path, index, inPlace, h => by
    rw [rewriteItems]
    exact (avoids_rewrite item _ inPlace h.head).bind (fun _ =>
      (avoids_rewriteItems rest path (index + 1) inPlace h.tail).bind (fun _ => .ok _))
termination_by structural items => items

end

end EvaluationForm

/-! ## Plans -/

namespace Planning

variable {c : Context} {P : CompileError → Prop} {S : Json → String → Prop}

theorem avoids_evaluator (hP : Excludes c.defined P S) (document : Json) (path : String) :
    Avoids P (evaluator c document path) := by
  unfold evaluator
  split
  · exact .ok _
  · exact .error (hP.invalidSchema _ _)

theorem avoids_requirePattern (hP : Excludes c.defined P S) (source path : String) :
    Avoids P (requirePattern source path) := by
  unfold requirePattern
  split
  · exact .ok _
  · exact .error (hP.invalidSchema _ _)

/-- What is known of the value of a keyword: `T` of the schemas in it that plans follow, and `S` of
the whole where the markers in it are replaced. An object of properties is not a schema itself, even
if its only property has the name of the member of markers. -/
structure Covers (T S : Json → String → Prop) (k : String) (v : Json) (here : String) : Prop where
  single : k ∈ ["additionalProperties", "items"] → T v here
  listed : k ∈ ["items", "prefixItems", "allOf"] → ∀ xs, v = .arr xs → ItemsFrom T xs here 0
  named : k ∈ ["properties", "patternProperties"] → ∀ members, v = .obj members →
    ∀ m ∈ members, T m.2 (child here m.1)
  other : role k = .other → S v here

/-- What is known of a schema at a place is known of what its keywords hold, and of the schema that
a marker carries. -/
structure SpreadsPlanned (T S : Json → String → Prop) : Prop where
  keyword : ∀ {members path}, T (.obj members) path → Marker.ofMembers? members = none →
    ∀ m ∈ members, Covers T S m.1 m.2 (child path m.1)
  target : ∀ {members path f}, T (.obj members) path →
    Marker.ofMembers? members = some (.ok (.inline f)) →
      ∀ m ∈ members, T m.2 (child path Marker.key)
  rewritten : SpreadsRewritten S

/-- What is known of all parts is known of the value of a keyword, whichever it is. -/
theorem covers_of_spreads (hS : Spreads S) {k : String} {v : Json} {here : String}
    (h : S v here) : Covers S S k v here where
  single _ := h
  listed _ := by
    rintro xs rfl
    exact hS.rewritten.items h
  named _ := by
    rintro members rfl
    exact hS.member h
  other _ := h

theorem spreadsPlanned_of_spreads (hS : Spreads S) : SpreadsPlanned S S where
  keyword h _ m hm := covers_of_spreads hS (hS.member h m hm)
  target := hS.rewritten.target
  rewritten := hS.rewritten

variable {T : Json → String → Prop} (hS : SpreadsPlanned T S) (hT : Excludes c.defined P T)
  (hP : Excludes c.defined P S)
include hS hT hP

omit hT in
theorem avoids_keyword {k : String} {v : Json} {here : String} {r : Readings}
    (hv : Covers T S k v here) (hnode : T v here → Avoids P (r.node ()))
    (hentries : (∀ members, v = .obj members → ∀ m ∈ members, T m.2 (child here m.1)) →
      ∀ patterns reason, Avoids P (r.entries patterns reason))
    (hlist : (∀ xs, v = .arr xs → ItemsFrom T xs here 0) → Avoids P (r.list ()))
    (plan : Plan Node) : Avoids P (keyword c k v here r plan) := by
  unfold keyword
  split
  · split
    · exact .ok _
    · exact .error (hP.invalidSchema _ _)
  · exact .ok _
  · exact .ok _
  · exact (hentries (hv.named (by decide)) _ _).bind (fun _ => .ok _)
  · exact (hentries (hv.named (by decide)) _ _).bind (fun _ => .ok _)
  · split
    · exact .ok _
    · exact .ok _
    · exact (hnode (hv.single (by decide))).bind (fun _ => .ok _)
  · split
    · exact (hlist (hv.listed (by decide))).bind (fun _ => .ok _)
    · exact (hnode (hv.single (by decide))).bind (fun _ => .ok _)
  · exact (hlist (hv.listed (by decide))).bind (fun _ => .ok _)
  · exact (hlist (hv.listed (by decide))).bind (fun _ => .ok _)
  · split
    · exact .ok _
    · next hdata =>
      have hrole : role k = .other := by
        unfold role
        split <;> first | contradiction | exact if_neg hdata
      exact (EvaluationForm.avoids_rewrite hS.rewritten hP v _ _ (hv.other hrole)).bind
        (fun _ => .ok _)

mutual

theorem avoids_node : ∀ (v : Json) (path : String), T v path → Avoids P (node c v path)
  | .bool _, _, _ => .ok _
  | .obj members, path, h => by
    rw [node]
    cases hmarker : Marker.ofMembers? members with
    | none =>
      exact (avoids_keywords members path Plan.empty (hS.keyword h hmarker)).bind (fun _ => .ok _)
    | some m =>
      cases m with
      | error e => exact .error (hP.invalidSchema _ _)
      | ok marker =>
        cases marker with
        | inline f => exact avoids_target members _ (hS.target h hmarker)
        | deferred handle =>
          exact (EvaluationForm.avoids_requireDefined hT h hmarker).bind (fun _ => .ok _)
  | .arr _, _, _ => .error (hP.invalidSchema _ _)
  | .null, _, _ => .error (hP.invalidSchema _ _)
  | .num _, _, _ => .error (hP.invalidSchema _ _)
  | .str _, _, _ => .error (hP.invalidSchema _ _)
termination_by structural v => v

theorem avoids_target : ∀ (members : List (String × Json)) (path : String),
    (∀ m ∈ members, T m.2 path) → Avoids P (target c members path)
  | [], _, _ => .error (hP.invalidSchema _ _)
  | (_, inner) :: _, path, h => by
    rw [target]
    exact (avoids_node inner path (h _ List.mem_cons_self)).bind (fun _ =>
      (avoids_evaluator hP _ path).bind (fun _ => .ok _))
termination_by structural members => members

theorem avoids_keywords : ∀ (members : List (String × Json)) (path : String)
    (plan : Plan Node), (∀ m ∈ members, Covers T S m.1 m.2 (child path m.1)) →
      Avoids P (keywords c members path plan)
  | [], _, _, _ => .ok _
  | (k, v) :: rest, path, plan, h => by
    rw [keywords]
    refine (avoids_keyword hS hP (h _ List.mem_cons_self) (avoids_node v _)
      (fun hmembers patterns reason => avoids_entries v patterns reason _ hmembers)
      (avoids_list v _) plan).bind (fun _ => ?_)
    exact (avoids_keywords rest path _ (List.forall_mem_cons.mp h).2).bind (fun _ => .ok _)
termination_by structural members => members

theorem avoids_entries : ∀ (v : Json) (patterns : Bool) (reason : InvalidReason)
    (here : String), (∀ members, v = .obj members → ∀ m ∈ members, T m.2 (child here m.1)) →
      Avoids P (entries c v patterns reason here)
  | .obj members, patterns, _, here, h => by
    rw [entries]
    exact (avoids_memberNodes members patterns here (h members rfl)).bind (fun _ => .ok _)
  | .arr _, _, _, _, _ => .error (hP.invalidSchema _ _)
  | .null, _, _, _, _ => .error (hP.invalidSchema _ _)
  | .bool _, _, _, _, _ => .error (hP.invalidSchema _ _)
  | .num _, _, _, _, _ => .error (hP.invalidSchema _ _)
  | .str _, _, _, _, _ => .error (hP.invalidSchema _ _)
termination_by structural v => v

theorem avoids_memberNodes : ∀ (members : List (String × Json)) (patterns : Bool)
    (here : String), (∀ m ∈ members, T m.2 (child here m.1)) →
      Avoids P (memberNodes c members patterns here)
  | [], _, _, _ => .ok _
  | (name, v) :: rest, patterns, here, h => by
    rw [memberNodes]
    have hmember : Avoids P _ := (avoids_node v (child here name) (h _ List.mem_cons_self)).bind
      (fun x => (avoids_memberNodes rest patterns here (List.forall_mem_cons.mp h).2).bind
        (fun y => .ok ((name, x.1) :: y.1, (name, x.2) :: y.2)))
    dsimp only
    split
    · exact (avoids_requirePattern hP name _).bind (fun _ => hmember)
    · exact hmember
termination_by structural members => members

theorem avoids_list : ∀ (v : Json) (here : String),
    (∀ xs, v = .arr xs → ItemsFrom T xs here 0) → Avoids P (list c v here)
  | .arr items, here, h => by
    rw [list]
    exact (avoids_itemNodes items here 0 (h items rfl)).bind (fun _ => .ok _)
  | .obj _, _, _ => .error (hP.invalidSchema _ _)
  | .null, _, _ => .error (hP.invalidSchema _ _)
  | .bool _, _, _ => .error (hP.invalidSchema _ _)
  | .num _, _, _ => .error (hP.invalidSchema _ _)
  | .str _, _, _ => .error (hP.invalidSchema _ _)
termination_by structural v => v

theorem avoids_itemNodes : ∀ (items : List Json) (here : String) (index : Nat),
    ItemsFrom T items here index → Avoids P (itemNodes c items here index)
  | [], _, _, _ => .ok _
  | v :: rest, here, index, h => by
    rw [itemNodes]
    exact (avoids_node v _ h.head).bind (fun _ =>
      (avoids_itemNodes rest here (index + 1) h.tail).bind (fun _ => .ok _))
termination_by structural items => items

end

omit hS hT in
/-- Beyond planning only the strict check finds errors. -/
theorem avoids_compile {o : Options} {schema : Json} {path : String}
    (hcheck : Avoids P (Keywords.check schema path)) (hnode : Avoids P (node c schema path)) :
    Avoids P (compile c o schema path) := by
  have hunchecked : Avoids P (compileUnchecked c schema path) :=
    hnode.bind (fun _ => (avoids_evaluator hP _ path).bind (fun _ => .ok _))
  unfold compile
  split
  · exact hcheck.bind (fun _ => hunchecked)
  · exact hunchecked

end Planning

/-! ## Registries -/

theorem Registry.exists_get?_of_mem {r : Registry} {entry : Entry} (hmem : entry ∈ r.entries)
    {f : Fragment} (hf : entry.schema = some f) : ∃ handle, r.get? handle = some f := by
  obtain ⟨handle, hhandle⟩ := List.mem_iff_getElem?.mp hmem
  exact ⟨handle, by rw [get?, hhandle, Option.bind_some, hf]⟩

namespace Engine

/-- Freezing a registry fails with no error that is excluded at each of its entries, for any
documents that evaluators can refer to, if cycles are not in question. -/
theorem avoids_ofRegistry {P : CompileError → Prop} {o : Options} {r : Registry}
    (hrewrite : ∀ entry ∈ r.entries, ∀ f, entry.schema = some f →
      Avoids P (EvaluationForm.rewrite r.definedFlags f.document (entryPath entry) false))
    (hcompile : ∀ c : Planning.Context, c.defined = r.definedFlags → ∀ entry ∈ r.entries, ∀ f,
      entry.schema = some f → Avoids P (Planning.compile c o f.document (entryPath entry)))
    (hcycle : ∀ name, ¬ P (.referenceCycle name)) : Avoids P (ofRegistry o r) := by
  have hresources : ∀ x ∈ numbered r, Avoids P (resourceOf r.definedFlags x.1 x.2) := by
    intro x hx
    unfold resourceOf
    split
    · exact .ok _
    · next f hf => exact (hrewrite x.2 (List.of_mem_zip hx).2 f hf).bind (fun _ => .ok _)
  have hentries : ∀ c : Planning.Context, c.defined = r.definedFlags → ∀ entry ∈ r.entries,
      Avoids P (entryOf c o entry) := by
    intro c hc entry hmem
    unfold entryOf
    split
    · exact .ok _
    · next f hf => exact (hcompile c hc entry hmem f hf).map _
  unfold ofRegistry
  refine (Avoids.mapM hresources).bind (fun resources => ?_)
  refine (Avoids.mapM (hentries _ rfl)).bind (fun entries => ?_)
  split
  · exact .error (hcycle _)
  · exact .ok _

end Engine

end HttpContract
