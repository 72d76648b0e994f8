import HttpContract.Proofs.Approval
import HttpContract.Proofs.Endorsement
import HttpContract.Proofs.RenumberedEngines

/-!
# The order of declarations

Names that are declared in another order get other handles. The registry is frozen all the same, and
what is compiled against it validates and renders every value alike, if the markers are renumbered
(`Engine.same_of_renumbered`).
-/

namespace HttpContract

open EvaluationForm Library Json Identifier

variable {π : Nat → Nat}

/-- A fragment that does not name the identifiers of handles itself, and whose markers stand apart
from data: from the data of the schemas that planning comes to, from whatever stands under `const`
or `enum`, and from what stands under a keyword for data in what is handed over to evaluators. -/
structure Fragment.Movable (f : Fragment) : Prop where
  ordered : f.document.Ordered
  foreign : Foreign f.document
  fixed : UnmarkedUnder ["const", "enum"] f.document
  data : Throughout Parted f.document

namespace Engine

variable {e e' : Engine} {r r' : Registry}

theorem alike_compile (h : e.Renumbered π e') {f f' : Fragment}
    (hf : HttpContract.Renumbered π f.document f'.document) (hmovable : f.Movable) :
    Alike (CompiledSchema.Alike (Counterpart π e.context.defined)) (e.compile f)
      (e'.compile f') := by
  unfold compile
  rw [← h.options]
  exact Planning.alike_compile h.context e.options "" hf hmovable.ordered hmovable.foreign
    hmovable.fixed hmovable.data

/-- The order of declarations does not matter. -/
theorem same_of_renumbered (h : r.Renumbered π r') (hr : r.Movable) (o : Options) :
    ((∃ e, ofRegistry o r = .ok e) ↔ ∃ e', ofRegistry o r' = .ok e') ∧
      ∀ e e', ofRegistry o r = .ok e → ofRegistry o r' = .ok e' →
        ∀ f f' : Fragment, HttpContract.Renumbered π f.document f'.document → f.Movable →
          ((∃ s, e.compile f = .ok s) ↔ ∃ s', e'.compile f' = .ok s') ∧
            ∀ s s', e.compile f = .ok s → e'.compile f' = .ok s' → ∀ v,
              (e.validate s v).verdict.success = (e'.validate s' v).verdict.success ∧
                (e.validate s v).value = (e'.validate s' v).value ∧
                  e.stringify s v = e'.stringify s' v := by
  have hengines := alike_ofRegistry h hr o
  refine ⟨hengines.exists_iff, fun e e' he he' f f' hf hmovable => ?_⟩
  have hrenumbered : e.Renumbered π e' := hengines.of_eq_ok he he'
  have hcompile := alike_compile hrenumbered hf hmovable
  refine ⟨hcompile.exists_iff, fun s s' hs hs' v => ?_⟩
  have halike := hcompile.of_eq_ok hs hs'
  obtain ⟨hvalue, hsuccess⟩ := hrenumbered.lockstep.validate (ofRegistry_eq_ok he).2
    (ofRegistry_eq_ok he').2 halike v
  refine ⟨hsuccess, hvalue, ?_⟩
  rw [stringify_eq, stringify_eq,
    render_of_corresponds hrenumbered.lockstep.corresponds halike.root]

/-! ## Two names in both orders -/

theorem mapM_pair {ε α β : Type} {f : α → Except ε β} {a b : α} {x y : β} (ha : f a = .ok x)
    (hb : f b = .ok y) : [a, b].mapM f = .ok [x, y] := by
  rw [List.mapM_cons, List.mapM_cons, ha]
  show ((f b >>= fun _ => _) >>= fun _ => _) = _
  rw [hb]
  rfl

/-- Registries of two names. -/
theorem ofRegistry_pair {o : Options} {a b : Registry.Entry} {flags : List Bool}
    {ra rb : Option Resource} {sa sb : Option CompiledSchema}
    (hflags : (⟨[a, b]⟩ : Registry).definedFlags = flags) (hra : resourceOf flags 0 a = .ok ra)
    (hrb : resourceOf flags 1 b = .ok rb)
    (hsa : entryOf ⟨flags, [ra, rb].filterMap id⟩ o a = .ok sa)
    (hsb : entryOf ⟨flags, [ra, rb].filterMap id⟩ o b = .ok sb) (hcycle : cycle? [sa, sb] = none) :
    ofRegistry o ⟨[a, b]⟩ = .ok ⟨o, ⟨flags, [ra, rb].filterMap id⟩, [sa, sb]⟩ := by
  subst hflags
  have hnumbered : numbered ⟨[a, b]⟩ = [(0, a), (1, b)] := rfl
  refine ofRegistry_eq_ok_iff.mpr ⟨[ra, rb], [sa, sb], ?_, mapM_pair hsa hsb, hcycle, rfl⟩
  rw [hnumbered]
  exact mapM_pair hra hrb

theorem entryOf_of_compile {c : Planning.Context} {o : Options} {name : String} {f : Fragment}
    {s : CompiledSchema} (h : Planning.compile c o f.document (name ++ "#") = .ok s) :
    entryOf c o ⟨name, some f⟩ = .ok (some s) := by
  unfold entryOf entryPath
  dsimp only
  rw [h]
  rfl

/-- Handles in the other order. -/
def swapped : Nat → Nat := Equiv.swap 0 1

theorem renumbered_pair {a b a' b' : Registry.Entry} (ha : a.Renumbered swapped a')
    (hb : b.Renumbered swapped b') : Registry.Renumbered swapped ⟨[a, b]⟩ ⟨[b', a']⟩ where
  injective := Equiv.injective _
  entries := by
    refine ⟨rfl, fun i => ?_⟩
    match i with
    | 0 => exact .some ha
    | 1 => exact .some hb
    | i + 2 =>
      have hsame : swapped (i + 2) = i + 2 :=
        Equiv.swap_apply_of_ne_of_ne (by omega) (by omega)
      rw [hsame]
      exact .none

/-- A name for texts. -/
def textEntry : Registry.Entry := ⟨"text", some (typed .string)⟩

/-- A name for lists of what a handle stands for. -/
def textsEntry (handle : Nat) : Registry.Entry :=
  ⟨"texts", some (listOf (Marker.deferred handle).toJson)⟩

/-- Texts, and lists of texts. -/
def textFirst : Registry := ⟨[textEntry, textsEntry 0]⟩

/-- The same names in the other order. -/
def textsFirst : Registry := ⟨[textsEntry 1, textEntry]⟩

/-- The documents of these names. -/
def textResource (handle : Nat) : Resource := ⟨resourceUri handle, (typed .string).document⟩

def textsResource (handle next : Nat) : Resource :=
  ⟨resourceUri handle, .obj [("items", reference next)]⟩

theorem exists_entryOf_text {c : Planning.Context} (o : Options)
    (h : ∀ r ∈ c.resources,
      (Library.declared (r.contents.depth + 1) r.uri r.contents).references = []) :
    ∃ s, entryOf c o textEntry = .ok (some s) ∧ s.root.sameLocation = [] := by
  rcases Planning.compile_of_basic c o (typed .string).document "text#" rfl
    (n := .plan { Plan.empty with types := [.string] }) rfl (.single (.type .string)) h with ⟨l, hs⟩
  exact ⟨_, entryOf_of_compile hs, rfl⟩

theorem exists_compile_texts {resources : List Resource} (o : Options) {handle : Nat}
    (hhandle : handle < 2) (path : String)
    (h : ∀ r ∈ resources,
      (Library.declared (r.contents.depth + 1) r.uri r.contents).references = []) :
    ∃ s, Planning.compile ⟨[true, true], resources⟩ o
        (listOf (Marker.deferred handle).toJson).document path = .ok s ∧
      s.root.sameLocation = [] := by
  have hcases : handle = 0 ∨ handle = 1 := by omega
  have hcheck : Keywords.check (listOf (Marker.deferred handle).toJson).document path =
      .ok () := by
    rcases hcases with rfl | rfl <;> rfl
  have hnode : Planning.node ⟨[true, true], resources⟩
      (listOf (Marker.deferred handle).toJson).document path =
        .ok (.plan { Plan.empty with items := some (.deferred handle) },
          .obj [("items", .bool true)]) := by
    rcases hcases with rfl | rfl <;> rfl
  rcases Planning.compile_of_basic ⟨[true, true], resources⟩ o
    (listOf (Marker.deferred handle).toJson).document path hcheck hnode
    (.single (.items (.bool true))) h with ⟨l, hs⟩
  exact ⟨_, hs, rfl⟩

theorem cycle?_of_roots {entries : List (Option CompiledSchema)}
    (h : ∀ s, some s ∈ entries → s.root.sameLocation = []) : cycle? entries = none := by
  refine cycle?_eq_none_iff.mpr (fun handle => ⟨_, fun next hnext => ?_⟩)
  rcases mem_edges_iff.mp hnext with ⟨s, hs, hmem⟩
  rcases Option.bind_eq_some_iff.mp hs with ⟨entry, hentry, rfl⟩
  rw [h s (List.mem_of_getElem? hentry)] at hmem
  cases hmem

/-- Both orders are accepted, and so are lists of lists of texts. -/
theorem exists_ofRegistry_texts (o : Options) :
    (∃ e s, ofRegistry o textFirst = .ok e ∧
      e.compile (listOf (Marker.deferred 1).toJson) = .ok s) ∧
    ∃ e s, ofRegistry o textsFirst = .ok e ∧
      e.compile (listOf (Marker.deferred 0).toJson) = .ok s := by
  constructor
  · have hresources : ∀ r ∈ [textResource 0, textsResource 1 0],
        (Library.declared (r.contents.depth + 1) r.uri r.contents).references = [] :=
      List.forall_mem_cons.mpr ⟨references_of_unidentified 0 _ rfl,
        List.forall_mem_singleton.mpr (references_of_unidentified 1 _ rfl)⟩
    rcases exists_entryOf_text (c := ⟨[true, true], _⟩) o hresources with ⟨s, hs, hroot⟩
    rcases exists_compile_texts o (by omega : 0 < 2) "texts#" hresources with ⟨s', hs', hroot'⟩
    rcases exists_compile_texts o (by omega : 1 < 2) "" hresources with ⟨t, ht, -⟩
    exact ⟨_, t, ofRegistry_pair rfl rfl rfl hs (entryOf_of_compile hs')
      (cycle?_of_roots (by simp [hroot, hroot'])), ht⟩
  · have hresources : ∀ r ∈ [textsResource 0 1, textResource 1],
        (Library.declared (r.contents.depth + 1) r.uri r.contents).references = [] :=
      List.forall_mem_cons.mpr ⟨references_of_unidentified 0 _ rfl,
        List.forall_mem_singleton.mpr (references_of_unidentified 1 _ rfl)⟩
    rcases exists_entryOf_text (c := ⟨[true, true], _⟩) o hresources with ⟨s, hs, hroot⟩
    rcases exists_compile_texts o (by omega : 1 < 2) "texts#" hresources with ⟨s', hs', hroot'⟩
    rcases exists_compile_texts o (by omega : 0 < 2) "" hresources with ⟨t, ht, -⟩
    exact ⟨_, t, ofRegistry_pair rfl rfl rfl (entryOf_of_compile hs') hs
      (cycle?_of_roots (by simp [hroot, hroot'])), ht⟩

theorem ofMembers?_deferred {handle : Nat} (h : handle < 2) :
    Marker.ofMembers? [(Marker.key, Json.ofNat handle)] = some (.ok (.deferred handle)) := by
  match handle, h with
  | 0, _ => rfl
  | 1, _ => rfl

theorem renumbered_listOf {handle : Nat} (h : handle < 2) :
    HttpContract.Renumbered swapped (listOf (Marker.deferred handle).toJson).document
      (listOf (Marker.deferred (swapped handle)).toJson).document := by
  have hswapped : swapped handle < 2 := by
    match handle, h with
    | 0, _ => decide
    | 1, _ => decide
  exact .object (fun _ hm => by cases hm)
    (.cons (.marker (ofMembers?_deferred h) (ofMembers?_deferred hswapped)) .nil)

theorem renumbered_textFirst : Registry.Renumbered swapped textFirst textsFirst :=
  renumbered_pair ⟨rfl, .some (renumbered_of_unmarked _ (by decide))⟩
    ⟨rfl, .some (renumbered_listOf (by omega : 0 < 2))⟩

theorem ordered_listOf (handle : Nat) :
    (listOf (Marker.deferred handle).toJson).document.Ordered := by
  refine ⟨List.pairwise_singleton _ _, ⟨List.pairwise_singleton _ _, ?_, trivial⟩, trivial⟩
  exact trivial

theorem movable_textFirst : textFirst.Movable where
  schemas handle f hf := by
    match handle, hf with
    | 0, hf =>
      cases hf
      exact ⟨⟨List.pairwise_singleton _ _, trivial, trivial⟩, by decide, by decide⟩
    | 1, hf =>
      cases hf
      exact ⟨ordered_listOf 0, by decide, by decide⟩
  identifiers := by
    have hnone : identifiers (textResource 0) = [] := rfl
    have hdocuments : textFirst.documents = [textResource 0, textsResource 1 0] := rfl
    rw [hdocuments, List.pairwise_pair, hnone]
    exact List.disjoint_nil_left _

theorem movable_listOf : (listOf (Marker.deferred 1).toJson).Movable where
  ordered := ordered_listOf 1
  foreign := by decide
  fixed := by decide
  data := UnmarkedUnder.parted (by decide)

/-- Lists of lists of texts, whatever is declared first. -/
theorem same_of_renumbered_texts : ∃ e e' s s',
    ofRegistry .standard textFirst = .ok e ∧ ofRegistry .standard textsFirst = .ok e' ∧
    e.compile (listOf (Marker.deferred 1).toJson) = .ok s ∧
    e'.compile (listOf (Marker.deferred 0).toJson) = .ok s' ∧
    ∀ v, (e.validate s v).verdict.success = (e'.validate s' v).verdict.success ∧
      (e.validate s v).value = (e'.validate s' v).value ∧ e.stringify s v = e'.stringify s' v := by
  obtain ⟨⟨e, s, he, hs⟩, e', s', he', hs'⟩ := exists_ofRegistry_texts .standard
  have hfragments := renumbered_listOf (by omega : 1 < 2)
  have hsame := (same_of_renumbered renumbered_textFirst movable_textFirst .standard).2 e e' he he'
    (listOf (Marker.deferred 1).toJson) (listOf (Marker.deferred 0).toJson) hfragments
    movable_listOf
  exact ⟨e, e', s, s', he, he', hs, hs', hsame.2 s s' hs hs'⟩

/-! ## Schemas that the order matters to -/

/-- A schema that is a reference by identifier. -/
def referring (target : String) : Fragment := ⟨.obj [("$ref", .str target)], rfl⟩

/-- References compile exactly if they lead somewhere. -/
theorem exists_compile_referring_iff {c : Planning.Context} {target : String} :
    (∃ s, Planning.compile c .standard (referring target).document "" = .ok s) ↔
      Evaluator.followable (referring target).document c.resources = true := by
  have hnode : Planning.node c (referring target).document "" =
      .ok (.plan Plan.empty, (referring target).document) := rfl
  constructor
  · rintro ⟨s, hs⟩
    rcases Planning.evaluator_of_compile c hs with ⟨document, hsame, hevaluator⟩
    obtain ⟨-, rfl⟩ := Prod.mk.inj (Except.ok.inj (hnode.symm.trans hsame))
    exact Evaluator.followable_of_build rfl (Planning.build_of_evaluator hevaluator)
  · intro hfollowable
    have hfindings : Metaschema.evaluator.findings (referring target).document = [] :=
      Metaschema.findings_of_accepted (Metaschema.accepted_reference target)
        (Nat.le_of_ble_eq_true rfl)
    rcases Evaluator.exists_build rfl hfindings hfollowable with ⟨l, hbuild⟩
    exact ⟨_, Planning.compile_of_build c .standard _ "" (fun _ => rfl) hnode hbuild⟩

/-- A name without a schema, and a name for texts. -/
def laterFirst : Registry := ⟨[⟨"later", none⟩, textEntry]⟩

/-- The same names in the other order. -/
def laterLast : Registry := ⟨[textEntry, ⟨"later", none⟩]⟩

/-- Both orders are accepted, and the document for texts has the identifier of its place. -/
theorem exists_ofRegistry_later :
    (∃ e, ofRegistry .standard laterFirst = .ok e ∧ e.options = .standard ∧
      e.context.resources = [textResource 1]) ∧
    ∃ e, ofRegistry .standard laterLast = .ok e ∧ e.options = .standard ∧
      e.context.resources = [textResource 0] := by
  have hresources : ∀ handle, ∀ r ∈ [textResource handle],
      (Library.declared (r.contents.depth + 1) r.uri r.contents).references = [] :=
    fun handle => List.forall_mem_singleton.mpr (references_of_unidentified handle _ rfl)
  constructor
  · rcases exists_entryOf_text (c := ⟨[false, true], _⟩) .standard (hresources 1) with
      ⟨s, hs, hroot⟩
    exact ⟨_, ofRegistry_pair rfl rfl rfl rfl hs (cycle?_of_roots (by simp [hroot])), rfl, rfl⟩
  · rcases exists_entryOf_text (c := ⟨[true, false], _⟩) .standard (hresources 0) with
      ⟨s, hs, hroot⟩
    exact ⟨_, ofRegistry_pair rfl rfl rfl hs rfl (cycle?_of_roots (by simp [hroot])), rfl, rfl⟩

/-- A schema with a schema within it that has an identifier of its own, beside further members. -/
def identified (members : Fields Json) : Fragment :=
  .ofMembers [("dependentSchemas", .obj [("p", .obj (("$id", .str "x:a") :: members))])]

/-- What stands beside the identifier. -/
def constTrue : Fields Json := [("const", .bool true)]

/-- Two names for schemas with the same identifier. -/
def bareFirst : Registry :=
  ⟨[⟨"bare", some (identified [])⟩, ⟨"holding", some (identified constTrue)⟩]⟩

/-- The same names in the other order. -/
def holdingFirst : Registry :=
  ⟨[⟨"holding", some (identified constTrue)⟩, ⟨"bare", some (identified [])⟩]⟩

/-- The documents of two such schemas. -/
def identifiedResources (x y : Fields Json) : List Resource :=
  [⟨resourceUri 0, (identified x).document⟩, ⟨resourceUri 1, (identified y).document⟩]

theorem findings_identified {x : Fields Json} (hx : x ∈ [[], constTrue]) :
    Metaschema.evaluator.findings (identified x).document = [] := by
  have hsuits : ∀ m ∈ x, Metaschema.Suits 3 m.1 m.2 := by
    intro m hm
    rcases List.mem_pair.mp hx with rfl | rfl
    · cases hm
    · obtain rfl := List.mem_singleton.mp hm
      exact (Metaschema.suits_const _).mono (by decide)
  refine Metaschema.findings_of_accepted (n := 11)
    (Metaschema.accepted_dependentSchemas (fun m hm => ?_)) ?_
  · obtain rfl := List.mem_singleton.mp hm
    refine Metaschema.accepted_of_suits (List.forall_mem_cons.mpr ⟨?_, hsuits⟩)
    exact Metaschema.suits_identifier (by decide +kernel)
  · rcases List.mem_pair.mp hx with rfl | rfl <;> decide

theorem exists_compile_identified {resources : List Resource} {x : Fields Json}
    (hx : x ∈ [[], constTrue]) (path : String)
    (hfollowable : Evaluator.followable (identified x).document resources = true) :
    ∃ s, Planning.compile ⟨[true, true], resources⟩ .standard (identified x).document path = .ok s ∧
      s.root.sameLocation = [] := by
  have hfacts : Library.keywordText? (identified x).document "$id" = none ∧
      Keywords.check (identified x).document path = .ok () ∧
        Planning.node ⟨[true, true], resources⟩ (identified x).document path =
          .ok (.plan Plan.empty, (identified x).document) := by
    rcases List.mem_pair.mp hx with rfl | rfl
    · exact ⟨rfl, rfl, rfl⟩
    · exact ⟨rfl, rfl, rfl⟩
  obtain ⟨hid, hcheck, hnode⟩ := hfacts
  rcases Evaluator.exists_build hid (findings_identified hx) hfollowable with ⟨l, hbuild⟩
  exact ⟨_, Planning.compile_of_build ⟨[true, true], resources⟩ .standard _ path (fun _ => hcheck)
    hnode hbuild, rfl⟩

/-- Two such schemas are accepted in any order. -/
theorem exists_ofRegistry_identified (name name' : String) {x y : Fields Json}
    (hx : x ∈ [[], constTrue]) (hy : y ∈ [[], constTrue]) : ∃ e,
      ofRegistry .standard ⟨[⟨name, some (identified x)⟩, ⟨name', some (identified y)⟩]⟩ = .ok e ∧
        e.options = .standard ∧ e.context = ⟨[true, true], identifiedResources x y⟩ := by
  have hfollowable : ∀ x ∈ [[], constTrue], ∀ y ∈ [[], constTrue], ∀ z ∈ [[], constTrue],
      Evaluator.followable (identified x).document (identifiedResources y z) = true := by
    decide +kernel
  rcases exists_compile_identified hx (name ++ "#") (hfollowable x hx x hx y hy) with
    ⟨s, hs, hroot⟩
  rcases exists_compile_identified hy (name' ++ "#") (hfollowable y hy x hx y hy) with
    ⟨s', hs', hroot'⟩
  have hresource : ∀ (handle : Nat) (name : String), ∀ x ∈ [[], constTrue],
      resourceOf [true, true] handle ⟨name, some (identified x)⟩ =
        .ok (some ⟨resourceUri handle, (identified x).document⟩) := by
    intro handle name x hx
    rcases List.mem_pair.mp hx with rfl | rfl <;> rfl
  exact ⟨_, ofRegistry_pair rfl (hresource 0 name x hx) (hresource 1 name' y hy)
    (entryOf_of_compile hs) (entryOf_of_compile hs') (cycle?_of_roots (by simp [hroot, hroot'])),
    rfl, rfl⟩

theorem renumbered_identified {x : Fields Json} (hx : x ∈ [[], constTrue]) :
    HttpContract.Renumbered swapped (identified x).document (identified x).document := by
  refine renumbered_of_unmarked _ ?_
  rcases List.mem_pair.mp hx with rfl | rfl <;> decide

/-- The order of declarations matters to schemas that refer to handles by their identifiers, and to
references where schemas share an identifier. -/
theorem order_matters :
    (Registry.Renumbered swapped laterFirst laterLast ∧
      HttpContract.Renumbered swapped (referring (resourceUri 0)).document
        (referring (resourceUri 0)).document ∧
      ∃ e e', ofRegistry .standard laterFirst = .ok e ∧ ofRegistry .standard laterLast = .ok e' ∧
        (¬ ∃ s, e.compile (referring (resourceUri 0)) = .ok s) ∧
          ∃ s', e'.compile (referring (resourceUri 0)) = .ok s') ∧
    Registry.Renumbered swapped bareFirst holdingFirst ∧
      HttpContract.Renumbered swapped (referring "x:a#/const").document
        (referring "x:a#/const").document ∧
      ∃ e e', ofRegistry .standard bareFirst = .ok e ∧ ofRegistry .standard holdingFirst = .ok e' ∧
        (∃ s, e.compile (referring "x:a#/const") = .ok s) ∧
          ¬ ∃ s', e'.compile (referring "x:a#/const") = .ok s' := by
  have hreferring : ∀ target, HttpContract.Renumbered swapped (referring target).document
      (referring target).document :=
    fun target => .object (fun _ hm => by cases hm) (.cons (.scalar rfl) .nil)
  constructor
  · rcases exists_ofRegistry_later with ⟨⟨e, he, ho, hc⟩, e', he', ho', hc'⟩
    refine ⟨?_, hreferring _, e, e', he, he', ?_, ?_⟩
    · exact renumbered_pair ⟨rfl, .none⟩ ⟨rfl, .some (renumbered_of_unmarked _ (by decide))⟩
    · rw [Engine.compile, ho, exists_compile_referring_iff, hc]
      decide +kernel
    · rw [Engine.compile, ho', exists_compile_referring_iff, hc']
      decide +kernel
  · have hbare : ([] : Fields Json) ∈ [[], constTrue] := by decide
    have hholding : constTrue ∈ [[], constTrue] := by decide
    rcases exists_ofRegistry_identified "bare" "holding" hbare hholding with ⟨e, he, ho, hc⟩
    rcases exists_ofRegistry_identified "holding" "bare" hholding hbare with ⟨e', he', ho', hc'⟩
    refine ⟨?_, hreferring _, e, e', he, he', ?_, ?_⟩
    · exact renumbered_pair ⟨rfl, .some (renumbered_identified hbare)⟩
        ⟨rfl, .some (renumbered_identified hholding)⟩
    · rw [Engine.compile, ho, exists_compile_referring_iff, hc]
      decide +kernel
    · rw [Engine.compile, ho', exists_compile_referring_iff, hc']
      decide +kernel

end Engine

end HttpContract
