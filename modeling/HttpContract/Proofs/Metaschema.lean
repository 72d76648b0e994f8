import HttpContract.Schema.Engine

/-!
# The schema of schemas

The schema of schemas is spread over eight documents that refer to each other. This module follows
the references between them: `lookup_meta`, `lookup_vocabulary` and `lookup_definition` say which
schema each kind of reference means, and in which scope. A scope within the documents is `Rooted`:
the document that joins the vocabularies is the outermost one, so the dynamic anchor always leads
back to it.
-/

namespace HttpContract

namespace Uri

theorem cutAt_of_snd_eq_none {p : Char → Bool} {cs : List Char} (h : (cutAt p cs).2 = none) :
    cutAt p cs = (cs, none) := by
  unfold cutAt at h ⊢
  split at h
  · rfl
  · cases h

/-- Nothing is cut off a reference without a fragment. -/
theorem cutAt_of_fragment {uri : String} (h : (split uri).fragment = none) :
    cutAt (· == '#') uri.toList = (uri.toList, none) :=
  cutAt_of_snd_eq_none (Option.map_eq_none_iff.mp h)

end Uri

namespace Library

/-- An identifier with a scheme does not depend on where it is read. -/
theorem absolute_of_split {base uri : String} (hscheme : (Uri.split uri).scheme.isSome = true)
    (hpath : Uri.normalPath (Uri.split uri).path = (Uri.split uri).path)
    (htext : (Uri.split uri).text = uri) (hends : uri.endsWith "#" = false) :
    absolute base uri = uri := by
  unfold absolute
  generalize Uri.split uri = reference at hscheme hpath htext
  rw [Uri.resolve, if_pos hscheme, hpath]
  show trimmed reference.text = uri
  rw [htext, trimmed, hends]
  rfl

theorem withoutFragment_of_split {uri : String} (hfragment : (Uri.split uri).fragment = none)
    (htext : (Uri.split uri).text = uri) : withoutFragment uri = uri := by
  unfold withoutFragment
  generalize Uri.split uri = reference at hfragment htext
  rw [← hfragment]
  exact htext

/-- Within a schema that has no identifier of its own the scope stays. -/
theorem within_of_keywordText?_none {s : Scope} {schema : Json}
    (h : keywordText? schema "$id" = none) : s.within schema = s := by
  rw [Scope.within, h]

theorem followPointer_obj {pointer token : String} {members : Fields Json} {s : Scope} {w : Json}
    {rest : List String}
    (h : Fields.get? members (String.ofList (Json.Pointer.unescape token.toList)) = some w) :
    followPointer pointer (.obj members) s (token :: rest) =
      followPointer pointer w (s.within w) rest := by
  have hget : (Json.obj members).get? (String.ofList (Json.Pointer.unescape token.toList)) =
      some w := h
  simp only [followPointer, hget]

end Library

namespace Metaschema

open Library Evaluation

/-! ## The documents and their scopes -/

theorem nodup_uris : (documents.map (·.uri)).Nodup := by decide +kernel

/-- The identifiers of the documents have a scheme, a plain path and no fragment. -/
theorem uri_facts : ∀ r ∈ documents, (Uri.split r.uri).scheme = some "https" ∧
    Uri.normalPath (Uri.split r.uri).path = (Uri.split r.uri).path ∧
    (Uri.split r.uri).text = r.uri ∧ r.uri.endsWith "#" = false ∧
    (Uri.split r.uri).fragment = none := by
  decide +kernel

theorem absolute_uri {r : Resource} (hr : r ∈ documents) (base : String) :
    absolute base r.uri = r.uri := by
  rcases uri_facts r hr with ⟨hscheme, hpath, htext, hends, -⟩
  exact absolute_of_split (Option.isSome_of_eq_some hscheme) hpath htext hends

theorem withoutFragment_uri {r : Resource} (hr : r ∈ documents) :
    withoutFragment r.uri = r.uri := by
  rcases uri_facts r hr with ⟨-, -, htext, -, hfragment⟩
  exact withoutFragment_of_split hfragment htext

/-- Each document names itself and the specification. -/
theorem document_facts : ∀ r ∈ documents, keywordText? r.contents "$id" = some r.uri ∧
    followsSpecification r.contents = true := by
  decide +kernel

theorem find?_of_nodup {α : Type} (f : α → String) : ∀ {xs : List α}, (xs.map f).Nodup →
    ∀ {x}, x ∈ xs → xs.find? (fun y => f y == f x) = some x := by
  intro xs
  induction xs with
  | nil => intro _ x hx; simp at hx
  | cons y rest ih =>
    intro hnodup x hx
    rw [List.map_cons, List.nodup_cons] at hnodup
    rw [List.find?_cons]
    rcases List.mem_cons.mp hx with rfl | hx
    · simp
    · have hne : (f y == f x) = false := by
        simpa using fun heq : f y = f x => hnodup.1 (heq ▸ List.mem_map_of_mem hx)
      rw [hne]
      exact ih hnodup.2 hx

theorem document?_uri {r : Resource} (h : r ∈ documents) :
    library.document? r.uri = some r.contents := by
  show (documents.find? (fun d => d.uri == r.uri)).map _ = _
  rw [find?_of_nodup (·.uri) nodup_uris h]
  rfl

/-- The anchor that a document declares. -/
def anchorOf (r : Resource) : Anchor := ⟨r.uri, "meta", true, r.contents⟩

theorem anchor?_uri {r : Resource} (h : r ∈ documents) :
    library.anchor? r.uri "meta" = some (anchorOf r) := by
  show (documents.map anchorOf).find? (fun a => a.uri == r.uri && a.name == "meta") = _
  rw [List.find?_map]
  have hfun : (fun a : Anchor => a.uri == r.uri && a.name == "meta") ∘ anchorOf =
      fun d => d.uri == r.uri := by
    funext d
    simp [anchorOf]
  rw [hfun, find?_of_nodup (·.uri) nodup_uris h]
  rfl

/-- A scope within one of the documents that was come to from the outermost one. -/
structure Rooted (s : Scope) : Prop where
  known : s.known = true
  base : ∃ r ∈ documents, s.base = r.uri
  outermost : s.outer = [] ∧ s.base = specification ∨
    ∃ inner, s.outer = inner ++ [specification]

theorem uri_ne_empty : ∀ r ∈ documents, r.uri ≠ "" := by decide +kernel

/-- Whatever is entered from a rooted scope, the specification stays outermost. -/
theorem Rooted.outer_enter {s : Scope} (h : Rooted s) (uri : String) :
    ∃ inner, (s.enter uri).outer = inner ++ [specification] := by
  rcases h.base with ⟨r, hr, hbase⟩
  have hne : s.base ≠ "" := hbase ▸ uri_ne_empty r hr
  -- entering puts the present document in front, unless it is there already
  unfold Scope.enter
  rcases h.outermost with ⟨houter, hspecification⟩ | ⟨inner, houter⟩
  · rw [if_pos ⟨hne, Or.inl (by rw [houter]; rfl)⟩, houter, hspecification]
    exact ⟨[], rfl⟩
  · split
    · exact ⟨s.base :: inner, by rw [houter]; rfl⟩
    · exact ⟨inner, houter⟩

theorem Rooted.enter {s : Scope} (h : Rooted s) {r : Resource} (hr : r ∈ documents) :
    Rooted (s.enter r.uri) where
  known := h.known
  base := ⟨r, hr, rfl⟩
  outermost := Or.inr (h.outer_enter r.uri)

/-- The documents follow the specification, so that entering them leaves a scope rooted. -/
theorem Rooted.enter_known {s : Scope} (h : Rooted s) {r : Resource} (hr : r ∈ documents) :
    Rooted { s.enter r.uri with known := true } :=
  ⟨rfl, (h.enter hr).base, (h.enter hr).outermost⟩

theorem Rooted.within {s : Scope} (h : Rooted s) {r : Resource} (hr : r ∈ documents)
    (hbase : s.base = r.uri) : Rooted (s.within r.contents) := by
  unfold Scope.within
  rw [(document_facts r hr).1]
  dsimp only
  rw [hbase, absolute_uri hr]
  exact h.enter hr

theorem base_within {s : Scope} {r : Resource} (hr : r ∈ documents) (hbase : s.base = r.uri) :
    (s.within r.contents).base = r.uri := by
  unfold Scope.within
  rw [(document_facts r hr).1]
  dsimp only
  rw [hbase, absolute_uri hr]
  rfl

theorem joined_mem : joined ∈ documents := List.mem_cons_self

theorem core_mem : core ∈ documents := List.mem_cons_of_mem _ List.mem_cons_self

theorem applicator_mem : applicator ∈ documents :=
  List.mem_cons_of_mem _ (List.mem_cons_of_mem _ List.mem_cons_self)

theorem validation_mem : validation ∈ documents :=
  List.mem_cons_of_mem _ (List.mem_cons_of_mem _ (List.mem_cons_of_mem _ (List.mem_cons_of_mem _
    List.mem_cons_self)))

/-! ## References between the documents -/

theorem anchored_of_outer {s : Scope} {inner : List String}
    (houter : s.outer = inner ++ [specification]) {r : Resource} :
    library.anchored (anchorOf r) s = (joined.contents, s.enter specification) := by
  have hanchor : library.anchor? specification "meta" = some (anchorOf joined) :=
    anchor?_uri joined_mem
  unfold anchored
  rw [if_pos (show (anchorOf r).dynamic = true from rfl), houter, List.foldl_append,
    List.foldl_cons, List.foldl_nil, show (anchorOf r).name = "meta" from rfl, hanchor]
  rfl

/-- The dynamic anchor means the outermost document. -/
theorem lookup_meta {s : Scope} (h : Rooted s) : ∃ s', Rooted s' ∧ s'.base = specification ∧
    library.lookup s "#meta" = .ok (joined.contents, s') := by
  rcases h.base with ⟨r, hr, hbase⟩
  rcases h.outer_enter r.uri with ⟨inner, houter⟩
  have hcut : Uri.cutAt (· == '#') "#meta".toList = ([], some "meta".toList) := by decide
  have hpointer : (String.ofList "meta".toList).startsWith "/" = false := by decide +kernel
  have hname : String.ofList "meta".toList = "meta" := by decide
  refine ⟨{ (s.enter r.uri).enter specification with known := true }, ?_, rfl, ?_⟩
  · exact (h.enter hr).enter_known joined_mem
  · unfold lookup
    rw [hcut]
    dsimp only [List.isEmpty, Option.getD]
    rw [if_pos rfl, hbase, document?_uri hr, hpointer, hname]
    dsimp only
    -- neither a pointer nor the document itself, so it is an anchor
    rw [if_neg (by decide), if_neg (by decide), anchor?_uri hr]
    dsimp only
    rw [anchored_of_outer houter]
    show Except.ok _ = _
    rw [(document_facts joined joined_mem).2]

/-- A reference to a vocabulary means its document. -/
theorem lookup_vocabulary {s : Scope} {v : Resource} (hv : v ∈ vocabularies) :
    library.lookup s v.uri = .ok (v.contents, { s.enter v.uri with known := true }) := by
  have hmem : v ∈ documents := List.mem_cons_of_mem _ hv
  rcases uri_facts v hmem with ⟨-, -, -, -, hfragment⟩
  have hempty : v.uri.toList.isEmpty = false := by
    rw [List.isEmpty_eq_false_iff, ne_eq, String.toList_eq_nil_iff]
    exact uri_ne_empty v hmem
  have hnone : (String.ofList ((none : Option (List Char)).getD [])).startsWith "/" = false := by
    decide +kernel
  unfold lookup
  rw [Uri.cutAt_of_fragment hfragment]
  dsimp only
  rw [hempty, String.ofList_toList, absolute_uri hmem, withoutFragment_uri hmem,
    if_neg Bool.false_ne_true, document?_uri hmem, hnone]
  dsimp only
  rw [if_neg (by decide), if_pos (by decide)]
  show Except.ok _ = _
  rw [(document_facts v hmem).2]

/-- Definitions that the schemas of keywords refer to. -/
def definitionNames : List String :=
  ["schemaArray", "simpleTypes", "stringArray", "uriString", "uriReferenceString"]

theorem pointer_facts : ∀ name ∈ definitionNames,
    Uri.cutAt (· == '#') ("#/$defs/" ++ name).toList = ([], some ("/$defs/" ++ name).toList) ∧
      (String.ofList ("/$defs/" ++ name).toList).startsWith "/" = true ∧
      (Uri.segments ((Percent.decodeText? (String.ofList ("/$defs/" ++ name).toList)).getD
        (String.ofList ("/$defs/" ++ name).toList))).drop 1 = ["$defs", name] ∧
      String.ofList (Json.Pointer.unescape "$defs".toList) = "$defs" ∧
      String.ofList (Json.Pointer.unescape name.toList) = name := by
  decide +kernel

/-- A pointer to a definition means the schema that is defined. -/
theorem lookup_definition {s : Scope} {r : Resource} (hr : r ∈ documents) (hbase : s.base = r.uri)
    {name : String} (hname : name ∈ definitionNames)
    {members definitions : Fields Json} {target : Json} (hcontents : r.contents = .obj members)
    (hdefinitions : Fields.get? members "$defs" = some (.obj definitions))
    (htarget : Fields.get? definitions name = some target)
    (hid : keywordText? (.obj definitions) "$id" = none) (hid' : keywordText? target "$id" = none)
    (hfollows : followsSpecification target = true) :
    library.lookup s ("#/$defs/" ++ name) =
      .ok (target, { s.enter r.uri with known := true }) := by
  rcases pointer_facts name hname with ⟨hcut, hslash, htokens, hdefs, hunescape⟩
  -- neither step of the pointer enters another document
  have hfollow : followPointer (String.ofList ("/$defs/" ++ name).toList) r.contents
      (s.enter r.uri) ["$defs", name] = .ok (target, s.enter r.uri) := by
    rw [hcontents, followPointer_obj (by rw [hdefs]; exact hdefinitions),
      followPointer_obj (by rw [hunescape]; exact htarget), followPointer,
      within_of_keywordText?_none hid, within_of_keywordText?_none hid']
  unfold lookup
  rw [hcut]
  dsimp only [List.isEmpty]
  rw [if_pos rfl, hbase, document?_uri hr]
  dsimp only [Option.getD_some]
  rw [if_pos hslash, htokens, hfollow]
  show Except.ok _ = _
  rw [hfollows]

end Metaschema

end HttpContract
