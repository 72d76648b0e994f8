import Mathlib.Algebra.GroupWithZero.Nat
import Mathlib.Data.List.TakeWhile
import HttpContract.Proofs.Agreement
import HttpContract.Proofs.Building

/-!
# References to handles

Evaluators read a marker for a handle, where the plan does not follow it, as a reference to the
document of the handle.
-/

namespace HttpContract

namespace Uri

theorem cutAt_of_forall {p : Char → Bool} {cs : List Char} (h : ∀ c ∈ cs, p c = false) :
    cutAt p cs = (cs, none) := by
  have hnil : cs.dropWhile (fun c => !p c) = [] :=
    List.dropWhile_eq_nil_iff.mpr (fun c hc => by simp [h c hc])
  unfold cutAt
  rw [hnil]

end Uri

namespace EvaluationForm

/-- The identifier of a handle behind its scheme. -/
def resourcePath (handle : Nat) : List Char :=
  "routeguard:schema:".toList ++ Nat.toDigits 10 handle

theorem toList_resourceUri (handle : Nat) :
    (resourceUri handle).toList = 'u' :: 'r' :: 'n' :: ':' :: resourcePath handle := by
  unfold resourceUri
  rw [String.toList_append]
  show _ ++ (String.ofList (Nat.toDigits 10 handle)).toList = _
  simp only [String.toList_ofList]
  rfl

theorem resourcePath_inj {handle handle' : Nat} (h : resourcePath handle = resourcePath handle') :
    handle = handle' := by
  have hdigits : Nat.toDigits 10 handle = Nat.toDigits 10 handle' := List.append_cancel_left h
  rw [← Nat.ofDigitChars_ten_toDigits (n := handle), hdigits, Nat.ofDigitChars_ten_toDigits]

theorem resourceUri_inj {handle handle' : Nat} (h : resourceUri handle = resourceUri handle') :
    handle = handle' := by
  have hlist := congrArg String.toList h
  rw [toList_resourceUri, toList_resourceUri] at hlist
  exact resourcePath_inj (by simpa using hlist)

theorem plain_of_mem_resourcePath {handle : Nat} {c : Char} (h : c ∈ resourcePath handle) :
    c ≠ '#' ∧ c ≠ '?' ∧ c ≠ '/' := by
  rcases List.mem_append.mp h with h | h
  · have hprefix : ∀ c ∈ "routeguard:schema:".toList, c ≠ '#' ∧ c ≠ '?' ∧ c ≠ '/' := by simp
    exact hprefix c h
  · have hdigit := Nat.isDigit_of_mem_toDigits (by decide) (by decide) h
    refine ⟨?_, ?_, ?_⟩
    all_goals
      rintro rfl
      exact absurd hdigit (by decide)

theorem plain_of_mem_resourceUri {handle : Nat} {c : Char} (h : c ∈ (resourceUri handle).toList) :
    c ≠ '#' ∧ c ≠ '?' ∧ c ≠ '/' := by
  rw [toList_resourceUri] at h
  rcases List.mem_append.mp (show c ∈ ['u', 'r', 'n', ':'] ++ resourcePath handle from h) with h | h
  · have hscheme : ∀ c ∈ ['u', 'r', 'n', ':'], c ≠ '#' ∧ c ≠ '?' ∧ c ≠ '/' := by simp
    exact hscheme c h
  · exact plain_of_mem_resourcePath h

theorem split_resourceUri (handle : Nat) : Uri.split (resourceUri handle) =
    ⟨some "urn", none, String.ofList (resourcePath handle), none, none⟩ := by
  have hfragment : Uri.cutAt (· == '#') (resourceUri handle).toList =
      ((resourceUri handle).toList, none) :=
    Uri.cutAt_of_forall (fun c hc => by simpa using (plain_of_mem_resourceUri hc).1)
  have hquery : Uri.cutAt (· == '?') (resourceUri handle).toList =
      ((resourceUri handle).toList, none) :=
    Uri.cutAt_of_forall (fun c hc => by simpa using (plain_of_mem_resourceUri hc).2.1)
  unfold Uri.split
  rw [hfragment]
  dsimp only
  rw [hquery]
  dsimp only
  rw [toList_resourceUri]
  rfl

theorem normalPath_resourcePath (handle : Nat) :
    Uri.normalPath (String.ofList (resourcePath handle)) = String.ofList (resourcePath handle) := by
  have hsegments : Uri.segments (String.ofList (resourcePath handle)) =
      [String.ofList (resourcePath handle)] := by
    unfold Uri.segments
    rw [String.toList_ofList, List.splitOn, List.splitOnP_eq_singleton
      (fun c hc => by simpa using (plain_of_mem_resourcePath hc).2.2)]
    rfl
  have hne : ∀ s ∈ ["", ".", ".."], String.ofList (resourcePath handle) ≠ s := by
    intro s hs heq
    have hhead : s.toList.head? = some 'r' := by
      rw [← heq, String.toList_ofList]
      rfl
    have hnone : ∀ s ∈ ["", ".", ".."], s.toList.head? ≠ some 'r' := by decide
    exact hnone s hs hhead
  have hdots : Uri.dropDots [] [String.ofList (resourcePath handle)] =
      [String.ofList (resourcePath handle)] := by
    generalize String.ofList (resourcePath handle) = s at hne
    unfold Uri.dropDots
    split
    · next heq => cases heq
    · next heq => exact absurd (List.cons.inj heq).1 (hne "." (by decide))
    · next heq => exact absurd (List.cons.inj heq).1 (hne ".." (by decide))
    · next heq => exact absurd (List.cons.inj heq).1 (hne "." (by decide))
    · next heq => exact absurd (List.cons.inj heq).1 (hne ".." (by decide))
    · next heq =>
      cases heq
      rfl
  unfold Uri.normalPath
  rw [hsegments]
  split
  · next heq => exact absurd (List.cons.inj heq).1 (hne "" (by decide))
  · rw [hdots, String.intercalate_singleton]

theorem text_split_resourceUri (handle : Nat) :
    (Uri.split (resourceUri handle)).text = resourceUri handle := by
  apply String.toList_injective
  rw [split_resourceUri, toList_resourceUri]
  simp [Uri.text]

/-- The identifier of a handle does not depend on where it is read. -/
theorem absolute_resourceUri (base : String) (handle : Nat) :
    Library.absolute base (resourceUri handle) = resourceUri handle := by
  have hends : (resourceUri handle).endsWith "#" = false := by
    rw [← Bool.not_eq_true]
    intro hends
    unfold String.endsWith at hends
    rw [String.Slice.endsWith_string_eq_endsWith_toSlice, String.Slice.endsWith_slice_iff] at hends
    have hsuffix : ['#'] <:+ (resourceUri handle).toList := by simpa using hends
    exact (plain_of_mem_resourceUri (hsuffix.subset List.mem_cons_self)).1 rfl
  refine Library.absolute_of_split ?_ ?_ (text_split_resourceUri handle) hends
  · rw [split_resourceUri]
    rfl
  · rw [split_resourceUri]
    exact normalPath_resourcePath handle

theorem withoutFragment_resourceUri (handle : Nat) :
    Library.withoutFragment (resourceUri handle) = resourceUri handle := by
  refine Library.withoutFragment_of_split ?_ (text_split_resourceUri handle)
  rw [split_resourceUri]

end EvaluationForm

/-! ## References to handles -/

open EvaluationForm

namespace Library

/-- A reference to a handle leads to the document with its identifier, wherever it is read. -/
theorem lookup_resourceUri (l : Library) (s : Scope) (handle : Nat) :
    l.lookup s (resourceUri handle) =
      match l.document? (resourceUri handle) with
      | some t =>
        .ok (t, { s.enter (resourceUri handle) with known := followsSpecification t })
      | none => .error (.notPresent (resourceUri handle)) := by
  have hfront : Uri.cutAt (· == '#') (resourceUri handle).toList =
      ((resourceUri handle).toList, none) :=
    Uri.cutAt_of_forall (fun c hc => by simpa using (plain_of_mem_resourceUri hc).1)
  have hempty : (resourceUri handle).toList.isEmpty = false := by
    rw [toList_resourceUri]
    rfl
  unfold lookup
  rw [hfront]
  dsimp only
  rw [hempty, String.ofList_toList, absolute_resourceUri, withoutFragment_resourceUri]
  simp only [Bool.false_eq_true, if_false]
  cases l.document? (resourceUri handle) with
  | none => rfl
  | some t => rfl

end Library

/-- The document of a handle among resources. -/
def documentOf (R : List Resource) (handle : Nat) : Option Json :=
  (R.reverse.find? (fun r => r.uri == resourceUri handle)).map (·.contents)

theorem exists_resource_of_documentOf {R : List Resource} {handle : Nat} {t : Json}
    (h : documentOf R handle = some t) : ∃ r ∈ R, r.contents = t := by
  rcases Option.map_eq_some_iff.mp h with ⟨r, hr, ht⟩
  exact ⟨r, List.mem_reverse.mp (List.mem_of_find?_eq_some hr), ht⟩

/-- A library has the given resources, and under the identifiers of handles nothing else. -/
structure Library.Offers (l : Library) (R : List Resource) : Prop where
  document : ∀ handle, l.document? (resourceUri handle) = documentOf R handle
  size_le : (R.map (fun r => r.contents.size)).sum ≤ l.size

/-! ## Documents without references of their own -/

/-- The keywords that identify schemas and refer to them. -/
def referring : List String := ["$ref", "$id", "$anchor", "$dynamicRef", "$dynamicAnchor"]

/-- Wherever evaluation and libraries look, schemas identify nothing, and the only references are
those to handles. -/
inductive Closed : Json → Prop where
  | reference (handle : Nat) : Closed (reference handle)
  | schema {members : Fields Json} (hkeys : ∀ k ∈ referring, Fields.contains members k = false)
      (hinner : ∀ s, Evaluation.Inner members s → Closed s) : Closed (.obj members)
  | data {d : Json} (hd : ∀ members, d ≠ .obj members) : Closed d

theorem not_under_reference {handle : Nat} {single listed named : List String} {s : Json}
    (hsingle : "$ref" ∉ single) : ¬ Evaluation.Under single listed named
      [("$ref", .str (resourceUri handle))] s := by
  intro h
  cases h with
  | single hk hs => exact hsingle ((Prod.mk.inj (List.mem_singleton.mp hs)).1 ▸ hk)
  | listed _ hxs _ => exact nomatch (Prod.mk.inj (List.mem_singleton.mp hxs)).2
  | named _ hss _ => exact nomatch (Prod.mk.inj (List.mem_singleton.mp hss)).2

theorem Closed.inner {members : Fields Json} {s : Json} (h : Closed (.obj members))
    (hs : Evaluation.Inner members s) : Closed s := by
  generalize hd : Json.obj members = d at h
  cases h with
  | reference handle =>
    cases hd
    exact absurd hs (not_under_reference (by decide))
  | schema _ hinner =>
    cases hd
    exact hinner s hs
  | data hno => exact absurd hd.symm (hno members)

theorem Closed.keywordText?_eq_none {d : Json} (h : Closed d) :
    Library.keywordText? d "$id" = none := by
  cases h with
  | reference handle => rfl
  | schema hkeys _ =>
    have hnone : Fields.get? _ "$id" = none :=
      Option.not_isSome_iff_eq_none.mp (by simpa [Fields.contains] using hkeys "$id" (by decide))
    show (Fields.get? _ "$id").bind _ = none
    rw [hnone]
    rfl
  | data hno =>
    cases d with
    | obj members => exact absurd rfl (hno members)
    | _ => rfl

theorem inner_of_mem_subschemas {d s : Json} (h : s ∈ Library.subschemas d) :
    ∃ members, d = .obj members ∧ Evaluation.Inner members s := by
  rcases List.mem_flatMap.mp h with ⟨⟨k, v⟩, hm, hs⟩
  rcases Evaluation.schemas_getD hm with ⟨members, rfl, hm⟩
  refine ⟨members, rfl, ?_⟩
  dsimp only at hs
  split at hs
  · next hk =>
    obtain rfl := List.mem_singleton.mp hs
    exact .single (List.contains_iff_mem.mp hk) hm
  · split at hs
    · next hk =>
      rcases Evaluation.mem_items_getD hs with ⟨xs, rfl, hs⟩
      exact .listed (List.contains_iff_mem.mp hk) hm hs
    · split at hs
      · next hk =>
        rcases List.mem_map.mp hs with ⟨m, hentry, rfl⟩
        rcases Evaluation.schemas_getD hentry with ⟨ss, rfl, hentry⟩
        exact .named (List.mem_cons_of_mem _ (List.contains_iff_mem.mp hk)) hm hentry
      · cases hs

namespace Library

/-- Documents without identifiers declare no documents within them. -/
theorem documents_of_closed : ∀ (fuel : Nat) (base : String) {d : Json}, Closed d →
    (declared fuel base d).documents = []
  | 0, _, _, _ => rfl
  | fuel + 1, base, d, hd => by
    rw [declared, foldl_append_eq (·.documents) (fun _ _ => rfl) _ _ _ (fun s hs => ?_)]
    · simp [declaredHere, hd.keywordText?_eq_none]
    · rcases inner_of_mem_subschemas hs with ⟨members, rfl, hinner⟩
      exact documents_of_closed fuel _ (hd.inner hinner)

/-- Whether the schemas down to some nesting have no identifiers of their own. -/
def unidentified : (fuel : Nat) → Json → Bool
  | 0, _ => true
  | fuel + 1, d => (keywordText? d "$id").isNone && (subschemas d).all (unidentified fuel)

/-- The document of a handle asks for no other document, if nothing in it has another identifier. -/
theorem references_of_unidentified (handle : Nat) : ∀ (fuel : Nat) {d : Json},
    unidentified fuel d = true → (declared fuel (resourceUri handle) d).references = []
  | 0, _, _ => rfl
  | fuel + 1, d, hd => by
    obtain ⟨hid, hinner⟩ := Bool.and_eq_true_iff.mp hd
    have hbase : baseOf (resourceUri handle) d = resourceUri handle := by
      unfold baseOf
      rw [Option.isNone_iff_eq_none.mp hid]
    rw [declared, hbase, foldl_append_eq (·.references) (fun _ _ => rfl) _ _ _ (fun s hs => ?_)]
    · simp [declaredHere, split_resourceUri]
    · exact references_of_unidentified handle fuel (List.all_eq_true.mp hinner s hs)

/-- No document that is always there has the identifier of a handle. -/
theorem find?_metaschema (handle : Nat) :
    Metaschema.library.documents.find? (fun r => r.uri == resourceUri handle) = none := by
  refine List.find?_eq_none.mpr (fun r hr heq => ?_)
  have hscheme := (Metaschema.uri_facts r hr).1
  rw [eq_of_beq heq, split_resourceUri] at hscheme
  exact absurd (Option.some.inj hscheme) (by decide)

theorem exists_library_of_extend {R : List Resource} {l l' : Library} (h : l.extend R = .ok l')
    (hR : ∀ r ∈ R, Closed r.contents) : l'.documents = R.reverse ++ l.documents := by
  have hdocuments := foldl_append_eq (·.documents) (fun _ _ => rfl)
    (fun r : Resource => declared (r.contents.depth + 1) r.uri r.contents) R ⟨[], [], []⟩
    (fun r hr => documents_of_closed _ _ (hR r hr))
  unfold extend at h
  dsimp only at h
  split at h
  · cases h
  · obtain rfl := Except.ok.inj h
    dsimp only
    rw [hdocuments]
    rfl

theorem size_eq (l : Library) : l.size = (l.documents.map (fun r => r.contents.size)).sum := by
  have hsum : ∀ (rs : List Resource) (n : Nat), rs.foldl (fun n r => n + r.contents.size) n =
      n + (rs.map (fun r => r.contents.size)).sum := by
    intro rs
    induction rs with
    | nil => exact fun n => rfl
    | cons r rest ih =>
      intro n
      rw [List.foldl_cons, ih, List.map_cons, List.sum_cons]
      omega
  rw [size, hsum, Nat.zero_add]

end Library

/-- The library of resources alone. -/
def libraryOf (R : List Resource) : Library := ⟨R.reverse, []⟩

theorem offers_libraryOf (R : List Resource) : (libraryOf R).Offers R where
  document _ := rfl
  size_le := by
    rw [Library.size_eq, libraryOf, List.map_reverse, List.sum_reverse]

/-- The library of an evaluator has the resources it was built with. -/
theorem Library.offers_of_extend {R : List Resource} {d : Json} {l : Library}
    (h : Metaschema.library.extend (R ++ [⟨Evaluator.defaultBase, d⟩]) = .ok l) (hd : Closed d)
    (hR : ∀ r ∈ R, Closed r.contents) : l.Offers R := by
  have hdocuments := exists_library_of_extend h (fun r hr => by
    rcases List.mem_append.mp hr with hr | hr
    · exact hR r hr
    · exact List.mem_singleton.mp hr ▸ hd)
  rw [List.reverse_append] at hdocuments
  refine ⟨fun handle => ?_, ?_⟩
  · have hbase : (Evaluator.defaultBase == resourceUri handle) = false := by
      refine beq_eq_false_iff_ne.mpr (fun heq => ?_)
      have hhead : Evaluator.defaultBase.toList.head? = some 'u' := by
        rw [heq, toList_resourceUri]
        rfl
      exact absurd hhead (by decide)
    show (l.documents.find? _).map _ = _
    rw [hdocuments, List.find?_append, List.find?_append, find?_metaschema,
      Option.or_none, List.reverse_singleton, List.find?_singleton]
    dsimp only
    rw [hbase]
    rfl
  · rw [size_eq, hdocuments]
    simp only [List.map_append, List.sum_append, List.map_reverse, List.sum_reverse]
    omega

/-- A document without identifiers is read under the identifier of documents that have none. -/
theorem Evaluator.extend_of_build {d : Json} {R : List Resource} {e : Evaluator}
    (h : Evaluator.build d R = .ok e) (hd : Closed d) :
    Metaschema.library.extend (R ++ [⟨Evaluator.defaultBase, d⟩]) = .ok e.library ∧
      e.root = d := by
  unfold Evaluator.build at h
  -- what is found is left open, it would be computed otherwise
  generalize Metaschema.evaluator.findings d = found at h
  rw [hd.keywordText?_eq_none] at h
  dsimp only at h
  split at h
  · cases h
  · next library hlibrary =>
    split at h
    · cases h
    · rcases bind_eq_ok h with ⟨_, -, h⟩
      obtain rfl := Except.ok.inj h
      exact ⟨hlibrary, rfl⟩

theorem Evaluator.offers_of_build {d : Json} {R : List Resource} {e : Evaluator}
    (h : Evaluator.build d R = .ok e) (hd : Closed d) (hR : ∀ r ∈ R, Closed r.contents) :
    e.library.Offers R ∧ e.root = d := by
  rcases Evaluator.extend_of_build h hd with ⟨hlibrary, hroot⟩
  exact ⟨Library.offers_of_extend hlibrary hd hR, hroot⟩

end HttpContract
