import HttpContract.Proofs.Blindness
import HttpContract.Proofs.Composition
import HttpContract.Proofs.Conformance

/-!
# What the schema of schemas has passed once

The schema of schemas has no negation, so what it demands of a document does not depend on the place
where it is asked, nor on the steps that are left, once there are enough for every level of the
document: what it has passed once it passes everywhere (`Passes.everywhere`), by induction on the
levels of the document and, at one level, on the references that are left to follow (`rank`). So a
conforming schema goes on to conform when schemas inside it are exchanged for conforming ones
(`Conforms.exchange`).
-/

namespace HttpContract.Metaschema

open Library Evaluation

/-! ## Schemas of the documents -/

/-- The schemas of a document of the schema of schemas. -/
def schemasOf (r : Resource) : List Json := schemasWithin 8 r.contents

/-- The definitions of a document of the schema of schemas. -/
def definitionsOf (r : Resource) : Fields Json :=
  ((r.contents.get? "$defs").bind Json.members?).getD []

/-- How many references and branches are left to follow at the same place of the value. -/
def rank (s : Json) : Nat :=
  if (s.get? "anyOf").isSome then 4
  else if (s.get? "$dynamicRef").isSome then 3
  else if (s.get? "allOf").isSome then 2
  else if (s.get? "$ref").isSome then 1
  else 0

theorem rank_le (s : Json) : rank s ≤ 4 := by
  unfold rank
  split_ifs <;> decide

theorem contents_mem_schemasOf {r : Resource} (hr : r ∈ documents) : r.contents ∈ schemasOf r :=
  mem_schemasWithin (depth_documents r hr)

theorem mem_schemasOf_of_member {r : Resource} (hr : r ∈ documents) {members : Fields Json}
    (hs : .obj members ∈ schemasOf r) {k : String} {arg t : Json} (hm : (k, arg) ∈ members)
    (ht : t ∈ (if schemaKeywords.contains k then [arg]
      else if listKeywords.contains k then (arg.items?).getD []
      else if mapKeywords.contains k then Fields.values ((arg.members?).getD [])
      else [])) : t ∈ schemasOf r :=
  subschemas_schemasWithin 8 (depth_documents r hr) _ hs _ (List.mem_flatMap.mpr ⟨_, hm, ht⟩)

theorem mem_judging_of_mem_schemasOf {r : Resource} (hr : r ∈ documents) {s : Json}
    (hs : s ∈ schemasOf r) : s ∈ judging :=
  List.mem_flatMap.mpr ⟨r, hr, hs⟩

/-- Only whole documents have identifiers, and branches have fewer references left to follow. -/
theorem schemasOf_facts : ∀ r ∈ documents, ∀ s ∈ schemasOf r,
    (s = r.contents ∨ keywordText? s "$id" = none) ∧ ∀ m ∈ (s.members?).getD [],
      m.1 ∈ ["allOf", "anyOf"] → ∀ t ∈ (m.2.items?).getD [], rank t < rank s := by
  decide +kernel

/-! ## References -/

/-- The references of the documents: the dynamic one, those to vocabularies and those to
definitions. -/
theorem reference_facts : ∀ r ∈ documents, ∀ s ∈ schemasOf r, ∀ m ∈ (s.members?).getD [],
    m.1 ∈ ["$ref", "$dynamicRef"] → m.2 = .str "#meta" ∧ rank joined.contents < rank s ∨
      (∃ v ∈ vocabularies, m.2 = .str v.uri ∧ rank v.contents < rank s) ∨
      ∃ r' ∈ documents, ∃ d ∈ definitionsOf r', rank d.2 < rank s ∧
        (r' = r ∧ m.2 = .str ("#/$defs/" ++ d.1) ∨ m.2 = .str (r'.uri ++ "#/$defs/" ++ d.1)) := by
  decide +kernel

theorem definition_facts : ∀ r ∈ documents, ∀ d ∈ definitionsOf r,
    Fields.get? ((r.contents.members?).getD []) "$defs" = some (.obj (definitionsOf r)) ∧
      Fields.get? (definitionsOf r) d.1 = some d.2 ∧
      keywordText? (.obj (definitionsOf r)) "$id" = none ∧ keywordText? d.2 "$id" = none ∧
      followsSpecification d.2 = true ∧ d.2 ∈ schemasOf r := by
  decide +kernel

theorem definitionPointer_facts : ∀ r ∈ documents, ∀ d ∈ definitionsOf r,
    Uri.cutAt (· == '#') ("#/$defs/" ++ d.1).toList = ([], some ("/$defs/" ++ d.1).toList) ∧
      Uri.cutAt (· == '#') (r.uri ++ "#/$defs/" ++ d.1).toList =
        (r.uri.toList, some ("/$defs/" ++ d.1).toList) ∧
      (String.ofList ("/$defs/" ++ d.1).toList).startsWith "/" = true ∧
      (Uri.segments ((Percent.decodeText? (String.ofList ("/$defs/" ++ d.1).toList)).getD
        (String.ofList ("/$defs/" ++ d.1).toList))).drop 1 = ["$defs", d.1] ∧
      String.ofList (Json.Pointer.unescape "$defs".toList) = "$defs" ∧
      String.ofList (Json.Pointer.unescape d.1.toList) = d.1 := by
  decide +kernel

/-- A definition is found by a pointer, in the same document or in the one that the reference
names. -/
theorem lookup_definitionsOf {s : Scope} {r : Resource} (hr : r ∈ documents) {d : String × Json}
    (hd : d ∈ definitionsOf r) {front : List Char} {target : String}
    (hcut : Uri.cutAt (· == '#') target.toList = (front, some ("/$defs/" ++ d.1).toList))
    (hfront : front = [] ∧ s.base = r.uri ∨ front = r.uri.toList) :
    library.lookup s target = .ok (d.2, { s.enter r.uri with known := true }) := by
  rcases definition_facts r hr d hd with ⟨hdefinitions, htarget, hid, hid', hfollows, -⟩
  rcases definitionPointer_facts r hr d hd with ⟨-, -, hslash, htokens, hdefs, hunescape⟩
  have hfollow : followPointer (String.ofList ("/$defs/" ++ d.1).toList) r.contents
      (s.enter r.uri) ["$defs", d.1] = .ok (d.2, s.enter r.uri) := by
    rw [(members_facts r hr).1, followPointer_obj (by rw [hdefs]; exact hdefinitions),
      followPointer_obj (by rw [hunescape]; exact htarget), followPointer,
      within_of_keywordText?_none hid, within_of_keywordText?_none hid']
  have huri : (if front.isEmpty = true then s.base
      else withoutFragment (absolute s.base (String.ofList front))) = r.uri := by
    rcases hfront with ⟨rfl, hbase⟩ | rfl
    · exact hbase
    · have hempty : r.uri.toList.isEmpty = false := by
        rw [List.isEmpty_eq_false_iff, ne_eq, String.toList_eq_nil_iff]
        exact uri_ne_empty r hr
      rw [hempty, String.ofList_toList, absolute_uri hr, withoutFragment_uri hr]
      rfl
  unfold lookup
  rw [hcut]
  dsimp only
  rw [huri, document?_uri hr]
  dsimp only [Option.getD_some]
  rw [if_pos hslash, htokens, hfollow]
  show Except.ok _ = _
  rw [hfollows]

/-- What a reference in the schema of schemas means is a schema of one of its documents. -/
theorem exists_meaning {r : Resource} (hr : r ∈ documents) {members : Fields Json}
    (hs : .obj members ∈ schemasOf r) {k : String} {arg : Json} (hm : (k, arg) ∈ members)
    (hk : k ∈ ["$ref", "$dynamicRef"]) : ∃ target, arg = .str target ∧ ∃ r' ∈ documents,
      ∃ t ∈ schemasOf r', rank t < rank (.obj members) ∧ ∀ scope : Scope, Rooted scope →
        scope.base = r.uri → ∃ inner, Rooted inner ∧ inner.base = r'.uri ∧
          library.lookup scope target = .ok (t, inner) := by
  rcases reference_facts r hr _ hs _ hm hk with ⟨harg, hrank⟩ | ⟨v, hv, harg, hrank⟩ |
    ⟨r', hr', d, hd, hrank, htarget⟩
  · refine ⟨_, harg, joined, joined_mem, _, contents_mem_schemasOf joined_mem, hrank,
      fun scope hscope _ => ?_⟩
    rcases lookup_meta hscope with ⟨inner, hinner, hbase, hlookup⟩
    exact ⟨inner, hinner, hbase, hlookup⟩
  · have hmem : v ∈ documents := List.mem_cons_of_mem _ hv
    exact ⟨_, harg, v, hmem, _, contents_mem_schemasOf hmem, hrank, fun scope hscope _ =>
      ⟨_, hscope.enter_known hmem, rfl, lookup_vocabulary hv⟩⟩
  · have hmem := (definition_facts r' hr' d hd).2.2.2.2.2
    have hpointer := definitionPointer_facts r' hr' d hd
    rcases htarget with ⟨rfl, harg⟩ | harg
    · exact ⟨_, harg, r', hr', d.2, hmem, hrank, fun scope hscope hbase =>
        ⟨_, hscope.enter_known hr', rfl, lookup_definitionsOf hr' hd hpointer.1
          (Or.inl ⟨rfl, hbase⟩)⟩⟩
    · exact ⟨_, harg, r', hr', d.2, hmem, hrank, fun scope hscope _ =>
        ⟨_, hscope.enter_known hr', rfl, lookup_definitionsOf hr' hd hpointer.2.1 (Or.inr rfl)⟩⟩

/-! ## From one place to another -/

variable {n m : Nat} {p q : Place} {x : Json}

/-- What the schema has passed with some steps at one place of its document, it passes with others
at another place. -/
def Transfers (n m : Nat) (uri : String) (s x : Json) : Prop :=
  ∀ p q : Place, Rooted p.scope → p.scope.base = uri → Rooted q.scope → q.scope.base = uri →
    (rules library n).judge p s x = [] → (rules library m).judge q s x = []

section

variable {r : Resource} (hr : r ∈ documents) {members : Fields Json}
  (hs : .obj members ∈ schemasOf r) (hp : Rooted p.scope) (hpbase : p.scope.base = r.uri)
  (hq : Rooted q.scope) (hqbase : q.scope.base = r.uri) {k : String} {arg : Json}
  (hm : (k, arg) ∈ members)

include hr hs hp hpbase hq hqbase hm

section

variable (hhere : ∀ r' ∈ documents, ∀ t ∈ schemasOf r', rank t < rank (.obj members) →
  Transfers n m r'.uri t x)

include hhere

theorem transfer_reference (hk : k ∈ ["$ref", "$dynamicRef"])
    (h : reference library (rules library n) p members k arg x = []) :
    reference library (rules library m) q members k arg x = [] := by
  rcases exists_meaning hr hs hm hk with ⟨target, rfl, r', hr', t, ht, hrank, hlookup⟩
  have hne : t ≠ .obj members := by
    rintro rfl
    exact Nat.lt_irrefl _ hrank
  rcases hlookup p.scope hp hpbase with ⟨inner, hinner, hbase, hp'⟩
  rcases hlookup q.scope hq hqbase with ⟨inner', hinner', hbase', hq'⟩
  unfold reference target? at h ⊢
  dsimp only at h ⊢
  rw [hp'] at h
  rw [hq']
  dsimp only at h ⊢
  rw [if_neg hne] at h ⊢
  exact hhere r' hr' t ht hrank _ _ hinner hbase hinner' hbase' h

/-- A branch stands at the same place of the value. -/
theorem transfer_branch (hk : k ∈ ["allOf", "anyOf"]) {s : Json} (ht : s ∈ (arg.items?).getD [])
    (token : String) (h : (rules library n).judge (p.entry k token) s x = []) :
    (rules library m).judge (q.entry k token) s x = [] := by
  refine hhere r hr s (mem_schemasOf_of_member hr hs hm ?_)
    ((schemasOf_facts r hr _ hs).2 _ hm hk s ht) (p.entry k token) (q.entry k token)
    hp hpbase hq hqbase h
  rcases List.mem_pair.mp hk with rfl | rfl <;> exact ht

theorem transfer_branches (hk : k = "allOf")
    (h : (branches p k arg).flatMap (fun (z, s) => (rules library n).judge z s x) = []) :
    (branches q k arg).flatMap (fun (z, s) => (rules library m).judge z s x) = [] := by
  rw [List.flatMap_eq_nil_iff] at h ⊢
  intro b hb
  rcases List.mem_map.mp hb with ⟨y, hy, rfl⟩
  exact transfer_branch hr hs hp hpbase hq hqbase hm hhere (by simp [hk]) (mem_of_mem_indexed hy)
    (toString y.1) (h _ (List.mem_map.mpr ⟨y, hy, rfl⟩))

theorem transfer_anyOf (hk : k = "anyOf") (h : anyOf (rules library n) p arg x = []) :
    anyOf (rules library m) q arg x = [] := by
  subst hk
  unfold anyOf at h ⊢
  split at h
  · next hany =>
    rcases List.any_eq_true.mp hany with ⟨b, hb, hvalid⟩
    rcases List.mem_map.mp hb with ⟨y, hy, rfl⟩
    have hpassed := transfer_branch hr hs hp hpbase hq hqbase hm hhere (by decide)
      (mem_of_mem_indexed hy) (toString y.1) (List.isEmpty_iff.mp hvalid)
    rw [if_pos]
    exact List.any_eq_true.mpr ⟨_, List.mem_map.mpr ⟨y, hy, rfl⟩, List.isEmpty_iff.mpr hpassed⟩
  · cases h

end

section

variable (hbelow : ∀ t ∈ schemasOf r, ∀ y, y.depth < x.depth → Transfers n m r.uri t y)

include hbelow

theorem transfer_properties (hk : k = "properties")
    (h : properties (rules library n) p arg x = []) :
    properties (rules library m) q arg x = [] := by
  subst hk
  cases x with
  | obj entries =>
    cases arg with
    | obj schemas =>
      rw [properties_eq_nil_iff] at h ⊢
      exact fun e he y hy => hbelow e.2
        (mem_schemasOf_of_member hr hs hm (List.mem_map_of_mem he)) y
        (Json.depth_lt_of_mem_obj (Fields.mem_of_get? hy)) ((p.entry "properties" e.1).part e.1)
        ((q.entry "properties" e.1).part e.1) hp hpbase hq hqbase (h e he y hy)
    | _ => rfl
  | _ => rfl

theorem transfer_additionalProperties (hk : k = "additionalProperties")
    (h : additionalProperties (rules library n) p members arg x = []) :
    additionalProperties (rules library m) q members arg x = [] := by
  subst hk
  rcases ((judging_spec _ (mem_judging_of_mem_schemasOf hr hs)).2 _ hm).2.2.1 rfl with
    ⟨-, hnamed, hpatterns⟩
  cases htakes : takesOver members with
  | false => simp [additionalProperties, htakes]
  | true =>
    cases x with
    | obj entries =>
      have hdeclared : ∀ (z : Place) (name : String), declaredFor z members name = [] :=
        fun z name => by
          have hnamed : Fields.get? members "properties" = none := hnamed
          have hpatterns : Fields.get? members "patternProperties" = none := hpatterns
          simp [declaredFor, hnamed, hpatterns, matching]
      rw [additionalProperties_eq_nil_iff htakes] at h ⊢
      refine fun e he => ⟨fun b hb => by simp [hdeclared] at hb, fun _ => ?_⟩
      rcases (h e he).2 (hdeclared p e.1) with ⟨hne, hjudge⟩
      exact ⟨hne, hbelow arg (mem_schemasOf_of_member hr hs hm List.mem_cons_self) e.2
        (Json.depth_lt_of_mem_obj he) ((p.keyword "additionalProperties").part e.1)
        ((q.keyword "additionalProperties").part e.1) hp hpbase hq hqbase hjudge⟩
    | _ => simp [additionalProperties]

theorem transfer_items (hk : k = "items")
    (h : remainingItems (rules library n) p members arg x = []) :
    remainingItems (rules library m) q members arg x = [] := by
  subst hk
  cases x with
  | arr xs =>
    rw [remainingItems_eq_nil_iff] at h ⊢
    exact fun i y hi hy => hbelow arg (mem_schemasOf_of_member hr hs hm List.mem_cons_self) y
      (Json.depth_lt_of_mem_arr (List.mem_of_getElem? hy)) ((p.keyword "items").part (toString i))
      ((q.keyword "items").part (toString i)) hp hpbase hq hqbase (h i y hi hy)
  | _ => rfl

theorem transfer_propertyNames (hk : k = "propertyNames")
    (h : propertyNames (rules library n) p arg x = []) :
    propertyNames (rules library m) q arg x = [] := by
  subst hk
  have harg := ((judging_spec _ (mem_judging_of_mem_schemasOf hr hs)).2 _ hm).2.2.2.1 rfl
  cases arg with
  | obj keywords =>
    cases x with
    | obj entries =>
      have hnames : ∀ (j : Nat) (z : Place), propertyNames (rules library j) z (.obj keywords)
          (.obj entries) = entries.flatMap (fun e =>
            (rules library j).judge (z.keyword "propertyNames") (.obj keywords) (.str e.1)) := by
        intro j z
        cases entries <;> rfl
      rw [hnames, List.flatMap_eq_nil_iff] at h ⊢
      exact fun e he => hbelow _ (mem_schemasOf_of_member hr hs hm List.mem_cons_self) (.str e.1)
        (Nat.lt_of_le_of_lt (Nat.zero_le _) (Json.depth_lt_of_mem_obj he))
        (p.keyword "propertyNames") (q.keyword "propertyNames") hp hpbase hq hqbase (h e he)
    | _ => rfl
  | _ => cases harg

end

/-- What a keyword has passed at one place it passes at another. -/
theorem transfer_keyword
    (hhere : ∀ r' ∈ documents, ∀ t ∈ schemasOf r', rank t < rank (.obj members) →
      Transfers n m r'.uri t x)
    (hbelow : ∀ t ∈ schemasOf r, ∀ y, y.depth < x.depth → Transfers n m r.uri t y)
    (h : keywordFindings library (rules library n) p members k arg x = []) :
    keywordFindings library (rules library m) q members k arg x = [] := by
  unfold keywordFindings at h ⊢
  rw [hp.known] at h
  rw [hq.known]
  rcases ((judging_spec _ (mem_judging_of_mem_schemasOf hr hs)).2 _ hm).1 with hk | hk
  · have hviolations : (Assertion.violations k arg x).map (p.keyword k).report = [] →
        (Assertion.violations k arg x).map (q.keyword k).report = [] :=
      fun h => List.map_eq_nil_iff.mpr (List.map_eq_nil_iff.mp h)
    simp only [asserting, List.mem_cons, List.not_mem_nil, or_false] at hk
    rcases hk with rfl | rfl | rfl | rfl | rfl | rfl | rfl | rfl | rfl | rfl | rfl
    all_goals exact hviolations h
  · simp only [List.mem_cons, List.not_mem_nil, or_false] at hk
    rcases hk with rfl | rfl | rfl | rfl | rfl | rfl | rfl | rfl
    · exact transfer_reference hr hs hp hpbase hq hqbase hm hhere (by decide) h
    · exact transfer_reference hr hs hp hpbase hq hqbase hm hhere (by decide) h
    · exact transfer_branches hr hs hp hpbase hq hqbase hm hhere rfl h
    · exact transfer_anyOf hr hs hp hpbase hq hqbase hm hhere rfl h
    · change (if takesOver members then [] else properties (rules library n) p arg x) = [] at h
      show (if takesOver members then [] else properties (rules library m) q arg x) = []
      split at h
      · next htakes => rw [if_pos htakes]
      · next htakes =>
        rw [if_neg htakes]
        exact transfer_properties hr hs hp hpbase hq hqbase hm hbelow rfl h
    · exact transfer_additionalProperties hr hs hp hpbase hq hqbase hm hbelow rfl h
    · exact transfer_propertyNames hr hs hp hpbase hq hqbase hm hbelow rfl h
    · exact transfer_items hr hs hp hpbase hq hqbase hm hbelow rfl h

end

/-- What a schema has passed somewhere it passes everywhere in its document, with steps enough for
every level of the value. -/
theorem transfers {r : Resource} (hr : r ∈ documents) {s : Json} (hs : s ∈ schemasOf r)
    (hm : 6 * x.depth + rank s < m) : Transfers n m r.uri s x := by
  generalize hmeasure : 6 * x.depth + rank s = k at hm
  induction k using Nat.strongRecOn generalizing n m r s x with
  | _ k ih =>
    subst hmeasure
    intro p q hp hpbase hq hqbase h
    obtain ⟨m, rfl⟩ : ∃ j, m = j + 1 := ⟨m - 1, by omega⟩
    cases n with
    | zero => cases h
    | succ n =>
      cases s with
      | obj members =>
        rw [judge_obj_eq_nil_iff] at h ⊢
        -- only whole documents have an identifier, under which they stand
        have hwithin : ∀ {z : Place}, Rooted z.scope → z.scope.base = r.uri →
            Rooted (z.scope.within (.obj members)) ∧
              (z.scope.within (.obj members)).base = r.uri := by
          intro z hz hbase
          rcases (schemasOf_facts r hr _ hs).1 with heq | hid
          · rw [heq]
            exact ⟨hz.within hr hbase, base_within hr hbase⟩
          · rw [within_of_keywordText?_none hid]
            exact ⟨hz, hbase⟩
        rcases hwithin hp hpbase with ⟨hp, hpbase⟩
        rcases hwithin hq hqbase with ⟨hq, hqbase⟩
        refine fun e he => transfer_keyword hr hs hp hpbase hq hqbase he ?_ ?_ (h e he)
        · exact fun r' hr' t ht hlt => ih (6 * x.depth + rank t) (by omega) hr' ht rfl (by omega)
        · intro t ht y hlt
          have hrank := rank_le t
          exact ih (6 * y.depth + rank t) (by omega) hr ht rfl (by omega)
      | bool b => cases b with
        | true => rfl
        | false => cases h
      | _ => rfl

/-- What a schema of a document has passed once. -/
theorem Passes.everywhere {r : Resource} (hr : r ∈ documents) {s : Json} (hs : s ∈ schemasOf r)
    (h : Passes r.uri s x) (hm : 6 * x.depth + rank s < m) (hq : Rooted q.scope)
    (hqbase : q.scope.base = r.uri) : (rules library m).judge q s x = [] := by
  rcases h with ⟨n, p, hp, hpbase, hnil⟩
  exact transfers hr hs hm p q hp hpbase hq hqbase hnil

/-- The schema of schemas accepts what it has nothing against once. -/
theorem Conforms.accepted (h : Conforms x) : Accepted (6 * x.depth + 5) x := by
  intro m hm p hp hbase
  have hrank := rank_le joined.contents
  exact Passes.everywhere joined_mem (contents_mem_schemasOf joined_mem) h (by omega) hp hbase

end HttpContract.Metaschema

/-! ## Exchanging schemas that plans follow -/

namespace HttpContract.Evaluation

/-- The value of a keyword, and one in which schemas that plans follow have been exchanged for
others with a property. -/
inductive Exchanged (P : Json → Prop) : String → Json → Json → Prop where
  | beside {k : String} {v : Json} (hk : k ∉ followedKeywords) : Exchanged P k v v
  | single {k : String} {s s' : Json} (hk : k ∈ ["additionalProperties", "items"]) (h : P s') :
      Exchanged P k s s'
  | named {k : String} {ss ss' : Fields Json} (hk : k ∈ ["patternProperties", "properties"])
      (h : List.Forall₂ (fun a b => a.1 = b.1 ∧ P b.2) ss ss') : Exchanged P k (.obj ss) (.obj ss')
  | listed {k : String} {xs xs' : List Json} (hk : k ∈ ["allOf", "prefixItems"])
      (h : List.Forall₂ (fun _ y => P y) xs xs') : Exchanged P k (.arr xs) (.arr xs')

/-- The keywords of a schema, and those of one in which schemas that plans follow have been
exchanged. -/
abbrev ExchangedMembers (P : Json → Prop) : Fields Json → Fields Json → Prop :=
  List.Forall₂ (fun a b => a.1 = b.1 ∧ Exchanged P a.1 a.2 b.2)

theorem Exchanged.mono {P Q : Json → Prop} {k : String} {v v' : Json} (h : Exchanged P k v v')
    (hPQ : ∀ s, P s → Q s) : Exchanged Q k v v' := by
  cases h with
  | beside hk => exact .beside hk
  | single hk h => exact .single hk (hPQ _ h)
  | named hk h => exact .named hk (h.imp (fun _ _ hab => ⟨hab.1, hPQ _ hab.2⟩))
  | listed hk h => exact .listed hk (h.imp (fun _ _ hab => hPQ _ hab))

end HttpContract.Evaluation

namespace HttpContract.Metaschema

open Library Evaluation

variable {x : Json}

/-- What the documents demand of the values of keywords: of those that plans follow they demand
schemas. -/
theorem keywordsOf_facts : ∀ r ∈ documents, ∀ m ∈ keywordsOf r, m.2 ∈ schemasOf r ∧
    (m.1 ∈ ["additionalProperties", "items"] → m.2 = schema) ∧
    (m.1 ∈ ["patternProperties", "properties"] → m.2 = mapOf schema) ∧
    (m.1 ∈ ["allOf", "anyOf", "prefixItems"] →
      r.uri = applicator.uri ∧ m.2 = ref "#/$defs/schemaArray") := by
  decide +kernel

theorem conforms_of_accepted {n : Nat} (h : Accepted n x) : Conforms x :=
  ⟨n, evaluator.start, rooted_start, rfl, h n (Nat.le_refl n) _ rooted_start rfl⟩

theorem Conforms.findings (h : Conforms x) : evaluator.findings x = [] :=
  findings_of_accepted h.accepted (by omega)

/-- What the documents say about a keyword, a conforming schema has passed. -/
theorem Conforms.entry {members : Fields Json} (h : Conforms (.obj members)) {r : Resource}
    (hr : r ∈ documents) {k : String} {s v : Json} (hk : (k, s) ∈ keywordsOf r)
    (hv : Fields.get? members k = some v) : Passes r.uri s v := by
  rcases List.mem_cons.mp hr with rfl | hmem
  · exact Passes.entry joined_mem h hk hv
  · exact Passes.entry hr (h.vocabulary hmem) hk hv

/-- Lists of schemas are not empty. -/
theorem ne_nil_of_schemaArray {xs : List Json}
    (h : Passes applicator.uri (ref "#/$defs/schemaArray") (.arr xs)) : xs ≠ [] := by
  have harray := Passes.definition applicator_mem "schemaArray" (by decide)
    rfl rfl rfl rfl rfl rfl (by decide) h
  rcases harray.keyword (by decide : ("minItems", Json.ofNat 1) ∈ _) rfl with
    ⟨n, p, hp, -, hnil⟩
  rintro rfl
  have hviolations : (Assertion.violations "minItems" (Json.ofNat 1) (.arr [])).map
      (p.keyword "minItems").report = [] := by
    unfold keywordFindings at hnil
    rw [hp.known] at hnil
    exact hnil
  rw [List.map_eq_nil_iff] at hviolations
  revert hviolations
  decide

section

variable {members : Fields Json} {k : String} {v v' s : Json} {r : Resource} {n : Nat} {p : Place}
  (h : Conforms (.obj members)) (hv : Fields.get? members k = some v)
  (hexchanged : Exchanged Conforms k v v') (hr : r ∈ documents) (hs : (k, s) ∈ keywordsOf r)
  (hn : 6 * v'.depth + 6 ≤ n) (hp : Rooted p.scope) (hbase : p.scope.base = r.uri)

include h hv hexchanged hr hs hn hp hbase

/-- A keyword in whose value schemas have been exchanged for conforming ones satisfies what the
documents say about it. -/
theorem Conforms.judge_exchanged : (rules library n).judge p s v' = [] := by
  have hpassed := h.entry hr hs hv
  rcases keywordsOf_facts r hr _ hs with ⟨hmem, hsingle, hnamed, hlisted⟩
  cases hexchanged with
  | beside _ =>
    have hrank := rank_le s
    exact hpassed.everywhere hr hmem (by omega) hp hbase
  | single hk hschema =>
    obtain rfl : s = schema := hsingle hk
    obtain ⟨n, rfl⟩ : ∃ j, n = j + 1 := ⟨n - 1, by omega⟩
    exact judge_schema (hschema.accepted.mono (by omega)) hp
  | @named ss ss' hk hschemas =>
    obtain rfl : s = mapOf schema := hnamed hk
    obtain ⟨n, rfl⟩ : ∃ j, n = j + 2 := ⟨n - 2, by omega⟩
    refine judge_mapOf (fun m hm => ?_) hp
    rcases exists_of_forall₂ hschemas.flip hm with ⟨m', -, -, hconforms⟩
    have hlt := Json.depth_lt_of_mem_obj (show (m.1, m.2) ∈ _ from hm)
    exact hconforms.accepted.mono (by omega)
  | @listed xs xs' hk hschemas =>
    obtain ⟨huri, rfl⟩ : r.uri = applicator.uri ∧ s = ref "#/$defs/schemaArray" := by
      refine hlisted ?_
      rcases List.mem_pair.mp hk with rfl | rfl <;> simp
    obtain ⟨n, rfl⟩ : ∃ j, n = j + 3 := ⟨n - 3, by omega⟩
    have hne : xs' ≠ [] := by
      rintro rfl
      cases hschemas
      exact ne_nil_of_schemaArray (huri ▸ hpassed) rfl
    refine judge_schemaArray hne (fun y hy => ?_) hp (hbase.trans huri)
    obtain ⟨_, -, hconforms : Conforms y⟩ := exists_of_forall₂ hschemas.flip hy
    have hlt := Json.depth_lt_of_mem_arr hy
    exact hconforms.accepted.mono (by omega)

end

/-- A conforming schema goes on to conform when schemas that plans follow are exchanged for
conforming ones. -/
theorem Conforms.exchange {members members' : Fields Json} (h : Conforms (.obj members))
    (hexchanged : ExchangedMembers Conforms members members') : Conforms (.obj members') := by
  refine conforms_of_accepted (accepted_of_fits (n := 6 * (Json.obj members').depth) rfl ?_)
  rintro j hj r hr _ ⟨⟩ ⟨k, s⟩ hs v' hv' p hp hbase
  rcases exists_of_rel (rel_get?_of_name k hexchanged) hv' with ⟨v, hv, hpair⟩
  have hlt := Json.depth_lt_of_mem_obj (Fields.mem_of_get? hv')
  exact h.judge_exchanged hv hpair hr hs (by omega) hp hbase

/-! ## Schemas with one keyword -/

/-- Of a key that is no keyword nothing is demanded. -/
theorem accepted_marker (v : Json) : Accepted 3 (.obj [(Marker.key, v)]) := by
  have hno : ∀ r ∈ documents, ∀ m ∈ keywordsOf r, m.1 ≠ Marker.key := by decide +kernel
  exact accepted_singleton (n := 0) (fun r hr s hs => absurd rfl (hno r hr _ hs))

theorem conforms_properties {schemas : Fields Json} (h : ∀ m ∈ schemas, Conforms m.2) :
    Conforms (.obj [("properties", .obj schemas)]) := by
  refine conforms_of_accepted (accepted_singleton (n := 6 * (Json.obj schemas).depth + 7) ?_)
  intro r hr s hs j hj p hp _
  obtain rfl : s = mapOf schema :=
    (keywordsOf_facts r hr _ hs).2.2.1 (show "properties" ∈ _ by decide)
  obtain ⟨j, rfl⟩ : ∃ i, j = i + 2 := ⟨j - 2, by omega⟩
  refine judge_mapOf (fun m hm => (h m hm).accepted.mono ?_) hp
  have hlt := Json.depth_lt_of_mem_obj (show (m.1, m.2) ∈ _ from hm)
  omega

theorem conforms_anyOf {schemas : List Json} (hne : schemas ≠ []) (h : ∀ s ∈ schemas, Conforms s) :
    Conforms (.obj [("anyOf", .arr schemas)]) := by
  refine conforms_of_accepted (accepted_singleton (n := 6 * (Json.arr schemas).depth + 8) ?_)
  intro r hr s hs j hj p hp hbase
  obtain ⟨huri, rfl⟩ : r.uri = applicator.uri ∧ s = ref "#/$defs/schemaArray" :=
    (keywordsOf_facts r hr _ hs).2.2.2 (show "anyOf" ∈ _ by decide)
  obtain ⟨j, rfl⟩ : ∃ i, j = i + 3 := ⟨j - 3, by omega⟩
  refine judge_schemaArray hne (fun y hy => (h y hy).accepted.mono ?_) hp (hbase.trans huri)
  have hlt := Json.depth_lt_of_mem_arr hy
  omega

end HttpContract.Metaschema
