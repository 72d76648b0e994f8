import HttpContract.Proofs.Renaming

/-!
# Libraries under a renaming of handles

What documents declare follows a renaming of handles (`linked_declared`). A library that is extended
by documents, given in any order and under their renamed identifiers, holds the same documents, as
long as no two of them declare anything under the same identifier (`rel_extend`).
-/

namespace HttpContract

open EvaluationForm Evaluation Library Json Identifier

variable {π : Nat → Nat}

/-! ## Documents that spell no identifiers -/

instance (text : String) : Decidable (Spells text) :=
  inferInstanceAs (Decidable (marked <:+: text.toList))

/-- The keywords whose texts are read as references. -/
def resolving : List String := ["$ref", "$dynamicRef", "$id", "$schema"]

/-- No reference in the document spells part of an identifier of a handle. -/
def Foreign (d : Json) : Prop := ∀ members, .obj members ∈ d.components →
  ∀ k ∈ resolving, ∀ s, (k, .str s) ∈ members → ¬ Spells s

theorem Foreign.of_subset {d d' : Json} (h : Foreign d) (hsub : d'.components ⊆ d.components) :
    Foreign d' :=
  fun members hm => h members (hsub hm)

theorem Foreign.of_mem_obj {members : Fields Json} {k : String} {d : Json}
    (h : Foreign (.obj members)) (hd : (k, d) ∈ members) : Foreign d :=
  h.of_subset (components_subset_obj hd)

theorem Foreign.of_mem_arr {items : List Json} {d : Json} (h : Foreign (.arr items))
    (hd : d ∈ items) : Foreign d :=
  h.of_subset (components_subset_arr hd)

/-- Renaming handles leaves documents alone that do not refer to them. -/
theorem Foreign.relink_eq {d : Json} (h : Foreign d) : relink (rename π) d = d := by
  generalize hdepth : d.depth = n
  induction n using Nat.strongRecOn generalizing d with
  | _ n ih =>
    subst hdepth
    cases d with
    | str s => exact relink_str s
    | arr xs =>
      unfold relink
      rw [relinkAt_arr]
      refine congrArg Json.arr (List.map_congr_left (g := id) (fun x hx => ?_) |>.trans (by simp))
      exact ih _ (Json.depth_lt_of_mem_arr hx) (h.of_mem_arr hx) rfl
    | obj ms =>
      unfold relink
      rw [relinkAt_obj, relinkMembers_eq]
      refine congrArg Json.obj (List.map_congr_left (g := id) (fun m hm => ?_) |>.trans (by simp))
      rcases m with ⟨k, x⟩
      refine Prod.ext rfl ?_
      show relinkAt (rename π) k x = x
      by_cases hk : k = "$ref"
      · subst hk
        cases x with
        | str s =>
          have hspells := h ms (mem_components _) "$ref" (by decide) s hm
          rw [relinkAt_str, if_pos rfl, rename_of_not_spells hspells]
        | _ => exact ih _ (Json.depth_lt_of_mem_obj hm) (h.of_mem_obj hm) rfl
      · rw [relinkAt_of_ne hk]
        exact ih _ (Json.depth_lt_of_mem_obj hm) (h.of_mem_obj hm) rfl
    | _ => rfl

theorem Foreign.tame {d : Json} (h : Foreign d) : Tame d := by
  intro members hm
  have hinside : Foreign (.obj members) := h.of_subset (components_subset d hm)
  refine ⟨fun s hs => Or.inr ?_, fun k hk s hs => ?_, fun k hk x hx π => ?_⟩
  · exact h members hm "$ref" (by decide) s hs
  · exact h members hm k (List.mem_cons_of_mem _ hk) s hs
  · have hne : k ≠ "$ref" := by
      rcases List.mem_pair.mp hk with rfl | rfl <;> decide
    rw [relinkAt_of_ne hne]
    exact (hinside.of_mem_obj hx).relink_eq

/-- Foreign documents correspond to themselves. -/
theorem Foreign.linked {d : Json} (h : Foreign d) : Linked π d d := ⟨h.tame, "", h.relink_eq.symm⟩

/-! ## Declarations -/

/-- A document under its identifier, and what becomes of them. -/
def Resource.Linked (π : Nat → Nat) (r r' : Resource) : Prop :=
  r'.uri = rename π r.uri ∧ HttpContract.Linked π r.contents r'.contents

/-- The same is declared by corresponding documents. -/
structure Library.Declared.Linked (π : Nat → Nat) (a b : Declared) : Prop where
  documents : List.Forall₂ (Resource.Linked π) a.documents b.documents
  anchors : List.Forall₂ (Anchor.Linked π) a.anchors b.anchors
  references : b.references = a.references.map (rename π)

theorem forall₂_flatMap {α β γ : Type} {R : β → γ → Prop} {f : α → List β} {g : α → List γ} :
    ∀ {xs : List α}, (∀ x ∈ xs, List.Forall₂ R (f x) (g x)) →
      List.Forall₂ R (xs.flatMap f) (xs.flatMap g)
  | [], _ => .nil
  | x :: rest, h => by
    rw [List.flatMap_cons, List.flatMap_cons]
    exact List.rel_append (h x List.mem_cons_self)
      (forall₂_flatMap (fun y hy => h y (List.mem_cons_of_mem _ hy)))

theorem forall₂_items {items : List Json} (h : Tame (.arr items)) :
    List.Forall₂ (Linked π) items (items.map (relinkAt (rename π) "")) := by
  rw [List.forall₂_map_right_iff]
  exact List.forall₂_same.mpr (fun x hx => .relinkAt (h.of_mem_arr hx) "")

theorem forall₂_values {members : Fields Json} (h : Tame (.obj members)) :
    List.Forall₂ (Linked π) (Fields.values members)
      (Fields.values (relinkMembers (rename π) members)) := by
  unfold Fields.values
  rw [relinkMembers_eq, List.map_map, List.forall₂_map_left_iff, List.forall₂_map_right_iff]
  exact List.forall₂_same.mpr (fun m hm => .relinkAt (h.of_mem_obj hm) m.1)

/-- Corresponding documents have corresponding schemas within them. -/
theorem forall₂_subschemas {d d' : Json} (h : Linked π d d') :
    List.Forall₂ (Linked π) (subschemas d) (subschemas d') := by
  rcases h with ⟨htame, key, rfl⟩
  cases d with
  | obj members =>
    unfold subschemas
    rw [relinkAt_obj]
    show List.Forall₂ _ (members.flatMap _) ((relinkMembers (rename π) members).flatMap _)
    rw [flatMap_relinkMembers]
    refine forall₂_flatMap (fun m hm => ?_)
    rcases m with ⟨k, v⟩
    have hv := htame.of_mem_obj hm
    dsimp only
    split
    · exact .cons (.relinkAt hv k) .nil
    · split
      · cases v with
        | arr xs =>
          rw [relinkAt_arr]
          exact forall₂_items hv
        | _ => exact .nil
      · split
        · cases v with
          | obj ss =>
            rw [relinkAt_obj]
            exact forall₂_values hv
          | _ => exact .nil
        · exact .nil
  | _ => exact .nil

theorem baseOf_rename (base : String) {d d' : Json} (h : Linked π d d') :
    baseOf (rename π base) d' = rename π (baseOf base d) := by
  unfold baseOf
  rw [h.keyword_eq (by decide)]
  cases hid : keywordText? d "$id" with
  | none => rfl
  | some id => exact absolute_rename π (h.1.not_spells (by decide) hid) base

theorem scheme_split_rename (uri : String) :
    (Uri.split (rename π uri)).scheme = (Uri.split uri).scheme := by
  by_cases h : Internal uri
  · rcases h with ⟨handle, t, ht, rfl⟩
    rw [rename_extended π handle ht, split_extended handle ht, split_extended (π handle) ht]
  · rw [rename_of_not_internal π h]

/-- The identifiers of handles lead to documents of their own. -/
theorem isInternal_resourceUri (handle : Nat) : isInternal (resourceUri handle) = false := by
  have hstart : ∀ front : String, front.toList.head? ≠ some 'u' → front.toList ≠ [] →
      (resourceUri handle).startsWith front = false := by
    intro front hhead hne
    rw [← Bool.not_eq_true]
    intro hstarts
    rw [String.startsWith_string_iff, toList_resourceUri] at hstarts
    cases hfront : front.toList with
    | nil => exact hne hfront
    | cons c rest =>
      rw [hfront] at hstarts hhead
      rw [(List.cons_prefix_cons.mp hstarts).1] at hhead
      exact hhead rfl
  unfold isInternal
  rw [hstart "#" (by decide) (by decide), Bool.false_or, List.any_eq_false]
  intro known hknown
  have hfacts : ∀ known ∈ ["https://json-schema.org/draft/2020-12/",
      "https://json-schema.org/draft/2019-09/", "http://json-schema.org/draft-07/",
      "http://json-schema.org/draft-06/", "http://json-schema.org/draft-04/"],
      known.toList.head? ≠ some 'u' ∧ known.toList ≠ [] := by decide
  rw [hstart known (hfacts known hknown).1 (hfacts known hknown).2]
  exact Bool.false_ne_true

theorem isInternal_rename {r : String} (hr : Readable r) :
    isInternal (rename π r) = isInternal r := by
  rcases hr with ⟨handle, rfl⟩ | hr
  · rw [rename_resourceUri, isInternal_resourceUri, isInternal_resourceUri]
  · rw [rename_of_not_spells hr]

namespace Linked

theorem reference {d d' : Json} (h : Linked π d d') :
    keywordText? d' "$ref" = (keywordText? d "$ref").map (rename π) := by
  rcases h with ⟨-, key, rfl⟩
  unfold Library.keywordText?
  rw [get?_relinkAt]
  cases d.get? "$ref" with
  | none => rfl
  | some v =>
    cases v with
    | str s => simp [relinkAt_str, Json.text?]
    | _ => rfl

theorem readable {d d' : Json} (h : Linked π d d') {r : String}
    (hr : keywordText? d "$ref" = some r) : Readable r := by
  cases d with
  | obj members =>
    rcases Option.bind_eq_some_iff.mp hr with ⟨v, hv, htext⟩
    cases v with
    | str s =>
      obtain rfl := Option.some.inj htext
      exact h.1.members.references _ (Fields.mem_of_get? hv)
    | _ => cases htext
  | _ => cases hr

end Linked

/-- The references that a schema has itself. -/
def ownReferences (d : Json) : List String :=
  (keywordText? d "$ref").toList ++ (keywordText? d "$schema").toList

theorem ownReferences_rename {d d' : Json} (h : Linked π d d') :
    ownReferences d' = (ownReferences d).map (rename π) ∧ ∀ r ∈ ownReferences d, Readable r := by
  have hspecification : ∀ r ∈ (keywordText? d "$schema").toList, ¬ Spells r :=
    fun r hr => h.1.not_spells (by decide) (Option.mem_toList.mp hr)
  unfold ownReferences
  rw [h.reference, h.keyword_eq (by decide), List.map_append]
  refine ⟨congrArg₂ (· ++ ·) ?_ ?_, fun r hr => ?_⟩
  · cases keywordText? d "$ref" <;> rfl
  · exact (List.map_congr_left (g := id) (fun r hr => rename_of_not_spells (hspecification r hr))
      |>.trans (by simp)).symm
  · rcases List.mem_append.mp hr with hr | hr
    · exact h.readable (Option.mem_toList.mp hr)
    · exact Or.inr (hspecification r hr)

theorem linked_declaredHere (base : String) {d d' : Json} (h : Linked π d d') :
    (declaredHere base d).Linked π (declaredHere (rename π base) d') := by
  have hanchor : ∀ k : String, k ≠ "$ref" → ∀ dynamic, List.Forall₂ (Anchor.Linked π)
      ((keywordText? d k).map (fun n => Anchor.mk base n dynamic d)).toList
      ((keywordText? d' k).map (fun n => Anchor.mk (rename π base) n dynamic d')).toList := by
    intro k hk dynamic
    rw [h.keyword_eq hk]
    cases keywordText? d k with
    | none => exact .nil
    | some n => exact .cons ⟨rfl, rfl, rfl, h⟩ .nil
  refine ⟨?_, ?_, ?_⟩
  · unfold declaredHere
    rw [h.keyword_eq (by decide)]
    dsimp only
    split
    · exact .cons ⟨rfl, h⟩ .nil
    · exact .nil
  · exact List.rel_append (hanchor "$anchor" (by decide) false)
      (hanchor "$dynamicAnchor" (by decide) true)
  · rcases ownReferences_rename h with ⟨hown, hreadable⟩
    unfold declaredHere
    dsimp only
    rw [scheme_split_rename]
    split
    · rfl
    · show (ownReferences d').filterMap _ = ((ownReferences d).filterMap _).map _
      rw [hown, List.filterMap_map, List.map_filterMap]
      refine List.filterMap_congr (fun r hr => ?_)
      have hr := hreadable r hr
      rw [Function.comp_apply, isInternal_rename hr, absolute_rename_of_readable hr]
      split <;> rfl

theorem Library.Declared.Linked.append {a b a' b' : Declared} (h : a.Linked π a')
    (h' : b.Linked π b') : (a.append b).Linked π (a'.append b') where
  documents := List.rel_append h.documents h'.documents
  anchors := List.rel_append h.anchors h'.anchors
  references := by
    show a'.references ++ b'.references = (a.references ++ b.references).map _
    rw [h.references, h'.references, List.map_append]

/-- Corresponding documents declare the same, at every depth. -/
theorem linked_declared : ∀ (fuel : Nat) (base : String) {d d' : Json}, Linked π d d' →
    (declared fuel base d).Linked π (declared fuel (rename π base) d')
  | 0, _, _, _, _ => ⟨.nil, .nil, rfl⟩
  | fuel + 1, base, d, d', h => by
    have hfold : ∀ (xs ys : List Json) (acc acc' : Declared), List.Forall₂ (Linked π) xs ys →
        acc.Linked π acc' →
        (xs.foldl (fun acc s => acc.append (declared fuel (baseOf base d) s)) acc).Linked π
          (ys.foldl
            (fun acc s => acc.append (declared fuel (rename π (baseOf base d)) s)) acc') := by
      intro xs ys acc acc' hxs
      induction hxs generalizing acc acc' with
      | nil => exact fun hacc => hacc
      | cons hxy _ ih => exact fun hacc => ih _ _ (hacc.append (linked_declared fuel _ hxy))
    rw [declared, declared]
    rw [baseOf_rename base h]
    exact hfold _ _ _ _ (forall₂_subschemas h) (linked_declaredHere _ h)

/-! ## Searching lists in another order -/

/-- Where at most one of several lists has what is searched for, their order does not matter. -/
theorem find?_flatMap_of_perm {α β : Type} {g : α → List β} {p : β → Bool} {xs ys : List α}
    (h : xs.Perm ys)
    (hapart : xs.Pairwise (fun a b => ∀ m ∈ g a, ∀ n ∈ g b, ¬ (p m = true ∧ p n = true))) :
    (xs.flatMap g).find? p = (ys.flatMap g).find? p := by
  induction h with
  | nil => rfl
  | cons x _ ih =>
    rw [List.flatMap_cons, List.flatMap_cons, List.find?_append, List.find?_append,
      ih (List.pairwise_cons.mp hapart).2]
  | swap x y rest =>
    rw [List.flatMap_cons, List.flatMap_cons, List.flatMap_cons, List.flatMap_cons,
      List.find?_append, List.find?_append, List.find?_append, List.find?_append,
      ← Option.or_assoc, ← Option.or_assoc]
    have hxy := (List.pairwise_cons.mp hapart).1 x List.mem_cons_self
    cases hy : (g y).find? p with
    | none => simp
    | some m =>
      cases hx : (g x).find? p with
      | none => simp
      | some n =>
        exact absurd ⟨List.find?_some hy, List.find?_some hx⟩
          (hxy m (List.mem_of_find?_eq_some hy) n (List.mem_of_find?_eq_some hx))
  | trans h₁ _ ih₁ ih₂ =>
    have hsymm : ∀ a b : α, (∀ m ∈ g a, ∀ n ∈ g b, ¬ (p m = true ∧ p n = true)) →
        ∀ m ∈ g b, ∀ n ∈ g a, ¬ (p m = true ∧ p n = true) :=
      fun a b hab m hm n hn hmn => hab n hn m hm hmn.symm
    rw [ih₁ hapart, ih₂ ((h₁.pairwise_iff (fun {a b} => hsymm a b)).mp hapart)]

namespace Library

theorem document?_extension (l : Library) (resources : List Resource) (uri : String) :
    (extension l resources).document? uri =
      (((resources.flatMap (fun r => (declaredBy r).documents)).reverse.find?
          (fun r => r.uri == uri)).map (·.contents)).or
        (((resources.reverse.find? (fun r => r.uri == uri)).map (·.contents)).or
          (l.document? uri)) := by
  unfold document? extension
  dsimp only
  rw [List.find?_append, List.find?_append, Option.map_or, Option.map_or]

theorem anchor?_extension (l : Library) (resources : List Resource) (uri name : String) :
    (extension l resources).anchor? uri name =
      ((resources.flatMap (fun r => (declaredBy r).anchors)).find?
        (fun a => a.uri == uri && a.name == name)).or (l.anchor? uri name) :=
  List.find?_append

theorem linked_declaredBy {r r' : Resource} (h : Resource.Linked π r r') :
    (declaredBy r).Linked π (declaredBy r') := by
  rcases h with ⟨huri, hlinked⟩
  rcases id hlinked with ⟨-, k, hcontents⟩
  unfold declaredBy
  rw [huri, hcontents, depth_relinkAt]
  exact linked_declared _ _ (hcontents ▸ hlinked)

section

variable (hπ : Function.Injective π)

include hπ

theorem beq_rename (a b : String) : (rename π a == rename π b) = (a == b) := by
  rw [Bool.eq_iff_iff, beq_iff_eq, beq_iff_eq]
  exact ⟨fun h => rename_inj hπ h, fun h => h ▸ rfl⟩

theorem rel_contents {xs xs' : List Resource} (h : List.Forall₂ (Resource.Linked π) xs xs')
    (uri : String) : Option.Rel (HttpContract.Linked π)
      ((xs.find? (fun r => r.uri == uri)).map (·.contents))
      ((xs'.find? (fun r => r.uri == rename π uri)).map (·.contents)) := by
  have hfind := rel_find? (f := fun r : Resource => r.uri == uri)
    (g := fun r : Resource => r.uri == rename π uri)
    (fun r r' hr => by rw [hr.1]; exact (beq_rename hπ _ _).symm) h
  generalize xs.find? (fun r => r.uri == uri) = x at hfind ⊢
  generalize xs'.find? (fun r => r.uri == rename π uri) = x' at hfind ⊢
  cases hfind with
  | none => exact .none
  | some hr => exact .some hr.2

theorem rel_anchor {xs xs' : List Anchor} (h : List.Forall₂ (Anchor.Linked π) xs xs')
    (uri name : String) : Option.Rel (Anchor.Linked π)
      (xs.find? (fun a => a.uri == uri && a.name == name))
      (xs'.find? (fun a => a.uri == rename π uri && a.name == name)) :=
  rel_find? (fun a a' ha => by rw [ha.uri, ha.name, beq_rename hπ]) h

/-- Corresponding documents make corresponding libraries. -/
theorem renamed_extension {l l' : Library} (hl : l.Renamed π l')
    {resources resources' : List Resource}
    (h : List.Forall₂ (Resource.Linked π) resources resources') :
    (extension l resources).Renamed π (extension l' resources') := by
  constructor
  · intro uri
    rw [document?_extension, document?_extension]
    refine rel_or (rel_contents hπ ?_ uri) (rel_or (rel_contents hπ ?_ uri) (hl.document uri))
    · exact List.rel_reverse (List.rel_flatMap h (fun r r' hr => (linked_declaredBy hr).documents))
    · exact List.rel_reverse h
  · intro uri name
    rw [anchor?_extension, anchor?_extension]
    exact rel_or (rel_anchor hπ (List.rel_flatMap h (fun r r' hr => (linked_declaredBy hr).anchors))
      uri name) (hl.anchor uri name)

end

theorem size_extension (l : Library) (resources : List Resource) :
    (extension l resources).size =
      ((resources.flatMap (fun r => (declaredBy r).documents)).map (fun r => r.contents.size)).sum +
        ((resources.map (fun r => r.contents.size)).sum + l.size) := by
  rw [size_eq, size_eq, extension, List.map_append, List.map_append, List.sum_append,
    List.sum_append, List.map_reverse, List.map_reverse, List.sum_reverse, List.sum_reverse]

/-! ## The same documents in another order -/

/-- The identifiers under which a document declares anything. -/
def identifiers (r : Resource) : List String :=
  (declaredBy r).documents.map (·.uri) ++ (declaredBy r).anchors.map (·.uri)

/-- Documents under different identifiers, which declare nothing under the same identifier. -/
structure Apart (a b : Resource) : Prop where
  uri : a.uri ≠ b.uri
  identifiers : (identifiers a).Disjoint (identifiers b)

theorem Apart.symm {a b : Resource} (h : Apart a b) : Apart b a :=
  ⟨h.uri.symm, fun _ hb ha => h.identifiers ha hb⟩

section

variable {resources order : List Resource} (h : resources.Perm order)
  (hapart : resources.Pairwise Apart)

include h hapart

/-- What several documents have is found in any order of them, if its identifier tells whose it
is. -/
theorem find?_of_apart {β : Type} (uri : β → String) {g : Resource → List β}
    (huri : ∀ a b, Apart a b → ∀ m ∈ g a, ∀ n ∈ g b, uri m ≠ uri n) {p : β → Bool} {u : String}
    (hp : ∀ m, p m = true → uri m = u) :
    (resources.flatMap g).find? p = (order.flatMap g).find? p :=
  find?_flatMap_of_perm h (hapart.imp (fun {a b} hab m hm n hn hmn =>
    huri a b hab m hm n hn ((hp m hmn.1).trans (hp n hmn.2).symm)))

theorem document?_of_perm (l : Library) (x : Resource) (uri : String) :
    (extension l (resources ++ [x])).document? uri =
      (extension l (order ++ [x])).document? uri := by
  have hreversed : resources.reverse.Perm order.reverse :=
    (List.reverse_perm _).trans (h.trans (List.reverse_perm _).symm)
  have hapart' : resources.reverse.Pairwise Apart :=
    List.pairwise_reverse.mpr (hapart.imp (fun hab => hab.symm))
  have hdeclared : (resources.flatMap (fun r => (declaredBy r).documents)).reverse.find?
        (fun r => r.uri == uri) =
      (order.flatMap (fun r => (declaredBy r).documents)).reverse.find? (fun r => r.uri == uri) := by
    rw [List.reverse_flatMap, List.reverse_flatMap]
    refine find?_of_apart hreversed hapart' (·.uri) (fun a b hab m hm n hn heq => ?_)
      (fun m hm => eq_of_beq hm)
    refine hab.identifiers (List.mem_append_left _ (List.mem_map_of_mem (List.mem_reverse.mp hm))) ?_
    rw [heq]
    exact List.mem_append_left _ (List.mem_map_of_mem (List.mem_reverse.mp hn))
  have hgiven : resources.reverse.find? (fun r => r.uri == uri) =
      order.reverse.find? (fun r => r.uri == uri) := by
    rw [← List.flatMap_singleton' resources.reverse, ← List.flatMap_singleton' order.reverse]
    refine find?_of_apart hreversed hapart' (·.uri) (fun a b hab m hm n hn => ?_)
      (fun m hm => eq_of_beq hm)
    rw [List.mem_singleton.mp hm, List.mem_singleton.mp hn]
    exact hab.uri
  rw [document?_extension, document?_extension, List.flatMap_append, List.flatMap_append,
    List.reverse_append, List.reverse_append, List.reverse_append, List.reverse_append,
    List.find?_append, List.find?_append, List.find?_append, List.find?_append, hdeclared, hgiven]

theorem anchor?_of_perm (l : Library) (x : Resource) (uri name : String) :
    (extension l (resources ++ [x])).anchor? uri name =
      (extension l (order ++ [x])).anchor? uri name := by
  have hdeclared : (resources.flatMap (fun r => (declaredBy r).anchors)).find?
        (fun a => a.uri == uri && a.name == name) =
      (order.flatMap (fun r => (declaredBy r).anchors)).find?
        (fun a => a.uri == uri && a.name == name) := by
    refine find?_of_apart h hapart (·.uri) (fun a b hab m hm n hn heq => ?_)
      (fun m hm => eq_of_beq (Bool.and_eq_true_iff.mp hm).1)
    refine hab.identifiers (List.mem_append_right _ (List.mem_map_of_mem hm)) ?_
    rw [heq]
    exact List.mem_append_right _ (List.mem_map_of_mem hn)
  rw [anchor?_extension, anchor?_extension, List.flatMap_append, List.flatMap_append,
    List.find?_append, List.find?_append, hdeclared]

end

/-- Libraries of the same size that hold the same documents for renamed handles. -/
structure Twins (π : Nat → Nat) (l l' : Library) : Prop where
  renamed : l.Renamed π l'
  size : l.size = l'.size

theorem size_of_linked {resources resources' : List Resource}
    (h : List.Forall₂ (Resource.Linked π) resources resources') :
    resources.map (fun r => r.contents.size) = resources'.map (fun r => r.contents.size) := by
  rw [← List.forall₂_eq_eq_eq, List.forall₂_map_left_iff, List.forall₂_map_right_iff]
  refine h.imp (fun r r' hr => ?_)
  rcases hr.2 with ⟨-, k, hcontents⟩
  rw [hcontents, size_relinkAt]

/-- Documents in another order and under renamed identifiers make corresponding libraries, as long
as one document comes last on both sides. -/
theorem twins_extension (hπ : Function.Injective π) {l l' : Library} (hl : Twins π l l')
    {resources order resources' : List Resource} (h : resources.Perm order)
    (hapart : resources.Pairwise Apart)
    (hlinked : List.Forall₂ (Resource.Linked π) order resources') {x x' : Resource}
    (hx : Resource.Linked π x x') :
    Twins π (extension l (resources ++ [x])) (extension l' (resources' ++ [x'])) := by
  have hall : List.Forall₂ (Resource.Linked π) (order ++ [x]) (resources' ++ [x']) :=
    List.rel_append hlinked (.cons hx .nil)
  have hrenamed := renamed_extension hπ hl.renamed hall
  refine ⟨⟨fun uri => ?_, fun uri name => ?_⟩, ?_⟩
  · rw [document?_of_perm h hapart]
    exact hrenamed.document uri
  · rw [anchor?_of_perm h hapart]
    exact hrenamed.anchor uri name
  · have hperm := h.append_right [x]
    have hdeclared : List.Forall₂ (Resource.Linked π)
        ((order ++ [x]).flatMap (fun r => (declaredBy r).documents))
        ((resources' ++ [x']).flatMap (fun r => (declaredBy r).documents)) :=
      List.rel_flatMap hall (fun _ _ hr => (linked_declaredBy hr).documents)
    rw [size_extension, size_extension, hl.size, ← size_of_linked hall, ← size_of_linked hdeclared,
      ((hperm.flatMap_right _).map _).sum_eq, (hperm.map _).sum_eq]

/-- Such libraries are closed or not alike. -/
theorem alike_extend (hπ : Function.Injective π) {l l' : Library} (hl : Twins π l l')
    {resources order resources' : List Resource} (h : resources.Perm order)
    (hapart : resources.Pairwise Apart)
    (hlinked : List.Forall₂ (Resource.Linked π) order resources') {x x' : Resource}
    (hx : Resource.Linked π x x') :
    Alike (Twins π) (l.extend (resources ++ [x])) (l'.extend (resources' ++ [x'])) := by
  have htwins := twins_extension hπ hl h hapart hlinked hx
  have hreferences : (resources' ++ [x']).flatMap (fun r => (declaredBy r).references) =
      ((order ++ [x]).flatMap (fun r => (declaredBy r).references)).map (rename π) := by
    have hall : List.Forall₂ (Resource.Linked π) (order ++ [x]) (resources' ++ [x']) :=
      List.rel_append hlinked (.cons hx .nil)
    rw [List.map_flatMap]
    refine (flatMap_of_forall₂ (fun r r' hr => ?_) hall).symm
    exact (linked_declaredBy hr).references.symm
  have hclosed : (∀ r ∈ (resources ++ [x]).flatMap (fun r => (declaredBy r).references),
        ((extension l (resources ++ [x])).document? (withoutFragment r)).isSome = true) ↔
      ∀ r ∈ (resources' ++ [x']).flatMap (fun r => (declaredBy r).references),
        ((extension l' (resources' ++ [x'])).document? (withoutFragment r)).isSome = true := by
    rw [hreferences, List.forall_mem_map]
    refine forall_congr' (fun r => ?_)
    rw [((h.append_right [x]).flatMap_right _).mem_iff, withoutFragment_rename,
      isSome_of_rel (htwins.renamed.document (withoutFragment r))]
  cases hextend : l.extend (resources ++ [x]) with
  | ok library =>
    rcases (extend_eq_ok_iff _ _).mp hextend with ⟨rfl, hall⟩
    rw [(extend_eq_ok_iff _ _).mpr ⟨rfl, hclosed.mp hall⟩]
    exact .ok htwins
  | error e =>
    cases hextend' : l'.extend (resources' ++ [x']) with
    | ok library =>
      rcases (extend_eq_ok_iff _ _).mp hextend' with ⟨rfl, hall⟩
      rw [(extend_eq_ok_iff _ _).mpr ⟨rfl, hclosed.mpr hall⟩] at hextend
      cases hextend
    | error e' => exact .error e e'

end Library

/-! ## The schema of schemas -/

/-- No text under one of the keywords spells part of an identifier of a handle. -/
def clear : Json → Bool
  | .obj members => members.all (fun m =>
      match m.2 with
      | .str s => !(resolving.contains m.1 && decide (Spells s))
      | _ => true)
  | _ => true

theorem foreign_iff {d : Json} : Foreign d ↔ ∀ c ∈ d.components, clear c = true := by
  constructor
  · intro h c hc
    cases c with
    | obj members =>
      refine List.all_eq_true.mpr (fun m hm => ?_)
      rcases m with ⟨k, v⟩
      cases v with
      | str s =>
        by_cases hk : k ∈ resolving
        · simp [h members hc k hk s hm]
        · simp [hk]
      | _ => rfl
    | _ => rfl
  · intro h members hm k hk s hs
    simpa [hk] using List.all_eq_true.mp (h _ hm) _ hs

instance (d : Json) : Decidable (Foreign d) := decidable_of_iff _ foreign_iff.symm

theorem foreign_metaschema : ∀ r ∈ Metaschema.documents, Foreign r.contents := by decide +kernel

theorem not_internal_metaschema {r : Resource} (h : r ∈ Metaschema.documents) :
    ¬ Internal r.uri := by
  rintro ⟨handle, t, ht, huri⟩
  have hscheme := (Metaschema.uri_facts r h).1
  rw [huri, split_extended handle ht] at hscheme
  exact absurd (Option.some.inj hscheme) (by decide)

/-- The documents of the schema of schemas do not refer to handles. -/
theorem twins_metaschema (hπ : Function.Injective π) :
    Library.Twins π Metaschema.library Metaschema.library := by
  have huri : ∀ r ∈ Metaschema.documents, r.uri = rename π r.uri :=
    fun r hr => (rename_of_not_internal π (not_internal_metaschema hr)).symm
  have hdocuments : List.Forall₂ (Resource.Linked π) Metaschema.documents Metaschema.documents :=
    List.forall₂_same.mpr (fun r hr => ⟨huri r hr, (foreign_metaschema r hr).linked⟩)
  have hanchors : List.Forall₂ (Anchor.Linked π) Metaschema.library.anchors
      Metaschema.library.anchors := by
    refine List.forall₂_same.mpr (fun a ha => ?_)
    rcases List.mem_map.mp ha with ⟨r, hr, rfl⟩
    exact ⟨huri r hr, rfl, rfl, (foreign_metaschema r hr).linked⟩
  exact ⟨⟨Library.rel_contents hπ hdocuments, Library.rel_anchor hπ hanchors⟩, rfl⟩

end HttpContract
