import HttpContract.Proofs.Identifiers
import HttpContract.Proofs.Sufficiency

/-!
# Evaluation under a renaming of handles

When handles are renamed, the references to them change in every document, and with them the
identifiers under which a library holds its documents. Nothing else changes, as long as documents
refer to handles by their whole identifiers only (`Tame`): references lead to corresponding places
(`alike_lookup`), and evaluation finds violations of the same schemas (`match_rules`).
-/

namespace HttpContract

open EvaluationForm Evaluation Library Json

namespace Identifier

theorem spells_extended (handle : Nat) (t : List Char) : Spells (extended handle t) := by
  unfold Spells
  rw [toList_extended]
  have hmarked : marked <:+: resourcePath handle := (List.prefix_append _ _).isInfix
  exact hmarked.trans ⟨['u', 'r', 'n', ':'], t, by simp⟩

/-- A reference that names a handle by its whole identifier, or spells no part of one. -/
def Readable (r : String) : Prop := (∃ handle, r = resourceUri handle) ∨ ¬ Spells r

variable {π : Nat → Nat}

theorem rename_of_not_spells {r : String} (h : ¬ Spells r) : rename π r = r := by
  refine rename_of_not_internal π ?_
  rintro ⟨handle, t, -, rfl⟩
  exact h (spells_extended handle t)

/-- Resolution commutes with renaming. -/
theorem absolute_rename_of_readable {r : String} (hr : Readable r) (base : String) :
    absolute (rename π base) (rename π r) = rename π (absolute base r) := by
  rcases hr with ⟨handle, rfl⟩ | hr
  · rw [rename_resourceUri, absolute_resourceUri, absolute_resourceUri, rename_resourceUri]
  · rw [rename_of_not_spells hr, absolute_rename π hr]

end Identifier

open Identifier

/-! ## Documents that refer to handles by their identifiers -/

/-- Of the texts in the members of an object that identify or refer, those under `$ref` name handles
by their whole identifiers, if at all. Data does not change with the references. -/
structure TameMembers (members : Fields Json) : Prop where
  references : ∀ s, ("$ref", .str s) ∈ members → Readable s
  others : ∀ k ∈ ["$dynamicRef", "$id", "$schema"], ∀ s, (k, .str s) ∈ members → ¬ Spells s
  data : ∀ k ∈ ["const", "enum"], ∀ d, (k, d) ∈ members → ∀ π, relinkAt (rename π) k d = d

/-- Documents that refer to handles by their identifiers, at every depth. -/
def Tame (d : Json) : Prop := ∀ members, .obj members ∈ d.components → TameMembers members

theorem Tame.of_subset {d d' : Json} (h : Tame d) (hsub : d'.components ⊆ d.components) : Tame d' :=
  fun members hm => h members (hsub hm)

theorem Tame.members {members : Fields Json} (h : Tame (.obj members)) : TameMembers members :=
  h members (mem_components _)

theorem Tame.of_mem_obj {members : Fields Json} {k : String} {d : Json} (h : Tame (.obj members))
    (hd : (k, d) ∈ members) : Tame d :=
  h.of_subset (components_subset_obj hd)

theorem Tame.of_mem_arr {items : List Json} {d : Json} (h : Tame (.arr items)) (hd : d ∈ items) :
    Tame d :=
  h.of_subset (components_subset_arr hd)

variable (π : Nat → Nat)

/-- A document, and what becomes of it when handles are renamed. -/
def Linked (d d' : Json) : Prop := Tame d ∧ ∃ k, d' = relinkAt (rename π) k d

/-- An anchor, and what becomes of it when handles are renamed. -/
structure Anchor.Linked (a a' : Anchor) : Prop where
  uri : a'.uri = rename π a.uri
  name : a'.name = a.name
  dynamic : a'.dynamic = a.dynamic
  contents : HttpContract.Linked π a.contents a'.contents

/-- A scope after handles are renamed. -/
noncomputable def Library.Scope.rename (s : Scope) : Scope :=
  ⟨Identifier.rename π s.base, s.outer.map (Identifier.rename π), s.known⟩

/-- Libraries that hold the same documents for renamed handles. -/
structure Library.Renamed (l l' : Library) : Prop where
  document : ∀ uri, Option.Rel (Linked π) (l.document? uri) (l'.document? (rename π uri))
  anchor : ∀ uri name,
    Option.Rel (Anchor.Linked π) (l.anchor? uri name) (l'.anchor? (rename π uri) name)

variable {π : Nat → Nat}

theorem Linked.keyword_eq {d d' : Json} (h : Linked π d d') {k : String} (hk : k ≠ "$ref") :
    keywordText? d' k = keywordText? d k := by
  rcases h with ⟨-, key, rfl⟩
  exact keywordText?_relinkAt d hk

theorem Tame.not_spells {d : Json} (h : Tame d) {k s : String}
    (hk : k ∈ ["$dynamicRef", "$id", "$schema"]) (hs : keywordText? d k = some s) : ¬ Spells s := by
  cases d with
  | obj members =>
    rcases Option.bind_eq_some_iff.mp hs with ⟨v, hv, htext⟩
    cases v with
    | str t =>
      obtain rfl := Option.some.inj htext
      exact h.members.others k hk _ (Fields.mem_of_get? hv)
    | _ => cases htext
  | _ => cases hs

/-! ## Scopes -/

namespace Library.Scope

theorem rename_eq_empty_iff (hπ : Function.Injective π) {uri : String} :
    Identifier.rename π uri = "" ↔ uri = "" := by
  have hempty : Identifier.rename π "" = "" :=
    rename_of_not_spells (by unfold Spells; decide)
  constructor
  · exact fun h => rename_inj hπ (h.trans hempty.symm)
  · rintro rfl
    exact hempty

theorem enter_rename (hπ : Function.Injective π) (s : Scope) (uri : String) :
    (s.rename π).enter (Identifier.rename π uri) = (s.enter uri).rename π := by
  have hcondition : (Identifier.rename π s.base ≠ "" ∧
      ((s.outer.map (Identifier.rename π)).isEmpty = true ∨
        Identifier.rename π s.base ≠ Identifier.rename π uri)) ↔
      (s.base ≠ "" ∧ (s.outer.isEmpty = true ∨ s.base ≠ uri)) := by
    rw [List.isEmpty_map]
    exact and_congr (not_congr (rename_eq_empty_iff hπ))
      (or_congr_right (not_congr ⟨fun h => rename_inj hπ h, fun h => h ▸ rfl⟩))
  unfold enter Scope.rename
  dsimp only
  by_cases h : s.base ≠ "" ∧ (s.outer.isEmpty = true ∨ s.base ≠ uri)
  · rw [if_pos h, if_pos (hcondition.mpr h)]
    rfl
  · rw [if_neg h, if_neg (fun h' => h (hcondition.mp h'))]

theorem within_rename (hπ : Function.Injective π) (s : Scope) {d d' : Json} (h : Linked π d d') :
    (s.rename π).within d' = (s.within d).rename π := by
  unfold within
  rw [h.keyword_eq (by decide)]
  cases hid : Library.keywordText? d "$id" with
  | none => rfl
  | some id =>
    have hspells := h.1.not_spells (by decide) hid
    dsimp only
    rw [← enter_rename hπ]
    exact congrArg _ (absolute_rename π hspells s.base)

end Library.Scope

/-! ## Following references -/

namespace Linked

theorem relinkAt {d : Json} (h : Tame d) (k : String) : Linked π d (relinkAt (rename π) k d) :=
  ⟨h, k, rfl⟩

theorem followsSpecification {d d' : Json} (h : Linked π d d') :
    followsSpecification d' = followsSpecification d := by
  unfold Library.followsSpecification
  rw [h.keyword_eq (by decide)]

end Linked

/-- What a reference leads to, and what it leads to when handles are renamed. -/
def LinkedTarget (π : Nat → Nat) (b b' : Json × Scope) : Prop :=
  Linked π b.1 b'.1 ∧ b'.2 = b.2.rename π

theorem followPointer_of_not_arr {d : Json} (hd : ∀ xs, d ≠ .arr xs) (pointer token : String)
    (rest : List String) (s : Scope) : followPointer pointer d s (token :: rest) =
      match d.get? (String.ofList (Json.Pointer.unescape token.toList)) with
      | some w => followPointer pointer w (s.within w) rest
      | none => .error (.noPointer pointer) := by
  cases d with
  | arr xs => exact absurd rfl (hd xs)
  | _ => rfl

theorem Tame.get? {d w : Json} (h : Tame d) {k : String} (hw : d.get? k = some w) : Tame w := by
  cases d with
  | obj members => exact h.of_mem_obj (Fields.mem_of_get? hw)
  | _ => cases hw

theorem LinkedTarget.specified {b b' : Json × Scope} (h : LinkedTarget π b b') :
    LinkedTarget π (b.1, { b.2 with known := followsSpecification b.1 })
      (b'.1, { b'.2 with known := followsSpecification b'.1 }) := by
  refine ⟨h.1, ?_⟩
  dsimp only
  rw [h.2, h.1.followsSpecification]
  rfl

theorem alike_specified {x x' : Except ReferenceError (Json × Scope)}
    (h : Alike (LinkedTarget π) x x') : Alike (LinkedTarget π)
      (x >>= fun b => pure (b.1, { b.2 with known := followsSpecification b.1 }))
      (x' >>= fun b => pure (b.1, { b.2 with known := followsSpecification b.1 })) :=
  h.bind (fun _ _ hab => .ok hab.specified)

section

variable (hπ : Function.Injective π)

include hπ

/-- A pointer leads to corresponding places of corresponding documents. -/
theorem alike_followPointer (pointer : String) : ∀ (tokens : List String) {d d' : Json}
    (s : Scope), Linked π d d' → Alike (LinkedTarget π) (followPointer pointer d s tokens)
      (followPointer pointer d' (s.rename π) tokens)
  | [], d, d', s, h => by
    rw [followPointer, followPointer]
    exact .ok ⟨h, rfl⟩
  | token :: rest, d, d', s, h => by
    rcases h with ⟨htame, k, rfl⟩
    by_cases harr : ∃ xs, d = .arr xs
    · rcases harr with ⟨xs, rfl⟩
      rw [relinkAt_arr, followPointer, followPointer]
      cases token.toNat? with
      | none => exact .error _ _
      | some i =>
        dsimp only
        rw [List.getElem?_map]
        cases hx : xs[i]? with
        | none => exact .error _ _
        | some x =>
          have hlinked : Linked π x (Json.relinkAt (rename π) "" x) :=
            .relinkAt (htame.of_mem_arr (List.mem_of_getElem? hx)) ""
          rw [Option.map_some]
          dsimp only
          rw [Scope.within_rename hπ s hlinked]
          exact alike_followPointer pointer rest _ hlinked
    · have hnot : ∀ xs, d ≠ .arr xs := fun xs hxs => harr ⟨xs, hxs⟩
      have hnot' : ∀ xs, Json.relinkAt (rename π) k d ≠ .arr xs := by
        cases d with
        | arr xs => exact absurd rfl (hnot xs)
        | _ => simp [relinkAt_str]
      rw [followPointer_of_not_arr hnot, followPointer_of_not_arr hnot', get?_relinkAt]
      cases hw : d.get? (String.ofList (Json.Pointer.unescape token.toList)) with
      | none => exact .error _ _
      | some w =>
        have hlinked : Linked π w (Json.relinkAt (rename π)
            (String.ofList (Json.Pointer.unescape token.toList)) w) := .relinkAt (htame.get? hw) _
        rw [Option.map_some]
        dsimp only
        rw [Scope.within_rename hπ s hlinked]
        exact alike_followPointer pointer rest _ hlinked

variable {l l' : Library}

/-- An anchor means corresponding schemas in corresponding libraries. -/
theorem linked_anchored (hl : l.Renamed π l') {a a' : Anchor} (ha : a.Linked π a') (s : Scope) :
    LinkedTarget π (l.anchored a s) (l'.anchored a' (s.rename π)) := by
  unfold anchored
  rw [ha.dynamic]
  split
  · have houter : (s.rename π).outer = s.outer.map (rename π) := rfl
    rw [houter, List.foldl_map]
    refine List.foldl_rel ⟨ha.contents, rfl⟩ (fun uri _ b b' hb => ?_)
    have hanchor := hl.anchor uri a.name
    rw [ha.name]
    generalize l.anchor? uri a.name = x at hanchor ⊢
    generalize l'.anchor? (rename π uri) a.name = x' at hanchor ⊢
    cases hanchor with
    | none => exact hb
    | some h =>
      dsimp only
      rw [h.dynamic]
      split
      · exact ⟨h.contents, by rw [h.uri, Scope.enter_rename hπ]⟩
      · exact hb
  · exact ⟨ha.contents, rfl⟩

/-- References lead to corresponding schemas. -/
theorem alike_lookup (hl : l.Renamed π l') {r : String} (hr : Readable r) (s : Scope) :
    Alike (LinkedTarget π) (l.lookup s r) (l'.lookup (s.rename π) (rename π r)) := by
  rcases hr with ⟨handle, rfl⟩ | hr
  · rw [rename_resourceUri, lookup_resourceUri, lookup_resourceUri]
    have hdocument := hl.document (resourceUri handle)
    rw [rename_resourceUri] at hdocument
    generalize l.document? (resourceUri handle) = x at hdocument ⊢
    generalize l'.document? (resourceUri (π handle)) = x' at hdocument ⊢
    cases hdocument with
    | none => exact .error _ _
    | @some t t' h =>
      have htarget : LinkedTarget π (t, s.enter (resourceUri handle))
          (t', (s.rename π).enter (resourceUri (π handle))) := by
        refine ⟨h, ?_⟩
        rw [← rename_resourceUri, Scope.enter_rename hπ]
      exact .ok htarget.specified
  · rw [rename_of_not_spells hr]
    unfold lookup
    rcases hcut : Uri.cutAt (· == '#') r.toList with ⟨front, fragment⟩
    dsimp only
    -- the document is named by the base or by what stands before the fragment
    have hfront : ¬ Spells (String.ofList front) := by
      intro hspells
      refine hr (List.IsInfix.trans hspells ?_)
      rw [Uri.append_of_cutAt hcut, String.toList_ofList]
      exact (List.prefix_append _ _).isInfix
    obtain ⟨uri, huri, huri'⟩ : ∃ uri, (if front.isEmpty = true then s.base
          else withoutFragment (absolute s.base (String.ofList front))) = uri ∧
        (if front.isEmpty = true then (s.rename π).base
          else withoutFragment (absolute (s.rename π).base (String.ofList front))) =
            rename π uri := by
      refine ⟨_, rfl, ?_⟩
      split
      · rfl
      · rw [← withoutFragment_rename, ← absolute_rename π hfront]
        rfl
    rw [huri, huri']
    have hdocument := hl.document uri
    generalize l.document? uri = x at hdocument ⊢
    generalize l'.document? (rename π uri) = x' at hdocument ⊢
    cases hdocument with
    | none => exact .error _ _
    | @some t t' h =>
      dsimp only
      rw [Scope.enter_rename hπ]
      split
      · exact alike_specified (alike_followPointer hπ _ _ _ h)
      · split
        · exact .ok (LinkedTarget.specified ⟨h, rfl⟩)
        · have hanchor := hl.anchor uri (String.ofList (fragment.getD []))
          generalize l.anchor? uri (String.ofList (fragment.getD [])) = y at hanchor ⊢
          generalize l'.anchor? (rename π uri) (String.ofList (fragment.getD [])) = y' at hanchor ⊢
          cases hanchor with
          | none => exact .error _ _
          | some ha => exact .ok (linked_anchored hπ hl ha _).specified

/-! ## Evaluation -/

/-- The scopes that a renaming relates. -/
def Renames (π : Nat → Nat) (s s' : Scope) : Prop := s' = s.rename π

/-- What a reference in a schema means, with its place, on both sides. -/
theorem rel_target? (hl : l.Renamed π l') {members : Fields Json} (hm : TameMembers members)
    {p p' : Place} (hp : Renames π p.scope p'.scope) {k : String} {arg : Json}
    (harg : (k, arg) ∈ members) (hk : k ∈ ["$ref", "$dynamicRef"]) :
    Option.Rel (fun b b' => Renames π b.1.scope b'.1.scope ∧ Linked π b.2 b'.2)
      (target? l p members k arg)
      (target? l' p' (relinkMembers (rename π) members) k (Json.relinkAt (rename π) k arg)) := by
  cases arg with
  | str r =>
    have hreadable : Readable r ∧ (if k = "$ref" then rename π r else r) = rename π r := by
      rcases List.mem_pair.mp hk with rfl | rfl
      · exact ⟨hm.references r harg, rfl⟩
      · have hspells := hm.others _ (by decide) r harg
        exact ⟨Or.inr hspells, by rw [if_neg (by decide), rename_of_not_spells hspells]⟩
    have hlookup := alike_lookup hπ hl hreadable.1 p.scope
    rw [← hp] at hlookup
    rw [relinkAt_str, hreadable.2]
    unfold target?
    dsimp only
    generalize l.lookup p.scope r = x at hlookup ⊢
    generalize l'.lookup p'.scope (rename π r) = x' at hlookup ⊢
    cases hlookup with
    | error e e' => exact .none
    | @ok b b' h =>
      rcases b with ⟨t, scope⟩
      rcases b' with ⟨t', scope'⟩
      rcases h with ⟨⟨htame, key, ht'⟩, hscope⟩
      dsimp only at ht' hscope ⊢
      -- a schema that refers to itself does so on both sides
      have hself : t' = .obj (relinkMembers (rename π) members) ↔ t = .obj members := by
        rw [ht', ← relinkAt_obj (k := key)]
        exact ⟨fun h => relinkAt_inj (fun _ _ => rename_inj hπ) key _ _ h, fun h => h ▸ rfl⟩
      by_cases ht : t = .obj members
      · rw [if_pos ht, if_pos (hself.mpr ht)]
        exact .none
      · rw [if_neg ht, if_neg (fun h => ht (hself.mp h))]
        exact .some ⟨hscope, htame, key, ht'⟩
  | _ => exact .none

/-- Evaluation comes to the same for corresponding schemas, whatever the value. -/
theorem match_rules (hl : l.Renamed π l') : ∀ (n : Nat) {d d' : Json} (v : Json), Linked π d d' →
    (rules l n).Match (Renames π) (rules l' n) d d' v
  | 0, d, d', v, _ => ⟨fun _ _ _ => rfl, fun _ _ _ => rfl, fun _ _ _ => rfl⟩
  | n + 1, d, d', v, h => by
    rcases h with ⟨htame, k, rfl⟩
    cases d with
    | obj members =>
      have hparallel : Parallel (rename π) (Renames π) l l' (rules l n) (rules l' n) members v := {
        here := fun s hs key => match_rules hl n v
          (.relinkAt (htame.of_subset (components_subset_of_under hs)) key)
        parts := fun s hs key x _ => match_rules hl n x
          (.relinkAt (htame.of_subset (components_subset_of_under hs)) key)
        targets := fun p p' hp key arg harg hkey =>
          rel_mono (fun b b' hb => ⟨hb.1, match_rules hl n v hb.2⟩)
            (rel_target? hπ hl htame.members hp harg hkey)
        data := fun key hkey arg harg => htame.members.data key hkey arg harg π
        known := fun a b hab => by rw [show b = a.rename π from hab]; rfl
        within := fun a b hab => by
          rw [show b = a.rename π from hab, ← relinkAt_obj (k := k)]
          exact Scope.within_rename hπ a (.relinkAt htame k) }
      rw [relinkAt_obj]
      exact ⟨fun p p' hp => hparallel.isEmpty_findings hp,
        fun p p' hp => hparallel.seenKeys_eq hp, fun p p' hp => hparallel.seenIndices_eq hp⟩
    | bool b =>
      rw [relinkAt_bool]
      cases b <;> exact ⟨fun _ _ _ => rfl, fun _ _ _ => rfl, fun _ _ _ => rfl⟩
    | _ => exact ⟨fun _ _ _ => rfl, fun _ _ _ => rfl, fun _ _ _ => rfl⟩

end

end HttpContract
