import Mathlib.Algebra.Order.BigOperators.Group.List
import Mathlib.Algebra.Order.Group.Nat
import Mathlib.Data.List.Nodup
import Mathlib.Data.List.Perm.Subperm
import Mathlib.Logic.Relation
import HttpContract.Proofs.Accordance
import HttpContract.Proofs.References

/-!
# Steps enough

From one schema to the next at the same place of a value, evaluation never comes to a schema again
if none leads back to itself (`Acyclic`): at every level of the value it passes each schema at most
once. With that many steps for every level the outcome does not depend on the steps, nor on the
place and on what else a library holds (`agree_of_bound`); `limit` is this outcome.
-/

namespace HttpContract

/-! ## Parts of documents -/

namespace Json

mutual

/-- The documents a document is made of, itself included. -/
def components : Json → List Json
  | .arr xs => .arr xs :: componentsItems xs
  | .obj ms => .obj ms :: componentsMembers ms
  | v => [v]
termination_by structural v => v

/-- Those that the items are made of. -/
def componentsItems : List Json → List Json
  | [] => []
  | x :: rest => components x ++ componentsItems rest
termination_by structural xs => xs

/-- Those that the members' values are made of. -/
def componentsMembers : List (String × Json) → List Json
  | [] => []
  | (_, x) :: rest => components x ++ componentsMembers rest
termination_by structural ms => ms

end

mutual

theorem length_components : ∀ v : Json, v.components.length = v.size
  | .arr xs => by rw [components, size, List.length_cons, length_componentsItems xs]
  | .obj ms => by rw [components, size, List.length_cons, length_componentsMembers ms]
  | .null => rfl
  | .bool _ => rfl
  | .num _ => rfl
  | .str _ => rfl
termination_by structural v => v

theorem length_componentsItems : ∀ xs : List Json, (componentsItems xs).length = sizeItems xs
  | [] => rfl
  | x :: rest => by
    rw [componentsItems, sizeItems, List.length_append, length_components x,
      length_componentsItems rest]
termination_by structural xs => xs

theorem length_componentsMembers : ∀ ms : Fields Json,
    (componentsMembers ms).length = sizeMembers ms
  | [] => rfl
  | (_, x) :: rest => by
    rw [componentsMembers, sizeMembers, List.length_append, length_components x,
      length_componentsMembers rest]
termination_by structural ms => ms

end

theorem components_subset_items {x : Json} : ∀ {xs : List Json}, x ∈ xs →
    x.components ⊆ componentsItems xs
  | y :: rest, h => by
    rw [componentsItems]
    rcases List.mem_cons.mp h with rfl | h
    · exact List.subset_append_left _ _
    · exact List.subset_append_of_subset_right _ (components_subset_items h)

theorem components_subset_members {k : String} {x : Json} : ∀ {ms : Fields Json}, (k, x) ∈ ms →
    x.components ⊆ componentsMembers ms
  | (_, y) :: rest, h => by
    rw [componentsMembers]
    rcases List.mem_cons.mp h with heq | h
    · obtain ⟨rfl, rfl⟩ := Prod.mk.inj heq
      exact List.subset_append_left _ _
    · exact List.subset_append_of_subset_right _ (components_subset_members h)

theorem components_subset_arr {x : Json} {xs : List Json} (h : x ∈ xs) :
    x.components ⊆ (arr xs).components := by
  rw [components]
  exact List.subset_cons_of_subset _ (components_subset_items h)

theorem components_subset_obj {k : String} {x : Json} {ms : Fields Json} (h : (k, x) ∈ ms) :
    x.components ⊆ (obj ms).components := by
  rw [components]
  exact List.subset_cons_of_subset _ (components_subset_members h)

mutual

/-- What is in a part of a document is in the document. -/
theorem components_subset : ∀ (d : Json) {x : Json}, x ∈ d.components → x.components ⊆ d.components
  | .arr xs, x, h => by
    rw [components] at h ⊢
    rcases List.mem_cons.mp h with rfl | h
    · rw [components]
      exact List.Subset.refl _
    · exact List.subset_cons_of_subset _ (componentsItems_subset xs h)
  | .obj ms, x, h => by
    rw [components] at h ⊢
    rcases List.mem_cons.mp h with rfl | h
    · rw [components]
      exact List.Subset.refl _
    · exact List.subset_cons_of_subset _ (componentsMembers_subset ms h)
  | .null, _, h => List.mem_singleton.mp h ▸ List.Subset.refl _
  | .bool _, _, h => List.mem_singleton.mp h ▸ List.Subset.refl _
  | .num _, _, h => List.mem_singleton.mp h ▸ List.Subset.refl _
  | .str _, _, h => List.mem_singleton.mp h ▸ List.Subset.refl _
termination_by structural d => d

theorem componentsItems_subset : ∀ (xs : List Json) {x : Json}, x ∈ componentsItems xs →
    x.components ⊆ componentsItems xs
  | y :: rest, x, h => by
    rw [componentsItems] at h ⊢
    rcases List.mem_append.mp h with h | h
    · exact List.subset_append_of_subset_left _ (components_subset y h)
    · exact List.subset_append_of_subset_right _ (componentsItems_subset rest h)
termination_by structural xs => xs

theorem componentsMembers_subset : ∀ (ms : Fields Json) {x : Json}, x ∈ componentsMembers ms →
    x.components ⊆ componentsMembers ms
  | (_, y) :: rest, x, h => by
    rw [componentsMembers] at h ⊢
    rcases List.mem_append.mp h with h | h
    · exact List.subset_append_of_subset_left _ (components_subset y h)
    · exact List.subset_append_of_subset_right _ (componentsMembers_subset rest h)
termination_by structural ms => ms

end

theorem exists_of_mem_componentsItems {x : Json} : ∀ {xs : List Json}, x ∈ componentsItems xs →
    ∃ y ∈ xs, x ∈ y.components
  | y :: rest, h => by
    rw [componentsItems] at h
    rcases List.mem_append.mp h with h | h
    · exact ⟨y, List.mem_cons_self, h⟩
    · rcases exists_of_mem_componentsItems h with ⟨z, hz, hx⟩
      exact ⟨z, List.mem_cons_of_mem _ hz, hx⟩

theorem exists_of_mem_componentsMembers {x : Json} : ∀ {ms : Fields Json},
    x ∈ componentsMembers ms → ∃ m ∈ ms, x ∈ m.2.components
  | m :: rest, h => by
    rw [componentsMembers] at h
    rcases List.mem_append.mp h with h | h
    · exact ⟨m, List.mem_cons_self, h⟩
    · rcases exists_of_mem_componentsMembers h with ⟨n, hn, hx⟩
      exact ⟨n, List.mem_cons_of_mem _ hn, hx⟩

theorem size_le_sizeItems {x : Json} : ∀ {xs : List Json}, x ∈ xs → x.size ≤ sizeItems xs
  | y :: rest, h => by
    rw [sizeItems]
    rcases List.mem_cons.mp h with rfl | h
    · exact Nat.le_add_right _ _
    · exact Nat.le_add_left_of_le (size_le_sizeItems h)

theorem size_le_sizeMembers {k : String} {x : Json} : ∀ {ms : Fields Json}, (k, x) ∈ ms →
    x.size ≤ sizeMembers ms
  | (_, y) :: rest, h => by
    rw [sizeMembers]
    rcases List.mem_cons.mp h with heq | h
    · obtain ⟨rfl, rfl⟩ := Prod.mk.inj heq
      exact Nat.le_add_right _ _
    · exact Nat.le_add_left_of_le (size_le_sizeMembers h)

theorem size_le_of_mem_arr {x : Json} {xs : List Json} (h : x ∈ xs) : x.size ≤ (arr xs).size := by
  rw [size]
  exact Nat.le_succ_of_le (size_le_sizeItems h)

theorem size_le_of_mem_obj {k : String} {x : Json} {ms : Fields Json} (h : (k, x) ∈ ms) :
    x.size ≤ (obj ms).size := by
  rw [size]
  exact Nat.le_succ_of_le (size_le_sizeMembers h)

theorem mem_components (d : Json) : d ∈ d.components := by
  cases d <;> exact List.mem_cons_self

end Json

namespace Evaluation

open Library

/-! ## From schema to schema at one place -/

/-- A schema leads to the schemas that apply to the same place of the value, and a reference to its
document. -/
inductive Leads (R : List Resource) : Json → Json → Prop where
  | applied {members : Fields Json} {s : Json} (h : Applied members s) : Leads R (.obj members) s
  | reference {handle : Nat} {t : Json} (h : documentOf R handle = some t) :
      Leads R (EvaluationForm.reference handle) t

/-- No document leads back to itself at the same place of the value. -/
def Acyclic (R : List Resource) : Prop :=
  ∀ r ∈ R, ¬ Relation.TransGen (Leads R) r.contents r.contents

variable {R : List Resource}

/-- A chain goes down in one document, or comes through the document of a handle. -/
theorem depth_lt_or_resource {a b : Json} (h : Relation.TransGen (Leads R) a b) :
    b.depth < a.depth ∨ ∃ r ∈ R, Relation.TransGen (Leads R) a r.contents ∧
      Relation.ReflTransGen (Leads R) r.contents b := by
  have hstep : ∀ {a b : Json}, Leads R a b → b.depth < a.depth ∨ ∃ r ∈ R, r.contents = b := by
    intro a b h
    cases h with
    | applied h => exact Or.inl h.depth_lt
    | reference h => exact Or.inr (exists_resource_of_documentOf h)
  induction h with
  | single h =>
    rcases hstep h with hlt | ⟨r, hr, rfl⟩
    · exact Or.inl hlt
    · exact Or.inr ⟨r, hr, .single h, .refl⟩
  | tail hchain h ih =>
    rcases hstep h with hlt | ⟨r, hr, rfl⟩
    · rcases ih with hbefore | ⟨r, hr, hto, hfrom⟩
      · exact Or.inl (Nat.lt_trans hlt hbefore)
      · exact Or.inr ⟨r, hr, hto, hfrom.tail h⟩
    · exact Or.inr ⟨r, hr, hchain.tail h, .refl⟩

/-- Resources refer to one another only, and none leads back to itself. -/
structure Grounded (R : List Resource) : Prop where
  closed : ∀ r ∈ R, Closed r.contents
  acyclic : Acyclic R

theorem Acyclic.not_leads (hR : Acyclic R) (d : Json) : ¬ Relation.TransGen (Leads R) d d := by
  intro h
  rcases depth_lt_or_resource h with hlt | ⟨r, hr, hto, hfrom⟩
  · exact absurd hlt (Nat.lt_irrefl _)
  · exact hR r hr (Relation.TransGen.trans_right hfrom hto)

/-! ## As many steps as there are documents -/

/-- All parts of the resources and of the listed documents are listed. -/
structure Covers (R : List Resource) (L : List Json) : Prop where
  components : ∀ d ∈ L, d.components ⊆ L
  resource : ∀ r ∈ R, r.contents ∈ L

theorem components_subset_of_under {single listed named : List String} {members : Fields Json}
    {s : Json} (h : Under single listed named members s) :
    s.components ⊆ (Json.obj members).components := by
  cases h with
  | single _ hs => exact Json.components_subset_obj hs
  | listed _ hxs hs =>
    exact List.Subset.trans (Json.components_subset_arr hs) (Json.components_subset_obj hxs)
  | named _ hss hs =>
    exact List.Subset.trans (Json.components_subset_obj hs) (Json.components_subset_obj hss)

theorem size_le_of_under {single listed named : List String} {members : Fields Json} {s : Json}
    (h : Under single listed named members s) : s.size ≤ (Json.obj members).size := by
  cases h with
  | single _ hs => exact Json.size_le_of_mem_obj hs
  | listed _ hxs hs =>
    exact Nat.le_trans (Json.size_le_of_mem_arr hs) (Json.size_le_of_mem_obj hxs)
  | named _ hss hs =>
    exact Nat.le_trans (Json.size_le_of_mem_obj hs) (Json.size_le_of_mem_obj hss)

theorem Covers.inner {L : List Json} (hL : Covers R L) {members : Fields Json} {s : Json}
    (hd : Json.obj members ∈ L) (hs : Inner members s) : s ∈ L :=
  hL.components _ hd (components_subset_of_under hs (Json.mem_components s))

variable {l l' : Library}

/-- Rules with steps left agree on what is no object. -/
theorem agree_of_not_obj {d : Json} (hd : ∀ members, d ≠ .obj members) (n n' : Nat) (v : Json) :
    (rules l (n + 1)).Agree (rules l' (n' + 1)) d v := by
  cases d with
  | obj members => exact absurd rfl (hd members)
  | bool b => cases b <;> exact ⟨fun _ _ _ => rfl, fun _ _ _ => rfl, fun _ _ _ => rfl⟩
  | _ => exact ⟨fun _ _ _ => rfl, fun _ _ _ => rfl, fun _ _ _ => rfl⟩

theorem agree_of_concur {n n' : Nat} {members : Fields Json} {v : Json}
    (h : Concur l l' (rules l n) (rules l' n') members v) :
    (rules l (n + 1)).Agree (rules l' (n' + 1)) (.obj members) v :=
  ⟨fun _ _ hp => h.isEmpty_findings hp, fun _ _ hp => h.seenKeys_eq hp,
    fun _ _ hp => h.seenIndices_eq hp⟩

/-- References to handles mean the same in libraries with the same resources. -/
theorem rel_target?_reference (hl : l.Offers R) (hl' : l'.Offers R) {handle : Nat} (p p' : Place)
    {P : Json → Prop} (hP : ∀ t, documentOf R handle = some t → P t) :
    Option.Rel (fun b b' => b.2 = b'.2 ∧ b.1.scope.known = b'.1.scope.known ∧ P b.2)
      (target? l p [("$ref", .str (EvaluationForm.resourceUri handle))] "$ref"
        (.str (EvaluationForm.resourceUri handle)))
      (target? l' p' [("$ref", .str (EvaluationForm.resourceUri handle))] "$ref"
        (.str (EvaluationForm.resourceUri handle))) := by
  unfold target?
  dsimp only
  rw [lookup_resourceUri, lookup_resourceUri, hl.document, hl'.document]
  cases hdocument : documentOf R handle with
  | none => exact .none
  | some t =>
    dsimp only
    split
    · exact .none
    · exact .some ⟨rfl, rfl, hP t hdocument⟩

theorem concur_of_closed (hl : l.Offers R) (hl' : l'.Offers R) {r r' : Rules}
    {members : Fields Json} {v : Json} (hclosed : Closed (.obj members))
    (hhere : ∀ s, Leads R (.obj members) s → r.Agree r' s v)
    (hparts : ∀ s, Inner members s → ∀ x, x.depth < v.depth → r.Agree r' s x) :
    Concur l l' r r' members v where
  here s hs := hhere s (.applied hs)
  parts := hparts
  targets p p' hp k arg hm hk := by
    generalize hd : Json.obj members = d at hclosed
    cases hclosed with
    | reference handle =>
      cases hd
      obtain ⟨rfl, rfl⟩ := Prod.mk.inj (List.mem_singleton.mp hm)
      exact rel_target?_reference hl hl' p p' (fun t ht => hhere t (.reference ht))
    | schema hkeys _ =>
      cases hd
      have hcontains : Fields.contains members k = true := (Fields.contains_iff _ _).mpr ⟨arg, hm⟩
      rw [hkeys k (by rcases List.mem_pair.mp hk with rfl | rfl <;> decide)] at hcontains
      cases hcontains
    | data hno => exact absurd hd.symm (hno members)

/-- The listed documents have been passed at this level of the value, each of them leads to the next
one, and as many steps are left as there are documents that have not been passed, besides those for
the levels below. -/
theorem agree_of_chain (hl : l.Offers R) (hl' : l'.Offers R) (hR : Grounded R) {L : List Json}
    (hL : Covers R L) {v : Json}
    (hbelow : ∀ x, x.depth < v.depth → ∀ d ∈ L, Closed d → ∀ n n',
      x.depth * (L.length + 1) + L.length ≤ n → x.depth * (L.length + 1) + L.length ≤ n' →
        (rules l n).Agree (rules l' n') d x) :
    ∀ (k : Nat) (passed : List Json) (d : Json), passed.Nodup → passed ⊆ L →
      (∀ a ∈ passed, Relation.TransGen (Leads R) a d) → d ∈ L → Closed d →
        passed.length + k = L.length → ∀ n n', v.depth * (L.length + 1) + k ≤ n →
          v.depth * (L.length + 1) + k ≤ n' → (rules l n).Agree (rules l' n') d v := by
  intro k
  induction k with
  | zero =>
    intro passed d hnodup hsub hchain hd _ hlength
    -- the document has not been passed before, so there are more documents than passed ones
    have hnew : d ∉ passed := fun hmem => hR.acyclic.not_leads d (hchain d hmem)
    have hle := (List.subperm_of_subset (List.nodup_cons.mpr ⟨hnew, hnodup⟩)
      (List.cons_subset.mpr ⟨hd, hsub⟩)).length_le
    rw [List.length_cons] at hle
    omega
  | succ k ih =>
    intro passed d hnodup hsub hchain hd hdclosed hlength n n' hn hn'
    have hnew : d ∉ passed := fun hmem => hR.acyclic.not_leads d (hchain d hmem)
    obtain ⟨m, rfl⟩ : ∃ m, n = m + 1 := ⟨n - 1, by omega⟩
    obtain ⟨m', rfl⟩ : ∃ m', n' = m' + 1 := ⟨n' - 1, by omega⟩
    by_cases hobj : ∃ members, d = .obj members
    · rcases hobj with ⟨members, rfl⟩
      refine agree_of_concur (concur_of_closed hl hl' hdclosed (fun s hs => ?_)
        (fun s hs x hx => ?_))
      · have hnext : s ∈ L ∧ Closed s := by
          cases hs with
          | applied h => exact ⟨hL.inner hd h.inner, hdclosed.inner h.inner⟩
          | reference h =>
            rcases exists_resource_of_documentOf h with ⟨r, hr, rfl⟩
            exact ⟨hL.resource r hr, hR.closed r hr⟩
        refine ih (.obj members :: passed) s (List.nodup_cons.mpr ⟨hnew, hnodup⟩)
          (List.cons_subset.mpr ⟨hd, hsub⟩) (fun a ha => ?_) hnext.1 hnext.2
          (by rw [List.length_cons]; omega) m m' (by omega) (by omega)
        rcases List.mem_cons.mp ha with rfl | ha
        · exact .single hs
        · exact (hchain a ha).tail hs
      · have hlevel : x.depth * (L.length + 1) + L.length + 1 ≤ v.depth * (L.length + 1) :=
          calc x.depth * (L.length + 1) + L.length + 1 = (x.depth + 1) * (L.length + 1) := by
                rw [Nat.succ_mul]
                omega
            _ ≤ v.depth * (L.length + 1) := Nat.mul_le_mul_right _ hx
        exact hbelow x hx s (hL.inner hd hs) (hdclosed.inner hs) m m' (by omega) (by omega)
    · exact agree_of_not_obj (fun members hmembers => hobj ⟨members, hmembers⟩) m m' v

theorem agree_of_covers (hl : l.Offers R) (hl' : l'.Offers R) (hR : Grounded R) {L : List Json}
    (hL : Covers R L) (depth : Nat) : ∀ v : Json, v.depth = depth → ∀ d ∈ L, Closed d →
      ∀ n n', v.depth * (L.length + 1) + L.length ≤ n →
        v.depth * (L.length + 1) + L.length ≤ n' → (rules l n).Agree (rules l' n') d v := by
  induction depth using Nat.strongRecOn with
  | _ depth ih =>
    rintro v rfl d hd hdclosed n n' hn hn'
    exact agree_of_chain hl hl' hR hL (fun x hx => ih x.depth hx x rfl) L.length [] d List.nodup_nil
      (List.nil_subset _) (fun a ha => absurd ha List.not_mem_nil) hd hdclosed
      (Nat.zero_add _) n n' hn hn'

/-! ## The outcome -/

/-- Steps enough for all levels of a value. -/
def bound (l : Library) (d v : Json) : Nat := (v.depth + 1) * (l.size + d.size + 1)

theorem exists_covers (hl : l.Offers R) (hl' : l'.Offers R) (d : Json) :
    ∃ L, Covers R L ∧ d ∈ L ∧ L.length ≤ l.size + d.size ∧ L.length ≤ l'.size + d.size := by
  have hlength : (R.flatMap (fun r => r.contents.components)).length =
      (R.map (fun r => r.contents.size)).sum := by
    rw [List.length_flatMap]
    exact congrArg List.sum (List.map_congr_left (fun r _ => Json.length_components _))
  refine ⟨d.components ++ R.flatMap (fun r => r.contents.components), ⟨fun x hx => ?_,
    fun r hr => ?_⟩, List.mem_append_left _ (Json.mem_components d), ?_, ?_⟩
  · rcases List.mem_append.mp hx with hx | hx
    · exact List.subset_append_of_subset_left _ (Json.components_subset d hx)
    · rcases List.mem_flatMap.mp hx with ⟨r, hr, hx⟩
      refine List.subset_append_of_subset_right _ (fun y hy => ?_)
      exact List.mem_flatMap.mpr ⟨r, hr, Json.components_subset _ hx hy⟩
  · exact List.mem_append_right _ (List.mem_flatMap.mpr ⟨r, hr, Json.mem_components _⟩)
  · have hle := hl.size_le
    rw [List.length_append, Json.length_components, hlength]
    omega
  · have hle := hl'.size_le
    rw [List.length_append, Json.length_components, hlength]
    omega

/-- With steps enough neither their number nor the rest of the library matters. -/
theorem agree_of_bound (hl : l.Offers R) (hl' : l'.Offers R) (hR : Grounded R) {d v : Json}
    (hd : Closed d) {n n' : Nat} (hn : bound l d v ≤ n) (hn' : bound l' d v ≤ n') :
    (rules l n).Agree (rules l' n') d v := by
  rcases exists_covers hl hl' d with ⟨L, hL, hmem, hle, hle'⟩
  have hneed : ∀ size, L.length ≤ size + d.size →
      v.depth * (L.length + 1) + L.length ≤ (v.depth + 1) * (size + d.size + 1) := by
    intro size hsize
    calc v.depth * (L.length + 1) + L.length ≤ (v.depth + 1) * (L.length + 1) := by
          rw [Nat.succ_mul]
          omega
      _ ≤ (v.depth + 1) * (size + d.size + 1) := Nat.mul_le_mul_left _ (by omega)
  exact agree_of_covers hl hl' hR hL v.depth v rfl d hmem hd n n'
    (Nat.le_trans (hneed _ hle) hn) (Nat.le_trans (hneed _ hle') hn')

/-- As many steps as an evaluator of the schema takes. -/
def enough (l : Library) (d v : Json) : Nat := (v.depth + 2) * (l.size + d.size + 2)

theorem bound_le_enough (l : Library) (d v : Json) : bound l d v ≤ enough l d v :=
  Nat.mul_le_mul (Nat.le_succ _) (Nat.le_succ _)

/-- The rules with so many steps for every schema and value. -/
def limit (l : Library) : Rules :=
  ⟨fun p d v => (rules l (enough l d v)).judge p d v,
    fun p d v => (rules l (enough l d v)).keys p d v,
    fun p d v => (rules l (enough l d v)).indices p d v⟩

theorem valid_limit (l : Library) (p : Place) (d v : Json) :
    (limit l).valid p d v = (rules l (enough l d v)).valid p d v :=
  congrArg List.isEmpty (show (limit l).judge p d v = (rules l (enough l d v)).judge p d v from rfl)

theorem keys_limit (l : Library) (p : Place) (d v : Json) :
    (limit l).keys p d v = (rules l (enough l d v)).keys p d v :=
  rfl

theorem indices_limit (l : Library) (p : Place) (d v : Json) :
    (limit l).indices p d v = (rules l (enough l d v)).indices p d v :=
  rfl

-- so many steps are never to be computed
attribute [irreducible] limit

theorem limit_agree_rules (hl : l.Offers R) (hl' : l'.Offers R) (hR : Grounded R) {d v : Json}
    (hd : Closed d) {n : Nat} (hn : bound l' d v ≤ n) : (limit l).Agree (rules l' n) d v := by
  have hagree := agree_of_bound hl hl' hR hd (bound_le_enough l d v) hn
  refine ⟨fun p p' hp => ?_, fun p p' hp => ?_, fun p p' hp => ?_⟩
  · rw [valid_limit, hagree.valid p p' hp]
  · rw [keys_limit, hagree.keys p p' hp]
  · rw [indices_limit, hagree.indices p p' hp]

theorem Rules.Agree.symm {r r' : Rules} {d v : Json} (h : r.Agree r' d v) : r'.Agree r d v :=
  ⟨fun p p' hp => (h.valid p' p hp.symm).symm, fun p p' hp => (h.keys p' p hp.symm).symm,
    fun p p' hp => (h.indices p' p hp.symm).symm⟩

/-- The outcome depends on the resources alone. -/
theorem limit_agree_limit (hl : l.Offers R) (hl' : l'.Offers R) (hR : Grounded R) {d v : Json}
    (hd : Closed d) : (limit l).Agree (limit l') d v := by
  have hagree := limit_agree_rules hl hl' hR hd (bound_le_enough l' d v)
  refine ⟨fun p p' hp => ?_, fun p p' hp => ?_, fun p p' hp => ?_⟩
  · rw [valid_limit l', hagree.valid p p' hp]
  · rw [keys_limit l', hagree.keys p p' hp]
  · rw [indices_limit l', hagree.indices p p' hp]

/-- The outcome for a schema is made of the outcomes for the schemas inside it. -/
theorem limit_obj (hl : l.Offers R) (hR : Grounded R) {members : Fields Json}
    (hd : Closed (.obj members)) (p : Place) (v : Json) :
    (limit l).valid p (.obj members) v = (findings l (limit l) p (.obj members) v).isEmpty ∧
      (limit l).keys p (.obj members) v = seenKeys l (limit l) p (.obj members) v ∧
      (limit l).indices p (.obj members) v = seenIndices l (limit l) p (.obj members) v := by
  -- so many steps are enough for every schema that evaluation can come to next
  obtain ⟨n, hn⟩ : ∃ n, ∀ d x : Json, x.depth ≤ v.depth →
      d.size ≤ l.size + (Json.obj members).size → bound l d x ≤ n :=
    ⟨(v.depth + 1) * (l.size + (l.size + (Json.obj members).size) + 1),
      fun d x hx hsize => Nat.mul_le_mul (by omega) (by omega)⟩
  have hnext : ∀ d x, Closed d → x.depth ≤ v.depth → d.size ≤ l.size + (Json.obj members).size →
      (rules l n).Agree (limit l) d x :=
    fun d x hclosed hx hsize => (limit_agree_rules hl hl hR hclosed (hn d x hx hsize)).symm
  have hconcur : Concur l l (rules l n) (limit l) members v := by
    refine concur_of_closed hl hl hd (fun s hs => ?_) (fun s hs x hx => ?_)
    · cases hs with
      | applied h =>
        exact hnext s v (hd.inner h.inner) (Nat.le_refl _)
          (Nat.le_add_left_of_le (size_le_of_under h))
      | reference h =>
        rcases exists_resource_of_documentOf h with ⟨r, hr, rfl⟩
        have hle : r.contents.size ≤ (R.map (fun r => r.contents.size)).sum :=
          List.le_sum_of_mem (List.mem_map.mpr ⟨r, hr, rfl⟩)
        have hsize := hl.size_le
        exact hnext _ v (hR.closed r hr) (Nat.le_refl _) (by omega)
    · exact hnext s x (hd.inner hs) (Nat.le_of_lt hx) (Nat.le_add_left_of_le (size_le_of_under hs))
  have hagree := limit_agree_rules hl hl hR hd (n := n + 1) (v := v)
    (Nat.le_succ_of_le (hn _ _ (Nat.le_refl _) (Nat.le_add_left _ _)))
  exact ⟨(hagree.valid p p rfl).trans (hconcur.isEmpty_findings rfl),
    (hagree.keys p p rfl).trans (hconcur.seenKeys_eq rfl),
    (hagree.indices p p rfl).trans (hconcur.seenIndices_eq rfl)⟩

end Evaluation

end HttpContract
