import HttpContract.Proofs.Assembling
import HttpContract.Proofs.Contexts
import HttpContract.Proofs.CorrespondingTexts
import HttpContract.Proofs.References

/-!
# Markers are transparent to what is produced

A schema and the schema in which one subschema has been replaced by a marker that names it leave the
same of every value and write the same text or the same error, also where a registry is changed in
this way: `same_products_of_marks`.
-/

namespace HttpContract.Planning

variable {c : Context}

/-! ## Twins -/

/-- Either nothing is changed or one schema is replaced by a marker that names it. -/
def Wraps (r : Registry) (d d' : Json) : Prop := d = d' ∨ Marks r d d'

/-- The nodes of a schema and of what became of it. -/
def Twins (r : Registry) (e e' : Engine) (n n' : Node) : Prop :=
  ∃ d d' document document', Wraps r d d' ∧ Plans e.context d n document ∧
    Plans e'.context d' n' document'

/-- The values of a keyword in a schema and in what became of it. -/
inductive ValueTwins (r : Registry) : Role → Json → Json → Prop where
  | same (ρ : Role) (v : Json) : ValueTwins r ρ v v
  | properties {members members' : Fields Json}
      (h : List.Forall₂ (fun a b => a.1 = b.1 ∧ Wraps r a.2 b.2 ∧ carried a.2 = carried b.2)
        members members') : ValueTwins r .properties (.obj members) (.obj members')
  | patterns {members members' : Fields Json}
      (h : List.Forall₂ (fun a b => a.1 = b.1 ∧ Wraps r a.2 b.2) members members') :
      ValueTwins r .patterns (.obj members) (.obj members')
  | additional {d d' : Json} (h : Wraps r d d') (hd : ∀ b, d ≠ .bool b) (hd' : ∀ b, d' ≠ .bool b) :
      ValueTwins r .additional d d'
  | items {d d' : Json} (h : Wraps r d d') (hd : ∀ xs, d ≠ .arr xs) (hd' : ∀ xs, d' ≠ .arr xs) :
      ValueTwins r .items d d'
  | itemList {xs xs' : List Json} (h : List.Forall₂ (Wraps r) xs xs') :
      ValueTwins r .items (.arr xs) (.arr xs')
  | leading {xs xs' : List Json} (h : List.Forall₂ (Wraps r) xs xs') :
      ValueTwins r .leading (.arr xs) (.arr xs')
  | branches {xs xs' : List Json} (h : List.Forall₂ (Wraps r) xs xs') :
      ValueTwins r .branches (.arr xs) (.arr xs')

variable {r : Registry} {e e' : Engine}

theorem Wraps.refl (d : Json) : Wraps r d d := Or.inl rfl

theorem forall₂_wraps (xs : List Json) : List.Forall₂ (Wraps r) xs xs :=
  List.forall₂_same.mpr (fun x _ => .refl x)

theorem twins_of_items {xs xs' documents documents' : List Json} {nodes nodes' : List Node}
    (h : List.Forall₂ (Wraps r) xs xs') (hxs : PlansItems e.context xs nodes documents)
    (hxs' : PlansItems e'.context xs' nodes' documents') :
    List.Forall₂ (Twins r e e') nodes nodes' := by
  induction h generalizing nodes nodes' documents documents' with
  | nil =>
    cases hxs
    cases hxs'
    exact .nil
  | cons hd _ ih =>
    cases hxs with
    | cons hn hrest =>
      cases hxs' with
      | cons hn' hrest' => exact .cons ⟨_, _, _, _, hd, hn, hn'⟩ (ih hrest hrest')

theorem twins_of_entries {members members' documents documents' : Fields Json}
    {nodes nodes' : List (String × Node)}
    (h : List.Forall₂ (fun a b => a.1 = b.1 ∧ Wraps r a.2 b.2) members members')
    (hms : PlansEntries e.context members nodes documents)
    (hms' : PlansEntries e'.context members' nodes' documents') :
    List.Forall₂ (fun a b => a.1 = b.1 ∧ Twins r e e' a.2 b.2) nodes nodes' := by
  induction h generalizing nodes nodes' documents documents' with
  | nil =>
    cases hms
    cases hms'
    exact .nil
  | cons hd _ ih =>
    cases hms with
    | cons hn hrest =>
      cases hms' with
      | cons hn' hrest' => exact .cons ⟨hd.1, _, _, _, _, hd.2, hn, hn'⟩ (ih hrest hrest')

theorem twins_of_properties {members members' documents documents' : Fields Json}
    {nodes nodes' : List (String × Node)}
    (h : List.Forall₂ (fun a b => a.1 = b.1 ∧ Wraps r a.2 b.2 ∧ carried a.2 = carried b.2)
      members members')
    (hms : PlansEntries e.context members nodes documents)
    (hms' : PlansEntries e'.context members' nodes' documents') :
    List.Forall₂ (fun a b => a.1 = b.1 ∧ Twins r e e' a.2 b.2 ∧ a.2.filling = b.2.filling)
      nodes nodes' := by
  induction h generalizing nodes nodes' documents documents' with
  | nil =>
    cases hms
    cases hms'
    exact .nil
  | cons hd _ ih =>
    cases hms with
    | cons hn hrest =>
      cases hms' with
      | cons hn' hrest' =>
        refine .cons ⟨hd.1, ⟨_, _, _, _, hd.2.1, hn, hn'⟩, ?_⟩ (ih hrest hrest')
        rw [filling_of_plans hn, filling_of_plans hn']
        exact hd.2.2

/-- A keyword keeps plans similar. -/
theorem similar_of_plansKeyword {ρ : Role} {v v' document document' : Json} {p p' q q' : Plan Node}
    (hv : ValueTwins r ρ v v') (hp : Plan.Similar (Twins r e e') p p')
    (h : PlansKeyword e.context ρ v p q document)
    (h' : PlansKeyword e'.context ρ v' p' q' document') : Plan.Similar (Twins r e e') q q' := by
  cases h with
  | types hts =>
    cases hv
    cases h' with
    | types hts' => exact { hp with types := Option.some.inj (hts.symm.trans hts') }
  | default =>
    cases hv
    cases h'
    exact { hp with default := rfl }
  | required =>
    cases hv
    cases h'
    exact { hp with required := rfl }
  | properties hms =>
    cases h' with
    | properties hms' =>
      refine { hp with properties := twins_of_properties ?_ hms hms' }
      cases hv with
      | same => exact List.forall₂_same.mpr (fun m _ => ⟨rfl, .refl _, rfl⟩)
      | properties h => exact h
  | patterns hms =>
    cases h' with
    | patterns hms' =>
      refine { hp with patterns := twins_of_entries ?_ hms hms' }
      cases hv with
      | same => exact List.forall₂_same.mpr (fun m _ => ⟨rfl, .refl _⟩)
      | patterns h => exact h
  | allowed =>
    cases hv with
    | same =>
      cases h' with
      | allowed => exact { hp with additional := .allowed }
      | additional hv' _ => exact absurd rfl (hv' true)
    | additional _ hd _ => exact absurd rfl (hd true)
  | forbidden =>
    cases hv with
    | same =>
      cases h' with
      | forbidden => exact { hp with additional := .forbidden }
      | additional hv' _ => exact absurd rfl (hv' false)
    | additional _ hd _ => exact absurd rfl (hd false)
  | additional hd hn =>
    have hwraps : Wraps r v v' ∧ ∀ b, v' ≠ .bool b := by
      cases hv with
      | same => exact ⟨.refl _, hd⟩
      | additional h _ hd' => exact ⟨h, hd'⟩
    cases h' with
    | allowed => exact absurd rfl (hwraps.2 true)
    | forbidden => exact absurd rfl (hwraps.2 false)
    | additional _ hn' =>
      exact { hp with additional := .schema ⟨_, _, _, _, hwraps.1, hn, hn'⟩ }
  | items hd hn =>
    have hwraps : Wraps r v v' ∧ ∀ xs, v' ≠ .arr xs := by
      cases hv with
      | same => exact ⟨.refl _, hd⟩
      | items h _ hd' => exact ⟨h, hd'⟩
      | itemList _ => exact absurd rfl (hd _)
    cases h' with
    | items _ hn' => exact { hp with items := .some ⟨_, _, _, _, hwraps.1, hn, hn'⟩ }
    | itemList _ => exact absurd rfl (hwraps.2 _)
  | itemList hxs =>
    cases h' with
    | items hd' _ =>
      cases hv with
      | same => exact absurd rfl (hd' _)
      | items _ hd _ => exact absurd rfl (hd _)
      | itemList _ => exact absurd rfl (hd' _)
    | itemList hxs' =>
      refine { hp with leading := twins_of_items ?_ hxs hxs' }
      cases hv with
      | same => exact forall₂_wraps _
      | items _ hd _ => exact absurd rfl (hd _)
      | itemList h => exact h
  | leading hxs =>
    cases h' with
    | leading hxs' =>
      refine { hp with leading := twins_of_items ?_ hxs hxs' }
      cases hv with
      | same => exact forall₂_wraps _
      | leading h => exact h
  | branches hxs =>
    cases h' with
    | branches hxs' =>
      refine { hp with allOf := twins_of_items ?_ hxs hxs' }
      cases hv with
      | same => exact forall₂_wraps _
      | branches h => exact h
  | data =>
    cases h'
    exact hp
  | other _ =>
    cases h'
    exact { hp with }

theorem similar_of_plansKeywords {members members' documents documents' : Fields Json}
    {p p' q q' : Plan Node} (hp : Plan.Similar (Twins r e e') p p')
    (hms : List.Forall₂ (fun a b => a.1 = b.1 ∧ ValueTwins r (role a.1) a.2 b.2) members members')
    (h : PlansKeywords e.context members p q documents)
    (h' : PlansKeywords e'.context members' p' q' documents') :
    Plan.Similar (Twins r e e') q q' := by
  induction hms generalizing p p' documents documents' with
  | nil =>
    cases h
    cases h'
    exact hp
  | @cons a b _ _ hab _ ih =>
    rcases a with ⟨k, v⟩
    rcases b with ⟨k', v'⟩
    obtain ⟨rfl, hv⟩ : k = k' ∧ ValueTwins r (role k) v v' := hab
    cases h with
    | cons hk hrest =>
      cases h' with
      | cons hk' hrest' => exact ih (similar_of_plansKeyword hv hp hk hk') hrest hrest'

/-! ## Following twins -/

variable {o : Options} {r₀ : Registry}

/-- A marker resolves to what the schema it names compiles to. -/
theorem exists_compiled_of_marker (hr : Engine.ofRegistry o r = .ok e) {x document : Json}
    {m : Marker} {t : Fragment} {n : Node} (hx : Marker.read? x = some (.ok m)) (hm : Names r m t)
    (h : Plans e.context x n document) :
    document = .bool true ∧ ∃ s, e.resolve? n = some s ∧ Compiled e.context t.document s := by
  cases h with
  | always b => cases hx
  | @deferred members handle hx' hdefined =>
    obtain rfl : m = .deferred handle := by
      have heq : some (Except.ok m) = some (Except.ok (.deferred handle)) := hx.symm.trans hx'
      simpa using heq
    have hget : r.get? handle = some t := hm
    have hentry := Engine.rel_entry? hr handle
    rw [hget] at hentry
    rcases exists_of_rel (rel_symm hentry) rfl with ⟨s, hs, hcompiled⟩
    exact ⟨rfl, s, hs, hcompiled⟩
  | inline hx' hinner hevaluator =>
    obtain rfl : m = .inline _ := by
      have heq : some (Except.ok m) = some (Except.ok (.inline _)) := hx.symm.trans hx'
      simpa using heq
    obtain rfl : _ = t := hm
    obtain ⟨⟨-, rfl⟩, -⟩ : (_ = Marker.key ∧ _ = Fragment.document _) ∧ _ = [] := by
      simpa using members_of_inline hx'
    exact ⟨rfl, _, rfl, _, hinner, hevaluator⟩
  | keywords hx' _ =>
    have heq : some (Except.ok m) = none := hx.symm.trans hx'
    simp at heq

/-- A registry and what became of it, both accepted. -/
structure Revised (o : Options) (r₀ r : Registry) (e e' : Engine) : Prop where
  accepted : Engine.ofRegistry o r₀ = .ok e
  accepted' : Engine.ofRegistry o r = .ok e'
  wraps : ∀ handle, Option.Rel (fun f f' => Wraps r f.document f'.document) (r₀.get? handle)
    (r.get? handle)

namespace Revised

theorem exists_entries (hr : Revised o r₀ r e e') {handle : Nat}
    (hdefined : e'.context.defined[handle]?.getD false = true) :
    ∃ s s', e.entry? handle = some s ∧ e'.entry? handle = some s' ∧
      Twins r e e' s.root s'.root := by
  rcases Engine.get?_of_defined hr.accepted' hdefined with ⟨f', hf'⟩
  have hwraps := hr.wraps handle
  have hentry := Engine.rel_entry? hr.accepted handle
  have hentry' := Engine.rel_entry? hr.accepted' handle
  rw [hf'] at hwraps hentry'
  generalize r₀.get? handle = x at hwraps hentry
  generalize e.entry? handle = y at hentry ⊢
  generalize e'.entry? handle = y' at hentry' ⊢
  cases hwraps with
  | some hwraps =>
    cases hentry with
    | some h =>
      cases hentry' with
      | some h' =>
        rcases h with ⟨document, hplans, -⟩
        rcases h' with ⟨document', hplans', -⟩
        exact ⟨_, _, rfl, rfl, _, _, document, document', hwraps, hplans, hplans'⟩

/-- A schema that is not changed has matching nodes in both engines. -/
theorem matched_same (hr : Revised o r₀ r e e') {d document document' : Json} {n n' : Node}
    (h : Plans e.context d n document) (h' : Plans e'.context d n' document') :
    Matched e e' (Twins r e e') n n' := by
  cases h with
  | always b =>
    cases h'
    exact .plan .empty
  | deferred hm _ =>
    cases h' with
    | deferred hm' hdefined =>
      obtain ⟨⟩ : Marker.deferred _ = .deferred _ := by simpa using hm.symm.trans hm'
      rcases hr.exists_entries hdefined with ⟨s, s', hs, hs', htwins⟩
      exact .both hs hs' htwins
    | inline hm' _ _ => simp [hm] at hm'
    | keywords hm' _ => simp [hm] at hm'
  | inline hm h _ =>
    cases h' with
    | deferred hm' _ => simp [hm] at hm'
    | inline _ h' _ => exact .both rfl rfl ⟨_, _, _, _, .refl _, h, h'⟩
    | keywords hm' _ => simp [hm] at hm'
  | keywords hm h =>
    cases h' with
    | deferred hm' _ => simp [hm] at hm'
    | inline hm' _ _ => simp [hm] at hm'
    | keywords _ h' =>
      exact .plan (similar_of_plansKeywords .empty
        (List.forall₂_same.mpr (fun m _ => ⟨rfl, .same _ _⟩)) h h')

end Revised

/-! ## Following holes -/

/-- What stands in a hole, and what comes in its place. -/
structure InHole (slot : Slot) (d d' : Json) : Prop where
  carried : (∃ before name after, slot = .property before name after) → carried d = carried d'
  additional : slot = .additional → (∀ b, d ≠ .bool b) ∧ ∀ b, d' ≠ .bool b
  items : slot = .items → (∀ xs, d ≠ .arr xs) ∧ ∀ xs, d' ≠ .arr xs

theorem valueTwins_of_slot {slot : Slot} {d d' : Json} (h : Wraps r d d')
    (hd : InHole slot d d') : ValueTwins r (role slot.keyword) (slot.value d) (slot.value d') := by
  have hbeside : ∀ before after : List Json,
      List.Forall₂ (Wraps r) (before ++ d :: after) (before ++ d' :: after) :=
    fun before after => List.rel_append (forall₂_wraps before) (.cons h (forall₂_wraps after))
  cases slot with
  | property before name after =>
    have hsame : ∀ ms : Fields Json, List.Forall₂
        (fun a b => a.1 = b.1 ∧ Wraps r a.2 b.2 ∧ Planning.carried a.2 = Planning.carried b.2)
        ms ms :=
      fun ms => List.forall₂_same.mpr (fun _ _ => ⟨rfl, .refl _, rfl⟩)
    exact .properties (List.rel_append (hsame before)
      (.cons ⟨rfl, h, hd.carried ⟨_, _, _, rfl⟩⟩ (hsame after)))
  | pattern before source after =>
    have hsame : ∀ ms : Fields Json,
        List.Forall₂ (fun a b => a.1 = b.1 ∧ Wraps r a.2 b.2) ms ms :=
      fun ms => List.forall₂_same.mpr (fun _ _ => ⟨rfl, .refl _⟩)
    exact .patterns (List.rel_append (hsame before) (.cons ⟨rfl, h⟩ (hsame after)))
  | additional => exact .additional h (hd.additional rfl).1 (hd.additional rfl).2
  | items => exact .items h (hd.items rfl).1 (hd.items rfl).2
  | itemList before after => exact .itemList (hbeside before after)
  | leading before after => exact .leading (hbeside before after)
  | branch before after => exact .branches (hbeside before after)

/-- What stands in a hole below does not decide about the default of a schema. -/
theorem carried_fill (F : Frame) (d d' : Json) : carried (F.fill d) = carried (F.fill d') := by
  cases F with
  | keyword slot left right =>
    have hrole : role slot.keyword ≠ .default := by
      rw [Ne, role_eq_default_iff]
      cases slot <;> simp [Slot.keyword]
    simp only [Frame.fill, carried]
    rw [ofMembers?_congr (keyword_ne_key slot) (slot.value d) (slot.value d')]
    simp [hrole]
  | target => rfl

theorem inHole {around : List Frame} {slot : Slot} {left right : Fields Json} {t : Fragment}
    {x : Json} {m : Marker} (hx : Marker.read? x = some (.ok m))
    (hsuits : ∀ F, (Frame.keyword slot left right :: around).getLast? = some F →
      F.Suits t.document) : InHole slot (fill around t.document) (fill around x) := by
  cases around with
  | nil =>
    -- the schema and the marker themselves stand in the hole
    have hslot : slot.Suits t.document := hsuits _ rfl
    have hobj : ∃ members, x = .obj members := by
      cases x with
      | obj members => exact ⟨members, rfl⟩
      | _ => cases hx
    rcases hobj with ⟨members, rfl⟩
    refine ⟨?_, ?_, ?_⟩
    · rintro ⟨before, name, after, rfl⟩
      rw [fill_nil, fill_nil, carried_of_read? hx, carried_of_not_carriesDefault hslot]
    · rintro rfl
      exact ⟨hslot, by simp⟩
    · rintro rfl
      refine ⟨?_, by simp⟩
      intro xs hxs
      have hschema := t.isSchema
      rw [fill_nil] at hxs
      rw [hxs] at hschema
      cases hschema
  | cons F rest =>
    rcases exists_fill_eq_obj F (fill rest t.document) with ⟨members, hleft⟩
    rcases exists_fill_eq_obj F (fill rest x) with ⟨members', hright⟩
    refine ⟨fun _ => carried_fill F _ _, fun _ => ?_, fun _ => ?_⟩
    · simp [hleft, hright]
    · simp [hleft, hright]

namespace Revised

/-- A marker matches the schema it names. -/
theorem matched_marker (hr : Revised o r₀ r e e') {t : Fragment} {x document document' : Json}
    {m : Marker} {n n' : Node} (hx : Marker.read? x = some (.ok m)) (hm : Names r m t)
    (h : Plans e.context t.document n document) (h' : Plans e'.context x n' document') :
    Matched e e' (Twins r e e') n n' := by
  rcases exists_compiled_of_marker hr.accepted' hx hm h' with ⟨-, s, hs, inner, hplans, -⟩
  exact .right hs (hr.matched_same h hplans)

/-- A schema and what became of it have matching nodes. -/
theorem matched_wraps (hr : Revised o r₀ r e e') {d d' document document' : Json} {n n' : Node}
    (hd : Wraps r d d') (h : Plans e.context d n document)
    (h' : Plans e'.context d' n' document') : Matched e e' (Twins r e e') n n' := by
  rcases hd with rfl | ⟨around, t, x, m, hx, hm, hsuits, rfl, rfl⟩
  · exact hr.matched_same h h'
  cases around with
  | nil => exact hr.matched_marker hx hm h h'
  | cons F rest =>
    have hwraps : Wraps r (fill rest t.document) (fill rest x) := by
      refine Or.inr ⟨rest, t, x, m, hx, hm, fun G hG => hsuits G ?_, rfl, rfl⟩
      rw [List.getLast?_cons, hG]
      rfl
    cases F with
    | target =>
      -- both documents are markers that carry what is in the hole
      have hleft : (fill rest t.document).isSchema = true := isSchema_fill t.isSchema rest
      have hright : (fill rest x).isSchema = true := isSchema_fill (isSchema_of_read? hx) rest
      rcases exists_inline_of_plans hleft h with ⟨root, ev, inner, rfl, hroot⟩
      rcases exists_inline_of_plans hright h' with ⟨root', ev', inner', rfl, hroot'⟩
      exact .both rfl rfl ⟨_, _, _, _, hwraps, hroot, hroot'⟩
    | keyword slot left right =>
      rcases exists_plan_of_plans h with ⟨p, documents, rfl, -, hp⟩
      rcases exists_plan_of_plans h' with ⟨p', documents', rfl, -, hp'⟩
      refine .plan (similar_of_plansKeywords .empty ?_ hp hp')
      have hsame : ∀ ms : Fields Json, List.Forall₂
          (fun a b => a.1 = b.1 ∧ ValueTwins r (role a.1) a.2 b.2) ms ms :=
        fun ms => List.forall₂_same.mpr (fun _ _ => ⟨rfl, .same _ _⟩)
      exact List.rel_append (hsame left)
        (.cons ⟨rfl, valueTwins_of_slot hwraps (inHole hx hsuits)⟩ (hsame right))

theorem corresponds (hr : Revised o r₀ r e e') : Corresponds e e' (Twins r e e') where
  options := by
    rw [(Engine.ofRegistry_eq_ok hr.accepted).1, (Engine.ofRegistry_eq_ok hr.accepted').1]
  matched := by
    rintro n n' ⟨d, d', document, document', hd, h, h'⟩
    exact hr.matched_wraps hd h h'

end Revised

end HttpContract.Planning

namespace HttpContract.Engine

open Planning (Wraps Marks Revised)

variable {o : Options} {r r' : Registry} {e e' : Engine} {f f' : Fragment} {s s' : CompiledSchema}

/-- Let schemas of a registry and a fragment be left as they are or changed, in each of them, by
putting a marker that names it in the place of one subschema. When both sides compile, validation
comes to an end for the same values and leaves the same of them, and the same text or the same error
comes out of rendering. -/
theorem same_products_of_marks (he : ofRegistry o r = .ok e) (he' : ofRegistry o r' = .ok e')
    (hr : ∀ handle, Option.Rel (fun g g' => g = g' ∨ Marks r' g.document g'.document)
      (r.get? handle) (r'.get? handle))
    (hf : f = f' ∨ Marks r' f.document f'.document) (hs : e.compile f = .ok s)
    (hs' : e'.compile f' = .ok s') (v : Json) :
    (Ends e s v ↔ Ends e' s' v) ∧ (e.validate s v).value = (e'.validate s' v).value ∧
      e.stringify s v = e'.stringify s' v := by
  have hwraps : ∀ g g' : Fragment, g = g' ∨ Marks r' g.document g'.document →
      Wraps r' g.document g'.document :=
    fun g g' h => h.imp_left (congrArg Fragment.document)
  have hrevised : Revised o r r' e e' :=
    ⟨he, he', fun handle => rel_mono (hwraps) (hr handle)⟩
  rcases Planning.compiled_of_compile hs with ⟨document, hplans, -⟩
  rcases Planning.compiled_of_compile hs' with ⟨document', hplans', -⟩
  have htwins : Planning.Twins r' e e' s.root s'.root :=
    ⟨_, _, _, _, hwraps f f' hf, hplans, hplans'⟩
  rcases value_of_corresponds hrevised.corresponds (ofRegistry_eq_ok he).2 (ofRegistry_eq_ok he').2
    htwins v with ⟨hends, hvalue⟩
  refine ⟨hends, hvalue, ?_⟩
  rw [stringify_eq, stringify_eq, render_of_corresponds hrevised.corresponds htwins v]

/-! ## A reference in the place of a tree -/

/-- A schema for trees: the member `child` of an object is a tree. -/
def tree : Fragment := .ofMembers [("properties", .obj [("child", (Marker.deferred 0).toJson)])]

/-- The registry of this schema alone. -/
def treeRegistry : Registry := ⟨[⟨"tree", some tree⟩]⟩

/-- A schema for lists. -/
def listOf (item : Json) : Fragment := .ofMembers [("items", item)]

/-- A tree within a tree, with a property that trees do not declare. -/
def nestedTree : Json := .obj [("child", .obj [("leaf", .bool true)])]

theorem marks_listOf_tree :
    Marks treeRegistry (listOf tree.document).document
      (listOf (Marker.deferred 0).toJson).document := by
  refine ⟨[.keyword .items [] []], tree, (Marker.deferred 0).toJson, .deferred 0, rfl, rfl, ?_,
    rfl, rfl⟩
  intro F hF
  obtain rfl := Option.some.inj hF
  trivial

/-- The document for the evaluator of this schema. -/
def treeDocument : Json := .obj [("properties", .obj [("child", .bool true)])]

/-- The plan of this schema. -/
def treePlan : Plan Node := { Plan.empty with properties := [("child", .deferred 0)] }

/-- The document that evaluators of other schemas can refer to. -/
def treeResource : Resource where
  uri := EvaluationForm.resourceUri 0
  contents := .obj [("properties", .obj [("child", EvaluationForm.reference 0)])]

/-- The engine of the registry. -/
def treeEngine (l : Library) : Engine where
  options := .standard
  context := ⟨[true], [treeResource]⟩
  entries := [some ⟨.plan treePlan, ⟨l, Evaluator.defaultBase, treeDocument⟩, tree.document⟩]

theorem basic_treeDocument : Basic treeDocument := .single (.property (.bool true))

theorem exists_ofRegistry_tree : ∃ l, ofRegistry .standard treeRegistry = .ok (treeEngine l) ∧
    (∃ s, (treeEngine l).compile (listOf tree.document) = .ok s) ∧
    ∃ s', (treeEngine l).compile (listOf (Marker.deferred 0).toJson) = .ok s' := by
  have hresources : ∀ r ∈ [treeResource],
      (Library.declared (r.contents.depth + 1) r.uri r.contents).references = [] :=
    List.forall_mem_singleton.mpr (Library.references_of_unidentified 0 _ rfl)
  obtain ⟨l, hentry⟩ := Planning.compile_of_basic ⟨[true], [treeResource]⟩ .standard
    tree.document "tree#" rfl (n := .plan treePlan) rfl basic_treeDocument hresources
  obtain ⟨_, hs⟩ := Planning.compile_of_basic ⟨[true], [treeResource]⟩ .standard
    (listOf tree.document).document "" rfl
    (n := .plan { Plan.empty with items := some (.plan treePlan) }) rfl
    (.single (.items basic_treeDocument)) hresources
  obtain ⟨_, hs'⟩ := Planning.compile_of_basic ⟨[true], [treeResource]⟩ .standard
    (listOf (Marker.deferred 0).toJson).document "" rfl
    (n := .plan { Plan.empty with items := some (.deferred 0) }) rfl
    (.single (.items (.bool true))) hresources
  -- the engine accepts the registry: the reference stands at another place than the schema
  refine ⟨l, ofRegistry_eq_ok_iff.mpr ⟨[some treeResource], (treeEngine l).entries, rfl, ?_, rfl,
    rfl⟩, ⟨_, hs⟩, ⟨_, hs'⟩⟩
  show (entryOf ⟨[true], [treeResource]⟩ .standard ⟨"tree", some tree⟩).bind _ = _
  unfold entryOf
  dsimp only
  rw [show entryPath ⟨"tree", some tree⟩ = "tree#" from rfl, hentry]
  rfl

/-- The reference leaves of a list of trees, and writes for it, what the schema of trees does. -/
theorem same_products_listOf_tree : ∃ e s s', ofRegistry .standard treeRegistry = .ok e ∧
    (∀ handle, Option.Rel
      (fun g g' => g = g' ∨ Marks treeRegistry g.document g'.document)
      (treeRegistry.get? handle) (treeRegistry.get? handle)) ∧
    Marks treeRegistry (listOf tree.document).document
      (listOf (Marker.deferred 0).toJson).document ∧
    e.compile (listOf tree.document) = .ok s ∧
    e.compile (listOf (Marker.deferred 0).toJson) = .ok s' ∧
    (Ends e s (.arr [nestedTree]) ↔ Ends e s' (.arr [nestedTree])) ∧
    (e.validate s (.arr [nestedTree])).value = (e.validate s' (.arr [nestedTree])).value ∧
    e.stringify s (.arr [nestedTree]) = e.stringify s' (.arr [nestedTree]) := by
  rcases exists_ofRegistry_tree with ⟨l, he, ⟨s, hs⟩, s', hs'⟩
  have hsame : ∀ handle, Option.Rel
      (fun g g' => g = g' ∨ Marks treeRegistry g.document g'.document)
      (treeRegistry.get? handle) (treeRegistry.get? handle) := by
    intro handle
    cases treeRegistry.get? handle with
    | none => exact .none
    | some g => exact .some (Or.inl rfl)
  exact ⟨_, s, s', he, hsame, marks_listOf_tree, hs, hs',
    same_products_of_marks he he hsame (Or.inr marks_listOf_tree) hs hs' _⟩

end HttpContract.Engine
