import HttpContract.Proofs.Plans

/-!
# Schemas around a schema

Plans follow the schemas that stand under certain keywords, and those that markers carry. A `Frame`
is a schema with a hole at one such position, and a list of frames is a hole at any depth
(`fill`). `Marks` relates a document to the one in which the schema in the hole has been replaced by
a marker that names it.
-/

namespace HttpContract.Planning

/-! ## Holes -/

/-- A keyword whose value has a hole where a schema stands that plans follow. -/
inductive Slot where
  | property (before : Fields Json) (name : String) (after : Fields Json)
  | pattern (before : Fields Json) (source : String) (after : Fields Json)
  | additional
  | items
  | itemList (before after : List Json)
  | leading (before after : List Json)
  | branch (before after : List Json)

namespace Slot

/-- The keyword. -/
def keyword : Slot → String
  | property .. => "properties"
  | pattern .. => "patternProperties"
  | additional => "additionalProperties"
  | items => "items"
  | itemList .. => "items"
  | leading .. => "prefixItems"
  | branch .. => "allOf"

/-- The value of the keyword with a document in the hole. -/
def value : Slot → Json → Json
  | property before name after, d => .obj (before ++ (name, d) :: after)
  | pattern before source after, d => .obj (before ++ (source, d) :: after)
  | additional, d => d
  | items, d => d
  | itemList before after, d => .arr (before ++ d :: after)
  | leading before after, d => .arr (before ++ d :: after)
  | branch before after, d => .arr (before ++ d :: after)

end Slot

/-- A schema with a hole where a schema stands that plans follow. -/
inductive Frame where
  /-- The hole is under a keyword. -/
  | keyword (slot : Slot) (left right : Fields Json)
  /-- The hole is the schema that a marker carries. -/
  | target

/-- The schema with a document in the hole. -/
def Frame.fill : Frame → Json → Json
  | .keyword slot left right, d => .obj (left ++ (slot.keyword, slot.value d) :: right)
  | .target, d => .obj [(Marker.key, d)]

/-- The schema with a document in the hole of the innermost of its frames, the outermost first. -/
def fill (around : List Frame) (d : Json) : Json := around.foldr Frame.fill d

@[simp] theorem fill_nil (d : Json) : fill [] d = d := rfl

@[simp] theorem fill_cons (F : Frame) (around : List Frame) (d : Json) :
    fill (F :: around) d = F.fill (fill around d) := rfl

theorem exists_fill_eq_obj (F : Frame) (d : Json) : ∃ members, F.fill d = .obj members := by
  cases F with
  | keyword slot left right => exact ⟨_, rfl⟩
  | target => exact ⟨_, rfl⟩

theorem isSchema_fill {d : Json} (hd : d.isSchema = true) :
    ∀ around : List Frame, (fill around d).isSchema = true
  | [] => hd
  | F :: rest => by
    rcases exists_fill_eq_obj F (fill rest d) with ⟨members, hmembers⟩
    rw [fill_cons, hmembers]
    rfl

theorem keyword_ne_key (slot : Slot) : slot.keyword ≠ Marker.key := by
  cases slot <;> simp [Slot.keyword, Marker.key]

/-- A schema with a keyword that plans follow is no marker. -/
theorem ofMembers?_ne_ok {left right : Fields Json} {k : String} {v : Json} (hk : k ≠ Marker.key)
    (m : Marker) : Marker.ofMembers? (left ++ (k, v) :: right) ≠ some (.ok m) := by
  intro h
  unfold Marker.ofMembers? at h
  split at h
  · cases h
  · next target htarget =>
    -- beside the member of the marker there is the keyword
    have hlength : 1 < (left ++ (k, v) :: right).length := by
      cases left with
      | cons x rest =>
        simp only [List.cons_append, List.length_cons, List.length_append]
        omega
      | nil =>
        cases right with
        | cons x rest => simp
        | nil => simp [Fields.get?, hk] at htarget
    rw [if_pos hlength] at h
    cases h

theorem ofMembers?_congr {left right : Fields Json} {k : String} (hk : k ≠ Marker.key)
    (v v' : Json) : Marker.ofMembers? (left ++ (k, v) :: right) =
      Marker.ofMembers? (left ++ (k, v') :: right) := by
  have hget : Fields.get? (left ++ (k, v) :: right) Marker.key =
      Fields.get? (left ++ (k, v') :: right) Marker.key := by
    simp [Fields.get?_append, Fields.get?_cons, hk]
  unfold Marker.ofMembers?
  rw [hget]
  simp

theorem isSchema_of_read? {d : Json} {m : Except MarkerError Marker}
    (h : Marker.read? d = some m) : d.isSchema = true := by
  cases d with
  | obj members => rfl
  | _ => cases h

theorem toNat?_of_ofTarget {n : Json.Number} {handle : Nat}
    (h : Marker.ofTarget (.num n) = .ok (.deferred handle)) : n.toNat? = some handle := by
  unfold Marker.ofTarget at h
  dsimp only at h
  split at h
  · next m hm => rw [hm, Marker.deferred.inj (Except.ok.inj h)]
  · cases h

/-- A marker that carries a schema has it as its only member. -/
theorem members_of_inline {members : Fields Json} {f : Fragment}
    (h : Marker.ofMembers? members = some (.ok (.inline f))) :
    members = [(Marker.key, f.document)] := by
  unfold Marker.ofMembers? at h
  split at h
  · cases h
  · next target htarget =>
    split at h
    · simp at h
    · next hlength =>
      have htarget' : f.document = target := by
        have hof : Marker.ofTarget target = .ok (.inline f) := by simpa using h
        unfold Marker.ofTarget at hof
        split at hof
        · split at hof <;> cases hof
        · split at hof
          · next g hg =>
            cases hof
            unfold Fragment.ofJson at hg
            split at hg <;> cases hg
            rfl
          · cases hof
      match members, htarget, hlength with
      | [(key, inner)], htarget, _ =>
        obtain ⟨rfl, rfl⟩ : key = Marker.key ∧ inner = target := by
          simpa [Fields.get?_cons] using htarget
        rw [htarget']
      | _ :: _ :: _, _, hlength => simp at hlength

/-! ## Plans of schemas around a schema -/

variable {c : Context}

theorem exists_inline_of_plans {d document : Json} {n : Node} (hd : d.isSchema = true)
    (h : Plans c (Frame.target.fill d) n document) :
    ∃ root evaluator inner, n = .inline root evaluator d ∧ Plans c d root inner := by
  have hmarker : Marker.ofMembers? [(Marker.key, d)] = some (.ok (.inline ⟨d, hd⟩)) := by
    have htarget : Marker.ofTarget d = .ok (.inline ⟨d, hd⟩) := by
      cases d with
      | obj members => rfl
      | bool b => rfl
      | _ => cases hd
    simp [Marker.ofMembers?, Fields.get?_cons, htarget]
  generalize hfill : Frame.target.fill d = v at h
  cases h with
  | always b => cases hfill
  | deferred hm _ =>
    cases hfill
    simp [hmarker] at hm
  | inline hm hinner hevaluator =>
    cases hfill
    exact ⟨_, _, _, rfl, hinner⟩
  | keywords hm _ =>
    cases hfill
    simp [hmarker] at hm

theorem exists_plan_of_plans {slot : Slot} {left right : Fields Json} {d document : Json}
    {n : Node} (h : Plans c ((Frame.keyword slot left right).fill d) n document) :
    ∃ p documents, n = .plan p ∧ document = .obj documents ∧
      PlansKeywords c (left ++ (slot.keyword, slot.value d) :: right) Plan.empty p documents := by
  generalize hfill : (Frame.keyword slot left right).fill d = v at h
  cases h with
  | always b => cases hfill
  | deferred hm _ =>
    cases hfill
    exact absurd hm (ofMembers?_ne_ok (keyword_ne_key slot) _)
  | inline hm _ _ =>
    injection hfill with hfill
    rw [← hfill] at hm
    exact absurd hm (ofMembers?_ne_ok (keyword_ne_key slot) _)
  | keywords hm hp =>
    cases hfill
    exact ⟨_, _, rfl, rfl, hp⟩

/-! ## Markers in holes -/

/-- A marker names a schema: it carries the schema, or a handle that the registry defines as it. -/
def Names (r : Registry) : Marker → Fragment → Prop
  | .inline f, t => f = t
  | .deferred handle, t => r.get? handle = some t

/-- A schema has a `default` of its own. -/
def CarriesDefault (d : Json) : Prop :=
  ∃ members, d = .obj members ∧ Fields.contains members "default" = true

/-- A marker in the hole says the same to plans as the schema it names. A reference has no default
to fill in, and `additionalProperties` with a truth value holds no schema. -/
def Slot.Suits : Slot → Json → Prop
  | .property .., t => ¬ CarriesDefault t
  | .additional, t => ∀ b, t ≠ .bool b
  | _, _ => True

/-- The marker `x` suits the frame where the schema `t` stands. -/
def Frame.Suits : Frame → Json → Prop
  | .keyword slot _ _, t => slot.Suits t
  | .target, _ => True

/-- The document `d'` is `d` with one schema replaced by a marker that names it. The schema may
stand at the root or at any position that plans follow. -/
def Marks (r : Registry) (d d' : Json) : Prop :=
  ∃ around t x m, Marker.read? x = some (.ok m) ∧ Names r m t ∧
    (∀ F, around.getLast? = some F → F.Suits t.document) ∧
    d = fill around t.document ∧ d' = fill around x

/-! ## Defaults -/

/-- The default that a property with this schema is filled in with. -/
def carried : Json → Option Json
  | .obj members =>
    match Marker.ofMembers? members with
    | some _ => none
    | none =>
      members.foldl (fun known m => if role m.1 = .default then some m.2 else known) none
  | _ => none

theorem default_of_plansKeyword {ρ : Role} {v document : Json} {p q : Plan Node}
    (h : PlansKeyword c ρ v p q document) :
    q.default = if ρ = .default then some v else p.default := by
  cases h <;> simp

theorem default_of_plansKeywords {members documents : Fields Json} {p q : Plan Node} :
    PlansKeywords c members p q documents → q.default =
      members.foldl (fun known m => if role m.1 = .default then some m.2 else known) p.default
  | .nil => rfl
  | .cons h hrest => by
    rw [default_of_plansKeywords hrest, default_of_plansKeyword h, List.foldl_cons]
termination_by structural h => h

theorem filling_of_plans {d document : Json} {n : Node} (h : Plans c d n document) :
    n.filling = carried d := by
  cases h with
  | always b => rfl
  | deferred hm _ => simp [carried, hm, Node.filling]
  | inline hm _ _ => simp [carried, hm, Node.filling]
  | keywords hm hp =>
    simp only [carried, hm, Node.filling]
    exact default_of_plansKeywords hp

theorem role_eq_default_iff {k : String} : role k = .default ↔ k = "default" :=
  ⟨fun h => eq_of_role h rfl, fun h => h ▸ rfl⟩

theorem carried_of_not_carriesDefault {d : Json} (h : ¬ CarriesDefault d) : carried d = none := by
  unfold carried
  split
  · next members =>
    split
    · rfl
    · have hnone : ∀ m ∈ members, role m.1 ≠ .default := by
        rintro ⟨k, v⟩ hm hk
        obtain rfl := role_eq_default_iff.mp hk
        exact h ⟨members, rfl, (Fields.contains_iff _ _).mpr ⟨v, hm⟩⟩
      have hfold : ∀ (ms : Fields Json) (known : Option Json), (∀ m ∈ ms, role m.1 ≠ .default) →
          ms.foldl (fun known m => if role m.1 = .default then some m.2 else known) known =
            known := by
        intro ms
        induction ms with
        | nil => exact fun _ _ => rfl
        | cons m rest ih =>
          intro known hms
          rw [List.foldl_cons, if_neg (hms m List.mem_cons_self)]
          exact ih known (fun x hx => hms x (List.mem_cons_of_mem _ hx))
      exact hfold members none hnone
  · rfl

theorem carried_of_read? {d : Json} {m : Except MarkerError Marker}
    (h : Marker.read? d = some m) : carried d = none := by
  cases d with
  | obj members =>
    have hm : Marker.ofMembers? members = some m := h
    simp [carried, hm]
  | _ => cases h

end HttpContract.Planning
