import HttpContract.Proofs.AcceptedTexts

/-!
# Rendering comes to an end

Rendering goes down into the value, or from schema to schema over the same part of it. It can go
down no more often than the value is deep, and between two such steps it can go from schema to
schema only finitely often, since no accepted registry leads back to a schema at one place of the
value. So there is an outcome for every value and every node (`exists_write`): by induction on the
depth of the value, and for one value along the schemas that are entered at its place.

What is looked up in the schemas alone never goes down, so for that the second induction suffices
(`Engine.lookups_end`).
-/

namespace HttpContract

namespace Rendering

open Normalization

variable {e : Engine}

/-- Rendering a value along any node comes to an end, with a document or with an error. -/
def Settles (e : Engine) (v : Json) : Prop :=
  ∀ n path, ∃ r, Eventually (fun fuel => write e fuel n path v) r

/-! ## Parts -/

/-- A sequence comes to an end if each part does: at the first error, or behind the last part. -/
theorem sequence_settles {α β : Type} {attempt : Nat → α → Outcome β} : ∀ {xs : List α},
    (∀ x ∈ xs, ∃ r, Eventually (fun fuel => attempt fuel x) r) →
      ∃ rs, Eventually (fun fuel => sequence (attempt fuel) xs) rs
  | [], _ => ⟨.ok [], 0, fun _ _ => rfl⟩
  | x :: rest, h => by
    rcases h x List.mem_cons_self with ⟨r, least, hleast⟩
    cases r with
    | error err =>
      refine ⟨.error err, least, fun fuel hle => ?_⟩
      simp only [Rendering.sequence, hleast fuel hle]
    | ok y =>
      rcases sequence_settles (fun x hx => h x (List.mem_cons_of_mem _ hx)) with
        ⟨rs, others, hothers⟩
      cases rs with
      | error err =>
        refine ⟨.error err, max least others, fun fuel hle => ?_⟩
        simp only [Rendering.sequence, hleast fuel (by omega), hothers fuel (by omega)]
      | ok ys =>
        refine ⟨.ok (y :: ys), max least others, fun fuel hle => ?_⟩
        simp only [Rendering.sequence, hleast fuel (by omega), hothers fuel (by omega)]

theorem object_settles {members : Fields Json} (h : ∀ m ∈ members, Settles e m.2) (s : Shape)
    (path : String) : ∃ r, Eventually (fun fuel => object (write e fuel) s path members) r := by
  unfold object
  cases (Fields.keys s.required).find? (fun name => !Fields.contains members name) with
  | some missing => exact ⟨_, 0, fun _ _ => rfl⟩
  | none =>
    have hparts : ∀ m ∈ s.declaredMembers members ++ s.otherMembers members,
        ∃ r, Eventually (fun fuel => member (write e fuel) path m) r := by
      rintro ⟨key, n?, x⟩ hm
      cases n? with
      | none => exact ⟨.ok (key, x), 0, fun _ _ => rfl⟩
      | some n =>
        have hx : (key, x) ∈ members := mem_of_mem_rendered hm
        rcases h (key, x) hx n (Json.Pointer.child path key) with ⟨r, hr⟩
        exact ⟨_, hr.map _⟩
    rcases sequence_settles hparts with ⟨rs, hrs⟩
    exact ⟨_, hrs.map _⟩

theorem list_settles {items : List Json} (h : ∀ x ∈ items, Settles e x) (p : Plan Node)
    (path : String) : ∃ r, Eventually (fun fuel => list (write e fuel) p path items) r := by
  have hparts : ∀ m ∈ (List.range items.length).zip items,
      ∃ r, Eventually (fun fuel => item (write e fuel) p path m) r := by
    rintro ⟨i, x⟩ hm
    unfold item
    cases (p.leading[i]?).or p.items with
    | none => exact ⟨.ok x, 0, fun _ _ => rfl⟩
    | some n => exact h x (List.of_mem_zip hm).2 n (Json.Pointer.childIndex path i)
  rcases sequence_settles hparts with ⟨rs, hrs⟩
  exact ⟨_, hrs.map _⟩

/-! ## Values -/

/-- A plan asks for what is said about objects at its place, and then for nothing but the parts. -/
theorem plan_settles (he : e.Acyclic) {v : Json}
    (hmembers : ∀ members, v = .obj members → ∀ m ∈ members, Settles e m.2)
    (hitems : ∀ items, v = .arr items → ∀ x ∈ items, Settles e x) (p : Plan Node) (path : String) :
    ∃ r, Eventually (fun fuel => write e fuel (.plan p) path v) r := by
  suffices h : ∃ r, Eventually (fun fuel => write e (fuel + 1) (.plan p) path v) r by
    rcases h with ⟨r, hr⟩
    exact ⟨r, hr.of_succ⟩
  simp only [write]
  cases hu : (if p.types.isEmpty then some v else coerceAny? v p.types) with
  | none => exact ⟨_, 0, fun _ _ => rfl⟩
  | some u =>
    -- only scalars are converted, so the parts of an object or a list are those of the value
    have hsame : u = v ∨ isScalar u = true := by
      split at hu
      · exact Or.inl (Option.some.inj hu).symm
      · exact (eq_or_isScalar_of_coerceAny? hu).imp_right And.right
    cases u with
    | obj members =>
      obtain rfl : .obj members = v := hsame.resolve_right (by simp [isScalar])
      rcases exists_collect he (.plan p) Shape.empty with ⟨shape, -, least, hleast⟩
      dsimp only at hleast ⊢
      cases hdeclared : shape.declared with
      | true =>
        rcases object_settles (hmembers members rfl) shape path with ⟨r, others, hothers⟩
        refine ⟨r, max least others, fun fuel hle => ?_⟩
        simp only [hleast (fuel + 1) (by omega), hdeclared, if_true]
        exact hothers fuel (by omega)
      | false =>
        refine ⟨.ok (.obj members), least, fun fuel hle => ?_⟩
        simp [hleast (fuel + 1) (by omega), hdeclared]
    | arr items =>
      obtain rfl : .arr items = v := hsame.resolve_right (by simp [isScalar])
      dsimp only
      split
      · exact ⟨.ok (.arr items), 0, fun _ _ => rfl⟩
      · exact list_settles (hitems items rfl) p path
    | _ => exact ⟨_, 0, fun _ _ => rfl⟩

/-- Over one value: if its parts can be rendered to an end, it can. The induction is along the
schemas that are entered at the place of the value. -/
theorem settles_of_parts (he : e.Acyclic) {v : Json}
    (hmembers : ∀ members, v = .obj members → ∀ m ∈ members, Settles e m.2)
    (hitems : ∀ items, v = .arr items → ∀ x ∈ items, Settles e x) : Settles e v := by
  intro n
  induction Engine.acc_below he n with
  | intro n _ ih =>
    intro path
    by_cases hn : ∃ p, n = .plan p
    · rcases hn with ⟨p, rfl⟩
      exact plan_settles he hmembers hitems p path
    · have hplan : ∀ p, n ≠ .plan p := fun p hp => hn ⟨p, hp⟩
      cases hs : e.resolve? n with
      | none =>
        refine ⟨.ok v, Eventually.of_succ ⟨0, fun fuel _ => ?_⟩⟩
        simp only [write_of_reference hplan, hs]
      | some s =>
        rcases ih s.root (.reference hs) path with ⟨r, hr⟩
        refine ⟨r, Eventually.of_succ ?_⟩
        simpa only [write_of_reference hplan, hs] using hr

/-- For accepted registries rendering comes to an end, by induction on the depth of the value. -/
theorem exists_write (he : e.Acyclic) (depth : Nat) :
    ∀ v : Json, v.depth < depth → Settles e v := by
  induction depth with
  | zero =>
    intro v hv
    omega
  | succ depth ih =>
    intro v hv
    apply settles_of_parts he
    · rintro members rfl ⟨key, x⟩ hx
      have hdepth : x.depth < (Json.obj members).depth := Json.depth_lt_of_mem_obj hx
      exact ih x (by omega)
    · rintro items rfl x hx
      have hdepth : x.depth < (Json.arr items).depth := Json.depth_lt_of_mem_arr hx
      exact ih x (by omega)

end Rendering

namespace Engine

open Normalization Rendering

variable {o : Options} {r : Registry} {e : Engine} {s : CompiledSchema}

/-! ## Look-ups -/

/-- What is looked up in the schemas alone comes to an end: the shape of an object, whether a node
or a plan declares a property, and whether a node or a branch of a plan admits undeclared ones. -/
structure LookupsEnd (e : Engine) : Prop where
  shape : ∀ n known, ∃ shape, Eventually (fun fuel => collect e fuel n known) shape
  nodeDeclares : ∀ n key, ∃ b, Eventually (fun fuel => declares e fuel n key) b
  planDeclares : ∀ p key, ∃ b, Eventually (fun fuel => declared e fuel p key) b
  nodeAdmits : ∀ n, ∃ b, Eventually (fun fuel => admits e fuel n) b
  branchAdmits : ∀ p : Plan Node, ∃ b, Eventually (fun fuel => p.allOf.anyM (admits e fuel)) b

theorem lookups_end (he : e.Acyclic) : e.LookupsEnd := by
  have hany : ∀ test n, ∃ b, Eventually (fun fuel => anyPlan e test fuel n) b := by
    intro test n
    rcases exists_anyPlan he n with ⟨least, b, h⟩
    exact ⟨b, least, fun fuel hle => anyPlan_mono least fuel n b hle h⟩
  refine ⟨fun n known => ?_, fun n key => hany _ n, fun p key => ?_, fun n => hany _ n, fun p => ?_⟩
  · rcases exists_collect he n known with ⟨shape, -, hshape⟩
    exact ⟨shape, hshape⟩
  · -- a plan is asked like the node that it is, with one step less
    rcases hany (fun q => q.declaresOwn key) (.plan p) with ⟨b, least, hleast⟩
    exact ⟨b, least, fun fuel hle => hleast (fuel + 1) (by omega)⟩
  · rcases exists_anyM anyPlan_mono p.allOf (fun n _ => exists_anyPlan he n) with ⟨least, b, h⟩
    exact ⟨b, least, fun fuel hle => anyM_mono (anyPlan_mono least fuel · · hle) _ b h⟩

/-! ## Texts -/

theorem render_of_eventually {v : Json} {outcome : Except RenderError Json}
    (h : Eventually (fun fuel => write e fuel s.root "" v) outcome) : e.render s v = outcome := by
  rcases h.firstOutcome (e.budget s v) with ⟨first, hfirst⟩
  rcases firstOutcome_eq_some hfirst with ⟨fuel, hfuel⟩
  -- the budget with which the search ends may be a smaller one, but it gives the same outcome
  have heventually : Eventually (fun fuel => write e fuel s.root "" v) first :=
    ⟨fuel, fun more hle => write_mono fuel more s.root "" v first hle hfuel⟩
  unfold render
  rw [hfirst]
  exact heventually.unique h

/-- For every accepted registry, writing the text of a value by a schema comes to an end with a text
or an error, and so does what is looked up in the schemas for it. What the engine gives is the
outcome that the writing comes to. -/
theorem stringify_ends (hr : ofRegistry o r = .ok e) (s : CompiledSchema) (v : Json) :
    (∃ outcome, Eventually (fun fuel => text e fuel s.root "" v "") outcome ∧
      e.stringify s v = outcome) ∧ e.LookupsEnd := by
  have he : e.Acyclic := (ofRegistry_eq_ok hr).2
  refine ⟨?_, lookups_end he⟩
  rcases exists_write he (v.depth + 1) v (Nat.lt_succ_self _) s.root "" with ⟨written, hwritten⟩
  refine ⟨written.map Json.render, ?_, ?_⟩
  · simp only [text_empty]
    exact hwritten.map _
  · rw [stringify_eq, render_of_eventually hwritten]

theorem stringify_ends_sizedTree : ∃ e s, ofRegistry .standard sizedTrees = .ok e ∧
    e.compile sizedTree = .ok s ∧
    (∃ outcome, Eventually (fun fuel => text e fuel s.root "" textSizes "") outcome ∧
      e.stringify s textSizes = outcome) ∧ e.LookupsEnd := by
  rcases exists_ofRegistry_sizedTrees with ⟨l, l', he, hs⟩
  exact ⟨_, _, he, hs, stringify_ends he (sizedSchema l') textSizes⟩

end Engine

end HttpContract
