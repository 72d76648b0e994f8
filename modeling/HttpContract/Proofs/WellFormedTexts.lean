import HttpContract.Proofs.RequiredKeys
import HttpContract.Proofs.PlainTexts

/-!
# Texts are well formed

The members that rendering writes come in two rounds: first those that some plan at the place
declares, in the order of declaration, then the others, in the order of the value. The rounds have
no name in common and neither has a name twice, so no object of the text has one
(`distinct_of_write`). Together with what is known of the parts of the text (`keeps_of_writes`), the
text is that of a document with the same lists as the value, and with objects that have some of its
members, each once (`Engine.drawnFrom_of_stringify`).
-/

namespace HttpContract

namespace Json

/-! ## Names that are not repeated -/

/-- No object in the document has two members of the same name. -/
def Distinct (x : Json) : Prop :=
  ∀ path members, x.Within path (.obj members) → (Fields.keys members).Nodup

theorem distinct_obj {members : Fields Json} (hkeys : (Fields.keys members).Nodup)
    (h : ∀ m ∈ members, m.2.Distinct) : (Json.obj members).Distinct := by
  intro path inner hinner
  cases hinner with
  | here => exact hkeys
  | member hv hrest => exact h _ hv _ inner hrest

theorem distinct_arr {items : List Json} (h : ∀ x ∈ items, x.Distinct) :
    (Json.arr items).Distinct := by
  intro path inner hinner
  cases hinner with
  | item hv hrest => exact h _ (List.mem_of_getElem? hv) _ inner hrest

theorem ordered_of_within {v x : Json} {path : List Step} (h : v.Within path x) (hv : v.Ordered) :
    x.Ordered := by
  induction h with
  | here => exact hv
  | member hm _ ih => exact ih (ordered_of_mem hv.2 hm)
  | item hi _ ih => exact ih (ordered_of_mem_items hv (List.mem_of_getElem? hi))

theorem distinct_of_ordered {v : Json} (hv : v.Ordered) : v.Distinct :=
  fun _ _ h => Fields.nodup_keys_of_ordered (ordered_of_within h hv).1

/-- Where no name is repeated, every part of a document is found at its place. -/
theorem part?_of_within {x y : Json} {path : List Step} (h : x.Within path y) (hx : x.Distinct) :
    x.part? path = some y := by
  induction h with
  | here => exact part?_nil _
  | @member members key v y path hm _ ih =>
    have hv : v.Distinct := fun path inner h => hx (.key key :: path) inner (.member hm h)
    have hget : Fields.get? members key = some v :=
      Fields.get?_of_mem_of_nodup (hx [] members .here) hm
    exact part?_key_eq_some_iff.mpr ⟨v, hget, ih hv⟩
  | @item items i v y path hi _ ih =>
    have hv : v.Distinct := fun path inner h => hx (.index i :: path) inner (.item hi h)
    exact part?_index_eq_some_iff.mpr ⟨v, hi, ih hv⟩

/-- The document has no name twice in any object. Each of its objects stands where the other
document has an object with at least its names, and each of its lists where the other one has a list
of the same length. -/
structure DrawnFrom (x v : Json) : Prop where
  object : ∀ path written, x.Within path (.obj written) → (Fields.keys written).Nodup ∧
    ∃ members, v.part? path = some (.obj members) ∧
      ∀ key ∈ Fields.keys written, key ∈ Fields.keys members
  list : ∀ path written, x.Within path (.arr written) →
    ∃ items, v.part? path = some (.arr items) ∧ written.length = items.length

end Json

namespace Rendering

open Normalization

variable {e : Engine} {write₀ : Node → String → Json → Outcome Json}

/-! ## Names that are not written twice -/

/-- Every plan adds its declarations to those that are known, and none of these anew. -/
theorem ordered_of_collect {fuel : Nat} {n : Node} {s : Shape}
    (h : collect e fuel n Shape.empty = some s) : Fields.Ordered s.properties :=
  preserved_of_collect (fun _ p hs => ordered_declareAll p.properties hs) fuel n _ s h
    List.Pairwise.nil

/-- A rendering that repeats no name in what it writes of an ordered value. -/
def WritesDistinct (write₀ : Node → String → Json → Outcome Json) : Prop :=
  ∀ n path v x, v.Ordered → write₀ n path v = some (.ok x) → x.Distinct

theorem distinct_of_object (hwrite : WritesDistinct write₀) {s : Shape}
    (hs : Fields.Ordered s.properties) {path : String} {members : Fields Json} {x : Json}
    (hv : (Json.obj members).Ordered) (h : object write₀ s path members = some (.ok x)) :
    x.Distinct := by
  unfold object at h
  split at h
  · cases h
  · rcases exists_of_map h with ⟨written, hwritten, rfl⟩
    apply Json.distinct_obj
    · rw [keys_written hwritten]
      exact nodup_keys_members hs hv.1
    · intro y hy
      rcases exists_of_forall₂ (forall₂_of_members hwritten).flip hy with ⟨m, hm, -, hwrites⟩
      have hordered : m.2.2.Ordered := Json.ordered_of_mem hv.2 (mem_of_mem_rendered hm)
      rcases hwrites with ⟨-, heq⟩ | ⟨n, -, hn⟩
      · rw [heq]
        exact Json.distinct_of_ordered hordered
      · exact hwrite n _ m.2.2 y.2 hordered hn

theorem distinct_of_list (hwrite : WritesDistinct write₀) {p : Plan Node} {path : String}
    {items : List Json} {x : Json} (hv : (Json.arr items).Ordered)
    (h : list write₀ p path items = some (.ok x)) : x.Distinct := by
  rcases exists_of_map h with ⟨written, hwritten, rfl⟩
  apply Json.distinct_arr
  intro y hy
  rcases exists_of_forall₂ (forall₂_of_sequence hwritten).flip hy with ⟨m, hm, hitem⟩
  have hordered : m.2.Ordered := Json.ordered_of_mem_items hv (List.of_mem_zip hm).2
  unfold item at hitem
  split at hitem
  · next n _ => exact hwrite n _ m.2 y hordered hitem
  · obtain rfl : m.2 = y := by simpa using hitem
    exact Json.distinct_of_ordered hordered

/-- No object of what is written for an ordered value has two members of the same name. -/
theorem distinct_of_write (fuel : Nat) : WritesDistinct (write e fuel) := by
  induction fuel with
  | zero =>
    intro n path v x _ h
    simp [write] at h
  | succ fuel ih =>
    intro n path v x hv h
    by_cases hn : ∃ p, n = .plan p
    · rcases hn with ⟨p, rfl⟩
      simp only [write] at h
      generalize hu : (if p.types.isEmpty then some v else coerceAny? v p.types) = u? at h
      cases u? with
      | none => simp at h
      | some u =>
        have hordered : u.Ordered := by
          split at hu
          · exact Option.some.inj hu ▸ hv
          · rcases eq_or_isScalar_of_coerceAny? hu with rfl | ⟨-, hscalar⟩
            · exact hv
            · exact ordered_of_isScalar hscalar
        cases u with
        | obj members =>
          dsimp only at h
          split at h
          · cases h
          · next shape hshape =>
            split at h
            · exact distinct_of_object ih (ordered_of_collect hshape) hordered h
            · obtain rfl : Json.obj members = x := by simpa using h
              exact Json.distinct_of_ordered hordered
        | arr items =>
          dsimp only at h
          split at h
          · obtain rfl : Json.arr items = x := by simpa using h
            exact Json.distinct_of_ordered hordered
          · exact distinct_of_list ih hordered h
        | _ =>
          obtain rfl := Except.ok.inj (Option.some.inj h)
          exact Json.distinct_of_ordered hordered
    · have hplan : ∀ p, n ≠ .plan p := fun p hp => hn ⟨p, hp⟩
      rw [write_of_reference hplan] at h
      cases hs : e.resolve? n with
      | none =>
        obtain rfl : v = x := by simpa [hs] using h
        exact Json.distinct_of_ordered hv
      | some s => exact ih s.root path v x hv (by simpa [hs] using h)

end Rendering

namespace Engine

open Normalization Rendering

variable {e : Engine} {s : CompiledSchema} {v : Json}

/-! ## The text of a value -/

/-- The text that is assembled for a value is the compact text of one document drawn from it. -/
theorem drawnFrom_of_stringify {text : String} (hv : v.Ordered)
    (htext : e.stringify s v = .ok text) : ∃ x : Json, text = x.render ∧ x.DrawnFrom v := by
  rcases exists_render htext with ⟨x, hx, htext⟩
  rcases exists_write_of_render hx with ⟨fuel, hwrite⟩
  have hdistinct : x.Distinct := distinct_of_write fuel s.root "" v x hv hwrite
  have hkeeps : ∀ path, Keeps x v path := keeps_of_writes (sound_write fuel s.root "" v x hwrite)
  refine ⟨x, htext, ?_, ?_⟩
  · intro path written hwritten
    refine ⟨hdistinct path written hwritten, ?_⟩
    have hpart := Json.part?_of_within hwritten hdistinct
    rcases hkeeps path _ hpart with ⟨z, hz, halike⟩
    cases halike with
    | scalar hx' _ => simp [isScalar] at hx'
    | @object _ members =>
      refine ⟨members, hz, fun key hkey => ?_⟩
      -- a name that is written stands for a part of the text, which the value has as well
      have hcontains := (Fields.contains_iff_mem_keys written key).mpr hkey
      rcases part?_of_contains hpart hcontains with ⟨y, hy⟩
      rcases hkeeps _ y hy with ⟨u, hu, -⟩
      exact (Fields.contains_iff_mem_keys members key).mp (contains_of_part? hz hu)
  · intro path written hwritten
    rcases hkeeps path _ (Json.part?_of_within hwritten hdistinct) with ⟨z, hz, halike⟩
    cases halike with
    | scalar hx' _ => simp [isScalar] at hx'
    | list hlength => exact ⟨_, hz, hlength.symm⟩

/-- A schema that declares one property and admits all others. -/
def declaringAmong (name : String) : Fragment :=
  .ofMembers [("additionalProperties", .bool true), ("properties", .obj [(name, .bool true)])]

/-- The declared property comes first, whatever the order in the value. -/
theorem drawnFrom_declaringAmong : ∃ e s, ofRegistry .standard .empty = .ok e ∧
    e.compile (declaringAmong "b") = .ok s ∧ twoMembers.Ordered ∧
    e.stringify s twoMembers = .ok "\x7b\x22b\x22:2,\x22a\x22:1\x7d" ∧
    ∃ x : Json, "\x7b\x22b\x22:2,\x22a\x22:1\x7d" = x.render ∧ x.DrawnFrom twoMembers := by
  have hbasic : Basic (declaringAmong "b").document := by
    refine .obj (fun m hm => ?_)
    rcases List.mem_cons.mp hm with rfl | hm
    · exact .additionalProperties (.bool true)
    · obtain rfl := List.mem_singleton.mp hm
      exact .property (.bool true)
  obtain ⟨l, hs⟩ := compile_of_basic .standard (declaringAmong "b") rfl rfl hbasic
  have hordered : twoMembers.Ordered :=
    ⟨List.pairwise_pair.mpr (by decide), trivial, trivial, trivial⟩
  have htext : (ofOptions .standard).stringify
      ⟨.plan { Plan.empty with properties := [("b", .plan Plan.empty)], additional := .allowed },
        ⟨l, Evaluator.defaultBase, (declaringAmong "b").document⟩,
        (declaringAmong "b").document⟩ twoMembers =
      .ok "\x7b\x22b\x22:2,\x22a\x22:1\x7d" := by
    rw [stringify_eq, render_of_write rfl]
    rfl
  exact ⟨_, _, ofRegistry_empty _, hs, hordered, htext, drawnFrom_of_stringify hordered htext⟩

end Engine

end HttpContract
