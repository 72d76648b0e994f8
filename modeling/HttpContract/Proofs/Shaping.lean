import HttpContract.Proofs.Declaring
import HttpContract.Schema.Rendering

/-!
# What a shape is made of

Rendering collects into one shape what the plans that apply at a place say about objects. `Gathers`
relates a shape to the one it grew from: all it has come from these plans, and what one of them
declares or admits is in it.
-/

namespace HttpContract.Rendering

open Normalization

variable {e : Engine}

/-- The shape `s'` is `s` with what the plans that satisfy `P` say. -/
structure Gathers (P : Plan Node → Prop) (s s' : Shape) : Prop where
  /-- A shape that says nothing comes from plans that say nothing. -/
  silent : s'.declared = false →
    s.declared = false ∧ ∀ q, P q → q.hasObjectKeywords = false ∧ q.additional = .unspecified
  property : ∀ {key m}, Fields.get? s'.properties key = some m →
    Fields.get? s.properties key = some m ∨ ∃ q, P q ∧ Fields.get? q.properties key = some m
  contains : ∀ {key}, (Fields.contains s.properties key = true ∨
    ∃ q, P q ∧ Fields.contains q.properties key = true) →
      Fields.contains s'.properties key = true
  pattern : ∀ {x}, x ∈ s'.patterns ↔ x ∈ s.patterns ∨ ∃ q, P q ∧ x ∈ q.patterns
  additional : ∀ {m}, s'.additional = some m →
    s.additional = some m ∨ ∃ q, P q ∧ q.additional = .schema m
  additional_isSome : (s.additional.isSome = true ∨ ∃ q m, P q ∧ q.additional = .schema m) →
    s'.additional.isSome = true
  allowed : s'.allowAll = true → s.allowAll = true ∨ ∃ q, P q ∧ q.additional = .allowed

namespace Gathers

variable {P Q : Plan Node → Prop} {s s' s'' : Shape}

theorem refl (s : Shape) : Gathers (fun _ => False) s s where
  silent h := ⟨h, fun _ hq => hq.elim⟩
  property h := Or.inl h
  contains := by simp
  pattern := by simp
  additional h := Or.inl h
  additional_isSome := by simp
  allowed h := Or.inl h

theorem congr (h : Gathers P s s') (hPQ : ∀ q, P q ↔ Q q) : Gathers Q s s' := by
  obtain rfl : P = Q := funext (fun q => propext (hPQ q))
  exact h

theorem trans (h : Gathers P s s') (h' : Gathers Q s' s'') :
    Gathers (fun q => P q ∨ Q q) s s'' where
  silent hs := by
    rcases h'.silent hs with ⟨hbetween, hQ⟩
    rcases h.silent hbetween with ⟨hbefore, hP⟩
    exact ⟨hbefore, fun q hq => hq.elim (hP q) (hQ q)⟩
  property hm := by
    rcases h'.property hm with hm | ⟨q, hq, hm⟩
    · rcases h.property hm with hm | ⟨q, hq, hm⟩
      · exact Or.inl hm
      · exact Or.inr ⟨q, Or.inl hq, hm⟩
    · exact Or.inr ⟨q, Or.inr hq, hm⟩
  contains := by
    intro key
    rintro (hkey | ⟨q, hq | hq, hkey⟩)
    · exact h'.contains (Or.inl (h.contains (Or.inl hkey)))
    · exact h'.contains (Or.inl (h.contains (Or.inr ⟨q, hq, hkey⟩)))
    · exact h'.contains (Or.inr ⟨q, hq, hkey⟩)
  pattern := by
    intro x
    rw [h'.pattern, h.pattern]
    constructor
    · rintro ((hx | ⟨q, hq, hx⟩) | ⟨q, hq, hx⟩)
      · exact Or.inl hx
      · exact Or.inr ⟨q, Or.inl hq, hx⟩
      · exact Or.inr ⟨q, Or.inr hq, hx⟩
    · rintro (hx | ⟨q, hq | hq, hx⟩)
      · exact Or.inl (Or.inl hx)
      · exact Or.inl (Or.inr ⟨q, hq, hx⟩)
      · exact Or.inr ⟨q, hq, hx⟩
  additional hm := by
    rcases h'.additional hm with hm | ⟨q, hq, hm⟩
    · rcases h.additional hm with hm | ⟨q, hq, hm⟩
      · exact Or.inl hm
      · exact Or.inr ⟨q, Or.inl hq, hm⟩
    · exact Or.inr ⟨q, Or.inr hq, hm⟩
  additional_isSome := by
    rintro (hm | ⟨q, m, hq | hq, hm⟩)
    · exact h'.additional_isSome (Or.inl (h.additional_isSome (Or.inl hm)))
    · exact h'.additional_isSome (Or.inl (h.additional_isSome (Or.inr ⟨q, m, hq, hm⟩)))
    · exact h'.additional_isSome (Or.inr ⟨q, m, hq, hm⟩)
  allowed hm := by
    rcases h'.allowed hm with hm | ⟨q, hq, hm⟩
    · rcases h.allowed hm with hm | ⟨q, hq, hm⟩
      · exact Or.inl hm
      · exact Or.inr ⟨q, Or.inl hq, hm⟩
    · exact Or.inr ⟨q, Or.inr hq, hm⟩

end Gathers

/-! ## Plans that apply -/

/-- The declaration that is known first counts. -/
theorem get?_declare (key : String) : ∀ (added : List (String × Node)) (known : Fields Node),
    Fields.get? (added.foldl Shape.declare known) key =
      (Fields.get? known key).or (Fields.get? added key) := by
  intro added
  induction added with
  | nil => simp
  | cons entry rest ih =>
    intro known
    rcases entry with ⟨name, n⟩
    rw [List.foldl_cons, ih, Shape.declare, Fields.get?_cons]
    by_cases heq : name = key
    · -- the entry only counts when the property is not known yet
      subst heq
      cases hknown : Fields.get? known name with
      | none => simp [Fields.contains, hknown]
      | some m => simp [Fields.contains, hknown]
    · split
      · simp
      · simp [Fields.get?_insert_of_ne known n heq]

theorem gathers_add (s : Shape) (p : Plan Node) : Gathers (· = p) s (s.add p) where
  silent h := by
    obtain ⟨hs, hspeaks⟩ : s.declared = false ∧ Shape.speaks p = false := by
      simpa [Shape.add] using h
    refine ⟨hs, ?_⟩
    rintro q rfl
    unfold Shape.speaks at hspeaks
    cases hadditional : q.additional <;> simp_all
  property h := by
    have h : Fields.get? (p.properties.foldl Shape.declare s.properties) _ = some _ := h
    rw [get?_declare, Option.or_eq_some_iff] at h
    rcases h with h | ⟨_, h⟩
    · exact Or.inl h
    · exact Or.inr ⟨p, rfl, h⟩
  contains := by
    intro key h
    have hget : Fields.get? (s.add p).properties key =
        (Fields.get? s.properties key).or (Fields.get? p.properties key) :=
      get?_declare key p.properties s.properties
    rw [Fields.contains, hget, Option.isSome_or, Bool.or_eq_true]
    rcases h with h | ⟨q, rfl, h⟩
    · exact Or.inl h
    · exact Or.inr h
  pattern := by
    intro x
    simp [Shape.add]
  additional := by
    intro m h
    cases hs : s.additional with
    | some known => simp_all [Shape.add]
    | none =>
      cases hp : p.additional with
      | schema n => simp_all [Shape.add]
      | _ => simp_all [Shape.add]
  additional_isSome := by
    rintro (h | ⟨q, m, rfl, h⟩)
    · cases hs : s.additional with
      | some known => simp [Shape.add, hs]
      | none => simp [hs] at h
    · cases hs : s.additional with
      | some known => simp [Shape.add, hs]
      | none => simp [Shape.add, hs, h]
  allowed h := by
    cases hp : p.additional with
    | allowed => exact Or.inr ⟨p, rfl, hp⟩
    | _ => exact Or.inl (by simpa [Shape.add, hp] using h)

theorem gathers_foldlM {search : Shape → Node → Option Shape}
    (hsearch : ∀ s n s', search s n = some s' → Gathers (Applies e n) s s') :
    ∀ (nodes : List Node) (s s' : Shape), nodes.foldlM search s = some s' →
      Gathers (fun q => ∃ n ∈ nodes, Applies e n q) s s' := by
  intro nodes
  induction nodes with
  | nil =>
    intro s s' h
    obtain rfl : s = s' := by simpa using h
    exact (Gathers.refl s).congr (by simp)
  | cons n rest ih =>
    intro s s' h
    rw [List.foldlM_cons] at h
    rcases Option.bind_eq_some_iff.mp h with ⟨between, hfirst, hrest⟩
    have hhead : Gathers (Applies e n) s between := hsearch s n between hfirst
    refine (hhead.trans (ih between s' hrest)).congr (fun q => ?_)
    simp

theorem collect_of_reference {n : Node} (hn : ∀ p, n ≠ .plan p) (fuel : Nat) (s : Shape) :
    collect e (fuel + 1) n s =
      match e.resolve? n with
      | some c => collect e fuel c.root s
      | none => some s := by
  cases n with
  | plan p => exact absurd rfl (hn p)
  | inline root evaluator source => rfl
  | deferred handle => rfl

/-- What is collected along a node comes from the plans that apply where it stands. -/
theorem gathers_of_collect : ∀ (fuel : Nat) (s : Shape) (n : Node) (s' : Shape),
    collect e fuel n s = some s' → Gathers (Applies e n) s s' := by
  intro fuel
  induction fuel with
  | zero =>
    intro s n s' h
    simp [collect] at h
  | succ fuel ih =>
    intro s n s' h
    by_cases hn : ∃ p, n = .plan p
    · rcases hn with ⟨p, rfl⟩
      rw [collect] at h
      -- what the plan says itself comes first, what its branches say is added to it
      have hbranches : Gathers (fun q => ∃ m ∈ p.allOf, Applies e m q) (s.add p) s' :=
        gathers_foldlM ih p.allOf _ s' h
      refine ((gathers_add s p).trans hbranches).congr (fun q => ?_)
      rw [applies_plan_iff]
    · have hplan : ∀ p, n ≠ .plan p := fun p hp => hn ⟨p, hp⟩
      rw [collect_of_reference hplan] at h
      cases hs : e.resolve? n with
      | none =>
        obtain rfl : s = s' := by simpa [hs] using h
        refine (Gathers.refl s).congr (fun q => ?_)
        simpa using not_applies_of_resolve?_none hplan hs q
      | some c =>
        refine (ih s c.root s' (by simpa [hs] using h)).congr (fun q => ?_)
        rw [applies_iff_of_resolve? hs]

/-- What every plan leaves as it is, collecting leaves as it is. -/
theorem preserved_of_collect {P : Shape → Prop} (hadd : ∀ s p, P s → P (s.add p)) :
    ∀ (fuel : Nat) (n : Node) (s s' : Shape), collect e fuel n s = some s' → P s → P s' := by
  intro fuel
  induction fuel with
  | zero =>
    intro n s s' h
    simp [collect] at h
  | succ fuel ih =>
    intro n s s' h hs
    by_cases hn : ∃ p, n = .plan p
    · rcases hn with ⟨p, rfl⟩
      rw [collect] at h
      have hbranches : ∀ (nodes : List Node) (t : Shape),
          nodes.foldlM (fun s n => collect e fuel n s) t = some s' → P t → P s' := by
        intro nodes
        induction nodes with
        | nil =>
          intro t h ht
          obtain rfl : t = s' := by simpa using h
          exact ht
        | cons n rest ihrest =>
          intro t h ht
          rw [List.foldlM_cons] at h
          rcases Option.bind_eq_some_iff.mp h with ⟨between, hfirst, hrest⟩
          exact ihrest between hrest (ih n t between hfirst ht)
      exact hbranches p.allOf (s.add p) h (hadd s p hs)
    · have hplan : ∀ p, n ≠ .plan p := fun p hp => hn ⟨p, hp⟩
      rw [collect_of_reference hplan] at h
      cases hc : e.resolve? n with
      | none =>
        obtain rfl : s = s' := by simpa [hc] using h
        exact hs
      | some c => exact ih c.root s s' (by simpa [hc] using h) hs

/-! ## One shape -/

theorem foldlM_mono {α β : Type} {f g : β → α → Option β}
    (hfg : ∀ s x s', f s x = some s' → g s x = some s') : ∀ (xs : List α) (s s' : β),
      xs.foldlM f s = some s' → xs.foldlM g s = some s' := by
  intro xs
  induction xs with
  | nil => exact fun _ _ h => h
  | cons x rest ih =>
    intro s s' h
    rw [List.foldlM_cons] at h ⊢
    rcases Option.bind_eq_some_iff.mp h with ⟨between, hfirst, hrest⟩
    exact Option.bind_eq_some_iff.mpr ⟨between, hfg s x between hfirst, ih between s' hrest⟩

theorem collect_mono : ∀ (fuel fuel' : Nat) (n : Node) (s s' : Shape), fuel ≤ fuel' →
    collect e fuel n s = some s' → collect e fuel' n s = some s' := by
  intro fuel
  induction fuel with
  | zero =>
    intro fuel' n s s' _ h
    simp [collect] at h
  | succ fuel ih =>
    intro fuel' n s s' hle h
    obtain ⟨fuel', rfl⟩ : ∃ more, fuel' = more + 1 := ⟨fuel' - 1, by omega⟩
    have hle : fuel ≤ fuel' := by omega
    by_cases hn : ∃ p, n = .plan p
    · rcases hn with ⟨p, rfl⟩
      rw [collect] at h ⊢
      exact foldlM_mono (fun s m s' => ih fuel' m s s' hle) p.allOf _ s' h
    · have hplan : ∀ p, n ≠ .plan p := fun p hp => hn ⟨p, hp⟩
      rw [collect_of_reference hplan] at h ⊢
      cases hs : e.resolve? n with
      | none => simpa [hs] using h
      | some c => exact ih fuel' c.root s s' hle (by simpa [hs] using h)

theorem collect_unique {fuel fuel' : Nat} {n : Node} {s t t' : Shape}
    (h : collect e fuel n s = some t) (h' : collect e fuel' n s = some t') : t = t' := by
  have hmax := collect_mono fuel (max fuel fuel') n s t (Nat.le_max_left _ _) h
  have hmax' := collect_mono fuel' (max fuel fuel') n s t' (Nat.le_max_right _ _) h'
  exact Option.some.inj (hmax.symm.trans hmax')

end HttpContract.Rendering
