import HttpContract.Proofs.Acyclic
import HttpContract.Schema.Normalization

/-!
# What a node declares, admits and drops

Several plans can apply where a node stands: its own, those of the branches of `allOf` and those
behind references (`Applies`). A property is declared there if one of them declares it, and
undeclared ones are admitted there if one of them admits them. This module relates the bounded
searches of the walk to these two notions and says which members `prepared` keeps
(`eq_of_prepared`); for accepted registries the searches always end (`exists_prepared`).
-/

namespace HttpContract.Normalization

open Engine (Below)

/-! ## Plans at the place of a node -/

/-- The plan `q` applies where the node `n` stands. -/
inductive Applies (e : Engine) : Node → Plan Node → Prop where
  | self {p : Plan Node} : Applies e (.plan p) p
  | branch {p q : Plan Node} {m : Node} (hm : m ∈ p.allOf) (h : Applies e m q) :
      Applies e (.plan p) q
  | reference {n : Node} {s : CompiledSchema} {q : Plan Node} (hs : e.resolve? n = some s)
      (h : Applies e s.root q) : Applies e n q

/-- A plan that applies where `n` stands declares the property. -/
def Declares (e : Engine) (n : Node) (key : String) : Prop :=
  ∃ q, Applies e n q ∧ q.declaresOwn key = true

/-- A plan that applies where `n` stands admits undeclared properties. -/
def Admits (e : Engine) (n : Node) : Prop := ∃ q, Applies e n q ∧ q.admitsAny = true

/-- A plan drops the property from the objects it applies to, where it may drop any. -/
def Drops (e : Engine) (p : Plan Node) (key : String) : Prop :=
  e.options.removeAdditional = true ∧ p.strips = true ∧ (∀ m ∈ p.allOf, ¬ Admits e m) ∧
    ¬ Declares e (.plan p) key

variable {e : Engine} {test : Plan Node → Bool}

@[simp] theorem resolve?_plan (e : Engine) (p : Plan Node) : e.resolve? (.plan p) = none := rfl

theorem applies_plan_iff {p q : Plan Node} :
    Applies e (.plan p) q ↔ q = p ∨ ∃ m ∈ p.allOf, Applies e m q := by
  constructor
  · intro h
    cases h with
    | self => exact Or.inl rfl
    | branch hm h => exact Or.inr ⟨_, hm, h⟩
    | reference hs h => simp at hs
  · rintro (rfl | ⟨m, hm, h⟩)
    · exact Applies.self
    · exact Applies.branch hm h

theorem applies_iff_of_resolve? {n : Node} {s : CompiledSchema} {q : Plan Node}
    (hs : e.resolve? n = some s) : Applies e n q ↔ Applies e s.root q := by
  constructor
  · intro h
    cases h with
    | self => simp at hs
    | branch hm h => simp at hs
    | reference hs' h =>
      have heq : s = _ := Option.some.inj (hs.symm.trans hs')
      rw [heq]
      exact h
  · exact Applies.reference hs

theorem not_applies_of_resolve?_none {n : Node} (hn : ∀ p, n ≠ .plan p)
    (hs : e.resolve? n = none) (q : Plan Node) : ¬ Applies e n q := by
  intro h
  cases h with
  | self => exact hn _ rfl
  | branch hm h => exact hn _ rfl
  | reference hs' h => simp [hs] at hs'

/-! ## Searches -/

theorem anyM_mono {α : Type} {f g : α → Option Bool} (hfg : ∀ x b, f x = some b → g x = some b) :
    ∀ (xs : List α) (b : Bool), xs.anyM f = some b → xs.anyM g = some b := by
  intro xs
  induction xs with
  | nil =>
    intro b h
    exact h
  | cons x rest ih =>
    intro b h
    rw [List.anyM] at h ⊢
    cases hx : f x with
    | none => simp [hx] at h
    | some found =>
      rw [hfg x found hx]
      cases found with
      | true => simpa [hx] using h
      | false => exact ih b (by simpa [hx] using h)

theorem anyM_eq_true_iff {α : Type} {f : α → Option Bool} {P : α → Prop}
    (hf : ∀ x b, f x = some b → (b = true ↔ P x)) :
    ∀ (xs : List α) (b : Bool), xs.anyM f = some b → (b = true ↔ ∃ x ∈ xs, P x) := by
  intro xs
  induction xs with
  | nil =>
    intro b h
    have hb : false = b := by simpa [List.anyM, pure] using h
    simp [← hb]
  | cons x rest ih =>
    intro b h
    rw [List.anyM] at h
    cases hx : f x with
    | none => simp [hx] at h
    | some found =>
      have hP := hf x found hx
      cases found with
      | true =>
        have hb : true = b := by simpa [hx, pure] using h
        simp [← hb, hP.mp rfl]
      | false =>
        have hnot : ¬ P x := fun hPx => by simpa using hP.mpr hPx
        rw [ih b (by simpa [hx] using h)]
        simp [hnot]

theorem exists_anyM {α : Type} {f : Nat → α → Option Bool}
    (hmono : ∀ fuel fuel' x b, fuel ≤ fuel' → f fuel x = some b → f fuel' x = some b) :
    ∀ xs : List α, (∀ x ∈ xs, ∃ fuel b, f fuel x = some b) →
      ∃ fuel b, xs.anyM (f fuel) = some b := by
  intro xs
  induction xs with
  | nil => intro _; exact ⟨0, false, rfl⟩
  | cons x rest ih =>
    intro h
    rcases h x (by simp) with ⟨first, b, hfirst⟩
    rcases ih (fun y hy => h y (by simp [hy])) with ⟨others, c, hothers⟩
    -- the greater number of steps does for both
    have hx : f (max first others) x = some b :=
      hmono first (max first others) x b (Nat.le_max_left _ _) hfirst
    have hrest : rest.anyM (f (max first others)) = some c :=
      anyM_mono (hmono others (max first others) · · (Nat.le_max_right _ _)) rest c hothers
    cases b with
    | true => exact ⟨max first others, true, by simp [List.anyM, hx, pure]⟩
    | false => exact ⟨max first others, c, by simpa [List.anyM, hx] using hrest⟩

theorem anyPlan_of_reference {n : Node} (hn : ∀ p, n ≠ .plan p) (fuel : Nat) :
    anyPlan e test (fuel + 1) n =
      match e.resolve? n with
      | some s => anyPlan e test fuel s.root
      | none => some false := by
  cases n with
  | plan p => exact absurd rfl (hn p)
  | inline root evaluator source => rfl
  | deferred handle => rfl

theorem anyPlan_mono : ∀ (fuel fuel' : Nat) (n : Node) (b : Bool), fuel ≤ fuel' →
    anyPlan e test fuel n = some b → anyPlan e test fuel' n = some b := by
  intro fuel
  induction fuel with
  | zero =>
    intro fuel' n b _ h
    simp [anyPlan] at h
  | succ fuel ih =>
    intro fuel' n b hle h
    obtain ⟨more, rfl⟩ : ∃ more, fuel' = more + 1 := ⟨fuel' - 1, by omega⟩
    -- inline and deferred references only differ in how they are resolved
    by_cases hn : ∃ p, n = .plan p
    · rcases hn with ⟨p, rfl⟩
      rw [anyPlan] at h ⊢
      split at h
      · next htest => simpa [htest] using h
      · next htest =>
        rw [if_neg htest]
        exact anyM_mono (fun m c => ih more m c (by omega)) p.allOf b h
    · rw [anyPlan_of_reference (fun p hp => hn ⟨p, hp⟩)] at h ⊢
      cases hs : e.resolve? n with
      | none => simpa [hs] using h
      | some s => exact ih more s.root b (by omega) (by simpa [hs] using h)

/-- A search that has an outcome tells whether one of the plans in question satisfies the test. -/
theorem exists_of_anyPlan : ∀ (fuel : Nat) (n : Node) (b : Bool), anyPlan e test fuel n = some b →
    (b = true ↔ ∃ q, Applies e n q ∧ test q = true) := by
  intro fuel
  induction fuel with
  | zero =>
    intro n b h
    simp [anyPlan] at h
  | succ fuel ih =>
    intro n b h
    by_cases hn : ∃ p, n = .plan p
    · rcases hn with ⟨p, rfl⟩
      rw [anyPlan] at h
      simp only [applies_plan_iff]
      split at h
      · next htest =>
        have hb : true = b := by simpa using h
        subst hb
        simp only [true_iff]
        exact ⟨p, Or.inl rfl, htest⟩
      · next htest =>
        rw [anyM_eq_true_iff ih p.allOf b h]
        constructor
        · rintro ⟨m, hm, q, hq, htestq⟩
          exact ⟨q, Or.inr ⟨m, hm, hq⟩, htestq⟩
        · rintro ⟨q, rfl | ⟨m, hm, hq⟩, htestq⟩
          · exact absurd htestq htest
          · exact ⟨m, hm, q, hq, htestq⟩
    · rw [anyPlan_of_reference (fun p hp => hn ⟨p, hp⟩)] at h
      cases hs : e.resolve? n with
      | none =>
        have hb : false = b := by simpa [hs] using h
        subst hb
        have hnot := not_applies_of_resolve?_none (fun p hp => hn ⟨p, hp⟩) hs
        simp [hnot]
      | some s =>
        rw [ih s.root b (by simpa [hs] using h)]
        simp only [applies_iff_of_resolve? hs]

/-- For accepted registries every search ends. -/
theorem exists_anyPlan (he : e.Acyclic) (n : Node) : ∃ fuel b, anyPlan e test fuel n = some b := by
  -- the search stays at one place, where accepted registries allow finitely many steps only
  induction Engine.acc_below he n with
  | intro n _ ih =>
    by_cases hn : ∃ p, n = .plan p
    · rcases hn with ⟨p, rfl⟩
      by_cases htest : test p = true
      · exact ⟨1, true, by simp [anyPlan, htest]⟩
      · obtain ⟨fuel, b, h⟩ := exists_anyM (f := anyPlan e test) anyPlan_mono p.allOf
          (fun m hm => ih m (Below.branch hm))
        exact ⟨fuel + 1, b, by simpa [anyPlan, htest] using h⟩
    · cases hs : e.resolve? n with
      | none =>
        refine ⟨1, false, ?_⟩
        rw [anyPlan_of_reference (fun p hp => hn ⟨p, hp⟩), hs]
      | some s =>
        rcases ih s.root (Below.reference hs) with ⟨fuel, b, h⟩
        refine ⟨fuel + 1, b, ?_⟩
        rw [anyPlan_of_reference (fun p hp => hn ⟨p, hp⟩), hs]
        exact h

/-! ## What is kept of an object -/

theorem declared_eq (fuel : Nat) (p : Plan Node) (key : String) :
    declared e fuel p key = anyPlan e (fun q => q.declaresOwn key) (fuel + 1) (.plan p) := rfl

theorem declared_eq_true_iff {fuel : Nat} {p : Plan Node} {key : String} {b : Bool}
    (h : declared e fuel p key = some b) : b = true ↔ Declares e (.plan p) key :=
  exists_of_anyPlan (fuel + 1) (.plan p) b h

theorem admits_branch_iff {fuel : Nat} {p : Plan Node} {b : Bool}
    (h : p.allOf.anyM (admits e fuel) = some b) : b = true ↔ ∃ m ∈ p.allOf, Admits e m :=
  anyM_eq_true_iff (fun m c hc => exists_of_anyPlan fuel m c hc) p.allOf b h

theorem retain_mono {f g : String → Option Bool} (hfg : ∀ k b, f k = some b → g k = some b) :
    ∀ (members kept : Fields Json), retain f members = some kept →
      retain g members = some kept := by
  intro members
  induction members with
  | nil =>
    intro kept h
    exact h
  | cons m rest ih =>
    intro kept h
    rcases m with ⟨key, v⟩
    rw [retain] at h ⊢
    cases hk : f key with
    | none => simp [hk] at h
    | some keep =>
      cases hr : retain f rest with
      | none => simp [hk, hr] at h
      | some others =>
        rw [hfg key keep hk, ih others hr]
        simpa [hk, hr] using h

theorem eq_filter_of_retain {f : String → Option Bool} {P : String → Prop}
    [DecidablePred P] (hf : ∀ k b, f k = some b → (b = true ↔ P k)) :
    ∀ (members kept : Fields Json), retain f members = some kept →
      kept = members.filter (fun m => decide (P m.1)) := by
  intro members
  induction members with
  | nil =>
    intro kept h
    have hkept : [] = kept := by simpa [retain] using h
    simp [← hkept]
  | cons m rest ih =>
    intro kept h
    rcases m with ⟨key, v⟩
    rw [retain] at h
    cases hk : f key with
    | none => simp [hk] at h
    | some keep =>
      cases hr : retain f rest with
      | none => simp [hk, hr] at h
      | some others =>
        have hothers := ih others hr
        have hkept : (if keep = true then (key, v) :: others else others) = kept := by
          simpa [hk, hr, pure] using h
        by_cases hP : P key
        · simp [← hkept, ← hothers, hP, (hf key keep hk).mpr hP]
        · have hkeep : keep = false := by
            simpa using fun hb => hP ((hf key keep hk).mp hb)
          simp [← hkept, ← hothers, hP, hkeep]

theorem exists_retain {f : Nat → String → Option Bool}
    (hmono : ∀ fuel fuel' k b, fuel ≤ fuel' → f fuel k = some b → f fuel' k = some b)
    (hends : ∀ k, ∃ fuel b, f fuel k = some b) :
    ∀ members : Fields Json, ∃ fuel kept, retain (f fuel) members = some kept := by
  intro members
  induction members with
  | nil => exact ⟨0, [], rfl⟩
  | cons m rest ih =>
    rcases m with ⟨key, v⟩
    rcases hends key with ⟨first, keep, hkeep⟩
    rcases ih with ⟨others, kept, hkept⟩
    have hk : f (max first others) key = some keep :=
      hmono first (max first others) key keep (Nat.le_max_left _ _) hkeep
    have hr : retain (f (max first others)) rest = some kept :=
      retain_mono (hmono others (max first others) · · (Nat.le_max_right _ _)) rest kept hkept
    exact ⟨max first others, _, by simp [retain, hk, hr]; rfl⟩

theorem declared_mono {fuel fuel' : Nat} (hle : fuel ≤ fuel') (p : Plan Node) (key : String)
    (b : Bool) (h : declared e fuel p key = some b) : declared e fuel' p key = some b := by
  rw [declared_eq] at h ⊢
  exact anyPlan_mono (fuel + 1) (fuel' + 1) (.plan p) b (Nat.succ_le_succ hle) h

/-- With more steps the same members are kept. -/
theorem prepared_mono {fuel fuel' : Nat} {p : Plan Node} {strip : Bool}
    {members ready : Fields Json} (hle : fuel ≤ fuel')
    (h : prepared e fuel p strip members = some ready) :
    prepared e fuel' p strip members = some ready := by
  unfold prepared at h ⊢
  split at h
  · next hstrip =>
    rw [if_pos hstrip]
    cases hadm : p.allOf.anyM (admits e fuel) with
    | none => simp [hadm] at h
    | some b =>
      have hadm' : p.allOf.anyM (admits e fuel') = some b :=
        anyM_mono (fun m c => anyPlan_mono fuel fuel' m c hle) p.allOf b hadm
      rw [hadm] at h
      rw [hadm']
      cases b with
      | true => exact h
      | false => exact retain_mono (declared_mono hle p) (filled e p members) ready h
  · next hstrip =>
    rw [if_neg hstrip]
    exact h

theorem retain_eq_filter (test : String → Bool) (members : Fields Json) :
    retain (fun key => some (test key)) members = some (members.filter (fun m => test m.1)) := by
  induction members with
  | nil => rfl
  | cons m rest ih =>
    rw [retain, ih, List.filter_cons]
    cases test m.1 <;> rfl

/-- Without branches a plan that strips keeps what it declares itself. -/
theorem prepared_of_unbranched (ho : e.options.removeAdditional = true) {p : Plan Node}
    (hp : p.allOf = []) (fuel : Nat) (members : Fields Json) : prepared e fuel p true members =
      some ((filled e p members).filter (fun m => !p.strips || p.declaresOwn m.1)) := by
  have hdeclared : declared e fuel p = fun key => some (p.declaresOwn key) := by
    funext key
    unfold declared
    rw [hp]
    cases p.declaresOwn key <;> rfl
  unfold prepared
  rw [hdeclared, hp]
  cases p.strips with
  | false => simpa using (List.filter_eq_self.mpr (fun _ _ => rfl)).symm
  | true =>
    simp only [ho, and_self, if_true, Bool.not_true, Bool.false_or]
    exact retain_eq_filter p.declaresOwn _

open Classical in
/-- Where nothing may be dropped all members are kept, else those that are not dropped. -/
theorem eq_of_prepared {fuel : Nat} {p : Plan Node} {strip : Bool} {members ready : Fields Json}
    (h : prepared e fuel p strip members = some ready) :
    ready = (filled e p members).filter (fun m => decide (¬ (strip = true ∧ Drops e p m.1))) := by
  -- two of the three cases of `prepared` keep everything
  have hall : (∀ key, ¬ (strip = true ∧ Drops e p key)) → filled e p members = ready →
      ready = (filled e p members).filter
        (fun m => decide (¬ (strip = true ∧ Drops e p m.1))) := by
    intro hnot hready
    rw [← hready]
    exact (List.filter_eq_self.mpr (fun m _ => decide_eq_true (hnot m.1))).symm
  unfold prepared at h
  split at h
  · next hstrip =>
    rcases hstrip with ⟨hs, hremove, hstrips⟩
    cases hadm : p.allOf.anyM (admits e fuel) with
    | none => simp [hadm] at h
    | some b =>
      have hb := admits_branch_iff hadm
      rw [hadm] at h
      cases b with
      | true =>
        -- a branch admits undeclared properties
        rcases hb.mp rfl with ⟨m, hm, hadmits⟩
        exact hall (fun key hdrops => hdrops.2.2.2.1 m hm hadmits) (Option.some.inj h)
      | false =>
        have hnone : ∀ m ∈ p.allOf, ¬ Admits e m := by
          intro m hm hadmits
          simpa using hb.mpr ⟨m, hm, hadmits⟩
        have hkept : ∀ key, Declares e (.plan p) key ↔ ¬ (strip = true ∧ Drops e p key) := by
          intro key
          constructor
          · intro hdeclares hdrops
            exact hdrops.2.2.2.2 hdeclares
          · intro hnot
            exact Classical.byContradiction (fun hdeclares =>
              hnot ⟨hs, hremove, hstrips, hnone, hdeclares⟩)
        rw [eq_filter_of_retain (fun k b => declared_eq_true_iff) _ ready h]
        exact List.filter_congr (fun m _ => decide_eq_decide.mpr (hkept m.1))
  · next hstrip =>
    exact hall (fun key hdrops => hstrip ⟨hdrops.1, hdrops.2.1, hdrops.2.2.1⟩) (Option.some.inj h)

/-- For accepted registries it is always settled what is kept of an object. -/
theorem exists_prepared (he : e.Acyclic) (p : Plan Node) (strip : Bool) (members : Fields Json) :
    ∃ fuel ready, prepared e fuel p strip members = some ready := by
  obtain ⟨first, b, hadm⟩ := exists_anyM (f := admits e) anyPlan_mono p.allOf
    (fun m _ => exists_anyPlan he m)
  have hends : ∀ k, ∃ fuel c, declared e fuel p k = some c := by
    intro k
    obtain ⟨fuel, c, h⟩ : ∃ fuel c,
        anyPlan e (fun q => q.declaresOwn k) fuel (.plan p) = some c := exists_anyPlan he (.plan p)
    exact ⟨fuel, c, anyPlan_mono fuel (fuel + 1) (.plan p) c (Nat.le_succ fuel) h⟩
  obtain ⟨others, kept, hkept⟩ := exists_retain (f := fun fuel => declared e fuel p)
    (fun fuel fuel' k c hle => declared_mono hle p k c) hends (filled e p members)
  -- the greater number of steps does for the branches and for the members
  have hadm' : p.allOf.anyM (admits e (max first others)) = some b :=
    anyM_mono (fun m c => anyPlan_mono first (max first others) m c (Nat.le_max_left _ _)) p.allOf b
      hadm
  have hkept' : retain (declared e (max first others) p) (filled e p members) = some kept :=
    retain_mono (declared_mono (Nat.le_max_right _ _) p) (filled e p members) kept hkept
  refine ⟨max first others, ?_⟩
  unfold prepared
  rw [hadm', hkept']
  split
  · cases b with
    | true => exact ⟨filled e p members, rfl⟩
    | false => exact ⟨kept, rfl⟩
  · exact ⟨filled e p members, rfl⟩

end HttpContract.Normalization
