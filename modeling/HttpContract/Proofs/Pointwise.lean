import Mathlib.Data.List.Forall2
import HttpContract.Fields

/-!
# Lists and options related entry by entry

What holds for the entries of two lists, one by one, holds for what is looked up in them and for
what is computed from them step by step.
-/

namespace HttpContract

/-! ## Options -/

theorem rel_symm {α β : Type} {R : α → β → Prop} {x : Option α} {y : Option β}
    (h : Option.Rel R x y) : Option.Rel (fun b a => R a b) y x := by
  cases h with
  | none => exact .none
  | some h => exact .some h

theorem rel_mono {α β : Type} {R S : α → β → Prop} {x : Option α} {y : Option β}
    (hRS : ∀ a b, R a b → S a b) (h : Option.Rel R x y) : Option.Rel S x y := by
  cases h with
  | none => exact .none
  | some h => exact .some (hRS _ _ h)

theorem isSome_of_rel {α β : Type} {R : α → β → Prop} {x : Option α} {y : Option β}
    (h : Option.Rel R x y) : x.isSome = y.isSome := by
  cases h <;> rfl

theorem exists_of_rel {α β : Type} {R : α → β → Prop} {x : Option α} {y : Option β} {b : β}
    (h : Option.Rel R x y) (hy : y = some b) : ∃ a, x = some a ∧ R a b := by
  cases h with
  | none => cases hy
  | some h =>
    obtain rfl := Option.some.inj hy
    exact ⟨_, rfl, h⟩

theorem toList_of_rel {α β : Type} {R : α → β → Prop} {x : Option α} {y : Option β}
    (h : Option.Rel R x y) : List.Forall₂ R x.toList y.toList := by
  cases h with
  | none => exact .nil
  | some h => exact .cons h .nil

theorem rel_or {α β : Type} {R : α → β → Prop} {x y : Option α} {x' y' : Option β}
    (hx : Option.Rel R x x') (hy : Option.Rel R y y') : Option.Rel R (x.or y) (x'.or y') := by
  cases hx with
  | none => exact hy
  | some h => exact .some h

theorem rel_bind {α α' β β' : Type} {R : α → α' → Prop} {S : β → β' → Prop} {x : Option α}
    {y : Option α'} {f : α → Option β} {g : α' → Option β'} (h : Option.Rel R x y)
    (hfg : ∀ a b, R a b → Option.Rel S (f a) (g b)) : Option.Rel S (x >>= f) (y >>= g) := by
  cases h with
  | none => exact .none
  | some h => exact hfg _ _ h

/-- Two options that go with the same one go with each other. -/
theorem rel_of_common {α β γ : Type} {R : α → β → Prop} {S : α → γ → Prop} {x : Option α}
    {y : Option β} {z : Option γ} (h : Option.Rel R x y) (h' : Option.Rel S x z) :
    Option.Rel (fun b c => ∃ a, R a b ∧ S a c) y z := by
  cases h with
  | none =>
    cases h'
    exact .none
  | some hy =>
    cases h' with
    | some hz => exact .some ⟨_, hy, hz⟩

/-! ## Lists -/

theorem isEmpty_of_forall₂ {α β : Type} {R : α → β → Prop} {xs : List α} {ys : List β}
    (h : List.Forall₂ R xs ys) : xs.isEmpty = ys.isEmpty := by
  cases h <;> rfl

theorem exists_of_forall₂ {α β : Type} {R : α → β → Prop} {xs : List α} {ys : List β} {x : α}
    (h : List.Forall₂ R xs ys) (hx : x ∈ xs) : ∃ y ∈ ys, R x y := by
  induction h with
  | nil => simp at hx
  | cons hab _ ih =>
    rcases List.mem_cons.mp hx with rfl | hx
    · exact ⟨_, List.mem_cons_self, hab⟩
    · rcases ih hx with ⟨y, hy, hxy⟩
      exact ⟨y, List.mem_cons_of_mem _ hy, hxy⟩

section

variable {α β γ : Type} {R : α → β → Prop} {xs : List α} {ys : List β}

theorem forall₂_imp_of_mem {S : α → β → Prop} (h : List.Forall₂ R xs ys)
    (hRS : ∀ x y, x ∈ xs → y ∈ ys → R x y → S x y) : List.Forall₂ S xs ys := by
  induction h with
  | nil => exact .nil
  | cons hxy _ ih =>
    exact .cons (hRS _ _ List.mem_cons_self List.mem_cons_self hxy)
      (ih (fun x y hx hy => hRS x y (List.mem_cons_of_mem _ hx) (List.mem_cons_of_mem _ hy)))

theorem forall_mem_iff_of_forall₂ {P : α → Prop} {Q : β → Prop}
    (hPQ : ∀ x y, R x y → (P x ↔ Q y)) (h : List.Forall₂ R xs ys) :
    (∀ x ∈ xs, P x) ↔ ∀ y ∈ ys, Q y := by
  induction h with
  | nil => simp
  | cons hxy _ ih => rw [List.forall_mem_cons, List.forall_mem_cons, hPQ _ _ hxy, ih]

theorem exists_mem_iff_of_forall₂ {P : α → Prop} {Q : β → Prop}
    (hPQ : ∀ x y, R x y → (P x ↔ Q y)) (h : List.Forall₂ R xs ys) :
    (∃ x ∈ xs, P x) ↔ ∃ y ∈ ys, Q y := by
  induction h with
  | nil => simp
  | cons hxy _ ih => rw [List.exists_mem_cons_iff, List.exists_mem_cons_iff, hPQ _ _ hxy, ih]

theorem all_of_forall₂ {f : α → Bool} {g : β → Bool} (hfg : ∀ x y, R x y → f x = g y)
    (h : List.Forall₂ R xs ys) : xs.all f = ys.all g := by
  induction h with
  | nil => rfl
  | cons hxy _ ih => rw [List.all_cons, List.all_cons, hfg _ _ hxy, ih]

theorem any_of_forall₂ {f : α → Bool} {g : β → Bool} (hfg : ∀ x y, R x y → f x = g y)
    (h : List.Forall₂ R xs ys) : xs.any f = ys.any g := by
  induction h with
  | nil => rfl
  | cons hxy _ ih => rw [List.any_cons, List.any_cons, hfg _ _ hxy, ih]

theorem filter_of_forall₂ {f : α → Bool} {g : β → Bool} (hfg : ∀ x y, R x y → f x = g y)
    (h : List.Forall₂ R xs ys) : List.Forall₂ R (xs.filter f) (ys.filter g) :=
  List.rel_filter (fun x y hxy => Bool.eq_iff_iff.mp (hfg x y hxy)) h

theorem flatMap_of_forall₂ {f : α → List γ} {g : β → List γ} (hfg : ∀ x y, R x y → f x = g y)
    (h : List.Forall₂ R xs ys) : xs.flatMap f = ys.flatMap g := by
  induction h with
  | nil => rfl
  | cons hxy _ ih => rw [List.flatMap_cons, List.flatMap_cons, hfg _ _ hxy, ih]

theorem isEmpty_flatMap (xs : List α) (f : α → List γ) :
    (xs.flatMap f).isEmpty = xs.all (fun x => (f x).isEmpty) := by
  rw [Bool.eq_iff_iff, List.isEmpty_iff, List.flatMap_eq_nil_iff, List.all_eq_true]
  exact forall₂_congr (fun x _ => List.isEmpty_iff.symm)

theorem isEmpty_flatMap_of_forall₂ {f : α → List γ} {g : β → List γ}
    (hfg : ∀ x y, R x y → (f x).isEmpty = (g y).isEmpty) (h : List.Forall₂ R xs ys) :
    (xs.flatMap f).isEmpty = (ys.flatMap g).isEmpty := by
  rw [isEmpty_flatMap, isEmpty_flatMap]
  exact all_of_forall₂ hfg h

end

theorem exists_forall₂ {α β : Type} {R : α → β → Prop} {xs : List α}
    (h : ∀ x ∈ xs, ∃ y, R x y) : ∃ ys, List.Forall₂ R xs ys := by
  induction xs with
  | nil => exact ⟨[], .nil⟩
  | cons x rest ih =>
    rcases h x List.mem_cons_self with ⟨y, hy⟩
    rcases ih (fun z hz => h z (List.mem_cons_of_mem _ hz)) with ⟨ys, hys⟩
    exact ⟨y :: ys, .cons hy hys⟩

/-- Two lists that go with the same one go with each other. -/
theorem forall₂_of_common {α β γ : Type} {R : α → β → Prop} {S : α → γ → Prop} {xs : List α}
    {ys : List β} {zs : List γ} (h : List.Forall₂ R xs ys) (h' : List.Forall₂ S xs zs) :
    List.Forall₂ (fun y z => ∃ x ∈ xs, R x y ∧ S x z) ys zs := by
  induction h generalizing zs with
  | nil =>
    cases h'
    exact .nil
  | cons hxy _ ih =>
    cases h' with
    | cons hxz hrest =>
      refine .cons ⟨_, List.mem_cons_self, hxy, hxz⟩ ((ih hrest).imp ?_)
      rintro y z ⟨x, hx, hboth⟩
      exact ⟨x, List.mem_cons_of_mem _ hx, hboth⟩

theorem eq_of_forall₂ {α β : Type} {R S : α → β → Prop} {xs : List α} {ys zs : List β}
    (h : List.Forall₂ R xs ys) (h' : List.Forall₂ S xs zs)
    (heq : ∀ x y z, x ∈ xs → R x y → S x z → y = z) : ys = zs := by
  rw [← List.forall₂_eq_eq_eq]
  refine (forall₂_of_common h h').imp ?_
  rintro y z ⟨x, hx, hy, hz⟩
  exact heq x y z hx hy hz

theorem rel_getElem? {α β : Type} {R : α → β → Prop} {xs : List α} {ys : List β}
    (h : List.Forall₂ R xs ys) (i : Nat) : Option.Rel R xs[i]? ys[i]? := by
  induction h generalizing i with
  | nil => exact .none
  | cons hab _ ih =>
    cases i with
    | zero => exact .some hab
    | succ i => simpa using ih i

theorem rel_find? {α β : Type} {R : α → β → Prop} {f : α → Bool} {g : β → Bool}
    (hfg : ∀ x y, R x y → f x = g y) {xs : List α} {ys : List β} (h : List.Forall₂ R xs ys) :
    Option.Rel R (xs.find? f) (ys.find? g) := by
  induction h with
  | nil => exact .none
  | cons hxy _ ih =>
    rw [List.find?_cons, List.find?_cons, hfg _ _ hxy]
    split
    · exact .some hxy
    · exact ih

theorem forall₂_iff_of_forall₂ {α β : Type} {R S : α → β → Prop} {P : α → Prop} {xs : List α}
    {ys : List β} (h : List.Forall₂ R xs ys) (hS : ∀ x ∈ xs, ∀ y, R x y → (S x y ↔ P x)) :
    List.Forall₂ S xs ys ↔ ∀ x ∈ xs, P x := by
  induction h with
  | nil => simp
  | cons hxy _ ih =>
    rw [List.forall_mem_cons] at hS
    rw [List.forall₂_cons, List.forall_mem_cons, hS.1 _ hxy, ih hS.2]

/-! ## Computations that can fail -/

theorem bind_eq_ok {ε α β : Type} {x : Except ε α} {f : α → Except ε β} {b : β}
    (h : (x >>= f) = .ok b) : ∃ a, x = .ok a ∧ f a = .ok b := by
  cases x with
  | error err => cases h
  | ok a => exact ⟨a, rfl, h⟩

theorem map_eq_ok {ε α β : Type} {f : α → β} {x : Except ε α} {b : β} (h : x.map f = .ok b) :
    ∃ a, x = .ok a ∧ f a = b := by
  cases x with
  | error err => cases h
  | ok a => exact ⟨a, rfl, Except.ok.inj h⟩

theorem map_eq_error {ε α β : Type} {f : α → β} {x : Except ε α} {err : ε}
    (h : x.map f = .error err) : x = .error err := by
  cases x with
  | error err' => rw [Except.error.inj h]
  | ok a => cases h

theorem toOption_eq_some_iff {ε α : Type} {r : Except ε α} {x : α} :
    r.toOption = some x ↔ r = .ok x := by
  cases r <;> simp [Except.toOption]

theorem toOption_bind {ε α β : Type} (x : Except ε α) (f : α → Except ε β) :
    (x >>= f).toOption = x.toOption.bind (fun a => (f a).toOption) := by
  cases x <;> rfl

/-- A list that is mapped without error is mapped entry by entry. -/
theorem forall₂_of_mapM {ε α β : Type} {f : α → Except ε β} : ∀ {xs : List α} {ys : List β},
    xs.mapM f = .ok ys → List.Forall₂ (fun x y => f x = .ok y) xs ys
  | [], ys, h => by
    obtain rfl : [] = ys := by simpa [pure, Except.pure] using h
    exact .nil
  | x :: rest, ys, h => by
    rw [List.mapM_cons] at h
    cases hx : f x with
    | error err => simp [hx, bind, Except.bind] at h
    | ok y =>
      cases hrest : rest.mapM f with
      | error err => simp [hx, hrest, bind, Except.bind] at h
      | ok others =>
        obtain rfl : y :: others = ys := by
          simpa [hx, hrest, bind, Except.bind, pure, Except.pure] using h
        exact .cons hx (forall₂_of_mapM hrest)

theorem exists_of_mem_mapM {ε α β : Type} {f : α → Except ε β} {xs : List α} {ys : List β}
    (h : xs.mapM f = .ok ys) {y : β} (hy : y ∈ ys) : ∃ x ∈ xs, f x = .ok y := by
  obtain ⟨i, hi⟩ := List.mem_iff_getElem?.mp hy
  have hrel := rel_getElem? (forall₂_of_mapM h) i
  rw [hi] at hrel
  cases hx : xs[i]? with
  | none =>
    rw [hx] at hrel
    cases hrel
  | some x =>
    rw [hx] at hrel
    cases hrel with
    | some hxy => exact ⟨x, List.mem_of_getElem? hx, hxy⟩

/-- A list can be mapped without error exactly if each of its entries can. -/
theorem exists_mapM_iff {ε α β : Type} {f : α → Except ε β} : ∀ {xs : List α},
    (∃ ys, xs.mapM f = .ok ys) ↔ ∀ x ∈ xs, ∃ y, f x = .ok y
  | [] => iff_of_true ⟨[], rfl⟩ (fun _ hx => absurd hx List.not_mem_nil)
  | x :: rest => by
    have hothers : (∃ ys, rest.mapM f = .ok ys) ↔ ∀ x ∈ rest, ∃ y, f x = .ok y := exists_mapM_iff
    rw [List.mapM_cons, List.forall_mem_cons, ← hothers]
    cases f x with
    | error err => simp [bind, Except.bind]
    | ok y => cases rest.mapM f <;> simp [bind, Except.bind, pure, Except.pure]

theorem exists_of_mapM_eq_error {ε α β : Type} {f : α → Except ε β} {err : ε} : ∀ {xs : List α},
    xs.mapM f = .error err → ∃ x ∈ xs, f x = .error err
  | [], h => by cases h
  | x :: rest, h => by
    rw [List.mapM_cons] at h
    cases hx : f x with
    | error e =>
      rw [hx] at h
      cases h
      exact ⟨x, List.mem_cons_self, hx⟩
    | ok y =>
      cases hrest : rest.mapM f with
      | ok others => simp [hx, hrest, bind, Except.bind, pure, Except.pure] at h
      | error e =>
        obtain rfl : e = err := by simpa [hx, hrest, bind, Except.bind] using h
        obtain ⟨x', hmem, hx'⟩ := exists_of_mapM_eq_error hrest
        exact ⟨x', List.mem_cons_of_mem _ hmem, hx'⟩

/-! ## Computations that fail together -/

/-- Both computations fail, or they give related results. -/
inductive Alike {ε ε' α β : Type} (R : α → β → Prop) : Except ε α → Except ε' β → Prop where
  | ok {a : α} {b : β} (h : R a b) : Alike R (.ok a) (.ok b)
  | error (err : ε) (err' : ε') : Alike R (.error err) (.error err')

namespace Alike

variable {ε ε' α α' β β' : Type} {R : α → α' → Prop} {S : β → β' → Prop} {x : Except ε α}
  {y : Except ε' α'}

theorem mono {R' : α → α' → Prop} (hR : ∀ a b, R a b → R' a b) (h : Alike R x y) :
    Alike R' x y := by
  cases h with
  | ok h => exact .ok (hR _ _ h)
  | error err err' => exact .error err err'

theorem bind {f : α → Except ε β} {g : α' → Except ε' β'} (h : Alike R x y)
    (hfg : ∀ a b, R a b → Alike S (f a) (g b)) : Alike S (x >>= f) (y >>= g) := by
  cases h with
  | ok h => exact hfg _ _ h
  | error err err' => exact .error err err'

theorem map {f : α → β} {g : α' → β'} (h : Alike R x y) (hfg : ∀ a b, R a b → S (f a) (g b)) :
    Alike S (x.map f) (y.map g) := by
  cases h with
  | ok h => exact .ok (hfg _ _ h)
  | error err err' => exact .error err err'

theorem exists_iff (h : Alike R x y) : (∃ a, x = .ok a) ↔ ∃ b, y = .ok b := by
  cases h with
  | ok h => exact iff_of_true ⟨_, rfl⟩ ⟨_, rfl⟩
  | error err err' =>
    refine iff_of_false ?_ ?_
    · rintro ⟨a, ha⟩
      cases ha
    · rintro ⟨b, hb⟩
      cases hb

theorem of_eq_ok {a : α} {b : α'} (h : Alike R x y) (hx : x = .ok a) (hy : y = .ok b) : R a b := by
  cases h with
  | ok h =>
    obtain rfl := Except.ok.inj hx
    obtain rfl := Except.ok.inj hy
    exact h
  | error err err' => cases hx

theorem exists_right {a : α} (h : Alike R x y) (hx : x = .ok a) : ∃ b, y = .ok b ∧ R a b := by
  rcases h.exists_iff.mp ⟨a, hx⟩ with ⟨b, hy⟩
  exact ⟨b, hy, h.of_eq_ok hx hy⟩

theorem exists_left {b : α'} (h : Alike R x y) (hy : y = .ok b) : ∃ a, x = .ok a ∧ R a b := by
  rcases h.exists_iff.mpr ⟨b, hy⟩ with ⟨a, hx⟩
  exact ⟨a, hx, h.of_eq_ok hx hy⟩

theorem of_exists (hx : ∀ a, x = .ok a → ∃ b, y = .ok b ∧ R a b)
    (hy : ∀ b, y = .ok b → ∃ a, x = .ok a) : Alike R x y := by
  cases x with
  | ok a =>
    rcases hx a rfl with ⟨b, rfl, hab⟩
    exact .ok hab
  | error err =>
    cases y with
    | ok b =>
      rcases hy b rfl with ⟨a, ha⟩
      cases ha
    | error err' => exact .error err err'

/-- Folding over related lists, step by step. -/
theorem foldlM {Q : β → β' → Prop} {f : α → β → Except ε α} {g : α' → β' → Except ε' α'}
    {xs : List β} {ys : List β'} (h : List.Forall₂ Q xs ys)
    (hfg : ∀ a b x y, R a b → Q x y → Alike R (f a x) (g b y)) {a : α} {b : α'} (hab : R a b) :
    Alike R (xs.foldlM f a) (ys.foldlM g b) := by
  induction h generalizing a b with
  | nil => exact .ok hab
  | cons hxy _ ih =>
    rw [List.foldlM_cons, List.foldlM_cons]
    exact (hfg _ _ _ _ hab hxy).bind (fun a b hab => ih hab)

end Alike

/-! ## Fields -/

/-- Entries of the same names hold values that are related as their name says. -/
theorem rel_get?_of_name {α β : Type} {R : String → α → β → Prop} {m : Fields α} {m' : Fields β}
    (key : String) (h : List.Forall₂ (fun a b => a.1 = b.1 ∧ R a.1 a.2 b.2) m m') :
    Option.Rel (R key) (Fields.get? m key) (Fields.get? m' key) := by
  induction h with
  | nil => exact .none
  | @cons a b _ _ hab _ ih =>
    rcases a with ⟨name, x⟩
    rcases b with ⟨name', y⟩
    obtain ⟨rfl, hxy⟩ : name = name' ∧ R name x y := hab
    rw [Fields.get?_cons, Fields.get?_cons]
    split
    · next heq => exact .some (heq ▸ hxy)
    · exact ih

theorem keys_eq_of_forall₂ {α β : Type} {R : α → β → Prop} {m : Fields α} {m' : Fields β}
    (h : List.Forall₂ (fun a b => a.1 = b.1 ∧ R a.2 b.2) m m') :
    Fields.keys m' = Fields.keys m := by
  induction h with
  | nil => rfl
  | cons hab _ ih => exact congrArg₂ List.cons hab.1.symm ih

/-- Entries of the same names hold related values. -/
theorem rel_get? {α β : Type} {R : α → β → Prop} {m : Fields α} {m' : Fields β} (key : String)
    (h : List.Forall₂ (fun a b => a.1 = b.1 ∧ R a.2 b.2) m m') :
    Option.Rel R (Fields.get? m key) (Fields.get? m' key) :=
  rel_get?_of_name (R := fun _ => R) key h

/-- Inserting values related as their name says. -/
theorem forall₂_insert_of_name {α β : Type} {R : String → α → β → Prop} {m : Fields α}
    {m' : Fields β} {x : α} {y : β} (key : String)
    (h : List.Forall₂ (fun a b => a.1 = b.1 ∧ R a.1 a.2 b.2) m m') (hxy : R key x y) :
    List.Forall₂ (fun a b => a.1 = b.1 ∧ R a.1 a.2 b.2) (Fields.insert m key x)
      (Fields.insert m' key y) := by
  induction h with
  | nil => exact .cons ⟨rfl, hxy⟩ .nil
  | @cons a b _ _ hab hrest ih =>
    rcases a with ⟨name, u⟩
    rcases b with ⟨name', w⟩
    obtain ⟨rfl, huw⟩ : name = name' ∧ R name u w := hab
    unfold Fields.insert
    split
    · exact .cons ⟨rfl, hxy⟩ hrest
    · split
      · exact .cons ⟨rfl, hxy⟩ (.cons ⟨rfl, huw⟩ hrest)
      · exact .cons ⟨rfl, huw⟩ ih

theorem forall₂_insert {α β : Type} {R : α → β → Prop} {m : Fields α} {m' : Fields β} {x : α}
    {y : β} (key : String) (h : List.Forall₂ (fun a b => a.1 = b.1 ∧ R a.2 b.2) m m')
    (hxy : R x y) : List.Forall₂ (fun a b => a.1 = b.1 ∧ R a.2 b.2) (Fields.insert m key x)
      (Fields.insert m' key y) :=
  forall₂_insert_of_name (R := fun _ => R) key h hxy

end HttpContract
