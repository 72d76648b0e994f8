import Mathlib.Data.Fintype.EquivFin
import HttpContract.Proofs.Pointwise

/-!
# Lists in another order

A map of positions relates a list to one that holds related entries at the positions they are mapped
to (`Reindexed`). What is computed from one list entry by entry is then computed from the other in
another order (`Reindexed.alike_mapM`, `Reindexed.exists_perm`).
-/

namespace HttpContract

/-- A list of the same length with related entries at other positions. -/
structure Reindexed {α β : Type} (π : Nat → Nat) (R : α → β → Prop) (xs : List α) (ys : List β) :
    Prop where
  length : ys.length = xs.length
  entries : ∀ i, Option.Rel R xs[i]? ys[π i]?

namespace Reindexed

variable {α β γ δ ε ε' : Type} {π : Nat → Nat} {R : α → β → Prop} {S : γ → δ → Prop} {xs : List α}
  {ys : List β}

theorem map {f : α → γ} {g : β → δ} (h : Reindexed π R xs ys)
    (hfg : ∀ x y, R x y → S (f x) (g y)) : Reindexed π S (xs.map f) (ys.map g) where
  length := by rw [List.length_map, List.length_map, h.length]
  entries i := by
    have hrel := h.entries i
    rw [List.getElem?_map, List.getElem?_map]
    generalize xs[i]? = x at hrel ⊢
    generalize ys[π i]? = y at hrel ⊢
    cases hrel with
    | none => exact .none
    | some hxy => exact .some (hfg _ _ hxy)

theorem imp_of_mem {S : α → β → Prop} (h : Reindexed π R xs ys)
    (hRS : ∀ x y, x ∈ xs → R x y → S x y) : Reindexed π S xs ys where
  length := h.length
  entries i := by
    have hrel := h.entries i
    have hmem : ∀ x, xs[i]? = some x → x ∈ xs := fun x hx => List.mem_of_getElem? hx
    generalize xs[i]? = x at hrel hmem ⊢
    generalize ys[π i]? = y at hrel ⊢
    cases hrel with
    | none => exact .none
    | some hxy => exact .some (hRS _ _ (hmem _ rfl) hxy)

theorem lt (h : Reindexed π R xs ys) {i : Nat} (hi : i < xs.length) : π i < xs.length := by
  have hsome := isSome_of_rel (h.entries i)
  rw [List.getElem?_eq_getElem hi] at hsome
  rw [← h.length]
  simpa using hsome

section

variable (hπ : Function.Injective π)

include hπ

/-- The positions are permuted. -/
theorem exists_equiv (h : Reindexed π R xs ys) :
    ∃ σ : Equiv.Perm (Fin xs.length), ∀ i, (σ i : Nat) = π i := by
  have hinjective : Function.Injective
      (fun i : Fin xs.length => (⟨π i, h.lt i.isLt⟩ : Fin xs.length)) :=
    fun i j hij => Fin.ext (hπ (congrArg Fin.val hij))
  exact ⟨Equiv.ofBijective _ (Finite.injective_iff_bijective.mp hinjective), fun _ => rfl⟩

theorem exists_index (h : Reindexed π R xs ys) {j : Nat} (hj : j < xs.length) :
    ∃ i < xs.length, π i = j := by
  rcases h.exists_equiv hπ with ⟨σ, hσ⟩
  refine ⟨σ.symm ⟨j, hj⟩, Fin.isLt _, ?_⟩
  rw [← hσ, Equiv.apply_symm_apply]

/-- The entries of the first list can be put in the order of the second. -/
theorem exists_perm (h : Reindexed π R xs ys) :
    ∃ order, xs.Perm order ∧ List.Forall₂ R order ys := by
  rcases h.exists_equiv hπ with ⟨σ, hσ⟩
  refine ⟨List.ofFn (fun j => xs[σ.symm j]), ?_, ?_⟩
  · have hperm := Equiv.Perm.ofFn_comp_perm σ.symm (fun i => xs[i])
    rw [show List.ofFn (fun i : Fin xs.length => xs[i]) = xs by simp] at hperm
    exact hperm.symm
  · refine List.forall₂_iff_get.mpr ⟨by rw [List.length_ofFn, h.length], fun j hj hj' => ?_⟩
    rw [List.length_ofFn] at hj
    have hrel := h.entries (σ.symm ⟨j, hj⟩)
    rw [← hσ, Equiv.apply_symm_apply, List.getElem?_eq_getElem (Fin.isLt _),
      List.getElem?_eq_getElem hj'] at hrel
    cases hrel with
    | some hxy => simpa using hxy

end

/-- Computing from the entries, one after the other, has a result for both lists or for neither. -/
theorem alike_mapM (hπ : Function.Injective π) (h : Reindexed π R xs ys) {f : α → Except ε γ}
    {g : β → Except ε' δ} (hfg : ∀ x y, R x y → Alike S (f x) (g y)) :
    Alike (Reindexed π S) (xs.mapM f) (ys.mapM g) := by
  have hiff : (∃ as, xs.mapM f = .ok as) ↔ ∃ bs, ys.mapM g = .ok bs := by
    rcases h.exists_perm hπ with ⟨order, hperm, hall⟩
    rw [exists_mapM_iff, exists_mapM_iff,
      ← forall_mem_iff_of_forall₂ (fun x y hxy => (hfg x y hxy).exists_iff) hall]
    exact forall_congr' (fun x => by rw [hperm.mem_iff])
  cases hf : xs.mapM f with
  | error err =>
    cases hg : ys.mapM g with
    | error err' => exact .error _ _
    | ok bs =>
      rcases hiff.mpr ⟨bs, hg⟩ with ⟨as, has⟩
      rw [hf] at has
      cases has
  | ok as =>
    rcases hiff.mp ⟨as, hf⟩ with ⟨bs, hg⟩
    rw [hg]
    have hf := forall₂_of_mapM hf
    have hg := forall₂_of_mapM hg
    refine .ok ⟨by rw [← hg.length_eq, ← hf.length_eq, h.length], fun i => ?_⟩
    have hxy := h.entries i
    have hx := rel_getElem? hf i
    have hy := rel_getElem? hg (π i)
    generalize xs[i]? = x at hxy hx
    generalize ys[π i]? = y at hxy hy
    generalize as[i]? = a at hx ⊢
    generalize bs[π i]? = b at hy ⊢
    cases hxy with
    | none => cases hx; cases hy; exact .none
    | some hxy =>
      cases hx with
      | some ha =>
        cases hy with
        | some hb => exact .some ((hfg _ _ hxy).of_eq_ok ha hb)

end Reindexed

end HttpContract
