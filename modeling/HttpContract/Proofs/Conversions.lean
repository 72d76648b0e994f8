import HttpContract.Proofs.Numerals
import HttpContract.Proofs.Shapes
import HttpContract.Proofs.WholeNumbers

/-!
# Conversions to the types wanted

A conversion gives a value of the type that it was asked for (`admits_of_coerce?`). Where several
types are admitted, a value that has one of them stays as it is and any other becomes what the first
type makes of it that makes anything of it; what came out once is left alone from then on
(`coerceAny?_settles`).

Integers survive being written and read: the text of an integer is converted to this integer,
whether an integer or any number is wanted (`coerce?_text_integer`). Its digits are read as the
natural they were written for (`digits?_toDigits`), and a text that is an integer within the words
is never read as a binary64 number.
-/

namespace HttpContract

namespace NumberText

theorem foldl_digits (cs : List Char) (n : Nat) :
    cs.foldl (fun n c => n * 10 + (c.toNat - 48)) n = Nat.ofDigitChars 10 cs n := by
  induction cs generalizing n with
  | nil => exact Nat.ofDigitChars_nil.symm
  | cons c rest ih =>
    rw [List.foldl_cons, ih, Nat.ofDigitChars_cons, Nat.mul_comm]
    rfl

/-- The digits of a natural are read as this natural. -/
theorem digits?_toDigits (n : Nat) : digits? (Nat.toDigits 10 n) = some n := by
  have hdigits : (Nat.toDigits 10 n).all Char.isDigit = true :=
    List.all_eq_true.mpr (fun c hc => Json.Parser.isDigit_of_mem_toDigits hc)
  have hrefused : ¬ ((Nat.toDigits 10 n).isEmpty = true ∨
      (!(Nat.toDigits 10 n).all Char.isDigit) = true) := by
    simp [hdigits, Nat.toDigits_ne_nil]
  unfold digits?
  rw [if_neg hrefused, foldl_digits]
  exact congrArg some Nat.ofDigitChars_ten_toDigits

/-- There is no sign before digits. -/
theorem splitSign_toDigits (n : Nat) :
    splitSign (Nat.toDigits 10 n) = (false, Nat.toDigits 10 n) := by
  unfold splitSign
  split
  · next rest heq =>
    have hdigit := Json.Parser.isDigit_of_mem_toDigits (n := n) (heq ▸ List.mem_cons_self)
    exact absurd hdigit (by decide)
  · next rest heq =>
    have hdigit := Json.Parser.isDigit_of_mem_toDigits (n := n) (heq ▸ List.mem_cons_self)
    exact absurd hdigit (by decide)
  · rfl

/-- An integer is read from its text. -/
theorem integer?_toString (i : Int) : integer? (toString i).toList = some i := by
  unfold integer?
  cases i with
  | ofNat n =>
    have hchars : (toString (Int.ofNat n)).toList = Nat.toDigits 10 n := by
      rw [show toString (Int.ofNat n) = toString n from rfl, Nat.toString_eq_ofList_toDigits,
        String.toList_ofList]
    rw [hchars, splitSign_toDigits]
    simp only [digits?_toDigits]
    rfl
  | negSucc n =>
    have hchars : (toString (Int.negSucc n)).toList = '-' :: Nat.toDigits 10 (n + 1) := by
      rw [show toString (Int.negSucc n) = "-" ++ toString (n + 1) from rfl,
        Nat.toString_eq_ofList_toDigits]
      simp only [String.toList_append, String.toList_ofList]
      rfl
    rw [hchars]
    simp only [splitSign, digits?_toDigits]
    rfl

theorem read?_toString (i : Json.Integer) : read? (toString i.val) = some (.int i) := by
  unfold read?
  rw [integer?_toString, Option.bind_some, Json.Integer.ofInt?_val]

end NumberText

namespace Coercion

variable {v w : Json} {t : JsonType} {types : List JsonType}

/-! ## The types of results -/

theorem admits_of_convert? (h : convert? v t = some w) : t.admits w = true := by
  cases t with
  | number =>
    obtain ⟨n, -, rfl⟩ := Option.map_eq_some_iff.mp h
    rfl
  | integer =>
    obtain ⟨n, hn, rfl⟩ := Option.map_eq_some_iff.mp h
    obtain ⟨x, -, hx⟩ := Option.bind_eq_some_iff.mp hn
    -- whatever becomes an integer is one of 64 bits, never a floating point number
    obtain ⟨i, rfl, -⟩ := toInteger?_eq_some_iff.mp hx
    rfl
  | array => cases h
  | object => cases h
  | null =>
    simp only [convert?] at h
    repeat' split at h
    all_goals cases h <;> rfl
  | boolean =>
    simp only [convert?] at h
    repeat' split at h
    all_goals cases h <;> rfl
  | string =>
    simp only [convert?] at h
    repeat' split at h
    all_goals cases h <;> rfl

/-- What comes out has the type that was wanted. -/
theorem admits_of_coerce? (h : coerce? v t = some w) : t.admits w = true := by
  unfold coerce? at h
  split at h
  · next hadmits =>
    obtain rfl := Option.some.inj h
    exact hadmits
  · exact admits_of_convert? h

/-! ## Several types -/

theorem coerceAny?_of_admits (ht : t ∈ types) (h : t.admits v = true) :
    coerceAny? v types = some v := by
  unfold coerceAny?
  exact if_pos (List.any_eq_true.mpr ⟨t, ht, h⟩)

theorem coerceAny?_of_not_admits (h : ∀ t ∈ types, t.admits v = false) :
    coerceAny? v types = types.findSome? (coerce? v) := by
  have hadmitted : ¬ admitted types v = true := by
    rw [Bool.not_eq_true]
    exact List.any_eq_false.mpr (fun t ht => by simp [h t ht])
  unfold coerceAny?
  exact if_neg hadmitted

theorem admits_or_not (v : Json) (types : List JsonType) :
    (∃ t ∈ types, t.admits v = true) ∨ ∀ t ∈ types, t.admits v = false := by
  by_cases h : ∃ t ∈ types, t.admits v = true
  · exact Or.inl h
  · exact Or.inr (fun t ht => by simpa using fun hadmits => h ⟨t, ht, hadmits⟩)

theorem exists_admits_of_coerceAny? (h : coerceAny? v types = some w) :
    ∃ t ∈ types, t.admits w = true := by
  rcases admits_or_not v types with ⟨t, ht, hadmits⟩ | hnone
  · rw [coerceAny?_of_admits ht hadmits] at h
    obtain rfl := Option.some.inj h
    exact ⟨t, ht, hadmits⟩
  · rw [coerceAny?_of_not_admits hnone] at h
    obtain ⟨t, ht, hw⟩ := List.exists_of_findSome?_eq_some h
    exact ⟨t, ht, admits_of_coerce? hw⟩

theorem coerceAny?_eq_none_iff_forall :
    coerceAny? v types = none ↔ ∀ t ∈ types, coerce? v t = none := by
  rcases admits_or_not v types with ⟨t, ht, hadmits⟩ | hnone
  · rw [coerceAny?_of_admits ht hadmits]
    have hsame : coerce? v t = some v := if_pos hadmits
    refine ⟨nofun, fun h => ?_⟩
    rw [h t ht] at hsame
    cases hsame
  · rw [coerceAny?_of_not_admits hnone, List.findSome?_eq_none_iff]

/-- What comes out has one of the types wanted and stays as it is if it is converted once more. A
value that has one of them stays as it is; of any other the first type for which it has a conversion
makes the result. There is no result exactly if no type has one, and lists and objects are never
changed. -/
theorem coerceAny?_settles (v : Json) (types : List JsonType) :
    (∀ w, coerceAny? v types = some w →
      (∃ t ∈ types, t.admits w = true) ∧ coerceAny? w types = some w) ∧
    ((∃ t ∈ types, t.admits v = true) → coerceAny? v types = some v) ∧
    ((∀ t ∈ types, t.admits v = false) → ∀ w, coerceAny? v types = some w ↔
      ∃ before t after, types = before ++ t :: after ∧ coerce? v t = some w ∧
        ∀ t' ∈ before, coerce? v t' = none) ∧
    (coerceAny? v types = none ↔ ∀ t ∈ types, coerce? v t = none) ∧
    ((∃ items, v = .arr items) ∨ (∃ members, v = .obj members) →
      ∀ w, coerceAny? v types = some w → w = v) := by
  refine ⟨fun w h => ?_, ?_, fun hnone w => ?_, coerceAny?_eq_none_iff_forall, fun hv w h => ?_⟩
  · obtain ⟨t, ht, hadmits⟩ := exists_admits_of_coerceAny? h
    exact ⟨⟨t, ht, hadmits⟩, coerceAny?_of_admits ht hadmits⟩
  · rintro ⟨t, ht, hadmits⟩
    exact coerceAny?_of_admits ht hadmits
  · rw [coerceAny?_of_not_admits hnone, List.findSome?_eq_some_iff]
  · have hscalar : Normalization.isScalar v = false := by
      rcases hv with ⟨items, rfl⟩ | ⟨members, rfl⟩ <;> rfl
    rcases Normalization.eq_or_isScalar_of_coerceAny? h with heq | ⟨hv', -⟩
    · exact heq
    · rw [hscalar] at hv'
      cases hv'

/-! ## Integers as texts -/

/-- An integer has a text, and the text is converted to the very integer where an integer is wanted
and where any number is. -/
theorem coerce?_text_integer (i : Json.Integer) : ∃ s,
    coerce? (.num (.int i)) .string = some (.str s) ∧
    coerce? (.str s) .integer = some (.num (.int i)) ∧
    coerce? (.str s) .number = some (.num (.int i)) := by
  have hread := NumberText.read?_toString i
  refine ⟨toString i.val, rfl, ?_, ?_⟩
  · show ((NumberText.read? (toString i.val)).bind toInteger?).map Json.num = _
    rw [hread]
    rfl
  · show (NumberText.read? (toString i.val)).map Json.num = _
    rw [hread]
    rfl

end Coercion

end HttpContract
