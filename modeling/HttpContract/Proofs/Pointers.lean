import Mathlib
import HttpContract.Json.Pointer
import HttpContract.Proofs.Numerals
import HttpContract.Proofs.Places
import HttpContract.Proofs.Sorted

/-!
# Pointers that lead somewhere

Whoever walks down a document and writes down the way appends a token to a pointer at every step.
`Leads` says so of a pointer that was begun anywhere: going on from a base, it leads through a
document to a part of it. Reading such a pointer finds that part again, whatever slashes and tildes
there are in the keys (`exists_resolve?_of_leads`). It takes three facts: the written tokens are told
apart at their slashes (`tokens?_written`), they are read as they were before they were written
(`unescape_escape`), and in a document whose objects list no key twice they lead the same way
(`follow?_of_within`).
-/

namespace HttpContract

/-- The token of a step. -/
def Step.token : Step → String
  | .key name => name
  | .index i => toString i

namespace Json.Pointer

/-! ## Building pointers -/

/-- From `base`, where the document `v` stands, the pointer leads on to `x`. -/
inductive Leads : (v : Json) → (base pointer : String) → (x : Json) → Prop where
  | here {v : Json} {base : String} : Leads v base base v
  | member {members : Fields Json} {key base pointer : String} {v x : Json}
      (hv : (key, v) ∈ members) (h : Leads v (child base key) pointer x) :
      Leads (.obj members) base pointer x
  | item {items : List Json} {i : Nat} {base pointer : String} {v x : Json}
      (hv : items[i]? = some v) (h : Leads v (childIndex base i) pointer x) :
      Leads (.arr items) base pointer x

theorem child_append (front base token : String) :
    child (front ++ base) token = front ++ child base token := by
  unfold child
  rw [String.append_assoc]

/-- Where a document stands does not matter for the way through it. -/
theorem Leads.append {v x : Json} {base pointer : String} (front : String)
    (h : Leads v base pointer x) : Leads v (front ++ base) (front ++ pointer) x := by
  induction h with
  | here => exact .here
  | member hv _ ih =>
    rw [← child_append] at ih
    exact .member hv ih
  | item hv _ ih =>
    unfold childIndex at ih
    rw [← child_append] at ih
    exact .item hv ih

/-! ## Written steps -/

/-- Steps as they are written in a pointer. -/
def written (steps : List Step) : List Char :=
  steps.flatMap (fun step => '/' :: escape step.token.toList)

/-- A pointer that leads on from a base consists of the base and the written steps. -/
theorem exists_within_of_leads {v x : Json} {base pointer : String} (h : Leads v base pointer x) :
    ∃ steps, v.Within steps x ∧ pointer = base ++ String.ofList (written steps) := by
  -- one step more, whatever its token, is written between the base and the other steps
  have hstep : ∀ (base : String) (step : Step) (steps : List Step),
      child base step.token ++ String.ofList (written steps) =
        base ++ String.ofList (written (step :: steps)) := by
    intro base step steps
    unfold child
    rw [String.append_assoc, ← String.ofList_append]
    rfl
  induction h with
  | here => exact ⟨[], .here, String.append_empty.symm⟩
  | @member members key base _ _ _ hv _ ih =>
    obtain ⟨steps, hwithin, rfl⟩ := ih
    exact ⟨.key key :: steps, .member hv hwithin, hstep base (.key key) steps⟩
  | @item items i base _ _ _ hv _ ih =>
    obtain ⟨steps, hwithin, rfl⟩ := ih
    exact ⟨.index i :: steps, .item hv hwithin, hstep base (.index i) steps⟩

/-! ## Reading pointers -/

theorem not_mem_escape (cs : List Char) : '/' ∉ escape cs := by
  induction cs with
  | nil => simp [escape]
  | cons c rest ih =>
    unfold escape
    split
    · simpa using ih
    · split
      · simpa using ih
      · next hc =>
        intro hmem
        rcases List.mem_cons.mp hmem with heq | hrest
        · exact hc heq.symm
        · exact ih hrest

/-- Written tokens are told apart at the slashes before them. -/
theorem splitOn_written (cs : List Char) (steps : List Step) :
    (escape cs ++ written steps).splitOn '/' =
      escape cs :: steps.map (fun step => escape step.token.toList) := by
  have hslash : ∀ cs, ∀ c ∈ escape cs, (c == '/') = false := by
    intro cs c hc
    rw [beq_eq_false_iff_ne]
    rintro rfl
    exact not_mem_escape cs hc
  unfold List.splitOn
  induction steps generalizing cs with
  | nil =>
    rw [written, List.flatMap_nil, List.append_nil]
    exact List.splitOnP_eq_singleton (hslash cs)
  | cons step rest ih =>
    have hwritten : escape cs ++ written (step :: rest) =
        escape cs ++ '/' :: (escape step.token.toList ++ written rest) := rfl
    rw [hwritten, List.splitOnP_append_cons_of_forall_mem (hslash cs) '/' (by decide), ih]
    rfl

theorem tokens?_written (steps : List Step) :
    tokens? (String.ofList (written steps)) = some (steps.map Step.token) := by
  unfold tokens?
  rw [String.toList_ofList]
  cases steps with
  | nil => rfl
  | cons step rest =>
    have hwritten : written (step :: rest) =
        '/' :: (escape step.token.toList ++ written rest) := rfl
    have hread : ∀ s : Step, String.ofList (unescape (escape s.token.toList)) = s.token := by
      intro s
      rw [unescape_escape, String.ofList_toList]
    simp only [hwritten]
    rw [splitOn_written, List.map_cons, List.map_map, List.map_cons, hread]
    congr 2
    exact List.map_congr_left (fun s _ => hread s)

/-- The digits of an index are read as this index. -/
theorem index?_toString (i : Nat) : index? (toString i) = some i := by
  have hlist : (toString i).toList = Nat.toDigits 10 i := by
    rw [Nat.toString_eq_ofList_toDigits, String.toList_ofList]
  unfold index?
  rw [hlist]
  by_cases hi : i = 0
  · subst hi
    rfl
  · have hhead := Parser.head?_toDigits i hi
    have hdigits : ∀ c ∈ Nat.toDigits 10 i, c.isDigit = true :=
      fun c hc => Parser.isDigit_of_mem_toDigits hc
    cases hchars : Nat.toDigits 10 i with
    | nil => exact absurd hchars Nat.toDigits_ne_nil
    | cons c rest =>
      rw [hchars] at hhead hdigits
      have hc : c ≠ '0' := by
        intro heq
        exact hhead (congrArg some heq)
      split
      · next heq => exact absurd (List.cons.inj heq).1 hc
      · next c' rest' _ heq =>
        rw [← heq, if_pos ⟨(List.cons.inj heq).1 ▸ hc, List.all_eq_true.mpr hdigits⟩]
        exact Nat.toNat?_repr i
      · next heq => cases heq

/-- Where no object lists a key twice, tokens lead where the steps lead. -/
theorem follow?_of_within {v x : Json} {steps : List Step} (hv : v.Ordered)
    (h : v.Within steps x) : follow? v (steps.map Step.token) = some x := by
  induction h with
  | here => rfl
  | @member members key v _ path hmem _ ih =>
    have hget : Fields.get? members key = some v := Fields.get?_of_mem hv.1 hmem
    rw [List.map_cons, follow?, step?, Step.token, hget]
    exact ih (ordered_of_mem hv.2 hmem)
  | @item items i v _ path hi _ ih =>
    rw [List.map_cons, follow?, step?, Step.token, index?_toString, Option.bind_some, hi]
    exact ih (ordered_of_mem_items hv (List.mem_of_getElem? hi))

/-- A pointer that leads on from a base goes on with a pointer that is resolved in the document. -/
theorem exists_resolve?_of_leads {v x : Json} {base pointer : String} (hv : v.Ordered)
    (h : Leads v base pointer x) : ∃ rest, pointer = base ++ rest ∧ resolve? v rest = some x := by
  obtain ⟨steps, hwithin, rfl⟩ := exists_within_of_leads h
  refine ⟨_, rfl, ?_⟩
  unfold resolve?
  rw [tokens?_written, Option.bind_some]
  exact follow?_of_within hv hwithin

/-- A pointer that was begun at the root is resolved. -/
theorem resolve?_of_leads {v x : Json} {pointer : String} (hv : v.Ordered)
    (h : Leads v "" pointer x) : resolve? v pointer = some x := by
  obtain ⟨rest, hrest, hresolve⟩ := exists_resolve?_of_leads hv h
  rw [String.empty_append] at hrest
  rw [hrest]
  exact hresolve

end Json.Pointer

end HttpContract
