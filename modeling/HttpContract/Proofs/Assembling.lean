import HttpContract.Proofs.Validation
import HttpContract.Proofs.Writing

/-!
# The text of what is written

`Rendering.text` puts brackets, commas, keys and values behind one another as it goes through the
value, and `Rendering.write` builds the document. They stop at the same errors, and where they do
not stop, the text has grown by the compact text of the document (`text_eq`). So the text written
for a value is that of the document rendered for it (`Engine.stringify_eq`).
-/

namespace HttpContract

namespace Json

theorem renderItems_eq (xs : List Json) : renderItems xs = ",".intercalate (xs.map render) := by
  induction xs with
  | nil => rfl
  | cons x rest ih =>
    cases rest with
    | nil => simp [renderItems]
    | cons y others =>
      rw [renderItems, ih]
      · simp
      · simp

/-- The compact text of a member. -/
def renderMember (m : String × Json) : String := quote m.1 ++ ":" ++ m.2.render

theorem renderMembers_eq (ms : Fields Json) :
    renderMembers ms = ",".intercalate (ms.map renderMember) := by
  induction ms with
  | nil => rfl
  | cons m rest ih =>
    cases rest with
    | nil => simp [renderMembers, renderMember]
    | cons y others =>
      rw [renderMembers, ih]
      · simp [renderMember]
      · simp

end Json

namespace Rendering

open Normalization

variable {e : Engine}

/-! ## Entries one after the other -/

/-- The texts of entries, with a comma before each of them but the first. -/
def listed : (first : Bool) → List String → String
  | _, [] => ""
  | first, t :: rest => comma first "" ++ t ++ listed false rest

theorem comma_eq (first : Bool) (out : String) : comma first out = out ++ comma first "" := by
  cases first with
  | true => exact String.append_empty.symm
  | false => simp [comma]

theorem intercalate_cons (t : String) (rest : List String) :
    ",".intercalate (t :: rest) = t ++ listed false rest := by
  induction rest generalizing t with
  | nil => simp [listed]
  | cons u others ih =>
    rw [String.intercalate_cons_cons, ih, listed]
    simp [comma, String.append_assoc]

theorem listed_true (texts : List String) : listed true texts = ",".intercalate texts := by
  cases texts with
  | nil => rfl
  | cons t rest =>
    rw [intercalate_cons, listed]
    simp [comma]

/-- An outcome, with its text behind what is written already. -/
def behind {α : Type} (out : String) (print : α → String) (r : Outcome α) : Outcome String :=
  r.map (fun r => r.map (fun x => out ++ print x))

/-- If every entry writes a comma and its text, the entries write their texts with commas. -/
theorem entriesText_eq {α β : Type} {put : Bool → α → String → Outcome String}
    {write : α → Outcome β} {print : β → String}
    (hput : ∀ first x out, put first x out = behind (comma first out) print (write x)) :
    ∀ (xs : List α) (first : Bool) (out : String), entriesText put first xs out =
      behind out (fun ys => listed first (ys.map print)) (sequence write xs) := by
  intro xs
  induction xs with
  | nil =>
    intro first out
    simp [entriesText, sequence, behind, listed, Except.map]
  | cons x rest ih =>
    intro first out
    rw [entriesText, sequence, hput]
    cases write x with
    | none => rfl
    | some r =>
      cases r with
      | error err => rfl
      | ok y =>
        -- the rest is written behind the comma and the text of this entry
        have hrest := ih false (comma first out ++ print y)
        refine hrest.trans ?_
        cases sequence write rest with
        | none => rfl
        | some r =>
          cases r with
          | error err => rfl
          | ok ys =>
            simp only [behind, Option.map_some, Except.map, List.map_cons, listed]
            rw [comma_eq first out]
            simp only [String.append_assoc]

section

variable {put : Node → String → Json → String → Outcome String}
  {write : Node → String → Json → Outcome Json}
  (hput : ∀ n path v out, put n path v out = behind out Json.render (write n path v))
include hput

theorem memberText_eq (path : String) (first : Bool) (m : String × Option Node × Json)
    (out : String) : memberText put path first m out =
      behind (comma first out) Json.renderMember (member write path m) := by
  rcases m with ⟨key, n?, v⟩
  cases n? with
  | none => simp [memberText, member, behind, writeRaw, writeKey, Json.renderMember, Except.map,
      String.append_assoc]
  | some n =>
    rw [memberText, member, hput]
    cases write n (Json.Pointer.child path key) v with
    | none => rfl
    | some r =>
      cases r with
      | error err => rfl
      | ok x => simp [behind, writeKey, Json.renderMember, Except.map, String.append_assoc]

theorem objectText_eq (s : Shape) (path : String) (members : Fields Json) (out : String) :
    objectText put s path members out = behind out Json.render (object write s path members) := by
  unfold objectText object
  split
  · rfl
  · rw [entriesText_eq (memberText_eq hput path)]
    cases sequence (member write path) (s.declaredMembers members ++ s.otherMembers members) with
    | none => rfl
    | some r =>
      cases r with
      | error err => rfl
      | ok written =>
        simp [behind, Except.map, Json.render, Json.renderMembers_eq, listed_true,
          String.append_assoc]

theorem itemText_eq (p : Plan Node) (path : String) (first : Bool) (m : Nat × Json)
    (out : String) : itemText put p path first m out =
      behind (comma first out) Json.render (item write p path m) := by
  unfold itemText item
  cases (p.leading[m.1]?).or p.items with
  | some n => exact hput n _ m.2 _
  | none => rfl

theorem listText_eq (p : Plan Node) (path : String) (items : List Json) (out : String) :
    listText put p path items out = behind out Json.render (list write p path items) := by
  unfold listText list
  rw [entriesText_eq (itemText_eq hput p path)]
  cases sequence (item write p path) ((List.range items.length).zip items) with
  | none => rfl
  | some r =>
    cases r with
    | error err => rfl
    | ok written =>
      simp [behind, Except.map, Json.render, Json.renderItems_eq, listed_true, String.append_assoc]

end

theorem text_of_reference {n : Node} (hn : ∀ p, n ≠ .plan p) (fuel : Nat) (path : String)
    (v : Json) (out : String) :
    text e (fuel + 1) n path v out =
      match e.resolve? n with
      | some s => text e fuel s.root path v out
      | none => some (.ok (writeRaw v out)) := by
  cases n with
  | plan p => exact absurd rfl (hn p)
  | inline root evaluator source => rfl
  | deferred handle => rfl

/-- With any number of steps, what is written is the compact text of the document. -/
theorem text_eq (fuel : Nat) : ∀ (n : Node) (path : String) (v : Json) (out : String),
    text e fuel n path v out = behind out Json.render (write e fuel n path v) := by
  induction fuel with
  | zero => exact fun _ _ _ _ => rfl
  | succ fuel ih =>
    intro n path v out
    by_cases hn : ∃ p, n = .plan p
    · rcases hn with ⟨p, rfl⟩
      simp only [text, write]
      -- both convert the value first, and then go by what it is
      split
      · rfl
      · next members _ =>
        cases collect e (fuel + 1) (.plan p) Shape.empty with
        | none => rfl
        | some shape =>
          dsimp only
          split
          · exact objectText_eq ih shape path members out
          · rfl
      · next items _ =>
        split
        · rfl
        · exact listText_eq ih p path items out
      · rfl
    · have hplan : ∀ p, n ≠ .plan p := fun p hp => hn ⟨p, hp⟩
      rw [text_of_reference hplan, write_of_reference hplan]
      cases e.resolve? n with
      | none => rfl
      | some s => exact ih s.root path v out

theorem text_empty (fuel : Nat) (n : Node) (path : String) (v : Json) :
    text e fuel n path v "" = (write e fuel n path v).map (fun r => r.map Json.render) := by
  rw [text_eq]
  simp only [behind, String.empty_append]

/-! ## More steps -/

theorem sequence_mono {α β : Type} {f g : α → Outcome β}
    (hfg : ∀ x r, f x = some r → g x = some r) :
    ∀ (xs : List α) (r : Except RenderError (List β)), sequence f xs = some r →
      sequence g xs = some r := by
  intro xs
  induction xs with
  | nil => exact fun _ h => h
  | cons x rest ih =>
    intro r h
    rw [sequence] at h ⊢
    cases hx : f x with
    | none => simp [hx] at h
    | some first =>
      rw [hfg x first hx]
      rw [hx] at h
      cases first with
      | error err => exact h
      | ok y =>
        dsimp only at h ⊢
        cases hrest : sequence f rest with
        | none => simp [hrest] at h
        | some others =>
          rw [ih others hrest]
          rw [hrest] at h
          exact h

section

variable {f g : Node → String → Json → Outcome Json}
  (hfg : ∀ n path v r, f n path v = some r → g n path v = some r)
include hfg

theorem object_mono {s : Shape} {path : String} {members : Fields Json}
    {r : Except RenderError Json} (h : object f s path members = some r) :
    object g s path members = some r := by
  unfold object at h ⊢
  split
  · next hmissing => simpa [hmissing] using h
  · next hmissing =>
    rw [hmissing] at h
    rcases Option.map_eq_some_iff.mp h with ⟨written, hwritten, hr⟩
    refine Option.map_eq_some_iff.mpr ⟨written, sequence_mono ?_ _ _ hwritten, hr⟩
    rintro ⟨key, n?, v⟩ r hm
    cases n? with
    | none => exact hm
    | some n =>
      rcases Option.map_eq_some_iff.mp hm with ⟨x, hx, hr⟩
      exact Option.map_eq_some_iff.mpr ⟨x, hfg n _ v x hx, hr⟩

theorem list_mono {p : Plan Node} {path : String} {items : List Json}
    {r : Except RenderError Json} (h : list f p path items = some r) :
    list g p path items = some r := by
  rcases Option.map_eq_some_iff.mp h with ⟨written, hwritten, hr⟩
  refine Option.map_eq_some_iff.mpr ⟨written, sequence_mono ?_ _ _ hwritten, hr⟩
  intro m r hm
  unfold item at hm ⊢
  split
  · next n hn =>
    rw [hn] at hm
    exact hfg n _ m.2 r hm
  · next hn =>
    rw [hn] at hm
    exact hm

end

/-- More steps do not change the outcome of rendering. -/
theorem write_mono : ∀ (fuel fuel' : Nat) (n : Node) (path : String) (v : Json)
    (r : Except RenderError Json), fuel ≤ fuel' → write e fuel n path v = some r →
      write e fuel' n path v = some r := by
  intro fuel
  induction fuel with
  | zero =>
    intro fuel' n path v r _ h
    simp [write] at h
  | succ fuel ih =>
    intro fuel' n path v r hle h
    obtain ⟨fuel', rfl⟩ : ∃ more, fuel' = more + 1 := ⟨fuel' - 1, by omega⟩
    have hle : fuel ≤ fuel' := by omega
    have hmore := fun n path v r => ih fuel' n path v r hle
    by_cases hn : ∃ p, n = .plan p
    · rcases hn with ⟨p, rfl⟩
      simp only [write] at h ⊢
      generalize (if p.types.isEmpty then some v else coerceAny? v p.types) = value? at h ⊢
      cases value? with
      | none => exact h
      | some u =>
        cases u with
        | obj members =>
          dsimp only at h ⊢
          cases hshape : collect e (fuel + 1) (.plan p) Shape.empty with
          | none => simp [hshape] at h
          | some shape =>
            rw [collect_mono _ (fuel' + 1) _ _ _ (by omega) hshape]
            rw [hshape] at h
            dsimp only at h ⊢
            split
            · next hdeclared =>
              rw [if_pos hdeclared] at h
              exact object_mono hmore h
            · next hdeclared =>
              rw [if_neg hdeclared] at h
              exact h
        | arr items =>
          dsimp only at h ⊢
          split
          · next hnone =>
            rw [if_pos hnone] at h
            exact h
          · next hnone =>
            rw [if_neg hnone] at h
            exact list_mono hmore h
        | _ => exact h
    · have hplan : ∀ p, n ≠ .plan p := fun p hp => hn ⟨p, hp⟩
      rw [write_of_reference hplan] at h ⊢
      cases hs : e.resolve? n with
      | none => simpa [hs] using h
      | some s =>
        rw [hs] at h
        exact hmore s.root path v r h

end Rendering

/-- The text written for a value is that of the document which is rendered. -/
theorem Engine.stringify_eq (e : Engine) (s : CompiledSchema) (v : Json) :
    e.stringify s v = (e.render s v).map Json.render := by
  unfold stringify render
  simp only [Rendering.text_empty]
  rw [firstOutcome_map (fun fuel fuel' r hle h =>
    Rendering.write_mono fuel fuel' s.root "" v r hle h)]
  cases firstOutcome (fun fuel => Rendering.write e fuel s.root "" v) (e.budget s v) with
  | none => rfl
  | some outcome => rfl

end HttpContract
