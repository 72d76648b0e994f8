import HttpContract.Proofs.Numerals
import HttpContract.Proofs.Pointwise
import HttpContract.Proofs.Sorted

/-!
# Documents read from their own texts

What a reader makes of the text of a document is the document with every number replaced by what its
text is taken for (`Json.reread?`), as long as lists and objects are not nested too deeply
(`Json.parse_render`). So a document is read back as it is exactly when each of its numbers is
(`Json.parse_render_eq_iff`). Integers always are (`Json.parse_text_int`); of the floating point
numbers some are taken for a neighbour. Whatever is read is ordered (`Json.ordered_of_parse`).
-/

namespace HttpContract.Json

open Utf8

/-- The document that the text of a number is taken for. -/
def Number.reread? (n : Number) : Option Json := (parse (encode n.text)).toOption

mutual

/-- The document with each number as its text is read. -/
def reread? : Json → Option Json
  | .num n => n.reread?
  | .arr xs => (rereadItems? xs).map .arr
  | .obj ms => (rereadMembers? ms).map .obj
  | v => some v
termination_by structural v => v

/-- The items with their numbers read again. -/
def rereadItems? : List Json → Option (List Json)
  | [] => some []
  | x :: xs => (reread? x).bind (fun y => (rereadItems? xs).map (y :: ·))
termination_by structural v => v

/-- The members with their numbers read again. -/
def rereadMembers? : List (String × Json) → Option (List (String × Json))
  | [] => some []
  | (k, x) :: xs => (reread? x).bind (fun y => (rereadMembers? xs).map ((k, y) :: ·))
termination_by structural v => v

end

mutual

/-- Every number of the document is read from its text as this number. -/
def Rereadable : Json → Prop
  | .num n => parse (encode n.text) = .ok (.num n)
  | .arr xs => RereadableItems xs
  | .obj ms => RereadableMembers ms
  | _ => True
termination_by structural v => v

/-- Every number of the items is read from its text as this number. -/
def RereadableItems : List Json → Prop
  | [] => True
  | x :: xs => Rereadable x ∧ RereadableItems xs
termination_by structural v => v

/-- Every number of the members' values is read from its text as this number. -/
def RereadableMembers : List (String × Json) → Prop
  | [] => True
  | (_, x) :: xs => Rereadable x ∧ RereadableMembers xs
termination_by structural v => v

end

theorem toOption_map {ε α β : Type} (f : α → β) (r : Except ε α) :
    (r.map f).toOption = r.toOption.map f := by
  cases r <;> rfl

mutual

/-- Only numbers change. -/
theorem reread?_eq_self_iff : ∀ v : Json, v.reread? = some v ↔ v.Rereadable
  | .null => by simp [reread?, Rereadable]
  | .bool _ => by simp [reread?, Rereadable]
  | .str _ => by simp [reread?, Rereadable]
  | .num n => by
    rw [reread?, Rereadable, Number.reread?, toOption_eq_some_iff]
  | .arr xs => by
    rw [reread?, Rereadable, ← rereadItems?_eq_self_iff xs]
    simp
  | .obj ms => by
    rw [reread?, Rereadable, ← rereadMembers?_eq_self_iff ms]
    simp
termination_by structural v => v

theorem rereadItems?_eq_self_iff : ∀ xs : List Json, rereadItems? xs = some xs ↔ RereadableItems xs
  | [] => by simp [rereadItems?, RereadableItems]
  | x :: xs => by
    rw [rereadItems?, RereadableItems, ← reread?_eq_self_iff x, ← rereadItems?_eq_self_iff xs]
    simp [Option.bind_eq_some_iff]
termination_by structural v => v

theorem rereadMembers?_eq_self_iff : ∀ ms : Fields Json,
    rereadMembers? ms = some ms ↔ RereadableMembers ms
  | [] => by simp [rereadMembers?, RereadableMembers]
  | (k, x) :: xs => by
    rw [rereadMembers?, RereadableMembers, ← reread?_eq_self_iff x, ← rereadMembers?_eq_self_iff xs]
    simp [Option.bind_eq_some_iff]
termination_by structural v => v

end

namespace Parser

/-! ## Steps of the reader -/

variable {fuel levels : Nat}

theorem beq_eq_false_of_isDigit {b c : UInt8} (hb : isDigit b = true) (hc : isDigit c = false) :
    (b == c) = false := by
  rw [beq_eq_false_iff_ne]
  rintro rfl
  rw [hb] at hc
  cases hc

/-- Bytes that begin with none of the blanks. -/
theorem skipBlanks_cons {b : UInt8} (h : isBlank b = false) (bytes : List UInt8) :
    skipBlanks (b :: bytes) = b :: bytes := by
  simp [skipBlanks, h]

theorem isBlank_of_isDigit {b : UInt8} (hb : isDigit b = true) : isBlank b = false := by
  simp only [isBlank, beq_eq_false_of_isDigit hb (c := 0x20) rfl,
    beq_eq_false_of_isDigit hb (c := 0x0A) rfl, beq_eq_false_of_isDigit hb (c := 0x0D) rfl,
    beq_eq_false_of_isDigit hb (c := 0x09) rfl, Bool.or_false]

theorem value_digit {b : UInt8} (hb : isDigit b = true) (bytes : List UInt8) :
    value (fuel + 1) levels (b :: bytes) =
      (number false (b :: bytes)).map (fun (n, r) => (.num n, r)) := by
  rw [value, skipBlanks_cons (isBlank_of_isDigit hb)]
  simp only [beq_eq_false_of_isDigit hb (c := 0x6E) rfl, beq_eq_false_of_isDigit hb (c := 0x74) rfl,
    beq_eq_false_of_isDigit hb (c := 0x66) rfl, beq_eq_false_of_isDigit hb (c := 0x2D) rfl, hb,
    Bool.false_eq_true, if_false, if_true]

/-- The first byte of a document tells it from a blank and from the end of a list. -/
def Opens (bytes : List UInt8) : Prop :=
  ∃ b more, bytes = b :: more ∧ isBlank b = false ∧ b ≠ 0x5D

theorem items_first (acc : List Json) {bytes : List UInt8} (h : Opens bytes) :
    items (fuel + 1) levels true acc bytes = item fuel levels acc bytes := by
  rcases h with ⟨b, more, rfl, hblank, hclose⟩
  rw [items, skipBlanks_cons hblank]
  simp only [beq_eq_false_iff_ne.mpr hclose, Bool.false_eq_true, if_false, if_true]

theorem items_next (acc : List Json) {bytes : List UInt8} (h : Opens bytes) :
    items (fuel + 1) levels false acc (0x2C :: bytes) = item fuel levels acc bytes := by
  rcases h with ⟨b, more, rfl, hblank, hclose⟩
  rw [items, skipBlanks_cons rfl]
  dsimp only
  rw [if_neg (by decide), if_neg (by decide), if_pos (by decide), skipBlanks_cons hblank]
  split
  · next heq => cases heq
  · next heq => exact absurd (List.cons.inj heq).1 hclose
  · rfl

theorem toOption_item (acc : List Json) (bytes : List UInt8) :
    (item (fuel + 1) levels acc bytes).toOption = (value fuel levels bytes).toOption.bind
      (fun x => (items fuel levels false (x.1 :: acc) x.2).toOption) := by
  rw [item]
  cases value fuel levels bytes <;> rfl

theorem toOption_member {acc : Fields Json} {key : String} {bytes rest : List UInt8}
    (h : stringBody [] bytes = .ok (key, 0x3A :: rest)) :
    (member (fuel + 1) levels acc bytes).toOption = (value fuel levels rest).toOption.bind
      (fun x => (members fuel levels false (Fields.insert acc key x.1) x.2).toOption) := by
  rw [member, h]
  dsimp only
  rw [skipBlanks_cons rfl]
  cases hvalue : value fuel levels rest with
  | error e => simp only [hvalue, Except.toOption, Option.bind_none]
  | ok x => simp only [hvalue, Except.toOption, Option.bind_some]

theorem members_first (acc : Fields Json) (bytes : List UInt8) :
    members (fuel + 1) levels true acc (0x22 :: bytes) = member fuel levels acc bytes := by
  rw [members, skipBlanks_cons rfl]
  rfl

theorem members_next (acc : Fields Json) (bytes : List UInt8) :
    members (fuel + 1) levels false acc (0x2C :: 0x22 :: bytes) = member fuel levels acc bytes := by
  rw [members, skipBlanks_cons rfl]
  dsimp only
  rw [skipBlanks_cons rfl]
  rfl

/-! ## The texts of documents -/

theorem encode_render_null : encode (render .null) = [0x6E, 0x75, 0x6C, 0x6C] :=
  encode_ofList ['n', 'u', 'l', 'l']

theorem encode_render_true : encode (render (.bool true)) = [0x74, 0x72, 0x75, 0x65] :=
  encode_ofList ['t', 'r', 'u', 'e']

theorem encode_render_false : encode (render (.bool false)) = [0x66, 0x61, 0x6C, 0x73, 0x65] :=
  encode_ofList ['f', 'a', 'l', 's', 'e']

theorem encode_render_arr (xs : List Json) :
    encode (render (.arr xs)) = 0x5B :: (encode (renderItems xs) ++ [0x5D]) := by
  have hopen : encode "[" = [0x5B] := encode_ofList ['[']
  have hclose : encode "]" = [0x5D] := encode_ofList [']']
  rw [render, encode_append, encode_append, hopen, hclose]
  rfl

theorem encode_render_obj (ms : Fields Json) :
    encode (render (.obj ms)) = 0x7B :: (encode (renderMembers ms) ++ [0x7D]) := by
  have hopen : encode "\x7b" = [0x7B] := encode_ofList ['\x7b']
  have hclose : encode "\x7d" = [0x7D] := encode_ofList ['\x7d']
  rw [render, encode_append, encode_append, hopen, hclose]
  rfl

theorem encode_renderItems (x y : Json) (ys : List Json) : encode (renderItems (x :: y :: ys)) =
    encode x.render ++ 0x2C :: encode (renderItems (y :: ys)) := by
  have hcomma : encode "," = [0x2C] := encode_ofList [',']
  rw [renderItems, encode_append, encode_append, hcomma, List.append_assoc]
  · rfl
  · simp

theorem encode_renderMembers_single (k : String) (x : Json) : encode (renderMembers [(k, x)]) =
    encode (quote k) ++ 0x3A :: encode x.render := by
  have hcolon : encode ":" = [0x3A] := encode_ofList [':']
  rw [renderMembers, encode_append, encode_append, hcolon, List.append_assoc]
  rfl

theorem encode_renderMembers (k : String) (x : Json) (m : String × Json) (ms : Fields Json) :
    encode (renderMembers ((k, x) :: m :: ms)) =
      encode (quote k) ++
        0x3A :: (encode x.render ++ 0x2C :: encode (renderMembers (m :: ms))) := by
  have hcolon : encode ":" = [0x3A] := encode_ofList [':']
  have hcomma : encode "," = [0x2C] := encode_ofList [',']
  rw [renderMembers, encode_append, encode_append, encode_append, encode_append, hcolon, hcomma]
  · simp only [List.append_assoc]
    rfl
  · simp

theorem Opens.append {bytes : List UInt8} (h : Opens bytes) (rest : List UInt8) :
    Opens (bytes ++ rest) := by
  rcases h with ⟨b, more, rfl, hb⟩
  exact ⟨b, more ++ rest, rfl, hb⟩

theorem Opens.length_pos {bytes : List UInt8} (h : Opens bytes) : 0 < bytes.length := by
  rcases h with ⟨b, more, rfl, -⟩
  exact Nat.succ_pos _

theorem opens_render (v : Json) : Opens (encode v.render) := by
  cases v with
  | null => exact ⟨0x6E, [0x75, 0x6C, 0x6C], encode_render_null, by decide⟩
  | bool b =>
    cases b with
    | true => exact ⟨0x74, [0x72, 0x75, 0x65], encode_render_true, by decide⟩
    | false => exact ⟨0x66, [0x61, 0x6C, 0x73, 0x65], encode_render_false, by decide⟩
  | num n =>
    rcases exists_numeral n with ⟨negative, bytes, hbytes, whole, _, _, rfl, hwhole, -⟩
    rw [render, hbytes]
    split
    · exact ⟨0x2D, _, rfl, by decide⟩
    · rcases whole with - | ⟨b, others⟩
      · exact absurd rfl hwhole.nonempty
      have hb := hwhole.all b List.mem_cons_self
      refine ⟨b, _, rfl, ?_, ?_⟩
      · exact isBlank_of_isDigit hb
      · rintro rfl
        cases hb
  | str s =>
    rcases exists_encode_quote s with ⟨body, hbody, -⟩
    rw [render, hbody]
    exact ⟨0x22, body, rfl, by decide⟩
  | arr xs =>
    rw [encode_render_arr]
    exact ⟨0x5B, _, rfl, by decide⟩
  | obj ms =>
    rw [encode_render_obj]
    exact ⟨0x7B, _, rfl, by decide⟩

theorem opens_renderItems (x : Json) (xs : List Json) : Opens (encode (renderItems (x :: xs))) := by
  cases xs with
  | nil => exact opens_render x
  | cons y ys =>
    rw [encode_renderItems]
    exact (opens_render x).append _

/-- The text of a number is read as the number that it is taken for, whatever comes behind it. -/
theorem value_text (n : Number) {rest : List UInt8} (hrest : Delimited rest) :
    (value (fuel + 1) levels (encode n.text ++ rest)).toOption =
      n.reread?.map (fun w => (w, rest)) := by
  rcases exists_numeral n with ⟨negative, bytes, hbytes, hnumeral⟩
  -- behind its sign the number is read by `number`
  have hvalue : ∀ fuel levels rest, (value (fuel + 1) levels (encode n.text ++ rest)).toOption =
      ((number negative (bytes ++ rest)).map (fun (m, r) => (Json.num m, r))).toOption := by
    intro fuel levels rest
    rw [hbytes]
    cases negative with
    | true =>
      rw [if_pos rfl, List.cons_append, value, skipBlanks_cons rfl]
      rfl
    | false =>
      rcases hnumeral with ⟨whole, fraction, exponent, rfl, hwhole, -⟩
      rcases whole with - | ⟨b, others⟩
      · exact absurd rfl hwhole.nonempty
      · exact congrArg Except.toOption (value_digit (hwhole.all b List.mem_cons_self) _)
  rcases settled_number negative hnumeral with ⟨r, hr⟩
  have hread : ∀ fuel levels rest, Delimited rest →
      (value (fuel + 1) levels (encode n.text ++ rest)).toOption =
        r.map (fun m => (Json.num m, rest)) := by
    intro fuel levels rest hrest
    have h := hr rest hrest
    rw [hvalue]
    cases hnumber : number negative (bytes ++ rest) with
    | error e =>
      rw [hnumber] at h
      cases r with
      | none => rfl
      | some m => cases h
    | ok x =>
      rw [hnumber] at h
      cases r with
      | none => cases h
      | some m =>
        cases h
        rfl
  -- alone, the text is a document
  have hreread : n.reread? = r.map Json.num := by
    have h := hread (3 * (encode n.text).length + 2) levelLimit [] delimited_nil
    rw [List.append_nil] at h
    unfold Number.reread? parse document
    cases hdocument : value (3 * (encode n.text).length + 3) levelLimit (encode n.text) with
    | error e =>
      rw [hdocument] at h
      cases r with
      | none => rfl
      | some m => cases h
    | ok x =>
      rw [hdocument] at h
      cases r with
      | none => cases h
      | some m =>
        cases h
        rfl
  rw [hread fuel levels rest hrest, hreread]
  cases r <;> rfl

/-! ## Reading documents -/

theorem value_list (bytes : List UInt8) : value (fuel + 1) (levels + 2) (0x5B :: bytes) =
    (items fuel (levels + 1) true [] bytes).map (fun (xs, r) => (.arr xs, r)) := by
  rw [value, skipBlanks_cons rfl]
  rfl

theorem value_object (bytes : List UInt8) : value (fuel + 1) (levels + 2) (0x7B :: bytes) =
    (members fuel (levels + 1) true [] bytes).map (fun (ms, r) => (.obj ms, r)) := by
  rw [value, skipBlanks_cons rfl]
  rfl

theorem value_tooDeep {b : UInt8} (hb : b = 0x5B ∨ b = 0x7B) (bytes : List UInt8) :
    (value (fuel + 1) 1 (b :: bytes)).toOption = none := by
  rcases hb with rfl | rfl
  all_goals
    rw [value, skipBlanks_cons rfl]
    rfl

theorem items_close (first : Bool) (acc : List Json) (rest : List UInt8) :
    items (fuel + 1) levels first acc (0x5D :: rest) = .ok (acc.reverse, rest) := by
  rw [items, skipBlanks_cons rfl]
  rfl

theorem members_close (first : Bool) (acc : Fields Json) (rest : List UInt8) :
    members (fuel + 1) levels first acc (0x7D :: rest) = .ok (acc, rest) := by
  rw [members, skipBlanks_cons rfl]
  rfl

/-- The reader takes the text of a document for the document with its numbers read again, if it is
not nested too deeply. Twice as many steps as there are bytes suffice. -/
def Reads (v : Json) : Prop :=
  ∀ fuel levels rest, Delimited rest → 2 * (encode v.render).length ≤ fuel →
    (value fuel (levels + 1) (encode v.render ++ rest)).toOption =
      if v.depth ≤ levels then v.reread?.map (fun w => (w, rest)) else none

/-- The same of items up to the end of their list. -/
def ReadsItems (xs : List Json) : Prop :=
  ∀ fuel levels acc rest, 2 * (encode (renderItems xs)).length + 2 ≤ fuel →
    (item fuel (levels + 1) acc (encode (renderItems xs) ++ 0x5D :: rest)).toOption =
      if depthItems xs ≤ levels then (rereadItems? xs).map (fun ys => (acc.reverse ++ ys, rest))
      else none

/-- The same of members up to the end of their object, behind the first quotation mark. -/
def ReadsMembers (ms : Fields Json) : Prop :=
  ∀ fuel levels acc rest body, encode (renderMembers ms) = 0x22 :: body →
    (∀ a ∈ acc, ∀ m ∈ ms, a.1 < m.1) → 2 * (encode (renderMembers ms)).length + 2 ≤ fuel →
    (member fuel (levels + 1) acc (body ++ 0x7D :: rest)).toOption =
      if depthMembers ms ≤ levels then (rereadMembers? ms).map (fun ys => (acc ++ ys, rest))
      else none

theorem readsItems_single {x : Json} (hx : Reads x) : ReadsItems [x] := by
  intro fuel levels acc rest hfuel
  rw [show renderItems [x] = x.render from rfl] at hfuel ⊢
  have hpos := (opens_render x).length_pos
  obtain ⟨fuel, rfl⟩ : ∃ f, fuel = f + 2 := ⟨fuel - 2, by omega⟩
  rw [toOption_item, hx (fuel + 1) levels (0x5D :: rest) (by simp [Delimited]) (by omega)]
  simp only [depthItems, Nat.max_zero, rereadItems?]
  split
  · cases x.reread? with
    | none => rfl
    | some w => simp [items_close, Except.toOption]
  · rfl

theorem readsItems_cons {x y : Json} {ys : List Json} (hx : Reads x) (hys : ReadsItems (y :: ys)) :
    ReadsItems (x :: y :: ys) := by
  intro fuel levels acc rest hfuel
  rw [encode_renderItems] at hfuel ⊢
  rw [List.length_append, List.length_cons] at hfuel
  have hpos := (opens_render x).length_pos
  obtain ⟨fuel, rfl⟩ : ∃ f, fuel = f + 2 := ⟨fuel - 2, by omega⟩
  rw [toOption_item, List.append_assoc, List.cons_append,
    hx (fuel + 1) levels _ (by simp [Delimited]) (by omega), depthItems, rereadItems?]
  by_cases hdepth : x.depth ≤ levels
  · rw [if_pos hdepth]
    cases x.reread? with
    | none => simp
    | some w =>
      have hopens := (opens_renderItems y ys).append (0x5D :: rest)
      have hrest := hys fuel levels (w :: acc) rest (by omega)
      simp only [Option.map_some, Option.bind_some, items_next _ hopens, hrest,
        Nat.max_le, hdepth, true_and]
      split
      · cases rereadItems? (y :: ys) <;> simp
      · rfl
  · rw [if_neg hdepth, if_neg (fun h => hdepth (Nat.le_trans (Nat.le_max_left _ _) h))]
    rfl

theorem insert_eq_append {α : Type} {acc : Fields α} {key : String} (w : α)
    (h : ∀ a ∈ acc, a.1 < key) : Fields.insert acc key w = acc ++ [(key, w)] := by
  induction acc with
  | nil => rfl
  | cons a others ih =>
    rcases a with ⟨k, v⟩
    have hlt : k < key := h (k, v) List.mem_cons_self
    have hne : k ≠ key := by
      rintro rfl
      exact String.lt_irrefl k hlt
    have hnot : ¬ key < k := fun hless => String.lt_irrefl k (String.lt_trans hlt hless)
    rw [Fields.insert, if_neg hne, if_neg hnot, ih (fun x hx => h x (List.mem_cons_of_mem _ hx))]
    rfl

theorem readsMembers_single {k : String} {x : Json} (hx : Reads x) : ReadsMembers [(k, x)] := by
  intro fuel levels acc rest body hbody hacc hfuel
  rcases exists_encode_quote k with ⟨quoted, hquoted, hread⟩
  rw [encode_renderMembers_single, hquoted] at hbody hfuel
  obtain rfl : body = quoted ++ 0x3A :: encode x.render := (List.cons.inj hbody).2.symm
  simp only [List.length_append, List.length_cons, List.cons_append] at hfuel
  obtain ⟨fuel, rfl⟩ : ∃ f, fuel = f + 2 := ⟨fuel - 2, by omega⟩
  have hkey := hread (0x3A :: (encode x.render ++ 0x7D :: rest))
  rw [List.append_assoc, List.cons_append, toOption_member hkey,
    hx (fuel + 1) levels _ (by simp [Delimited]) (by omega)]
  simp only [depthMembers, Nat.max_zero, rereadMembers?]
  split
  · cases x.reread? with
    | none => rfl
    | some w =>
      have hinsert := insert_eq_append w (fun a ha => hacc a ha (k, x) List.mem_cons_self)
      simp [members_close, Except.toOption, hinsert]
  · rfl

theorem exists_encode_renderMembers (m : String × Json) (ms : Fields Json) :
    ∃ body, encode (renderMembers (m :: ms)) = 0x22 :: body := by
  rcases m with ⟨k, x⟩
  rcases exists_encode_quote k with ⟨quoted, hquoted, -⟩
  cases ms with
  | nil => exact ⟨_, by rw [encode_renderMembers_single, hquoted]; rfl⟩
  | cons m' ms' => exact ⟨_, by rw [encode_renderMembers, hquoted]; rfl⟩

theorem readsMembers_cons {k : String} {x : Json} {m : String × Json} {ms : Fields Json}
    (hordered : Fields.Ordered ((k, x) :: m :: ms)) (hx : Reads x) (hms : ReadsMembers (m :: ms)) :
    ReadsMembers ((k, x) :: m :: ms) := by
  intro fuel levels acc rest body hbody hacc hfuel
  rcases exists_encode_quote k with ⟨quoted, hquoted, hread⟩
  rw [encode_renderMembers, hquoted] at hbody hfuel
  obtain rfl : body = quoted ++ 0x3A :: (encode x.render ++
      0x2C :: encode (renderMembers (m :: ms))) := (List.cons.inj hbody).2.symm
  simp only [List.length_append, List.length_cons, List.cons_append] at hfuel
  obtain ⟨fuel, rfl⟩ : ∃ f, fuel = f + 2 := ⟨fuel - 2, by omega⟩
  rcases exists_encode_renderMembers m ms with ⟨others, hothers⟩
  have hkey := hread (0x3A :: (encode x.render ++
    0x2C :: (encode (renderMembers (m :: ms)) ++ 0x7D :: rest)))
  have hbytes : quoted ++ 0x3A :: (encode x.render ++ 0x2C :: encode (renderMembers (m :: ms))) ++
      0x7D :: rest = quoted ++ 0x3A :: (encode x.render ++
        0x2C :: (encode (renderMembers (m :: ms)) ++ 0x7D :: rest)) := by simp
  rw [hbytes, toOption_member hkey, hx (fuel + 1) levels _ (by simp [Delimited]) (by omega),
    depthMembers, rereadMembers?]
  by_cases hdepth : x.depth ≤ levels
  · rw [if_pos hdepth]
    cases x.reread? with
    | none => simp
    | some w =>
      have hinsert := insert_eq_append w (fun a ha => hacc a ha (k, x) List.mem_cons_self)
      -- the members that are read so far stay before those that follow
      have hbefore : ∀ a ∈ acc ++ [(k, w)], ∀ m' ∈ m :: ms, a.1 < m'.1 := by
        intro a ha m' hm'
        rcases List.mem_append.mp ha with ha | ha
        · exact hacc a ha m' (List.mem_cons_of_mem _ hm')
        · rw [List.mem_singleton.mp ha]
          exact (Fields.ordered_cons_iff.mp hordered).1 m' hm'
      have hrest := hms fuel levels (acc ++ [(k, w)]) rest others hothers hbefore (by omega)
      simp only [Option.map_some, Option.bind_some, hinsert, hothers, List.cons_append,
        members_next, hrest, Nat.max_le, hdepth, true_and]
      split
      · cases rereadMembers? (m :: ms) <;> simp
      · rfl
  · rw [if_neg hdepth, if_neg (fun h => hdepth (Nat.le_trans (Nat.le_max_left _ _) h))]
    rfl

theorem reads_arr {xs : List Json} (h : xs ≠ [] → ReadsItems xs) : Reads (.arr xs) := by
  intro fuel levels rest hrest hfuel
  rw [encode_render_arr] at hfuel ⊢
  simp only [List.length_cons, List.length_append, List.length_nil] at hfuel
  obtain ⟨fuel, rfl⟩ : ∃ f, fuel = f + 2 := ⟨fuel - 2, by omega⟩
  rw [List.cons_append, List.append_assoc, List.singleton_append, depth, reread?]
  cases levels with
  | zero =>
    rw [value_tooDeep (Or.inl rfl), if_neg (Nat.not_succ_le_zero _)]
  | succ levels =>
    rw [value_list]
    have hitems : (items (fuel + 1) (levels + 1) true [] (encode (renderItems xs) ++
        0x5D :: rest)).toOption =
        if depthItems xs ≤ levels then (rereadItems? xs).map (fun ys => (ys, rest)) else none := by
      cases xs with
      | nil =>
        have hempty : encode (renderItems []) = [] := encode_ofList []
        rw [hempty, List.nil_append, items_close]
        simp [depthItems, rereadItems?, Except.toOption]
      | cons x xs =>
        rw [items_first [] ((opens_renderItems x xs).append _),
          h (by simp) fuel levels [] rest (by omega)]
        rfl
    rw [toOption_map, hitems]
    simp only [Nat.add_le_add_iff_right]
    split
    · cases rereadItems? xs <;> rfl
    · rfl

theorem reads_obj {ms : Fields Json} (h : ms ≠ [] → ReadsMembers ms) : Reads (.obj ms) := by
  intro fuel levels rest hrest hfuel
  rw [encode_render_obj] at hfuel ⊢
  simp only [List.length_cons, List.length_append, List.length_nil] at hfuel
  obtain ⟨fuel, rfl⟩ : ∃ f, fuel = f + 2 := ⟨fuel - 2, by omega⟩
  rw [List.cons_append, List.append_assoc, List.singleton_append, depth, reread?]
  cases levels with
  | zero =>
    rw [value_tooDeep (Or.inr rfl), if_neg (Nat.not_succ_le_zero _)]
  | succ levels =>
    rw [value_object]
    have hmembers : (members (fuel + 1) (levels + 1) true [] (encode (renderMembers ms) ++
        0x7D :: rest)).toOption =
        if depthMembers ms ≤ levels then (rereadMembers? ms).map (fun ys => (ys, rest))
        else none := by
      cases ms with
      | nil =>
        have hempty : encode (renderMembers []) = [] := encode_ofList []
        rw [hempty, List.nil_append, members_close]
        simp [depthMembers, rereadMembers?, Except.toOption]
      | cons m ms =>
        rcases exists_encode_renderMembers m ms with ⟨body, hbody⟩
        rw [hbody, List.cons_append, members_first,
          h (by simp) fuel levels [] rest body hbody (by simp) (by omega)]
        rfl
    rw [toOption_map, hmembers]
    simp only [Nat.add_le_add_iff_right]
    split
    · cases rereadMembers? ms <;> rfl
    · rfl

theorem reads_scalar {v : Json} (hdepth : v.depth = 0)
    (h : ∀ fuel levels rest, Delimited rest →
      (value (fuel + 1) levels (encode v.render ++ rest)).toOption =
        v.reread?.map (fun w => (w, rest))) : Reads v := by
  intro fuel levels rest hrest hfuel
  have hpos := (opens_render v).length_pos
  obtain ⟨fuel, rfl⟩ : ∃ f, fuel = f + 1 := ⟨fuel - 1, by omega⟩
  rw [hdepth, if_pos (Nat.zero_le _)]
  exact h fuel (levels + 1) rest hrest

mutual

theorem reads_of_ordered : ∀ v : Json, v.Ordered → Reads v
  | .null, _ => by
    refine reads_scalar rfl (fun fuel levels rest hrest => ?_)
    rw [encode_render_null, List.cons_append, value, skipBlanks_cons rfl]
    rfl
  | .bool true, _ => by
    refine reads_scalar rfl (fun fuel levels rest hrest => ?_)
    rw [encode_render_true, List.cons_append, value, skipBlanks_cons rfl]
    rfl
  | .bool false, _ => by
    refine reads_scalar rfl (fun fuel levels rest hrest => ?_)
    rw [encode_render_false, List.cons_append, value, skipBlanks_cons rfl]
    rfl
  | .num n, _ => reads_scalar rfl (fun fuel levels rest hrest => value_text n hrest)
  | .str s, _ => by
    rcases exists_encode_quote s with ⟨body, hbody, hread⟩
    refine reads_scalar rfl (fun fuel levels rest hrest => ?_)
    rw [render, hbody, List.cons_append, value, skipBlanks_cons rfl]
    dsimp only
    rw [if_neg (by decide), if_neg (by decide), if_neg (by decide), if_neg (by decide),
      if_neg (by decide), if_pos (by decide), hread]
    rfl
  | .arr xs, h => reads_arr (readsItems_of_ordered xs h)
  | .obj ms, h => reads_obj (readsMembers_of_ordered ms h.1 h.2)
termination_by structural v => v

theorem readsItems_of_ordered : ∀ xs : List Json, OrderedItems xs → xs ≠ [] → ReadsItems xs
  | [], _, hne => absurd rfl hne
  | [x], h, _ => readsItems_single (reads_of_ordered x h.1)
  | x :: y :: ys, h, _ => readsItems_cons (reads_of_ordered x h.1)
      (readsItems_of_ordered (y :: ys) h.2 (by simp))
termination_by structural xs => xs

theorem readsMembers_of_ordered : ∀ ms : Fields Json, Fields.Ordered ms → OrderedMembers ms →
    ms ≠ [] → ReadsMembers ms
  | [], _, _, hne => absurd rfl hne
  | [(_, x)], _, h, _ => readsMembers_single (reads_of_ordered x h.1)
  | (_, x) :: m :: ms, hordered, h, _ => readsMembers_cons hordered (reads_of_ordered x h.1)
      (readsMembers_of_ordered (m :: ms) (Fields.ordered_cons_iff.mp hordered).2 h.2 (by simp))
termination_by structural ms => ms

end

end Parser

theorem parse_of_value {bytes : List UInt8} {v : Json}
    (h : Parser.value (3 * bytes.length + 3) Parser.levelLimit bytes = .ok (v, [])) :
    parse bytes = .ok v := by
  unfold parse Parser.document
  rw [h]
  rfl

/-- No bytes are no document. -/
theorem parse_nil_ne (v : Json) : parse [] ≠ .ok v := by
  unfold parse Parser.document
  rw [Parser.value]
  intro h
  cases h

/-- Integers are read back. -/
theorem parse_text_int (i : Integer) :
    parse (encode (Number.int i).text) = .ok (.num (.int i)) := by
  rcases i with ⟨n, hlower, hupper⟩
  refine parse_of_value ?_
  rw [show (Number.int ⟨n, hlower, hupper⟩).text = toString n from rfl]
  have hinteger : Integer.ofInt? n = some ⟨n, hlower, hupper⟩ := dif_pos ⟨hlower, hupper⟩
  cases n with
  | ofNat m =>
    have hm : m < 0x10000000000000000 := Int.ofNat_lt.mp hupper
    have hnumber := Parser.number_toString false hm Parser.delimited_nil
    have hwhole : Parser.wholeNumber false m = .int ⟨Int.ofNat m, hlower, hupper⟩ := by
      unfold Parser.wholeNumber
      rw [show (if false = true then -(m : Int) else m) = Int.ofNat m from rfl, hinteger]
      rfl
    rw [show toString (Int.ofNat m) = toString m from rfl]
    rw [List.append_nil, hwhole] at hnumber
    have hdigits := Parser.leading_toDigits m
    rw [← Parser.encode_toString] at hdigits
    generalize encode (toString m) = bytes at hnumber hdigits
    rcases bytes with - | ⟨b, others⟩
    · exact absurd rfl hdigits.nonempty
    · rw [Parser.value_digit (hdigits.all b List.mem_cons_self), hnumber]
      rfl
  | negSucc m =>
    have hleast : (-0x8000000000000000 : Int) ≤ Int.negSucc m := hlower
    have hm : m + 1 < 0x10000000000000000 := by omega
    have hnumber := Parser.number_toString true hm Parser.delimited_nil
    have hminus : encode "-" = [0x2D] := encode_ofList ['-']
    have hwhole : Parser.wholeNumber true (m + 1) = .int ⟨Int.negSucc m, hlower, hupper⟩ := by
      unfold Parser.wholeNumber
      rw [show (if true = true then -((m + 1 : Nat) : Int) else (m + 1 : Nat)) =
        Int.negSucc m from rfl, hinteger]
      simp
    rw [show toString (Int.negSucc m) = "-" ++ toString (m + 1) from rfl, encode_append, hminus]
    rw [List.append_nil, hwhole] at hnumber
    rw [List.singleton_append, Parser.value, Parser.skipBlanks_cons rfl]
    dsimp only
    rw [if_neg (by decide), if_neg (by decide), if_neg (by decide), if_pos (by decide), hnumber]
    rfl

/-- What a reader makes of the text of a document. -/
theorem toOption_parse_render {v : Json} (hv : v.Ordered) : (parse (encode v.render)).toOption =
    if v.depth < Parser.levelLimit then v.reread? else none := by
  have h := Parser.reads_of_ordered v hv (3 * (encode v.render).length + 3) 127 []
    Parser.delimited_nil (by omega)
  rw [List.append_nil] at h
  have hlevels : v.depth < Parser.levelLimit ↔ v.depth ≤ 127 := by
    unfold Parser.levelLimit
    omega
  simp only [hlevels]
  unfold parse Parser.document
  rw [show Parser.levelLimit = 127 + 1 from rfl]
  cases hvalue : Parser.value (3 * (encode v.render).length + 3) (127 + 1) (encode v.render) with
  | error e =>
    rw [hvalue] at h
    split at h
    · rw [if_pos ‹_›]
      cases hreread : v.reread? with
      | none => rfl
      | some w =>
        rw [hreread] at h
        cases h
    · rw [if_neg ‹_›]
      rfl
  | ok x =>
    rw [hvalue] at h
    split at h
    · rw [if_pos ‹_›]
      cases hreread : v.reread? with
      | none =>
        rw [hreread] at h
        cases h
      | some w =>
        rw [hreread] at h
        cases h
        rfl
    · cases h

/-- A document is read back from its text exactly when it is not nested too deeply and each of its
numbers is read back. -/
theorem parse_render_eq_iff {v : Json} (hv : v.Ordered) : parse (encode v.render) = .ok v ↔
    v.depth < Parser.levelLimit ∧ v.Rereadable := by
  rw [← toOption_eq_some_iff, toOption_parse_render hv, ← reread?_eq_self_iff]
  split
  · next h => simp [h]
  · next h => simp [h]

/-! ## What is read is ordered -/

namespace Parser

variable {fuel levels : Nat} {bytes rest : List UInt8}

/-- Whatever the reader takes off the front of the bytes is ordered. -/
structure ReadsOrdered (fuel : Nat) : Prop where
  value : ∀ {levels bytes v rest}, value fuel levels bytes = .ok (v, rest) → v.Ordered
  items : ∀ {levels first acc bytes xs rest}, items fuel levels first acc bytes = .ok (xs, rest) →
    OrderedItems acc → OrderedItems xs
  item : ∀ {levels acc bytes xs rest}, item fuel levels acc bytes = .ok (xs, rest) →
    OrderedItems acc → OrderedItems xs
  members : ∀ {levels first acc bytes ms rest},
    members fuel levels first acc bytes = .ok (ms, rest) →
    (Json.obj acc).Ordered → (Json.obj ms).Ordered
  member : ∀ {levels acc bytes ms rest}, member fuel levels acc bytes = .ok (ms, rest) →
    (Json.obj acc).Ordered → (Json.obj ms).Ordered

theorem eq_of_word {letters : List UInt8} {v w : Json}
    (h : word letters v bytes = .ok (w, rest)) : w = v := by
  induction letters generalizing bytes with
  | nil =>
    cases h
    rfl
  | cons l ls ih =>
    cases bytes with
    | nil => cases h
    | cons b more =>
      rw [word] at h
      split at h
      · exact ih h
      · cases h

theorem readsOrdered (fuel : Nat) : ReadsOrdered fuel := by
  induction fuel with
  | zero =>
    constructor
    · intro _ _ _ _ h
      rw [Parser.value] at h
      cases h
    · intro _ _ _ _ _ _ h
      rw [Parser.items] at h
      cases h
    · intro _ _ _ _ _ h
      rw [Parser.item] at h
      cases h
    · intro _ _ _ _ _ _ h
      rw [Parser.members] at h
      cases h
    · intro _ _ _ _ _ h
      rw [Parser.member] at h
      cases h
  | succ fuel ih =>
    constructor
    · intro levels bytes v rest h
      rw [Parser.value] at h
      split at h
      · cases h
      split at h
      · rw [eq_of_word h]
        trivial
      split at h
      · rw [eq_of_word h]
        trivial
      split at h
      · rw [eq_of_word h]
        trivial
      split at h
      · rcases map_eq_ok h with ⟨x, -, hx⟩
        cases hx
        trivial
      split at h
      · rcases map_eq_ok h with ⟨x, -, hx⟩
        cases hx
        trivial
      split at h
      · rcases map_eq_ok h with ⟨x, -, hx⟩
        cases hx
        trivial
      split at h
      · split at h
        · cases h
        · cases h
        · rcases map_eq_ok h with ⟨x, hx, heq⟩
          cases heq
          exact ih.items hx trivial
      split at h
      · split at h
        · cases h
        · cases h
        · rcases map_eq_ok h with ⟨x, hx, heq⟩
          cases heq
          exact ih.members hx ⟨List.Pairwise.nil, trivial⟩
      · cases h
    · intro levels first acc bytes xs rest h hacc
      rw [Parser.items] at h
      split at h
      · cases h
      split at h
      · cases h
        exact orderedItems_iff.mpr
          (fun x hx => ordered_of_mem_items hacc (List.mem_reverse.mp hx))
      split at h
      · exact ih.item h hacc
      split at h
      · split at h
        · cases h
        · cases h
        · exact ih.item h hacc
      · cases h
    · intro levels acc bytes xs rest h hacc
      rw [Parser.item] at h
      split at h
      · cases h
      · next v more hv => exact ih.items h ⟨ih.value hv, hacc⟩
    · intro levels first acc bytes ms rest h hacc
      rw [Parser.members] at h
      split at h
      · cases h
      split at h
      · cases h
        exact hacc
      split at h
      · split at h
        · exact ih.member h hacc
        · cases h
      split at h
      · split at h
        · cases h
        · exact ih.member h hacc
        · cases h
        · cases h
      · cases h
    · intro levels acc bytes ms rest h hacc
      rw [Parser.member] at h
      split at h
      · cases h
      split at h
      · cases h
      · split at h
        · cases h
        · next v more hv => exact ih.members h (ordered_insert hacc _ (ih.value hv))
      · cases h

end Parser

/-- What is read lists the members of every object in order. -/
theorem ordered_of_parse {bytes : List UInt8} {v : Json} (h : parse bytes = .ok v) : v.Ordered := by
  unfold parse at h
  split at h
  · next w hdocument =>
    cases h
    unfold Parser.document at hdocument
    split at hdocument
    · cases hdocument
    · next x rest hvalue =>
      split at hdocument
      · cases hdocument
        exact (Parser.readsOrdered _).value hvalue
      · cases hdocument
  · cases h

end HttpContract.Json
