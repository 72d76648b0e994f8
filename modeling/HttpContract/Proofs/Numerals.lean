import HttpContract.Proofs.Encoding

/-!
# Numbers and their texts

The text of a number is a numeral (`Json.Parser.exists_numeral`), and how the reader takes a numeral
does not depend on what comes behind it (`Json.Parser.settled_number`). Integers are read back as
they are (`Json.Parser.number_toString`).
-/

namespace HttpContract.Json.Parser

open Utf8

/-- What comes behind a document within another one. -/
def Delimited (rest : List UInt8) : Prop :=
  ∀ b ∈ rest.head?, b = 0x2C ∨ b = 0x5D ∨ b = 0x7D

theorem delimited_nil : Delimited [] := by simp [Delimited]

/-- Bytes that do not go on with a digit. -/
def Undigited (bytes : List UInt8) : Prop := ∀ b ∈ bytes.head?, isDigit b = false

theorem Delimited.undigited {rest : List UInt8} (h : Delimited rest) : Undigited rest := by
  intro b hb
  rcases h b hb with rfl | rfl | rfl
  all_goals rfl

theorem Delimited.unmarked {rest : List UInt8} (h : Delimited rest) :
    ∀ b ∈ rest.head?, (b == 0x2E) = false ∧ isExponentMark b = false := by
  intro b hb
  rcases h b hb with rfl | rfl | rfl
  all_goals exact ⟨rfl, rfl⟩

/-- Decimal digits, at least one. -/
structure Digits (bytes : List UInt8) : Prop where
  nonempty : bytes ≠ []
  all : ∀ b ∈ bytes, isDigit b = true

/-- Digits as a number begins with them: a zero stands alone. -/
structure Leading (bytes : List UInt8) : Prop extends Digits bytes where
  zero : ∀ rest, bytes = 0x30 :: rest → rest = []

/-- The exponent of a number behind its letter. -/
def Exponent (bytes : List UInt8) : Prop :=
  ∃ sign digits, bytes = sign ++ digits ∧ (sign = [] ∨ sign = [0x2B] ∨ sign = [0x2D]) ∧
    Digits digits

/-- A number without its sign: digits, a fraction and an exponent, the latter two only if need
be. -/
def Numeral (bytes : List UInt8) : Prop :=
  ∃ whole fraction exponent, bytes = whole ++ (fraction ++ exponent) ∧ Leading whole ∧
    (fraction = [] ∨ ∃ digits, fraction = 0x2E :: digits ∧ Digits digits) ∧
    (exponent = [] ∨ ∃ power, exponent = 0x65 :: power ∧ Exponent power)

/-! ## Reading numerals -/

theorem takeWhile_digits {digits bytes : List UInt8} (h : ∀ b ∈ digits, isDigit b = true)
    (hbytes : Undigited bytes) : (digits ++ bytes).takeWhile isDigit = digits := by
  rw [List.takeWhile_append_of_pos h]
  cases bytes with
  | nil => simp
  | cons b rest => simp [hbytes b rfl]

theorem dropWhile_digits {digits bytes : List UInt8} (h : ∀ b ∈ digits, isDigit b = true)
    (hbytes : Undigited bytes) : (digits ++ bytes).dropWhile isDigit = bytes := by
  rw [List.dropWhile_append_of_pos h]
  cases bytes with
  | nil => rfl
  | cons b rest => simp [hbytes b rfl]

/-- A reader takes the same off the front, whatever document ends there. -/
def Settled {α : Type} (read : List UInt8 → Result α) (bytes : List UInt8) : Prop :=
  ∃ r : Option α, ∀ rest, Delimited rest →
    (read (bytes ++ rest)).toOption = r.map (fun x => (x, rest))

theorem exists_assemble (negative : Bool) (significand : Nat) (exponent : Int) :
    ∃ r : Option Number, ∀ rest, (assemble negative significand exponent rest).toOption =
      r.map (fun x => (x, rest)) := by
  unfold assemble
  cases (Binary64.ofRatio? false significand 1).bind (fun x => scaleByTen 8 x exponent) with
  | none => exact ⟨none, fun rest => rfl⟩
  | some x => exact ⟨some (.float (if negative then x.neg else x)), fun rest => rfl⟩

/-- The digits of an exponent are all read, or left out when there are too many. -/
theorem exponentValue_digits {digits : List UInt8} (h : ∀ b ∈ digits, isDigit b = true) (e : Nat) :
    (∃ power, ∀ rest, Undigited rest → exponentValue e (digits ++ rest) = (some power, rest)) ∨
    ∃ others, (∀ b ∈ others, isDigit b = true) ∧ ∀ rest,
      exponentValue e (digits ++ rest) = (none, others ++ rest) := by
  induction digits generalizing e with
  | nil =>
    refine Or.inl ⟨e, fun rest hrest => ?_⟩
    cases rest with
    | nil => rfl
    | cons b more => simp [exponentValue, hrest b rfl]
  | cons b others ih =>
    have hb := h b List.mem_cons_self
    have hothers : ∀ x ∈ others, isDigit x = true := fun x hx => h x (List.mem_cons_of_mem _ hx)
    by_cases hle : e * 10 + (b.toNat - 0x30) < 0x80000000
    · have hstep : ∀ rest, exponentValue e (b :: others ++ rest) =
          exponentValue (e * 10 + (b.toNat - 0x30)) (others ++ rest) := by
        intro rest
        rw [List.cons_append, exponentValue, if_pos hb]
        exact if_pos hle
      simp only [hstep]
      exact ih hothers _
    · refine Or.inr ⟨others, hothers, fun rest => ?_⟩
      rw [List.cons_append, exponentValue, if_pos hb]
      exact if_neg hle

/-- Behind the sign of an exponent its digits decide. -/
theorem exists_exponentPart_signed (negative : Bool) (significand : Nat) (scale : Int)
    {sign : List UInt8} (hsign : sign = [] ∨ sign = [0x2B] ∨ sign = [0x2D]) {b : UInt8}
    (hb : isDigit b = true) (others : List UInt8) : ∃ down : Bool, ∀ rest,
    exponentPart negative significand scale (sign ++ b :: others ++ rest) =
      match exponentValue 0 (b :: others ++ rest) with
      | (some e, rest) =>
        assemble negative significand (if down then scale - e else scale + e) rest
      | (none, rest) =>
        if significand ≠ 0 ∧ !down then failAt .numberRange rest
        else .ok (.float (Binary64.zero negative), rest.dropWhile isDigit) := by
  rcases hsign with rfl | rfl | rfl
  · have hplus : b ≠ 0x2B := by
      rintro rfl
      cases hb
    have hminus : b ≠ 0x2D := by
      rintro rfl
      cases hb
    refine ⟨false, fun rest => ?_⟩
    unfold exponentPart
    rw [List.nil_append, List.cons_append]
    split
    next down digits hsplit =>
    split at hsplit
    · next heq => exact absurd (List.cons.inj heq).1 hplus
    · next heq => exact absurd (List.cons.inj heq).1 hminus
    · cases hsplit
      exact if_pos hb
  · exact ⟨false, fun rest => if_pos hb⟩
  · exact ⟨true, fun rest => if_pos hb⟩

theorem settled_exponentPart (negative : Bool) (significand : Nat) (scale : Int)
    {bytes : List UInt8} (h : Exponent bytes) :
    Settled (exponentPart negative significand scale) bytes := by
  rcases h with ⟨sign, digits, rfl, hsign, hdigits⟩
  rcases digits with - | ⟨b, others⟩
  · exact absurd rfl hdigits.nonempty
  have hb : isDigit b = true := hdigits.all b List.mem_cons_self
  rcases exists_exponentPart_signed negative significand scale hsign hb others with ⟨down, hread⟩
  rcases exponentValue_digits hdigits.all 0 with ⟨power, hpower⟩ | ⟨left, hleft, hnone⟩
  · rcases exists_assemble negative significand (if down then scale - power else scale + power)
      with ⟨r, hr⟩
    refine ⟨r, fun rest hrest => ?_⟩
    rw [hread, hpower rest hrest.undigited]
    exact hr rest
  · by_cases hrange : significand ≠ 0 ∧ (!down) = true
    · refine ⟨none, fun rest hrest => ?_⟩
      rw [hread, hnone]
      dsimp only
      rw [if_pos hrange]
      rfl
    · refine ⟨some (.float (Binary64.zero negative)), fun rest hrest => ?_⟩
      rw [hread, hnone]
      dsimp only
      rw [if_neg hrange, dropWhile_digits hleft hrest.undigited]
      rfl

theorem undigited_cons {b : UInt8} (h : isDigit b = false) (rest : List UInt8) :
    Undigited (b :: rest) := by
  intro x hx
  cases hx
  exact h

theorem undigited_append {exponent rest : List UInt8}
    (h : exponent = [] ∨ ∃ power, exponent = 0x65 :: power ∧ Exponent power)
    (hrest : Delimited rest) : Undigited (exponent ++ rest) := by
  rcases h with rfl | ⟨power, rfl, -⟩
  · exact hrest.undigited
  · exact undigited_cons rfl _

/-- Behind the digits of a fraction the exponent decides. -/
theorem fractionPart_digits (negative : Bool) (significand : Nat) (scale : Int)
    {digits exponent rest : List UInt8} (hdigits : Digits digits)
    (hexponent : exponent = [] ∨ ∃ power, exponent = 0x65 :: power ∧ Exponent power)
    (hrest : Delimited rest) :
    fractionPart negative significand scale (digits ++ exponent ++ rest) =
      match exponent ++ rest with
      | b :: more =>
        if isExponentMark b then exponentPart negative (absorb significand digits).1
          (scale - ((digits.length - (absorb significand digits).2.length : Nat) : Int)) more
        else assemble negative (absorb significand digits).1
          (scale - ((digits.length - (absorb significand digits).2.length : Nat) : Int))
          (exponent ++ rest)
      | [] => assemble negative (absorb significand digits).1
          (scale - ((digits.length - (absorb significand digits).2.length : Nat) : Int)) [] := by
  have hundigited := undigited_append hexponent hrest
  have hempty : digits.isEmpty = false := by simp [hdigits.nonempty]
  unfold fractionPart
  rw [List.append_assoc, takeWhile_digits hdigits.all hundigited,
    dropWhile_digits hdigits.all hundigited]
  dsimp only
  rw [hempty]
  rfl

theorem settled_fractionPart (negative : Bool) (significand : Nat) (scale : Int)
    {digits exponent : List UInt8} (hdigits : Digits digits)
    (hexponent : exponent = [] ∨ ∃ power, exponent = 0x65 :: power ∧ Exponent power) :
    Settled (fractionPart negative significand scale) (digits ++ exponent) := by
  have hread := fun rest (hrest : Delimited rest) =>
    fractionPart_digits negative significand scale hdigits hexponent hrest
  generalize hscale : scale - ((digits.length - (absorb significand digits).2.length : Nat) : Int) =
    scale' at hread
  generalize (absorb significand digits).1 = significand' at hread
  rcases hexponent with rfl | ⟨power, rfl, hpower⟩
  · rcases exists_assemble negative significand' scale' with ⟨r, hr⟩
    refine ⟨r, fun rest hrest => ?_⟩
    rw [hread rest hrest, List.nil_append]
    cases rest with
    | nil => exact hr []
    | cons b more =>
      dsimp only
      rw [(hrest.unmarked b rfl).2]
      exact hr (b :: more)
  · rcases settled_exponentPart negative significand' scale' hpower with ⟨r, hr⟩
    refine ⟨r, fun rest hrest => ?_⟩
    rw [hread rest hrest]
    exact hr rest hrest

/-- Behind its leading digits a number goes on with a fraction, an exponent, or nothing. -/
theorem number_leading (negative : Bool) {whole bytes : List UInt8} (h : Leading whole) :
    Undigited bytes → number negative (whole ++ bytes) =
      match bytes with
      | c :: more =>
        if c == 0x2E then fractionPart negative (absorb 0 whole).1 (absorb 0 whole).2.length more
        else if isExponentMark c then
          exponentPart negative (absorb 0 whole).1 (absorb 0 whole).2.length more
        else if (absorb 0 whole).2.isEmpty then
          .ok (wholeNumber negative (absorb 0 whole).1, bytes)
        else assemble negative (absorb 0 whole).1 (absorb 0 whole).2.length bytes
      | [] =>
        if (absorb 0 whole).2.isEmpty then .ok (wholeNumber negative (absorb 0 whole).1, [])
        else assemble negative (absorb 0 whole).1 (absorb 0 whole).2.length [] := by
  intro hbytes
  have htake := takeWhile_digits h.all hbytes
  have hdrop := dropWhile_digits h.all hbytes
  rcases whole with - | ⟨b, others⟩
  · exact absurd rfl h.nonempty
  have hb : isDigit b = true := h.all b List.mem_cons_self
  -- a leading zero has no digit behind it
  have hzero : ¬ (b == 0x30 ∧ ((others ++ bytes).headD 0x20 |> isDigit)) := by
    rintro ⟨hb, hnext⟩
    obtain rfl : b = 0x30 := by simpa using hb
    obtain rfl := h.zero others rfl
    cases bytes with
    | nil => cases hnext
    | cons c more => exact absurd hnext (by simp [hbytes c rfl])
  rw [List.cons_append] at htake hdrop ⊢
  unfold number
  dsimp only
  rw [if_neg (by simp [hb]), if_neg hzero, htake]
  generalize (b :: (others ++ bytes)).dropWhile isDigit = left at hdrop ⊢
  subst hdrop
  rfl

/-- How a numeral is read does not depend on what comes behind it. -/
theorem settled_number (negative : Bool) {bytes : List UInt8} (h : Numeral bytes) :
    Settled (number negative) bytes := by
  rcases h with ⟨whole, fraction, exponent, rfl, hwhole, hfraction, hexponent⟩
  rcases hfraction with rfl | ⟨digits, rfl, hdigits⟩
  · rcases hexponent with rfl | ⟨power, rfl, hpower⟩
    · by_cases hempty : (absorb 0 whole).2.isEmpty = true
      · refine ⟨some (wholeNumber negative (absorb 0 whole).1), fun rest hrest => ?_⟩
        rw [List.append_nil, List.append_nil, number_leading negative hwhole hrest.undigited]
        cases rest with
        | nil =>
          dsimp only
          rw [if_pos hempty]
          rfl
        | cons b more =>
          rcases hrest.unmarked b rfl with ⟨hpoint, hmark⟩
          dsimp only
          rw [hpoint, hmark, if_pos hempty]
          rfl
      · rcases exists_assemble negative (absorb 0 whole).1 (absorb 0 whole).2.length with ⟨r, hr⟩
        refine ⟨r, fun rest hrest => ?_⟩
        rw [List.append_nil, List.append_nil, number_leading negative hwhole hrest.undigited]
        cases rest with
        | nil =>
          dsimp only
          rw [if_neg hempty]
          exact hr []
        | cons b more =>
          rcases hrest.unmarked b rfl with ⟨hpoint, hmark⟩
          dsimp only
          rw [hpoint, hmark, if_neg hempty]
          exact hr (b :: more)
    · rcases settled_exponentPart negative (absorb 0 whole).1 (absorb 0 whole).2.length hpower with
        ⟨r, hr⟩
      refine ⟨r, fun rest hrest => ?_⟩
      rw [List.nil_append, List.append_assoc, List.cons_append,
        number_leading negative hwhole (undigited_cons rfl _)]
      exact hr rest hrest
  · rcases settled_fractionPart negative (absorb 0 whole).1 (absorb 0 whole).2.length hdigits
      hexponent with ⟨r, hr⟩
    refine ⟨r, fun rest hrest => ?_⟩
    rw [List.append_assoc, List.cons_append, List.cons_append,
      number_leading negative hwhole (undigited_cons rfl _)]
    exact hr rest hrest

/-! ## Digits of naturals -/

theorem exists_encode_digit {c : Char} (h : c.isDigit = true) : ∃ b : UInt8,
    String.utf8EncodeChar c = [b] ∧ isDigit b = true ∧ b.toNat = c.toNat := by
  have hrange : 48 ≤ c.toNat ∧ c.toNat ≤ 57 := by
    simpa [Char.isDigit, UInt32.le_iff_toNat_le] using h
  have hbyte := toNat_byte (b := c.toNat) (by omega)
  refine ⟨UInt8.ofNat c.toNat, ?_, ?_, hbyte⟩
  · have hsmall : c.val.toNat ≤ 0x7F := show c.toNat ≤ 0x7F by omega
    unfold String.utf8EncodeChar
    exact if_pos hsmall
  · simp only [isDigit, Bool.and_eq_true, decide_eq_true_eq, UInt8.le_iff_toNat_le, hbyte]
    exact hrange

theorem isDigit_of_mem_flatMap {cs : List Char} (h : ∀ c ∈ cs, c.isDigit = true) {b : UInt8}
    (hb : b ∈ cs.flatMap String.utf8EncodeChar) : isDigit b = true := by
  rcases List.mem_flatMap.mp hb with ⟨c, hc, hb⟩
  rcases exists_encode_digit (h c hc) with ⟨x, hx, hdigit, -⟩
  rw [hx] at hb
  rw [List.mem_singleton.mp hb]
  exact hdigit

theorem digits_flatMap {cs : List Char} (hne : cs ≠ []) (h : ∀ c ∈ cs, c.isDigit = true) :
    Digits (cs.flatMap String.utf8EncodeChar) := by
  refine ⟨fun hnil => ?_, fun b hb => isDigit_of_mem_flatMap h hb⟩
  rcases List.exists_mem_of_ne_nil cs hne with ⟨c, hc⟩
  have hchar : String.utf8EncodeChar c = [] := List.flatMap_eq_nil_iff.mp hnil c hc
  rcases exists_encode_digit (h c hc) with ⟨x, hx, -⟩
  rw [hx] at hchar
  cases hchar

/-- Digits that do not begin with a zero may begin a number. -/
theorem leading_flatMap {cs : List Char} (hne : cs ≠ []) (h : ∀ c ∈ cs, c.isDigit = true)
    (hzero : ∀ rest, cs = '0' :: rest → rest = []) :
    Leading (cs.flatMap String.utf8EncodeChar) := by
  refine ⟨digits_flatMap hne h, fun rest hrest => ?_⟩
  rcases cs with - | ⟨c, others⟩
  · exact absurd rfl hne
  rcases exists_encode_digit (h c List.mem_cons_self) with ⟨b, hb, -, hbyte⟩
  rw [List.flatMap_cons, hb, List.singleton_append] at hrest
  obtain ⟨rfl, rfl⟩ := List.cons.inj hrest
  obtain rfl : c = '0' := Char.toNat_inj.mp hbyte.symm
  rw [hzero others rfl]
  rfl

theorem isDigit_of_mem_toDigits {n : Nat} {c : Char} (h : c ∈ Nat.toDigits 10 n) :
    c.isDigit = true := Nat.isDigit_of_mem_toDigits (by decide) (by decide) h

/-- Only the digits of zero begin with a zero. -/
theorem head?_toDigits : ∀ n, n ≠ 0 → (Nat.toDigits 10 n).head? ≠ some '0' := by
  intro n
  induction n using Nat.strong_induction_on with
  | _ n ih =>
    intro hn
    by_cases hlt : n < 10
    · have hdigits : ∀ d < 10, d ≠ 0 → d.digitChar ≠ '0' := by decide
      rw [Nat.toDigits_of_lt_base hlt]
      intro hhead
      exact hdigits n hlt hn (Option.some.inj hhead)
    · have hhead : (Nat.toDigits 10 n).head? = (Nat.toDigits 10 (n / 10)).head? := by
        rw [Nat.toDigits_of_base_le (by decide) (by omega), List.head?_append,
          Option.or_of_isSome]
        rw [List.isSome_head?]
        exact Nat.toDigits_ne_nil
      rw [hhead]
      exact ih (n / 10) (by omega) (by omega)

theorem leading_toDigits (n : Nat) :
    Leading ((Nat.toDigits 10 n).flatMap String.utf8EncodeChar) := by
  refine leading_flatMap Nat.toDigits_ne_nil (fun c => isDigit_of_mem_toDigits)
    (fun rest hrest => ?_)
  by_cases hn : n = 0
  · subst hn
    rw [Nat.toDigits_zero] at hrest
    exact (List.cons.inj hrest).2.symm
  · have hhead := head?_toDigits n hn
    rw [hrest] at hhead
    exact absurd rfl hhead

theorem encode_toString (n : Nat) :
    encode (toString n) = (Nat.toDigits 10 n).flatMap String.utf8EncodeChar := by
  rw [Nat.toString_eq_ofList_toDigits, encode_ofList]

theorem le_ofDigitChars (cs : List Char) (s : Nat) : s ≤ Nat.ofDigitChars 10 cs s := by
  induction cs generalizing s with
  | nil => exact Nat.le_of_eq Nat.ofDigitChars_nil.symm
  | cons c others ih =>
    rw [Nat.ofDigitChars_cons]
    exact Nat.le_trans (by omega) (ih _)

/-- Digits that fit 64 bits are read as the number they spell. -/
theorem absorb_flatMap {cs : List Char} (h : ∀ c ∈ cs, c.isDigit = true) (s : Nat)
    (hfits : Nat.ofDigitChars 10 cs s < 0x10000000000000000) :
    absorb s (cs.flatMap String.utf8EncodeChar) = (Nat.ofDigitChars 10 cs s, []) := by
  induction cs generalizing s with
  | nil => rw [List.flatMap_nil, absorb, Nat.ofDigitChars_nil]
  | cons c others ih =>
    rcases exists_encode_digit (h c List.mem_cons_self) with ⟨b, hb, -, hbyte⟩
    rw [Nat.ofDigitChars_cons] at hfits ⊢
    have hle := le_ofDigitChars others (10 * s + (c.toNat - '0'.toNat))
    have hstep : s * 10 + (b.toNat - 0x30) = 10 * s + (c.toNat - '0'.toNat) := by
      rw [hbyte, Nat.mul_comm]
      rfl
    rw [List.flatMap_cons, hb, List.singleton_append, absorb, hstep]
    rw [if_pos (by omega)]
    exact ih (fun x hx => h x (List.mem_cons_of_mem _ hx)) _ hfits

theorem absorb_toDigits {n : Nat} (hn : n < 0x10000000000000000) :
    absorb 0 ((Nat.toDigits 10 n).flatMap String.utf8EncodeChar) = (n, []) := by
  have hvalue : Nat.ofDigitChars 10 (Nat.toDigits 10 n) 0 = n := Nat.ofDigitChars_ten_toDigits
  rw [absorb_flatMap (fun c => isDigit_of_mem_toDigits) 0 (by rw [hvalue]; exact hn), hvalue]

/-- The digits of a natural are read as this natural. -/
theorem number_toString (negative : Bool) {n : Nat} (hn : n < 0x10000000000000000)
    {rest : List UInt8} (hrest : Delimited rest) :
    number negative (encode (toString n) ++ rest) = .ok (wholeNumber negative n, rest) := by
  rw [encode_toString, number_leading negative (leading_toDigits n) hrest.undigited,
    absorb_toDigits hn]
  cases rest with
  | nil => rfl
  | cons b more =>
    rcases hrest.unmarked b rfl with ⟨hpoint, hmark⟩
    dsimp only
    rw [hpoint, hmark]
    rfl

/-! ## The texts of numbers -/

theorem replicate_zeros (n : Nat) : ∀ c ∈ List.replicate n '0', c.isDigit = true := by
  intro c hc
  rw [List.eq_of_mem_replicate hc]
  rfl

/-- Digits and zeros behind them begin with a zero only if there is nothing but one zero. -/
theorem eq_nil_of_toDigits_append {d : Nat} {cs rest : List Char} (hd : d = 0 → cs = [])
    (h : Nat.toDigits 10 d ++ cs = '0' :: rest) : rest = [] := by
  by_cases hzero : d = 0
  · subst hzero
    rw [Nat.toDigits_zero, hd rfl] at h
    exact (List.cons.inj h).2.symm
  · have hhead := head?_toDigits d hzero
    have hfirst : (Nat.toDigits 10 d ++ cs).head? = (Nat.toDigits 10 d).head? := by
      rw [List.head?_append, Option.or_of_isSome]
      rw [List.isSome_head?]
      exact Nat.toDigits_ne_nil
    rw [h] at hfirst
    exact absurd hfirst.symm hhead

theorem numeral_positionalText {d : Nat} {p : Int} (hd : d = 0 → p = 0) :
    Numeral (encode (Binary64.positionalText (toString d) p true)) := by
  have hdigits : (toString d).toList = Nat.toDigits 10 d := by
    rw [Nat.toString_eq_ofList_toDigits, String.toList_ofList]
  have hlength : (toString d).length = (Nat.toDigits 10 d).length := by
    rw [← String.length_toList, hdigits]
  have hall : ∀ c ∈ Nat.toDigits 10 d, c.isDigit = true := fun c => isDigit_of_mem_toDigits
  unfold Binary64.positionalText
  dsimp only
  rw [hdigits, hlength]
  split
  · next hp =>
    refine ⟨(Nat.toDigits 10 d ++ List.replicate p.toNat '0').flatMap String.utf8EncodeChar,
      [0x2E, 0x30], [], ?_, leading_flatMap ?_ ?_ ?_, Or.inr ⟨[0x30], rfl, ?_⟩, Or.inl rfl⟩
    · have hzero : encode ".0" = [0x2E, 0x30] := encode_ofList ['.', '0']
      rw [if_pos rfl, encode_append, encode_append, hzero, encode_toString, encode_ofList,
        List.flatMap_append, List.append_nil, List.append_assoc]
    · simp [Nat.toDigits_ne_nil]
    · intro c hc
      rcases List.mem_append.mp hc with hc | hc
      · exact hall c hc
      · exact replicate_zeros _ c hc
    · intro rest hrest
      refine eq_nil_of_toDigits_append (fun hzero => ?_) hrest
      rw [hd hzero]
      rfl
    · exact ⟨by simp, by simp [isDigit]⟩
  split
  · next hnegative hpoint =>
    -- the point stands among the digits
    have hpos : 0 < ((Nat.toDigits 10 d).length + p).toNat := by omega
    have hlt : ((Nat.toDigits 10 d).length + p).toNat < (Nat.toDigits 10 d).length := by omega
    generalize ((Nat.toDigits 10 d).length + p).toNat = k at hpos hlt
    have hnonzero : d ≠ 0 := fun hzero => hnegative (by rw [hd hzero])
    refine ⟨((Nat.toDigits 10 d).take k).flatMap String.utf8EncodeChar,
      0x2E :: ((Nat.toDigits 10 d).drop k).flatMap String.utf8EncodeChar, [], ?_,
      leading_flatMap ?_ (fun c hc => hall c (List.mem_of_mem_take hc)) ?_,
      Or.inr ⟨_, rfl, digits_flatMap ?_ (fun c hc => hall c (List.mem_of_mem_drop hc))⟩, Or.inl rfl⟩
    · have hpoint : encode "." = [0x2E] := encode_ofList ['.']
      rw [encode_append, encode_append, hpoint, encode_ofList, encode_ofList, List.append_assoc,
        List.append_nil, List.singleton_append]
    · intro hnil
      have hlen := congrArg List.length hnil
      rw [List.length_take] at hlen
      simp only [List.length_nil] at hlen
      omega
    · intro rest hrest
      have hhead := head?_toDigits d hnonzero
      rw [← List.take_append_drop k (Nat.toDigits 10 d), hrest] at hhead
      exact absurd rfl hhead
    · intro hnil
      have hlen := congrArg List.length hnil
      rw [List.length_drop] at hlen
      simp only [List.length_nil] at hlen
      omega
  · refine ⟨[0x30], 0x2E :: (List.replicate (-((Nat.toDigits 10 d).length + p)).toNat '0' ++
      Nat.toDigits 10 d).flatMap String.utf8EncodeChar, [], ?_, ⟨⟨by simp, by simp [isDigit]⟩, ?_⟩,
      Or.inr ⟨_, rfl, digits_flatMap ?_ ?_⟩, Or.inl rfl⟩
    · have hzero : encode "0." = [0x30, 0x2E] := encode_ofList ['0', '.']
      rw [encode_append, encode_append, hzero, encode_toString, encode_ofList,
        List.flatMap_append, List.append_assoc, List.append_nil]
      rfl
    · intro rest hrest
      exact (List.cons.inj hrest).2.symm
    · simp [Nat.toDigits_ne_nil]
    · intro c hc
      rcases List.mem_append.mp hc with hc | hc
      · exact replicate_zeros _ c hc
      · exact hall c hc

theorem exists_encode_exponent (k : Int) : ∃ power, Exponent power ∧
    encode ((if k < 0 then "e-" else "e+") ++ toString k.natAbs) = 0x65 :: power := by
  have hminus : encode "e-" = [0x65, 0x2D] := encode_ofList ['e', '-']
  have hplus : encode "e+" = [0x65, 0x2B] := encode_ofList ['e', '+']
  have hdigits := (leading_toDigits k.natAbs).toDigits
  rw [← encode_toString] at hdigits
  rw [encode_append]
  split
  · exact ⟨0x2D :: encode (toString k.natAbs), ⟨[0x2D], _, rfl, by simp, hdigits⟩,
      by rw [hminus]; rfl⟩
  · exact ⟨0x2B :: encode (toString k.natAbs), ⟨[0x2B], _, rfl, by simp, hdigits⟩,
      by rw [hplus]; rfl⟩

theorem numeral_exponentText {d : Nat} (hd : d ≠ 0) (p : Int) :
    Numeral (encode (Binary64.exponentText (toString d) p true)) := by
  have hdigits : (toString d).toList = Nat.toDigits 10 d := by
    rw [Nat.toString_eq_ofList_toDigits, String.toList_ofList]
  have hall : ∀ c ∈ Nat.toDigits 10 d, c.isDigit = true := fun c => isDigit_of_mem_toDigits
  have hhead := head?_toDigits d hd
  have hne : Nat.toDigits 10 d ≠ [] := Nat.toDigits_ne_nil
  unfold Binary64.exponentText
  dsimp only
  rw [hdigits, if_pos rfl]
  rcases exists_encode_exponent ((toString d).length + p - 1) with ⟨power, hpower, hencode⟩
  generalize Nat.toDigits 10 d = digits at hall hhead hne
  rcases digits with - | ⟨c, others⟩
  · exact absurd rfl hne
  have hsingle : Leading ([c].flatMap String.utf8EncodeChar) := by
    refine leading_flatMap (by simp) (fun x hx => ?_) (fun rest hrest => ?_)
    · rw [List.mem_singleton.mp hx]
      exact hall c List.mem_cons_self
    · exact (List.cons.inj hrest).2.symm
  rw [String.append_assoc, encode_append, hencode]
  rcases others with - | ⟨f, others⟩
  · refine ⟨_, [], 0x65 :: power, ?_, hsingle, Or.inl rfl, Or.inr ⟨power, rfl, hpower⟩⟩
    rw [encode_ofList, List.nil_append]
  · refine ⟨_, 0x2E :: (f :: others).flatMap String.utf8EncodeChar, 0x65 :: power, ?_, hsingle,
      Or.inr ⟨_, rfl, digits_flatMap (by simp) (fun x hx => ?_)⟩, Or.inr ⟨power, rfl, hpower⟩⟩
    · rw [encode_ofList, List.flatMap_cons, List.flatMap_cons, List.flatMap_singleton]
      simp only [List.append_assoc]
      rfl
    · exact hall x (List.mem_cons_of_mem _ hx)

/-! ### Shortest decimals -/

theorem roundsTo_zero {x : Binary64} (hx : x.significand ≠ 0) (p : Int) :
    Binary64.roundsTo x 0 p = false := by
  have hlower : 0 < (Binary64.roundingInterval x).lower := by
    unfold Binary64.roundingInterval
    dsimp only
    split <;> omega
  have hunit : 0 < Nat.pow 2 (x.exponent - 2).toNat * Nat.pow 10 (-p).toNat :=
    Nat.mul_pos (Nat.pow_pos (by decide)) (Nat.pow_pos (by decide))
  have hpos := Nat.mul_pos hlower hunit
  unfold Binary64.roundsTo
  dsimp only
  rw [Nat.zero_mul, Nat.zero_mul]
  split
  · simp only [Nat.not_le_of_lt hpos, decide_false, Bool.false_and]
  · simp only [Nat.not_lt_zero, decide_false, Bool.false_and]

theorem nearestOnGrid?_ne_zero {x : Binary64} (hx : x.significand ≠ 0) {p : Int} {d : Nat}
    (h : Binary64.nearestOnGrid? x p = some d) : d ≠ 0 := by
  unfold Binary64.nearestOnGrid? at h
  dsimp only at h
  generalize hnum : x.magnitudeNum * Nat.pow 10 (-p).toNat = num at h
  generalize hden : x.magnitudeDen * Nat.pow 10 p.toNat = den at h
  have hbelow : Binary64.roundsTo x (num / den) p = true → num / den ≠ 0 := by
    intro hrounds hzero
    rw [hzero, roundsTo_zero hx] at hrounds
    cases hrounds
  split at h
  · cases h
  · next hrounds _ =>
    cases h
    exact hbelow hrounds
  · cases h
    exact Nat.succ_ne_zero _
  · next hrounds _ =>
    cases h
    have hne := hbelow hrounds
    unfold Binary64.roundQuotient
    dsimp only
    split
    · exact hne
    split
    · exact Nat.succ_ne_zero _
    split
    · exact hne
    · exact Nat.succ_ne_zero _

theorem dropTrailingZeros_ne_zero (fuel : Nat) {d : Nat} (hd : d ≠ 0) (p : Int) :
    (Binary64.dropTrailingZeros fuel d p).1 ≠ 0 := by
  induction fuel generalizing d p with
  | zero => exact hd
  | succ fuel ih =>
    rw [Binary64.dropTrailingZeros]
    split
    · next h => exact ih (by omega) _
    · exact hd

/-- Only zero has no digits but zero, and it is set out at the point. -/
theorem shortest_zero (x : Binary64) (h : (Binary64.shortest x).1 = 0) :
    (Binary64.shortest x).2 = 0 := by
  unfold Binary64.shortest at h ⊢
  split
  · rfl
  · next hx =>
    rw [if_neg hx] at h
    dsimp only at h ⊢
    generalize hgrid : (fun n : Nat =>
      (Binary64.nearestOnGrid? x (Binary64.floorLog10 x.magnitudeNum x.magnitudeDen - (n : Int))).map
        (fun d => Binary64.dropTrailingZeros 20 d
          (Binary64.floorLog10 x.magnitudeNum x.magnitudeDen - (n : Int)))) = grid at h ⊢
    cases hfound : (List.range 17).findSome? grid with
    | none => rfl
    | some found =>
      rw [hfound] at h
      rcases List.exists_of_findSome?_eq_some hfound with ⟨n, -, hn⟩
      subst hgrid
      rcases Option.map_eq_some_iff.mp hn with ⟨d, hd, rfl⟩
      exact absurd h (dropTrailingZeros_ne_zero 20 (nearestOnGrid?_ne_zero hx hd) _)

/-- The text of a number is a numeral, with or without a sign. -/
theorem exists_numeral (n : Number) : ∃ (negative : Bool) (bytes : List UInt8),
    encode n.text = (if negative then 0x2D :: bytes else bytes) ∧ Numeral bytes := by
  have hminus : encode "-" = [0x2D] := encode_ofList ['-']
  have hnatural : ∀ m : Nat, Numeral (encode (toString m)) := by
    intro m
    rw [encode_toString]
    exact ⟨_, [], [], by simp, leading_toDigits m, Or.inl rfl, Or.inl rfl⟩
  cases n with
  | int i =>
    rw [show (Number.int i).text = toString i.val from rfl]
    cases i.val with
    | ofNat m => exact ⟨false, _, rfl, hnatural m⟩
    | negSucc m =>
      refine ⟨true, _, ?_, hnatural (m + 1)⟩
      rw [if_pos rfl, show toString (Int.negSucc m) = "-" ++ toString (m + 1) from rfl,
        encode_append, hminus]
      rfl
  | float x =>
    unfold Number.text Binary64.text Binary64.textIn
    dsimp only
    have hzero := shortest_zero x
    generalize Binary64.shortest x = found at hzero
    rcases found with ⟨d, p⟩
    have hmagnitude : Numeral (encode (if d = 0 ∨ Binary64.documentLayout.positional
          (((toString d).length : Int) + p - 1) = true then
        Binary64.positionalText (toString d) p Binary64.documentLayout.pointZero
      else Binary64.exponentText (toString d) p Binary64.documentLayout.plusSign)) := by
      split
      · exact numeral_positionalText hzero
      · next h => exact numeral_exponentText (fun hd => h (Or.inl hd)) p
    refine ⟨x.negative, _, ?_, hmagnitude⟩
    split
    · rw [encode_append, hminus]
      rfl
    · rfl

end HttpContract.Json.Parser
