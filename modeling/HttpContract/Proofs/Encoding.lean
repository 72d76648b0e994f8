import Mathlib.Tactic
import HttpContract.Json.Parser
import HttpContract.Json.Printer

/-!
# Texts and their bytes

The bytes of a text are read back as the text (`Utf8.decode?_encode`), and a text that is written in
quotation marks is read back by the reader of documents (`Json.Parser.exists_encode_quote`): every
character is written as bytes that the reader takes for nothing but this character
(`Json.Parser.stringBody_escapeChar`).
-/

namespace HttpContract

namespace Utf8

/-! ## Bytes of characters -/

theorem toList_loop (bytes : ByteArray) : ∀ (left i : Nat) (acc : List UInt8),
    bytes.size - i = left →
      ByteArray.toList.loop bytes i acc = acc.reverse ++ bytes.data.toList.drop i := by
  intro left
  induction left with
  | zero =>
    intro i acc hleft
    have hend : ¬ i < bytes.size := by omega
    have hdrop : bytes.data.toList.length ≤ i := Nat.le_of_not_lt hend
    rw [ByteArray.toList.loop, if_neg hend, List.drop_eq_nil_of_le hdrop, List.append_nil]
  | succ left ih =>
    intro i acc hleft
    have hi : i < bytes.size := by omega
    have hlength : i < bytes.data.toList.length := hi
    have hget : bytes.get! i = bytes.data.toList[i] := by simp [ByteArray.get!, hi]
    rw [ByteArray.toList.loop, if_pos hi, ih _ _ (by omega), List.drop_eq_getElem_cons hlength,
      hget]
    simp

theorem toList_toByteArray (bytes : List UInt8) : bytes.toByteArray.toList = bytes := by
  unfold ByteArray.toList
  rw [toList_loop _ _ 0 [] rfl]
  simp

/-- The bytes of a text are those of its characters. -/
theorem encode_eq (s : String) : encode s = s.toList.flatMap String.utf8EncodeChar := by
  unfold encode
  rw [String.toUTF8_eq_toByteArray, ← String.utf8Encode_toList]
  exact toList_toByteArray _

@[simp] theorem encode_append (s t : String) : encode (s ++ t) = encode s ++ encode t := by
  simp [encode_eq]

@[simp] theorem encode_ofList (cs : List Char) :
    encode (String.ofList cs) = cs.flatMap String.utf8EncodeChar := by
  simp [encode_eq]

/-! ## Bytes back to characters -/

/-- Characters stop below the last code point and leave out the surrogates. -/
theorem toNat_range (c : Char) : c.toNat < 0xD800 ∨ 0xDFFF < c.toNat ∧ c.toNat < 0x110000 := c.valid

theorem toNat_byte {b : Nat} (hb : b < 256) : (UInt8.ofNat b).toNat = b := by
  rw [UInt8.toNat_ofNat']
  omega

theorem scanFrom_char {b : Nat} (hb : b < 0x80) (rest : List UInt8) :
    scanFrom none (UInt8.ofNat b :: rest) = some (Char.ofNat b) :: scanFrom none rest := by
  rw [scanFrom, toNat_byte (by omega), Lead.of, if_pos hb]

theorem scanFrom_lead {b : Nat} {p : Pending} (hb : b < 256) (h : Lead.of b = .more p)
    (rest : List UInt8) : scanFrom none (UInt8.ofNat b :: rest) = scanFrom (some p) rest := by
  rw [scanFrom, toNat_byte hb, h]

/-- A byte that continues a character without ending it. -/
theorem scanFrom_next {bits missing least greatest b : Nat} (hmissing : 1 < missing)
    (hleast : least ≤ b) (hgreatest : b ≤ greatest) (hb : b < 256) (rest : List UInt8) :
    scanFrom (some ⟨bits, missing, least, greatest⟩) (UInt8.ofNat b :: rest) =
      scanFrom (some ⟨bits * 64 + (b - 0x80), missing - 1, 0x80, 0xBF⟩) rest := by
  rw [scanFrom, toNat_byte hb, if_pos ⟨hleast, hgreatest⟩]
  exact if_neg (Nat.not_le_of_lt hmissing)

/-- The last byte of a character. -/
theorem scanFrom_last {bits least greatest b : Nat} (hleast : least ≤ b) (hgreatest : b ≤ greatest)
    (hb : b < 256) (rest : List UInt8) :
    scanFrom (some ⟨bits, 1, least, greatest⟩) (UInt8.ofNat b :: rest) =
      some (Char.ofNat (bits * 64 + (b - 0x80))) :: scanFrom none rest := by
  rw [scanFrom, toNat_byte hb, if_pos ⟨hleast, hgreatest⟩]
  exact if_pos (Nat.le_refl 1)

theorem leadOf_two {b : Nat} (hlow : 0xC2 ≤ b) (hhigh : b < 0xE0) :
    Lead.of b = .more ⟨b - 0xC0, 1, 0x80, 0xBF⟩ := by
  unfold Lead.of
  rw [if_neg (by omega), if_neg (by omega), if_pos hhigh]

theorem leadOf_three {b : Nat} (hlow : 0xE0 ≤ b) (hhigh : b < 0xF0) :
    Lead.of b = .more ⟨b - 0xE0, 2, if b = 0xE0 then 0xA0 else 0x80,
      if b = 0xED then 0x9F else 0xBF⟩ := by
  unfold Lead.of
  rw [if_neg (by omega), if_neg (by omega), if_neg (by omega)]
  by_cases hfirst : b = 0xE0
  · subst hfirst
    rfl
  by_cases hsurrogate : b = 0xED
  · subst hsurrogate
    rfl
  rw [if_neg hfirst, if_neg hsurrogate, if_pos hhigh, if_neg hfirst, if_neg hsurrogate]

theorem leadOf_four {b : Nat} (hlow : 0xF0 ≤ b) (hhigh : b ≤ 0xF4) :
    Lead.of b = .more ⟨b - 0xF0, 3, if b = 0xF0 then 0x90 else 0x80,
      if b = 0xF4 then 0x8F else 0xBF⟩ := by
  obtain rfl | rfl | rfl | rfl | rfl : b = 0xF0 ∨ b = 0xF1 ∨ b = 0xF2 ∨ b = 0xF3 ∨ b = 0xF4 := by
    omega
  all_goals rfl

/-- The bytes of a character are read as this character. -/
theorem scanFrom_utf8EncodeChar (c : Char) (rest : List UInt8) :
    scanFrom none (String.utf8EncodeChar c ++ rest) = some c :: scanFrom none rest := by
  have hrange := toNat_range c
  have hchar : Char.ofNat c.toNat = c := Char.ofNat_toNat c
  have hval : c.val.toNat = c.toNat := rfl
  unfold String.utf8EncodeChar
  rw [hval]
  generalize c.toNat = n at hrange hchar
  dsimp only
  split
  · simp only [List.cons_append, List.nil_append]
    rw [scanFrom_char (by omega), hchar]
  split
  · have hbits : (n / 64 % 32 + 0xC0 - 0xC0) * 64 + (n % 64 + 0x80 - 0x80) = n := by omega
    simp only [List.cons_append, List.nil_append]
    rw [scanFrom_lead (by omega) (leadOf_two (by omega) (by omega)),
      scanFrom_last (by omega) (by omega) (by omega), hbits, hchar]
  split
  · have hbits : ((n / 4096 % 16 + 0xE0 - 0xE0) * 64 + (n / 64 % 64 + 0x80 - 0x80)) * 64 +
        (n % 64 + 0x80 - 0x80) = n := by omega
    simp only [List.cons_append, List.nil_append]
    rw [scanFrom_lead (by omega) (leadOf_three (by omega) (by omega)),
      scanFrom_next (by omega) (by split <;> omega) (by split <;> omega) (by omega),
      scanFrom_last (by omega) (by omega) (by omega), hbits, hchar]
  · have hbits : (((n / 262144 % 8 + 0xF0 - 0xF0) * 64 + (n / 4096 % 64 + 0x80 - 0x80)) * 64 +
        (n / 64 % 64 + 0x80 - 0x80)) * 64 + (n % 64 + 0x80 - 0x80) = n := by omega
    simp only [List.cons_append, List.nil_append]
    rw [scanFrom_lead (by omega) (leadOf_four (by omega) (by omega)),
      scanFrom_next (by omega) (by split <;> omega) (by split <;> omega) (by omega),
      scanFrom_next (by omega) (by omega) (by omega) (by omega),
      scanFrom_last (by omega) (by omega) (by omega), hbits, hchar]

theorem scan_flatMap (cs : List Char) : scan (cs.flatMap String.utf8EncodeChar) = cs.map some := by
  unfold scan
  induction cs with
  | nil => rfl
  | cons c rest ih => rw [List.flatMap_cons, scanFrom_utf8EncodeChar, ih, List.map_cons]

/-- The bytes of a text are read back as the text. -/
theorem decode?_flatMap (cs : List Char) :
    decode? (cs.flatMap String.utf8EncodeChar) = some (String.ofList cs) := by
  have hall : (cs.map some).mapM id = some cs := by
    induction cs with
    | nil => rfl
    | cons c rest ih => simp [List.mapM_cons, ih]
  unfold decode?
  rw [scan_flatMap, hall]
  rfl

end Utf8

namespace Json.Parser

open Utf8

/-! ## Quoted texts -/

/-- A byte that stands for itself in a quoted text. -/
def Plain (b : UInt8) : Prop := b ≠ 0x22 ∧ b ≠ 0x5C ∧ ¬ b < 0x20

theorem stringBody_plain {b : UInt8} (h : Plain b) (acc rest : List UInt8) :
    stringBody acc (b :: rest) = stringBody (b :: acc) rest := by
  rcases h with ⟨hquote, hescape, hcontrol⟩
  rw [stringBody, if_neg hcontrol]
  · exact fun h => hquote h
  · exact fun h => hescape h

theorem stringBody_append {bytes : List UInt8} (h : ∀ b ∈ bytes, Plain b)
    (acc rest : List UInt8) :
    stringBody acc (bytes ++ rest) = stringBody (bytes.reverse ++ acc) rest := by
  induction bytes generalizing acc with
  | nil => rfl
  | cons b others ih =>
    rw [List.cons_append, stringBody_plain (h b List.mem_cons_self),
      ih (fun x hx => h x (List.mem_cons_of_mem _ hx))]
    simp

theorem stringBody_simple {e b : UInt8} (he : e ≠ 0x75) (h : simpleEscape? e = some b)
    (acc rest : List UInt8) : stringBody acc (0x5C :: e :: rest) = stringBody (b :: acc) rest := by
  rw [stringBody]
  · simp only [h]
  · exact he

theorem stringBody_unicode {a b c d : UInt8} {n : Nat} (hn : n < 0xD800)
    (h : hexValue4? a b c d = some n) (acc rest : List UInt8) :
    stringBody acc (0x5C :: 0x75 :: a :: b :: c :: d :: rest) =
      stringBody (encodeReversed n ++ acc) rest := by
  have htrailing : isTrailingSurrogate n = false := by
    simp [isTrailingSurrogate]
    omega
  have hleading : isLeadingSurrogate n = false := by
    simp [isLeadingSurrogate]
    omega
  rw [stringBody]
  simp only [h, htrailing, hleading, Bool.false_eq_true, if_false, Bool.not_false, if_true]

theorem hexValue4?_hexDigit : ∀ n < 32, ∃ a b,
    String.utf8EncodeChar (hexDigit (n / 16)) = [a] ∧
    String.utf8EncodeChar (hexDigit (n % 16)) = [b] ∧ hexValue4? 0x30 0x30 a b = some n := by
  have hdigits : ∀ n < 32, hexValue4? 0x30 0x30 ((String.utf8EncodeChar (hexDigit (n / 16))).headD 0)
      ((String.utf8EncodeChar (hexDigit (n % 16))).headD 0) = some n := by decide
  have hsingle : ∀ n < 16, (String.utf8EncodeChar (hexDigit n)).length = 1 := by decide
  intro n hn
  rcases List.length_eq_one_iff.mp (hsingle (n / 16) (by omega)) with ⟨a, ha⟩
  rcases List.length_eq_one_iff.mp (hsingle (n % 16) (by omega)) with ⟨b, hb⟩
  have h := hdigits n hn
  rw [ha, hb] at h
  exact ⟨a, b, ha, hb, h⟩

/-- A character that needs no escape is written as bytes that stand for themselves. -/
theorem plain_of_mem {c : Char} (hquote : c ≠ '\x22') (hescape : c ≠ '\\')
    (hcontrol : ¬ c.toNat < 32) {b : UInt8} (hb : b ∈ String.utf8EncodeChar c) : Plain b := by
  have hrange := toNat_range c
  have hne : c.toNat ≠ 0x22 ∧ c.toNat ≠ 0x5C := by
    constructor
    · exact fun h => hquote (Char.toNat_inj.mp h)
    · exact fun h => hescape (Char.toNat_inj.mp h)
  -- either the character itself, or a byte beyond the characters of one byte
  have hbyte : ∃ n, b = UInt8.ofNat n ∧ n < 256 ∧ (n = c.toNat ∨ 0x80 ≤ n) := by
    have hval : c.val.toNat = c.toNat := rfl
    unfold String.utf8EncodeChar at hb
    rw [hval] at hb
    dsimp only at hb
    split at hb
    · obtain rfl := List.mem_singleton.mp hb
      exact ⟨_, rfl, by omega, Or.inl rfl⟩
    split at hb
    · simp only [List.mem_cons, List.not_mem_nil, or_false] at hb
      rcases hb with rfl | rfl
      all_goals exact ⟨_, rfl, by omega, Or.inr (by omega)⟩
    split at hb
    · simp only [List.mem_cons, List.not_mem_nil, or_false] at hb
      rcases hb with rfl | rfl | rfl
      all_goals exact ⟨_, rfl, by omega, Or.inr (by omega)⟩
    · simp only [List.mem_cons, List.not_mem_nil, or_false] at hb
      rcases hb with rfl | rfl | rfl | rfl
      all_goals exact ⟨_, rfl, by omega, Or.inr (by omega)⟩
  rcases hbyte with ⟨n, rfl, hn, hcases⟩
  have htoNat := toNat_byte hn
  refine ⟨fun h => ?_, fun h => ?_, fun h => ?_⟩
  · have heq : n = 0x22 := htoNat.symm.trans (congrArg UInt8.toNat h)
    omega
  · have heq : n = 0x5C := htoNat.symm.trans (congrArg UInt8.toNat h)
    omega
  · have hlt : (UInt8.ofNat n).toNat < 0x20 := h
    omega

/-- A character in a quoted text is read as this character. -/
theorem stringBody_escapeChar (c : Char) (acc rest : List UInt8) :
    stringBody acc ((escapeChar c).flatMap String.utf8EncodeChar ++ rest) =
      stringBody ((String.utf8EncodeChar c).reverse ++ acc) rest := by
  unfold escapeChar
  split
  · next h =>
    subst h
    exact stringBody_simple (e := 0x22) (by decide) rfl acc rest
  split
  · next h =>
    subst h
    exact stringBody_simple (e := 0x5C) (by decide) rfl acc rest
  split
  · next h =>
    subst h
    exact stringBody_simple (e := 0x6E) (by decide) rfl acc rest
  split
  · next h =>
    subst h
    exact stringBody_simple (e := 0x72) (by decide) rfl acc rest
  split
  · next h =>
    subst h
    exact stringBody_simple (e := 0x74) (by decide) rfl acc rest
  split
  · next h =>
    subst h
    exact stringBody_simple (e := 0x62) (by decide) rfl acc rest
  split
  · next h =>
    subst h
    exact stringBody_simple (e := 0x66) (by decide) rfl acc rest
  split
  · next h =>
    rcases hexValue4?_hexDigit _ h with ⟨a, b, ha, hb, hvalue⟩
    have hreversed : encodeReversed c.toNat = (String.utf8EncodeChar c).reverse := by
      unfold encodeReversed
      rw [Char.ofNat_toNat, encode_eq]
      simp
    have hbytes : ['\\', 'u', '0', '0', hexDigit (c.toNat / 16), hexDigit (c.toNat % 16)].flatMap
        String.utf8EncodeChar = [0x5C, 0x75, 0x30, 0x30, a, b] := by
      simp only [List.flatMap_cons, List.flatMap_nil, ha, hb]
      rfl
    rw [hbytes, ← hreversed]
    exact stringBody_unicode (by omega) hvalue acc rest
  · next hquote hescape _ _ _ _ _ hcontrol =>
    rw [List.flatMap_cons, List.flatMap_nil, List.append_nil]
    exact stringBody_append (fun b hb => plain_of_mem hquote hescape hcontrol hb) acc rest

/-- A quoted text is read as this text. -/
theorem stringBody_flatMap (cs : List Char) (rest : List UInt8) (before : List Char) :
    stringBody (before.flatMap String.utf8EncodeChar).reverse
      ((cs.flatMap escapeChar).flatMap String.utf8EncodeChar ++ 0x22 :: rest) =
      .ok (String.ofList (before ++ cs), rest) := by
  induction cs generalizing before with
  | nil =>
    rw [List.flatMap_nil, List.flatMap_nil, List.nil_append, stringBody, List.reverse_reverse,
      decode?_flatMap, List.append_nil]
  | cons c others ih =>
    have hbefore : (String.utf8EncodeChar c).reverse ++
        (before.flatMap String.utf8EncodeChar).reverse =
        ((before ++ [c]).flatMap String.utf8EncodeChar).reverse := by simp
    rw [List.flatMap_cons, List.flatMap_append, List.append_assoc, stringBody_escapeChar, hbefore,
      ih, List.append_assoc, List.singleton_append]

/-- The bytes of a text in quotation marks: the opening mark, and what the reader takes for the
text. -/
theorem exists_encode_quote (s : String) : ∃ body : List UInt8, encode (quote s) = 0x22 :: body ∧
    ∀ rest, stringBody [] (body ++ rest) = .ok (s, rest) := by
  refine ⟨(s.toList.flatMap escapeChar).flatMap String.utf8EncodeChar ++ [0x22], ?_, fun rest => ?_⟩
  · unfold quote
    rw [encode_ofList]
    simp only [List.cons_append, List.flatMap_cons, List.flatMap_append, List.flatMap_nil,
      List.append_nil]
    rfl
  · have h := stringBody_flatMap s.toList rest []
    rw [List.nil_append, String.ofList_toList] at h
    simpa using h

end Json.Parser

end HttpContract
