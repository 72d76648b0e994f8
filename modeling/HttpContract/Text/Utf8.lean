/-!
# UTF-8

`scan` reads bytes as UTF-8. Each well-formed sequence gives its character; each maximal piece that
cannot be continued to one gives `none`. `decode?` accepts well-formed bytes only, `decodeLossy`
puts the replacement character in place of the others.
-/

namespace HttpContract.Utf8

/-- A character whose first bytes have been read: the bits so far, how many bytes are missing, and
the bounds of the next one. -/
structure Pending where
  bits : Nat
  missing : Nat
  least : Nat
  greatest : Nat

/-- What a first byte announces: a character, a longer sequence, or nothing. -/
inductive Lead where
  | char (c : Char)
  | more (p : Pending)
  | invalid

/-- Classify a byte that starts a sequence. Second bytes are bounded so that every character has one
encoding, and surrogates and numbers beyond the last character have none. -/
def Lead.of (b : Nat) : Lead :=
  if b < 0x80 then .char (Char.ofNat b)
  else if b < 0xC2 then .invalid
  else if b < 0xE0 then .more ⟨b - 0xC0, 1, 0x80, 0xBF⟩
  else if b = 0xE0 then .more ⟨0, 2, 0xA0, 0xBF⟩
  else if b = 0xED then .more ⟨0xD, 2, 0x80, 0x9F⟩
  else if b < 0xF0 then .more ⟨b - 0xE0, 2, 0x80, 0xBF⟩
  else if b = 0xF0 then .more ⟨0, 3, 0x90, 0xBF⟩
  else if b < 0xF4 then .more ⟨b - 0xF0, 3, 0x80, 0xBF⟩
  else if b = 0xF4 then .more ⟨4, 3, 0x80, 0x8F⟩
  else .invalid

/-- Read on after a possibly unfinished character. -/
def scanFrom : Option Pending → List UInt8 → List (Option Char)
  | none, [] => []
  | some _, [] => [none]
  | none, b :: rest =>
    match Lead.of b.toNat with
    | .char c => some c :: scanFrom none rest
    | .more p => scanFrom (some p) rest
    | .invalid => none :: scanFrom none rest
  | some p, b :: rest =>
    if p.least ≤ b.toNat ∧ b.toNat ≤ p.greatest then
      let bits := p.bits * 64 + (b.toNat - 0x80)
      if p.missing ≤ 1 then some (Char.ofNat bits) :: scanFrom none rest
      else scanFrom (some ⟨bits, p.missing - 1, 0x80, 0xBF⟩) rest
    else
      match Lead.of b.toNat with
      | .char c => none :: some c :: scanFrom none rest
      | .more q => none :: scanFrom (some q) rest
      | .invalid => none :: none :: scanFrom none rest

/-- The characters of a byte sequence, with `none` for each ill-formed piece. -/
def scan (bytes : List UInt8) : List (Option Char) := scanFrom none bytes

/-- The text encoded by well-formed bytes. -/
def decode? (bytes : List UInt8) : Option String :=
  ((scan bytes).mapM id).map String.ofList

/-- The text encoded by any bytes, ill-formed pieces replaced by U+FFFD. -/
def decodeLossy (bytes : List UInt8) : String :=
  String.ofList ((scan bytes).map (fun c => c.getD '\uFFFD'))

/-- The bytes of a text. -/
def encode (s : String) : List UInt8 := s.toUTF8.toList

end HttpContract.Utf8
