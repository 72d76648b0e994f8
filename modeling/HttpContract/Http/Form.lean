import HttpContract.Text.Percent

/-!
# Form-encoded pairs

The query of a target is a list of pairs of a name and a value, joined by ampersands. Plus signs
are spaces, other characters can be percent-encoded, and bytes that are no text are replaced.
-/

namespace HttpContract.Http.Form

/-- The text behind its form-encoded bytes. -/
def decodeText (bytes : List UInt8) : String :=
  Utf8.decodeLossy (Percent.decode (bytes.map (fun b => if b = 0x2B then 0x20 else b)))

/-- The pair behind its form-encoded bytes; without an equals sign the value is empty. -/
def decodePair (bytes : List UInt8) : String × String :=
  (decodeText (bytes.takeWhile (· != 0x3D)), decodeText ((bytes.dropWhile (· != 0x3D)).drop 1))

/-- The pairs of a form; empty pieces are none. -/
def decode (form : String) : List (String × String) :=
  (((Utf8.encode form).splitOn 0x26).filter (fun piece => !piece.isEmpty)).map decodePair

end HttpContract.Http.Form
