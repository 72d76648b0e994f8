/-!
# Cases of ASCII letters

Only the letters of ASCII have their case changed; all other characters stay.
-/

namespace HttpContract.Ascii

/-- The text with letters in upper case. -/
def upper (s : String) : String := String.ofList (s.toList.map Char.toUpper)

/-- The text with letters in lower case. -/
def lower (s : String) : String := String.ofList (s.toList.map Char.toLower)

end HttpContract.Ascii
