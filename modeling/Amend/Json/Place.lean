import Amend.Text.Numeral

/-!
# Places in a JSON text

What is wrong with a text that is no JSON document, and the place where it is wrong: the offset in
characters from the start, and the line and column, which count from one.
-/

namespace Amend.Json

/-- What is wrong with a text at some place. -/
inductive Problem where
  | byteOrderMark
  | valueExpected
  | extraData
  | commaExpected
  | colonExpected
  | nameExpected
  | unterminated
  | controlCharacter
  | escape
  | unicodeEscape
deriving DecidableEq

def Problem.text : Problem → String
  | .byteOrderMark => "Unexpected UTF-8 BOM (decode using utf-8-sig)"
  | .valueExpected => "Expecting value"
  | .extraData => "Extra data"
  | .commaExpected => "Expecting ',' delimiter"
  | .colonExpected => "Expecting ':' delimiter"
  | .nameExpected => "Expecting property name enclosed in double quotes"
  | .unterminated => "Unterminated string starting at"
  | .controlCharacter => "Invalid control character at"
  | .escape => "Invalid \\escape"
  | .unicodeEscape => "Invalid \\uXXXX escape"

/-- A place in a text. -/
structure Place where
  offset : Nat
  line : Nat
  column : Nat
deriving DecidableEq

/-- The place at an offset. A newline ends the line that it stands on. -/
def Place.at (document : List Char) (offset : Nat) : Place :=
  let before := document.take offset
  ⟨offset, before.count '\n' + 1, (before.reverse.takeWhile (· != '\n')).length + 1⟩

def Place.text (p : Place) : String :=
  "line " ++ Numeral.text p.line ++ " column " ++ Numeral.text p.column ++
    " (char " ++ Numeral.text p.offset ++ ")"

end Amend.Json
