import Amend.Json.Document

/-!
# Pieces of an indented document

A document on several lines is put together from pieces: brackets, line ends, names, separators and
scalars, in the order of writing. The separator after a name is a piece of its own, and
`Document.separatorPlace?` is the place of the first one.
-/

namespace Amend.Json

/-- A piece, told apart only as far as it is the separator after a name. -/
inductive Piece where
  | text
  | keySeparator
deriving DecidableEq

namespace Document

/-- A document that is written as one piece and inside an array shares that of its line. -/
def isScalar : Document → Bool
  | .array _ | .object _ | .emptied => false
  | _ => true

mutual

def pieces : Document → List Piece
  | .array [] | .object [] => [.text]
  | .array ds => itemPieces ds ++ [.text, .text]
  | .object ms => [.text, .text] ++ memberPieces ms ++ [.text, .text]
  | .emptied => [.text, .text, .text, .text]
  | _ => [.text]
termination_by structural d => d

/-- The pieces of the items of an array. What stands before an item is a piece with the item if that
is a scalar, and else one of its own. -/
def itemPieces : List Document → List Piece
  | [] => []
  | d :: ds => (if d.isScalar then [.text] else .text :: pieces d) ++ itemPieces ds
termination_by structural ds => ds

/-- The pieces of the members of an object: the name, its separator, the value, and the separator
before the next member. -/
def memberPieces : List (List Char × Document) → List Piece
  | [] => []
  | (_, d) :: ms =>
    .text :: .keySeparator :: pieces d ++ (if ms.isEmpty then [] else [.text]) ++ memberPieces ms
termination_by structural ms => ms

end

/-- The place among the pieces of the first separator after a name. -/
def separatorPlace? (d : Document) : Option Nat := d.pieces.findIdx? (· = .keySeparator)

end Document

end Amend.Json
