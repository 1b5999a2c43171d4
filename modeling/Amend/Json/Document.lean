import Amend.Trace

/-!
# JSON documents

What a JSON text says: scalars, arrays, and objects whose members are named by texts, in order. As a
value, an array is a list and an object a plain mapping; of members of one name the first gives the
place and the last the value.
-/

namespace Amend.Json

/-- A JSON document. An `emptied` object is one whose every member was left out on the way. -/
inductive Document where
  | null
  | bool (b : Bool)
  | int (n : Int)
  | float (d : Double)
  | text (s : List Char)
  | array (items : List Document)
  | object (members : List (List Char × Document))
  | emptied

namespace Document

mutual

def toValue : Document → Making Value
  | .null => pure .none
  | .bool b => pure (.bool b)
  | .int n => pure (.int n)
  | .float d => pure (.float d)
  | .text s => pure (.text (String.ofList s))
  | .array xs => do
    let xs ← toValues xs
    return .seq (← Making.fresh) .list xs
  | .object ms => do
    let es ← toEntries ms
    return .map (← Making.fresh) .plain (Entries.putAll [] es)
  | .emptied => do return .map (← Making.fresh) .plain []
termination_by structural d => d

def toValues : List Document → Making (List Value)
  | [] => pure []
  | d :: ds => do return (← toValue d) :: (← toValues ds)
termination_by structural ds => ds

def toEntries : List (List Char × Document) → Making (List (Key × Value))
  | [] => pure []
  | (name, d) :: ms => do return (.text (String.ofList name), ← toValue d) :: (← toEntries ms)
termination_by structural ms => ms

end

end Document

end Amend.Json
