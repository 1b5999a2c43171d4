import Amend.Command
import Amend.Json.Place
import Amend.Text.Encoding
import Amend.Value.Literal

/-!
# Faults

Why an update or a conversion fails. A fault is a cause; its class and its wording are functions of
the cause (`Fault.category`, `Fault.message`).
-/

namespace Amend

/-- The classes of faults that callers tell apart. -/
inductive Fault.Category where
  | type
  | value
  | index
  | attribute
  | runtime
  | overflow
  | memory
  | document
  | encoding
deriving DecidableEq

/-- The reason for a failure. -/
inductive Fault where
  | sequenceNeeded (command : Command) (kind : Kind)
  | mappingNeeded (command : Command) (kind : Kind)
  | unknownCommand (given : Value)
  | nodeNotMapping (kind : Kind)
  | noProperties (kind : Kind)
  | keyNotPosition (kind : Kind)
  /-- A write outside of a sequence. -/
  | outOfRange
  /-- A position that no sequence could have. -/
  | positionTooLarge
  /-- A copy would have more items than a size can say. -/
  | sizeTooLarge
  | outOfMemory
  | fieldCount (given : Nat)
  /-- What can be changed in place is no key. -/
  | unhashable (kind : Kind)
  /-- A merge needs a mapping or something to iterate over. -/
  | notIterable (kind : Kind)
  | elementNotSequence (position : Nat)
  | elementNotPair (position length : Nat)
  /-- A pair for an ordered mapping lacks values. -/
  | pairTooShort (given : Nat)
  /-- A pair for an ordered mapping has more than two values. -/
  | pairTooLong
  | noItems (kind : Kind)
  | notCallable (kind : Kind)
  | integerNeeded
  | notAddable (kind : Kind)
  /-- An integer is beyond the finite binary64 numbers. -/
  | beyondDouble
  | failed (argument : Value)
  | notDocument (kind : Kind)
  | undecodable (refusal : Encoding.Refusal)
  | malformed (problem : Json.Problem) (place : Json.Place)
  /-- An integer of a document has too many digits. -/
  | numeralTooLong (digits : Nat)
  /-- An integer has too many digits to be written. -/
  | integerTooLong
  | unknownOption (name : String)
  /-- A function that is no class of encoders is given an option. -/
  | unexpectedArgument (name : String)
  /-- An option repeats an argument that is given already. -/
  | repeatedOption (name : String)
  /-- Separators come in a pair, so nothing of this kind. -/
  | separatorsNotPair (kind : Kind)
  | separatorsTooFew (given : Nat)
  | separatorsTooMany
  /-- A separator is a text; the number is its place among the encoder's arguments. -/
  | separatorNotText (argument : Nat) (kind : Kind)
  /-- A separator is joined to a text, so it has to be one. -/
  | separatorNotJoined (kind : Kind)
  /-- The pieces of a document are texts; the number is the place of one among them. -/
  | pieceNotText (position : Nat) (kind : Kind)
  | indentNotInteger (kind : Kind)
  | indentTooLarge
  | keyNotWritable (kind : Kind)
  | notWritable (kind : Kind)
  /-- A value is to be written within itself. -/
  | circularReference
  /-- Too many values stand for others at once. -/
  | nestedTooDeep
  /-- Two keys cannot be compared. The question was if the left one is less, or greater, than the
  right one. -/
  | notComparable (greater : Bool) (left right : Kind)
  /-- A number without a standard form, shown in some layouts. -/
  | notCompliant (shown : Option Double)

namespace Fault

def category : Fault → Category
  | .unknownCommand _ | .elementNotPair .. | .pairTooShort _ | .pairTooLong | .integerNeeded
  | .numeralTooLong _ | .integerTooLong | .separatorsTooFew _ | .separatorsTooMany
  | .circularReference | .notCompliant _ => .value
  | .outOfRange | .positionTooLarge => .index
  | .noItems _ => .attribute
  | .failed _ | .nestedTooDeep => .runtime
  | .beyondDouble | .indentTooLarge | .sizeTooLarge => .overflow
  | .outOfMemory => .memory
  | .malformed .. => .document
  | .undecodable _ => .encoding
  | _ => .type

def inQuotes (s : String) : String := "'" ++ s ++ "'"

/-- Why a text cannot be joined to a value of some kind. What can be joined to its own kind says so,
and queues and octets are called by their short names. -/
def joinRefusal : Kind → String
  | .seq (.tuple _) => "can only concatenate tuple (not \"str\") to tuple"
  | .seq _ => "can only concatenate list (not \"str\") to list"
  | .deque => "can only concatenate deque (not \"str\") to deque"
  | .bytes => "can't concat str to bytes"
  | .buffer => "can't concat str to bytearray"
  | kind => "unsupported operand type(s) for +: " ++ inQuotes kind.qualifiedName ++ " and 'str'"

def message : Fault → String
  | .sequenceNeeded c kind => inQuotes c.token ++ " needs a sequence, got " ++ kind.name
  | .mappingNeeded c kind => inQuotes c.token ++ " needs a mapping, got " ++ kind.name
  | .unknownCommand given => "Unknown command: " ++ String.ofList given.literal
  | .nodeNotMapping kind => "Command node must be a mapping, got " ++ kind.name
  | .noProperties kind => "Cannot update properties of " ++ kind.name
  | .keyNotPosition kind => "list indices must be integers or slices, not " ++ kind.name
  | .outOfRange => "list assignment index out of range"
  | .positionTooLarge => "cannot fit 'int' into an index-sized integer"
  | .sizeTooLarge => "Python int too large to convert to C ssize_t"
  | .outOfMemory => ""
  | .fieldCount given => "Expected 2 arguments, got " ++ Numeral.text given
  | .unhashable kind => "unhashable type: " ++ inQuotes kind.qualifiedName
  | .notIterable kind => inQuotes kind.qualifiedName ++ " object is not iterable"
  | .elementNotSequence i =>
    "cannot convert dictionary update sequence element #" ++ Numeral.text i ++ " to a sequence"
  | .elementNotPair i n =>
    "dictionary update sequence element #" ++ Numeral.text i ++ " has length " ++ Numeral.text n ++
      "; 2 is required"
  | .pairTooShort n =>
    "need more than " ++ Numeral.text n ++ (if n = 1 then " value" else " values") ++ " to unpack"
  | .pairTooLong | .separatorsTooMany => "too many values to unpack (expected 2)"
  | .noItems kind => inQuotes kind.qualifiedName ++ " object has no attribute 'items'"
  | .notCallable kind => inQuotes kind.qualifiedName ++ " object is not callable"
  | .integerNeeded => "add needs an int"
  | .notAddable kind =>
    "unsupported operand type(s) for +: 'int' and " ++ inQuotes kind.qualifiedName
  | .beyondDouble => "int too large to convert to float"
  | .failed argument => argument.display
  | .notDocument kind => "the JSON object must be str, bytes or bytearray, not " ++ kind.name
  | .undecodable refusal => refusal.text
  | .malformed problem place => problem.text ++ ": " ++ place.text
  | .numeralTooLong digits =>
    "Exceeds the limit (4300 digits) for integer string conversion: value has " ++
      Numeral.text digits ++ " digits; use sys.set_int_max_str_digits() to increase the limit"
  | .integerTooLong => "Exceeds the limit (4300 digits) for integer string conversion"
  | .unknownOption name =>
    "JSONEncoder.__init__() got an unexpected keyword argument " ++ inQuotes name
  | .unexpectedArgument name => "<lambda>() got an unexpected keyword argument " ++ inQuotes name
  | .repeatedOption name =>
    (if name = "obj" then "to_json()" else "JSONEncoder.__init__()") ++
      " got multiple values for argument " ++ inQuotes name
  | .separatorsNotPair kind => "cannot unpack non-iterable " ++ kind.qualifiedName ++ " object"
  | .separatorsTooFew given =>
    "not enough values to unpack (expected 2, got " ++ Numeral.text given ++ ")"
  | .separatorNotText argument kind =>
    "make_encoder() argument " ++ Numeral.text argument ++ " must be str, not " ++
      (if kind = .none then "None" else kind.qualifiedName)
  | .separatorNotJoined kind => joinRefusal kind
  | .pieceNotText position kind =>
    "sequence item " ++ Numeral.text position ++ ": expected str instance, " ++
      kind.qualifiedName ++ " found"
  | .indentNotInteger kind =>
    "can't multiply sequence by non-int of type " ++ inQuotes kind.qualifiedName
  | .indentTooLarge => "cannot fit 'int' into an index-sized integer"
  | .keyNotWritable kind => "keys must be str, int, float, bool or None, not " ++ kind.name
  | .notWritable kind => "Object of type " ++ kind.name ++ " is not JSON serializable"
  | .circularReference => "Circular reference detected"
  | .nestedTooDeep => "maximum recursion depth exceeded while encoding a JSON object"
  | .notComparable greater left right =>
    inQuotes (if greater then ">" else "<") ++ " not supported between instances of " ++
      inQuotes left.qualifiedName ++ " and " ++ inQuotes right.qualifiedName
  | .notCompliant none => "Out of range float values are not JSON compliant"
  | .notCompliant (some d) =>
    "Out of range float values are not JSON compliant: " ++ String.ofList d.written

end Fault

end Amend
