import Amend.Value.Kind
import Amend.Double.Decimal
import Amend.Text.Quoted

/-!
# Literals

The written form of keys and values, as messages and the log show them: scalars in their source
form, items between brackets, and the name of the kind around what has no brackets of its own.
-/

namespace Amend

namespace Literal

def joined (items : List (List Char)) : List Char := List.intercalate ", ".toList items

def bracketed (opening closing : Char) (items : List (List Char)) : List Char :=
  opening :: joined items ++ [closing]

def called (name : String) (args : List (List Char)) : List Char :=
  name.toList ++ bracketed '(' ')' args

def bool (b : Bool) : List Char := (if b then "True" else "False").toList

/-- A progression; a step of one is left out. -/
def range (r : Range) : List Char :=
  called "range" ([r.start, r.stop] ++ (if r.step = 1 then [] else [r.step]) |>.map Numeral.ofInt)

/-- A fixed sequence. A single item is followed by a comma, and the fields of a point are named. -/
def tuple : TupleKind → List (List Char) → List Char
  | .point, [x, y] => called "Point" ["x=".toList ++ x, "y=".toList ++ y]
  | _, [item] => '(' :: item ++ [',', ')']
  | _, items => bracketed '(' ')' items

/-- The members of a set, or the name of its kind alone for none. -/
def set (members : List (List Char)) : List Char :=
  if members.isEmpty then called "set" [] else bracketed '{' '}' members

def frozenSet (members : List (List Char)) : List Char :=
  called "frozenset" (if members.isEmpty then [] else [bracketed '{' '}' members])

def function : List Char := "<function>".toList

def braced (entries : List (List Char × List Char)) : List Char :=
  bracketed '{' '}' (entries.map fun (k, v) => k ++ ": ".toList ++ v)

def map (kind : MapKind) (entries : List (List Char × List Char)) : List Char :=
  let name := (Kind.map kind).name
  match kind with
  | .plain | .wrapped => braced entries
  | .readOnly => called name [braced entries]
  | .defaulting => called name ["<class 'list'>".toList, braced entries]
  | .ordered =>
    called name <| if entries.isEmpty then [] else
      [bracketed '[' ']' (entries.map fun (k, v) => bracketed '(' ')' [k, v])]

end Literal

namespace Key

mutual

def literal : Key → List Char
  | .none => "None".toList
  | .bool b => Literal.bool b
  | .int n => Numeral.ofInt n
  | .float d => d.written
  | .text s => Quoted.text s
  | .bytes _ bs => Quoted.octets bs
  | .range _ r => Literal.range r
  | .frozenSet _ ks => Literal.frozenSet (literals ks)
  | .factory .. | .runner .. => Literal.function
  | .tuple _ kind ks => Literal.tuple kind (literals ks)
termination_by structural k => k

def literals : List Key → List (List Char)
  | [] => []
  | k :: ks => literal k :: literals ks
termination_by structural ks => ks

end

end Key

namespace Value

mutual

def literal : Value → List Char
  | .none => "None".toList
  | .bool b => Literal.bool b
  | .int n => Numeral.ofInt n
  | .float d => d.written
  | .text s => Quoted.text s
  | .bytes _ bs => Quoted.octets bs
  | .buffer _ bs => Literal.called "bytearray" [Quoted.buffer bs]
  | .range _ r => Literal.range r
  | .set _ ks => Literal.set (Key.literals ks)
  | .frozenSet _ ks => Literal.frozenSet (Key.literals ks)
  | .deque _ xs => Literal.called "deque" [Literal.bracketed '[' ']' (literals xs)]
  | .factory .. | .runner .. => Literal.function
  | .seq _ (.tuple kind) xs => Literal.tuple kind (literals xs)
  | .seq _ _ xs => Literal.bracketed '[' ']' (literals xs)
  | .map _ kind es => Literal.map kind (entryLiterals es)
termination_by structural v => v

def literals : List Value → List (List Char)
  | [] => []
  | v :: vs => literal v :: literals vs
termination_by structural vs => vs

def entryLiterals : Entries Value → List (List Char × List Char)
  | [] => []
  | (k, v) :: es => (k.literal, literal v) :: entryLiterals es
termination_by structural es => es

end

/-- A value as plain text: a text is itself, a read-only view shows what it is a view of, and
anything else is in its written form. -/
def display : Value → String
  | .text s => s
  | .map _ .readOnly es => String.ofList (Literal.braced (entryLiterals es))
  | v => String.ofList v.literal

end Value

end Amend
