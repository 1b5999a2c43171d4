import Amend.Value

/-!
# Kinds of values

The kind of a value and its names: the short one, and the qualified one, which some messages use and
which puts a home before the kinds that have one.
-/

namespace Amend

/-- What a value is, apart from its contents. -/
inductive Kind where
  | none
  | bool
  | int
  | float
  | text
  | bytes
  | buffer
  | range
  | set
  | frozenSet
  | deque
  | function
  | seq (kind : SeqKind)
  | map (kind : MapKind)
deriving DecidableEq

namespace Kind

def name : Kind → String
  | .none => "NoneType"
  | .bool => "bool"
  | .int => "int"
  | .float => "float"
  | .text => "str"
  | .bytes => "bytes"
  | .buffer => "bytearray"
  | .range => "range"
  | .set => "set"
  | .frozenSet => "frozenset"
  | .deque => "deque"
  | .function => "function"
  | .seq .list => "list"
  | .seq .row => "Row"
  | .seq (.tuple .plain) => "tuple"
  | .seq (.tuple .tri) => "Tri"
  | .seq (.tuple .point) => "Point"
  | .map .plain => "dict"
  | .map .ordered => "OrderedDict"
  | .map .defaulting => "defaultdict"
  | .map .readOnly => "mappingproxy"
  | .map .wrapped => "UserDict"

/-- The name of a kind with its home. -/
def qualifiedName : Kind → String
  | .deque => "collections.deque"
  | .map .ordered => "collections.OrderedDict"
  | .map .defaulting => "collections.defaultdict"
  | kind => kind.name

end Kind

namespace Value

def kind : Value → Kind
  | .none => .none
  | .bool _ => .bool
  | .int _ => .int
  | .float _ => .float
  | .text _ => .text
  | .bytes .. => .bytes
  | .buffer .. => .buffer
  | .range .. => .range
  | .set .. => .set
  | .frozenSet .. => .frozenSet
  | .deque .. => .deque
  | .factory .. | .runner .. => .function
  | .seq _ kind _ => .seq kind
  | .map _ kind _ => .map kind

end Value

namespace Key

def kind : Key → Kind
  | .none => .none
  | .bool _ => .bool
  | .int _ => .int
  | .float _ => .float
  | .text _ => .text
  | .bytes .. => .bytes
  | .range .. => .range
  | .frozenSet .. => .frozenSet
  | .factory .. | .runner .. => .function
  | .tuple _ kind _ => .seq (.tuple kind)

end Key

end Amend
