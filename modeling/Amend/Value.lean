import Amend.Double

/-!
# Values

The nested values that updates read and build. Everything but a scalar is an object and carries the
identity it was made with, so `=` says "the same object" and not only "the same contents". Mappings
keep their entries in order and are keyed by `Key`, the hashable values; sets hold their members in
the order in which they list them.
-/

namespace Amend

/-- The identity of an object. Two places that hold one object hold one identity. -/
abbrev Ident := Nat

/-- An arithmetic progression of integers, up to and without `stop`. -/
structure Range where
  start : Int
  stop : Int
  step : Int
deriving DecidableEq

/-- The fixed sequences: plain, a named kind of them, and the record of two fields `x` and `y`. -/
inductive TupleKind where
  | plain
  | tri
  | point
deriving DecidableEq

/-- The sequences that are containers: lists, a named kind of list, and the fixed sequences. -/
inductive SeqKind where
  | list
  | row
  | tuple (kind : TupleKind)
deriving DecidableEq

/-- The mappings: plain, ordered, of a class derived from the plain one, a read-only view, and a
wrapper around a plain one. A derived class, such as that of the mappings with a default for missing
keys, has an `update` of its own. -/
inductive MapKind where
  | plain
  | ordered
  | defaulting
  | readOnly
  | wrapped
deriving DecidableEq

/-- The functions that compute a new value from the old one in a single step. -/
inductive Factory where
  | identity
  | wrap
  | isNone
  | kind
  | const
  | add
  | fail
deriving DecidableEq

mutual

/-- A nested value. A `text` is a row of characters, so none has half a surrogate pair by itself. A
`factory` is a function with its argument, a `runner` one that runs a command tree on the old
value. -/
inductive Value where
  | none
  | bool (b : Bool)
  | int (n : Int)
  | float (d : Double)
  | text (s : String)
  | bytes (id : Ident) (octets : List UInt8)
  | buffer (id : Ident) (octets : List UInt8)
  | range (id : Ident) (range : Range)
  | set (id : Ident) (members : List Key)
  | frozenSet (id : Ident) (members : List Key)
  | deque (id : Ident) (items : List Value)
  | factory (id : Ident) (name : Factory) (arg : Value)
  | runner (id : Ident) (tree : Value)
  | seq (id : Ident) (kind : SeqKind) (items : List Value)
  | map (id : Ident) (kind : MapKind) (entries : List (Key × Value))

/-- A hashable value: what may stand as the key of a mapping or the member of a set. -/
inductive Key where
  | none
  | bool (b : Bool)
  | int (n : Int)
  | float (d : Double)
  | text (s : String)
  | bytes (id : Ident) (octets : List UInt8)
  | range (id : Ident) (range : Range)
  | frozenSet (id : Ident) (members : List Key)
  | factory (id : Ident) (name : Factory) (arg : Value)
  | runner (id : Ident) (tree : Value)
  | tuple (id : Ident) (kind : TupleKind) (items : List Key)

end

instance : Inhabited Value := ⟨.none⟩
instance : Inhabited Key := ⟨.none⟩

abbrev Entries (α : Type) := List (Key × α)

namespace Range

def length (r : Range) : Nat :=
  if 0 < r.step ∧ r.start < r.stop then ((r.stop - r.start - 1) / r.step + 1).toNat
  else if r.step < 0 ∧ r.stop < r.start then ((r.start - r.stop - 1) / -r.step + 1).toNat
  else 0

/-- The first terms of a progression, no more than `n`. -/
def firstTerms (n : Nat) (r : Range) : List Int :=
  (List.range (min n r.length)).map fun (i : Nat) => r.start + i * r.step

def terms (r : Range) : List Int := r.firstTerms r.length

theorem firstTerms_eq_take (n : Nat) (r : Range) : r.firstTerms n = r.terms.take n := by
  simp [terms, firstTerms, ← List.map_take, List.take_range]

theorem length_terms (r : Range) : r.terms.length = r.length := by
  simp [terms, firstTerms]

end Range

namespace Value

def isMapping : Value → Bool
  | .map .. => true
  | _ => false

/-- Sequences that commands may copy: the containers and also progressions and queues, but not texts
and octets. -/
def isSequence : Value → Bool
  | .seq .. | .deque .. | .range .. => true
  | _ => false

/-- Mappings and sequences: what has properties to update. -/
def isContainer (v : Value) : Bool := v.isMapping || v.isSequence

/-- Whether a value counts as true: it is no zero and not empty. -/
def truthy : Value → Bool
  | .none => false
  | .bool b => b
  | .int n => n != 0
  | .float d => !d.isZero
  | .text s => s != ""
  | .bytes _ bs | .buffer _ bs => !bs.isEmpty
  | .range _ r => r.length != 0
  | .set _ ks | .frozenSet _ ks => !ks.isEmpty
  | .deque _ xs | .seq _ _ xs => !xs.isEmpty
  | .map _ _ es => !es.isEmpty
  | .factory .. | .runner .. => true

end Value

end Amend
