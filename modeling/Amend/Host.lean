import Amend.Trace

/-!
# Hosts

What updates rely on and do not decide: the room that a machine has, and the functions and classes
that callers hand in. All of it is given by a `Host`, whose only laws say that there is room for a
pair and that no identity is handed out twice. What a statement needs beyond that, such as functions
that are pure or an update that overwrites, is a hypothesis of its own. `Amend.Standard` has the
host of the functions that are known by name.
-/

namespace Amend

/-- A machine. Its memory has room for a pair, at eight octets an item. -/
class Machine where
  /-- The octets that memory holds. -/
  capacity : Nat
  /-- How many values may be in the course of being replaced when a text is written. -/
  nesting : Nat
  pair_le_capacity : 16 ≤ capacity

/-- The functions and classes of callers, on a machine. A function is known by a name and an
argument of its own, in which it has all that it keeps. -/
class Host extends Machine where
  /-- What a function with its argument makes of a value. -/
  call : (f : Factory) → (arg old : Value) → Update Value
  /-- The `update` of a derived class of mappings: what the entries become under an operand. -/
  update : (es : Entries Value) → (operand : Value) → Update (Entries Value)
  /-- The text that an encoder of a caller's class writes of a value, under options by name. -/
  encode : (cls : Value) → (options : List (String × Value)) → (v : Value) → Update String
  call_grows : ∀ f arg old, (call f arg old).Grows
  update_grows : ∀ es operand, (update es operand).Grows
  encode_grows : ∀ cls options v, (encode cls options v).Grows

end Amend
