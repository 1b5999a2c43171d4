import Amend.Host

/-!
# Storage

How large a copy may be. The size of anything is an integer of 64 bits, and the machine's memory is
a further bound. Only progressions and indentations can ask for too much: both are given by a
number, and are refused by it before any of them is made.
-/

namespace Amend
variable [Machine]

namespace Storage

/-- Room for the items of a list, at eight octets each. -/
def reserveItems (count : Nat) : Except Fault Unit :=
  if 9223372036854775808 ≤ count then .error .sizeTooLarge
  else if Machine.capacity < 8 * count then .error .outOfMemory
  else .ok ()

/-- Room for the characters of a text, at an octet each. -/
def reserveText (count : Nat) : Except Fault Unit :=
  if Machine.capacity < count then .error .outOfMemory else .ok ()

end Storage

/-- A progression written out as the items of a list. -/
def Range.items (r : Range) : Except Fault (List Value) := do
  Storage.reserveItems r.length
  return r.terms.map .int

end Amend
