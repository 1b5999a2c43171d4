/-!
# Binary64 numbers

A number is `nan`, an infinity, or a sign with the rank of its magnitude. Finite magnitudes are
numbered in increasing order from zero, so the rank orders them, and `Double.units` gives the
magnitude exactly, as a count of the least positive magnitude `2⁻¹⁰⁷⁴`.
-/

namespace Amend

namespace Double

/-- How many magnitudes share one exponent: 2⁵², one for each fraction. -/
abbrev fractions : Nat := 4503599627370496

/-- How many finite magnitudes there are, under 2047 exponents. -/
abbrev magnitudes : Nat := 2047 * fractions

/-- The binary digits after the point of the least positive magnitude. -/
abbrev places : Nat := 1074

end Double

/-- A binary64 number. There is one `nan`, and zero has two signs. -/
inductive Double where
  | nan
  | infinite (negative : Bool)
  | finite (negative : Bool) (rank : Fin Double.magnitudes)
deriving DecidableEq

namespace Double

def zero (negative : Bool) : Double := .finite negative ⟨0, by decide⟩

instance : Inhabited Double := ⟨zero false⟩

/-- The magnitude of a rank, counted in units of `2⁻¹⁰⁷⁴`. The ranks under the least exponent are
the subnormal magnitudes; from the second exponent on, every further one doubles the spacing. -/
def units (rank : Nat) : Nat :=
  if rank < fractions then rank
  else (fractions + rank % fractions) <<< (rank / fractions - 1)

def one : Nat := 1 <<< places

/-- The value of a finite number in units, with its sign. -/
def signedUnits (negative : Bool) (rank : Nat) : Int :=
  if negative then -(units rank : Int) else units rank

/-- The integer that a number is equal to, if there is one. -/
def toInt? : Double → Option Int
  | .finite negative rank =>
    if units rank % one = 0 then some (signedUnits negative rank / one) else none
  | _ => none

def isZero : Double → Bool
  | .finite _ rank => rank.val = 0
  | _ => false

def isFinite : Double → Bool
  | .finite .. => true
  | _ => false

end Double

end Amend
