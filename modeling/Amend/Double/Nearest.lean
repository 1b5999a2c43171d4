import Amend.Double

/-!
# Rounding to the nearest binary64 number

`Double.ofRatio` rounds a ratio of natural numbers to the nearest number, a tie to the even rank.
Integers (`Double.ofInt?`) and sums (`Double.add`) are rounded through it.
-/

namespace Amend.Double

/-- The quotient rounded to the nearest integer, a half to the even one. -/
def roundedQuotient (num den : Nat) : Nat :=
  let quotient := num / den
  let remainder := num % den
  if 2 * remainder < den ∨ (2 * remainder = den ∧ quotient % 2 = 0) then quotient
  else quotient + 1

/-- The rank nearest to a ratio; at least `magnitudes` when the ratio rounds beyond every finite
magnitude. Under the exponent of the ratio the spacing is one unit shifted left, and the rank is
`shift * fractions` plus the rounded quotient by the spacing, also when the quotient carries into
the next exponent. -/
def rankOfRatio (num den : Nat) : Nat :=
  let scaled := num * one
  let shift := (scaled / den).log2 - 52
  shift * fractions + roundedQuotient scaled (den <<< shift)

/-- The nearest number to a ratio, an infinity beyond the finite range. -/
def ofRatio (negative : Bool) (num den : Nat) : Double :=
  let rank := rankOfRatio num den
  if h : rank < magnitudes then .finite negative ⟨rank, h⟩ else .infinite negative

/-- The nearest number to an integer, or `none` beyond the finite range. -/
def ofInt? (n : Int) : Option Double :=
  match ofRatio (decide (n < 0)) n.natAbs 1 with
  | .infinite _ => none
  | d => some d

/-- The sum, rounded to nearest. Opposite infinities have none, and a sum of zero is positive
unless both terms are negative. -/
def add : Double → Double → Double
  | .nan, _ => .nan
  | _, .nan => .nan
  | .infinite a, .infinite b => if a = b then .infinite a else .nan
  | .infinite a, .finite .. => .infinite a
  | .finite .., .infinite b => .infinite b
  | .finite a m, .finite b n =>
    let sum := signedUnits a m + signedUnits b n
    if sum = 0 then zero (a && b)
    else ofRatio (decide (sum < 0)) sum.natAbs one

end Amend.Double
