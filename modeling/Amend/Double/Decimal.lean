import Amend.Double.Nearest
import Amend.Text.Numeral

/-!
# Binary64 numbers in decimal

`Double.ofDecimal` is the nearest number to a decimal, and `Double.shortest` the decimal of fewest
digits that reads back as a given magnitude. `Double.written` lays those digits out.
-/

namespace Amend.Double

/-- The number nearest to `digits · 10 ^ exponent`. Decimals of an order far beyond the range are
settled by their order alone. -/
def ofDecimal (negative : Bool) (digits : Nat) (exponent : Int) : Double :=
  let order := (Numeral.length digits : Int) + exponent
  if digits = 0 ∨ order < -330 then zero negative
  else if 310 < order then .infinite negative
  else if 0 ≤ exponent then ofRatio negative (digits * Nat.pow 10 exponent.toNat) 1
  else ofRatio negative digits (Nat.pow 10 exponent.natAbs)

/-- The order of a positive magnitude: the least `p` with the magnitude below `10 ^ p`. -/
def order (rank : Nat) : Int :=
  let u := units rank
  if one ≤ u then Numeral.length (u / one) else 1 - (Numeral.length ((one - 1) / u) : Int)

/-- A decimal: an integer of digits and the power of ten that scales it. -/
structure Decimal where
  digits : Nat
  exponent : Int
deriving DecidableEq

def Decimal.stripped (d : Decimal) : Decimal :=
  let zeros := ((Numeral.ofNat d.digits).reverse.takeWhile (· = '0')).length
  if d.digits = 0 then d else ⟨d.digits / Nat.pow 10 zeros, d.exponent + zeros⟩

def Decimal.readsAs (d : Decimal) (rank : Fin magnitudes) : Bool :=
  ofDecimal false d.digits d.exponent = .finite false rank

/-- The nearest decimal of `count` digits that reads as the magnitude. The two neighbours on that
grid are tried, and a tie goes to the even one. -/
def nearestOf (rank : Fin magnitudes) (count : Nat) : Option Decimal :=
  let exponent := order rank - count
  let num := units rank * Nat.pow 10 (-exponent).toNat
  let den := one * Nat.pow 10 exponent.toNat
  let below := num / den
  let above := below + 1
  let nearer := if roundedQuotient num den = below then [below, above] else [above, below]
  (nearer.map fun digits => Decimal.stripped ⟨digits, exponent⟩).find? (·.readsAs rank)

def exactDecimal (rank : Nat) : Decimal := ⟨units rank * Nat.pow 5 places, -places⟩

/-- The decimal of fewest digits that reads as the magnitude, and of those the nearest. Seventeen
digits are always enough. -/
def shortest (rank : Fin magnitudes) : Decimal :=
  ((List.range 17).findSome? fun n => nearestOf rank (n + 1)).getD (exactDecimal rank)

/-- The digits of a decimal set out with a point. Positional notation covers decimal exponents from
-4 to 15 and keeps a digit after the point; beyond it one digit stands before the point and the
exponent has a sign and at least two digits. -/
def Decimal.written (d : Decimal) : List Char :=
  let digits := Numeral.ofNat d.digits
  let point := digits.length + d.exponent
  if -4 < point ∧ point ≤ 16 then
    if point ≤ 0 then "0.".toList ++ List.replicate point.natAbs '0' ++ digits
    else if d.exponent ≥ 0 then digits ++ List.replicate d.exponent.toNat '0' ++ ".0".toList
    else digits.take point.toNat ++ '.' :: digits.drop point.toNat
  else
    let power := point - 1
    let fraction := digits.drop 1
    let size := Numeral.ofNat power.natAbs
    digits.take 1 ++ (if fraction.isEmpty then [] else '.' :: fraction) ++
      'e' :: (if power < 0 then '-' else '+') :: (if size.length < 2 then '0' :: size else size)

def writtenMagnitude (rank : Fin magnitudes) : List Char :=
  if rank.val = 0 then "0.0".toList else (shortest rank).written

/-- The text of a number: the fewest digits that read back. -/
def written : Double → List Char
  | .nan => "nan".toList
  | .infinite negative => (if negative then "-inf" else "inf").toList
  | .finite negative rank => (if negative then ['-'] else []) ++ writtenMagnitude rank

/-- The number of a decimal in parts: the digits before the point, those after it, and the power of
ten. -/
def ofParts (negative : Bool) (whole fraction : List Char) (exponent : Int) : Double :=
  ofDecimal negative (Numeral.value (whole ++ fraction)) (exponent - fraction.length)

end Amend.Double
