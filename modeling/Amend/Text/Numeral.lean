/-!
# Decimal numerals

Natural numbers and integers written in decimal, and the value of a row of digits. An integer of
more than `Numeral.limit` digits is not written or read.
-/

namespace Amend.Numeral

def ofNat (n : Nat) : List Char := Nat.toDigits 10 n

/-- The numeral of an integer, with a sign when it is negative. -/
def ofInt (n : Int) : List Char :=
  if n < 0 then '-' :: ofNat n.natAbs else ofNat n.natAbs

def isDigit (c : Char) : Bool := '0' ≤ c && c ≤ '9'

def digitValue (c : Char) : Nat := c.toNat - '0'.toNat

def value (digits : List Char) : Nat := digits.foldl (fun n c => 10 * n + digitValue c) 0

def length (n : Nat) : Nat := (ofNat n).length

/-- The most digits that an integer may have to be written or read. -/
def limit : Nat := 4300

def tooLong (n : Int) : Bool := limit < length n.natAbs

/-- A number in lower-case hexadecimal, padded with zeros to a width. -/
def hex (width n : Nat) : List Char :=
  let digits := Nat.toDigits 16 n
  List.replicate (width - digits.length) '0' ++ digits

def text (n : Nat) : String := String.ofList (ofNat n)

end Amend.Numeral
