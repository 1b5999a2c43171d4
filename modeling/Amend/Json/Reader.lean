import Amend.Json.Document

/-!
# Reading JSON

A reader takes the characters that are left and gives what it has read and the rest. It refuses at
the first character that no document could have there, told by how many characters are left.
Besides the standard, `NaN`, `Infinity` and `-Infinity` are numbers.
-/

namespace Amend

namespace Json

/-- Why reading stopped. A place is told by the characters left from it on. -/
inductive Refusal where
  | malformed (problem : Problem) (left : Nat)
  | numeralTooLong (digits : Nat)

/-- What a reader gives: something, or a refusal. -/
abbrev Reading := Except Refusal

namespace Reader

/-- A refusal at the start of the given rest. -/
def refuse {α : Type} (problem : Problem) (rest : List Char) : Reading α :=
  .error (.malformed problem rest.length)

def isBlank (c : Char) : Bool := c = ' ' || c = '\t' || c = '\n' || c = '\r'

def skipBlanks (cs : List Char) : List Char := cs.dropWhile isBlank

def hexValue? (c : Char) : Option Nat :=
  if '0' ≤ c ∧ c ≤ '9' then some (c.toNat - '0'.toNat)
  else if 'a' ≤ c ∧ c ≤ 'f' then some (c.toNat - 'a'.toNat + 10)
  else if 'A' ≤ c ∧ c ≤ 'F' then some (c.toNat - 'A'.toNat + 10)
  else none

def code? (a b c d : Char) : Option Nat := do
  return (((← hexValue? a) * 16 + (← hexValue? b)) * 16 + (← hexValue? c)) * 16 + (← hexValue? d)

def escaped? : Char → Option Char
  | '"' => some '"'
  | '\\' => some '\\'
  | '/' => some '/'
  | 'b' => some '\x08'
  | 'f' => some '\x0c'
  | 'n' => some '\n'
  | 'r' => some '\r'
  | 't' => some '\t'
  | _ => none

/-- A character before a text that was read. -/
def prepend (c : Char) (read : Reading (List Char × List Char)) : Reading (List Char × List Char) :=
  read.map fun (s, rest) => (c :: s, rest)

/-- The first half of a pair, if one is waiting, before a text that was read without its second. -/
def release (half : Option Nat) (read : Reading (List Char × List Char)) :
    Reading (List Char × List Char) :=
  match half with
  | some u => prepend (Encoding.single u) read
  | none => read

/-- Reads a text up to its closing quote. `opened` is what was left at the opening one, and `half`
the first half of a pair that the last escape gave. An escape of a code has to be followed by
another character. -/
def readText (opened : Nat) (half : Option Nat) : List Char → Reading (List Char × List Char)
  | [] => .error (.malformed .unterminated opened)
  | c :: rest =>
    if c = '"' then release half (.ok ([], rest))
    else if c ≤ '\x1f' then refuse .controlCharacter (c :: rest)
    else if c ≠ '\\' then release half (prepend c (readText opened none rest))
    else
      match rest with
      | [] => .error (.malformed .unterminated opened)
      | e :: after =>
        if e ≠ 'u' then
          match escaped? e with
          | some c => release half (prepend c (readText opened none after))
          | none => refuse .escape (c :: rest)
        else
          match after with
          | h₁ :: h₂ :: h₃ :: h₄ :: after =>
            match code? h₁ h₂ h₃ h₄, half with
            | none, _ => refuse .unicodeEscape rest
            | some code, some high =>
              if after.isEmpty then refuse .unicodeEscape rest
              else if Encoding.isLow code then
                prepend (Encoding.paired high code) (readText opened none after)
              else if Encoding.isHigh code then
                prepend (Encoding.single high) (readText opened (some code) after)
              else
                prepend (Encoding.single high)
                  (prepend (Encoding.single code) (readText opened none after))
            | some code, none =>
              if after.isEmpty then refuse .unicodeEscape rest
              else if Encoding.isHigh code then readText opened (some code) after
              else prepend (Encoding.single code) (readText opened none after)
          | _ => refuse .unicodeEscape rest
termination_by structural cs => cs

def spanDigits (cs : List Char) : List Char × List Char :=
  (cs.takeWhile Numeral.isDigit, cs.dropWhile Numeral.isDigit)

/-- Reads the digits of a fraction after a point, none if no digit follows one. -/
def readFraction : List Char → List Char × List Char
  | '.' :: cs =>
    let (digits, rest) := spanDigits cs
    if digits.isEmpty then ([], '.' :: cs) else (digits, rest)
  | cs => ([], cs)

def readSigned : List Char → Option (Int × List Char)
  | '-' :: cs =>
    let (digits, rest) := spanDigits cs
    if digits.isEmpty then none else some (-(Numeral.value digits : Int), rest)
  | '+' :: cs =>
    let (digits, rest) := spanDigits cs
    if digits.isEmpty then none else some (Numeral.value digits, rest)
  | cs =>
    let (digits, rest) := spanDigits cs
    if digits.isEmpty then none else some (Numeral.value digits, rest)

/-- Reads an exponent, none if no digits follow its letter. -/
def readExponent : List Char → Option (Int × List Char)
  | 'e' :: cs | 'E' :: cs => readSigned cs
  | _ => none

/-- Reads the digits before the point: a zero, or digits that start with another. -/
def readWhole : List Char → Option (List Char × List Char)
  | '0' :: cs => some (['0'], cs)
  | cs =>
    let (digits, rest) := spanDigits cs
    if digits.isEmpty then none else some (digits, rest)

/-- Reads a number after its sign. With a fraction or an exponent it is a binary64 number. -/
def readNumber (negative : Bool) (cs : List Char) : Option (Reading (Document × List Char)) := do
  let (whole, rest) ← readWhole cs
  let (fraction, rest) := readFraction rest
  match readExponent rest with
  | some (exponent, rest) =>
    return .ok (.float (Double.ofParts negative whole fraction exponent), rest)
  | none =>
    if !fraction.isEmpty then
      return .ok (.float (Double.ofParts negative whole fraction 0), rest)
    else if Numeral.limit < whole.length then return .error (.numeralTooLong whole.length)
    else
      let n : Int := Numeral.value whole
      return .ok (.int (if negative then -n else n), rest)

def readScalar : List Char → Reading (Document × List Char)
  | 'n' :: 'u' :: 'l' :: 'l' :: rest => .ok (.null, rest)
  | 't' :: 'r' :: 'u' :: 'e' :: rest => .ok (.bool true, rest)
  | 'f' :: 'a' :: 'l' :: 's' :: 'e' :: rest => .ok (.bool false, rest)
  | 'N' :: 'a' :: 'N' :: rest => .ok (.float .nan, rest)
  | 'I' :: 'n' :: 'f' :: 'i' :: 'n' :: 'i' :: 't' :: 'y' :: rest =>
    .ok (.float (.infinite false), rest)
  | '-' :: 'I' :: 'n' :: 'f' :: 'i' :: 'n' :: 'i' :: 't' :: 'y' :: rest =>
    .ok (.float (.infinite true), rest)
  | '-' :: cs => (readNumber true cs).getD (refuse .valueExpected ('-' :: cs))
  | cs => (readNumber false cs).getD (refuse .valueExpected cs)

mutual

/-- Reads a document; `depth` bounds the readers that follow one another or nest. -/
def readValue : (depth : Nat) → List Char → Reading (Document × List Char)
  | 0, cs => refuse .valueExpected cs
  | _ + 1, '"' :: cs => do
    let (s, rest) ← readText (cs.length + 1) none cs
    return (.text s, rest)
  | depth + 1, '[' :: cs =>
    match skipBlanks cs with
    | ']' :: rest => .ok (.array [], rest)
    | cs => do
      let (items, rest) ← readItems depth cs
      return (.array items, rest)
  | depth + 1, '\x7b' :: cs =>
    match skipBlanks cs with
    | '\x7d' :: rest => .ok (.object [], rest)
    | cs => do
      let (members, rest) ← readMembers depth cs
      return (.object members, rest)
  | _ + 1, cs => readScalar cs

def readItems : (depth : Nat) → List Char → Reading (List Document × List Char)
  | 0, cs => refuse .valueExpected cs
  | depth + 1, cs => do
    let (item, rest) ← readValue depth cs
    match skipBlanks rest with
    | ']' :: rest => return ([item], rest)
    | ',' :: rest =>
      let (items, rest) ← readItems depth (skipBlanks rest)
      return (item :: items, rest)
    | rest => refuse .commaExpected rest

def readMembers :
    (depth : Nat) → List Char → Reading (List (List Char × Document) × List Char)
  | 0, cs => refuse .nameExpected cs
  | depth + 1, '"' :: cs => do
    let (name, rest) ← readText (cs.length + 1) none cs
    match skipBlanks rest with
    | ':' :: rest =>
      let (value, rest) ← readValue depth (skipBlanks rest)
      match skipBlanks rest with
      | '\x7d' :: rest => return ([(name, value)], rest)
      | ',' :: rest =>
        let (members, rest) ← readMembers depth (skipBlanks rest)
        return ((name, value) :: members, rest)
      | rest => refuse .commaExpected rest
    | rest => refuse .colonExpected rest
  | _ + 1, cs => refuse .nameExpected cs

end

/-- Reads a whole text as one document. A bracket takes two readers, that of the array and that of
its first item, so twice the length bounds the depth. -/
def readDocument (cs : List Char) : Reading Document := do
  let (d, rest) ← readValue (2 * cs.length + 2) (skipBlanks cs)
  match skipBlanks rest with
  | [] => return d
  | rest => refuse .extraData rest

end Reader

/-- A refusal as a fault of the text that was read. -/
def Refusal.toFault (document : List Char) : Refusal → Fault
  | .malformed problem left => .malformed problem (Place.at document (document.length - left))
  | .numeralTooLong digits => .numeralTooLong digits

/-- Reads a text as a document. A mark at its start is refused. -/
def Document.ofText (cs : List Char) : Except Fault Document :=
  match cs with
  | '\uFEFF' :: _ => .error (.malformed .byteOrderMark (Place.at cs 0))
  | _ => (Reader.readDocument cs).mapError (·.toFault cs)

def Document.ofSource : Value → Except Fault Document
  | .text s => ofText s.toList
  | .bytes _ bs | .buffer _ bs =>
    match Encoding.decode bs with
    | .ok cs => (Reader.readDocument cs).mapError (·.toFault cs)
    | .error refusal => .error (.undecodable refusal)
  | v => .error (.notDocument v.kind)

end Json

/-- Reads a value from a JSON text, or from octets that hold one. -/
def ofJson (source : Value) : Update Value := do
  let d ← Update.lift (Json.Document.ofSource source)
  Update.make d.toValue

end Amend
