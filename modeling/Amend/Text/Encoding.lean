import Amend.Text.Numeral

/-!
# Encodings of text

Octets to text. `Encoding.detect` tells the encoding of a document from its mark or from the zeros
among its first octets, and `Encoding.decode` reads it, or tells which octets fit no character and
why.
-/

namespace Amend

/-- The encodings that a document may have. -/
inductive Encoding where
  | utf8
  | utf16 (bigEndian : Bool)
  | utf32 (bigEndian : Bool)
deriving DecidableEq

namespace Encoding

def name : Encoding → String
  | .utf8 => "utf-8"
  | .utf16 false => "utf-16-le"
  | .utf16 true => "utf-16-be"
  | .utf32 false => "utf-32-le"
  | .utf32 true => "utf-32-be"

/-- Why some octets are no character. -/
inductive Cause where
  | invalidStart
  | invalidContinuation
  | unexpectedEnd
  | truncated
  | beyondUnicode
deriving DecidableEq

def Cause.text : Cause → String
  | .invalidStart => "invalid start byte"
  | .invalidContinuation => "invalid continuation byte"
  | .unexpectedEnd => "unexpected end of data"
  | .truncated => "truncated data"
  | .beyondUnicode => "code point not in range(0x110000)"

/-- Octets that fit no character: the first of them, their span, and why. -/
structure Refusal where
  encoding : Encoding
  octet : UInt8
  start : Nat
  stop : Nat
  cause : Cause
deriving DecidableEq

/-- How a document is encoded, and how many octets its mark has. -/
structure Detected where
  encoding : Encoding
  mark : Nat
deriving DecidableEq

/-- The encoding of a document, from its mark or else from the zeros among its first octets. -/
def detect : List UInt8 → Detected
  | 0x00 :: 0x00 :: 0xFE :: 0xFF :: _ => ⟨.utf32 true, 4⟩
  | 0xFF :: 0xFE :: 0x00 :: 0x00 :: _ => ⟨.utf32 false, 4⟩
  | 0xFE :: 0xFF :: _ => ⟨.utf16 true, 2⟩
  | 0xFF :: 0xFE :: _ => ⟨.utf16 false, 2⟩
  | 0xEF :: 0xBB :: 0xBF :: _ => ⟨.utf8, 3⟩
  | a :: b :: c :: d :: _ =>
    if a = 0 then ⟨if b = 0 then .utf32 true else .utf16 true, 0⟩
    else if b = 0 then ⟨if c = 0 ∧ d = 0 then .utf32 false else .utf16 false, 0⟩
    else ⟨.utf8, 0⟩
  | [a, b] =>
    if a = 0 then ⟨.utf16 true, 0⟩
    else if b = 0 then ⟨.utf16 false, 0⟩
    else ⟨.utf8, 0⟩
  | _ => ⟨.utf8, 0⟩

/-- Whether a unit is the first half of a pair. -/
def isHigh (u : Nat) : Bool := 0xD800 ≤ u && u < 0xDC00

/-- Whether a unit is the second half of a pair. -/
def isLow (u : Nat) : Bool := 0xDC00 ≤ u && u < 0xE000

def paired (high low : Nat) : Char :=
  Char.ofNat (0x10000 + (high - 0xD800) * 0x400 + (low - 0xDC00))

/-- The character of a code. A half that stands alone is no character, and U+FFFD stands for it. -/
def single (u : Nat) : Char := if isHigh u || isLow u then '\uFFFD' else Char.ofNat u

/-- A character begun in UTF-8: where, with which octet, the code so far, the octets still owed and
the range that the next of them must lie in. -/
structure Begun where
  start : Nat
  octet : UInt8
  code : Nat
  owed : Nat
  low : UInt8
  high : UInt8

/-- Whether the character begun is a half of a pair, with its last octet owed. -/
def Begun.isHalf (begun : Begun) : Bool :=
  begun.owed = 1 && 0x360 ≤ begun.code && begun.code < 0x380

/-- The refusal of a character begun, at a position where it does not go on. A half that is not
complete is refused for what follows its first octet. -/
def Begun.refuse (begun : Begun) (pos : Nat) (cause : Cause) : Refusal :=
  if begun.isHalf then
    ⟨.utf8, begun.octet, begun.start, begun.start + 1, .invalidContinuation⟩
  else ⟨.utf8, begun.octet, begun.start, pos, cause⟩

/-- The character that an octet begins, or `none` if no character starts with it. -/
def begin? (start : Nat) (b : UInt8) : Option Begun :=
  let begun (code owed : Nat) (low high : UInt8) : Begun := ⟨start, b, code, owed, low, high⟩
  let bits := b.toNat
  if b < 0x80 then some (begun bits 0 0x80 0xBF)
  else if b < 0xC2 then none
  else if b < 0xE0 then some (begun (bits - 0xC0) 1 0x80 0xBF)
  else if b = 0xE0 then some (begun 0 2 0xA0 0xBF)
  else if b < 0xF0 then some (begun (bits - 0xE0) 2 0x80 0xBF)
  else if b = 0xF0 then some (begun 0 3 0x90 0xBF)
  else if b < 0xF4 then some (begun (bits - 0xF0) 3 0x80 0xBF)
  else if b = 0xF4 then some (begun (bits - 0xF0) 3 0x80 0x8F)
  else none

/-- Decodes UTF-8 from a position on, with the character begun before it, if any. -/
def decodeUtf8 (pos : Nat) : Option Begun → List UInt8 → Except Refusal (List Char)
  | none, [] => .ok []
  | some begun, [] => .error (begun.refuse pos .unexpectedEnd)
  | none, b :: rest =>
    match begin? pos b with
    | none => .error ⟨.utf8, b, pos, pos + 1, .invalidStart⟩
    | some begun =>
      if begun.owed = 0 then do return Char.ofNat begun.code :: (← decodeUtf8 (pos + 1) none rest)
      else decodeUtf8 (pos + 1) (some begun) rest
  | some begun, b :: rest =>
    if b < begun.low ∨ begun.high < b then .error (begun.refuse pos .invalidContinuation)
    else
      let code := begun.code * 64 + (b.toNat - 0x80)
      if begun.owed = 1 then do return single code :: (← decodeUtf8 (pos + 1) none rest)
      else
        let next : Begun := { begun with code, owed := begun.owed - 1, low := 0x80, high := 0xBF }
        decodeUtf8 (pos + 1) (some next) rest

/-- The number that a row of octets stands for in one byte order. -/
def unit (bigEndian : Bool) (bs : List UInt8) : Nat :=
  (if bigEndian then bs else bs.reverse).foldl (fun n b => n * 256 + b.toNat) 0

def joinUnits : List Nat → List Char
  | [] => []
  | [u] => [single u]
  | u :: v :: rest =>
    if isHigh u && isLow v then paired u v :: joinUnits rest else single u :: joinUnits (v :: rest)

def units16 (bigEndian : Bool) (pos : Nat) : List UInt8 → Except Refusal (List Nat)
  | [] => .ok []
  | [a] => .error ⟨.utf16 bigEndian, a, pos, pos + 1, .truncated⟩
  | a :: b :: rest => do return unit bigEndian [a, b] :: (← units16 bigEndian (pos + 2) rest)

/-- Decodes UTF-32 from a position on. -/
def decodeUtf32 (bigEndian : Bool) (pos : Nat) : List UInt8 → Except Refusal (List Char)
  | [] => .ok []
  | a :: b :: c :: d :: rest =>
    let u := unit bigEndian [a, b, c, d]
    if u < 0x110000 then do return single u :: (← decodeUtf32 bigEndian (pos + 4) rest)
    else .error ⟨.utf32 bigEndian, a, pos, pos + 4, .beyondUnicode⟩
  | a :: rest => .error ⟨.utf32 bigEndian, a, pos, pos + 1 + rest.length, .truncated⟩

/-- The text of a document in the encoding detected for it. Positions count the mark, except in
UTF-8. -/
def decode (bs : List UInt8) : Except Refusal (List Char) :=
  let detected := detect bs
  let rest := bs.drop detected.mark
  match detected.encoding with
  | .utf8 => decodeUtf8 0 none rest
  | .utf16 bigEndian => do return joinUnits (← units16 bigEndian detected.mark rest)
  | .utf32 bigEndian => decodeUtf32 bigEndian detected.mark rest

/-- A refusal in words: one octet is shown, several are told by their span. -/
def Refusal.text (r : Refusal) : String :=
  let span :=
    if r.stop = r.start + 1 then
      "byte 0x" ++ String.ofList (Numeral.hex 2 r.octet.toNat) ++ " in position " ++
        Numeral.text r.start
    else "bytes in position " ++ Numeral.text r.start ++ "-" ++ Numeral.text (r.stop - 1)
  "'" ++ r.encoding.name ++ "' codec can't decode " ++ span ++ ": " ++ r.cause.text

end Encoding

end Amend
