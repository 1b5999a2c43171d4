import Amend.Text.Numeral
import Amend.Text.Printable

/-!
# Quoted literals

The literal of a text or of a row of octets: a quote, the characters by the escape rule, the quote.
The quote is `'`, or `"` for content that holds `'` and no `"`. Escapes are the short ones for the
backslash, the quote, newline, return and tab, and otherwise the shortest of `\x`, `\u` and `\U`
that holds the code.
-/

namespace Amend.Quoted

def quoteFor (content : List Char) : Char :=
  if content.contains '\'' && !content.contains '"' then '"' else '\''

/-- The short escape of a character inside a given quote, if it has one. -/
def shortEscape? (quote c : Char) : Option Char :=
  if c = quote || c = '\\' then some c
  else if c = '\n' then some 'n'
  else if c = '\r' then some 'r'
  else if c = '\t' then some 't'
  else none

/-- A code as the shortest numeric escape that holds it. -/
def numericEscape (code : Nat) : List Char :=
  if code < 0x100 then '\\' :: 'x' :: Numeral.hex 2 code
  else if code < 0x10000 then '\\' :: 'u' :: Numeral.hex 4 code
  else '\\' :: 'U' :: Numeral.hex 8 code

/-- A character as it stands inside a quote; `plain` tells the ones that stand for themselves. -/
def character (plain : Char → Bool) (quote c : Char) : List Char :=
  match shortEscape? quote c with
  | some e => ['\\', e]
  | none => if plain c then [c] else numericEscape c.toNat

/-- The literal of a text. Printable characters stand for themselves. -/
def text (s : String) : List Char :=
  let content := s.toList
  let quote := quoteFor content
  quote :: content.flatMap (character Printable.isPrintable quote) ++ [quote]

def ofOctets (bs : List UInt8) : List Char := bs.map fun b => Char.ofNat b.toNat

def isPlainAscii (c : Char) : Bool := ' ' ≤ c && c < '\x7f'

/-- The literal of a row of octets. Printable ASCII characters stand for themselves. -/
def octets (bs : List UInt8) : List Char :=
  let content := ofOctets bs
  let quote := quoteFor content
  'b' :: quote :: content.flatMap (character isPlainAscii quote) ++ [quote]

/-- The literal of the octets of a buffer, in which `'` is escaped between quotes of either kind. -/
def buffer (bs : List UInt8) : List Char :=
  let content := ofOctets bs
  let quote := quoteFor content
  'b' :: quote :: content.flatMap (character isPlainAscii '\'') ++ [quote]

end Amend.Quoted
