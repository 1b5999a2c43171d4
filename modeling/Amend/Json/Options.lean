import Amend.Action

/-!
# Options of the JSON writer

The options as callers give them, and what they come to: `Options` tells how values become a
document, `Layout` how a document becomes a text. A document that is a single text has no layout to
speak of, so the values of some options are only looked at for other documents.
-/

namespace Amend.Json

/-- A unit of indentation: a number of spaces, or a text. -/
inductive Indent where
  | spaces (width : Nat)
  | text (unit : List Char)

def Indent.at (level : Nat) : Indent → List Char
  | .spaces width => List.replicate (level * width) ' '
  | .text unit => (List.replicate level unit).flatten

/-- How a document is laid out. Without an indentation everything stands on one line. -/
structure Layout where
  indent : Option Indent
  itemSeparator : List Char
  keySeparator : List Char
  asciiOnly : Bool

/-- How values become a document. -/
structure Options where
  indented : Bool
  sortKeys : Bool
  skipKeys : Bool
  allowNan : Bool
  /-- Whether to look out for a value that is to be written within itself. -/
  circular : Bool

/-- The options as they are given, with their defaults. The `default` is a function from a value
without a JSON form to one that stands for it. -/
structure Settings where
  indent : Value := .none
  separators : Option (Value × Value) := none
  sortKeys : Value := .bool false
  skipKeys : Value := .bool false
  asciiOnly : Value := .bool true
  allowNan : Value := .bool true
  circular : Value := .bool true
  default : Value := .none

namespace Settings
variable [Machine]

/-- Two separators, that between items and that after a key, from something to iterate over. -/
def pair (given : Value) : Except Fault (Value × Value) :=
  match given.firstElements? 3 with
  | some [item, key] => .ok (item, key)
  | some (_ :: _ :: _) => .error .separatorsTooMany
  | some xs => .error (.separatorsTooFew xs.length)
  | none => .error (.separatorsNotPair given.kind)

/-- Takes one option into account. The separators are taken apart last, so they stay whole here, and
a class of encoders was looked for before. -/
def take (given : Settings × Value) (name : String) (v : Value) :
    Except Fault (Settings × Value) :=
  let (s, separators) := given
  match name with
  | "indent" => .ok ({ s with indent := v }, separators)
  | "separators" => .ok (s, v)
  | "sort_keys" => .ok ({ s with sortKeys := v }, separators)
  | "skipkeys" => .ok ({ s with skipKeys := v }, separators)
  | "ensure_ascii" => .ok ({ s with asciiOnly := v }, separators)
  | "allow_nan" => .ok ({ s with allowNan := v }, separators)
  | "check_circular" => .ok ({ s with circular := v }, separators)
  | "default" => .ok ({ s with default := v }, separators)
  | "cls" => .ok given
  | "self" => .error (.repeatedOption name)
  | _ => .error (.unknownOption name)

def ofArguments (args : List (String × Value)) : Except Fault Settings := do
  let (s, separators) ← args.foldlM (fun given (name, v) => take given name v) ({}, .none)
  match separators with
  | .none => return s
  | given => return { s with separators := some (← pair given) }

/-- The unit of indentation: a text as it is, or as many spaces as an integer says. -/
def indentation : Value → Except Fault Indent
  | .text s => .ok (.text s.toList)
  | .int n =>
    if Position.fits n then do
      Storage.reserveText n.toNat
      return .spaces n.toNat
    else .error .indentTooLarge
  | .bool b => .ok (.spaces (if b then 1 else 0))
  | v => .error (.indentNotInteger v.kind)

def indented (s : Settings) : Bool := !(s.indent matches .none)

def indent? (s : Settings) : Except Fault (Option Indent) :=
  if s.indented then some <$> indentation s.indent else pure none

def options (s : Settings) : Options where
  indented := s.indented
  sortKeys := s.sortKeys.truthy
  skipKeys := s.skipKeys.truthy
  allowNan := s.allowNan.truthy
  circular := s.circular.truthy

/-- Makes sure that a separator is a text. On one line the encoder takes the separators as
arguments, the one after a key as its fifth and the one between items as its sixth. -/
def checkArgument (argument : Nat) : Value → Except Fault Unit
  | .text _ => .ok ()
  | v => .error (.separatorNotText argument v.kind)

/-- Whether a value holds something that a separator between items could follow. -/
def hasItems : Value → Bool
  | .seq _ _ xs => !xs.isEmpty
  | .map _ _ es => !es.isEmpty
  | _ => false

/-- Makes sure that a value can be written with the separators, as far as that shows before anything
is written. On several lines the separator between items is joined to the line that follows, once
for each array and object that holds something. -/
def checkSeparators (s : Settings) (v : Value) : Except Fault Unit :=
  match s.separators with
  | none => .ok ()
  | some (item, key) =>
    if s.indented then
      match item with
      | .text _ => .ok ()
      | item => if hasItems v then .error (.separatorNotJoined item.kind) else .ok ()
    else do
      checkArgument 5 key
      checkArgument 6 item

/-- The text of a separator. One that is no text is not written. -/
def separator : Value → List Char
  | .text s => s.toList
  | _ => []

/-- The layout of these settings with a unit of indentation. A line that ends after each item needs
no space after the separator. -/
def layout (s : Settings) (indent : Option Indent) : Layout where
  indent := indent
  itemSeparator :=
    match s.separators with
    | some (item, _) => separator item
    | none => (if s.indented then "," else ", ").toList
  keySeparator :=
    match s.separators with
    | some (_, key) => separator key
    | none => ": ".toList
  asciiOnly := s.asciiOnly.truthy

end Settings

end Amend.Json
