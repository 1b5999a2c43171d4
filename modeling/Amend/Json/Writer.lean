import Amend.Json.Options
import Amend.Json.Piece
import Amend.Node
import Amend.Snapshot
import Amend.Value.Order

/-!
# Writing JSON

A value becomes a document (`Settings.document`), which may fail, and a document becomes a text
(`Document.render`), which does not. A key that is no text is written as the text of a scalar. What
has no JSON form may be replaced by a function of the caller, time and again; this is an update,
since such a function may do what any other may.
-/

namespace Amend

namespace Json

/-- A binary64 number, unless it has no standard form and such are not allowed. An indented layout
shows the number that it refuses. -/
def checkedDouble (o : Options) (d : Double) : Except Fault Double :=
  if d.isFinite || o.allowNan then .ok d
  else .error (.notCompliant (if o.indented then some d else none))

/-- An integer, unless it has too many digits. -/
def checkedInt (n : Int) : Except Fault Int :=
  if Numeral.tooLong n then .error .integerTooLong else .ok n

def writtenDouble : Double → List Char
  | .nan => "NaN".toList
  | .infinite negative => (if negative then "-Infinity" else "Infinity").toList
  | d => d.written

def writtenBool (b : Bool) : List Char := (if b then "true" else "false").toList

/-- The name that a key gives a member, or `none` for a key that is left out. -/
def memberName (o : Options) : Key → Except Fault (Option (List Char))
  | .text s => .ok (some s.toList)
  | .float d => do return some (writtenDouble (← checkedDouble o d))
  | .bool b => .ok (some (writtenBool b))
  | .none => .ok (some "null".toList)
  | .int n => do return some (Numeral.ofInt (← checkedInt n))
  | k => if o.skipKeys then .ok none else .error (.keyNotWritable k.kind)

/-- Entries in the order in which they are written. -/
def arranged {α : Type} (o : Options) (es : Entries α) : Except Fault (Entries α) :=
  if o.sortKeys then Key.sortEntries es else .ok es

/-- An object, as far as the writer tells one from another. -/
abbrev Object := Ident × Kind

def object? (v : Value) : Option Object :=
  match v with
  | .bytes id _ | .buffer id _ | .range id _ | .set id _ | .frozenSet id _ | .deque id _
  | .factory id _ _ | .runner id _ | .seq id _ _ | .map id _ _ => some (id, v.kind)
  | _ => none

/-- Takes a value among those that are being written, unless it is one of them. -/
def enter (o : Options) (within : List Object) (v : Value) : Except Fault (List Object) :=
  match object? v with
  | some x => if o.circular && x ∈ within then .error .circularReference else .ok (x :: within)
  | none => .ok within

/-- The members that entries come to, given how each value is written. Faults are met in the order
of writing, so a value is only looked at when it is its turn. -/
def members (o : Options) : Entries (Update Document) → Update (List (List Char × Document))
  | [] => pure []
  | (k, d) :: es => do
    match ← Update.lift (memberName o k) with
    | some name =>
      let d ← d
      return (name, d) :: (← members o es)
    | none => members o es

def objectOf (o : Options) (es : Entries (Update Document)) : Update Document := do
  let ms ← members o (← Update.lift (arranged o es))
  return if ms.isEmpty && !es.isEmpty then .emptied else .object ms

namespace Document

mutual

/-- The document of a value that is written within some others. Sequences of every kind and the
mappings that are no views or wrappers are opened; what has no JSON form is left to `other`. -/
def ofValue (o : Options) (other : List Object → Value → Update Document) (within : List Object) :
    Value → Update Document
  | .none => pure .null
  | .bool b => pure (.bool b)
  | .int n => do return .int (← Update.lift (checkedInt n))
  | .float d => do return .float (← Update.lift (checkedDouble o d))
  | .text s => pure (.text s.toList)
  | .seq id kind xs =>
    if xs.isEmpty then pure (.array [])
    else do
      let within ← Update.lift (enter o within (.seq id kind xs))
      return .array (← ofItems o other within xs)
  | .map id kind es =>
    if kind.editable = kind then
      if es.isEmpty then pure (.object [])
      else do
        let within ← Update.lift (enter o within (.map id kind es))
        objectOf o (ofEntries o other within es)
    else do other (← Update.lift (enter o within (.map id kind es))) (.map id kind es)
  | v => do other (← Update.lift (enter o within v)) v
termination_by structural v => v

def ofItems (o : Options) (other : List Object → Value → Update Document) (within : List Object) :
    List Value → Update (List Document)
  | [] => pure []
  | v :: vs => do return (← ofValue o other within v) :: (← ofItems o other within vs)
termination_by structural vs => vs

/-- How the values of a mapping are written, each by itself. -/
def ofEntries (o : Options) (other : List Object → Value → Update Document) (within : List Object) :
    List (Key × Value) → List (Key × Update Document)
  | [] => []
  | (k, v) :: es => (k, ofValue o other within v) :: ofEntries o other within es
termination_by structural es => es

end

end Document

def shortEscape? : Char → Option Char
  | '"' => some '"'
  | '\\' => some '\\'
  | '\x08' => some 'b'
  | '\x0c' => some 'f'
  | '\n' => some 'n'
  | '\r' => some 'r'
  | '\t' => some 't'
  | _ => none

def unitEscape (u : Nat) : List Char := '\\' :: 'u' :: Numeral.hex 4 u

/-- The escape of a code, in two halves beyond the first 65536 codes. -/
def codeEscape (code : Nat) : List Char :=
  if code < 0x10000 then unitEscape code
  else
    unitEscape (0xD800 + (code - 0x10000) / 0x400) ++ unitEscape (0xDC00 + (code - 0x10000) % 0x400)

/-- A character as it stands in a text. Beyond the short escapes, controls are escaped, or, in ASCII
documents, all but the printable ASCII characters. -/
def writtenChar (asciiOnly : Bool) (c : Char) : List Char :=
  match shortEscape? c with
  | some e => ['\\', e]
  | none =>
    if c < ' ' || (asciiOnly && '~' < c) then codeEscape c.toNat else [c]

def writtenText (asciiOnly : Bool) (s : List Char) : List Char :=
  '"' :: s.flatMap (writtenChar asciiOnly) ++ ['"']

namespace Layout

/-- The start of a new line at a level of nesting, nothing without an indentation. -/
def newline (l : Layout) (level : Nat) : List Char :=
  match l.indent with
  | some indent => '\n' :: indent.at level
  | none => []

/-- Parts between brackets, each on a line of its own one level deeper. -/
def enclosed (l : Layout) (level : Nat) (opening closing : Char) (parts : List (List Char)) :
    List Char :=
  opening :: l.newline (level + 1) ++
    List.intercalate (l.itemSeparator ++ l.newline (level + 1)) parts ++
    l.newline level ++ [closing]

end Layout

namespace Document

mutual

def renderAt (l : Layout) : (level : Nat) → Document → List Char
  | _, .null => "null".toList
  | _, .bool b => writtenBool b
  | _, .int n => Numeral.ofInt n
  | _, .float d => writtenDouble d
  | _, .text s => writtenText l.asciiOnly s
  | _, .array [] => ['[', ']']
  | level, .array xs => l.enclosed level '[' ']' (renderItems l (level + 1) xs)
  | _, .object [] => ['{', '}']
  | level, .object ms => l.enclosed level '{' '}' (renderMembers l (level + 1) ms)
  | level, .emptied => l.enclosed level '{' '}' []
termination_by structural _ d => d

def renderItems (l : Layout) (level : Nat) : List Document → List (List Char)
  | [] => []
  | d :: ds => renderAt l level d :: renderItems l level ds
termination_by structural ds => ds

def renderMembers (l : Layout) (level : Nat) : List (List Char × Document) → List (List Char)
  | [] => []
  | (name, d) :: ms =>
    (writtenText l.asciiOnly name ++ l.keySeparator ++ renderAt l level d) ::
      renderMembers l level ms
termination_by structural ms => ms

end

def render (l : Layout) (d : Document) : List Char := d.renderAt l 0

end Document

/-- Makes sure that the separator after a name can be written wherever the document has one. -/
def Settings.checkNames (s : Settings) (d : Document) : Except Fault Unit :=
  match s.separators with
  | none | some (_, .text _) => .ok ()
  | some (_, key) =>
    match d.separatorPlace? with
    | some place => .error (.pieceNotText place key.kind)
    | none => .ok ()

variable [Host]

/-- What stands for a value without a JSON form. -/
def Settings.replacement (s : Settings) (v : Value) : Update Value :=
  match s.default with
  | .none => throw (.notWritable v.kind)
  | f => applyCommand .invoke v f

/-- The document of a value, in which values may stand for others to some depth. -/
def Settings.document (s : Settings) : (depth : Nat) → List Object → Value → Update Document
  | 0, _, _ => throw .nestedTooDeep
  | depth + 1, within, v => do
    Update.lift (s.checkSeparators v)
    Document.ofValue s.options (fun within v => do s.document depth within (← s.replacement v))
      within v

/-- Writes a value under some settings. A text is written whatever the layout. -/
def write (s : Settings) : Value → Update String
  | .text t => pure (String.ofList (writtenText s.asciiOnly.truthy t.toList))
  | v => do
    let indent ← Update.lift s.indent?
    let d ← s.document (Machine.nesting + 1) [] v
    Update.lift (s.checkNames d)
    return String.ofList (d.render (s.layout indent))

end Json

/-- Writes a thawed copy of a value as a JSON text, with options given by name. An encoder of a
caller's class gets all of them, and any other is made from the settings that they come to. -/
def toJson [Host] (args : List (String × Value)) (v : Value) : Update String := do
  if args.any (·.1 = "obj") then throw (.repeatedOption "obj")
  let copy ← Update.make v.thaw
  match (args.lookup "cls").getD .none with
  | .none => Json.write (← Update.lift (Json.Settings.ofArguments args)) copy
  | cls =>
    if cls.kind = .function then Host.encode cls args copy
    else throw (.notCallable cls.kind)

end Amend
