import Amend.Storage

/-!
# Editable copies

A `Scratch` is a copy of one level of a container, to read and write children in. It has no identity
until `rebuild` makes it a container of the kind that its source asks for. Main statement: a child
that was written reads back (`child_of_assign`).
-/

namespace Amend

/-- An editable copy of one level. Only lists and the writable mappings are edited as they are. -/
inductive Scratch where
  | items (kind : SeqKind) (xs : List Value)
  | entries (kind : MapKind) (es : Entries Value)

namespace Position

/-- The place in a sequence of `size` items that a position addresses; a negative one counts from
the end. -/
def index? (size : Nat) (position : Int) : Option Nat :=
  if 0 ≤ position ∧ position < size then some position.toNat
  else if position < 0 ∧ 0 ≤ size + position then some (size + position).toNat
  else none

theorem index?_lt {size i : Nat} {position : Int} (h : index? size position = some i) :
    i < size := by
  unfold index? at h
  split at h
  · cases h; omega
  · split at h
    · cases h; omega
    · cases h

/-- Positions of sequences are integers of 64 bits. -/
def fits (position : Int) : Bool :=
  -9223372036854775808 ≤ position && position < 9223372036854775808

end Position

namespace MapKind

/-- The kind of an editable copy: a read-only view and a wrapper are copied to plain mappings. -/
def editable : MapKind → MapKind
  | .readOnly | .wrapped => .plain
  | kind => kind

end MapKind

namespace Scratch

section
variable [Machine]

/-- A copy to update properties in. Nothing counts as an empty mapping, and a sequence of any kind
is copied to a list. -/
def ofContainer : Value → Except Fault Scratch
  | .none => .ok (.entries .plain [])
  | .map _ kind es => .ok (.entries kind.editable es)
  | .seq _ _ xs | .deque _ xs => .ok (.items .list xs)
  | .range _ r => do return .items .list (← r.items)
  | v => .error (.noProperties v.kind)

/-- A copy of a sequence for a command to change. A list keeps its kind. -/
def ofSequence (command : Command) : Value → Except Fault (SeqKind × List Value)
  | .seq _ .row xs => .ok (.row, xs)
  | .seq _ _ xs | .deque _ xs => .ok (.list, xs)
  | .range _ r => do return (.list, ← r.items)
  | v => .error (.sequenceNeeded command v.kind)

/-- A copy of a mapping for a command to change. Nothing counts as an empty mapping. -/
def ofMapping (command : Command) : Value → Except Fault (MapKind × Entries Value)
  | .none => .ok (.plain, [])
  | .map _ kind es => .ok (kind.editable, es)
  | v => .error (.mappingNeeded command v.kind)

end

/-- The child at a key, nothing where there is none. A sequence is addressed by integers alone. -/
def child (key : Key) : Scratch → Except Fault Value
  | .items _ xs =>
    match key.position? with
    | some position => .ok ((Position.index? xs.length position).bind (xs[·]?) |>.getD .none)
    | none => .error (.keyNotPosition key.kind)
  | .entries _ es => .ok ((Entries.find? key es).getD .none)

/-- Writes the child at a key. A mapping takes any key, a sequence those of its positions. -/
def assign (key : Key) (v : Value) : Scratch → Except Fault Scratch
  | .items kind xs =>
    match key.position? with
    | none => .error (.keyNotPosition key.kind)
    | some position =>
      match Position.index? xs.length position with
      | some i => .ok (.items kind (xs.set i v))
      | none => .error (if Position.fits position then .outOfRange else .positionTooLarge)
  | .entries kind es => .ok (.entries kind (Entries.put key v es))

/-- Gives the copy an identity and the kind that its source asks for: fixed sequences stay fixed,
points stay points of two fields, and read-only views stay read-only. -/
def rebuild (source : Value) : Scratch → Update Value
  | .items kind xs =>
    match source with
    | .seq _ (.tuple .point) _ =>
      if xs.length = 2 then do return .seq (← Update.fresh) (.tuple .point) xs
      else throw (.fieldCount xs.length)
    | .seq _ (.tuple _) _ => do return .seq (← Update.fresh) (.tuple .plain) xs
    | _ => do return .seq (← Update.fresh) kind xs
  | .entries kind es =>
    match source with
    | .map _ .readOnly _ => do return .map (← Update.fresh) .readOnly es
    | _ => do return .map (← Update.fresh) kind es

theorem child_of_assign {key : Key} {v : Value} {s s' : Scratch} (h : s.assign key v = .ok s') :
    s'.child key = .ok v := by
  cases s with
  | items kind xs =>
    simp only [assign] at h
    split at h
    · cases h
    next position hp =>
      split at h
      next i hi =>
        cases h
        have hlt := Position.index?_lt hi
        simp [child, hp, hi, hlt]
      · cases h
  | entries kind es =>
    cases h
    simp [child, Entries.find?_put_same]

end Scratch

end Amend
