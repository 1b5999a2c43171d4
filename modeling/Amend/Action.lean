import Amend.Scratch

/-!
# Actions

A command with its operand, applied to one value. What a sequence or a mapping held before and the
action does not overwrite stays the very same object; the container itself is new. A merge calls the
`update` of the mapping's own class, which for a derived class is the caller's.
-/

namespace Amend

/-- A command with its operand. A call keeps the function and its argument; `refuse` is a call of
what is no function. -/
inductive Action where
  | set (operand : Value)
  | push (operand : Value)
  | unshift (operand : Value)
  | merge (operand : Value)
  | defaults (operand : Value)
  | call (f : Factory) (arg : Value)
  | refuse (kind : Kind)

namespace Value

def elements? : Value → Option (List Value)
  | .text s => some (s.toList.map fun c => .text (String.ofList [c]))
  | .bytes _ bs | .buffer _ bs => some (bs.map fun b => .int b.toNat)
  | .range _ r => some (r.terms.map .int)
  | .set _ ks | .frozenSet _ ks => some (ks.map Key.toValue)
  | .deque _ xs | .seq _ _ xs => some xs
  | .map _ _ es => some (es.map fun e => e.1.toValue)
  | _ => Option.none

/-- The first of these elements, no more than `n`. A progression is not written out any further. -/
def firstElements? (n : Nat) : Value → Option (List Value)
  | .range _ r => some ((r.firstTerms n).map .int)
  | v => v.elements?.map (·.take n)

def elementCount? : Value → Option Nat
  | .range _ r => some r.length
  | v => v.elements?.map (·.length)

theorem firstElements?_eq (n : Nat) (v : Value) :
    v.firstElements? n = v.elements?.map (·.take n) := by
  cases v <;> simp [firstElements?, elements?, Range.firstTerms_eq_take, List.map_take]

theorem elementCount?_eq (v : Value) : v.elementCount? = v.elements?.map (·.length) := by
  cases v <;> simp [elementCount?, elements?, Range.length_terms]

end Value

namespace Merge

def key (v : Value) : Except Fault Key := (Key.ofValue v).mapError .unhashable

/-- The entry that the element at a position of a merged sequence stands for. The element is copied
to a list before its items are counted. -/
def entry [Machine] (position : Nat) (element : Value) : Except Fault (Key × Value) :=
  match element.elementCount? with
  | some count => do
    Storage.reserveItems count
    match element.firstElements? 3 with
    | some [k, v] => return (← key k, v)
    | _ => throw (.elementNotPair position count)
  | none => .error (.elementNotSequence position)

/-- The same for an ordered mapping, which takes its pairs apart itself. -/
def orderedEntry (element : Value) : Except Fault (Key × Value) :=
  match element.firstElements? 3 with
  | some [k, v] => do return (← key k, v)
  | some (_ :: _ :: _) => .error .pairTooLong
  | some xs => .error (.pairTooShort xs.length)
  | none => .error (.notIterable element.kind)

/-- The entries that an operand stands for: those of a mapping, or pairs one after another. No term
of a progression is a pair, so the first one decides. -/
def entries [Machine] (ordered : Bool) : Value → Except Fault (Entries Value)
  | .map _ _ es => .ok es
  | operand =>
    let elements := match operand with
      | .range .. => operand.firstElements? 1
      | _ => operand.elements?
    match elements with
    | some xs => xs.zipIdx.mapM fun (x, i) => if ordered then orderedEntry x else entry i x
    | none => .error (.notIterable operand.kind)

/-- The update that writes each entry of an operand over what is there. -/
def overwrite [Machine] (ordered : Bool) (es : Entries Value) (operand : Value) :
    Update (Entries Value) := do
  return Entries.putAll es (← Update.lift (entries ordered operand))

/-- The update of an editable mapping of some kind. -/
def update [Host] (kind : MapKind) (es : Entries Value) (operand : Value) :
    Update (Entries Value) :=
  match kind with
  | .defaulting => Host.update es operand
  | kind => overwrite (kind = .ordered) es operand

end Merge

/-- The update of a value's class writes each entry over what is there. Only that of a derived class
of mappings is the caller's, and may do otherwise. -/
def Value.Overwrites [Host] (v : Value) : Prop :=
  v.kind = .map .defaulting →
    ∀ es operand, Host.update es operand = Merge.overwrite false es operand

/-- The update of every derived class does what the one that it inherits does. -/
class Host.Overwriting [Host] : Prop where
  update_eq : ∀ es operand, Host.update es operand = Merge.overwrite false es operand

theorem Value.overwrites [Host] [Host.Overwriting] (v : Value) : v.Overwrites :=
  fun _ => Host.Overwriting.update_eq

namespace Action

def command : Action → Command
  | .set _ => .set
  | .push _ => .push
  | .unshift _ => .unshift
  | .merge _ => .merge
  | .defaults _ => .defaults
  | .call .. | .refuse _ => .invoke

variable [Host]

/-- Applies an action to a value. -/
def perform (old : Value) : Action → Update Value
  | .set operand => pure operand
  | .push operand => do
    let (kind, xs) ← Update.lift (Scratch.ofSequence .push old)
    (Scratch.items kind (xs ++ [operand])).rebuild old
  | .unshift operand => do
    let (kind, xs) ← Update.lift (Scratch.ofSequence .unshift old)
    (Scratch.items kind (operand :: xs)).rebuild old
  | .merge operand => do
    let (kind, es) ← Update.lift (Scratch.ofMapping .merge old)
    (Scratch.entries kind (← Merge.update kind es operand)).rebuild old
  | .defaults operand => do
    let (kind, es) ← Update.lift (Scratch.ofMapping .defaults old)
    match operand with
    | .map _ _ new => (Scratch.entries kind (Entries.fillAll es new)).rebuild old
    | _ => throw (.noItems operand.kind)
  | .call f arg => Host.call f arg old
  | .refuse kind => throw (.notCallable kind)

end Action

end Amend
