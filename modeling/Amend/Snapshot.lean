import Amend.Trace

/-!
# Snapshots

`Value.freeze` copies a value into read-only containers, `Value.thaw` into writable plain ones. Both
open mappings, lists and fixed sequences at any depth, make every container anew, and keep all else
as it is.
-/

namespace Amend.Value

mutual

/-- A copy in which mappings are read-only views and lists are fixed sequences. -/
def freeze : Value → Making Value
  | .map _ _ es => do
    let es ← freezeEntries es
    return .map (← Making.fresh) .readOnly es
  | .seq _ _ xs => do
    let xs ← freezeItems xs
    return .seq (← Making.fresh) (.tuple .plain) xs
  | v => pure v
termination_by structural v => v

def freezeItems : List Value → Making (List Value)
  | [] => pure []
  | v :: vs => do return (← freeze v) :: (← freezeItems vs)
termination_by structural vs => vs

def freezeEntries : List (Key × Value) → Making (List (Key × Value))
  | [] => pure []
  | (k, v) :: es => do return (k, ← freeze v) :: (← freezeEntries es)
termination_by structural es => es

end

mutual

/-- A copy in which mappings and sequences are the writable plain ones. -/
def thaw : Value → Making Value
  | .map _ _ es => do
    let es ← thawEntries es
    return .map (← Making.fresh) .plain es
  | .seq _ _ xs => do
    let xs ← thawItems xs
    return .seq (← Making.fresh) .list xs
  | v => pure v
termination_by structural v => v

def thawItems : List Value → Making (List Value)
  | [] => pure []
  | v :: vs => do return (← thaw v) :: (← thawItems vs)
termination_by structural vs => vs

def thawEntries : List (Key × Value) → Making (List (Key × Value))
  | [] => pure []
  | (k, v) :: es => do return (k, ← thaw v) :: (← thawEntries es)
termination_by structural es => es

end

end Amend.Value
