import Amend.Sort.Run

/-!
# Sorting

A stable sort by an order that may fail. Which items are compared is fixed in every step, since it
decides which pair a failure tells of, and where the items stand that no comparison moves. Runs are
merged in the order of a balanced tree over the row (`border`), as far as they are known.
-/

namespace Amend.Sort

/-- A run of a row: its place, its items, and the power of the border behind it. -/
structure Run (α : Type) where
  start : Nat
  items : List α
  power : Nat

/-- The power of the border between two neighbouring runs: the first binary digit in which their
middles differ, as fractions of the row. `first` and `second` are twice the middles; `digits` bounds
the digits. -/
def border (size : Nat) : (digits first second : Nat) → Nat
  | 0, _, _ => 1
  | digits + 1, first, second =>
    if size ≤ first then border size digits (2 * (first - size)) (2 * (second - size)) + 1
    else if size ≤ second then 1
    else border size digits (2 * first) (2 * second) + 1

section
variable {ε α : Type} (less : Less ε α)

def join (first second : Run α) : Patiently ε (Run α) := do
  return ⟨first.start, ← merge less first.items second.items, second.power⟩

/-- Merges the last run with those before it, as far as the borders between them have a greater
power than the border behind it. -/
def settle (power : Nat) (last : Run α) : List (Run α) → Patiently ε (List (Run α))
  | [] => return [{ last with power }]
  | before :: stack => do
    if power < before.power then settle power (← join less before last) stack
    else return { last with power } :: before :: stack

/-- Merges all runs of a stack, the last one first, but one that is longer than the run two before
it waits. -/
def collapse (last : Run α) : List (Run α) → Patiently ε (Run α)
  | [] => return last
  | [before] => join less before last
  | before :: third :: stack => do
    if third.items.length < last.items.length then
      collapse last ((← join less third before) :: stack)
    else collapse (← join less before last) (third :: stack)
termination_by stack => stack.length

/-- Cuts the rest of a row into runs, and merges those whose turn it is. Each run takes an item, so
the number of items bounds the runs. -/
def stackRuns (size : Nat) : (runs start : Nat) → List (Run α) → List α →
    Patiently ε (List (Run α))
  | 0, _, stack, _ | _, _, stack, [] => return stack
  | runs + 1, start, stack, xs => do
    let (items, rest) ← splitLongRun less (leastRun size) xs
    let run : Run α := ⟨start, items, 0⟩
    let stack ← match stack with
      | [] => pure []
      | last :: stack =>
        let middle := 2 * last.start + last.items.length
        let power := border size size middle (middle + last.items.length + items.length)
        settle less power last stack
    stackRuns size runs (start + items.length) (run :: stack) rest

def sort (row : List α) : Except ε (List α) := do
  let sorted : Patiently ε (List α) := do
    match ← stackRuns less row.length row.length 0 [] row with
    | [] => return []
    | last :: stack => return (← collapse less last stack).items
  return (← sorted.run longStretch).1

end

end Amend.Sort
