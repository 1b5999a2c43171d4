import Amend.Sort.Merge

/-!
# Runs

A row is cut into runs that rise. A run is as long as the row rises by itself, or falls strictly and
is turned round; one that is too short is made longer by inserting the items after it.
-/

namespace Amend.Sort

section
variable {ε α : Type} (less : Less ε α)

/-- Splits off the items each of which goes on from the one before it. -/
def spanChain (goesOn : α → α → Except ε Bool) (before : α) :
    List α → Except ε (List α × List α)
  | [] => .ok ([], [])
  | x :: xs => do
    if ← goesOn before x then
      let (chain, rest) ← spanChain goesOn x xs
      return (x :: chain, rest)
    else return ([], x :: xs)

/-- Splits off the run that a row starts with, made to rise. -/
def splitRun : List α → Except ε (List α × List α)
  | x :: y :: xs => do
    if ← less y x then
      let (chain, rest) ← spanChain (fun before z => less z before) y xs
      return ((x :: y :: chain).reverse, rest)
    else
      let (chain, rest) ← spanChain (fun before z => not <$> less z before) y xs
      return (x :: y :: chain, rest)
  | xs => .ok (xs, [])

/-- Inserts an item into a run, behind those that it does not come before. -/
def insert (run : List α) (x : α) : Except ε (List α) := do
  let i ← bisect (fun y => not <$> less x y) run .start 0 run.length
  return run.take i ++ x :: run.drop i

/-- Splits off a run of at least `least` items, as far as there are so many. -/
def splitLongRun (least : Nat) (xs : List α) : Except ε (List α × List α) := do
  let (run, rest) ← splitRun less xs
  let missing := least - run.length
  return (← (rest.take missing).foldlM (insert less) run, rest.drop missing)

end

/-- The least length of a run in a row: the six leading bits of the row's length, and one more if
any other bit is set. A short row is a single run. -/
def leastRun (size : Nat) : Nat := go size false
where
  /-- Drops bits until six are left. -/
  go (n : Nat) (more : Bool) : Nat :=
    if _h : n < 64 then n + more.toNat else go (n / 2) (more || n % 2 = 1)
  termination_by n
  decreasing_by omega

end Amend.Sort
