/-!
# Searching sorted rows

Where a test that holds for the first items of a row stops to hold. The test may fail, so each
search fixes which items it looks at: `bisect` halves what is left, and `lead` first runs ahead in
strides that double, since it expects the place near the beginning.
-/

namespace Amend.Sort

/-- The end of two neighbouring rows from which they are merged. Rows stand with the item at that
end first. -/
inductive End where
  | start
  | finish
deriving DecidableEq

/-- The middle of the indices from `low` up to `high`. Of an even number of them, it is the one
further from the start of the row. -/
def End.middle : End → (low high : Nat) → Nat
  | .start, low, high => low + (high - low) / 2
  | .finish, low, high => high - 1 - (high - low) / 2

theorem End.le_middle (e : End) {low high : Nat} (h : low < high) : low ≤ e.middle low high := by
  cases e <;> simp only [middle] <;> omega

theorem End.middle_lt (e : End) {low high : Nat} (h : low < high) : e.middle low high < high := by
  cases e <;> simp only [middle] <;> omega

section
variable {ε α : Type} (test : α → Except ε Bool) (row : List α)

def testAt (i : Nat) : Except ε Bool :=
  match row[i]? with
  | some x => test x
  | none => .ok false

/-- The first index from `low` on where the test does not hold, at most `high`. -/
def bisect (e : End) (low high : Nat) : Except ε Nat :=
  if _h : low < high then do
    if ← testAt test row (e.middle low high) then bisect e (e.middle low high + 1) high
    else bisect e low (e.middle low high)
  else .ok low
termination_by high - low
decreasing_by
  · have := e.le_middle _h; omega
  · have := e.middle_lt _h; omega

/-- Doubles a stride as long as the item there passes the test: the last stride that did, and the
next one, which stays within the row. -/
def stride (last next : Nat) : Except ε (Nat × Nat) :=
  if _h : next < row.length then do
    if ← testAt test row next then stride next (2 * next + 1) else return (last, next)
  else .ok (last, row.length)
termination_by row.length - next
decreasing_by omega

/-- How many items at the beginning of a row pass the test. -/
def lead (e : End) : Except ε Nat := do
  if ← testAt test row 0 then
    let (last, next) ← stride test row 0 1
    bisect test row e (last + 1) next
  else return 0

end

end Amend.Sort
