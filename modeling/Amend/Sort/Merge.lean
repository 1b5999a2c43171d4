import Amend.Sort.Search

/-!
# Merging two runs

Two neighbouring runs that rise become one. What stands in its place already is left out first. The
shorter of the two then waits, and the other flows: items are taken one by one from the front of
either, and in whole stretches after one run has won often enough in a row. How often that is, the
patience, is a state that later merges take over.
-/

namespace Amend.Sort

/-- A strict order. To ask whether one item comes before another may fail. -/
abbrev Less (ε α : Type) := α → α → Except ε Bool

/-- A computation with the patience for its state. -/
abbrev Patiently (ε : Type) := StateT Nat (Except ε)

/-- A stretch of at least this length is worth to look for the next one. -/
def longStretch : Nat := 7

/-- Two runs that are being merged, with the next item of each first, and what was taken from
them. -/
structure Merging (α : Type) where
  waiting : List α
  flowing : List α
  taken : List α

namespace Merging
variable {α : Type}

/-- The first items of the waiting run are taken. -/
def takeWaiting (n : Nat) (m : Merging α) : Merging α :=
  { m with waiting := m.waiting.drop n, taken := m.taken ++ m.waiting.take n }

/-- The first items of the flowing run are taken. -/
def takeFlowing (n : Nat) (m : Merging α) : Merging α :=
  { m with flowing := m.flowing.drop n, taken := m.taken ++ m.flowing.take n }

/-- Nothing is left to decide: the last item of the waiting run goes behind the whole flowing
run. -/
def isDone (m : Merging α) : Bool := m.flowing.isEmpty || m.waiting.length ≤ 1

/-- The items of both runs, those that are left in the order of a merging that is done. -/
def items (m : Merging α) : List α := m.taken ++ m.flowing ++ m.waiting

theorem takeWaiting_perm (n : Nat) (m : Merging α) :
    (m.takeWaiting n).items.Perm m.items := by
  have swapped : (m.waiting.take n ++ m.flowing).Perm (m.flowing ++ m.waiting.take n) :=
    List.perm_append_comm
  have := (swapped.append_left m.taken).append_right (m.waiting.drop n)
  simpa [items, takeWaiting, List.append_assoc] using this

theorem takeFlowing_items (n : Nat) (m : Merging α) : (m.takeFlowing n).items = m.items := by
  simp only [items, takeFlowing, List.append_assoc]
  rw [← List.append_assoc (m.flowing.take n), List.take_append_drop]

end Merging

section
variable {ε α : Type} (less : Less ε α)

/-- Whether an item of the flowing run is taken before one of the waiting run. The flowing run is
the second one at the start and the first one at the finish. Equal items keep their order, so a tie
goes to the waiting run. -/
def flowsFirst : End → (waiting flowing : α) → Except ε Bool
  | .start, w, f => less f w
  | .finish, w, f => less w f

/-- Takes what the waiting run has before the next item of the flowing run, and then that item.
Tells how long the stretch was. -/
def passWaiting (e : End) (m : Merging α) : Except ε (Merging α × Nat) :=
  match m.flowing with
  | [] => .ok (m, 0)
  | f :: _ => do
    let n ← lead (fun w => not <$> flowsFirst less e w f) m.waiting e
    let m := m.takeWaiting n
    return (if m.isDone then m else m.takeFlowing 1, n)

/-- Takes what the flowing run has before the next item of the waiting run, and then that item.
Tells how long the stretch was. -/
def passFlowing (e : End) (m : Merging α) : Except ε (Merging α × Nat) :=
  match m.waiting with
  | [] => .ok (m, 0)
  | w :: _ => do
    let n ← lead (fun f => flowsFirst less e w f) m.flowing e
    let m := m.takeFlowing n
    return (if m.isDone then m else m.takeWaiting 1, n)

/-- Takes a stretch of either run. Tells how long the longer one was. -/
def passBoth (e : End) (m : Merging α) : Except ε (Merging α × Nat) := do
  let (first, second) := match e with
    | .start => (passWaiting less e, passFlowing less e)
    | .finish => (passFlowing less e, passWaiting less e)
  let (m, i) ← first m
  if m.isDone then return (m, i)
  let (m, j) ← second m
  return (m, max i j)

/-- How a merging goes on: one by one, after `streak` items in a row from one of the runs, or by
stretches. -/
inductive Pace where
  | single (flowing : Bool) (streak : Nat)
  | stretches

/-- Goes on with a merging until it is done. Each step takes an item, so the number of items bounds
the steps. Stretches that are long make patience shorter, the return to single items longer. -/
def proceed (e : End) : (steps : Nat) → Pace → Merging α → Patiently ε (Merging α)
  | 0, _, m => pure m
  | steps + 1, .single flowing streak, m => do
    match m.waiting, m.flowing with
    | w :: _, f :: _ =>
      if m.isDone then return m
      let flows ← flowsFirst less e w f
      let m := if flows then m.takeFlowing 1 else m.takeWaiting 1
      let streak := if flows = flowing then streak + 1 else 1
      proceed e steps (if (← get) ≤ streak then .stretches else .single flows streak) m
    | _, _ => return m
  | steps + 1, .stretches, m => do
    if m.isDone then return m
    let (m, longest) ← passBoth less e m
    if m.isDone then return m
    if longStretch ≤ longest then
      modify fun patience => max 1 (patience - 1)
      proceed e steps .stretches m
    else
      modify (· + 1)
      proceed e steps (.single false 0) m

/-- Merges a waiting and a flowing run. The first item of the flowing run goes first. -/
def mergeFrom (e : End) (waiting flowing : List α) : Patiently ε (List α) := do
  let m := (Merging.mk waiting flowing []).takeFlowing 1
  return (← proceed less e (waiting.length + flowing.length) (.single false 0) m).items

/-- Merges two runs, the first of which stands before the second. -/
def merge (first second : List α) : Patiently ε (List α) := do
  let some s := second.head? | return first
  let i ← lead (fun x => not <$> less s x) first .start
  let (before, first) := first.splitAt i
  let some f := first.getLast? | return before ++ second
  let j ← lead (fun y => not <$> less y f) second.reverse .finish
  let (second, after) := second.splitAt (second.length - j)
  if second.isEmpty then return before ++ first ++ after
  let merged ←
    if first.length ≤ second.length then mergeFrom less .start first second
    else List.reverse <$> mergeFrom less .finish second.reverse first.reverse
  return before ++ merged ++ after

end

end Amend.Sort
