import Amend.Node

/-!
# Updates along a path

A path is a row of keys. `Path.keys` reads the ways to write one, `Path.nest` wraps a command tree
under it, and `applyAt` applies one command at its end.
-/

namespace Amend

namespace Path

/-- The keys of a path: none for nothing and for the empty text, those of a list or fixed sequence,
and anything else is a single key. -/
def keys : Value → List Value
  | .none => []
  | .text s => if s = "" then [] else [.text s]
  | .seq _ _ xs => xs
  | v => [v]

/-- Nests a command tree under keys, the innermost first. -/
def nest : List Value → Value → Update Value
  | [], tree => pure tree
  | v :: vs, tree => do
    let inner ← nest vs tree
    let key ← Update.lift ((Key.ofValue v).mapError .unhashable)
    return .map (← Update.fresh) .plain [(key, inner)]

/-- The command tree that carries another out at the end of a path. -/
def command (path tree : Value) : Update Value := nest (keys path) tree

end Path

def applyAt [Host] (c : Command) (source path operand : Value) : Update Value := do
  let tree := .map (← Update.fresh) .plain [(c.key, operand)]
  run source (← Path.command path tree)

end Amend
