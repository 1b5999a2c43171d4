import Amend.Value.Entries

/-!
# Commands

The six commands and how a mapping names one. `findCommand` takes the first command, in the order of
`Command.all`, whose token is a key; the other keys and the order of the mapping play no part.
-/

namespace Amend

/-- What may be done to a value: replace it, append or prepend to it, merge into it with new keys
winning or with old keys winning, or compute it anew by a function. -/
inductive Command where
  | set
  | push
  | unshift
  | merge
  | defaults
  | invoke
deriving DecidableEq

namespace Command

/-- All commands, the ones that take precedence first. -/
def all : List Command := [.set, .push, .unshift, .merge, .defaults, .invoke]

def token : Command → String
  | .set => "set"
  | .push => "push"
  | .unshift => "unshift"
  | .merge => "merge"
  | .defaults => "defaults"
  | .invoke => "invoke"

def name : Command → String
  | .set => "SET"
  | .push => "PUSH"
  | .unshift => "UNSHIFT"
  | .merge => "MERGE"
  | .defaults => "DEFAULTS"
  | .invoke => "INVOKE"

def ofName? (s : String) : Option Command := all.find? (·.name = s)

def key (c : Command) : Key := .text c.token

theorem mem_all (c : Command) : c ∈ all := by cases c <;> decide

theorem token_injective {c d : Command} (h : c.token = d.token) : c = d := by
  cases c <;> cases d <;> simp_all [token]

end Command

namespace Entries

/-- The first command whose token is a key, and the value there. -/
def findCommand {α : Type} (es : Entries α) : Option (Command × α) :=
  Command.all.findSome? fun c => (es.find? c.key).map (c, ·)

end Entries

namespace Value

/-- The command that a value names as a node of a command tree, with its operand. -/
def findCommand : Value → Option (Command × Value)
  | .map _ _ es => Entries.findCommand es
  | _ => .none

end Value

end Amend
