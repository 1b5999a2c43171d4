import Amend.Json.Reader
import Amend.Json.Writer
import Amend.Path
import Amend.Standard

/-!
# Histories

Operations on a current value, one after another. A success becomes the current value and is kept
among the versions; a failure changes nothing but the identities handed out; going back to a version
makes it current again, as the very same object.
-/

namespace Amend

-- Programs run on the standard host.
attribute [instance] Host.standard

/-- What may be done to a current value. `applyUnknown` applies what is no command. -/
inductive Operation where
  | run (commands : Value)
  | applyAt (command : Command) (path operand : Value)
  | apply (command : Command) (operand : Value)
  | applyUnknown (given : Value)
  | freeze
  | thaw
  | toJson (options : List (String × Value))
  | roundTrip (options : List (String × Value))

def Operation.perform [Host] (source : Value) : Operation → Update Value
  | .run commands => Amend.run source commands
  | .applyAt command path operand => Amend.applyAt command source path operand
  | .apply command operand => applyCommand command source operand
  | .applyUnknown given => Amend.applyUnknown given
  | .freeze => Update.make source.freeze
  | .thaw => Update.make source.thaw
  | .toJson options => do return .text (← Amend.toJson options source)
  | .roundTrip options => do ofJson (.text (← Amend.toJson options source))

/-- A current value and all versions so far, the oldest first. -/
structure History where
  current : Value
  versions : List Value

namespace History

def start (source : Value) : History := ⟨source, [source]⟩

def commit (h : History) (v : Value) : History := ⟨v, h.versions ++ [v]⟩

/-- Makes a version current, if there is one of that number. A negative number counts from the
end. -/
def goto (h : History) (n : Int) : History :=
  let version := (Position.index? h.versions.length n).bind (h.versions[·]?)
  { h with current := version.getD h.current }

/-- Carries an operation out on the current value, from a next identity on. -/
def step [Host] (h : History) (next : Ident) (op : Operation) :
    Except Fault Value × History × Trace :=
  match (op.perform h.current).exec next with
  | (.ok v, trace) => (.ok v, h.commit v, trace)
  | (.error fault, trace) => (.error fault, h, trace)

end History

/-- Reads a state and commands, updates the state, read-only on request, and writes the result. -/
def runJson [Host] (state commands : Value) (frozen : Bool) (options : List (String × Value)) :
    Update String := do
  let state ← ofJson state
  let commands ← ofJson commands
  let state ← if frozen then Update.make state.freeze else pure state
  toJson options (← run state commands)

end Amend
