import Amend.Action
import Amend.Double.Nearest
import Amend.Proofs.Outcome

/-!
# The standard host

The functions that are known by name, and a machine of 64 GiB. The adding function takes exact
integers only, and adds a binary64 number as one. No function here is a class of encoders, and the
only derived mappings are those with a default for missing keys, whose update is the inherited one.
-/

namespace Amend

namespace Factory

def sum (n : Int) : Value → Except Fault Value
  | .int m => .ok (.int (n + m))
  | .bool b => .ok (.int (n + if b then 1 else 0))
  | .float d =>
    match Double.ofInt? n with
    | some e => .ok (.float (e.add d))
    | none => .error .beyondDouble
  | v => .error (.notAddable v.kind)

/-- A sum is a number. -/
theorem sum_eq_ok {n : Int} {v r : Value} (h : sum n v = .ok r) :
    (∃ m, r = .int m) ∨ ∃ d, r = .float d := by
  -- the rounding of `n` is set aside first: it must not be computed with
  delta sum at h
  generalize Double.ofInt? n = rounded at h
  cases v with
  | int m => cases h; exact .inl ⟨_, rfl⟩
  | bool b => cases h; exact .inl ⟨_, rfl⟩
  | float d =>
    cases rounded with
    | none => cases h
    | some e => exact .inr ⟨_, (Except.ok.inj h).symm⟩
  | _ => cases h

/-- What a function with its argument makes of a value. -/
def apply (f : Factory) (arg old : Value) : Update Value :=
  match f with
  | .identity => pure old
  | .wrap => do return .seq (← Update.fresh) .list [old]
  | .isNone => pure (.bool (old matches .none))
  | .kind => pure (.text old.kind.name)
  | .const => pure arg
  | .add =>
    match old with
    | .int n => Update.lift (sum n arg)
    | _ => throw .integerNeeded
  | .fail => throw (.failed arg)

theorem apply_grows (f : Factory) (arg old : Value) : (f.apply arg old).Grows := by
  cases f with
  | wrap => exact .bind .fresh fun _ => .pure _
  | add =>
    cases old with
    | int n => exact .lift _
    | _ => exact .throw _
  | fail => exact .throw _
  | identity | isNone | kind | const => exact .pure _

end Factory

abbrev Machine.standard : Machine where
  capacity := 68719476736
  nesting := 1000
  pair_le_capacity := by decide

abbrev Host.standard : Host where
  toMachine := Machine.standard
  call := Factory.apply
  update :=
    have := Machine.standard
    Merge.overwrite false
  encode _ _ _ := throw (.unexpectedArgument "skipkeys")
  call_grows := Factory.apply_grows
  update_grows _ _ := .bind (.lift _) fun _ => .pure _
  encode_grows _ _ _ := .throw _

attribute [local instance] Host.standard in
instance : Host.Overwriting := ⟨fun _ _ => rfl⟩

end Amend
