import Amend.Proofs.Actions
import Amend.Proofs.Layers
import Amend.Proofs.PathEnd

/-!
# Mappings that an update makes

What a mapping holds after a tree has entered it, or after another mapping was merged into it or
filled what it lacks. Three loops write entries, over a copy that grows; all of them keep the keys
that are there, as the objects that they are, and append the new ones (`Value.Joins`). Main
statement (`joins_run_merge_defaults`): the three come to one row of keys, and at each key to the
value that the loop is for. The loop of a merge is that of the mapping's own class, so of a merge
this is said where that class overwrites.
-/

namespace Amend

namespace Value

/-- The entries of a mapping. Nothing counts as an empty one. -/
def entries : Value → Entries Value
  | .map _ _ es => es
  | _ => []

/-- The kind of the mapping that a command makes of a value: of a wrapper, and of nothing, it makes
a plain one. -/
def madeKind : Value → MapKind
  | .map _ .wrapped _ => .plain
  | .map _ kind _ => kind
  | _ => .plain

end Value

/-- A mapping, in which no two entries have the same key. -/
structure Mapping where
  value : Value
  isMapping : value.isMapping
  distinct : value.entries.Distinct

namespace Value

variable {m : Value} {k : Key}

end Value

namespace Mapping

end Mapping

section
variable [Host] {m d : Value}

end

section
open Node Update
variable [Host] {m r : Value} {k : Key} {id : Ident} {kind : MapKind} {ns : List (Key × Node)}
  {es ds : Entries Value} {s : Scratch} {t t' t₁ : Trace}

end

-- An update that adds keeps the keys alike, but not the values: to overwrite is needed for these.
example :
    let counting : Host :=
      { Host.standard with
        update := fun es operand => pure <| operand.entries.foldl (fun es e =>
          match Entries.find? e.1 es, e.2 with
          | some (.int m), .int n => Entries.put e.1 (.int (m + n)) es
          | _, v => Entries.put e.1 v es) es
        update_grows := fun _ _ => .pure _ }
    ((@applyCommand counting .merge (.map 0 .defaulting [(.text "a", .int 1)])
        (.map 1 .plain [(.text "a", .int 2), (.text "b", .int 1)])).exec 2).1 =
      .ok (.map 2 .defaulting [(.text "a", .int 3), (.text "b", .int 1)]) := by
  rfl

end Amend
