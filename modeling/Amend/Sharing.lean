import Amend.Value

/-!
# Sharing

Which containers of a result are the very objects of its inputs. The roots' containers are named by
the place of their first occurrence in preorder, and `Sharing.report` lists the places of the result
that hold a named one, outermost only.
-/

namespace Amend.Sharing

/-- The positions that lead to a place: of the items of a sequence, of the values of a mapping. -/
abbrev Place := List Nat

/-- A place in a named root. -/
structure Name where
  root : String
  place : Place
deriving DecidableEq

/-- The identity of a container. The empty plain fixed sequence has none. -/
def ident? : Value → Option Ident
  | .seq _ (.tuple .plain) [] => none
  | .seq id _ _ => some id
  | .map id _ _ => some id
  | _ => none

mutual

/-- The containers of a value with their places, in preorder. -/
def containers (place : Place) : Value → List (Ident × Place)
  | .seq id kind xs =>
    ((ident? (.seq id kind xs)).map (·, place)).toList ++ inItems place 0 xs
  | .map id _ es => (id, place) :: inEntries place 0 es
  | _ => []
termination_by structural v => v

def inItems (place : Place) (i : Nat) : List Value → List (Ident × Place)
  | [] => []
  | v :: vs => containers (place ++ [i]) v ++ inItems place (i + 1) vs
termination_by structural vs => vs

def inEntries (place : Place) (i : Nat) : List (Key × Value) → List (Ident × Place)
  | [] => []
  | (_, v) :: es => containers (place ++ [i]) v ++ inEntries place (i + 1) es
termination_by structural es => es

end

def names (roots : List (String × Value)) : List (Ident × Name) :=
  roots.flatMap fun (root, v) => (containers [] v).map fun (id, place) => (id, ⟨root, place⟩)

def nameOf? (names : List (Ident × Name)) (v : Value) : Option Name := do
  names.lookup (← ident? v)

mutual

/-- The places of a value that hold named containers. A named one is not entered. -/
def found (names : List (Ident × Name)) (place : Place) : Value → List (Place × Name)
  | .seq id kind xs =>
    match nameOf? names (.seq id kind xs) with
    | some name => [(place, name)]
    | none => foundItems names place 0 xs
  | .map id kind es =>
    match nameOf? names (.map id kind es) with
    | some name => [(place, name)]
    | none => foundEntries names place 0 es
  | _ => []
termination_by structural v => v

def foundItems (names : List (Ident × Name)) (place : Place) (i : Nat) :
    List Value → List (Place × Name)
  | [] => []
  | v :: vs => found names (place ++ [i]) v ++ foundItems names place (i + 1) vs
termination_by structural vs => vs

def foundEntries (names : List (Ident × Name)) (place : Place) (i : Nat) :
    List (Key × Value) → List (Place × Name)
  | [] => []
  | (_, v) :: es => found names (place ++ [i]) v ++ foundEntries names place (i + 1) es
termination_by structural es => es

end

/-- The places of a result that hold containers of the roots, with their names there. -/
def report (roots : List (String × Value)) (result : Value) : List (Place × Name) :=
  found (names roots) [] result

end Amend.Sharing
