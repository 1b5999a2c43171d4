import Amend.Value.Kind

/-!
# Keys

Keys that stand for one another in a mapping. `Key.signature` is a normal form in which `true`, `1`
and `1.0` agree, as do zeros of either sign, fixed sequences of any kind with the same items, and
progressions with the same terms; `Key.Same` is equality of signatures. `Key.ofValue` tells which
values may stand as keys, and undoes `Key.toValue` (`ofValue_toValue`).
-/

namespace Amend.Key

/-- A piece of a signature. Sequences and sets stand before their items with their size. -/
inductive Atom where
  | none
  | int (n : Int)
  | float (d : Double)
  | text (s : String)
  | octets (bs : List UInt8)
  | range (length : Nat) (start step : Int)
  | sequence (size : Nat)
  | members (size : Nat)
  | function (id : Ident)
deriving DecidableEq

/-- A number of an atom's constructor and the text of its contents, to order atoms by. -/
def Atom.rank : Atom → Nat × List Int × String
  | .none => (0, [], "")
  | .int n => (1, [n], "")
  | .float .nan => (2, [], "")
  | .float (.infinite negative) => (3, [if negative then 0 else 1], "")
  | .float (.finite negative rank) => (4, [if negative then 0 else 1, rank.val], "")
  | .text s => (5, [], s)
  | .octets bs => (6, bs.map fun b => (b.toNat : Int), "")
  | .range length start step => (7, [length, start, step], "")
  | .sequence size => (8, [size], "")
  | .members size => (9, [size], "")
  | .function id => (10, [id], "")

/-- An order of atoms, of no meaning but to list the members of a set in one way. -/
def Atom.compare (a b : Atom) : Ordering :=
  let (m, ns, s) := a.rank
  let (n, ks, t) := b.rank
  (Ord.compare m n).then ((Ord.compare ns ks).then (Ord.compare s t))

def atMost (a b : List Atom) : Bool := (List.compareLex Atom.compare a b).isLE

/-- A progression without terms has no start, and one of fewer than two terms no step. -/
def rangeAtom (r : Range) : Atom :=
  match r.length with
  | 0 => .range 0 0 0
  | 1 => .range 1 r.start 0
  | n => .range n r.start r.step

mutual

def signature : Key → List Atom
  | .none => [.none]
  | .bool b => [.int (if b then 1 else 0)]
  | .int n => [.int n]
  | .float d => [match d.toInt? with | .some n => .int n | .none => .float d]
  | .text s => [.text s]
  | .bytes _ bs => [.octets bs]
  | .range _ r => [rangeAtom r]
  | .frozenSet _ ks => .members ks.length :: ((signatures ks).mergeSort atMost).flatten
  | .factory id .. | .runner id _ => [.function id]
  | .tuple _ _ ks => .sequence ks.length :: (signatures ks).flatten
termination_by structural k => k

def signatures : List Key → List (List Atom)
  | [] => []
  | k :: ks => signature k :: signatures ks
termination_by structural ks => ks

end

/-- Two keys that address the same entry. A number carries no identity, so every `nan` counts as the
one object. -/
def Same (a b : Key) : Prop := a.signature = b.signature

instance : DecidableRel Same := fun a b => inferInstanceAs (Decidable (a.signature = b.signature))

@[refl] theorem Same.refl (a : Key) : a.Same a := rfl

theorem Same.symm {a b : Key} (h : a.Same b) : b.Same a := Eq.symm h

theorem Same.trans {a b c : Key} (h : a.Same b) (h' : b.Same c) : a.Same c := Eq.trans h h'

theorem same_text_iff {s t : String} : (text s).Same (text t) ↔ s = t := by
  simp [Same, signature]

mutual

/-- Whether a key holds `nan`, which is equal to nothing. -/
def holdsNan : Key → Bool
  | .float .nan => true
  | .tuple _ _ ks | .frozenSet _ ks => anyHoldsNan ks
  | _ => false
termination_by structural k => k

def anyHoldsNan : List Key → Bool
  | [] => false
  | k :: ks => holdsNan k || anyHoldsNan ks
termination_by structural ks => ks

end

/-- Whether two keys that come from different places are equal. -/
def equals (a b : Key) : Bool := a.Same b && !a.holdsNan

/-- The position that a key addresses in a sequence. A truth value counts as 0 or 1. -/
def position? : Key → Option Int
  | .int n => some n
  | .bool b => some (if b then 1 else 0)
  | _ => .none

mutual

def toValue : Key → Value
  | .none => .none
  | .bool b => .bool b
  | .int n => .int n
  | .float d => .float d
  | .text s => .text s
  | .bytes id bs => .bytes id bs
  | .range id r => .range id r
  | .frozenSet id ks => .frozenSet id ks
  | .factory id f arg => .factory id f arg
  | .runner id tree => .runner id tree
  | .tuple id kind ks => .seq id (.tuple kind) (toValues ks)
termination_by structural k => k

def toValues : List Key → List Value
  | [] => []
  | k :: ks => toValue k :: toValues ks
termination_by structural ks => ks

end

mutual

/-- A value as a key. What can be changed in place is no key, nor is a fixed sequence that holds
such a thing; the error is the kind of the first found. -/
def ofValue : Value → Except Kind Key
  | .none => .ok .none
  | .bool b => .ok (.bool b)
  | .int n => .ok (.int n)
  | .float d => .ok (.float d)
  | .text s => .ok (.text s)
  | .bytes id bs => .ok (.bytes id bs)
  | .range id r => .ok (.range id r)
  | .frozenSet id ks => .ok (.frozenSet id ks)
  | .factory id f arg => .ok (.factory id f arg)
  | .runner id tree => .ok (.runner id tree)
  | .seq id (.tuple kind) xs => do return .tuple id kind (← ofValues xs)
  | v => .error v.kind
termination_by structural v => v

def ofValues : List Value → Except Kind (List Key)
  | [] => .ok []
  | v :: vs => do return (← ofValue v) :: (← ofValues vs)
termination_by structural vs => vs

end

mutual

theorem ofValue_toValue : ∀ k : Key, ofValue k.toValue = .ok k
  | .tuple id kind ks => by simp only [toValue, ofValue, ofValues_toValues ks]; rfl
  | .none | .bool _ | .int _ | .float _ | .text _ | .bytes .. | .range .. | .frozenSet ..
  | .factory .. | .runner .. => rfl

theorem ofValues_toValues : ∀ ks : List Key, ofValues (toValues ks) = .ok ks
  | [] => rfl
  | k :: ks => by simp only [toValues, ofValues, ofValue_toValue k, ofValues_toValues ks]; rfl

end

mutual

theorem toValue_of_ofValue : ∀ {v : Value} {k : Key}, ofValue v = .ok k → k.toValue = v
  | .seq id (.tuple kind) xs, k, h => by
    rcases hxs : ofValues xs with refused | ks <;> simp only [ofValue, hxs] at h <;> cases h
    rw [toValue, toValues_of_ofValues hxs]
  | .none, _, h | .bool _, _, h | .int _, _, h | .float _, _, h | .text _, _, h | .bytes .., _, h
  | .range .., _, h | .frozenSet .., _, h | .factory .., _, h | .runner .., _, h => by
    cases h; rfl
  | .buffer .., _, h | .set .., _, h | .deque .., _, h | .map .., _, h | .seq _ .list _, _, h
  | .seq _ .row _, _, h => by cases h

theorem toValues_of_ofValues : ∀ {vs : List Value} {ks : List Key},
    ofValues vs = .ok ks → toValues ks = vs
  | [], _, h => by cases h; rfl
  | v :: vs, _, h => by
    rcases hv : ofValue v with refused | k <;> simp only [ofValues, hv] at h
    · cases h
    rcases hvs : ofValues vs with refused | ks <;> simp only [hvs] at h <;> cases h
    rw [toValues, toValue_of_ofValue hv, toValues_of_ofValues hvs]

end

end Amend.Key
