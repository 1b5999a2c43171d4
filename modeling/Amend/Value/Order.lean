import Amend.Fault
import Amend.Sort

/-!
# Sorting keys

Numbers of all kinds are ordered by value, texts and octets item by item, fixed sequences by the
first items that differ, and sets by inclusion; other pairs of keys are not comparable.
`Key.sortEntries` puts entries in the order of their keys.
-/

namespace Amend.Key

/-- A number on the extended line, in units of `2⁻¹⁰⁷⁴`. -/
inductive Measure where
  | below
  | exact (units : Int)
  | above
deriving DecidableEq

def Measure.less : Measure → Measure → Bool
  | .below, .below => false
  | .below, _ => true
  | .exact m, .exact n => m < n
  | .exact _, .above => true
  | _, _ => false

/-- The number that a key is; `nan` is none that compares. -/
inductive Numeric where
  | incomparable
  | at (measure : Measure)

def numeric? : Key → Option Numeric
  | .bool b => some (.at (.exact (if b then Double.one else 0)))
  | .int n => some (.at (.exact (n * Double.one)))
  | .float .nan => some .incomparable
  | .float (.infinite negative) => some (.at (if negative then .below else .above))
  | .float (.finite negative rank) => some (.at (.exact (Double.signedUnits negative rank)))
  | _ => Option.none

/-- Whether the question about two fixed sequences is put to the right one. A named kind answers for
itself when it stands on the right of a plain sequence. -/
def asksRight : (left right : TupleKind) → Bool
  | .plain, .plain => false
  | .plain, _ => true
  | _, _ => false

mutual

/-- Whether one key is less than another, when they can be compared. A question that is `turned`
asks whether the other one is greater, and says so in its fault. -/
def less (turned : Bool) : Key → Key → Except Fault Bool
  | .text s, .text t => .ok (s < t)
  | .bytes _ bs, .bytes _ cs => .ok (bs.map UInt8.toNat < cs.map UInt8.toNat)
  | .frozenSet _ ks, .frozenSet _ ls =>
    .ok (ks.length < ls.length && ks.all fun k => ls.any fun l => k.equals l)
  | .tuple _ kind ks, .tuple _ kind' ls =>
    let again := if turned then asksRight kind' kind else asksRight kind kind'
    lessItems (turned != again) ks ls
  | k, l =>
    match k.numeric?, l.numeric? with
    | some (.at m), some (.at n) => .ok (m.less n)
    | some _, some _ => .ok false
    | _, _ =>
      .error (if turned then .notComparable true l.kind k.kind
        else .notComparable false k.kind l.kind)
termination_by structural k => k

/-- Whether one row of keys is less than another: by the first keys that differ, else by length. -/
def lessItems (turned : Bool) : List Key → List Key → Except Fault Bool
  | [], ls => .ok (!ls.isEmpty)
  | _ :: _, [] => .ok false
  | k :: ks, l :: ls => if k.equals l then lessItems turned ks ls else less turned k l
termination_by structural ks => ks

end

/-- A text, which is comparable with any other. -/
def isText : Key → Bool
  | .text _ => true
  | _ => false

/-- Whether one text does not come after another. -/
def textAtMost : Key → Key → Bool
  | .text s, .text t => !(t < s)
  | _, _ => true

/-- The entries in the order of their keys. No two texts of a mapping are equal, so any sort gives
the same order of them; with other keys among them, which ones are compared matters. -/
def sortEntries {α : Type} (es : Entries α) : Except Fault (Entries α) :=
  if es.all (·.1.isText) then .ok (es.mergeSort fun a b => textAtMost a.1 b.1)
  else Sort.sort (fun a b => less false a.1 b.1) es

end Amend.Key
