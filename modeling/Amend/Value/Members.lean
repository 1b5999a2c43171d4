import Amend.Value.Order

/-!
# Members of sets

A set lists its members by their places in an open hash table, so the order follows from the hashes
and from the sequence in which the members came. Numbers have their residue modulo `2⁶¹ - 1` for a
hash, what is empty has zero, and fixed sequences, sets and progressions mix the hashes of what they
consist of. No order is promised for other texts and octets and for functions; equal ones have equal
hashes, and that is all there is to theirs.
-/

namespace Amend

namespace Hash

def modulus : Nat := 2305843009213693951

/-- Minus one is no hash. -/
def reserved : UInt64 := 0xFFFFFFFFFFFFFFFF

/-- The hash of a number in units of `2⁻¹⁰⁷⁴`. That is `2²⁴` modulo `2⁶¹ - 1`. -/
def ofUnits (units : Int) : UInt64 :=
  let residue := UInt64.ofNat (units.natAbs * 16777216 % modulus)
  let h := if units < 0 then 0 - residue else residue
  if h = reserved then h - 1 else h

def ofNumeric : Key.Numeric → UInt64
  | .incomparable => 0
  | .at .below => 0 - 314159
  | .at .above => 314159
  | .at (.exact units) => ofUnits units

/-- The hash of nothing, settled in its last eight bits. -/
def ofNone : UInt64 := 79

/-- The hash of a text or of octets by their codes: zero for none, and else of no meaning. -/
def ofCodes (codes : List Nat) : UInt64 :=
  codes.foldl (fun (acc : UInt64) code => (acc + UInt64.ofNat code + 1) * 1099511628211) 0

def ofItems (hashes : List UInt64) : UInt64 :=
  let start : UInt64 := 2870177450012600261
  let mixed := hashes.foldl (fun (acc h : UInt64) =>
    let acc := acc + h * 14029467366897019727
    ((acc <<< 31) ||| (acc >>> 33)) * 11400714785074694791) start
  let h := mixed + (UInt64.ofNat hashes.length ^^^ (start ^^^ 3527539))
  if h = reserved then 1546275796 else h

/-- Scatters the bits of a hash. -/
def scatter (h : UInt64) : UInt64 :=
  let seed : UInt64 := 89869747
  ((h ^^^ seed) ^^^ (h <<< 16)) * 3644798167

/-- The hash of a set from those of its members, in any order. -/
def ofMembers (hashes : List UInt64) : UInt64 :=
  let mixed := hashes.foldl (fun (acc h : UInt64) => acc ^^^ scatter h) 0
  let h := mixed ^^^ ((UInt64.ofNat hashes.length + 1) * 1927868237)
  let h := (h ^^^ ((h >>> 11) ^^^ (h >>> 25))) * 69069 + 907133923
  if h = reserved then 590923713 else h

/-- The hash of a progression: its length, and of its start and step what matters to its terms. -/
def ofRange (r : Range) : UInt64 :=
  let ofInt (n : Int) := ofUnits (n * Double.one)
  match r.length with
  | 0 => ofItems [ofInt 0, ofNone, ofNone]
  | 1 => ofItems [ofInt 1, ofInt r.start, ofNone]
  | n => ofItems [ofInt n, ofInt r.start, ofInt r.step]

end Hash

namespace Key

mutual

def hash : Key → UInt64
  | .none => Hash.ofNone
  | .text s => Hash.ofCodes (s.toList.map Char.toNat)
  | .bytes _ bs => Hash.ofCodes (bs.map UInt8.toNat)
  | .range _ r => Hash.ofRange r
  | .frozenSet _ ks => Hash.ofMembers (hashes ks)
  | .factory id .. | .runner id _ => UInt64.ofNat id
  | .tuple _ _ ks => Hash.ofItems (hashes ks)
  | k => (k.numeric?.map Hash.ofNumeric).getD 0
termination_by structural k => k

/-- The hashes of some keys. -/
def hashes : List Key → List UInt64
  | [] => []
  | k :: ks => hash k :: hashes ks
termination_by structural ks => ks

end

end Key

namespace Members

abbrev Hashed := UInt64 × Key

/-- The slots of a table, as many as a power of two, at least eight. -/
abbrev Slots := Array (Option Hashed)

/-- How many slots behind a slot are looked at before the next jump. -/
def neighbours : Nat := 9

/-- The first free slot for a member. From a slot on, the search looks at its neighbours as far as
they are all in the table, and then jumps by what is left of the hash; `jumps` bounds the jumps. -/
def freeSlot (slots : Slots) : (jumps i rest : Nat) → Nat
  | 0, i, _ => i
  | jumps + 1, i, rest =>
    let width := if i + neighbours < slots.size then neighbours + 1 else 1
    match (List.range' i width).find? fun j => (slots[j]?.getD none).isNone with
    | some j => j
    | none =>
      let rest := rest / 32
      freeSlot slots jumps ((i * 5 + 1 + rest) % slots.size) rest

def occupy (slots : Slots) (m : Hashed) : Slots :=
  let i := freeSlot slots (slots.size + 13) (m.1.toNat % slots.size) m.1.toNat
  slots.setIfInBounds i (some m)

/-- The number of slots of a new table: a power of two greater than `least`. -/
def tableSize (least : Nat) : Nat := max 8 (Nat.shiftLeft 1 (Nat.log2 least + 1))

def grown (slots : Slots) (count : Nat) : Slots :=
  let size := tableSize (if 50000 < count then count * 2 else count * 4)
  (slots.toList.filterMap id).foldl occupy (Array.replicate size none)

/-- Adds a member to a table, unless it is there. A table that is more than three fifths full
grows. -/
def add (slots : Slots) (m : Hashed) : Slots :=
  if slots.any fun slot => slot.any fun other => other.2.equals m.2 then slots
  else
    let slots := occupy slots m
    let count := (slots.toList.filterMap id).length
    if count * 5 < (slots.size - 1) * 3 then slots else grown slots count

/-- The members of a set, as it lists them, from those that it is made from. -/
def ofList (ks : List Key) : List Key :=
  let slots := (ks.map fun k => (k.hash, k)).foldl add (Array.replicate 8 none)
  slots.toList.filterMap (·.map (·.2))

end Members

end Amend
