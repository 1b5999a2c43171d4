import Amend.Proofs.PathEnd

/-!
# What stops a path

`Value.firstObstacle?` walks the keys of a path down a value, where nothing, a missing child and,
below the root, a scalar that counts as false count as an empty mapping, and tells what the walk
meets first that it cannot pass: what is no container, a sequence that has no item at the key, or a
progression that is too long to be copied. Main statement (`applyAt_set_outcome`): setting the value
at the end of a path fails there, for that reason, and else succeeds.
-/

namespace Amend

/-- What a key of a path can meet that stops the path. -/
inductive Obstacle where
  /-- A value that is neither a mapping nor a sequence. -/
  | noContainer (kind : Kind)
  /-- A sequence, with a key of this kind, which is no integer. -/
  | noPosition (kind : Kind)
  /-- A sequence, with an integer that is outside of it. -/
  | noItem (position : Int)
  /-- A progression with more terms than a size can say. -/
  | noSize
  /-- A progression with more terms than memory holds. -/
  | noRoom

namespace Obstacle

def fault : Obstacle → Fault
  | .noContainer kind => .noProperties kind
  | .noPosition kind => .keyNotPosition kind
  | .noItem position => if Position.fits position then .outOfRange else .positionTooLarge
  | .noSize => .sizeTooLarge
  | .noRoom => .outOfMemory

/-- The class of faults that an obstacle leads to. -/
def category : Obstacle → Fault.Category
  | .noContainer _ | .noPosition _ => .type
  | .noItem _ => .index
  | .noSize => .overflow
  | .noRoom => .memory

theorem category_fault (o : Obstacle) : o.fault.category = o.category := by
  cases o with
  | noItem position => rw [fault]; split <;> rfl
  | _ => rfl

/-- A path that is stopped fails, and another one can be followed to its end. -/
def verdict : Option Obstacle → Update Value
  | some o => throw o.fault
  | none => pure .none

end Obstacle

/-- What a key meets at a sequence of `size` items. -/
def Key.obstacle? (size : Nat) (k : Key) : Option Obstacle :=
  match k.position? with
  | some position =>
    if -(size : Int) ≤ position ∧ position < size then .none else some (.noItem position)
  | .none => some (.noPosition k.kind)

/-- What a key meets at a level: a mapping takes any key. -/
def Scratch.obstacle? (k : Key) : Scratch → Option Obstacle
  | .items _ xs => k.obstacle? xs.length
  | .entries .. => none

namespace Value

/-- What stops a path at a value whatever the key is. -/
def openObstacle? [Machine] : Value → Option Obstacle
  | .none | .map .. | .seq .. | .deque .. => .none
  | .range _ r =>
    if 9223372036854775808 ≤ r.length then some .noSize
    else if Machine.capacity < 8 * r.length then some .noRoom
    else .none
  | v => some (.noContainer v.kind)

/-- What a path goes on from below a value: the child at a key, but nothing where there is none and
where the child is a scalar that counts as false. -/
def entered (k : Key) (v : Value) : Value :=
  let c := (v.child? k).getD .none
  if c.isContainer ∨ c.truthy then c else .none

/-- The first obstacle that a path meets at a value. -/
def firstObstacle? [Machine] : List Key → Value → Option Obstacle
  | [], _ => .none
  | k :: path, v =>
    (v.openObstacle?.or (v.level.obstacle? k)).or ((v.entered k).firstObstacle? path)

/-- Whether a value, if it is a point, has its two fields. -/
def isFilled : Value → Bool
  | .seq _ (.tuple .point) xs => xs.length = 2
  | _ => true

/-- Whether the points that a path leads into have their two fields. -/
def isFilledAlong : List Key → Value → Bool
  | [], _ => true
  | k :: path, v => v.isFilled && (v.entered k).isFilledAlong path

theorem firstObstacle?_none [Machine] (path : List Key) :
    Value.none.firstObstacle? path = .none := by
  induction path with
  | nil => rfl
  | cons k path ih => exact ih

end Value

/-- A path from a value: keys of which none is a command, and which lead into no point that lacks a
field. -/
structure Route (source : Value) where
  path : Value
  keys : List Key
  keys_eq : Key.ofValues (Path.keys path) = .ok keys
  plain : ∀ k ∈ keys, k.IsPlain
  filled : source.isFilledAlong keys

theorem Position.isSome_index?_iff {size : Nat} {position : Int} :
    (index? size position).isSome ↔ -(size : Int) ≤ position ∧ position < size := by
  unfold index?
  split
  · simp only [Option.isSome_some, true_iff]; omega
  · split
    · simp only [Option.isSome_some, true_iff]; omega
    · simp only [Option.isSome_none, reduceCtorEq, false_iff]; omega

namespace Scratch
variable {v a : Value} {s' : Scratch} {k : Key}

theorem ofContainer_eq [Machine] (v : Value) : ofContainer v =
    match v.openObstacle? with
    | some o => .error o.fault
    | none => .ok v.level := by
  cases v with
  | range id r =>
    simp only [ofContainer, Range.items, Storage.reserveItems, Value.openObstacle?]
    split
    · rfl
    · split <;> rfl
  | _ => rfl

/-- A key that is no integer is refused when the child is read, an integer outside of a sequence
only when the child is written. -/
theorem obstacle?_cases (k : Key) (s : Scratch) :
    (∃ o, s.obstacle? k = some o ∧ s.child k = .error o.fault) ∨
      (∃ o, s.obstacle? k = some o ∧ s.child? k = none ∧ s.child k = .ok .none ∧
        ∀ a, s.assign k a = .error o.fault) ∨
      (s.obstacle? k = none ∧ s.child k = .ok ((s.child? k).getD .none) ∧
        ∀ a, ∃ s', s.assign k a = .ok s') := by
  cases s with
  | items kind xs =>
    rcases hp : k.position? with - | position
    · refine .inl ⟨.noPosition k.kind, ?_, ?_⟩
      · rw [obstacle?, Key.obstacle?, hp]
      · rw [child, hp]; rfl
    · rcases hi : Position.index? xs.length position with - | i
      · refine .inr (.inl ⟨.noItem position, ?_, ?_, ?_, fun a => ?_⟩)
        · rw [obstacle?, Key.obstacle?, hp]
          refine if_neg fun hin => ?_
          rw [← Position.isSome_index?_iff, hi] at hin
          cases hin
        · rw [child?, Key.slot?, hp, Option.bind_some, hi, Option.bind_none]
        · simp only [child, hp, hi, Option.bind_none, Option.getD_none]
        · simp only [assign, hp, hi, Obstacle.fault]
      · refine .inr (.inr ⟨?_, ?_, fun a => ⟨.items kind (xs.set i a), ?_⟩⟩)
        · rw [obstacle?, Key.obstacle?, hp]
          exact if_pos (Position.isSome_index?_iff.1 (by rw [hi]; rfl))
        · simp only [child, child?, Key.slot?, hp, Option.bind_some]
        · simp only [assign, hp, hi]
  | entries kind es => exact .inr (.inr ⟨rfl, rfl, fun a => ⟨_, rfl⟩⟩)

/-- A copy of a value whose points have their fields becomes a container again. -/
theorem rebuild_matches_pure (hv : v.isFilled) (h : v.level.assign k a = .ok s') :
    (s'.rebuild v).Matches (fun _ => ()) (pure .none) := by
  refine ⟨fun t _ => ?_⟩
  cases s' with
  | items kind xs =>
    rw [rebuild_items, if_neg]
    · rfl
    · rintro ⟨hkind, hlen⟩
      cases v with
      | seq id kind' ys =>
        obtain rfl : kind' = .tuple .point := Kind.seq.inj hkind
        obtain ⟨i, -, hs'⟩ := assign_items_eq_ok.1 h
        obtain ⟨-, rfl⟩ := items.inj hs'
        exact hlen (List.length_set.trans (of_decide_eq_true hv))
      | _ => cases hkind
  | entries kind es =>
    rw [rebuild_entries]
    rfl

end Scratch

namespace Node
open Update
variable [Host] {k : Key} {path : List Key} {v x : Value}

/-- What a node with keys meets below a key is what a path goes on from there. -/
theorem performBelow_matches {e : Key × Node} {es : List (Key × Node)} {w : Update Value}
    (h : ((enter (e :: es)).perform (v.entered k)).Matches (fun _ => ()) w) :
    ((enter (e :: es)).performBelow ((v.child? k).getD .none)).Matches (fun _ => ()) w := by
  rw [Value.entered] at h
  split at h
  · next htaken => rwa [performBelow_of_taken htaken]
  · next hleft => exact performBelow_of_left hleft h

/-- Setting the value at the end of a path fails at the first obstacle, and else succeeds. -/
theorem along_set_matches_verdict (hfilled : v.isFilledAlong path) :
    (((act (.set x)).along path).perform v).Matches (fun _ => ())
      (Obstacle.verdict (v.firstObstacle? path)) := by
  induction path generalizing v with
  | nil => exact .pure rfl
  | cons k path ih =>
    obtain ⟨hv, hrest⟩ := Bool.and_eq_true_iff.1 hfilled
    have hbelow : (((act (.set x)).along path).performBelow ((v.child? k).getD .none)).Matches
        (fun _ => ()) (Obstacle.verdict ((v.entered k).firstObstacle? path)) := by
      cases path with
      | nil => rw [performBelow_of_command rfl]; exact .pure rfl
      | cons l path => exact performBelow_matches (ih hrest)
    rw [along_cons, perform_enter_singleton, Scratch.ofContainer_eq, Value.firstObstacle?]
    rcases v.openObstacle? with - | o
    case some => exact .throw o.fault
    show (Update.lift (.ok v.level) >>= _).Matches _ (Obstacle.verdict (.or _ _))
    rw [lift_ok_bind, Option.none_or]
    rcases v.level.obstacle?_cases k with ⟨o, ho, hchild⟩ | ⟨o, ho, hnone, hchild, hassign⟩ |
      ⟨ho, hchild, hassign⟩
    · rw [ho, hchild, lift_error_bind]
      exact .throw o.fault
    -- nothing stops the path below an item that is not there, so its write is reached
    · have hentered : v.entered k = .none := by rw [Value.entered, Value.child?, hnone]; rfl
      rw [Value.child?, hnone, hentered, Value.firstObstacle?_none] at hbelow
      rw [ho, hchild, lift_ok_bind]
      refine .skip (announce_comesTo _ _) fun _ => .skip hbelow.comesTo_of_pure fun {a _ _} _ => ?_
      rw [hassign, lift_error_bind]
      exact .throw o.fault
    · rw [ho, hchild, lift_ok_bind, Option.none_or]
      refine .skip (announce_comesTo _ _) fun _ => ?_
      rcases hnext : (v.entered k).firstObstacle? path with - | o <;> rw [hnext] at hbelow
      · refine .skip hbelow.comesTo_of_pure fun {a _ _} _ => ?_
        obtain ⟨s', hs'⟩ := hassign a
        rw [hs', lift_ok_bind]
        exact Scratch.rebuild_matches_pure hv hs'
      · exact hbelow.bind_throw

end Node

/-- Setting the value at the end of a path fails for the first reason that stops the path, and
succeeds where nothing does. -/
theorem applyAt_set_outcome [Host] {source : Value} (route : Route source) (v : Value)
    (next : Ident) :
    let outcome := ((applyAt .set source route.path v).exec next).1
    (∀ o, source.firstObstacle? route.keys = some o →
      outcome = .error o.fault ∧ o.fault.category = o.category) ∧
    (source.firstObstacle? route.keys = none → ∃ r, outcome = .ok r) := by
  intro outcome
  have hpure := Node.isPure_set v
  have hset := applyAt_matches source hpure route.keys_eq route.plain
  rw [Node.ofOperand_set] at hset
  have hverdict := Node.along_set_matches_verdict (x := v) route.filled
  refine ⟨fun o ho => ⟨?_, o.category_fault⟩, fun ho => ?_⟩
  · rw [ho] at hverdict
    have hfault := hverdict.symm.of_error (t := ⟨next, []⟩) rfl ⟨next, []⟩
    exact hset.symm.of_error hfault _
  · rw [ho] at hverdict
    obtain ⟨r, hr, -⟩ := hverdict.symm.of_ok (t := ⟨next, []⟩) rfl ⟨next, []⟩
    obtain ⟨r', hr', -⟩ := hset.symm.of_ok hr ⟨next, []⟩
    exact ⟨r', hr'⟩

attribute [local instance] Host.standard in
/-- The list in the last field of the point has no item, which only the write below `b` meets. -/
theorem applyAt_set_outcome_noItem :
    let source := Value.map 0 .readOnly [
      (.text "a", .seq 1 (.tuple .point) [.text "", .seq 2 .list []])]
    let route : Route source :=
      { path := .seq 3 .list [.text "a", .int (-1), .bool false, .text "b"]
        keys := [.text "a", .int (-1), .bool false, .text "b"]
        keys_eq := rfl
        plain := by decide
        filled := rfl }
    source.firstObstacle? route.keys = some (.noItem 0) ∧
      ((applyAt .set source route.path (.int 5)).exec 4).1 = .error .outOfRange ∧
      Fault.outOfRange.category = .index := by
  intro source route
  have hobstacle : source.firstObstacle? route.keys = some (.noItem 0) := rfl
  obtain ⟨hfails, -⟩ := applyAt_set_outcome route (.int 5) 4
  obtain ⟨hfault, hcategory⟩ := hfails _ hobstacle
  exact ⟨hobstacle, hfault, hcategory⟩

attribute [local instance] Host.standard in
/-- A progression that is too long to be copied fails before its key, which is no integer, is
looked at. -/
theorem applyAt_set_overflow :
    let source := Value.range 0 ⟨0, 9223372036854775808, 1⟩
    let path := Value.seq 1 .list [.text "a"]
    (Key.text "a").position? = none ∧
      ((applyAt .set source path (.int 1)).exec 2).1 = .error .sizeTooLarge ∧
      Fault.sizeTooLarge.category = .overflow :=
  ⟨rfl, rfl, rfl⟩

end Amend
