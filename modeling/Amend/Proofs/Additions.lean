import Amend.Proofs.Copies
import Amend.Proofs.Rebuilding

/-!
# Elements added to a sequence

`addAll` makes calls at one path, each on the result of the one before, and each call adds an
element to the sequence there, in front or at the end. `Value.Gathers` is what every call preserves:
the elements so far are all there and in their order, the sequence can be added to again, and a list
or a plain fixed sequence keeps its kind. Main statement (`addAll_items`): all the calls succeed,
no element is lost or doubled, and what lies beside the path is the very object that it was.
-/

namespace Amend

/-- A call that adds an element to a sequence, as the first one or as the last one. -/
inductive Addition where
  | first (x : Value)
  | last (x : Value)

namespace Addition

def command : Addition → Command
  | .first _ => .unshift
  | .last _ => .push

def operand : Addition → Value
  | .first x | .last x => x

def addTo (xs : List Value) : Addition → List Value
  | .first x => x :: xs
  | .last x => xs ++ [x]

def first? : Addition → Option Value
  | .first x => some x
  | .last _ => none

def last? : Addition → Option Value
  | .first _ => none
  | .last x => some x

/-- The elements put in front stand in reverse order of the calls, those put at the end in their
order. -/
theorem foldl_addTo (calls : List Addition) (xs : List Value) :
    calls.foldl addTo xs = (calls.filterMap first?).reverse ++ xs ++ calls.filterMap last? := by
  induction calls generalizing xs with
  | nil => simp
  | cons a calls ih =>
    rw [List.foldl_cons, ih, List.filterMap_cons, List.filterMap_cons]
    cases a <;> simp [addTo, first?, last?]

end Addition

/-- Makes calls at one path, each on the result of the one before and with a next identity of its
own. -/
def addAll [Host] (path : Value) : List (Addition × Ident) → Value → Except Fault Value
  | [], v => .ok v
  | (a, next) :: calls, v => do
    addAll path calls (← ((applyAt a.command v path a.operand).exec next).1)

namespace Value

/-- The kind of the list that a sequence is copied to. -/
def listKind : Value → SeqKind
  | .seq _ .row _ => .row
  | _ => .list

/-- Whether a sequence holds these elements, can take more of them, and is of the kind that another
one has if that is a list or a plain fixed sequence. -/
structure Gathers [Machine] (q : Value) (xs : List Value) (r : Value) : Prop where
  items : r.items = xs
  sequence : r.isSequence
  copied : r.openObstacle? = .none
  noPoint : r.kind ≠ .seq (.tuple .point)
  kind : ∀ kind ∈ [SeqKind.list, .row, .tuple .plain], q.kind = .seq kind → r.kind = .seq kind

variable {q v : Value} {xs : List Value}

theorem Gathers.isContainer [Machine] (h : q.Gathers xs v) : v.isContainer := by
  unfold Value.isContainer
  rw [h.sequence, Bool.or_true]

/-- A sequence that is rebuilt is of the kind it had, if it is a list or a plain fixed sequence. -/
theorem seqKindOf_listKind {kind : SeqKind} (hkind : kind ∈ [SeqKind.list, .row, .tuple .plain])
    (h : v.kind = .seq kind) : v.seqKindOf v.listKind = kind := by
  cases v with
  | seq id kind' ys =>
    obtain rfl : kind' = kind := Kind.seq.inj h
    rcases kind' with - | - | (- | - | -)
    case tuple.tri | tuple.point => simp at hkind
    all_goals rfl
  | _ => cases h

theorem seqKindOf_listKind_ne_point (h : v.kind ≠ .seq (.tuple .point)) :
    v.seqKindOf v.listKind ≠ .tuple .point := by
  cases v with
  | seq id kind ys =>
    rcases kind with - | - | (- | - | -)
    case tuple.point => exact absurd rfl h
    all_goals
      intro hkind
      cases hkind
  | _ =>
    intro hkind
    cases hkind

end Value

theorem Scratch.ofSequence_eq [Machine] {v : Value} (c : Command) (hv : v.isSequence)
    (hopen : v.openObstacle? = none) : ofSequence c v = .ok (v.listKind, v.items) := by
  cases v with
  | seq id kind xs => cases kind <;> rfl
  | deque => rfl
  | range id r =>
    -- both copies write the progression out
    have hlevel := ofContainer_eq (.range id r)
    rw [hopen] at hlevel
    simp only [ofContainer] at hlevel
    simp only [ofSequence]
    rcases hr : r.items with fault | xs <;> rw [hr] at hlevel <;> cases hlevel
    rfl
  | _ => cases hv

namespace Addition
open Update
variable {q v : Value} {xs : List Value}

variable [Host]

theorem perform_eq (a : Addition) (hv : v.isSequence) (hopen : v.openObstacle? = none) :
    (Node.ofOperand a.command a.operand).perform v =
      (Scratch.items v.listKind (a.addTo v.items)).rebuild v := by
  cases a with
  | first x =>
    rw [command, operand, Node.ofOperand_unshift]
    show (lift (Scratch.ofSequence .unshift v) >>= _) = _
    rw [Scratch.ofSequence_eq .unshift hv hopen, lift_ok_bind]
    rfl
  | last x =>
    rw [command, operand, Node.ofOperand_push]
    show (lift (Scratch.ofSequence .push v) >>= _) = _
    rw [Scratch.ofSequence_eq .push hv hopen, lift_ok_bind]
    rfl

/-- One call succeeds and adds its element. -/
theorem perform_gathers (a : Addition) (h : q.Gathers xs v) (t : Trace) :
    ∃ r t', (Node.ofOperand a.command a.operand).perform v t = (.ok r, t') ∧
      q.Gathers (a.addTo xs) r := by
  refine ⟨.seq t.next (v.seqKindOf v.listKind) (a.addTo xs), { t with next := t.next + 1 }, ?_, ?_⟩
  · rw [a.perform_eq h.sequence h.copied, h.items, Scratch.rebuild_items,
      if_neg fun hpoint => h.noPoint hpoint.1]
    rfl
  · constructor
    case items | sequence | copied => rfl
    case noPoint =>
      intro hpoint
      exact Value.seqKindOf_listKind_ne_point h.noPoint (Kind.seq.inj hpoint)
    case kind =>
      intro kind hkind hq
      show Kind.seq (v.seqKindOf v.listKind) = .seq kind
      rw [Value.seqKindOf_listKind hkind (h.kind kind hkind hq)]

end Addition

section
open Update
variable [Host] {q : Value}

/-- What calls at a path preserve, and what they make of the sequence at its end. -/
theorem addAll_rebuilds {path : Value} {keys : List Key}
    (hkeys : Key.ofValues (Path.keys path) = .ok keys)
    (hplain : ∀ k ∈ keys, k.IsPlain) {v w : Value} {xs : List Value}
    (hfilled : v.isFilledAlong keys) (hat : v.at? keys = some w) (hw : q.Gathers xs w)
    (calls : List (Addition × Ident)) :
    ∃ result r, addAll path calls v = .ok result ∧ v.RebuiltAlong keys result ∧
      result.at? keys = some r ∧ q.Gathers ((calls.map Prod.fst).foldl Addition.addTo xs) r := by
  induction calls generalizing v w xs with
  | nil => exact ⟨v, w, rfl, .refl hat, hat, hw⟩
  | cons call calls ih =>
    obtain ⟨a, next⟩ := call
    obtain ⟨t, ht⟩ := applyAt_eq_perform hkeys hplain a.command v a.operand ⟨next, []⟩
    obtain ⟨u, t', hu, hrebuilt, hfilled', w', hat', hw'⟩ :=
      Node.along_rebuilds hat hw.isContainer hfilled (a.perform_gathers hw) t
    obtain ⟨result, r, hrun, hrest, hr⟩ := ih hfilled' hat' hw'
    refine ⟨result, r, ?_, hrebuilt.trans hrest, hr⟩
    have hcall : ((applyAt a.command v path a.operand).exec next).1 = .ok u := by
      unfold exec
      rw [ht, hu]
    show (((applyAt a.command v path a.operand).exec next).1 >>= addAll path calls) = _
    rw [hcall]
    exact hrun

/-- Calls that add elements to the sequence at the end of a path all succeed. The elements put in
front stand before those of the sequence, in reverse order of the calls, and the elements put at the
end stand after them, in the order of the calls. What lies neither on the path nor below its end is
the very object that it was, and so are the keys of the mappings on the path. -/
theorem addAll_items {source : Value} (route : Route source)
    (hat : source.at? route.keys = some q) (hq : q.isSequence)
    (hpoint : q.kind ≠ .seq (.tuple .point)) (hopen : q.openObstacle? = none)
    (calls : List (Addition × Ident)) :
    ∃ result r, addAll route.path calls source = .ok result ∧ result.at? route.keys = some r ∧
      r.isSequence ∧
      r.items = ((calls.map Prod.fst).filterMap Addition.first?).reverse ++ q.items ++
        (calls.map Prod.fst).filterMap Addition.last? ∧
      (∀ kind ∈ [SeqKind.list, .row, .tuple .plain], q.kind = .seq kind → r.kind = .seq kind) ∧
      (∀ other, source.PartsFrom route.keys other → result.at? other = source.at? other) ∧
      (∀ before k rest, route.keys = before ++ k :: rest →
        ∃ m m', source.at? before = some m ∧ result.at? before = some m' ∧
          m'.entries.keys = m.entries.keys) := by
  have hstart : q.Gathers q.items q := ⟨rfl, hq, hopen, hpoint, fun _ _ hkind => hkind⟩
  obtain ⟨result, r, hrun, hrebuilt, hr, hgathers⟩ :=
    addAll_rebuilds route.keys_eq route.plain route.filled hat hstart calls
  refine ⟨result, r, hrun, hr, hgathers.sequence, ?_, hgathers.kind, ?_, ?_⟩
  · rw [hgathers.items, Addition.foldl_addTo]
  · intro other hparts
    exact hrebuilt.at?_of_partsFrom hparts
  · intro before k rest hkeys
    rw [hkeys] at hrebuilt
    exact hrebuilt.keys

end

attribute [local instance] Host.standard in
/-- Three calls add to a named list in a queue, which is made a list itself. -/
theorem addAll_items_row :
    let q := Value.seq 2 .row [.int 1]
    let other := Value.seq 3 .list []
    let source := Value.map 0 .wrapped
      [(.text "a", .deque 1 [.text "x", q]), (.text "b", other)]
    let route : Route source :=
      { path := .seq 4 .list [.text "a", .int (-1)]
        keys := [.text "a", .int (-1)]
        keys_eq := rfl
        plain := by decide
        filled := rfl }
    source.at? route.keys = some q ∧ q.isSequence ∧ q.kind ≠ .seq (.tuple .point) ∧
      q.openObstacle? = none ∧ ∃ result r,
        addAll route.path [(.last other, 5), (.first (.int 0), 9), (.last .none, 20)] source =
          .ok result ∧
        result.at? route.keys = some r ∧ r.kind = .seq .row ∧
        r.items = [.int 0, .int 1, other, .none] ∧ result.at? [.text "b"] = some other := by
  intro q other source route
  have hat : source.at? route.keys = some q := rfl
  have hpoint : q.kind ≠ .seq (.tuple .point) := by decide
  have hparts : source.PartsFrom route.keys [.text "b"] := .inl (by decide)
  obtain ⟨result, r, hrun, hr, -, hitems, hkind, hother, -⟩ := addAll_items route hat rfl hpoint rfl
    [(.last other, 5), (.first (.int 0), 9), (.last .none, 20)]
  refine ⟨hat, rfl, hpoint, rfl, result, r, hrun, hr, ?_, hitems, ?_⟩
  · exact hkind .row (by decide) rfl
  · exact hother _ hparts

attribute [local instance] Host.standard in
/-- A progression that is too long to be copied cannot be added to. -/
theorem addAll_overflow :
    let q := Value.range 0 ⟨0, 9223372036854775808, 1⟩
    Key.ofValues (Path.keys .none) = .ok [] ∧ q.isFilledAlong [] ∧ q.at? [] = some q ∧
      q.isSequence ∧ q.kind ≠ .seq (.tuple .point) ∧
      addAll .none [(.last (.int 5), 1)] q = .error .sizeTooLarge := by
  intro q
  have hpoint : q.kind ≠ .seq (.tuple .point) := by decide
  exact ⟨rfl, rfl, rfl, rfl, hpoint, rfl⟩

end Amend
