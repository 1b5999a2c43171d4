import Amend.Path
import Amend.Proofs.Paths

/-!
# A tree as a row of leaves

A leaf of a command tree is a mapping that names a command, an empty mapping, or no mapping at all.
Main statement (`run_leaves`): updating by a tree does the same as updating by each of its leaves,
one after another, at the end of the path of keys that leads to it. The two succeed on the same
inputs, and give the same value but for the identities of what they make.
-/

namespace Amend

namespace Value

mutual

/-- The leaves of a command tree in preorder, each with the keys that lead to it. -/
def leaves : Value → List (List Key × Value)
  | .map id kind es =>
    if (Entries.findCommand es).isSome || es.isEmpty then [([], .map id kind es)]
    else entryLeaves es
  | v => [([], v)]
termination_by structural v => v

def entryLeaves : List (Key × Value) → List (List Key × Value)
  | [] => []
  | (k, v) :: es => (leaves v).map (fun l => (k :: l.1, l.2)) ++ entryLeaves es
termination_by structural es => es

end

end Value

/-- Updates by leaves, one after another, each at the end of its path. -/
def runLeaves [Host] (source : Value) : List (List Key × Value) → Update Value
  | [] => pure source
  | (path, leaf) :: rest => do
    let tree ← Path.command (.seq (← Update.fresh) (.tuple .plain) (Key.toValues path)) leaf
    runLeaves (← run source tree) rest

/-- The tree that carries another out at the end of a path. -/
def Node.along (path : List Key) (n : Node) : Node := path.foldr (fun k n => .enter [(k, n)]) n

/-- A key that names no command. -/
def Key.IsPlain (k : Key) : Prop := ∀ c : Command, ¬ k.Same c.key

instance (k : Key) : Decidable k.IsPlain :=
  decidable_of_iff (∀ c ∈ Command.all, ¬ k.Same c.key)
    ⟨fun h c => h c c.mem_all, fun h c _ => h c⟩

namespace Node
variable {id : Ident} {kind : MapKind} {es : List (Key × Value)} {c : Command} {operand : Value}

theorem ofToken_eq (c : Command) (es : List (Key × Value)) :
    ofToken c es = (Entries.find? c.key es).map (ofOperand c) := by
  induction es with
  | nil => rfl
  | cons e es ih =>
    obtain ⟨k, v⟩ := e
    simp only [ofToken, Entries.find?, ih]
    split <;> rfl

theorem findSome?_ofToken (es : List (Key × Value)) :
    (Command.all.findSome? fun c => ofToken c es) =
      (Entries.findCommand es).map fun found => ofOperand found.1 found.2 := by
  rw [Entries.findCommand, List.map_findSome?]
  congr 1
  funext c
  simp only [ofToken_eq, Function.comp_apply, Option.map_map]
  rfl

theorem ofValue_map_of_some (h : Entries.findCommand es = some (c, operand)) :
    ofValue (.map id kind es) = ofOperand c operand := by
  rw [ofValue, findSome?_ofToken, h]
  rfl

theorem ofValue_map_of_none (h : Entries.findCommand es = none) :
    ofValue (.map id kind es) = .enter (ofEntries es) := by
  rw [ofValue, findSome?_ofToken, h]
  rfl

theorem ofEntries_eq_map (es : Entries Value) :
    ofEntries es = es.map fun e => (e.1, ofValue e.2) := by
  induction es with
  | nil => rfl
  | cons e es ih => rw [ofEntries, ih]; rfl

theorem pairwise_ofEntries (h : Entries.Distinct es) :
    (ofEntries es).Pairwise fun a b => ¬ a.1.Same b.1 := by
  rw [ofEntries_eq_map, List.pairwise_map]
  exact h

theorem mem_ofEntries {e : Key × Value} (h : e ∈ es) : (e.1, ofValue e.2) ∈ ofEntries es := by
  rw [ofEntries_eq_map]
  exact List.mem_map_of_mem h

theorem command?_ofOperand (c : Command) (v : Value) : (ofOperand c v).command? = some c := by
  cases c <;> cases v <;> rfl

theorem paths_ofOperand (c : Command) (operand : Value) :
    (ofOperand c operand).paths = [ofOperand c operand] := by
  cases c <;> cases operand <;> rfl

mutual

theorem paths_ofValue : ∀ v : Value,
    (ofValue v).paths = v.leaves.map fun l => (ofValue l.2).along l.1
  | .map id kind [] => rfl
  | .map id kind ((k, v) :: es) => by
    rcases h : Entries.findCommand ((k, v) :: es) with - | ⟨c, operand⟩
    · rw [ofValue_map_of_none h, Value.leaves, h]
      exact paths_ofEntries ((k, v) :: es)
    · rw [Value.leaves, h]
      change _ = [ofValue (.map id kind ((k, v) :: es))]
      rw [ofValue_map_of_some h, paths_ofOperand]
  | .none | .bool _ | .int _ | .float _ | .text _ | .bytes .. | .buffer .. | .range .. | .set ..
  | .frozenSet .. | .deque .. | .factory .. | .runner .. | .seq .. => rfl

theorem paths_ofEntries : ∀ es : List (Key × Value),
    (childPaths (ofEntries es)).map (fun e => .enter [e]) =
      (Value.entryLeaves es).map fun l => (ofValue l.2).along l.1
  | [] => rfl
  | (k, v) :: es => by
    rw [ofEntries, childPaths, Value.entryLeaves, List.map_append, List.map_append,
      paths_ofEntries es, paths_ofValue v]
    simp only [List.map_map]
    rfl

end

end Node

namespace Entries
variable {α : Type} {es : Entries α} {k : Key}

theorem not_same_of_find? (h : es.find? k = none) : ∀ e ∈ es, ¬ e.1.Same k := by
  induction es with
  | nil => exact fun e he => nomatch he
  | cons e es ih =>
    obtain ⟨l, a⟩ := e
    by_cases hl : l.Same k
    · simp [find?, hl] at h
    · exact List.forall_mem_cons.2 ⟨hl, ih (by simpa [find?, hl] using h)⟩

theorem find?_of_findCommand {c : Command} {a : α} (h : es.findCommand = some (c, a)) :
    es.find? c.key = some a := by
  obtain ⟨d, -, hd⟩ := List.exists_of_findSome?_eq_some h
  obtain ⟨b, hb, heq⟩ := Option.map_eq_some_iff.1 hd
  cases heq
  exact hb

theorem isPlain_of_findCommand (h : es.findCommand = none) : ∀ e ∈ es, e.1.IsPlain := by
  intro e he c
  have hc := List.findSome?_eq_none_iff.1 h c c.mem_all
  exact not_same_of_find? (Option.map_eq_none_iff.1 hc) e he

theorem findCommand_of_isPlain (h : ∀ e ∈ es, e.1.IsPlain) : es.findCommand = none := by
  refine List.findSome?_eq_none_iff.2 fun c _ => ?_
  rcases hfind : es.find? c.key with - | a
  · rfl
  · obtain ⟨e, he, hsame, -⟩ := same_of_find? hfind
    exact absurd hsame (h e he c)

theorem findCommand_singleton {a : α} (h : k.IsPlain) : findCommand [(k, a)] = none :=
  findCommand_of_isPlain (List.forall_mem_singleton.2 h)

end Entries

namespace Value

mutual

theorem isPlain_of_leaves : ∀ (v : Value), ∀ l ∈ v.leaves, ∀ k ∈ l.1, k.IsPlain
  | .map id kind es, l, hl => by
    rw [leaves] at hl
    split at hl
    · obtain rfl := List.mem_singleton.1 hl
      exact fun k hk => nomatch hk
    · next hes =>
      simp only [Bool.or_eq_true, not_or, Option.not_isSome_iff_eq_none] at hes
      exact isPlain_of_entryLeaves es (Entries.isPlain_of_findCommand hes.1) l hl
  | .none, _, hl | .bool _, _, hl | .int _, _, hl | .float _, _, hl | .text _, _, hl
  | .bytes .., _, hl | .buffer .., _, hl | .range .., _, hl | .set .., _, hl
  | .frozenSet .., _, hl | .deque .., _, hl | .factory .., _, hl | .runner .., _, hl
  | .seq .., _, hl => by
    obtain rfl := List.mem_singleton.1 hl
    exact fun k hk => nomatch hk

theorem isPlain_of_entryLeaves : ∀ (es : List (Key × Value)), (∀ e ∈ es, e.1.IsPlain) →
    ∀ l ∈ entryLeaves es, ∀ k ∈ l.1, k.IsPlain
  | [], _, _, hl => nomatch hl
  | (k, v) :: es, hes, l, hl => by
    obtain ⟨hk, hes⟩ := List.forall_mem_cons.1 hes
    rw [entryLeaves, List.mem_append, List.mem_map] at hl
    rcases hl with ⟨l', hl', rfl⟩ | hl
    · exact List.forall_mem_cons.2 ⟨hk, isPlain_of_leaves v l' hl'⟩
    · exact isPlain_of_entryLeaves es hes l hl

end

end Value

open Update

/-- Nesting a tree under keys that name no command gives the tree along those keys. -/
theorem Path.nest_comesTo (leaf : Value) : ∀ path : List Key, (∀ k ∈ path, k.IsPlain) →
    (nest (Key.toValues path) leaf).ComesTo Node.ofValue
      (some ((Node.ofValue leaf).along path))
  | [], _ => .pure rfl
  | k :: path, h => by
    obtain ⟨hk, hpath⟩ := List.forall_mem_cons.1 h
    rw [Key.toValues, nest, Key.ofValue_toValue]
    refine .bind (k := fun n : Node => some (Node.enter [(k, n)]))
      (nest_comesTo leaf path hpath) fun w => ?_
    change (Update.fresh >>= fun id => pure (Value.map id .plain [(k, w)])).ComesTo _ _
    refine .bind_unit .fresh fun id => .pure ?_
    exact Node.ofValue_map_of_none (Entries.findCommand_singleton hk)

namespace Node
variable {P : Action → Prop} {n : Node}

theorem every_along (path : List Key) (h : n.Every P) : (n.along path).Every P := by
  induction path with
  | nil => exact h
  | cons k path ih => exact ⟨ih, trivial⟩

theorem every_singleton (v : Value) (path : List Key) :
    (ofValue v).Every P ↔ ∀ l ∈ [(path, v)], (ofValue l.2).Every P := by
  constructor
  · intro h l hl
    obtain rfl := List.mem_singleton.1 hl
    exact h
  · exact fun h => h _ (List.mem_singleton_self _)

mutual

/-- The actions of a tree are those of its leaves. -/
theorem every_iff_leaves : ∀ v : Value,
    (ofValue v).Every P ↔ ∀ l ∈ v.leaves, (ofValue l.2).Every P
  | .map id kind es => by
    rw [Value.leaves]
    split
    · exact every_singleton _ []
    · next hes =>
      simp only [Bool.or_eq_true, not_or, Option.not_isSome_iff_eq_none] at hes
      rw [ofValue_map_of_none hes.1]
      exact everyBelow_iff_leaves es
  | .none | .bool _ | .int _ | .float _ | .text _ | .bytes .. | .buffer .. | .range .. | .set ..
  | .frozenSet .. | .deque .. | .factory .. | .runner .. | .seq .. => every_singleton _ []

theorem everyBelow_iff_leaves : ∀ es : List (Key × Value),
    EveryBelow P (ofEntries es) ↔ ∀ l ∈ Value.entryLeaves es, (ofValue l.2).Every P
  | [] => ⟨fun _ _ hl => absurd hl List.not_mem_nil, fun _ => trivial⟩
  | (k, v) :: es => by
    rw [ofEntries, EveryBelow, Value.entryLeaves, List.forall_mem_append, every_iff_leaves v,
      everyBelow_iff_leaves es, List.forall_mem_map]

end

end Node

section
variable [Host]

theorem run_comesTo {commands : Value} (h : (Node.ofValue commands).IsPure) (source : Value) :
    (run source commands).ComesTo Value.shape ((Node.ofValue commands).eval source.shape) :=
  .bind_unit (Node.announce_comesTo _ _) fun _ => Node.perform_comesTo _ h source

theorem runLeaves_comesTo {leaves : List (List Key × Value)}
    (h : ∀ l ∈ leaves, ∀ k ∈ l.1, k.IsPlain) (hpure : ∀ l ∈ leaves, (Node.ofValue l.2).IsPure)
    (source : Value) :
    (runLeaves source leaves).ComesTo Value.shape
      (Node.evalEach (leaves.map fun l => (Node.ofValue l.2).along l.1) source.shape) := by
  induction leaves generalizing source with
  | nil => exact .pure rfl
  | cons l leaves ih =>
    obtain ⟨path, leaf⟩ := l
    obtain ⟨hpath, hleaves⟩ := List.forall_mem_cons.1 h
    obtain ⟨hleaf, hrest⟩ := List.forall_mem_cons.1 hpure
    rw [runLeaves]
    refine .bind_unit .fresh fun id => ?_
    have htree := Path.nest_comesTo leaf path hpath
    refine .bind_of_ok (k := fun n : Node => (n.eval source.shape).bind (Node.evalEach _)) htree
      fun {tree _ _} hok => ?_
    have hnode := Option.some.inj (htree.of_ok (congrArg Prod.fst hok))
    have htreePure : (Node.ofValue tree).IsPure := hnode ▸ Node.every_along path hleaf
    exact .bind (run_comesTo htreePure source) fun r => ih hleaves hrest r

/-- Updating by a tree does the same as updating by its leaves one after another. Two updates are
compared, so what the tree calls has to make the same of a value in both: it is pure. -/
theorem run_leaves {commands : Value} (hpure : (Node.ofValue commands).IsPure) (source : Value)
    (next next' : Ident) :
    let whole := ((run source commands).exec next).1
    let stepwise := ((runLeaves source commands.leaves).exec next').1
    ((∃ r, whole = .ok r) ↔ ∃ r, stepwise = .ok r) ∧
      ∀ r r', whole = .ok r → stepwise = .ok r' → r.shape = r'.shape := by
  have hstep := runLeaves_comesTo (Value.isPlain_of_leaves commands)
    ((Node.every_iff_leaves commands).1 hpure) source
  rw [← Node.paths_ofValue, Node.evalEach_paths] at hstep
  exact (run_comesTo hpure source).agree hstep ⟨next, []⟩ ⟨next', []⟩

end

attribute [local instance] Host.standard in
/-- Two positions of one node address the same item: the second leaf finds what the first wrote. -/
theorem run_leaves_same_item :
    let source := Value.seq 0 .list [.int 5]
    let commands := Value.map 1 .plain [
      (.int 0, .map 2 .plain [(.text "set", .seq 3 .list [])]),
      (.int (-1), .map 4 .plain [(.text "push", .int 7)])]
    ∃ r r', ((run source commands).exec 5).1 = .ok r ∧
      ((runLeaves source commands.leaves).exec 5).1 = .ok r' ∧ r.shape = r'.shape := by
  intro source commands
  have hrun : ∃ r, ((run source commands).exec 5).1 = .ok r := ⟨_, rfl⟩
  have hpure := (Node.ofValue commands).isPure_standard
  obtain ⟨r', hr'⟩ := (run_leaves hpure source 5 5).1.1 hrun
  obtain ⟨r, hr⟩ := hrun
  exact ⟨r, r', hr, hr', (run_leaves hpure source 5 5).2 r r' hr hr'⟩

end Amend
