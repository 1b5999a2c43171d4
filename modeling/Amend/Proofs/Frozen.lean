import Amend.Standard
import Amend.Proofs.Actions
import Amend.Proofs.Descent

/-!
# Frozen values

A value is frozen when all its mappings are read-only and all its sequences plain fixed ones.
Updating a frozen value with frozen operands does not always give a frozen value: a container that
is made in place of nothing, or of a scalar that counts as false, is a plain mapping, and a queue or
progression becomes a list. `Node.KeepsSealed` says that none of this happens. Main statement
(`isFrozen_run_iff`): the result is frozen if none of it happens, and only then where no two keys
of one node address the same child.
-/

namespace Amend

namespace Value

/-- Whether a value is itself a container of a frozen kind. -/
def isSealed : Value → Bool
  | .seq _ (.tuple .plain) _ | .map _ .readOnly _ => true
  | _ => false

mutual

/-- Whether every list, fixed sequence and mapping in a value is of a frozen kind. -/
def isFrozen : Value → Bool
  | .seq _ kind xs => kind = .tuple .plain && allFrozen xs
  | .map _ kind es => kind = .readOnly && entriesFrozen es
  | _ => true
termination_by structural v => v

def allFrozen : List Value → Bool
  | [] => true
  | v :: vs => isFrozen v && allFrozen vs
termination_by structural vs => vs

def entriesFrozen : List (Key × Value) → Bool
  | [] => true
  | (_, v) :: es => isFrozen v && entriesFrozen es
termination_by structural es => es

end

theorem allFrozen_iff {xs : List Value} : allFrozen xs ↔ ∀ x ∈ xs, x.isFrozen := by
  induction xs with
  | nil => simp [allFrozen]
  | cons x xs ih => simp [allFrozen, ih]

theorem entriesFrozen_iff {es : List (Key × Value)} :
    entriesFrozen es ↔ ∀ e ∈ es, e.2.isFrozen := by
  induction es with
  | nil => simp [entriesFrozen]
  | cons e es ih => simp [entriesFrozen, ih]

theorem isFrozen_seq {id : Ident} {kind : SeqKind} {xs : List Value} :
    (Value.seq id kind xs).isFrozen ↔ kind = .tuple .plain ∧ ∀ x ∈ xs, x.isFrozen := by
  rw [isFrozen, Bool.and_eq_true, decide_eq_true_iff, allFrozen_iff]

theorem isFrozen_map {id : Ident} {kind : MapKind} {es : Entries Value} :
    (Value.map id kind es).isFrozen ↔ kind = .readOnly ∧ ∀ e ∈ es, e.2.isFrozen := by
  rw [isFrozen, Bool.and_eq_true, decide_eq_true_iff, entriesFrozen_iff]

end Value

/-- Whether the operand of an action is frozen; merged and filled in are mappings with frozen
values. -/
def Action.frozenOperand : Action → Bool
  | .set operand | .push operand | .unshift operand => operand.isFrozen
  | .merge (.map _ _ es) | .defaults (.map _ _ es) => Value.entriesFrozen es
  | _ => false

namespace Node

mutual

/-- Whether all operands of a tree are frozen and none of its commands calls a function. -/
def frozenOperands : Node → Bool
  | .act a => a.frozenOperand
  | .rerun _ => false
  | .enter children => allFrozenOperands children
  | .misplaced _ => true
termination_by structural n => n

def allFrozenOperands : List (Key × Node) → Bool
  | [] => true
  | (_, n) :: rest => n.frozenOperands && allFrozenOperands rest
termination_by structural ns => ns

end

variable [Host]

mutual

/-- Carrying a tree out on a value copies containers of a frozen kind alone. What is no container
is left alone by a node without keys, below the top only if it counts as true. -/
def KeepsSealed (top : Bool) : Node → Value → Prop
  | .act a, v => (Node.act a).copies → v.isSealed
  | .rerun _, _ | .misplaced _, _ => True
  | .enter children, v =>
    if v.isContainer then v.isSealed ∧ KeepsAllSealed children v.level
    else children = [] ∧ (top ∨ v.truthy)
termination_by structural n => n

/-- The same for children, each on what the ones before it have left. -/
def KeepsAllSealed : List (Key × Node) → Scratch → Prop
  | [], _ => True
  | (key, n) :: rest, s =>
    KeepsSealed false n ((s.child? key).getD .none) ∧
      ∀ s' t t', carry key n s t = (.ok s', t') → KeepsAllSealed rest s'
termination_by structural ns => ns

end

end Node

namespace Scratch
variable {s : Scratch} {v r : Value} {t t' : Trace}

theorem level_all (hv : v.isFrozen) (hsealed : v.isSealed) : v.level.All (·.isFrozen) := by
  cases v with
  | seq id kind xs => exact (Value.isFrozen_seq.1 hv).2
  | map id kind es => exact (Value.isFrozen_map.1 hv).2
  | _ => cases hsealed

theorem all_of_rebuild (hr : r.isFrozen) (h : s.rebuild v t = (.ok r, t')) :
    s.All (·.isFrozen) := by
  cases s with
  | items kind xs =>
    obtain ⟨rfl, -⟩ := rebuild_items_eq_ok h
    exact (Value.isFrozen_seq.1 hr).2
  | entries kind es =>
    obtain ⟨rfl, -⟩ := rebuild_entries_eq_ok h
    exact (Value.isFrozen_map.1 hr).2

end Scratch

namespace Value
variable {v : Value}

theorem isContainer_of_isSealed (h : v.isSealed) : v.isContainer := by
  cases v <;> first | rfl | cases h

theorem isSealed_of_seqKindOf {kind : SeqKind} (hkind : kind ≠ .tuple .plain)
    (htri : v.kind ≠ .seq (.tuple .tri)) (h : v.seqKindOf kind = .tuple .plain) : v.isSealed := by
  cases v with
  | seq id k xs =>
    rcases k with - | - | (- | - | -)
    case tuple.plain => rfl
    case tuple.tri => exact absurd rfl htri
    case tuple.point => cases h
    all_goals exact absurd h hkind
  | _ => exact absurd h hkind

theorem isSealed_of_mapKindOf {kind : MapKind} (hkind : kind ≠ .readOnly)
    (h : v.mapKindOf kind = .readOnly) : v.isSealed := by
  cases v with
  | map id k es =>
    cases k
    case readOnly => rfl
    all_goals exact absurd h hkind
  | _ => exact absurd h hkind

theorem seqKindOf_of_isSealed {kind kind' : SeqKind} {xs : List Value} (h : v.isSealed)
    (hlevel : v.level = .items kind' xs) : v.seqKindOf kind = .tuple .plain := by
  cases v with
  | seq id k ys => rcases k with - | - | (- | - | -) <;> first | rfl | cases h
  | map => cases hlevel
  | _ => cases h

theorem mapKindOf_of_isSealed {kind kind' : MapKind} {es : Entries Value} (h : v.isSealed)
    (hlevel : v.level = .entries kind' es) : v.mapKindOf kind = .readOnly := by
  cases v with
  | seq => cases hlevel
  | map id k es' => cases k <;> first | rfl | cases h
  | _ => cases h

theorem kind_ne_of_isFrozen {kind : SeqKind} (h : v.isFrozen) (hkind : kind ≠ .tuple .plain) :
    v.kind ≠ .seq kind := by
  cases v with
  | seq id k xs =>
    obtain ⟨rfl, -⟩ := isFrozen_seq.1 h
    exact fun h' => hkind (Kind.seq.inj h').symm
  | _ => exact fun h' => nomatch h'

theorem editKind_of_isFrozen (h : v.isFrozen) : v.editKind = v.level.kind :=
  if_neg (kind_ne_of_isFrozen h (by decide))

theorem overwrites_of_isSealed [Host] (h : v.isSealed) : v.Overwrites := by
  intro hkind
  cases v <;> cases hkind
  cases h

theorem editable_ne_readOnly (kind : MapKind) : kind.editable ≠ .readOnly := by
  cases kind <;> decide

end Value

namespace Scratch
variable {s : Scratch} {v r : Value} {t t' : Trace}

theorem isSealed_of_rebuild (htri : v.kind ≠ .seq (.tuple .tri)) (hs : s.kind = v.level.kind)
    (h : s.rebuild v t = (.ok r, t')) (hr : r.isFrozen) : v.isSealed := by
  cases s with
  | items kind xs =>
    obtain ⟨rfl, -⟩ := rebuild_items_eq_ok h
    refine Value.isSealed_of_seqKindOf ?_ htri (Value.isFrozen_seq.1 hr).1
    cases v <;> cases hs <;> exact fun h' => nomatch h'
  | entries kind es =>
    obtain ⟨rfl, -⟩ := rebuild_entries_eq_ok h
    refine Value.isSealed_of_mapKindOf ?_ (Value.isFrozen_map.1 hr).1
    cases v <;> cases hs <;> first | exact Value.editable_ne_readOnly _ | exact fun h' => nomatch h'

theorem isFrozen_rebuild (hv : v.isSealed) (hs : s.kind = v.level.kind) (hall : s.All (·.isFrozen))
    (h : s.rebuild v t = (.ok r, t')) : r.isFrozen := by
  cases s with
  | items kind xs =>
    obtain ⟨rfl, -⟩ := rebuild_items_eq_ok h
    refine Value.isFrozen_seq.2 ⟨?_, hall⟩
    rcases hlevel : v.level with ⟨kind', ys⟩ | ⟨kind', es⟩ <;> rw [hlevel] at hs <;> cases hs
    exact Value.seqKindOf_of_isSealed hv hlevel
  | entries kind es =>
    obtain ⟨rfl, -⟩ := rebuild_entries_eq_ok h
    refine Value.isFrozen_map.2 ⟨?_, hall⟩
    rcases hlevel : v.level with ⟨kind', ys⟩ | ⟨kind', es⟩ <;> rw [hlevel] at hs <;> cases hs
    exact Value.mapKindOf_of_isSealed hv hlevel

end Scratch

namespace Action
variable [Host] {a : Action} {operand old r : Value} {t t' : Trace}

theorem writes_of_frozenOperand (hop : a.frozenOperand) : a.Writes (·.isFrozen) := by
  cases a with
  | set | call | refuse => trivial
  | push operand | unshift operand => exact hop
  | merge operand =>
    cases operand with
    | map id kind es =>
      intro ordered new hnew
      cases hnew
      exact Value.entriesFrozen_iff.1 hop
    | _ => cases hop
  | defaults operand =>
    cases operand with
    | map id kind es => exact Value.entriesFrozen_iff.1 hop
    | _ => cases hop

theorem isFrozen_perform (hop : a.frozenOperand) (hold : old.isFrozen)
    (hsealed : (Node.act a).copies → old.isSealed) (h : a.perform old t = (.ok r, t')) :
    r.isFrozen := by
  by_cases hcopies : (Node.act a).copies
  · obtain ⟨s, t₁, -, hreb, hs, hall⟩ := copies_eq_ok hcopies h
    have hold' := Value.overwrites_of_isSealed (hsealed hcopies)
    exact Scratch.isFrozen_rebuild (hsealed hcopies) (hs.trans (Value.editKind_of_isFrozen hold))
      (hall hold' _ (writes_of_frozenOperand hop) (Scratch.level_all hold (hsealed hcopies))) hreb
  · cases a with
    | set operand =>
      obtain ⟨rfl, -⟩ := Update.pure_eq_ok.1 h
      exact hop
    | call | refuse => cases hop
    | _ => exact absurd rfl hcopies

theorem isSealed_of_perform (hold : old.isFrozen) (hcopies : (Node.act a).copies)
    (h : a.perform old t = (.ok r, t')) (hr : r.isFrozen) : old.isSealed := by
  obtain ⟨s, t₁, -, hreb, hs, -⟩ := copies_eq_ok hcopies h
  exact Scratch.isSealed_of_rebuild (Value.kind_ne_of_isFrozen hold (by decide))
    (hs.trans (Value.editKind_of_isFrozen hold)) hreb hr

end Action

namespace Node
open Update
variable {top : Bool} {v c w r : Value} {s s' : Scratch} {t t' : Trace}

/-- Below the top, what a node is carried out on is the child itself, or else the node enters a new
mapping in place of nothing. -/
theorem input_cases {n : Node} (h : n.input c t = (.ok w, t')) :
    (w = c ∧ (n.command?.isSome ∨ c.isContainer ∨ c.truthy)) ∨
      (n.command? = none ∧ c.isContainer = false ∧ c.truthy = false ∧
        ∃ id, w = .map id .plain []) := by
  have hin := (input_eq_ok (k := .none) h).1
  unfold Input at hin
  split at hin
  · next hc =>
    simp only [reduceCtorEq, false_or] at hc
    exact .inl ⟨hin, hc⟩
  · next hc =>
    simp only [reduceCtorEq, false_or, not_or, Bool.not_eq_true, Option.isSome_eq_false_iff,
      Option.isNone_iff_eq_none] at hc
    exact .inr ⟨hc.1, hc.2.1, hc.2.2, hin⟩

variable [Host]

theorem isFrozen_enter {children : List (Key × Node)}
    (hall : ∀ s t s' t', s.All (·.isFrozen) → KeepsAllSealed children s →
      performAll children s t = (.ok s', t') → s'.All (·.isFrozen))
    (hv : v.isFrozen) (hkeep : KeepsSealed top (.enter children) v)
    (h : (Node.enter children).perform v t = (.ok r, t')) : r.isFrozen := by
  simp only [KeepsSealed] at hkeep
  rcases perform_enter_eq_ok h with ⟨-, -, rfl⟩ | ⟨s, t₁, hcont, -, hperf, hreb⟩
  · exact hv
  · split at hkeep
    · obtain ⟨hsealed, hkeep⟩ := hkeep
      exact Scratch.isFrozen_rebuild hsealed (kind_performAll hperf)
        (hall _ _ _ _ (Scratch.level_all hv hsealed) hkeep hperf) hreb
    · next hnot => exact absurd (hcont hkeep.1) hnot

mutual

theorem isFrozen_perform : ∀ (n : Node) {top : Bool} {v r : Value} {t t' : Trace},
    n.frozenOperands → v.isFrozen → n.KeepsSealed top v → n.perform v t = (.ok r, t') →
      r.isFrozen
  | .act _, _, _, _, _, _, hop, hv, hkeep, h => Action.isFrozen_perform hop hv hkeep h
  | .rerun _, _, _, _, _, _, hop, _, _, _ => nomatch hop
  | .misplaced _, _, _, _, _, _, _, _, _, h => absurd h throw_eq_ok.1
  | .enter children, _, _, _, _, _, hop, hv, hkeep, h =>
    isFrozen_enter (fun _ _ _ _ => all_performAll children hop) hv hkeep h

theorem all_performAll : ∀ (ns : List (Key × Node)) {s s' : Scratch} {t t' : Trace},
    allFrozenOperands ns → s.All (·.isFrozen) → KeepsAllSealed ns s →
      performAll ns s t = (.ok s', t') → s'.All (·.isFrozen)
  | [], _, _, _, _, _, hs, _, h => by
    obtain ⟨rfl, -⟩ := pure_eq_ok.1 h
    exact hs
  | (key, n) :: rest, s, s', t, t', hop, hs, hkeep, h => by
    obtain ⟨hn, hrest⟩ := Bool.and_eq_true_iff.1 hop
    obtain ⟨hchild, hlater⟩ := hkeep
    rw [performAll_cons, bind_eq_ok] at h
    obtain ⟨s₁, t₁, h₁, h⟩ := h
    obtain ⟨c, w, r, t₂, t₃, hc, -, hin, hperf, hassign⟩ := carry_eq_ok h₁
    rw [← Scratch.child_eq_ok hc] at hchild
    have hcfrozen : c.isFrozen := by
      rw [Scratch.child_eq_ok hc]
      exact hs.child?_getD rfl
    have hr : r.isFrozen := by
      rcases input_cases hin with ⟨rfl, -⟩ | ⟨hcommand, hcont, htruthy, id, rfl⟩
      · exact isFrozen_perform n hn hcfrozen hchild hperf
      -- a node that enters nothing is ruled out
      · cases n with
        | enter children => simp [KeepsSealed, hcont, htruthy] at hchild
        | misplaced kind => exact absurd hperf throw_eq_ok.1
        | _ => cases hcommand
    exact all_performAll rest hrest (hs.assign hr hassign) (hlater _ _ _ h₁) h

end

theorem keepsAllSealed {ns : List (Key × Node)}
    (hapart : ns.Pairwise fun a b => ¬ s.SameChild a.1 b.1)
    (h : ∀ e ∈ ns, e.2.KeepsSealed false ((s.child? e.1).getD .none)) : KeepsAllSealed ns s := by
  induction ns generalizing s with
  | nil => trivial
  | cons e ns ih =>
    obtain ⟨hhead, htail⟩ := List.pairwise_cons.1 hapart
    obtain ⟨hfirst, hrest⟩ := List.forall_mem_cons.1 h
    refine ⟨hfirst, fun s' t t' hcarry => ?_⟩
    obtain ⟨c, w, r, -, -, -, -, -, -, hs⟩ := carry_eq_ok hcarry
    refine ih (htail.imp fun hab hsame => hab ((Scratch.sameChild_assign hs).1 hsame)) ?_
    intro e' he'
    rw [Scratch.child?_assign_of_not_same hs fun hsame => hhead e' he' hsame.symm]
    exact hrest e' he'

theorem isSealed_of_enter {children : List (Key × Node)} (htri : v.kind ≠ .seq (.tuple .tri))
    (hcont : children = [] → v.isContainer) (h : (Node.enter children).perform v t = (.ok r, t'))
    (hr : r.isFrozen) : v.isSealed := by
  rcases perform_enter_eq_ok h with ⟨hnil, hnot, -⟩ | ⟨s, t₁, -, -, hperf, hreb⟩
  · rw [hcont hnil] at hnot
    cases hnot
  · exact Scratch.isSealed_of_rebuild htri (kind_performAll hperf) hreb hr

mutual

theorem keepsSealed_of_isFrozen : ∀ (n : Node) {top : Bool} {v r : Value} {t t' : Trace},
    v.isFrozen → n.Apart v → (top ∨ n.command?.isSome ∨ v.isContainer ∨ v.truthy) →
      n.perform v t = (.ok r, t') → r.isFrozen → n.KeepsSealed top v
  | .act _, _, _, _, _, _, hv, _, _, h, hr => fun hcopies =>
    Action.isSealed_of_perform hv hcopies h hr
  | .rerun _, _, _, _, _, _, _, _, _, _, _ => trivial
  | .misplaced _, _, _, _, _, _, _, _, _, _, _ => trivial
  | .enter children, top, v, r, t, t', hv, hapart, htop, h, hr => by
    rw [KeepsSealed]
    rcases perform_enter_eq_ok h with ⟨hnil, hcont, -⟩ | ⟨s, t₁, hcont, -, hperf, hreb⟩
    · rw [if_neg (by simp [hcont])]
      simpa [hnil, hcont, command?] using htop
    · have htri : v.kind ≠ .seq (.tuple .tri) := Value.kind_ne_of_isFrozen hv (by decide)
      have hsealed := isSealed_of_enter htri hcont h hr
      have hs := Scratch.all_of_rebuild hr hreb
      have hpair := hapart [] children (.here _ _)
      rw [if_pos (Value.isContainer_of_isSealed hsealed)]
      refine ⟨hsealed, keepsAllSealed hpair ?_⟩
      refine keepsSealed_children children (c := fun k => (v.level.child? k).getD .none) ?_
      intro e he
      have hsame := sameChild_of_performAll hperf he
      obtain ⟨w, r', t₂, t₃, t₄, -, hin, hw, hat⟩ := performAll_at hperf hpair he hsame
      exact ⟨(Scratch.level_all hv hsealed).child?_getD rfl, hapart.child he hsame, w, r', t₂, t₃,
        t₄, hin, hw, hs.child? hat⟩

theorem keepsSealed_children : ∀ (ns : List (Key × Node)) {c : Key → Value},
    (∀ e ∈ ns, (c e.1).isFrozen ∧ e.2.Apart (c e.1) ∧ ∃ w r t t₁ t₂,
      e.2.input (c e.1) t = (.ok w, t₁) ∧ e.2.perform w t₁ = (.ok r, t₂) ∧ r.isFrozen) →
      ∀ e ∈ ns, e.2.KeepsSealed false (c e.1)
  | [], _, _, _, he => nomatch he
  | (key, n) :: rest, c, h, e, he => by
    rcases List.mem_cons.1 he with rfl | he
    · obtain ⟨hc, hapart, w, r, t, t₁, t₂, hin, hw, hr⟩ := h _ (List.mem_cons_self ..)
      rcases input_cases hin with ⟨rfl, htaken⟩ | ⟨hcommand, -, -, id, rfl⟩
      · exact keepsSealed_of_isFrozen n hc hapart (.inr htaken) hw hr
      -- what enters a new mapping makes a plain one
      · cases n with
        | enter children =>
          have htri : (Value.map id .plain []).kind ≠ .seq (.tuple .tri) := fun h' => nomatch h'
          cases isSealed_of_enter htri (fun _ => rfl) hw hr
        | misplaced kind => exact absurd hw throw_eq_ok.1
        | _ => cases hcommand
    · exact keepsSealed_children rest (fun e he => h e (List.mem_cons_of_mem _ he)) e he

end

end Node

/-- A frozen value stays frozen if an update copies containers of a frozen kind alone; where no two
keys of one node address the same child, it stays frozen only then. -/
theorem isFrozen_run_iff [Host] {source commands result : Value} {next : Ident} {trace : Trace}
    (hsource : source.isFrozen) (hops : (Node.ofValue commands).frozenOperands)
    (hrun : (run source commands).exec next = (.ok result, trace)) :
    ((Node.ofValue commands).KeepsSealed true source → result.isFrozen) ∧
      ((Node.ofValue commands).Apart source →
        (result.isFrozen ↔ (Node.ofValue commands).KeepsSealed true source)) := by
  obtain ⟨t, -, hperf⟩ := Node.run_eq_ok hrun
  have hfrozen (hkeep : (Node.ofValue commands).KeepsSealed true source) : result.isFrozen :=
    Node.isFrozen_perform _ hops hsource hkeep hperf
  refine ⟨hfrozen, fun hapart => ⟨fun hr => ?_, hfrozen⟩⟩
  exact Node.keepsSealed_of_isFrozen _ hsource hapart (.inl rfl) hperf hr

attribute [local instance] Host.standard in
/-- A value written below a key that is not there gets a plain mapping around it. -/
theorem isFrozen_run_created :
    let source := Value.map 0 .readOnly []
    let commands := Value.map 1 .plain [(.text "a", .map 2 .plain [(.text "b",
      .map 3 .plain [(.text "set", .int 1)])])]
    source.isFrozen ∧ (Node.ofValue commands).frozenOperands ∧
      ∃ result trace, (run source commands).exec 4 = (.ok result, trace) ∧
        result.isFrozen = false := by
  intro source commands
  have hrun : ∃ result trace, (run source commands).exec 4 = (.ok result, trace) := ⟨_, _, rfl⟩
  obtain ⟨result, trace, hrun⟩ := hrun
  have hapart : (Node.ofValue commands).Apart source := .singleton (.singleton (.act _ _))
  refine ⟨rfl, rfl, result, trace, hrun, Bool.eq_false_iff.2 fun hr => ?_⟩
  have hkeep := ((isFrozen_run_iff rfl rfl hrun).2 hapart).1 hr
  -- what is to be entered at the key is nothing, and the node there has a key
  exact absurd hkeep.2.1.1 (List.cons_ne_nil _ _)

end Amend
