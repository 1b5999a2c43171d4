import Amend.Standard
import Amend.Proofs.Alike
import Amend.Proofs.Points
import Amend.Proofs.Settled

/-!
# Updates of frozen values

A value beside a frozen copy of it, in two runs of one command tree. Each step of a run keeps values
alike (`Action.perform_sim`, `Node.perform_sim`). Main statement (`run_freeze`): the two runs
succeed together, with results that come to the same when they are thawed and have the same JSON
text, or fail together for like reasons (`Fault.Alike`). The functions that a tree calls have to
respect the relation, and the updates of derived classes to overwrite. On the standard host all
functions but one do (`Factory.apply_sim`), which can be read off a tree
(`Node.respects_of_isNeutral`).
-/

namespace Amend

open Update

namespace Node

mutual

/-- What a tree merges, also where it runs another tree. -/
def merges : Node → List Value
  | .act (.merge operand) => [operand]
  | .act _ => []
  | .rerun tree => tree.merges
  | .enter children => mergesBelow children
  | .misplaced _ => []
termination_by structural n => n

def mergesBelow : List (Key × Node) → List Value
  | [] => []
  | (_, n) :: rest => n.merges ++ mergesBelow rest
termination_by structural ns => ns

end

theorem input_sim [Machine] {merged : List Value} {v w : Value} (h : v.Alike w) (n : Node) :
    Sim merged Value.Alike (n.input v) (n.input w) := by
  unfold input
  rw [h.isContainer_eq, h.truthy_eq]
  split
  · exact .pure h
  · exact Sim.fresh.bind fun id id' _ => .pure ⟨rfl, rfl, rfl⟩

variable [Host]

mutual

/-- Whether a tree writes no points, and calls functions only that give alike outcomes, without
points, for values that are alike. -/
def Respects : Node → Prop
  | .act (.set operand) => operand.isPointFree
  | .act (.call f arg) =>
    ∀ v w, v.Alike w → (Host.call f arg v).Sim [] Value.Alike (Host.call f arg w)
  | .act a => a.Writes (·.isPointFree)
  | .rerun tree =>
    ∀ v w, v.Alike w → (tree.perform v).Sim tree.merges Value.Alike (tree.perform w)
  | .enter children => AllRespect children
  | .misplaced _ => True
termination_by structural n => n

def AllRespect : List (Key × Node) → Prop
  | [] => True
  | (_, n) :: rest => n.Respects ∧ AllRespect rest
termination_by structural ns => ns

end

end Node

section
variable [Host] {merged : List Value}

theorem Action.perform_sim [Host.Overwriting] {a : Action} {v w : Value}
    (ha : (Node.act a).Respects) (hmerged : ∀ operand ∈ (Node.act a).merges, operand ∈ merged)
    (h : v.Alike w) : Sim merged Value.Alike (a.perform v) (a.perform w) := by
  cases a with
  | set operand => exact .pure (.refl ha)
  | push operand =>
    refine .bind (.lift (Scratch.ofSequence_alike h)) fun p q hpq => ?_
    exact Scratch.rebuild_sim (hpq.append (hpq.singleton ha)) h
  | unshift operand =>
    refine .bind (.lift (Scratch.ofSequence_alike h)) fun p q hpq => ?_
    exact Scratch.rebuild_sim ((hpq.singleton ha).append hpq) h
  | merge operand =>
    rw [perform_merge v.overwrites, perform_merge w.overwrites]
    refine .bind (.lift (Scratch.ofMapping_alike h)) fun p q hpq => ?_
    have hmem : operand ∈ merged := hmerged operand (List.mem_singleton_self operand)
    have hnew : Outcomes merged (fun new new' => new = new' ∧ ∀ e ∈ new, e.2.isPointFree)
        (Merge.entries (p.1 = .ordered) operand) (Merge.entries (q.1 = .ordered) operand) :=
      (Merge.entries_alike hmem _ _).imp fun new new' hnew _ heq => ⟨heq, ha _ new hnew⟩
    refine .bind (.lift hnew) fun new new' hnew => ?_
    obtain ⟨rfl, hnew⟩ := hnew
    exact Scratch.rebuild_sim (hpq.putAll hnew) h
  | defaults operand =>
    refine .bind (.lift (Scratch.ofMapping_alike h)) fun p q hpq => ?_
    cases operand with
    | map id k new => exact Scratch.rebuild_sim (hpq.fillAll ha) h
    | _ => exact .throw _
  | call f arg => exact (ha v w h).mono (List.forall_mem_nil _)
  | refuse kind => exact .throw _

namespace Node

mutual

theorem perform_sim [Host.Overwriting] : ∀ (n : Node) {v w : Value}, n.Respects →
    (∀ operand ∈ n.merges, operand ∈ merged) → v.Alike w →
      Sim merged Value.Alike (n.perform v) (n.perform w)
  | .act a, v, w, hn, hm, h => a.perform_sim hn hm h
  | .rerun tree, v, w, hn, hm, h =>
    (Sim.announce none tree).bind fun _ _ _ => (hn v w h).mono hm
  | .enter children, v, w, hn, hm, h => by
    rw [perform, perform, h.isContainer_eq]
    split
    · exact .pure h
    · refine .bind (.lift (Scratch.ofContainer_alike h)) fun s s' hs => ?_
      refine .bind (performAll_sim children hn hm hs) fun s₁ s₁' hs₁ => ?_
      exact Scratch.rebuild_sim hs₁ h
  | .misplaced kind, _, _, _, _, _ => .throw _

theorem performAll_sim [Host.Overwriting] : ∀ (ns : List (Key × Node)) {s s' : Scratch},
    AllRespect ns → (∀ operand ∈ mergesBelow ns, operand ∈ merged) → s.Alike s' →
      Sim merged Scratch.Alike (performAll ns s) (performAll ns s')
  | [], s, s', _, _, hs => .pure hs
  | (key, n) :: rest, s, s', hns, hm, hs => by
    obtain ⟨hn, hrest⟩ := hns
    obtain ⟨hm, hmrest⟩ := List.forall_mem_append.1 hm
    rw [performAll, performAll]
    refine .bind (.lift (Scratch.child_alike hs key)) fun c d hc => ?_
    refine (Sim.announce (some key) n).bind fun _ _ _ => ?_
    refine .bind (input_sim hc n) fun v w hv => ?_
    refine .bind (perform_sim n hn hm hv) fun r r' hr => ?_
    refine .bind (.lift (Scratch.assign_alike hs hr key)) fun s₁ s₁' hs₁ => ?_
    exact performAll_sim rest hrest hmrest hs₁

end

/-- A tree may run another on what is there, if that one may be run. -/
theorem Respects.rerun [Host.Overwriting] {tree : Node} (h : tree.Respects) :
    (Node.rerun tree).Respects :=
  fun _ _ halike => tree.perform_sim h (fun _ hmem => hmem) halike

end Node

/-- Updating a frozen value and updating the value itself come to the same. -/
theorem run_freeze [Host.Overwriting] {source commands : Value} (hsource : source.isPointFree)
    (hcommands : (Node.ofValue commands).Respects) (next next' next'' : Ident) :
    let frozen := ((run (source.freeze next).1 commands).exec next').1
    let plain := ((run source commands).exec next'').1
    ((∃ r, frozen = .ok r) ↔ ∃ r, plain = .ok r) ∧
      (∀ r r', frozen = .ok r → plain = .ok r' →
        (∀ n n', (r.thaw n).1.shape = (r'.thaw n').1.shape) ∧
          ∀ args, Json.CallsNothing args → toJson args r = toJson args r') ∧
      ∀ f f', frozen = .error f → plain = .error f' →
        f.Alike (Node.ofValue commands).merges f' := by
  intro frozen plain
  have hrun : Sim (Node.ofValue commands).merges Value.Alike
      (run (source.freeze next).1 commands) (run source commands) :=
    (Sim.announce none _).bind fun _ _ _ =>
      Node.perform_sim _ hcommands (fun _ hmem => hmem) (Value.alike_freeze hsource next)
  obtain ⟨hiff, hok, herror⟩ := (hrun.outcomes ⟨next', []⟩ ⟨next'', []⟩).agree
  refine ⟨hiff, fun r r' hr hr' => ?_, herror⟩
  have halike := hok r r' hr hr'
  refine ⟨fun n n' => ?_, fun args hargs => toJson_congr hargs halike.plain_eq⟩
  rw [Value.shape_thaw, Value.shape_thaw, halike.plain_eq]

end

namespace Factory
variable {arg v w : Value}

theorem isPointFree_sum {n : Int} {r : Value} (h : sum n arg = .ok r) : r.isPointFree := by
  rcases sum_eq_ok h with ⟨m, rfl⟩ | ⟨d, rfl⟩ <;> rfl

variable [Machine] {merged : List Value}

/-- The functions of one step tell values that are alike apart only by naming their kinds. -/
theorem apply_sim {f : Factory} (hf : f ≠ .kind) (harg : arg.isPointFree) (h : v.Alike w) :
    Sim merged Value.Alike (f.apply arg v) (f.apply arg w) := by
  cases f with
  | identity => exact .pure h
  | wrap =>
    have hkind : SeqKind.list ≠ .tuple .point := SeqKind.noConfusion
    refine Sim.fresh.bind fun id id' _ => .pure ⟨?_, ?_, ?_⟩
    · exact Value.isPointFree_seq.2 ⟨hkind, List.forall_mem_singleton.2 h.left⟩
    · exact Value.isPointFree_seq.2 ⟨hkind, List.forall_mem_singleton.2 h.right⟩
    · rw [Value.plain_seq, Value.plain_seq, List.map_singleton, List.map_singleton, h.plain_eq]
  | isNone =>
    rcases h.eq_or_not_isAtom with rfl | ⟨hv, hw⟩
    · exact .pure (.refl rfl)
    · cases v <;> cases hv <;> cases w <;> cases hw <;> exact .pure (.refl rfl)
  | kind => exact absurd rfl hf
  | const => exact .pure (.refl harg)
  | add =>
    rcases h.eq_or_not_isAtom with rfl | ⟨hv, hw⟩
    · cases v with
      | int n => exact .lift (.refl fun r hr => .refl (isPointFree_sum hr))
      | _ => exact .throw _
    · cases v <;> cases hv <;> cases w <;> cases hw <;> exact .throw _
  | fail => exact .throw _

end Factory

namespace Node

mutual

/-- Whether all actions of a tree are neutral, and of the trees that it runs on old values. -/
def isNeutral : Node → Bool
  | .act a => a.isNeutral
  | .rerun tree => tree.isNeutral
  | .enter children => allNeutral children
  | .misplaced _ => true
termination_by structural n => n

def allNeutral : List (Key × Node) → Bool
  | [] => true
  | (_, n) :: rest => n.isNeutral && allNeutral rest
termination_by structural ns => ns

end

attribute [local instance] Host.standard

theorem respects_act {a : Action} (h : a.isNeutral) : (Node.act a).Respects := by
  have hwrites := Action.writes_of_isNeutral h
  cases a with
  | set operand => exact Value.isPointFree_of_lacksPoints h
  | call f arg =>
    simp only [Action.isNeutral, Bool.and_eq_true, decide_eq_true_iff] at h
    obtain ⟨hf, harg⟩ := h
    exact fun v w halike => Factory.apply_sim hf (Value.isPointFree_of_lacksPoints harg) halike
  | _ => exact hwrites

mutual

theorem respects_of_isNeutral : ∀ n : Node, n.isNeutral → n.Respects
  | .act _, h => respects_act h
  | .rerun tree, h => (respects_of_isNeutral tree h).rerun
  | .enter children, h => allRespect_of_allNeutral children h
  | .misplaced _, _ => trivial

theorem allRespect_of_allNeutral : ∀ ns : List (Key × Node), allNeutral ns → AllRespect ns
  | [], _ => trivial
  | (_, n) :: rest, h => by
    obtain ⟨hn, hrest⟩ := Bool.and_eq_true_iff.1 h
    exact ⟨respects_of_isNeutral n hn, allRespect_of_allNeutral rest hrest⟩

end

end Node

attribute [local instance] Host.standard in
/-- An ordered mapping holds a list of a named kind, which is pushed to, and nothing, where a
further tree wraps what it finds. -/
theorem run_freeze_ordered :
    let source := Value.map 0 .ordered [(.text "a", .seq 1 .row [.int 1]), (.text "b", .none)]
    let commands := Value.map 2 .plain [
      (.text "a", .map 3 .plain [(.text "push", .int 2)]),
      (.text "b", .map 4 .plain [(.text "invoke", .runner 5 (.map 6 .plain [
        (.text "c", .map 7 .plain [(.text "invoke", .factory 8 .wrap .none)])]))])]
    source.isPointFree ∧ (Node.ofValue commands).Respects ∧
      ∃ r r', ((run (source.freeze 9).1 commands).exec 11).1 = .ok r ∧
        ((run source commands).exec 9).1 = .ok r' ∧ (r.thaw 0).1.shape = (r'.thaw 0).1.shape ∧
          toJson [] r = toJson [] r' := by
  intro source commands
  have hrespects : (Node.ofValue commands).Respects := Node.respects_of_isNeutral _ (by rfl)
  have hsource : source.isPointFree := rfl
  have hplain : ((run source commands).exec 9).1 = .ok (.map 12 .ordered [
      (.text "a", .seq 9 .row [.int 1, .int 2]),
      (.text "b", .map 11 .plain [(.text "c", .seq 10 .list [.none])])]) := by
    rfl
  obtain ⟨hiff, hsame, -⟩ := run_freeze hsource hrespects 9 11 9
  obtain ⟨r, hr⟩ := hiff.2 ⟨_, hplain⟩
  obtain ⟨hthaw, hjson⟩ := hsame r _ hr hplain
  exact ⟨hsource, hrespects, r, _, hr, hplain, hthaw 0 0, hjson [] (List.forall_mem_nil _)⟩

attribute [local instance] Host.standard in
/-- An element with more terms than a list can have is found to be no pair by an ordered mapping,
and to be too large by the plain one that a frozen copy of it is merged into. -/
theorem run_freeze_overflow :
    let source := Value.map 0 .ordered []
    let commands := Value.map 1 .plain [
      (.text "merge", .seq 2 .list [.range 3 ⟨0, 9223372036854775808, 1⟩])]
    source.isPointFree ∧ (Node.ofValue commands).Respects ∧
      ∃ f f', ((run (source.freeze 4).1 commands).exec 5).1 = .error f ∧
        ((run source commands).exec 4).1 = .error f' ∧ f.category = .overflow ∧
          f'.category = .value := by
  intro source commands
  have hrespects : (Node.ofValue commands).Respects := Node.respects_of_isNeutral _ (by rfl)
  exact ⟨rfl, hrespects, .sizeTooLarge, .pairTooLong, rfl, rfl, rfl, rfl⟩

end Amend
