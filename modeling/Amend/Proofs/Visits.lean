import Amend.Proofs.Carry
import Amend.Proofs.Leaves

/-!
# What an update visits

`Value.visits` reads off a command tree which entries it leaves in the log: one for each command, in
the order of the keys, one for each property that is entered, and those of a further tree right
after the command that runs it. `Update.Logs` says of an update that it writes a row of entries, or
fails after some of them, with one lemma for each way to build an update. The functions that a tree
calls, and the updates of derived classes, may log what they like; `Action.IsSilent` is asked of
them. Main statement (`run_log`): the log of a run is what its tree visits, on every source, up to
where the run fails.
-/

namespace Amend

namespace Value

mutual

/-- The entries of a node in the log, below a key or at the top. Only commands have one at the
top. -/
def visits : Option Key → Value → List LogEntry
  | key, .map _ _ es =>
    match Entries.findCommand es with
    | some (c, _) => .applied c key :: (if c = .invoke then callVisits es else [])
    | .none => (key.map .entered).toList ++ entryVisits es
  | key, _ => (key.map .entered).toList
termination_by structural _ v => v

/-- The entries of the tree that the function at the token of a call runs, if it runs one. -/
def callVisits : List (Key × Value) → List LogEntry
  | [] => []
  | (k, v) :: es => if k.Same Command.invoke.key then runnerVisits v else callVisits es
termination_by structural es => es

def runnerVisits : Value → List LogEntry
  | .runner _ tree => visits .none tree
  | _ => []
termination_by structural v => v

def entryVisits : List (Key × Value) → List LogEntry
  | [] => []
  | (k, v) :: es => visits (some k) v ++ entryVisits es
termination_by structural es => es

end

end Value

namespace Node

/-- The entry for a node itself, if it has one. -/
def ownVisit (key : Option Key) (n : Node) : List LogEntry := Option.toList <| n.logEntry? key

mutual

/-- The entries that carrying a node out leaves in the log, after the one for the node itself. -/
def visits : Node → List LogEntry
  | .act _ => []
  | .rerun tree => tree.ownVisit none ++ tree.visits
  | .enter children => childVisits children
  | .misplaced _ => []
termination_by structural n => n

def childVisits : List (Key × Node) → List LogEntry
  | [] => []
  | (k, n) :: rest => n.ownVisit (some k) ++ n.visits ++ childVisits rest
termination_by structural ns => ns

end

theorem visits_ofOperand {c : Command} (hc : c ≠ .invoke) (operand : Value) :
    (ofOperand c operand).visits = [] := by
  cases c with
  | invoke => exact absurd rfl hc
  | _ => cases operand <;> rfl

theorem ownVisit_ofOperand (key : Option Key) (c : Command) (operand : Value) :
    (ofOperand c operand).ownVisit key = [.applied c key] := by
  unfold ownVisit logEntry?
  rw [command?_ofOperand]
  rfl

end Node

namespace Value
open Node

mutual

/-- A tree visits what the nodes that it is read as visit. -/
theorem visits_eq : ∀ (key : Option Key) (v : Value),
    v.visits key = (Node.ofValue v).ownVisit key ++ (Node.ofValue v).visits
  | key, .map id kind es => by
    rcases h : Entries.findCommand es with - | ⟨c, operand⟩
    · rw [visits, h, Node.ofValue_map_of_none h, Node.visits, ← entryVisits_eq es]
      rfl
    · have hfind := Entries.find?_of_findCommand h
      rw [visits, h, Node.ofValue_map_of_some h, ownVisit_ofOperand]
      show LogEntry.applied c key :: _ = LogEntry.applied c key :: _
      congr 1
      by_cases hc : c = .invoke
      · subst hc
        rw [if_pos rfl, callVisits_eq es, Node.ofToken_eq, hfind]
        rfl
      · rw [if_neg hc, visits_ofOperand hc]
        rfl
  | key, .none | key, .bool _ | key, .int _ | key, .float _ | key, .text _ | key, .bytes ..
  | key, .buffer .. | key, .range .. | key, .set .. | key, .frozenSet .. | key, .deque ..
  | key, .factory .. | key, .runner .. | key, .seq .. => (List.append_nil _).symm

theorem callVisits_eq : ∀ es : List (Key × Value),
    callVisits es = ((Node.ofToken .invoke es).map Node.visits).getD []
  | [] => rfl
  | (k, v) :: es => by
    rw [callVisits, Node.ofToken]
    split
    · exact runnerVisits_eq v
    · exact callVisits_eq es

theorem runnerVisits_eq : ∀ v : Value, runnerVisits v = (Node.ofOperand .invoke v).visits
  | .runner _ tree => visits_eq .none tree
  | .none | .bool _ | .int _ | .float _ | .text _ | .bytes .. | .buffer .. | .range .. | .set ..
  | .frozenSet .. | .deque .. | .factory .. | .seq .. | .map .. => rfl

theorem entryVisits_eq : ∀ es : List (Key × Value),
    entryVisits es = Node.childVisits (Node.ofEntries es)
  | [] => rfl
  | (k, v) :: es => by
    rw [entryVisits, Node.ofEntries, Node.childVisits, visits_eq (some k) v, entryVisits_eq es]

end

end Value

/-- From any state, an update adds a row of entries to the log, or fails after some of them. -/
structure Update.Logs {α : Type} (u : Update α) (entries : List LogEntry) : Prop where
  log : ∀ t, ∃ written, (u t).2.log = t.log ++ written ∧ written <+: entries ∧
    ∀ a, (u t).1 = .ok a → written = entries

namespace Update.Logs
variable {α β : Type} {u : Update α} {f : α → Update β} {entries later : List LogEntry}

/-- An update that leaves the log as it is. -/
theorem silent (h : ∀ t, (u t).2.log = t.log) : u.Logs [] :=
  ⟨fun t => ⟨[], by rw [h t, List.append_nil], List.nil_prefix, fun _ _ => rfl⟩⟩

theorem pure (a : α) : (Pure.pure a : Update α).Logs [] := silent fun _ => rfl

theorem lift (e : Except Fault α) : (lift e).Logs [] := silent fun _ => rfl

theorem fresh : Update.fresh.Logs [] := silent fun _ => rfl

theorem throw (fault : Fault) : (throw fault : Update α).Logs entries :=
  ⟨fun _ => ⟨[], (List.append_nil _).symm, List.nil_prefix, fun _ h => nomatch h⟩⟩

theorem record (entry : LogEntry) : (record entry).Logs [entry] :=
  ⟨fun _ => ⟨[entry], rfl, List.prefix_rfl, fun _ _ => rfl⟩⟩

theorem bind (hu : u.Logs entries) (hf : ∀ a, (f a).Logs later) :
    (u >>= f).Logs (entries ++ later) := by
  refine ⟨fun t => ?_⟩
  obtain ⟨w, hw, hinit, hall⟩ := hu.log t
  rcases h : u t with ⟨fault | a, t₁⟩
  · rw [h] at hw
    rw [bind_of_error h]
    exact ⟨w, hw, hinit.trans (List.prefix_append ..), fun _ h => nomatch h⟩
  · rw [h] at hw hall
    obtain rfl := hall a rfl
    obtain ⟨w', hw', hinit', hall'⟩ := (hf a).log t₁
    rw [bind_of_ok h]
    refine ⟨w ++ w', ?_, List.prefix_append_right_inj w |>.2 hinit', fun b hb => ?_⟩
    · rw [hw', hw, List.append_assoc]
    · rw [hall' b hb]

/-- A step that leaves the log as it is, and what comes after it. -/
theorem after_silent (hu : u.Logs []) (hf : ∀ a, (f a).Logs later) : (u >>= f).Logs later :=
  hu.bind hf

end Update.Logs

section
open Update

theorem Scratch.rebuild_logs (s : Scratch) (v : Value) : (s.rebuild v).Logs [] := by
  cases s with
  | items kind xs =>
    rw [Scratch.rebuild_items]
    split
    · exact .throw _
    · exact .after_silent .fresh fun _ => .pure _
  | entries kind es =>
    rw [Scratch.rebuild_entries]
    exact .after_silent .fresh fun _ => .pure _

/-- An action that leaves the log as it is: what it calls logs nothing. -/
def Action.IsSilent [Host] (a : Action) : Prop := ∀ old, (a.perform old).Logs []

/-- No function and no update of a derived class leaves anything in the log. -/
class Host.Silent [Host] : Prop where
  call_logs : ∀ f arg old, (Host.call f arg old).Logs []
  update_logs : ∀ es operand, (Host.update es operand).Logs []

theorem Merge.overwrite_logs [Machine] (ordered : Bool) (es : Entries Value) (operand : Value) :
    (overwrite ordered es operand).Logs [] :=
  .after_silent (.lift _) fun _ => .pure _

theorem Merge.update_logs [Host] [Host.Silent] (kind : MapKind) (es : Entries Value)
    (operand : Value) : (update kind es operand).Logs [] := by
  cases kind with
  | defaulting => exact Host.Silent.update_logs es operand
  | _ => exact overwrite_logs ..

/-- Where nothing that is called logs anything, no action does. -/
theorem Action.isSilent [Host] [Host.Silent] (a : Action) : a.IsSilent := by
  intro old
  cases a with
  | set operand => exact .pure _
  | push operand | unshift operand =>
    exact .after_silent (.lift _) fun _ => Scratch.rebuild_logs ..
  | merge operand =>
    refine .after_silent (.lift _) fun _ => ?_
    exact .after_silent (Merge.update_logs ..) fun _ => Scratch.rebuild_logs ..
  | defaults operand =>
    refine .after_silent (.lift _) fun _ => ?_
    dsimp only
    split
    · exact Scratch.rebuild_logs ..
    · exact .throw _
  | call f arg => exact Host.Silent.call_logs f arg old
  | refuse kind => exact .throw _

namespace Node

theorem announce_logs (key : Option Key) (n : Node) :
    (n.announce key).Logs (n.ownVisit key) := by
  unfold announce ownVisit
  split
  · next entry h =>
    rw [h]
    exact .record entry
  · next h =>
    rw [h]
    exact .pure ()

theorem input_logs (child : Value) (n : Node) : (n.input child).Logs [] := by
  unfold input
  split
  · exact .pure _
  · exact .after_silent .fresh fun _ => .pure _

variable [Host]

mutual

/-- Carrying a node out logs what the node visits, whatever it is carried out on. -/
theorem perform_logs : ∀ n : Node, n.Every Action.IsSilent → ∀ v : Value,
    (n.perform v).Logs n.visits
  | .act _, h, v => h v
  | .rerun tree, h, v => (tree.announce_logs none).bind fun _ => perform_logs tree h v
  | .enter children, h, v => by
    rw [perform, visits]
    split
    · next hleft =>
      obtain rfl := List.isEmpty_iff.1 (Bool.and_eq_true_iff.1 hleft).1
      exact .pure v
    · refine .after_silent (.lift _) fun s => ?_
      -- nothing is logged after the children
      rw [← List.append_nil (childVisits children)]
      exact (performAll_logs children h s).bind fun s' => s'.rebuild_logs v
  | .misplaced _, _, _ => .throw _

theorem performAll_logs : ∀ ns : List (Key × Node), EveryBelow Action.IsSilent ns →
    ∀ s : Scratch, (performAll ns s).Logs (childVisits ns)
  | [], _, s => .pure s
  | (key, n) :: rest, h, s => by
    rw [performAll, childVisits, List.append_assoc]
    refine .after_silent (.lift _) fun c => ?_
    refine (n.announce_logs (some key)).bind fun _ => ?_
    refine .after_silent (n.input_logs c) fun w => ?_
    refine (perform_logs n h.1 w).bind fun r => ?_
    exact .after_silent (.lift _) fun s' => performAll_logs rest h.2 s'

end

end Node

end

/-- The log of a run is what its tree visits, whatever the source is, if the functions that it calls
log nothing. A run that fails has logged the first entries of these. -/
theorem run_log [Host] {commands : Value}
    (hsilent : (Node.ofValue commands).Every Action.IsSilent) (source : Value) (next : Ident) :
    let outcome := (run source commands).exec next
    outcome.2.log <+: commands.visits none ∧
      ∀ r, outcome.1 = .ok r → outcome.2.log = commands.visits none := by
  intro outcome
  have hlogs : (run source commands).Logs (commands.visits none) := by
    rw [Value.visits_eq]
    exact (Node.announce_logs ..).bind fun _ => Node.perform_logs _ hsilent _
  obtain ⟨written, hlog, hinit, hall⟩ := hlogs.log ⟨next, []⟩
  have hwritten : outcome.2.log = written := by rwa [List.nil_append] at hlog
  rw [hwritten]
  exact ⟨hinit, hall⟩

section
attribute [local instance] Host.standard

theorem Factory.apply_logs (f : Factory) (arg old : Value) : (f.apply arg old).Logs [] := by
  cases f with
  | wrap => exact .after_silent .fresh fun _ => .pure _
  | add =>
    cases old with
    | int n => exact .lift _
    | _ => exact .throw _
  | fail => exact .throw _
  | identity | isNone | kind | const => exact .pure _

/-- The functions that are known by name log nothing. -/
instance : Host.Silent where
  call_logs := Factory.apply_logs
  update_logs := Merge.overwrite_logs false

/-- A scalar that counts as false is entered, and a call runs a further tree, which pushes at its
top. -/
theorem run_log_rerun :
    let source := Value.map 0 .plain [(.text "a", .int 0), (.int 1, .seq 1 .list [])]
    let commands := Value.map 2 .plain [
      (.text "a", .map 3 .plain [(.text "b", .map 4 .plain [(.text "set", .int 1)])]),
      (.bool true, .map 5 .plain [(.text "c", .none), (.text "invoke", .runner 6
        (.map 7 .plain [(.text "push", .int 2)]))])]
    (Node.ofValue commands).Every Action.IsSilent ∧
      ∃ r trace, (run source commands).exec 8 = (.ok r, trace) ∧
      trace.log = commands.visits none ∧ trace.log.map LogEntry.text =
        ["descending into property 'a'", "applying SET to property 'b'",
          "applying INVOKE to property True", "applying PUSH at top level"] := by
  intro source commands
  have hsilent : (Node.ofValue commands).Every Action.IsSilent := .of_forall Action.isSilent _
  have hrun : ∃ r trace, (run source commands).exec 8 = (.ok r, trace) := ⟨_, _, rfl⟩
  obtain ⟨r, trace, hrun⟩ := hrun
  have hlog : trace.log = commands.visits none := by
    have h := (run_log hsilent source 8).2 r
    rw [hrun] at h
    exact h rfl
  refine ⟨hsilent, r, trace, hrun, hlog, ?_⟩
  rw [hlog]
  decide +kernel

end

end Amend
