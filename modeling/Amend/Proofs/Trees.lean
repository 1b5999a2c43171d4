import Amend.Proofs.Data
import Amend.Proofs.Leaves

/-!
# Command trees through JSON

`Value.isTree` says of a value that it is a command tree that can be written, with texts and
integers for the keys of properties. What is read back has texts alone: a node that names a command
names it still, with its operand, and another one has its children at the names of their keys
(`cases_of_named`). Main statement (`agrees_of_named`): where the tree enters properties by texts
alone, what is read back comes to the same on every value.
-/

namespace Amend

namespace Key
variable {k : Key} {c : Command}

/-- Whether a key can address a property of JSON data: it is a text, or an integer that is not too
long. -/
def isStep : Key → Bool
  | .text _ => true
  | .int n => !Numeral.tooLong n
  | _ => false

theorem isName_of_isStep (h : k.isStep) : k.isName := by
  cases k <;> first | exact h | cases h

/-- The command that a key names. -/
def command? (k : Key) : Option Command := Command.all.find? fun c => k.Same c.key

theorem command?_eq_none : k.command? = .none ↔ k.IsPlain := by
  simp only [command?, List.find?_eq_none, decide_eq_true_eq, IsPlain]
  exact ⟨fun h c => h c c.mem_all, fun h c _ => h c⟩

theorem command?_eq_some : k.command? = some c ↔ k.Same c.key := by
  constructor
  · intro h
    simpa using List.find?_some h
  · intro h
    rcases hk : k.command? with - | d
    · exact absurd h (command?_eq_none.1 hk c)
    · have hd : k.Same d.key := by simpa using List.find?_some hk
      exact congrArg some (Command.token_injective (same_text_iff.1 (hd.symm.trans h)))

/-- No integer is written as a token. -/
theorem ofInt_ne_token (n : Int) (c : Command) : String.ofList (Numeral.ofInt n) ≠ c.token := by
  obtain ⟨x, xs, htext, hx⟩ := Json.Reader.exists_digit_ofNat n.natAbs []
  rw [List.append_nil] at htext
  intro h
  have hlist : Numeral.ofInt n = c.token.toList := by rw [← h, String.toList_ofList]
  rw [Json.Reader.ofInt_eq, htext] at hlist
  split at hlist <;> cases c <;> cases hlist <;> cases hx

theorem named_same_key (h : k.isStep) (c : Command) : k.named.Same c.key ↔ k.Same c.key := by
  cases k with
  | text s => rw [named_text]
  | int n =>
    have hnamed : ¬ (Key.int n).named.Same c.key := by
      rw [named, Command.key, same_text_iff]
      exact ofInt_ne_token n c
    have hint : ¬ (Key.int n).Same c.key := by
      simp [Same, signature, Command.key]
    exact iff_of_false hnamed hint
  | _ => cases h

end Key

namespace Value

mutual

/-- Whether a value is a command tree that can be written: its nodes are plain mappings, with data
under each token, but for calls, and with a node under each other key. -/
def isTree : Value → Bool
  | .map _ kind es => kind = .plain && decide (Entries.Distinct es) && entriesTree es
  | _ => false
termination_by structural v => v

def entriesTree : List (Key × Value) → Bool
  | [] => true
  | (k, v) :: es =>
    k.isStep &&
      (match k.command? with
        | some c => c ≠ .invoke && v.isData
        | .none => v.isTree) && entriesTree es
termination_by structural es => es

end

/-- Whether an entry of a node is a command with its operand, or a property with its node. -/
def isTreeEntry (e : Key × Value) : Bool :=
  e.1.isStep &&
    (match e.1.command? with
      | some c => c ≠ .invoke && e.2.isData
      | .none => e.2.isTree)

theorem isTree_map {id : Ident} {kind : MapKind} {es : Entries Value} :
    (Value.map id kind es).isTree ↔
      kind = .plain ∧ Entries.Distinct es ∧ ∀ e ∈ es, isTreeEntry e := by
  have hes : entriesTree es ↔ ∀ e ∈ es, isTreeEntry e := by
    induction es with
    | nil => simp [entriesTree]
    | cons e es ih => rw [entriesTree, Bool.and_eq_true, ih, List.forall_mem_cons]; rfl
  rw [isTree, Bool.and_eq_true, Bool.and_eq_true, decide_eq_true_iff, decide_eq_true_iff, hes,
    and_assoc]

end Value

namespace Entries
variable {α β : Type}

theorem findCommand_mapValues (f : α → β) (es : Entries α) :
    (es.mapValues f).findCommand = es.findCommand.map fun found => (found.1, f found.2) := by
  rw [findCommand, findCommand, List.map_findSome?]
  congr 1
  funext c
  rw [find?_mapValues, Function.comp_apply, Option.map_map, Option.map_map]
  rfl

end Entries

namespace Node
variable {id : Ident} {kind : MapKind} {es : Entries Value} {w : Value}

/-- Two nodes that come to the same, on every shape. -/
structure Agrees [Host] (n n' : Node) : Prop where
  command : n.command? = n'.command?
  eval : ∀ x, n.eval x = n'.eval x

mutual

/-- Whether all properties that a tree enters are addressed by texts. -/
def hasTextKeys : Node → Bool
  | .enter children => allHaveTextKeys children
  | _ => true
termination_by structural n => n

def allHaveTextKeys : List (Key × Node) → Bool
  | [] => true
  | (k, n) :: ns => k.isText && n.hasTextKeys && allHaveTextKeys ns
termination_by structural ns => ns

end

/-- The names of a node's keys, in the order in which they are read back. -/
theorem exists_of_named (hw : w.shape = (Value.map id kind es).named) :
    ∃ id' es', w = .map id' .plain es' ∧ Entries.mapValues Value.shape es' =
      Entries.putAll [] (es.map fun e => (e.1.named, e.2.named)) := by
  rw [Value.named_map] at hw
  cases w with
  | map id' kind' es' =>
    rw [Value.shape_map] at hw
    injection hw with hid hkind hes
    exact ⟨id', es', by rw [hkind], hes⟩
  | _ => cases hw

end Node

namespace Value
variable {id : Ident} {kind : MapKind} {es : Entries Value} {c : Command} {operand : Value}

/-- The operand of a node is data, and no node is a call. -/
theorem isData_of_findCommand (h : (Value.map id kind es).isTree)
    (hc : Entries.findCommand es = some (c, operand)) : c ≠ .invoke ∧ operand.isData := by
  obtain ⟨-, -, hentries⟩ := isTree_map.1 h
  obtain ⟨e, he, hk, rfl⟩ := Entries.same_of_find? (Entries.find?_of_findCommand hc)
  have hentry := hentries e he
  rw [isTreeEntry, Key.command?_eq_some.2 hk] at hentry
  simpa using (Bool.and_eq_true _ _).mp hentry |>.2

/-- The children of a node without a command are trees. -/
theorem isTree_of_findCommand (h : (Value.map id kind es).isTree)
    (hc : Entries.findCommand es = .none) : ∀ e ∈ es, e.2.isTree := by
  obtain ⟨-, -, hentries⟩ := isTree_map.1 h
  intro e he
  have hentry := hentries e he
  rw [isTreeEntry, Key.command?_eq_none.2 (Entries.isPlain_of_findCommand hc e he)] at hentry
  exact ((Bool.and_eq_true _ _).mp hentry).2

theorem isStep_of_isTree (h : (Value.map id kind es).isTree) : ∀ e ∈ es, e.1.isStep := by
  obtain ⟨-, -, hentries⟩ := isTree_map.1 h
  exact fun e he => ((Bool.and_eq_true _ _).mp (hentries e he)).1

theorem isJson_of_isTree (v : Value) : v.isTree → v.isJson := by
  induction v using holding with
  | map id kind es ih =>
    intro h
    obtain ⟨-, -, hentries⟩ := isTree_map.1 h
    refine isJson_map.2 fun e he => ⟨Key.isName_of_isStep (isStep_of_isTree h e he), ?_⟩
    have hentry := ((Bool.and_eq_true _ _).mp (hentries e he)).2
    split at hentry
    · exact (isData_iff.1 ((Bool.and_eq_true _ _).mp hentry).2).1
    · exact ih e he hentry
  | seq | deque => exact fun h => nomatch h
  | atom v h =>
    intro htree
    cases v <;> first | cases htree | cases h

end Value

namespace Node
variable {id : Ident} {kind : MapKind} {es es' : Entries Value} {v w : Value}

section
variable [Host] [Host.Overwriting]

theorem isPure_ofOperand_of_isJson (c : Command) (h : v.isJson) : (ofOperand c v).IsPure := by
  cases c with
  | set => exact isPure_set v
  | push => exact isPure_push v
  | unshift => exact isPure_unshift v
  | merge => exact isPure_merge v
  | defaults => exact isPure_defaults v
  | invoke =>
    cases v <;> first | exact Action.isPure_refuse _ | cases h

/-- A tree that can be written calls nothing. -/
theorem isPure_of_isJson (v : Value) : v.isJson → (ofValue v).IsPure := by
  induction v using Value.holding with
  | map id kind es ih =>
    intro h
    have hjson := Value.isJson_map.1 h
    rcases hc : Entries.findCommand es with - | ⟨c, operand⟩
    · rw [ofValue_map_of_none hc, IsPure, every_enter, ofEntries_eq_map, List.forall_mem_map]
      exact fun e he => ih e he (hjson e he).2
    · obtain ⟨e, he, -, rfl⟩ := Entries.same_of_find? (Entries.find?_of_findCommand hc)
      rw [ofValue_map_of_some hc]
      exact isPure_ofOperand_of_isJson c (hjson e he).2
  | seq | deque => exact fun _ => trivial
  | atom v h =>
    intro _
    cases v with
    | seq | map | deque => cases h
    | _ => trivial

end

theorem findCommand_of_named (h : (Value.map id kind es).isTree)
    (hes : Entries.mapValues Value.shape es' =
      Entries.putAll [] (es.map fun e => (e.1.named, e.2.named))) :
    (Entries.findCommand es').map (fun found => (found.1, found.2.shape)) =
      (Entries.findCommand es).map fun found => (found.1, found.2.named) := by
  rw [← Entries.findCommand_mapValues, hes, Entries.findCommand, Entries.findCommand,
    List.map_findSome?]
  congr 1
  funext c
  rw [Entries.find?_putAll_map (Value.isTree_map.1 h).2.1
    (fun e he => Key.named_same_key (Value.isStep_of_isTree h e he) c)]
  simp [Entries.find?]
  rfl

end Node

namespace Node
variable {id : Ident} {kind : MapKind} {es es' : Entries Value} {v w : Value}
  {ns ns' : List (Key × Node)}

/-- A node that is read back names the same command with an operand of the same shape, or has
children at the names of its keys. -/
theorem cases_of_named (h : (Value.map id kind es).isTree)
    (hw : w.shape = (Value.map id kind es).named) :
    (∃ c operand operand', c ≠ .invoke ∧ operand.isData ∧ operand'.shape = operand.shape ∧
      ofValue (.map id kind es) = ofOperand c operand ∧ ofValue w = ofOperand c operand') ∨
    (∃ es', Entries.findCommand es = none ∧ ofValue (.map id kind es) = .enter (ofEntries es) ∧
      ofValue w = .enter (ofEntries es') ∧ Entries.mapValues Value.shape es' =
        Entries.putAll [] (es.map fun e => (e.1.named, e.2.named))) := by
  obtain ⟨id', es', rfl, hes⟩ := exists_of_named hw
  have hfind := findCommand_of_named h hes
  rcases hc : Entries.findCommand es with - | ⟨c, operand⟩
  · rw [hc, Option.map_none, Option.map_eq_none_iff] at hfind
    exact .inr ⟨es', rfl, ofValue_map_of_none hc, ofValue_map_of_none hfind, hes⟩
  · rw [hc, Option.map_some, Option.map_eq_some_iff] at hfind
    obtain ⟨⟨c', operand'⟩, hc', heq⟩ := hfind
    obtain ⟨rfl, hshape⟩ := Prod.mk.inj heq
    obtain ⟨hinvoke, hdata⟩ := Value.isData_of_findCommand h hc
    rw [Value.named_of_isData hdata] at hshape
    exact .inl ⟨c', operand, operand', hinvoke, hdata, hshape, ofValue_map_of_some hc,
      ofValue_map_of_some hc'⟩

theorem allHaveTextKeys_iff :
    allHaveTextKeys ns ↔ ∀ e ∈ ns, e.1.isText ∧ e.2.hasTextKeys := by
  induction ns with
  | nil => simp [allHaveTextKeys]
  | cons e ns ih => simp [allHaveTextKeys, ih, and_assoc]

/-- A node without a command has texts for keys, all the way down, if its keys are texts and its
children have. -/
theorem hasTextKeys_enter : (Node.enter (ofEntries es)).hasTextKeys ↔
    ∀ e ∈ es, e.1.isText ∧ (ofValue e.2).hasTextKeys := by
  rw [hasTextKeys, allHaveTextKeys_iff, ofEntries_eq_map, List.forall_mem_map]

theorem hasTextKeys_ofOperand (c : Command) (operand : Value) :
    (ofOperand c operand).hasTextKeys := by
  cases c <;> cases operand <;> rfl

theorem given_congr {n n' : Node} (h : n'.command? = n.command?) (child : Value) :
    n'.given child = n.given child := by
  rw [given, given, h]

theorem evalAll_of_agrees [Host]
    (h : List.Forall₂ (fun e' e => e'.1 = e.1 ∧ e'.2.Agrees e.2) ns' ns) (s : Scratch) :
    evalAll ns' s = evalAll ns s := by
  induction h generalizing s with
  | nil => rfl
  | @cons e' e ns' ns he hns ih =>
    obtain ⟨k', n'⟩ := e'
    obtain ⟨k, n⟩ := e
    obtain ⟨rfl, hn⟩ := he
    simp only [evalAll, given_congr hn.command, hn.eval, ih]

theorem command?_of_named (hv : v.isTree) (hw : w.shape = v.named) :
    (ofValue w).command? = (ofValue v).command? := by
  cases v with
  | map id kind es =>
    obtain ⟨c, operand, operand', -, -, -, hnode, hread⟩ | ⟨es', -, hnode, hread, -⟩ :=
      cases_of_named hv hw
    · rw [hnode, hread, command?_ofOperand, command?_ofOperand]
    · rw [hnode, hread]
      rfl
  | _ => cases hv

/-- Where all keys are texts, the entries that are read back are those that were written. -/
theorem mapValues_of_named (htext : ∀ e ∈ es, e.1.isText)
    (hdistinct : Entries.Distinct es) (hes : Entries.mapValues Value.shape es' =
      Entries.putAll [] (es.map fun e => (e.1.named, e.2.named))) :
    Entries.mapValues Value.shape es' = Entries.mapValues Value.named es := by
  have hnames : es.map (fun e => (e.1.named, e.2.named)) = Entries.mapValues Value.named es :=
    List.map_congr_left fun e he => by rw [Key.named_of_isText (htext e he)]
  have hput : Entries.putAll [] (Entries.mapValues Value.named es) =
      Entries.mapValues Value.named es :=
    Entries.putAll_of_distinct ((Entries.distinct_mapValues Value.named es).2 hdistinct)
  rw [hes, hnames, hput]

theorem forall₂_of_mapValues
    (hes : Entries.mapValues Value.shape es' = Entries.mapValues Value.named es) :
    List.Forall₂ (fun e' e => e'.1 = e.1 ∧ e'.2.shape = e.2.named) es' es := by
  rw [← List.forall₂_eq_eq_eq, Entries.mapValues, Entries.mapValues, List.forall₂_map_left_iff,
    List.forall₂_map_right_iff] at hes
  exact hes.imp fun e' e h => Prod.mk.inj h

/-- A tree that enters its properties by texts is read back as one that comes to the same. -/
theorem agrees_of_named [Host] [Host.Overwriting] (v : Value) : v.isTree → (ofValue v).hasTextKeys →
    ∀ w : Value, w.shape = v.named → (ofValue w).Agrees (ofValue v) := by
  induction v using Value.holding with
  | map id kind es ih =>
    intro htree hkeys w hw
    refine ⟨command?_of_named htree hw, fun x => ?_⟩
    obtain ⟨c, operand, operand', hc, hdata, hshape, hnode, hread⟩ | ⟨es', hc, hnode, hread, hes⟩ :=
      cases_of_named htree hw
    · rw [hnode, hread, eval_ofOperand hc, eval_ofOperand hc]
      exact (applyCommand_matches hc hdata hshape x).shape?_eq
    · rw [hnode, hasTextKeys_enter] at hkeys
      have hrows := forall₂_of_mapValues
        (mapValues_of_named (fun e he => (hkeys e he).1) (Value.isTree_map.1 htree).2.1 hes)
      have hagree : List.Forall₂ (fun e' e => e'.1 = e.1 ∧ e'.2.Agrees e.2) (ofEntries es')
          (ofEntries es) := by
        rw [ofEntries_eq_map, ofEntries_eq_map, List.forall₂_map_left_iff,
          List.forall₂_map_right_iff]
        have hchildren : ∀ e ∈ es, ∀ w : Value, w.shape = e.2.named →
            (ofValue w).Agrees (ofValue e.2) := fun e he =>
          ih e he (Value.isTree_of_findCommand htree hc e he) (hkeys e he).2
        have hrows := ((List.forall₂_and_left _ _).2 ⟨hchildren, hrows.flip⟩).flip
        exact hrows.imp fun e' e h => ⟨h.2.1, h.1 e'.2 h.2.2⟩
      have hempty := Entries.isEmpty_eq_of_length_eq hagree.length_eq
      rw [hnode, hread, eval, eval, hempty]
      simp only [evalAll_of_agrees hagree]
  | seq | deque => exact fun h => nomatch h
  | atom v h =>
    intro htree
    cases v <;> first | cases htree | cases h

end Node

end Amend
