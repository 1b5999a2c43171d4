import Amend.Action

/-!
# Command trees

A mapping read as a node of a command tree: the command that it names, or one node for each of its
keys. `Node.perform` carries a tree out on a value. Only `Node.ofValue` looks at the mappings of a
tree, so their kinds, and the keys beside a command, play no further part.
-/

namespace Amend

/-- A node of a command tree. A `rerun` calls a function that runs a further tree on the value, and
`misplaced` is something that is no mapping where a node is due. -/
inductive Node where
  | act (action : Action)
  | rerun (tree : Node)
  | enter (children : List (Key × Node))
  | misplaced (kind : Kind)

namespace Node

mutual

def ofValue : Value → Node
  | .map _ _ es =>
    match Command.all.findSome? fun c => ofToken c es with
    | some node => node
    | none => .enter (ofEntries es)
  | v => .misplaced v.kind
termination_by structural v => v

def ofOperand : Command → Value → Node
  | .set, v => .act (.set v)
  | .push, v => .act (.push v)
  | .unshift, v => .act (.unshift v)
  | .merge, v => .act (.merge v)
  | .defaults, v => .act (.defaults v)
  | .invoke, .factory _ f arg => .act (.call f arg)
  | .invoke, .runner _ tree => .rerun (ofValue tree)
  | .invoke, v => .act (.refuse v.kind)
termination_by structural _ v => v

def ofToken (c : Command) : List (Key × Value) → Option Node
  | [] => none
  | (k, v) :: es => if k.Same c.key then some (ofOperand c v) else ofToken c es
termination_by structural es => es

def ofEntries : List (Key × Value) → List (Key × Node)
  | [] => []
  | (k, v) :: es => (k, ofValue v) :: ofEntries es
termination_by structural es => es

end

def command? : Node → Option Command
  | .act action => some action.command
  | .rerun _ => some .invoke
  | .enter _ | .misplaced _ => none

/-- The log entry of a node below a key, or at the top, where only commands have one. -/
def logEntry? (key : Option Key) (n : Node) : Option LogEntry :=
  match n.command? with
  | some c => some (.applied c key)
  | none => key.map .entered

def announce (key : Option Key) (n : Node) : Update Unit :=
  match n.logEntry? key with
  | some entry => Update.record entry
  | none => pure ()

/-- What a node below a key is carried out on. A command takes the child as it is; to enter nothing,
or a scalar that counts as false, is to enter a new empty mapping. -/
def input (child : Value) (n : Node) : Update Value :=
  if n.command?.isSome || child.isContainer || child.truthy then pure child
  else do return .map (← Update.fresh) .plain []

variable [Host]

mutual

/-- Carries a node out on a value. A node without children leaves a scalar alone and copies a
container. -/
def perform : Node → Value → Update Value
  | .act action, v => action.perform v
  | .rerun tree, v => do
    tree.announce none
    tree.perform v
  | .enter children, v =>
    if children.isEmpty && !v.isContainer then pure v
    else do
      let scratch ← Update.lift (Scratch.ofContainer v)
      let scratch ← performAll children scratch
      scratch.rebuild v
  | .misplaced kind, _ => throw (.nodeNotMapping kind)
termination_by structural n => n

/-- Carries the children of a node out, each on what the ones before it have left. -/
def performAll : List (Key × Node) → Scratch → Update Scratch
  | [], scratch => pure scratch
  | (key, n) :: rest, scratch => do
    let child ← Update.lift (scratch.child key)
    n.announce (some key)
    let v ← n.perform (← n.input child)
    let scratch ← Update.lift (scratch.assign key v)
    performAll rest scratch
termination_by structural ns => ns

end

def run (n : Node) (source : Value) : Update Value := do
  n.announce none
  n.perform source

end Node

variable [Host]

def applyCommand (c : Command) (old operand : Value) : Update Value :=
  (Node.ofOperand c operand).perform old

/-- Applies what is no command. -/
def applyUnknown (given : Value) : Update Value := throw (.unknownCommand given)

/-- Updates a value by a command tree. -/
def run (source commands : Value) : Update Value := (Node.ofValue commands).run source

end Amend
