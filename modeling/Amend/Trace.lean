import Amend.Fault

/-!
# Updates as computations

An update hands out identities, keeps a log of what it visits, and may fail. `Making` is the part
that only makes objects; `Update` adds the log and faults. The log and the identities handed out
stay when an update fails. The lemmas say what each step does when it is run from a state.
-/

namespace Amend

/-- An entry of the log: a command applied, at the top or to a property, or a property entered. -/
inductive LogEntry where
  | applied (command : Command) (key : Option Key)
  | entered (key : Key)

def LogEntry.text : LogEntry → String
  | .applied command none => "applying " ++ command.name ++ " at top level"
  | .applied command (some key) =>
    "applying " ++ command.name ++ " to property " ++ String.ofList key.literal
  | .entered key => "descending into property " ++ String.ofList key.literal

/-- A computation that makes objects. Its state is the next identity. -/
abbrev Making := StateM Ident

namespace Making
variable {α β : Type}

def fresh : Making Ident := fun next => (next, next + 1)

@[simp] theorem fresh_apply (next : Ident) : fresh next = (next, next + 1) := rfl

@[simp] theorem pure_apply (a : α) (next : Ident) : (pure a : Making α) next = (a, next) := rfl

@[simp] theorem bind_apply (m : Making α) (f : α → Making β) (next : Ident) :
    (m >>= f) next = f (m next).1 (m next).2 := rfl

end Making

/-- What an update leaves behind beside its result: the next identity, and the log so far. -/
structure Trace where
  next : Ident
  log : List LogEntry

/-- A computation that makes objects, keeps a log and may fail. -/
abbrev Update := ExceptT Fault (StateM Trace)

namespace Update
variable {α β : Type}

def make (m : Making α) : Update α :=
  ExceptT.mk fun trace => (.ok (m trace.next).1, { trace with next := (m trace.next).2 })

def fresh : Update Ident := make Making.fresh

def record (entry : LogEntry) : Update Unit :=
  ExceptT.mk fun trace => (.ok (), { trace with log := trace.log ++ [entry] })

/-- What can fail without any effect, within an update. -/
def lift (e : Except Fault α) : Update α := ExceptT.mk (pure e)

/-- Runs an update from a next identity on, with an empty log. -/
def exec (u : Update α) (next : Ident) : Except Fault α × Trace := u ⟨next, []⟩

section
variable {u : Update α} {f : α → Update β} {a : α} {fault : Fault} {t t' : Trace}

@[simp] theorem pure_apply (a : α) (t : Trace) : (pure a : Update α) t = (.ok a, t) := rfl

@[simp] theorem throw_apply (fault : Fault) (t : Trace) :
    (throw fault : Update α) t = (.error fault, t) := rfl

theorem bind_of_ok (h : u t = (.ok a, t')) : (u >>= f) t = f a t' := by
  show ExceptT.bindCont f (u t).1 (u t).2 = f a t'
  rw [h]; rfl

theorem bind_of_error (h : u t = (.error fault, t')) : (u >>= f) t = (.error fault, t') := by
  show ExceptT.bindCont f (u t).1 (u t).2 = (.error fault, t')
  rw [h]; rfl

@[simp] theorem make_apply (m : Making α) (t : Trace) :
    make m t = (.ok (m t.next).1, { t with next := (m t.next).2 }) := rfl

@[simp] theorem fresh_apply (t : Trace) :
    fresh t = (.ok t.next, { t with next := t.next + 1 }) := rfl

@[simp] theorem lift_apply (e : Except Fault α) (t : Trace) : lift e t = (e, t) := rfl

end

/-- The next identity never goes back. -/
structure Grows (u : Update α) : Prop where
  next_le : ∀ t, t.next ≤ (u t).2.next

end Update

end Amend
