import Amend.Proofs.Meaning
import Amend.Proofs.Named
import Amend.Proofs.Snapshots

/-!
# JSON data as operands

`Value.isData` says of a value that it is what a JSON document is read as. The shape of data is data
(`isData_shape`), and so is what is read back of any value (`isData_named`). Main statement
(`applyCommand_matches`): what a command makes of an operand of data depends on its shape alone.
-/

namespace Amend

namespace Value

/-- JSON data as it is read: scalars, lists, and plain mappings whose keys are different texts. -/
def isData (v : Value) : Bool := v.isJson && v.isWritable && v.hasTextKeys

section
variable {v : Value}

theorem isData_iff : v.isData ↔ v.isJson ∧ v.isWritable ∧ v.hasTextKeys := by
  rw [isData, Bool.and_eq_true, Bool.and_eq_true, and_assoc]

theorem named_of_isData (h : v.isData) : v.named = v.shape := by
  obtain ⟨-, hwritable, hkeys⟩ := isData_iff.1 h
  rw [named_eq_plain v hkeys, (plain_eq_shape_iff v).2 hwritable]

theorem isData_seq {id : Ident} {kind : SeqKind} {xs : List Value} :
    (Value.seq id kind xs).isData ↔ kind = .list ∧ ∀ x ∈ xs, x.isData := by
  simp only [isData_iff, isJson_seq, isWritable_seq, hasTextKeys_seq]
  grind

theorem isData_map {id : Ident} {kind : MapKind} {es : Entries Value} :
    (Value.map id kind es).isData ↔
      kind = .plain ∧ (∀ e ∈ es, e.1.isText) ∧ Entries.Distinct es ∧ ∀ e ∈ es, e.2.isData := by
  simp only [isData_iff, isJson_map, isWritable_map, hasTextKeys_map]
  constructor
  · rintro ⟨hjson, ⟨hkind, hwritable⟩, htext, hdistinct, hkeys⟩
    exact ⟨hkind, htext, hdistinct, fun e he => ⟨(hjson e he).2, hwritable e he, hkeys e he⟩⟩
  · rintro ⟨hkind, htext, hdistinct, hdata⟩
    refine ⟨fun e he => ⟨Key.isName_of_isText (htext e he), (hdata e he).1⟩,
      ⟨hkind, fun e he => (hdata e he).2.1⟩, htext, hdistinct, fun e he => (hdata e he).2.2⟩

end

theorem isData_shape (v : Value) : v.shape.isData = v.isData := by
  induction v using holding with
  | seq id kind xs ih =>
    rw [Bool.eq_iff_iff, shape_seq, isData_seq, isData_seq, List.forall_mem_map]
    exact and_congr_right fun _ => forall₂_congr fun x hx => by rw [ih x hx]
  | map id kind es ih =>
    have hdistinct := Entries.distinct_mapValues shape es
    have hdata : (∀ e ∈ Entries.mapValues shape es, e.2.isData) ↔ ∀ e ∈ es, e.2.isData := by
      rw [Entries.mapValues, List.forall_mem_map]
      exact forall₂_congr fun e he => by rw [ih e he]
    have htext : (∀ e ∈ Entries.mapValues shape es, e.1.isText) ↔ ∀ e ∈ es, e.1.isText := by
      rw [Entries.mapValues, List.forall_mem_map]
    rw [Bool.eq_iff_iff, shape_map, isData_map, isData_map, hdistinct, hdata, htext]
  | deque id xs => rfl
  | atom v h => rw [shape_of_isAtom h]

/-- What is read back is data: its keys are texts, and different ones. -/
theorem isData_named (v : Value) : v.isJson → v.named.isData := by
  induction v using holding with
  | seq id kind xs ih =>
    intro h
    rw [named_seq, isData_seq, List.forall_mem_map]
    exact ⟨rfl, fun x hx => ih x hx (isJson_seq.1 h x hx)⟩
  | map id kind es ih =>
    intro h
    have hjson := isJson_map.1 h
    rw [named_map, isData_map]
    refine ⟨rfl, ?_, Entries.Distinct.putAll .nil _, ?_⟩
    · refine Entries.forall_keys_putAll (P := fun k => k.isText) (List.forall_mem_nil _) ?_
      rw [List.forall_mem_map]
      exact fun e he => rfl
    · refine Entries.forall_putAll (P := fun v : Value => v.isData) (List.forall_mem_nil _) ?_
      rw [List.forall_mem_map]
      exact fun e he => ih e he (hjson e he).2
  | deque id xs =>
    intro h
    cases h
  | atom v hatom =>
    intro h
    cases v <;> first | exact isData_iff.2 ⟨h, rfl, rfl⟩ | cases h | cases hatom

section
variable {v : Value} {xs : List Value}

/-- What iterating over data gives: the characters of a text, the items of a list, and the keys of a
mapping, which are data again. -/
theorem isData_of_elements (h : v.isData) (hxs : v.elements? = some xs) : ∀ x ∈ xs, x.isData := by
  cases v with
  | text s =>
    cases hxs
    exact List.forall_mem_map.2 fun c _ => rfl
  | seq id kind xs =>
    cases hxs
    exact (isData_seq.1 h).2
  | map id kind es =>
    cases hxs
    refine List.forall_mem_map.2 fun e he => ?_
    have htext := (isData_map.1 h).2.1 e he
    cases hk : e.1 <;> rw [hk] at htext <;> first | rfl | cases htext
  | none | bool | int | float => cases hxs
  | _ => cases h

theorem elements?_shape (h : v.isData) : v.shape.elements? = v.elements?.map (List.map shape) := by
  cases v with
  | text s =>
    simp only [shape, elements?, Option.map_some, List.map_map]
    rfl
  | seq id kind xs => rw [shape_seq]; rfl
  | map id kind es =>
    rw [shape_map]
    simp only [elements?, Option.map_some, List.map_map, Entries.mapValues]
    refine congrArg some (List.map_congr_left fun e he => ?_)
    have htext := (isData_map.1 h).2.1 e he
    cases hk : e.1 <;> rw [hk] at htext <;> first | (simp [hk]; rfl) | cases htext
  | none | bool | int | float => rfl
  | _ => cases h

end

end Value

namespace Merge
variable {v w : Value}

theorem key_shape (h : v.isData) : key v.shape = key v := by
  cases v with
  | seq id kind xs =>
    obtain ⟨rfl, -⟩ := Value.isData_seq.1 h
    rw [Value.shape_seq]
    rfl
  | map id kind es =>
    rw [Value.shape_map]
    rfl
  | deque => cases h
  | _ => rfl

/-- An entry with the shape of its value. -/
def shapeEntry (e : Key × Value) : Key × Value := (e.1, e.2.shape)

theorem entry_shape [Machine] (h : v.isData) (position : Nat) :
    entry position v.shape = (entry position v).map shapeEntry := by
  have helements := Value.elements?_shape h
  simp only [entry, Value.elementCount?_eq, Value.firstElements?_eq, helements]
  rcases hxs : v.elements? with - | xs
  · rfl
  simp only [Option.map_some, List.length_map]
  rcases Storage.reserveItems xs.length with fault | -
  · rfl
  rcases xs with - | ⟨k, - | ⟨x, - | ⟨y, xs⟩⟩⟩
  · rfl
  · rfl
  · have hk := key_shape (Value.isData_of_elements h hxs k (List.mem_cons_self ..))
    change (key k.shape >>= fun k => _) = ((key k >>= fun k => _).map shapeEntry)
    rw [hk]
    rcases key k with fault | key <;> rfl
  · rfl

theorem orderedEntry_shape (h : v.isData) :
    orderedEntry v.shape = (orderedEntry v).map shapeEntry := by
  have helements := Value.elements?_shape h
  have hkind : v.shape.kind = v.kind := Value.kind_shape
  simp only [orderedEntry, Value.firstElements?_eq, helements, hkind]
  rcases hxs : v.elements? with - | xs
  · rfl
  rcases xs with - | ⟨k, - | ⟨x, - | ⟨y, xs⟩⟩⟩
  · rfl
  · rfl
  · have hk := key_shape (Value.isData_of_elements h hxs k (List.mem_cons_self ..))
    change (key k.shape >>= fun k => _) = ((key k >>= fun k => _).map shapeEntry)
    rw [hk]
    rcases key k with fault | key <;> rfl
  · rfl

/-- The entries that rows of data stand for, one after another. -/
theorem mapM_shape [Machine] (ordered : Bool) {xs : List Value} (h : ∀ x ∈ xs, x.isData) (i : Nat) :
    ((xs.map Value.shape).zipIdx i).mapM
        (fun (x, i) => if ordered then orderedEntry x else entry i x) =
      ((xs.zipIdx i).mapM fun (x, i) => if ordered then orderedEntry x else entry i x).map
        (List.map shapeEntry) := by
  induction xs generalizing i with
  | nil => rfl
  | cons x xs ih =>
    obtain ⟨hx, hxs⟩ := List.forall_mem_cons.1 h
    have hentry : (if ordered then orderedEntry x.shape else entry i x.shape) =
        (if ordered then orderedEntry x else entry i x).map shapeEntry := by
      rw [orderedEntry_shape hx, entry_shape hx]
      split <;> rfl
    simp only [List.map_cons, List.zipIdx_cons, List.mapM_cons, hentry, ih hxs (i + 1)]
    rcases (if ordered then orderedEntry x else entry i x) with fault | e
    · rfl
    · rcases List.mapM _ (xs.zipIdx (i + 1)) with fault | es <;> rfl

/-- The entries that data stands for, where only the shapes of the values count. -/
theorem entries_shape [Machine] (h : v.isData) (ordered : Bool) :
    entries ordered v.shape = (entries ordered v).map (Entries.mapValues Value.shape) := by
  cases v with
  | map id kind es =>
    rw [Value.shape_map]
    rfl
  | text s =>
    have hrow := mapM_shape ordered (Value.isData_of_elements h rfl) 0
    rw [← Option.some.inj (Value.elements?_shape h)] at hrow
    exact hrow
  | seq id kind xs =>
    rw [Value.shape_seq]
    exact mapM_shape ordered (Value.isData_of_elements h rfl) 0
  | none | bool | int | float => rfl
  | _ => cases h

theorem entries_congr [Machine] (hv : v.isData) (hw : w.isData) (h : w.shape = v.shape)
    (ordered : Bool) :
    (entries ordered w).map (Entries.mapValues Value.shape) =
      (entries ordered v).map (Entries.mapValues Value.shape) := by
  rw [← entries_shape hw, h, entries_shape hv]

end Merge

section
open Update
variable [Host] [Host.Overwriting] {c : Command} {v w : Value}

/-- What a command, but no call, makes of data depends on the shape of the data alone. -/
theorem applyCommand_matches (hc : c ≠ .invoke) (hv : v.isData) (hw : w.shape = v.shape)
    (old : Value) : (applyCommand c old w).Matches Value.shape (applyCommand c old v) := by
  have hdata : w.isData := by rwa [← Value.isData_shape, hw, Value.isData_shape]
  unfold applyCommand
  cases c with
  | set =>
    rw [Node.ofOperand_set, Node.ofOperand_set]
    exact .pure hw
  | push =>
    rw [Node.ofOperand_push, Node.ofOperand_push]
    refine .bind (f := id) (.lift rfl) fun copied copied' hcopied => ?_
    obtain rfl : copied = copied' := hcopied
    refine Scratch.rebuild_matches ?_ rfl
    rw [Scratch.shape, Scratch.shape, List.map_append, List.map_append, List.map_singleton,
      List.map_singleton, hw]
  | unshift =>
    rw [Node.ofOperand_unshift, Node.ofOperand_unshift]
    refine .bind (f := id) (.lift rfl) fun copied copied' hcopied => ?_
    obtain rfl : copied = copied' := hcopied
    refine Scratch.rebuild_matches ?_ rfl
    rw [Scratch.shape, Scratch.shape, List.map_cons, List.map_cons, hw]
  | merge =>
    rw [Node.ofOperand_merge, Node.ofOperand_merge, Node.perform, Node.perform,
      Action.perform_merge old.overwrites, Action.perform_merge old.overwrites]
    refine .bind (f := id) (.lift rfl) fun copied copied' hcopied => ?_
    obtain rfl : copied = copied' := hcopied
    refine .bind (.lift (Merge.entries_congr hv hdata hw _)) fun new new' hnew => ?_
    refine Scratch.rebuild_matches ?_ rfl
    rw [Scratch.shape, Scratch.shape, ← Entries.putAll_mapValues, hnew, Entries.putAll_mapValues]
  | defaults =>
    rw [Node.ofOperand_defaults, Node.ofOperand_defaults]
    refine .bind (f := id) (.lift rfl) fun copied copied' hcopied => ?_
    obtain rfl : copied = copied' := hcopied
    have hkind := Value.kind_congr hw
    cases v with
    | map id kind es =>
      cases w with
      | map id' kind' es' =>
        have hes : Entries.mapValues Value.shape es' = Entries.mapValues Value.shape es := by
          rw [Value.shape_map, Value.shape_map] at hw
          injection hw
        refine Scratch.rebuild_matches ?_ rfl
        rw [Scratch.shape, Scratch.shape, ← Entries.fillAll_mapValues, hes,
          Entries.fillAll_mapValues]
      | _ => cases hkind
    | _ => cases w <;> cases hkind <;> exact .throw _
  | invoke => exact absurd rfl hc

end

end Amend
