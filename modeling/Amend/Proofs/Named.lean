import Amend.Proofs.Layers
import Amend.Proofs.Readback
import Amend.Proofs.Settled

/-!
# What JSON keeps of a value

`Value.isJson` says that a value is made of scalars, sequences and mappings with scalar keys, and
`Value.named` is its plain form with every key replaced by the text that names the member. Main
statement (`Document.settled_named`): such a value becomes a readable document, and that becomes the
named form. Where the keys are different texts already this is the plain form (`named_eq_plain`).
-/

namespace Amend

open Json (Document)

namespace Key

/-- Whether a member can be named by a key: it is a scalar, and no integer that is too long. -/
def isName : Key → Bool
  | .none | .bool _ | .float _ | .text _ => true
  | .int n => !Numeral.tooLong n
  | _ => false

/-- The name that a scalar key gives a member. -/
def name : Key → List Char
  | .none => "null".toList
  | .bool b => Json.writtenBool b
  | .float d => Json.writtenDouble d
  | .int n => Numeral.ofInt n
  | .text s => s.toList
  | _ => []

/-- The key that a member is read back with. -/
def named (k : Key) : Key := .text (String.ofList k.name)

theorem named_text (s : String) : (Key.text s).named = .text s := by
  simp [named, name]

theorem named_of_isText {k : Key} (h : k.isText) : k.named = k := by
  cases k <;> first | exact named_text _ | cases h

theorem isName_of_isText {k : Key} (h : k.isText) : k.isName := by
  cases k <;> first | rfl | cases h

theorem memberName_eq {o : Json.Options} (ho : o.allowNan) {k : Key} (h : k.isName) :
    Json.memberName o k = .ok (some k.name) := by
  cases k with
  | none | bool b | text s => rfl
  | float d =>
    have hd : Json.checkedDouble o d = .ok d := by simp [Json.checkedDouble, ho]
    rw [Json.memberName, hd]
    rfl
  | int n =>
    have hn : Json.checkedInt n = .ok n := by
      have hshort : Numeral.tooLong n = false := by simpa [isName] using h
      simp [Json.checkedInt, hshort]
    rw [Json.memberName, hn]
    rfl
  | _ => cases h

end Key

namespace Entries

theorem isEmpty_eq_of_length_eq {α β : Type} {l : List α} {l' : List β} (h : l.length = l'.length) :
    l.isEmpty = l'.isEmpty := by
  rw [Bool.eq_iff_iff, List.isEmpty_iff_length_eq_zero, List.isEmpty_iff_length_eq_zero, h]

end Entries

namespace Value

mutual

/-- Whether a value can be written: at any depth, it is a scalar, or a sequence or mapping of any
kind, with keys that can name members. -/
def isJson : Value → Bool
  | .none | .bool _ | .float _ | .text _ => true
  | .int n => !Numeral.tooLong n
  | .seq _ _ xs => allJson xs
  | .map _ _ es => entriesJson es
  | _ => false
termination_by structural v => v

def allJson : List Value → Bool
  | [] => true
  | v :: vs => isJson v && allJson vs
termination_by structural vs => vs

def entriesJson : List (Key × Value) → Bool
  | [] => true
  | (k, v) :: es => k.isName && isJson v && entriesJson es
termination_by structural es => es

end

mutual

/-- The shape of a value as it is read back: of the writable plain kinds, with the names of members
for keys. Of keys with one name, the first gives the place and the last the value. -/
def named : Value → Value
  | .seq _ _ xs => .seq 0 .list (nameds xs)
  | .map _ _ es => .map 0 .plain (Entries.putAll [] (entryNameds es))
  | v => v.shape
termination_by structural v => v

def nameds : List Value → List Value
  | [] => []
  | v :: vs => v.named :: nameds vs
termination_by structural vs => vs

def entryNameds : List (Key × Value) → List (Key × Value)
  | [] => []
  | (k, v) :: es => (k.named, v.named) :: entryNameds es
termination_by structural es => es

end

mutual

/-- Whether the keys of every mapping in a value are different texts. -/
def hasTextKeys : Value → Bool
  | .seq _ _ xs => allHaveTextKeys xs
  | .map _ _ es => es.all (·.1.isText) && decide (Entries.Distinct es) && entriesHaveTextKeys es
  | _ => true
termination_by structural v => v

def allHaveTextKeys : List Value → Bool
  | [] => true
  | v :: vs => hasTextKeys v && allHaveTextKeys vs
termination_by structural vs => vs

def entriesHaveTextKeys : List (Key × Value) → Bool
  | [] => true
  | (_, v) :: es => hasTextKeys v && entriesHaveTextKeys es
termination_by structural es => es

end

section
variable {id : Ident} {seqKind : SeqKind} {mapKind : MapKind} {xs : List Value} {es : Entries Value}

theorem allJson_iff : allJson xs ↔ ∀ x ∈ xs, x.isJson := by
  induction xs with
  | nil => simp [allJson]
  | cons x xs ih => simp [allJson, ih]

theorem entriesJson_iff : entriesJson es ↔ ∀ e ∈ es, e.1.isName ∧ e.2.isJson := by
  induction es with
  | nil => simp [entriesJson]
  | cons e es ih => simp [entriesJson, ih, and_assoc]

theorem allHaveTextKeys_iff : allHaveTextKeys xs ↔ ∀ x ∈ xs, x.hasTextKeys := by
  induction xs with
  | nil => simp [allHaveTextKeys]
  | cons x xs ih => simp [allHaveTextKeys, ih]

theorem entriesHaveTextKeys_iff : entriesHaveTextKeys es ↔ ∀ e ∈ es, e.2.hasTextKeys := by
  induction es with
  | nil => simp [entriesHaveTextKeys]
  | cons e es ih => simp [entriesHaveTextKeys, ih]

theorem isJson_seq : (Value.seq id seqKind xs).isJson ↔ ∀ x ∈ xs, x.isJson := by
  rw [isJson, allJson_iff]

theorem isJson_map : (Value.map id mapKind es).isJson ↔ ∀ e ∈ es, e.1.isName ∧ e.2.isJson := by
  rw [isJson, entriesJson_iff]

theorem hasTextKeys_seq : (Value.seq id seqKind xs).hasTextKeys ↔ ∀ x ∈ xs, x.hasTextKeys := by
  rw [hasTextKeys, allHaveTextKeys_iff]

theorem hasTextKeys_map : (Value.map id mapKind es).hasTextKeys ↔
    (∀ e ∈ es, e.1.isText) ∧ Entries.Distinct es ∧ ∀ e ∈ es, e.2.hasTextKeys := by
  rw [hasTextKeys, Bool.and_eq_true, Bool.and_eq_true, List.all_eq_true, decide_eq_true_iff,
    entriesHaveTextKeys_iff, and_assoc]

theorem named_seq : (Value.seq id seqKind xs).named = .seq 0 .list (xs.map named) := by
  have hxs : nameds xs = xs.map named := by
    induction xs with
    | nil => rfl
    | cons x xs ih => rw [nameds, ih, List.map_cons]
  rw [named, hxs]

theorem named_map : (Value.map id mapKind es).named =
    .map 0 .plain (Entries.putAll [] (es.map fun e => (e.1.named, e.2.named))) := by
  have hes : entryNameds es = es.map fun e => (e.1.named, e.2.named) := by
    induction es with
    | nil => rfl
    | cons e es ih => rw [entryNameds, ih, List.map_cons]
  rw [named, hes]

end

/-- Where all keys are different texts, JSON keeps a value but for the kinds of its containers. -/
theorem named_eq_plain (v : Value) : v.hasTextKeys → v.named = v.plain := by
  induction v using holding with
  | seq id kind xs ih =>
    intro h
    rw [named_seq, plain_seq]
    exact congrArg _ (List.map_congr_left fun x hx => ih x hx (hasTextKeys_seq.1 h x hx))
  | map id kind es ih =>
    intro h
    obtain ⟨htext, hdistinct, hvalues⟩ := hasTextKeys_map.1 h
    have hentries : es.map (fun e => (e.1.named, e.2.named)) = Entries.mapValues plain es := by
      refine List.map_congr_left fun e he => ?_
      rw [Key.named_of_isText (htext e he), ih e he (hvalues e he)]
    have hput : Entries.putAll [] (Entries.mapValues plain es) = Entries.mapValues plain es :=
      Entries.putAll_of_distinct ((Entries.distinct_mapValues plain es).2 hdistinct)
    rw [named_map, plain_map, hentries, hput]
  | deque id xs => exact fun _ => rfl
  | atom v h =>
    intro _
    rw [plain_of_isAtom h]
    cases v <;> first | rfl | cases h

end Value

namespace Json.Document
variable {o : Options}

mutual

/-- A value that can be written becomes a readable document, and that becomes its named form. -/
theorem settled_named (ho : o.allowNan ∧ o.sortKeys = false) : ∀ v : Value, v.isJson →
    ∃ d, settled o v = pure d ∧ d.isReadable ∧ ∀ next, (d.toValue next).1.shape = v.named
  | .none, _ => ⟨.null, rfl, rfl, fun _ => rfl⟩
  | .bool b, _ => ⟨.bool b, rfl, rfl, fun _ => rfl⟩
  | .text s, _ => ⟨.text s.toList, rfl, rfl, fun _ => by simp [toValue, Value.named, Value.shape]⟩
  | .int n, h => by
    have hn : Numeral.tooLong n = false := by simpa [Value.isJson] using h
    refine ⟨.int n, ?_, h, fun _ => rfl⟩
    show (do return Document.int (← Update.lift (checkedInt n))) = _
    rw [checkedInt, hn]
    rfl
  | .float x, _ => by
    refine ⟨.float x, ?_, rfl, fun _ => rfl⟩
    show (do return Document.float (← Update.lift (checkedDouble o x))) = _
    rw [checkedDouble, ho.1, Bool.or_true]
    rfl
  | .seq id kind xs, h => by
    obtain ⟨ds, hds, hreadable, hshape⟩ := settledItems_named ho xs h
    refine ⟨.array ds, by rw [settled_seq, hds]; rfl, hreadable, fun next => ?_⟩
    have hvalue : ((Document.array ds).toValue next).1 =
        .seq (toValues ds next).2 .list (toValues ds next).1 := rfl
    rw [hvalue, Value.shape_seq, hshape next, Value.named]
  | .map id kind es, h => by
    obtain ⟨ms, hms, hempty, hreadable, hshape⟩ := members_named ho es h
    have harranged : arranged o (Entries.mapValues (settled o) es) =
        .ok (Entries.mapValues (settled o) es) := by
      simp [arranged, ho.2]
    have hlength : (Entries.mapValues (settled o) es).isEmpty = es.isEmpty := by
      cases es <;> rfl
    refine ⟨.object ms, ?_, hreadable, fun next => ?_⟩
    · rw [settled_map, objectOf, harranged, Update.lift_ok_bind, hms, pure_bind, hlength, hempty,
        Bool.and_not_self]
      rfl
    · have hvalue : ((Document.object ms).toValue next).1 =
          .map (toEntries ms next).2 .plain (Entries.putAll [] (toEntries ms next).1) := rfl
      rw [hvalue, Value.shape_map, ← Entries.putAll_mapValues, hshape next, Value.named]
      rfl
  | .bytes .., h | .buffer .., h | .range .., h | .set .., h | .frozenSet .., h | .deque .., h
  | .factory .., h | .runner .., h => by cases h

theorem settledItems_named (ho : o.allowNan ∧ o.sortKeys = false) :
    ∀ xs : List Value, Value.allJson xs →
    ∃ ds, settledItems o xs = pure ds ∧ allReadable ds ∧
      ∀ next, (toValues ds next).1.map Value.shape = Value.nameds xs
  | [], _ => ⟨[], rfl, rfl, fun _ => rfl⟩
  | x :: xs, h => by
    obtain ⟨hx, hxs⟩ := (Bool.and_eq_true _ _).mp h
    obtain ⟨d, hd, hreadable, hshape⟩ := settled_named ho x hx
    obtain ⟨ds, hds, hreadables, hshapes⟩ := settledItems_named ho xs hxs
    refine ⟨d :: ds, by rw [settledItems_cons, hd, hds]; rfl, ?_, fun next => ?_⟩
    · rw [allReadable, hreadable, hreadables]
      rfl
    · rw [Value.nameds, ← hshape next, ← hshapes (d.toValue next).2]
      rfl

/-- The members that the entries of a mapping become, none of them left out. -/
theorem members_named (ho : o.allowNan ∧ o.sortKeys = false) :
    ∀ es : List (Key × Value), Value.entriesJson es →
    ∃ ms, members o (Entries.mapValues (settled o) es) = pure ms ∧ ms.isEmpty = es.isEmpty ∧
      membersReadable ms ∧
      ∀ next, Entries.mapValues Value.shape (toEntries ms next).1 = Value.entryNameds es
  | [], _ => ⟨[], rfl, rfl, rfl, fun _ => rfl⟩
  | (k, v) :: es, h => by
    obtain ⟨hkv, hes⟩ := (Bool.and_eq_true _ _).mp h
    obtain ⟨hk, hv⟩ := (Bool.and_eq_true _ _).mp hkv
    obtain ⟨d, hd, hreadable, hshape⟩ := settled_named ho v hv
    obtain ⟨ms, hms, -, hreadables, hshapes⟩ := members_named ho es hes
    refine ⟨(k.name, d) :: ms, ?_, rfl, ?_, fun next => ?_⟩
    · show members o ((k, settled o v) :: Entries.mapValues (settled o) es) = _
      rw [members, Key.memberName_eq ho.1 hk, hd, hms]
      rfl
    · rw [membersReadable, hreadable, hreadables]
      rfl
    · rw [Value.entryNameds, ← hshape next, ← hshapes (d.toValue next).2]
      rfl

end

end Json.Document

end Amend
