import Amend.Proofs.Data
import Amend.Proofs.Mappings
import Amend.Proofs.Opened
import Amend.Proofs.RoundTrip

/-!
# What JSON accepts, and what it keeps

`Value.Accepted` says of one place of a value that JSON can write what stands there: it is a scalar
or is opened, and has scalars for keys. A value with no integer that is too long is written if all
its places are accepted, and is refused for its type else (`Json.Document.isJson_or_refused`). What
is read back is the thawed value in its named form, which is data again (`Value.isData_named`). Main
statement: `toJson_outcome`.
-/

namespace Amend

namespace Key

def isScalar : Key → Bool
  | .none | .bool _ | .int _ | .float _ | .text _ => true
  | _ => false

def hasShortInt : Key → Bool
  | .int n => !Numeral.tooLong n
  | _ => true

theorem isName_iff (k : Key) : k.isName ↔ k.isScalar ∧ k.hasShortInt := by
  cases k <;> simp [isName, isScalar, hasShortInt]

end Key

namespace Value

def isScalar : Value → Bool
  | .none | .bool _ | .int _ | .float _ | .text _ => true
  | _ => false

def hasShortInt : Value → Bool
  | .int n => !Numeral.tooLong n
  | _ => true

/-- Whether JSON can write what stands at a place: a scalar, or a container that is opened, with
scalars for keys. -/
def Accepted (v : Value) : Prop :=
  (v.isOpened = false → v.isScalar) ∧ ∀ k ∈ v.entries.keys, k.isScalar

/-- Whether no integer at a place, or among the keys there, is too long. -/
def HasShortInts (v : Value) : Prop := v.hasShortInt ∧ ∀ k ∈ v.entries.keys, k.hasShortInt

theorem accepted_of_no_keys {v : Value} (h : v.entries = []) :
    v.Accepted ↔ (v.isOpened = false → v.isScalar) := by
  unfold Accepted
  rw [h]
  exact and_iff_left (List.forall_mem_nil _)

theorem hasShortInts_of_no_keys {v : Value} (h : v.entries = []) :
    v.HasShortInts ↔ v.hasShortInt := by
  unfold HasShortInts
  rw [h]
  exact and_iff_left (List.forall_mem_nil _)

theorem isJson_iff_opened (v : Value) :
    v.isJson ↔ (v.Accepted ∧ v.HasShortInts) ∧ ∀ c ∈ v.opened, c.isJson := by
  cases v with
  | seq id kind xs =>
    rw [isJson_seq, accepted_of_no_keys rfl, hasShortInts_of_no_keys rfl, opened]
    simp [isOpened, hasShortInt]
  | map id kind es =>
    have haccepted : (Value.map id kind es).Accepted ↔ ∀ e ∈ es, e.1.isScalar := by
      simp [Accepted, isOpened, entries, Entries.keys]
    have hshort : (Value.map id kind es).HasShortInts ↔ ∀ e ∈ es, e.1.hasShortInt := by
      simp [HasShortInts, hasShortInt, entries, Entries.keys]
    rw [isJson_map, haccepted, hshort, opened, List.forall_mem_map]
    constructor
    · intro h
      have hname (e : Key × Value) (he : e ∈ es) := e.1.isName_iff.1 (h e he).1
      exact ⟨⟨fun e he => (hname e he).1, fun e he => (hname e he).2⟩, fun e he => (h e he).2⟩
    · rintro ⟨⟨hscalar, hint⟩, hjson⟩ e he
      exact ⟨e.1.isName_iff.2 ⟨hscalar e he, hint e he⟩, hjson e he⟩
  | _ =>
    rw [accepted_of_no_keys rfl, hasShortInts_of_no_keys rfl]
    simp [isJson, isOpened, isScalar, hasShortInt, opened]

/-- What can be written is what is accepted at every place and has no integer that is too long. -/
theorem isJson_iff (v : Value) :
    v.isJson ↔ v.Everywhere Accepted ∧ v.Everywhere HasShortInts := by
  induction v using opening with
  | h v ih =>
    rw [isJson_iff_opened, everywhere_iff, everywhere_iff, and_and_and_comm, ← forall₂_and]
    exact and_congr_right fun _ => forall₂_congr ih

section
variable (seq : SeqKind) (map : MapKind)

mutual

/-- A copy has the named form of its source. -/
theorem named_copyAs : ∀ (v : Value) (next : Ident), (v.copyAs seq map next).1.named = v.named
  | .map id kind es, next => by
    have hes := entryNameds_copyEntriesAs es next
    simp only [copyAs, Making.bind_apply, Making.pure_apply, named, hes]
  | .seq id kind xs, next => by
    have hxs := nameds_copyItemsAs xs next
    simp only [copyAs, Making.bind_apply, Making.pure_apply, named, hxs]
  | .none, _ | .bool _, _ | .int _, _ | .float _, _ | .text _, _ | .bytes .., _ | .buffer .., _
  | .range .., _ | .set .., _ | .frozenSet .., _ | .deque .., _ | .factory .., _
  | .runner .., _ => rfl

theorem nameds_copyItemsAs : ∀ (xs : List Value) (next : Ident),
    nameds (copyItemsAs seq map xs next).1 = nameds xs
  | [], _ => rfl
  | x :: xs, next => by
    have hx := named_copyAs x next
    have hxs := nameds_copyItemsAs xs (x.copyAs seq map next).2
    simp only [copyItemsAs, Making.bind_apply, Making.pure_apply, nameds, hx, hxs]

theorem entryNameds_copyEntriesAs : ∀ (es : List (Key × Value)) (next : Ident),
    entryNameds (copyEntriesAs seq map es next).1 = entryNameds es
  | [], _ => rfl
  | (k, v) :: es, next => by
    have hv := named_copyAs v next
    have hes := entryNameds_copyEntriesAs es (v.copyAs seq map next).2
    simp only [copyEntriesAs, Making.bind_apply, Making.pure_apply, entryNameds, hv, hes]

end

end

end Value

namespace Json
open Update (lift)

/-- Whether an update fails at once, and for a type. -/
def Refused {α : Type} (u : Update α) : Prop := ∃ fault, u = throw fault ∧ fault.category = .type

theorem Refused.bind {α β : Type} {u : Update α} (h : Refused u) (f : α → Update β) :
    Refused (u >>= f) := by
  obtain ⟨fault, rfl, htype⟩ := h
  exact ⟨fault, rfl, htype⟩

variable {o : Options}

theorem isName_or_refused (ho : o.skipKeys = false) {k : Key} (h : k.hasShortInt) :
    k.isName ∨ Refused (lift (memberName o k)) := by
  rcases hk : k.isScalar with - | -
  · have hother : memberName o k =
        if o.skipKeys then .ok none else .error (.keyNotWritable k.kind) := by
      cases k <;> first | rfl | cases hk
    rw [hother, ho]
    exact .inr ⟨_, rfl, rfl⟩
  · exact .inl (k.isName_iff.2 ⟨hk, h⟩)

namespace Document

theorem allJson_or_refused (ho : o.allowNan ∧ o.sortKeys = false) {xs : List Value}
    (h : ∀ x ∈ xs, x.isJson ∨ Refused (settled o x)) :
    (∀ x ∈ xs, x.isJson) ∨ Refused (settledItems o xs) := by
  induction xs with
  | nil => exact .inl (List.forall_mem_nil _)
  | cons x xs ih =>
    obtain ⟨hx, hxs⟩ := List.forall_mem_cons.1 h
    rw [settledItems_cons]
    rcases hx with hx | hx
    · obtain ⟨d, hd, -⟩ := settled_named ho x hx
      rcases ih hxs with hrest | hrest
      · exact .inl (List.forall_mem_cons.2 ⟨hx, hrest⟩)
      · rw [hd, pure_bind]
        exact .inr (hrest.bind _)
    · exact .inr (hx.bind _)

theorem entriesJson_or_refused (ho : o.allowNan ∧ o.sortKeys = false) (hskip : o.skipKeys = false)
    {es : Entries Value}
    (h : ∀ e ∈ es, e.1.hasShortInt ∧ (e.2.isJson ∨ Refused (settled o e.2))) :
    (∀ e ∈ es, e.1.isName ∧ e.2.isJson) ∨ Refused (members o (es.mapValues (settled o))) := by
  induction es with
  | nil => exact .inl (List.forall_mem_nil _)
  | cons e es ih =>
    obtain ⟨k, v⟩ := e
    obtain ⟨⟨hk, hv⟩, hes⟩ := List.forall_mem_cons.1 h
    change _ ∨ Refused (members o ((k, settled o v) :: Entries.mapValues (settled o) es))
    rw [members]
    rcases isName_or_refused hskip hk with hk | hk
    · rw [Key.memberName_eq ho.1 hk, Update.lift_ok_bind]
      rcases hv with hv | hv
      · obtain ⟨d, hd, -⟩ := settled_named ho v hv
        rcases ih hes with hrest | hrest
        · exact .inl (List.forall_mem_cons.2 ⟨⟨hk, hv⟩, hrest⟩)
        · simp only [hd, pure_bind]
          exact .inr (hrest.bind _)
      · exact .inr (hv.bind _)
    · exact .inr (hk.bind _)

/-- A value with no integer that is too long can be written, or is refused for a type. -/
theorem isJson_or_refused (ho : o.allowNan ∧ o.sortKeys = false) (hskip : o.skipKeys = false)
    {v : Value} (h : v.Everywhere Value.HasShortInts) : v.isJson ∨ Refused (settled o v) := by
  induction v using Value.opening with
  | h v ih =>
    obtain ⟨hv, hopened⟩ := Value.everywhere_iff.1 h
    cases v with
    | seq id kind xs =>
      rw [Value.isJson_seq, settled_seq]
      rcases allJson_or_refused ho fun x hx => ih x hx (hopened x hx) with hxs | hxs
      · exact .inl hxs
      · exact .inr (hxs.bind _)
    | map id kind es =>
      have hentries : ∀ e ∈ es, e.1.hasShortInt ∧ (e.2.isJson ∨ Refused (settled o e.2)) := by
        intro e he
        have hmem : e.2 ∈ es.map Prod.snd := List.mem_map_of_mem he
        exact ⟨hv.2 e.1 (List.mem_map_of_mem he), ih e.2 hmem (hopened e.2 hmem)⟩
      have harranged (docs : Entries (Update Document)) : arranged o docs = .ok docs := by
        simp [arranged, ho.2]
      rw [Value.isJson_map, settled_map, objectOf, harranged, Update.lift_ok_bind]
      rcases entriesJson_or_refused ho hskip hentries with hes | hes
      · exact .inl hes
      · exact .inr (hes.bind _)
    | none | bool | float | text => exact .inl rfl
    | int n => exact .inl hv.1
    | _ => exact .inr ⟨_, rfl, rfl⟩

end Document

/-- Without options, what is refused as a document is refused. -/
theorem Refused.settledText [Machine] {v : Value}
    (h : Refused (Document.settled (Settings.options {}) v)) : Refused (settledText {} v) := by
  cases v with
  | text s =>
    obtain ⟨fault, hfault, -⟩ := h
    cases congrFun hfault ⟨0, []⟩
  | _ => exact h.bind fun d => do
      lift (Settings.checkNames {} d)
      return String.ofList (d.render (Settings.layout {} none))

theorem isJson_or_toJson_refused [Host] {v : Value} (h : v.Everywhere Value.HasShortInts) :
    v.isJson ∨ ∃ fault, (∀ next, ((toJson [] v).exec next).1 = .error fault) ∧
      fault.category = .type := by
  have ho : (Settings.options {}).allowNan ∧ (Settings.options {}).sortKeys = false := ⟨rfl, rfl⟩
  rcases Document.isJson_or_refused ho rfl h with hv | hv
  · exact .inl hv
  · obtain ⟨fault, hfault, htype⟩ := hv.settledText
    refine .inr ⟨fault, fun next => ?_, htype⟩
    rw [Update.exec, toJson_apply (List.forall_mem_nil _) rfl rfl, hfault, Update.throw_apply]

end Json

open Json in
/-- A value with no integer that is too long is written, without options, just if every place holds
a scalar or a container that is opened, with scalars for keys; else it is refused for a type. It is
read back as its thawed form with every key replaced by the text that names the member, and from
then on writing and reading changes nothing. -/
theorem toJson_outcome [Host] {v : Value} (hshort : v.Everywhere Value.HasShortInts)
    (next : Ident) :
    let written := ((toJson [] v).exec next).1
    ((∃ text, written = .ok text) ↔ v.Everywhere Value.Accepted) ∧
    (∀ fault, written = .error fault → fault.category = .type) ∧
    ∀ text, written = .ok text → ∀ next₁, ∃ w trace,
      (ofJson (.text text)).exec next₁ = (.ok w, trace) ∧
      (∀ next', w.shape = (v.thaw next').1.named) ∧
      ∃ text', (∀ next₂, ((toJson [] w).exec next₂).1 = .ok text') ∧ ∀ next', ∃ w' trace',
        (ofJson (.text text')).exec next' = (.ok w', trace') ∧ w'.shape = w.shape := by
  intro written
  have hjson : (∃ text, written = .ok text) → v.isJson := by
    rintro ⟨text, htext⟩
    rcases isJson_or_toJson_refused hshort with hv | ⟨fault, hfault, -⟩
    · exact hv
    · cases htext.symm.trans (hfault next)
  refine ⟨⟨fun h => (v.isJson_iff.1 (hjson h)).1, fun h => ?_⟩, fun fault hfault => ?_,
    fun text htext next₁ => ?_⟩
  · obtain ⟨text, htext, -⟩ := ofJson_toJson_named (v.isJson_iff.2 ⟨h, hshort⟩)
    exact ⟨text, htext next⟩
  · rcases isJson_or_toJson_refused hshort with hv | ⟨fault', hfault', htype⟩
    · obtain ⟨text, htext, -⟩ := ofJson_toJson_named hv
      cases hfault.symm.trans (htext next)
    · cases hfault.symm.trans (hfault' next)
      exact htype
  · have hv := hjson ⟨text, htext⟩
    obtain ⟨text₁, htext₁, hread⟩ := ofJson_toJson_named hv
    obtain rfl := Except.ok.inj ((htext₁ next).symm.trans htext)
    obtain ⟨w, trace, hw, hshape⟩ := hread next₁
    -- what was read is data, of which JSON keeps all
    have hdata : w.isData := by
      rw [← Value.isData_shape, hshape]
      exact Value.isData_named v hv
    obtain ⟨text₂, htext₂, hread₂⟩ := ofJson_toJson_named (Value.isData_iff.1 hdata).1
    refine ⟨w, trace, hw, fun next' => ?_, text₂, htext₂, fun next' => ?_⟩
    · rw [hshape, Value.thaw_eq_copyAs, Value.named_copyAs]
    · obtain ⟨w', trace', hw', hshape'⟩ := hread₂ next'
      exact ⟨w', trace', hw', hshape'.trans (Value.named_of_isData hdata)⟩

attribute [local instance] Host.standard in
/-- A number and a text name the same member, which stands where the number stood and holds what the
text held. -/
theorem toJson_outcome_members :
    let v := Value.map 0 .wrapped [(.int 1, .text "a"),
      (.none, .seq 1 (.tuple .point) [.float .nan, .int 2]), (.text "1", .bool true)]
    v.Everywhere Value.HasShortInts ∧ ∃ text w trace, ((toJson [] v).exec 2).1 = .ok text ∧
      (ofJson (.text text)).exec 2 = (.ok w, trace) ∧
      w.shape = .map 0 .plain [(.text "1", .bool true),
        (.text "null", .seq 0 .list [.float .nan, .int 2])] := by
  intro v
  have hjson : v.isJson := by decide
  obtain ⟨haccepted, hshort⟩ := v.isJson_iff.1 hjson
  obtain ⟨hiff, -, hread⟩ := toJson_outcome hshort 2
  obtain ⟨text, htext⟩ := hiff.2 haccepted
  obtain ⟨w, trace, hw, hshape, -⟩ := hread text htext 2
  have hnamed : (v.thaw 2).1.named = .map 0 .plain [(.text "1", .bool true),
      (.text "null", .seq 0 .list [.float .nan, .int 2])] := by
    rfl
  exact ⟨hshort, text, w, trace, htext, hw, (hshape 2).trans hnamed⟩

namespace Json

/-- A row of codes as a text of an ASCII document. A code that is no character, such as half a pair
by itself, is escaped as it is. -/
def writtenCodes (codes : List Nat) : List Char :=
  let written (code : Nat) : List Char :=
    if code.isValidChar then writtenChar true (Char.ofNat code) else codeEscape code
  '"' :: codes.flatMap written ++ ['"']

/-- A text is written as the row of its codes. -/
theorem writtenCodes_toNat (s : List Char) :
    writtenCodes (s.map Char.toNat) = writtenText true s := by
  have hvalid (c : Char) : c.toNat.isValidChar := c.valid
  simp [writtenCodes, writtenText, List.flatMap_map, hvalid, Char.ofNat_toNat]

/-- The two halves of a pair, each a code by itself, are written as the character that they make a
pair of. -/
theorem writtenCodes_halves : writtenCodes [0xD800, 0xDC00] = writtenCodes [0x10000] := by
  have hhigh : ¬ Nat.isValidChar 0xD800 := by decide
  have hlow : ¬ Nat.isValidChar 0xDC00 := by decide
  have hpair : codeEscape 0xD800 ++ codeEscape 0xDC00 = codeEscape 0x10000 := rfl
  simp [writtenCodes, writtenChar, shortEscape?, hhigh, hlow, ← hpair]

/-- The name of a member that is no row of characters is read back as another name, and one that
sorts after the name of the next member and no longer before it. -/
theorem ofJson_writtenCodes_halves :
    let halves := [0xD800, 0xDC00]
    let name := [Char.ofNat 0x10000]
    let last := [Char.ofNat 0xFFFF]
    let text := '\x7b' :: writtenCodes halves ++ ": 1, ".toList ++ writtenText true last ++
      ": 2\x7d".toList
    halves < last.map Char.toNat ∧ last.map Char.toNat < name.map Char.toNat ∧
      ∀ next, (ofJson (.text (String.ofList text))).exec next =
        (.ok (.map next .plain [(.text (String.ofList name), .int 1),
          (.text (String.ofList last), .int 2)]), ⟨next + 1, []⟩) := by
  intro halves name last text
  refine ⟨by decide, by decide, fun next => ?_⟩
  let l : Layout := ⟨none, ", ".toList, ": ".toList, true⟩
  have hblank : Reader.Blank [' '] := List.forall_mem_singleton.2 rfl
  have hl : l.IsReadable :=
    ⟨padded_of_blank hblank, padded_of_blank hblank, fun _ => List.forall_mem_nil _⟩
  let d : Document := .object [(name, .int 1), (last, .int 2)]
  have htext : text = d.render l := by
    have hhalves : writtenCodes halves = writtenText true name :=
      writtenCodes_halves.trans (writtenCodes_toNat name)
    have hone : Numeral.ofInt 1 = ['1'] := rfl
    have htwo : Numeral.ofInt 2 = ['2'] := rfl
    simp [text, d, l, hhalves, hone, htwo, Document.render, Document.renderAt,
      Document.renderMembers, Layout.enclosed, Layout.newline]
  let es : Entries Value :=
    [(.text (String.ofList name), .int 1), (.text (String.ofList last), .int 2)]
  have hdistinct : es.Distinct := by
    have hne : name ≠ last := by decide
    simpa [es, Entries.Distinct, Key.same_text_iff] using fun h => hne (String.ofList_injective h)
  have hentries : Entries.putAll [] es = es := Entries.putAll_of_distinct hdistinct
  have hread := exec_ofJson (Document.readsBack_renderAt hl d 0 rfl) next
  change (ofJson (.text (String.ofList text))).exec next = (.ok (.map next .plain es), _)
  rw [htext, ← hentries]
  exact hread

end Json

end Amend
