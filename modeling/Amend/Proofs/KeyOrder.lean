import Amend.Proofs.Named

/-!
# Mappings in the order of their keys

`Value.sortKeys` puts the entries of every mapping in the order of their keys: the same entries
(`Entries.sorted_perm`), by code point where the keys are texts (`Value.everywhere_sortKeys`). To
write a value with sorted keys is to write the value that is so ordered
(`Document.settled_sortKeys`). Main statement (`Document.settled_textKeys`): what is then read back.
-/

namespace Amend

namespace Entries
variable {α β : Type} {es : Entries α}

/-- Entries in the order of their keys. -/
def sorted (es : Entries α) : Entries α := es.mergeSort fun a b => Key.textAtMost a.1 b.1

theorem sorted_perm (es : Entries α) : es.sorted.Perm es := List.mergeSort_perm ..

theorem sorted_mapValues (f : α → β) (es : Entries α) :
    (es.mapValues f).sorted = es.sorted.mapValues f := by
  refine (List.map_mergeSort fun a _ b _ => ?_).symm
  rfl

theorem exists_texts (htext : ∀ e ∈ es, e.1.isText) :
    ∃ rows : List (String × α), es = rows.map fun row => (.text row.1, row.2) := by
  induction es with
  | nil => exact ⟨[], rfl⟩
  | cons e es ih =>
    obtain ⟨he, hes⟩ := List.forall_mem_cons.1 htext
    obtain ⟨rows, rfl⟩ := ih hes
    obtain ⟨k, a⟩ := e
    cases k with
    | text s => exact ⟨(s, a) :: rows, rfl⟩
    | _ => cases he

/-- Entries whose keys are texts are sorted by code point. -/
theorem sorted_pairwise (htext : ∀ e ∈ es, e.1.isText) :
    es.sorted.Pairwise fun a b => Key.textAtMost a.1 b.1 := by
  -- `textAtMost` orders texts alone, so the entries are sorted by what their keys hold
  obtain ⟨rows, rfl⟩ := exists_texts htext
  have hmap : sorted (rows.map fun row => (Key.text row.1, row.2)) =
      (rows.mergeSort fun a b => decide (a.1 ≤ b.1)).map fun row => (Key.text row.1, row.2) := by
    refine (List.map_mergeSort fun a _ b _ => ?_).symm
    simp only [Key.textAtMost, ← String.not_lt, decide_not]
  have hpairwise : (rows.mergeSort fun a b => decide (a.1 ≤ b.1)).Pairwise
      fun a b => decide (a.1 ≤ b.1) := by
    refine List.pairwise_mergeSort (fun a b c hab hbc => ?_) (fun a b => ?_) rows
    · rw [decide_eq_true_iff] at hab hbc ⊢
      exact String.le_trans hab hbc
    · simpa using String.le_total a.1 b.1
  rw [hmap, List.pairwise_map]
  refine hpairwise.imp fun {a b} hab => ?_
  rw [decide_eq_true_iff, ← String.not_lt] at hab
  simp only [Key.textAtMost, hab, decide_false, Bool.not_false]

end Entries

namespace Value

mutual

/-- A value with the entries of every mapping in the order of their keys. -/
def sortKeys : Value → Value
  | .seq id kind xs => .seq id kind (allSortKeys xs)
  | .map id kind es => .map id kind (Entries.sorted (entriesSortKeys es))
  | v => v
termination_by structural v => v

def allSortKeys : List Value → List Value
  | [] => []
  | v :: vs => v.sortKeys :: allSortKeys vs
termination_by structural vs => vs

def entriesSortKeys : List (Key × Value) → List (Key × Value)
  | [] => []
  | (k, v) :: es => (k, v.sortKeys) :: entriesSortKeys es
termination_by structural es => es

end

section
variable {id : Ident} {v : Value}

theorem sortKeys_seq {kind : SeqKind} {xs : List Value} :
    (Value.seq id kind xs).sortKeys = .seq id kind (xs.map sortKeys) := by
  have hxs : allSortKeys xs = xs.map sortKeys := by
    induction xs with
    | nil => rfl
    | cons x xs ih => rw [allSortKeys, ih, List.map_cons]
  rw [sortKeys, hxs]

theorem sortKeys_map {kind : MapKind} {es : Entries Value} :
    (Value.map id kind es).sortKeys = .map id kind (es.mapValues sortKeys).sorted := by
  have hes : entriesSortKeys es = es.mapValues sortKeys := by
    induction es with
    | nil => rfl
    | cons e es ih => rw [entriesSortKeys, ih]; rfl
  rw [sortKeys, hes]

theorem sortKeys_of_isAtom (h : v.isAtom) : v.sortKeys = v := by
  cases v <;> first | rfl | cases h

/-- The keys of a mapping stand in the order of their code points. -/
def HasSortedKeys : Value → Prop
  | .map _ _ es => es.Pairwise fun a b => Key.textAtMost a.1 b.1
  | _ => True

theorem opened_plain (v : Value) : v.plain.opened = v.opened.map plain := by
  cases v with
  | seq id kind xs => rw [plain_seq, opened, opened]
  | map id kind es =>
    rw [plain_map, opened, opened, Entries.mapValues, List.map_map, List.map_map]
    rfl
  | _ => rfl

theorem hasSortedKeys_plain (v : Value) : v.plain.HasSortedKeys ↔ v.HasSortedKeys := by
  cases v with
  | map id kind es =>
    rw [plain_map, HasSortedKeys, HasSortedKeys, Entries.mapValues, List.pairwise_map]
  | _ => rfl

theorem everywhere_plain (v : Value) :
    v.plain.Everywhere HasSortedKeys ↔ v.Everywhere HasSortedKeys := by
  induction v using opening with
  | h v ih =>
    rw [everywhere_iff, everywhere_iff, hasSortedKeys_plain, opened_plain, List.forall_mem_map]
    exact and_congr_right fun _ => forall₂_congr ih

/-- A value whose keys are texts has them in order once they are sorted. -/
theorem everywhere_sortKeys (v : Value) :
    v.hasTextKeys → v.sortKeys.Everywhere HasSortedKeys := by
  induction v using holding with
  | seq id kind xs ih =>
    intro h
    rw [sortKeys_seq, everywhere_iff]
    refine ⟨trivial, List.forall_mem_map.2 fun x hx => ?_⟩
    exact ih x hx (hasTextKeys_seq.1 h x hx)
  | map id kind es ih =>
    intro h
    obtain ⟨htext, -, hvalues⟩ := hasTextKeys_map.1 h
    rw [sortKeys_map, everywhere_iff]
    constructor
    · exact Entries.sorted_pairwise (List.forall_mem_map.2 htext)
    · rw [Entries.sorted_mapValues, opened, Entries.mapValues, List.map_map]
      refine List.forall_mem_map.2 fun e he => ?_
      have hmem : e ∈ es := (Entries.sorted_perm es).mem_iff.1 he
      exact ih e hmem (hvalues e hmem)
  | deque id xs => exact fun _ => everywhere_iff.2 ⟨trivial, List.forall_mem_nil _⟩
  | atom v h =>
    intro _
    rw [sortKeys_of_isAtom h, everywhere_iff]
    cases v <;> first | exact ⟨trivial, List.forall_mem_nil _⟩ | cases h

end

theorem isJson_sortKeys (v : Value) : v.isJson → v.sortKeys.isJson := by
  induction v using holding with
  | seq id kind xs ih =>
    intro h
    rw [sortKeys_seq, isJson_seq]
    exact List.forall_mem_map.2 fun x hx => ih x hx (isJson_seq.1 h x hx)
  | map id kind es ih =>
    intro h
    rw [sortKeys_map, isJson_map, Entries.sorted_mapValues]
    refine List.forall_mem_map.2 fun e he => ?_
    have hmem : e ∈ es := (Entries.sorted_perm es).mem_iff.1 he
    obtain ⟨hk, hv⟩ := isJson_map.1 h e hmem
    exact ⟨hk, ih e hmem hv⟩
  | deque id xs => exact fun h => h
  | atom v h =>
    intro hv
    rwa [sortKeys_of_isAtom h]

theorem hasTextKeys_sortKeys (v : Value) : v.hasTextKeys → v.sortKeys.hasTextKeys := by
  induction v using holding with
  | seq id kind xs ih =>
    intro h
    rw [sortKeys_seq, hasTextKeys_seq]
    exact List.forall_mem_map.2 fun x hx => ih x hx (hasTextKeys_seq.1 h x hx)
  | map id kind es ih =>
    intro h
    obtain ⟨htext, hdistinct, hvalues⟩ := hasTextKeys_map.1 h
    rw [sortKeys_map, hasTextKeys_map, Entries.sorted_mapValues]
    refine ⟨?_, ?_, ?_⟩
    · refine List.forall_mem_map.2 fun e he => ?_
      exact htext e ((Entries.sorted_perm es).mem_iff.1 he)
    · refine (Entries.distinct_mapValues _ _).2 ?_
      exact hdistinct.perm (Entries.sorted_perm es).symm fun hab hba => hab hba.symm
    · refine List.forall_mem_map.2 fun e he => ?_
      have hmem : e ∈ es := (Entries.sorted_perm es).mem_iff.1 he
      exact ih e hmem (hvalues e hmem)
  | deque id xs => exact fun h => h
  | atom v h =>
    intro hv
    rwa [sortKeys_of_isAtom h]

end Value

namespace Json
variable {o : Options}

theorem memberName_unsorted (o : Options) (k : Key) :
    memberName { o with sortKeys := false } k = memberName o k := by
  cases k <;> rfl

theorem members_unsorted (o : Options) (es : Entries (Update Document)) :
    members { o with sortKeys := false } es = members o es := by
  induction es with
  | nil => rfl
  | cons e es ih =>
    obtain ⟨k, d⟩ := e
    simp only [members, memberName_unsorted, ih]

namespace Document

theorem settledItems_sortKeys {xs : List Value} (h : ∀ x ∈ xs,
    settled { o with sortKeys := false } x.sortKeys = settled o x) :
    settledItems { o with sortKeys := false } (xs.map Value.sortKeys) = settledItems o xs := by
  induction xs with
  | nil => rfl
  | cons x xs ih =>
    obtain ⟨hx, hxs⟩ := List.forall_mem_cons.1 h
    rw [List.map_cons, settledItems_cons, settledItems_cons, hx, ih hxs]

/-- To write a value with sorted keys is to write, as it stands, the value with its keys sorted. -/
theorem settled_sortKeys (ho : o.sortKeys) (v : Value) : v.hasTextKeys →
    settled { o with sortKeys := false } v.sortKeys = settled o v := by
  induction v using Value.holding with
  | seq id kind xs ih =>
    intro h
    rw [Value.sortKeys_seq, settled_seq, settled_seq,
      settledItems_sortKeys fun x hx => ih x hx (Value.hasTextKeys_seq.1 h x hx)]
  | map id kind es ih =>
    intro h
    obtain ⟨htext, -, hvalues⟩ := Value.hasTextKeys_map.1 h
    generalize hdocs : Entries.mapValues (settled o) es = docs
    have hwritten : Entries.mapValues (settled { o with sortKeys := false })
        (Entries.sorted (Entries.mapValues Value.sortKeys es)) = Entries.sorted docs := by
      rw [← Entries.sorted_mapValues, Entries.mapValues_mapValues, ← hdocs]
      exact congrArg _ (Entries.mapValues_congr fun e he => ih e he (hvalues e he))
    have hsorted : arranged o docs = .ok (Entries.sorted docs) := by
      have htexts : docs.all (·.1.isText) := by
        rw [← hdocs, Entries.mapValues, List.all_map, List.all_eq_true]
        exact htext
      simp only [arranged, ho, if_true, Key.sortEntries, htexts, Entries.sorted]
    have hempty := Entries.isEmpty_eq_of_length_eq (Entries.sorted_perm docs).length_eq
    have harranged : arranged { o with sortKeys := false } (Entries.sorted docs) =
        .ok (Entries.sorted docs) := rfl
    rw [Value.sortKeys_map, settled_map, settled_map, hwritten, hdocs, objectOf, objectOf, hsorted,
      harranged, Update.lift_ok_bind, Update.lift_ok_bind, members_unsorted, hempty]
  | deque id xs => exact fun _ => rfl
  | atom v h =>
    intro _
    rw [Value.sortKeys_of_isAtom h]
    cases v <;> first | rfl | cases h

/-- A value whose keys are different texts becomes a readable document, and that becomes its plain
form, with sorted keys if the options ask for them. -/
theorem settled_textKeys (hnan : o.allowNan) {v : Value} (hjson : v.isJson)
    (hkeys : v.hasTextKeys) : ∃ d, settled o v = pure d ∧ d.isReadable ∧
      ∀ next, (d.toValue next).1.shape = (if o.sortKeys then v.sortKeys else v).plain := by
  by_cases hsort : o.sortKeys
  · have ho : ({ o with sortKeys := false } : Options).allowNan ∧ false = false := ⟨hnan, rfl⟩
    obtain ⟨d, hd, hreadable, hshape⟩ :=
      settled_named ho v.sortKeys (v.isJson_sortKeys hjson)
    rw [settled_sortKeys hsort v hkeys] at hd
    rw [Value.named_eq_plain _ (v.hasTextKeys_sortKeys hkeys)] at hshape
    exact ⟨d, hd, hreadable, by rwa [if_pos hsort]⟩
  · obtain ⟨d, hd, hreadable, hshape⟩ := settled_named ⟨hnan, by simpa using hsort⟩ v hjson
    rw [Value.named_eq_plain _ hkeys] at hshape
    exact ⟨d, hd, hreadable, by rwa [if_neg hsort]⟩

end Document

end Json

end Amend
