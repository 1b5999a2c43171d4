import Amend.Proofs.Opened
import Amend.Proofs.Outcome

/-!
# Texts that no call takes part in

Without a class of encoders and a function for what has no JSON form (`CallsNothing`), a text is
written without a call. The copy that is written is a tree of new objects, and no object of a tree
is met within itself: the ones around a value were made after those in it (`Surround`). What is
left is `Document.settled`, the document of the plain form of a value, for which identities do not
matter.
Main statements: a text is the settled one (`toJson_eq`), and depends on the plain form of the value
alone (`toJson_congr`).
-/

namespace Amend

namespace Json
open Update

/-- Options that name no code of the caller's, neither a class nor a function. -/
def CallsNothing (args : List (String × Value)) : Prop :=
  ∀ e ∈ args, e.1 = "cls" ∨ e.1 = "default" → e.2 = .none

namespace Document

/-- What has no JSON form stays without one. -/
def refuse (_ : List Object) (v : Value) : Update Document := throw (.notWritable v.kind)

/-- The document of the plain form of a value, without a look at identities. -/
def settled (o : Options) (v : Value) : Update Document :=
  ofValue { o with circular := false } refuse [] v.plain

end Document

/-- Objects that were made from some identity on, as copies of sequences and mappings. -/
def Surround (next : Ident) (within : List Object) : Prop :=
  ∀ x ∈ within, next ≤ x.1 ∧ (x.2 = .seq .list ∨ x.2 = .map .plain)

section
variable {o : Options} {next : Ident} {within : List Object} {v : Value} {kind : Kind}

theorem Surround.nil : Surround next [] := List.forall_mem_nil _

theorem Surround.cons (h : Surround (next + 1) within)
    (hkind : kind = .seq .list ∨ kind = .map .plain) : Surround next ((next, kind) :: within) := by
  refine List.forall_mem_cons.2 ⟨⟨Nat.le_refl _, hkind⟩, fun x hx => ?_⟩
  obtain ⟨hle, hx⟩ := h x hx
  exact ⟨Nat.le_of_succ_le hle, hx⟩

theorem Surround.mono {next' : Ident} (h : Surround next' within) (hle : next ≤ next') :
    Surround next within := by
  intro x hx
  obtain ⟨hle', hkind⟩ := h x hx
  exact ⟨Nat.le_trans hle hle', hkind⟩

/-- A copy that was made before all objects around it is entered. -/
theorem enter_of_surround (hv : object? v = some (next, kind))
    (h : Surround (next + 1) within) : enter o within v = .ok ((next, kind) :: within) := by
  have hmem : (next, kind) ∉ within :=
    fun hmem => Nat.not_succ_le_self next (h _ hmem).1
  simp only [enter, hv, decide_eq_false hmem, Bool.and_false, Bool.false_eq_true, if_false]

/-- What is no copy is not met among copies. -/
theorem exists_enter (hlist : v.kind ≠ .seq .list) (hplain : v.kind ≠ .map .plain)
    (h : Surround next within) : ∃ within', enter o within v = .ok within' := by
  unfold enter
  split
  · next x hx =>
    have hkind : x.2 = v.kind := by
      cases v <;> cases hx <;> rfl
    have hmem : x ∉ within := by
      intro hmem
      rcases (h x hmem).2 with hx' | hx'
      · exact hlist (hkind.symm.trans hx')
      · exact hplain (hkind.symm.trans hx')
    refine ⟨x :: within, ?_⟩
    simp only [decide_eq_false hmem, Bool.and_false, Bool.false_eq_true, if_false]
  · exact ⟨within, rfl⟩

theorem exists_enter_not_circular (o : Options) (within : List Object) (v : Value) :
    ∃ within', enter { o with circular := false } within v = .ok within' := by
  unfold enter
  cases object? v with
  | none => exact ⟨within, rfl⟩
  | some x => exact ⟨x :: within, rfl⟩

theorem memberName_not_circular (o : Options) (k : Key) :
    memberName { o with circular := false } k = memberName o k := by
  cases k <;> rfl

theorem members_not_circular (o : Options) (es : Entries (Update Document)) :
    members { o with circular := false } es = members o es := by
  induction es with
  | nil => rfl
  | cons e es ih =>
    obtain ⟨k, d⟩ := e
    simp only [members, memberName_not_circular, ih]

theorem objectOf_not_circular (o : Options) (es : Entries (Update Document)) :
    objectOf { o with circular := false } es = objectOf o es := by
  simp only [objectOf, members_not_circular]
  rfl

theorem objectOf_nil (o : Options) : objectOf o [] = pure (.object []) := by
  have harranged : arranged o ([] : Entries (Update Document)) = .ok [] := by
    simp [arranged, Key.sortEntries]
  rw [objectOf, harranged]
  rfl

end

namespace Document
variable {o : Options}

theorem ofValue_refused {v : Value} {within : List Object}
    (hv : ofValue o refuse within v = (do refuse (← Update.lift (enter o within v)) v))
    (h : ∃ within', enter o within v = .ok within') :
    ofValue o refuse within v = throw (.notWritable v.kind) := by
  obtain ⟨within', hwithin⟩ := h
  rw [hv, hwithin]
  rfl

mutual

/-- The document of a copy, within objects that were made after it. -/
theorem ofValue_copyAs : ∀ (v : Value) (next : Ident) (within within' : List Object),
    Surround (v.copyAs .list .plain next).2 within →
      ofValue o refuse within (v.copyAs .list .plain next).1 =
        ofValue { o with circular := false } refuse within' v.plain
  | .map id kind es, next, within, within', h => by
    obtain ⟨inner, hinner⟩ := exists_enter_not_circular o within' (Value.map id kind es).plain
    have hes := ofEntries_copyAs es next _ inner (Surround.cons h (.inr rfl))
    have hempty : (Value.copyEntriesAs .list .plain es next).1.isEmpty =
        (Value.entryPlains es).isEmpty := by
      cases es <;> rfl
    have hplain : MapKind.plain.editable = .plain := rfl
    change ofValue o refuse within
      (.map (Value.copyEntriesAs .list .plain es next).2 .plain _) = _
    rw [Value.plain] at hinner ⊢
    rw [ofValue, ofValue, if_pos hplain, if_pos hplain, hempty, enter_of_surround rfl h, hinner,
      lift_ok_bind, lift_ok_bind, Value.kind, hes, objectOf_not_circular]
  | .seq id kind xs, next, within, within', h => by
    obtain ⟨inner, hinner⟩ := exists_enter_not_circular o within' (Value.seq id kind xs).plain
    have hxs := ofItems_copyAs xs next _ inner (Surround.cons h (.inl rfl))
    have hempty : (Value.copyItemsAs .list .plain xs next).1.isEmpty =
        (Value.plains xs).isEmpty := by
      cases xs <;> rfl
    change ofValue o refuse within
      (.seq (Value.copyItemsAs .list .plain xs next).2 .list _) = _
    rw [Value.plain] at hinner ⊢
    rw [ofValue, ofValue, hempty, enter_of_surround rfl h, hinner, lift_ok_bind, lift_ok_bind,
      Value.kind, hxs]
  | .none, _, _, _, _ | .bool _, _, _, _, _ | .int _, _, _, _, _ | .float _, _, _, _, _
  | .text _, _, _, _, _ => rfl
  | .bytes .., _, _, _, h | .buffer .., _, _, _, h | .range .., _, _, _, h | .set .., _, _, _, h
  | .frozenSet .., _, _, _, h | .factory .., _, _, _, h | .runner .., _, _, _, h
  | .deque .., _, _, _, h =>
    (ofValue_refused rfl (exists_enter Kind.noConfusion Kind.noConfusion h)).trans
      (ofValue_refused rfl (exists_enter_not_circular ..)).symm

theorem ofItems_copyAs : ∀ (xs : List Value) (next : Ident) (within within' : List Object),
    Surround (Value.copyItemsAs .list .plain xs next).2 within →
      ofItems o refuse within (Value.copyItemsAs .list .plain xs next).1 =
        ofItems { o with circular := false } refuse within' (Value.plains xs)
  | [], _, _, _, _ => rfl
  | x :: xs, next, within, within', h => by
    have hx := ofValue_copyAs x next within within' (h.mono (Value.le_next_copyItemsAs xs _))
    have hxs := ofItems_copyAs xs (x.copyAs .list .plain next).2 within within' h
    change ofItems o refuse within
      ((x.copyAs .list .plain next).1 :: (Value.copyItemsAs .list .plain xs _).1) = _
    rw [Value.plains, ofItems, ofItems, hx, hxs]

theorem ofEntries_copyAs : ∀ (es : List (Key × Value)) (next : Ident)
    (within within' : List Object),
    Surround (Value.copyEntriesAs .list .plain es next).2 within →
      ofEntries o refuse within (Value.copyEntriesAs .list .plain es next).1 =
        ofEntries { o with circular := false } refuse within' (Value.entryPlains es)
  | [], _, _, _, _ => rfl
  | (k, v) :: es, next, within, within', h => by
    have hle : (v.copyAs .list .plain next).2 ≤
        (Value.copyEntriesAs .list .plain es (v.copyAs .list .plain next).2).2 := by
      rw [(Value.copyEntriesAs_eq .list .plain es _).2.2]
      exact Value.le_next_copyItemsAs _ _
    have hv := ofValue_copyAs v next within within' (h.mono hle)
    have hes := ofEntries_copyAs es (v.copyAs .list .plain next).2 within within' h
    change ofEntries o refuse within
      ((k, (v.copyAs .list .plain next).1) :: (Value.copyEntriesAs .list .plain es _).1) = _
    rw [Value.entryPlains, ofEntries, ofEntries, hv, hes]

end

/-- What is around a value that is written makes no difference to its settled document. -/
theorem ofValue_plain (v : Value) (within : List Object) :
    ofValue { o with circular := false } refuse within v.plain = settled o v :=
  (ofValue_copyAs v 0 [] within .nil).symm.trans (ofValue_copyAs v 0 [] [] .nil)

def settledItems (o : Options) (xs : List Value) : Update (List Document) :=
  ofItems { o with circular := false } refuse [] (Value.plains xs)

theorem settledItems_cons (x : Value) (xs : List Value) :
    settledItems o (x :: xs) = (do return (← settled o x) :: (← settledItems o xs)) := rfl

theorem settled_seq (id : Ident) (kind : SeqKind) (xs : List Value) :
    settled o (.seq id kind xs) = (do return .array (← settledItems o xs)) := by
  cases xs with
  | nil => rfl
  | cons x xs =>
    obtain ⟨inner, hinner⟩ :=
      exists_enter_not_circular o [] (.seq 0 .list (Value.plains (x :: xs)))
    have hitems (within : List Object) := ofItems_copyAs (o := o) (x :: xs) 0 [] within .nil
    show ofValue _ refuse [] (.seq 0 .list (Value.plains (x :: xs))) = _
    rw [ofValue, hinner, lift_ok_bind, ← hitems inner, hitems []]
    rfl

theorem ofEntries_plain (es : Entries Value) (within : List Object) :
    ofEntries { o with circular := false } refuse within (Value.entryPlains es) =
      es.mapValues (settled o) := by
  induction es with
  | nil => rfl
  | cons e es ih =>
    obtain ⟨k, v⟩ := e
    rw [Value.entryPlains, ofEntries, ofValue_plain, ih]
    rfl

theorem settled_map (id : Ident) (kind : MapKind) (es : Entries Value) :
    settled o (.map id kind es) = objectOf o (es.mapValues (settled o)) := by
  have hplain : MapKind.plain.editable = .plain := rfl
  show ofValue _ refuse [] (.map 0 .plain (Value.entryPlains es)) = _
  obtain ⟨inner, hinner⟩ :=
    exists_enter_not_circular o [] (.map 0 .plain (Value.entryPlains es))
  rw [ofValue, if_pos hplain, hinner, lift_ok_bind, ofEntries_plain, objectOf_not_circular]
  cases es with
  | nil => exact (objectOf_nil o).symm
  | cons => rfl

theorem settled_congr {v w : Value} (h : v.plain = w.plain) : settled o v = settled o w := by
  rw [settled, settled, h]

end Document

theorem Settings.checkSeparators_plain (s : Settings) (v : Value) :
    s.checkSeparators v.plain = s.checkSeparators v := by
  have hitems : hasItems v.plain = hasItems v := by
    cases v with
    | seq => rw [Value.plain_seq]; simp [hasItems]
    | map => rw [Value.plain_map]; simp [hasItems, Entries.mapValues]
    | _ => rfl
  simp only [checkSeparators, hitems]

/-- How a value is written without a call. -/
def settledText [Machine] (s : Settings) : Value → Update String
  | .text t => pure (String.ofList (writtenText s.asciiOnly.truthy t.toList))
  | v => do
    let indent ← lift s.indent?
    lift (s.checkSeparators v)
    let d ← Document.settled s.options v
    lift (s.checkNames d)
    return String.ofList (d.render (s.layout indent))

theorem settledText_plain [Machine] (s : Settings) (v : Value) :
    settledText s v.plain = settledText s v := by
  have hdoc := Document.settled_congr (o := s.options) v.plain_plain
  have hseparators := s.checkSeparators_plain v
  cases v with
  | seq id kind xs =>
    rw [Value.plain_seq] at hdoc hseparators ⊢
    simp only [settledText, hdoc, hseparators]
  | map id kind es =>
    rw [Value.plain_map] at hdoc hseparators ⊢
    simp only [settledText, hdoc, hseparators]
  | _ => rfl

section
variable {args : List (String × Value)} {s : Settings}

theorem CallsNothing.cls (h : CallsNothing args) : (args.lookup "cls").getD .none = .none := by
  induction args with
  | nil => rfl
  | cons e args ih =>
    obtain ⟨he, hargs⟩ := List.forall_mem_cons.1 h
    obtain ⟨name, v⟩ := e
    rw [List.lookup_cons]
    split
    · next hname => exact he (.inl (beq_iff_eq.1 hname).symm)
    · exact ih hargs

namespace Settings
variable {P : Value → Prop}

/-- Only the option of that name sets the function for what has no JSON form. -/
theorem take_default {given given' : Settings × Value} {name : String} {v : Value}
    (h : take given name v = .ok given') (hv : name = "default" → P v)
    (hgiven : P given.1.default) : P given'.1.default := by
  obtain ⟨s, separators⟩ := given
  simp only [take] at h
  split at h
  case h_8 =>
    cases h
    exact hv rfl
  all_goals cases h <;> exact hgiven

theorem foldlM_default {given given' : Settings × Value}
    (hargs : ∀ e ∈ args, e.1 = "default" → P e.2) (hgiven : P given.1.default)
    (hs : args.foldlM (fun given (name, v) => take given name v) given = .ok given') :
    P given'.1.default := by
  induction args generalizing given with
  | nil =>
    cases hs
    exact hgiven
  | cons e args ih =>
    obtain ⟨name, v⟩ := e
    obtain ⟨hname, hrest⟩ := List.forall_mem_cons.1 hargs
    rw [List.foldlM_cons] at hs
    rcases htake : take given name v with fault | next <;> simp only [htake] at hs
    · cases hs
    · exact ih hrest (take_default htake hname hgiven) hs

/-- The function for what has no JSON form is one that is given, or none. -/
theorem default_of_ofArguments [Machine] (hargs : ∀ e ∈ args, e.1 = "default" → P e.2)
    (hnone : P .none) (hs : ofArguments args = .ok s) : P s.default := by
  unfold ofArguments at hs
  rcases hfold : args.foldlM (fun given (name, v) => take given name v)
    (({}, .none) : Settings × Value) with fault | ⟨s', separators⟩ <;> rw [hfold] at hs
  · cases hs
  have hs' : P s'.default := foldlM_default hargs hnone hfold
  dsimp only [bind, Except.bind] at hs
  split at hs
  · cases hs
    exact hs'
  · rcases hpair : pair separators with fault | pair <;> rw [hpair] at hs <;> cases hs
    exact hs'

end Settings

theorem CallsNothing.default [Machine] (h : CallsNothing args)
    (hs : Settings.ofArguments args = .ok s) : s.default = .none :=
  Settings.default_of_ofArguments (P := (· = .none)) (fun e he hname => h e he (.inr hname)) rfl hs

end

section
variable [Host] {args : List (String × Value)} {s : Settings}

/-- Without a function for what has no JSON form, the document of a thawed copy is the settled
one. -/
theorem Settings.document_thaw (hs : s.default = .none) (depth : Nat) (v : Value) (next : Ident) :
    s.document (depth + 1) [] (v.thaw next).1 = (do
      lift (s.checkSeparators v)
      Document.settled s.options v) := by
  have hother : (fun within v => do s.document depth within (← s.replacement v)) =
      Document.refuse := by
    funext within w
    simp only [replacement, hs]
    rfl
  have hseparators : s.checkSeparators (v.thaw next).1 = s.checkSeparators v := by
    rw [← s.checkSeparators_plain, ← s.checkSeparators_plain v, ← Value.plain_shape,
      Value.shape_thaw, Value.plain_plain]
  rw [document, hother, hseparators, Value.thaw_eq_copyAs,
    Document.ofValue_copyAs v next [] [] .nil]
  rfl

/-- To write a thawed copy, without such a function, is to write the settled text. -/
theorem write_thaw (hs : s.default = .none) (v : Value) (next : Ident) :
    write s (v.thaw next).1 = settledText s v := by
  have hdocument := Settings.document_thaw hs Machine.nesting v next
  cases v with
  | text => rfl
  | _ =>
    change (do
      let indent ← lift s.indent?
      let d ← s.document (Machine.nesting + 1) [] (Value.thaw _ next).1
      lift (s.checkNames d)
      return String.ofList (d.render (s.layout indent))) = _
    simp only [hdocument, settledText, bind_assoc]

/-- A text in which nothing is called is the settled one. -/
theorem toJson_eq (h : CallsNothing args) (v : Value) : toJson args v = (do
    if args.any (·.1 = "obj") then throw (.repeatedOption "obj")
    let _ ← Update.make v.thaw
    settledText (← lift (Settings.ofArguments args)) v) := by
  have hrest : (do
        let copy ← make v.thaw
        write (← lift (Settings.ofArguments args)) copy) = (do
        let _ ← make v.thaw
        settledText (← lift (Settings.ofArguments args)) v) := by
    funext t
    rcases hs : Settings.ofArguments args with fault | s
    · rfl
    · rw [bind_of_ok (make_apply v.thaw t), bind_of_ok (make_apply v.thaw t)]
      simp only [lift_ok_bind, write_thaw (h.default hs)]
  simp only [toJson, h.cls, hrest]

end

end Json

open Json Update

section
variable [Host] {args : List (String × Value)}

/-- A text in which nothing is called depends on the plain form alone, and so does the number of the
identities that are handed out. -/
theorem toJson_congr {v w : Value} (h : CallsNothing args) (hplain : v.plain = w.plain) :
    toJson args v = toJson args w := by
  have hnext (next : Ident) : (v.thaw next).2 = (w.thaw next).2 := by
    rw [← Value.next_thaw_plain v, hplain, Value.next_thaw_plain]
  have hrest (s : Settings) : settledText s v = settledText s w := by
    rw [← settledText_plain, hplain, settledText_plain]
  have hthaw {k : Update String} : (make v.thaw >>= fun _ => k) = (make w.thaw >>= fun _ => k) := by
    funext t
    rw [bind_of_ok (make_apply v.thaw t), bind_of_ok (make_apply w.thaw t), hnext]
  rw [toJson_eq h v, toJson_eq h w]
  simp only [hthaw, hrest]

/-- With settings to go by, the settled text is written once the value is copied. -/
theorem toJson_apply {s : Settings} (h : CallsNothing args)
    (hobj : args.any (·.1 = "obj") = false) (hs : Settings.ofArguments args = .ok s) (v : Value)
    (t : Trace) : toJson args v t = settledText s v { t with next := (v.thaw t.next).2 } := by
  rw [toJson_eq h v]
  simp only [hobj, hs]
  rw [if_neg Bool.false_ne_true, bind_of_ok (make_apply v.thaw t), lift_ok_bind]

end

end Amend
