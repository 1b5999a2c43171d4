import Amend.Proofs.KeyOrder
import Amend.Proofs.Snapshots

/-!
# Values written and read back

`LayoutOption` lists the options under which a text can be read back: indentation of blanks,
separators that are a comma and a colon among blanks, sorted keys, ASCII only or not. Main statement
(`ofJson_toJson`): a value of JSON data whose keys are texts is read back as its thawed form, with
the keys sorted where that was asked for.
-/

namespace Amend

namespace Json

open Reader (Blank Padded ReadsBack)

/-- Whether a row of so many spaces can be made. -/
def isWidth [Machine] (n : Int) : Bool := Position.fits n && decide (n.toNat ≤ Machine.capacity)

/-- An option that lays a value out for reading. A text has no lines to indent, so any width will do
for it. -/
inductive LayoutOption [Machine] (v : Value) : String → Value → Prop
  | oneLine : LayoutOption v "indent" .none
  | width (n : Int) (h : isWidth n ∨ ∃ s, v = .text s) : LayoutOption v "indent" (.int n)
  | space (b : Bool) : LayoutOption v "indent" (.bool b)
  | unit (s : String) (h : Blank s.toList) : LayoutOption v "indent" (.text s)
  | usualSeparators : LayoutOption v "separators" .none
  | separators (given : Value) (item key : String)
      (h : given.firstElements? 3 = some [.text item, .text key])
      (hitem : Padded ',' item.toList) (hkey : Padded ':' key.toList) :
      LayoutOption v "separators" given
  | sortKeys (given : Value) : LayoutOption v "sort_keys" given
  | asciiOnly (given : Value) : LayoutOption v "ensure_ascii" given

/-- Whether options ask for sorted keys. Of several the last one counts. -/
def sortsKeys (args : List (String × Value)) : Bool :=
  args.foldl (fun sorts arg => if arg.1 = "sort_keys" then arg.2.truthy else sorts) false

theorem blank_replicate (n : Nat) : Blank (List.replicate n ' ') := by
  intro c hc
  rw [List.eq_of_mem_replicate hc]
  rfl

theorem blank_flatten {unit : List Char} (h : Blank unit) (n : Nat) :
    Blank (List.replicate n unit).flatten := by
  intro c hc
  obtain ⟨cs, hcs, hmem⟩ := List.mem_flatten.1 hc
  rw [List.eq_of_mem_replicate hcs] at hmem
  exact h c hmem

theorem padded_of_blank {c : Char} {after : List Char} (h : Blank after) : Padded c (c :: after) :=
  ⟨[], after, rfl, List.forall_mem_nil _, h⟩

section
variable [Machine] {v : Value} {args : List (String × Value)}

/-- Options for a layout name no code of the caller's. -/
theorem callsNothing_layout (hargs : ∀ arg ∈ args, LayoutOption v arg.1 arg.2) :
    CallsNothing args := by
  intro arg harg hname
  have hoption := hargs arg harg
  obtain ⟨name, x⟩ := arg
  cases hoption <;> simp at hname

theorem any_obj_layout (hargs : ∀ arg ∈ args, LayoutOption v arg.1 arg.2) :
    args.any (·.1 = "obj") = false := by
  rw [List.any_eq_false]
  intro arg harg
  have hoption := hargs arg harg
  obtain ⟨name, x⟩ := arg
  cases hoption <;> simp

end

namespace Settings

/-- Settings that options for a layout come to. -/
structure LaysOut [Machine] (v : Value) (s : Settings) : Prop where
  indent : LayoutOption v "indent" s.indent
  separators : s.separators = none ∨ ∃ item key, s.separators = some (.text item, .text key) ∧
    Padded ',' item.toList ∧ Padded ':' key.toList
  allowNan : s.allowNan = .bool true

variable [Machine] {v : Value} {args : List (String × Value)} {s : Settings}

theorem pair_layout {separators : Value} (h : LayoutOption v "separators" separators) :
    separators = .none ∨ ∃ item key, pair separators = .ok (.text item, .text key) ∧
      Padded ',' item.toList ∧ Padded ':' key.toList := by
  generalize hname : "separators" = name at h
  cases h with
  | usualSeparators => exact .inl rfl
  | separators _ item key h hitem hkey =>
    refine .inr ⟨item, key, ?_, hitem, hkey⟩
    rw [pair, h]
  | _ => simp at hname

/-- What holds while options for a layout are taken into account, the separators still whole. -/
structure Taken [Machine] (v : Value) (sorts : Bool) (given : Settings × Value) : Prop where
  indent : LayoutOption v "indent" given.1.indent
  separators : LayoutOption v "separators" given.2
  whole : given.1.separators = none
  sortKeys : given.1.sortKeys.truthy = sorts
  allowNan : given.1.allowNan = .bool true

theorem Taken.take {sorts : Bool} {given : Settings × Value} {name : String} {x : Value}
    (h : Taken v sorts given) (hoption : LayoutOption v name x) :
    ∃ given', Settings.take given name x = .ok given' ∧
      Taken v (if name = "sort_keys" then x.truthy else sorts) given' := by
  obtain ⟨s, separators⟩ := given
  have hindent (hoption : LayoutOption v "indent" x) :
      ∃ given', Settings.take (s, separators) "indent" x = .ok given' ∧ Taken v sorts given' :=
    ⟨({ s with indent := x }, separators), rfl, { h with indent := hoption }⟩
  have hseparators (hoption : LayoutOption v "separators" x) :
      ∃ given', Settings.take (s, separators) "separators" x = .ok given' ∧ Taken v sorts given' :=
    ⟨(s, x), rfl, { h with separators := hoption }⟩
  have hcopy := hoption
  cases hoption with
  | oneLine | width | space | unit => exact hindent hcopy
  | usualSeparators | separators => exact hseparators hcopy
  | sortKeys => exact ⟨({ s with sortKeys := x }, separators), rfl, { h with sortKeys := rfl }⟩
  | asciiOnly => exact ⟨({ s with asciiOnly := x }, separators), rfl, { h with }⟩

theorem Taken.foldlM {sorts : Bool} {given : Settings × Value} (h : Taken v sorts given)
    (hargs : ∀ arg ∈ args, LayoutOption v arg.1 arg.2) :
    ∃ given', args.foldlM (fun given (name, v) => Settings.take given name v) given = .ok given' ∧
      Taken v (args.foldl
        (fun sorts arg => if arg.1 = "sort_keys" then arg.2.truthy else sorts) sorts) given' := by
  induction args generalizing sorts given with
  | nil => exact ⟨given, rfl, h⟩
  | cons arg args ih =>
    obtain ⟨harg, hrest⟩ := List.forall_mem_cons.1 hargs
    obtain ⟨name, x⟩ := arg
    obtain ⟨next, hnext, htaken⟩ := h.take harg
    obtain ⟨last, hlast, htaken'⟩ := ih htaken hrest
    refine ⟨last, ?_, htaken'⟩
    simp only [List.foldlM_cons, hnext, ok_bind, hlast]

/-- Options for a layout are taken, whatever their order. -/
theorem ofArguments_layout (hargs : ∀ arg ∈ args, LayoutOption v arg.1 arg.2) :
    ∃ s, ofArguments args = .ok s ∧ s.LaysOut v ∧ s.sortKeys.truthy = sortsKeys args := by
  have hstart : Taken v false ({}, .none) := ⟨.oneLine, .usualSeparators, rfl, rfl, rfl⟩
  obtain ⟨⟨s, separators⟩, hfold, htaken⟩ := hstart.foldlM hargs
  rw [ofArguments, hfold, ok_bind]
  obtain hnone | ⟨item, key, hpair, hitem, hkey⟩ := pair_layout htaken.separators
  · cases hnone
    exact ⟨s, rfl, ⟨htaken.indent, .inl htaken.whole, htaken.allowNan⟩, htaken.sortKeys⟩
  · refine ⟨{ s with separators := some (.text item, .text key) }, ?_,
      ⟨htaken.indent, .inr ⟨item, key, rfl, hitem, hkey⟩, htaken.allowNan⟩, htaken.sortKeys⟩
    dsimp only at hpair ⊢
    split
    · cases hpair
    · rw [hpair]
      rfl

/-- The unit of indentation, which is blank. -/
theorem indentation_layout {given : Value} (h : LayoutOption v "indent" given)
    (hgiven : given ≠ .none) (hv : ∀ s, v ≠ .text s) :
    ∃ indent, indentation given = .ok indent ∧ ∀ level, Blank (indent.at level) := by
  generalize hname : "indent" = name at h
  cases h with
  | oneLine => exact absurd rfl hgiven
  | width n h =>
    obtain h | ⟨s, rfl⟩ := h
    · obtain ⟨hfits, hroom⟩ := (Bool.and_eq_true _ _).mp h
      rw [decide_eq_true_iff] at hroom
      have hreserve : Storage.reserveText n.toNat = .ok () := if_neg (Nat.not_lt.2 hroom)
      refine ⟨.spaces n.toNat, ?_, fun level => blank_replicate _⟩
      rw [indentation, if_pos hfits, hreserve]
      rfl
    · exact absurd rfl (hv s)
  | space b => exact ⟨_, rfl, fun level => blank_replicate _⟩
  | unit s h => exact ⟨_, rfl, fun level => blank_flatten h level⟩
  | _ => simp at hname

/-- Settings for a layout give a layout that can be read. -/
theorem LaysOut.layout (hs : s.LaysOut v) (hv : ∀ s, v ≠ .text s) :
    ∃ indent, s.indent? = .ok indent ∧ (s.layout indent).IsReadable := by
  have hblank : Blank [' '] := by
    intro c hc
    rw [List.mem_singleton.1 hc]
    rfl
  have hitem (indent : Option Indent) : Padded ',' (s.layout indent).itemSeparator := by
    obtain hnone | ⟨item, key, hsome, hitem, -⟩ := hs.separators
    · simp only [Settings.layout, hnone]
      split
      · exact padded_of_blank (List.forall_mem_nil _)
      · exact padded_of_blank hblank
    · simp only [Settings.layout, hsome]
      exact hitem
  have hkey (indent : Option Indent) : Padded ':' (s.layout indent).keySeparator := by
    obtain hnone | ⟨item, key, hsome, -, hkey⟩ := hs.separators
    · simp only [Settings.layout, hnone]
      exact padded_of_blank hblank
    · simp only [Settings.layout, hsome]
      exact hkey
  by_cases hgiven : s.indent = .none
  · have hindent : s.indent? = .ok none := by simp [indent?, indented, hgiven]; rfl
    exact ⟨none, hindent, hitem none, hkey none, fun level => List.forall_mem_nil _⟩
  · obtain ⟨indent, hunit, hlines⟩ := indentation_layout hs.indent hgiven hv
    have hindented : s.indented = true := by
      cases h : s.indent <;> simp_all [indented]
    have hindent : s.indent? = .ok (some indent) := by
      rw [indent?, if_pos hindented, hunit]
      rfl
    refine ⟨some indent, hindent, hitem _, hkey _, fun level => ?_⟩
    exact List.forall_mem_cons.2 ⟨rfl, hlines level⟩

/-- Separators that are texts raise no fault. -/
theorem LaysOut.checks (hs : s.LaysOut v) (d : Document) :
    s.checkSeparators v = .ok () ∧ s.checkNames d = .ok () := by
  obtain hnone | ⟨item, key, hsome, -⟩ := hs.separators
  · simp only [checkSeparators, checkNames, hnone, and_self]
  · refine ⟨?_, by simp only [checkNames, hsome]⟩
    simp only [checkSeparators, hsome]
    split <;> rfl

end Settings

/-- A document that is written under settings for a layout is read as what it was. -/
theorem settledText_layout [Machine] {v : Value} {s : Settings} (hs : s.LaysOut v) {d : Document}
    (hd : Document.settled s.options v = pure d) (hreadable : d.isReadable) :
    ∃ text, settledText s v = pure (String.ofList text) ∧ ReadsBack text d := by
  by_cases hv : ∃ t, v = .text t
  · obtain ⟨t, rfl⟩ := hv
    cases (Update.pure_eq_ok.1 (congrFun hd ⟨0, []⟩)).1
    exact ⟨_, rfl, .quoted _ _⟩
  · have hv : ∀ t, v ≠ .text t := fun t ht => hv ⟨t, ht⟩
    obtain ⟨indent, hindent, hl⟩ := hs.layout hv
    obtain ⟨hseparators, hnames⟩ := hs.checks d
    refine ⟨d.render (s.layout indent), ?_, Document.readsBack_renderAt hl d 0 hreadable⟩
    unfold settledText
    split
    · exact absurd rfl (hv _)
    · rw [hindent, hseparators, hd, Update.lift_ok_bind, Update.lift_ok_bind, pure_bind, hnames]
      rfl

theorem exec_ofJson {text : List Char} {d : Document} (h : ReadsBack text d) (next : Ident) :
    (ofJson (.text (String.ofList text))).exec next =
      (.ok (d.toValue next).1, ⟨(d.toValue next).2, []⟩) := by
  have hdocument : Document.ofSource (.text (String.ofList text)) = .ok d := by
    rw [Document.ofSource, String.toList_ofList, h.ofText]
  rw [ofJson, hdocument]
  rfl

end Json

section
variable [Host]

open Json in
/-- A value that can be written is read back in its named form, without options. -/
theorem ofJson_toJson_named {v : Value} (h : v.isJson) :
    ∃ text, (∀ next, ((toJson [] v).exec next).1 = .ok text) ∧ ∀ next, ∃ w trace,
      (ofJson (.text text)).exec next = (.ok w, trace) ∧ w.shape = v.named := by
  obtain ⟨s, hs, hlayout, hsort⟩ :=
    Settings.ofArguments_layout (v := v) (List.forall_mem_nil _)
  have ho : s.options.allowNan ∧ s.options.sortKeys = false :=
    ⟨by simp [Settings.options, hlayout.allowNan, Value.truthy], hsort⟩
  obtain ⟨d, hd, hreadable, hshape⟩ := Document.settled_named ho v h
  obtain ⟨text, hwrite, hread⟩ := settledText_layout hlayout hd hreadable
  refine ⟨String.ofList text, ?_, fun next => ⟨_, _, exec_ofJson hread next, hshape next⟩⟩
  intro next
  rw [Update.exec, toJson_apply (List.forall_mem_nil _) rfl hs, hwrite, Update.pure_apply]

open Json in
/-- A value of JSON data whose keys are different texts is written under any options for a layout,
and read back as what thawing makes of it. If sorted keys were asked for, the keys of every mapping
stand in the order of their code points. -/
theorem ofJson_toJson {v : Value} {args : List (String × Value)} (hjson : v.isJson)
    (hkeys : v.hasTextKeys) (hargs : ∀ arg ∈ args, LayoutOption v arg.1 arg.2) :
    ∃ text, (∀ next, ((toJson args v).exec next).1 = .ok text) ∧ ∀ next, ∃ w trace,
      (ofJson (.text text)).exec next = (.ok w, trace) ∧
      w.shape = ((if sortsKeys args then v.sortKeys else v).thaw next).1.shape ∧
      (sortsKeys args → w.Everywhere Value.HasSortedKeys) := by
  obtain ⟨s, hs, hlayout, hsort⟩ := Settings.ofArguments_layout hargs
  have hnan : s.options.allowNan := by simp [Settings.options, hlayout.allowNan, Value.truthy]
  obtain ⟨d, hd, hreadable, hshape⟩ := Document.settled_textKeys hnan hjson hkeys
  obtain ⟨text, hwrite, hread⟩ := settledText_layout hlayout hd hreadable
  refine ⟨String.ofList text, ?_, fun next => ⟨_, _, exec_ofJson hread next, ?_, ?_⟩⟩
  · intro next
    rw [Update.exec, toJson_apply (callsNothing_layout hargs) (any_obj_layout hargs) hs, hwrite,
      Update.pure_apply]
  · rw [hshape next, Value.shape_thaw, ← hsort]
    rfl
  · intro hsorts
    have hoption : s.options.sortKeys := hsort.trans hsorts
    have hplain : (d.toValue next).1.plain = v.sortKeys.plain := by
      rw [← Value.plain_shape, hshape next, if_pos hoption, Value.plain_plain]
    rw [← Value.everywhere_plain, hplain, Value.everywhere_plain]
    exact v.everywhere_sortKeys hkeys

end

attribute [local instance] Host.standard in
open Json in
/-- A mapping of two members on lines of their own, with separators and an indentation of blanks. -/
theorem ofJson_toJson_members :
    let v : Value := .map 3 .readOnly [(.text "b", .seq 2 (.tuple .plain) [.bool true, .int 1]),
      (.text "a", .float .nan)]
    let args : List (String × Value) := [("sort_keys", .bool true), ("indent", .int 2),
      ("separators", .seq 4 .list [.text " ,", .text ":\t"])]
    v.isJson ∧ v.hasTextKeys ∧ (∀ arg ∈ args, LayoutOption v arg.1 arg.2) ∧ sortsKeys args ∧
      ∃ text, (∀ next, ((toJson args v).exec next).1 = .ok text) ∧ ∀ next, ∃ w trace,
        (ofJson (.text text)).exec next = (.ok w, trace) ∧
        w.shape = ((if sortsKeys args then v.sortKeys else v).thaw next).1.shape ∧
        (sortsKeys args → w.Everywhere Value.HasSortedKeys) := by
  intro v args
  have hjson : v.isJson := by decide
  have hkeys : v.hasTextKeys := by decide
  have hargs : ∀ arg ∈ args, LayoutOption v arg.1 arg.2 := by
    have hitem : Reader.Padded ',' " ,".toList :=
      ⟨[' '], [], by decide, by simp [Reader.Blank, Reader.isBlank], by simp [Reader.Blank]⟩
    have hkey : Reader.Padded ':' ":\t".toList :=
      ⟨[], ['\t'], by decide, by simp [Reader.Blank], by simp [Reader.Blank, Reader.isBlank]⟩
    refine List.forall_mem_cons.2 ⟨.sortKeys _, List.forall_mem_cons.2 ⟨.width 2 (.inl rfl), ?_⟩⟩
    exact List.forall_mem_singleton.2 (.separators _ " ," ":\t" rfl hitem hkey)
  exact ⟨hjson, hkeys, hargs, rfl, ofJson_toJson hjson hkeys hargs⟩

attribute [local instance] Host.standard in
/-- The number of spaces to indent by may be too large for any text to be made. -/
theorem toJson_indent_overflow :
    (Value.seq 0 .list []).isJson ∧ (Value.seq 0 .list []).hasTextKeys ∧
      ((toJson [("indent", .int 9223372036854775808)] (.seq 0 .list [])).exec 1).1 =
        .error .indentTooLarge :=
  ⟨rfl, rfl, rfl⟩

end Amend
