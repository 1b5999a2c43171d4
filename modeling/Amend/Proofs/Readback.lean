import Mathlib.Data.List.Forall2
import Amend.Proofs.Escapes
import Amend.Proofs.Numbers

/-!
# Documents read back

A text `ReadsBack` to a document when a reader that has twice its length to go gives that document
and leaves what follows. Scalars do by themselves, arrays and objects when their parts do
(`ReadsBack.array`, `ReadsBack.object`), whatever blanks stand between the parts. Main statement
(`Document.readsBack_renderAt`): a document that is laid out with blanks alone is read as what it
was.
-/

namespace Amend.Json

@[simp] theorem ok_bind {ε α β : Type} (a : α) (f : α → Except ε β) :
    (Except.ok a >>= f) = f a := rfl

namespace Reader

/-- A text of nothing but what readers skip. -/
def Blank (cs : List Char) : Prop := ∀ c ∈ cs, isBlank c

/-- A character with nothing but blanks around it. -/
def Padded (c : Char) (text : List Char) : Prop :=
  ∃ before after, text = before ++ c :: after ∧ Blank before ∧ Blank after

def opensScalar (c : Char) : Bool := Numeral.isDigit c || "-ntfNI".toList.contains c

/-- Whether a document may start with a character. -/
def opensDocument (c : Char) : Bool := opensScalar c || c = '"' || c = '[' || c = '\x7b'

variable {c : Char} {cs text rest before after bs sep : List Char} {depth level : Nat}
  {d : Document}

theorem skipBlanks_of_not_blank (hc : isBlank c = false) (cs : List Char) :
    skipBlanks (c :: cs) = c :: cs := by
  simp [skipBlanks, hc]

theorem skipBlanks_append (hbs : Blank bs) (hc : isBlank c = false) (cs : List Char) :
    skipBlanks (bs ++ c :: cs) = c :: cs := by
  rw [skipBlanks, List.dropWhile_append_of_pos hbs]
  exact skipBlanks_of_not_blank hc cs

theorem endsNumber_append (hbs : Blank bs) (hc : endsNumber [c]) (cs : List Char) :
    endsNumber (bs ++ c :: cs) := by
  rcases bs with - | ⟨b, bs⟩
  · exact hc
  · have hb := hbs b (List.mem_cons_self ..)
    simp only [isBlank, Bool.or_eq_true, decide_eq_true_eq] at hb
    rcases hb with ((rfl | rfl) | rfl) | rfl <;> rfl

theorem opensScalar_ne (h : opensScalar c) : c ≠ '"' ∧ c ≠ '[' ∧ c ≠ '\x7b' ∧ c ≠ ']' ∧
    c ≠ '\uFEFF' ∧ isBlank c = false := by
  have hcases : Numeral.isDigit c ∨ c = '-' ∨ c = 'n' ∨ c = 't' ∨ c = 'f' ∨ c = 'N' ∨ c = 'I' := by
    simpa [opensScalar] using h
  rcases hcases with hdigit | rfl | rfl | rfl | rfl | rfl | rfl
  · obtain ⟨-, hquote, hbracket, hbrace, hclosing, -, hblank⟩ := digit_ne hdigit
    refine ⟨hquote, hbracket, hbrace, hclosing, ?_, hblank⟩
    rintro rfl
    cases hdigit
  all_goals decide

theorem opensDocument_ne (h : opensDocument c) : c ≠ ']' ∧ c ≠ '\uFEFF' ∧ isBlank c = false := by
  simp only [opensDocument, Bool.or_eq_true, decide_eq_true_eq] at h
  rcases h with ((h | rfl) | rfl) | rfl
  · exact (opensScalar_ne h).2.2.2
  all_goals decide

theorem readValue_eq_readScalar (h : opensScalar c) (depth : Nat) (cs : List Char) :
    readValue (depth + 1) (c :: cs) = readScalar (c :: cs) := by
  obtain ⟨hquote, hbracket, hbrace, -⟩ := opensScalar_ne h
  rw [readValue.eq_def]
  simp [hquote, hbracket, hbrace]

/-- A text that is read as a document, whatever follows that could not be a part of it. -/
structure ReadsBack (text : List Char) (d : Document) : Prop where
  opens : ∃ c cs, text = c :: cs ∧ opensDocument c
  read : ∀ {depth : Nat} {rest : List Char}, endsNumber rest → 2 * text.length ≤ depth →
    readValue depth (text ++ rest) = .ok (d, rest)

namespace ReadsBack

theorem scalar (hopens : ∃ c cs, text = c :: cs ∧ opensScalar c)
    (hread : ∀ {rest : List Char}, endsNumber rest → readScalar (text ++ rest) = .ok (d, rest)) :
    ReadsBack text d := by
  obtain ⟨c, cs, rfl, hc⟩ := hopens
  refine ⟨⟨c, cs, rfl, by simp [opensDocument, hc]⟩, fun {depth rest} hrest hdepth => ?_⟩
  obtain ⟨depth, rfl⟩ : ∃ k, depth = k + 1 :=
    ⟨depth - 1, by rw [List.length_cons] at hdepth; omega⟩
  rw [List.cons_append, readValue_eq_readScalar hc]
  exact hread hrest

end ReadsBack

/-- Parts between separators start as the first of them does. -/
theorem intercalate_cons_eq (sep : List Char) (c : Char) (cs : List Char)
    (parts : List (List Char)) : ∃ tail, sep.intercalate ((c :: cs) :: parts) = c :: tail := by
  rcases parts with - | ⟨part, parts⟩
  · exact ⟨cs, List.intercalate_singleton⟩
  · exact ⟨cs ++ sep ++ sep.intercalate (part :: parts), List.intercalate_cons_cons⟩

/-- A separator is skipped with the blanks around it, up to what does not start with a blank. -/
theorem Padded.skip (hsep : Padded c sep) (hc : isBlank c = false) {x : Char}
    (hx : isBlank x = false) (xs : List Char) :
    ∃ rest, skipBlanks (sep ++ x :: xs) = c :: rest ∧ skipBlanks rest = x :: xs := by
  obtain ⟨before, after, rfl, hbefore, hafter⟩ := hsep
  refine ⟨after ++ x :: xs, ?_, skipBlanks_append hafter hx xs⟩
  rw [List.append_assoc, List.cons_append]
  exact skipBlanks_append hbefore hc _

theorem Padded.endsNumber (hsep : Padded c sep) (hc : Reader.endsNumber [c]) (rest : List Char) :
    Reader.endsNumber (sep ++ rest) := by
  obtain ⟨before, after, rfl, hbefore, hafter⟩ := hsep
  rw [List.append_assoc, List.cons_append]
  exact endsNumber_append hbefore hc _

section
variable {ds : List Document} {ms : List (List Char × Document)} {rest' : List Char}

theorem readItems_last (hread : readValue depth cs = .ok (d, rest))
    (hclosing : skipBlanks rest = ']' :: rest') :
    readItems (depth + 1) cs = .ok ([d], rest') := by
  rw [readItems, hread, ok_bind]
  simp only [hclosing]
  rfl

theorem readItems_next (hread : readValue depth cs = .ok (d, rest))
    (hcomma : skipBlanks rest = ',' :: rest')
    (hitems : readItems depth (skipBlanks rest') = .ok (ds, after)) :
    readItems (depth + 1) cs = .ok (d :: ds, after) := by
  rw [readItems, hread, ok_bind]
  simp only [hcomma, hitems, ok_bind]
  rfl
section
variable {name rest₁ rest₂ : List Char}

theorem readMembers_last (hname : readText (cs.length + 1) none cs = .ok (name, rest))
    (hcolon : skipBlanks rest = ':' :: rest₁)
    (hvalue : readValue depth (skipBlanks rest₁) = .ok (d, rest₂))
    (hclosing : skipBlanks rest₂ = '\x7d' :: after) :
    readMembers (depth + 1) ('"' :: cs) = .ok ([(name, d)], after) := by
  rw [readMembers, hname, ok_bind]
  simp only [hcolon, hvalue, ok_bind, hclosing]
  rfl

theorem readMembers_next (hname : readText (cs.length + 1) none cs = .ok (name, rest))
    (hcolon : skipBlanks rest = ':' :: rest₁)
    (hvalue : readValue depth (skipBlanks rest₁) = .ok (d, rest₂))
    (hcomma : skipBlanks rest₂ = ',' :: rest')
    (hmembers : readMembers depth (skipBlanks rest') = .ok (ms, after)) :
    readMembers (depth + 1) ('"' :: cs) = .ok ((name, d) :: ms, after) := by
  rw [readMembers, hname, ok_bind]
  simp only [hcolon, hvalue, ok_bind, hcomma, hmembers]
  rfl

end

theorem ReadsBack.length_pos (h : ReadsBack text d) : 0 < text.length := by
  obtain ⟨c, cs, rfl, -⟩ := h.opens
  exact Nat.succ_pos _

theorem ReadsBack.starts (h : ReadsBack text d) : ∃ c cs, text = c :: cs ∧ isBlank c = false := by
  obtain ⟨c, cs, rfl, hc⟩ := h.opens
  exact ⟨c, cs, rfl, (opensDocument_ne hc).2.2⟩

/-- The items of an array, with separators between them and blanks before the closing bracket. -/
theorem readItems_intercalate {parts : List (List Char)} (hsep : Padded ',' sep) (hbs : Blank bs)
    (hparts : List.Forall₂ ReadsBack parts ds) (hne : ds ≠ [])
    (hdepth : 2 * (sep.intercalate parts).length + 1 ≤ depth) :
    readItems depth (sep.intercalate parts ++ (bs ++ ']' :: rest)) = .ok (ds, rest) := by
  induction hparts generalizing depth with
  | nil => exact absurd rfl hne
  | @cons text d parts ds htext hparts ih =>
    obtain ⟨depth, rfl⟩ : ∃ k, depth = k + 1 := ⟨depth - 1, by omega⟩
    rcases hparts with - | @⟨text', d', parts, ds, htext', hparts⟩
    · have hend : endsNumber (bs ++ ']' :: rest) := endsNumber_append hbs rfl rest
      rw [List.intercalate_singleton] at hdepth ⊢
      exact readItems_last (htext.read hend (by omega)) (skipBlanks_append hbs rfl rest)
    · have hpos := htext.length_pos
      rw [List.intercalate_cons_cons] at hdepth ⊢
      simp only [List.length_append] at hdepth
      have hleft : 2 * (sep.intercalate (text' :: parts)).length + 1 ≤ depth := by omega
      have hitems := ih (List.cons_ne_nil d' ds) hleft
      obtain ⟨c, cs, rfl, hc⟩ := htext'.starts
      obtain ⟨tail, htail⟩ := intercalate_cons_eq sep c cs parts
      rw [htail] at hitems ⊢
      obtain ⟨rest', hcomma, hnext⟩ := hsep.skip rfl hc (tail ++ (bs ++ ']' :: rest))
      rw [List.append_assoc, List.append_assoc]
      rw [List.cons_append, ← hnext] at hitems
      exact readItems_next (htext.read (hsep.endsNumber rfl _) (by omega)) hcomma hitems

/-- The text of a member: its name, the separator, and a text that is read as its value. -/
def IsMember (asciiOnly : Bool) (keySep text : List Char) (m : List Char × Document) : Prop :=
  ∃ value, text = writtenText asciiOnly m.1 ++ keySep ++ value ∧ ReadsBack value m.2

section
variable {asciiOnly : Bool} {keySep : List Char} {m : List Char × Document}

theorem IsMember.starts (h : IsMember asciiOnly keySep text m) : ∃ cs, text = '"' :: cs := by
  obtain ⟨value, rfl, -⟩ := h
  exact ⟨_, rfl⟩

/-- A member is read up to what follows it: its name, the separator, its value. -/
theorem IsMember.read (hkey : Padded ':' keySep) (h : IsMember asciiOnly keySep text m)
    (hrest : endsNumber rest) (hdepth : 2 * text.length ≤ depth) :
    ∃ cs rest₁ rest₂, text ++ rest = '"' :: cs ∧
      readText (cs.length + 1) none cs = .ok (m.1, rest₁) ∧
      skipBlanks rest₁ = ':' :: rest₂ ∧ readValue depth (skipBlanks rest₂) = .ok (m.2, rest) := by
  obtain ⟨value, rfl, hvalue⟩ := h
  simp only [List.length_append] at hdepth
  have hleft : 2 * value.length ≤ depth := by omega
  have hread := hvalue.read hrest hleft
  obtain ⟨c, cs, rfl, hc⟩ := hvalue.starts
  obtain ⟨rest₂, hcolon, hnext⟩ := hkey.skip rfl hc (cs ++ rest)
  refine ⟨m.1.flatMap (writtenChar asciiOnly) ++ '"' :: (keySep ++ (c :: cs ++ rest)), _, rest₂,
    ?_, readText_writtenText _ _ _ _, hcolon, ?_⟩
  · simp [writtenText]
  · rw [hnext]
    exact hread

/-- The members of an object, with separators between them and blanks before the closing brace. -/
theorem readMembers_intercalate {parts : List (List Char)} (hkey : Padded ':' keySep)
    (hsep : Padded ',' sep) (hbs : Blank bs)
    (hparts : List.Forall₂ (IsMember asciiOnly keySep) parts ms) (hne : ms ≠ [])
    (hdepth : 2 * (sep.intercalate parts).length + 1 ≤ depth) :
    readMembers depth (sep.intercalate parts ++ (bs ++ '\x7d' :: rest)) = .ok (ms, rest) := by
  induction hparts generalizing depth with
  | nil => exact absurd rfl hne
  | @cons text m parts ms hmember hparts ih =>
    obtain ⟨depth, rfl⟩ : ∃ k, depth = k + 1 := ⟨depth - 1, by omega⟩
    rcases hparts with - | @⟨text', m', parts, ms, hmember', hparts⟩
    · have hend : endsNumber (bs ++ '\x7d' :: rest) := endsNumber_append hbs rfl rest
      rw [List.intercalate_singleton] at hdepth ⊢
      have hleft : 2 * text.length ≤ depth := by omega
      obtain ⟨cs, rest₁, rest₂, htext, hname, hcolon, hvalue⟩ := hmember.read hkey hend hleft
      rw [htext]
      exact readMembers_last hname hcolon hvalue (skipBlanks_append hbs rfl rest)
    · rw [List.intercalate_cons_cons] at hdepth ⊢
      simp only [List.length_append] at hdepth
      have hpos : 0 < text.length := by
        obtain ⟨cs, rfl⟩ := hmember.starts
        exact Nat.succ_pos _
      have hleft : 2 * text.length ≤ depth := by omega
      have hmore : 2 * (sep.intercalate (text' :: parts)).length + 1 ≤ depth := by omega
      have hmembers := ih (List.cons_ne_nil m' ms) hmore
      obtain ⟨cs', rfl⟩ := hmember'.starts
      obtain ⟨tail, htail⟩ := intercalate_cons_eq sep '"' cs' parts
      rw [htail] at hmembers ⊢
      have hquote : isBlank '"' = false := rfl
      obtain ⟨rest', hcomma, hnext⟩ := hsep.skip rfl hquote (tail ++ (bs ++ '\x7d' :: rest))
      rw [List.cons_append, ← hnext] at hmembers
      obtain ⟨cs, rest₁, rest₂, htext, hname, hcolon, hvalue⟩ :=
        hmember.read hkey (hsep.endsNumber rfl _) hleft
      rw [List.append_assoc, List.append_assoc, htext]
      exact readMembers_next hname hcolon hvalue hcomma hmembers

end

theorem readValue_array (hfirst : skipBlanks cs = c :: rest) (hc : c ≠ ']')
    (hitems : readItems depth (c :: rest) = .ok (ds, after)) :
    readValue (depth + 1) ('[' :: cs) = .ok (.array ds, after) := by
  rw [readValue]
  simp only [hfirst]
  split
  · next heq => exact absurd (List.cons.inj heq).1 hc
  · rw [hitems]
    rfl

theorem readValue_object (hfirst : skipBlanks cs = c :: rest) (hc : c ≠ '\x7d')
    (hmembers : readMembers depth (c :: rest) = .ok (ms, after)) :
    readValue (depth + 1) ('\x7b' :: cs) = .ok (.object ms, after) := by
  rw [readValue]
  simp only [hfirst]
  split
  · next heq => exact absurd (List.cons.inj heq).1 hc
  · rw [hmembers]
    rfl

namespace ReadsBack

theorem quoted (asciiOnly : Bool) (s : List Char) :
    ReadsBack (writtenText asciiOnly s) (.text s) := by
  refine ⟨⟨'"', _, rfl, rfl⟩, fun {depth rest} _ hdepth => ?_⟩
  simp only [writtenText, List.length_append, List.length_singleton] at hdepth
  obtain ⟨depth, rfl⟩ : ∃ k, depth = k + 1 := ⟨depth - 1, by omega⟩
  have hsplit : writtenText asciiOnly s ++ rest =
      '"' :: (s.flatMap (writtenChar asciiOnly) ++ '"' :: rest) := by
    simp [writtenText]
  rw [hsplit, readValue, readText_writtenText]
  rfl

theorem array_nil : ReadsBack ['[', ']'] (.array []) := by
  refine ⟨⟨'[', _, rfl, rfl⟩, fun {depth rest} _ hdepth => ?_⟩
  obtain ⟨depth, rfl⟩ : ∃ k, depth = k + 1 := ⟨depth - 1, by simp at hdepth; omega⟩
  rw [List.cons_append, readValue]
  rfl

theorem object_nil : ReadsBack ['\x7b', '\x7d'] (.object []) := by
  refine ⟨⟨'\x7b', _, rfl, rfl⟩, fun {depth rest} _ hdepth => ?_⟩
  obtain ⟨depth, rfl⟩ : ∃ k, depth = k + 1 := ⟨depth - 1, by simp at hdepth; omega⟩
  rw [List.cons_append, readValue]
  rfl

section
variable {first last part keySep : List Char} {parts : List (List Char)}
  {m : List Char × Document} {asciiOnly : Bool}

/-- An array, with blanks at most between the brackets, the items and the separators. -/
theorem array (hsep : Padded ',' sep) (hfirst : Blank first) (hlast : Blank last)
    (hparts : List.Forall₂ ReadsBack (part :: parts) (d :: ds)) :
    ReadsBack ('[' :: first ++ sep.intercalate (part :: parts) ++ last ++ [']'])
      (.array (d :: ds)) := by
  refine ⟨⟨'[', _, rfl, rfl⟩, fun {depth rest} _ hdepth => ?_⟩
  simp only [List.length_append, List.length_cons] at hdepth
  obtain ⟨depth, rfl⟩ : ∃ k, depth = k + 1 := ⟨depth - 1, by omega⟩
  have hleft : 2 * (sep.intercalate (part :: parts)).length + 1 ≤ depth := by omega
  have hitems : readItems depth (sep.intercalate (part :: parts) ++ (last ++ ']' :: rest)) =
      .ok (d :: ds, rest) :=
    readItems_intercalate hsep hlast hparts (List.cons_ne_nil d ds) hleft
  obtain ⟨⟨c, cs, rfl, hc⟩, -⟩ := (List.forall₂_cons.1 hparts).1
  obtain ⟨hclosing, -, hblank⟩ := opensDocument_ne hc
  obtain ⟨tail, htail⟩ := intercalate_cons_eq sep c cs parts
  rw [htail] at hitems ⊢
  have hfirst := skipBlanks_append hfirst hblank (tail ++ (last ++ ']' :: rest))
  simpa using readValue_array hfirst hclosing hitems

/-- An object, with blanks at most between the braces, the members and the separators. -/
theorem object (hkey : Padded ':' keySep) (hsep : Padded ',' sep) (hfirst : Blank first)
    (hlast : Blank last)
    (hparts : List.Forall₂ (IsMember asciiOnly keySep) (part :: parts) (m :: ms)) :
    ReadsBack ('\x7b' :: first ++ sep.intercalate (part :: parts) ++ last ++ ['\x7d'])
      (.object (m :: ms)) := by
  refine ⟨⟨'\x7b', _, rfl, rfl⟩, fun {depth rest} _ hdepth => ?_⟩
  simp only [List.length_append, List.length_cons] at hdepth
  obtain ⟨depth, rfl⟩ : ∃ k, depth = k + 1 := ⟨depth - 1, by omega⟩
  have hleft : 2 * (sep.intercalate (part :: parts)).length + 1 ≤ depth := by omega
  have hmembers : readMembers depth (sep.intercalate (part :: parts) ++ (last ++ '\x7d' :: rest)) =
      .ok (m :: ms, rest) :=
    readMembers_intercalate hkey hsep hlast hparts (List.cons_ne_nil m ms) hleft
  obtain ⟨cs, rfl⟩ := (List.forall₂_cons.1 hparts).1.starts
  obtain ⟨tail, htail⟩ := intercalate_cons_eq sep '"' cs parts
  rw [htail] at hmembers ⊢
  have hfirst := skipBlanks_append hfirst (show isBlank '"' = false from rfl)
    (tail ++ (last ++ '\x7d' :: rest))
  simpa using readValue_object hfirst (by decide) hmembers

end

/-- A number, which stands for itself up to what follows it. -/
theorem int {n : Int} (hn : Numeral.tooLong n = false) :
    ReadsBack (Numeral.ofInt n) (.int n) := by
  refine scalar ?_ fun hrest => readScalar_ofInt hn hrest
  obtain ⟨c, cs, htext, hc⟩ := exists_digit_ofNat n.natAbs []
  rw [List.append_nil] at htext
  rw [ofInt_eq, htext]
  split
  · exact ⟨'-', _, rfl, rfl⟩
  · exact ⟨c, cs, rfl, by simp [opensScalar, hc]⟩

theorem float (x : Double) : ReadsBack (writtenDouble x) (.float x) := by
  refine scalar ?_ fun hrest => readScalar_writtenDouble x hrest
  rcases x with - | negative | ⟨negative, rank⟩
  · exact ⟨'N', _, rfl, rfl⟩
  · cases negative
    · exact ⟨'I', _, rfl, rfl⟩
    · exact ⟨'-', _, rfl, rfl⟩
  · have hend : endsNumber [] := rfl
    obtain ⟨-, c, cs, htext, hc⟩ := readNumber_writtenMagnitude negative rank hend
    rw [List.append_nil] at htext
    cases negative
    · exact ⟨c, cs, htext, by simp [opensScalar, hc]⟩
    · exact ⟨'-', c :: cs, congrArg (List.cons '-') htext, rfl⟩

theorem bool (b : Bool) : ReadsBack (writtenBool b) (.bool b) := by
  cases b
  · exact scalar ⟨'f', _, rfl, rfl⟩ fun _ => rfl
  · exact scalar ⟨'t', _, rfl, rfl⟩ fun _ => rfl

theorem ofText (h : ReadsBack text d) : Document.ofText text = .ok d := by
  obtain ⟨c, cs, htext, hc⟩ := h.opens
  obtain ⟨-, hmark, hblank⟩ := opensDocument_ne hc
  have hend : endsNumber [] := rfl
  have hvalue := h.read hend (Nat.le_add_right (2 * text.length) 2)
  have hskip : skipBlanks text = text := by
    rw [htext]
    exact skipBlanks_of_not_blank hblank cs
  have hread : readDocument text = .ok d := by
    rw [List.append_nil] at hvalue
    rw [readDocument, hskip, hvalue]
    rfl
  unfold Document.ofText
  split
  · exact absurd (List.cons.inj htext).1.symm hmark
  · rw [hread]
    rfl

theorem null : ReadsBack "null".toList .null := scalar ⟨'n', _, rfl, rfl⟩ fun _ => rfl

end ReadsBack

end

end Reader

/-- A layout of commas, colons and blanks. -/
structure Layout.IsReadable (l : Layout) : Prop where
  itemSeparator : Reader.Padded ',' l.itemSeparator
  keySeparator : Reader.Padded ':' l.keySeparator
  newline : ∀ level, Reader.Blank (l.newline level)

namespace Document

mutual

/-- Whether a document can be read: its integers are not too long, and it has no object that lost
its members. -/
def isReadable : Document → Bool
  | .int n => !Numeral.tooLong n
  | .array ds => allReadable ds
  | .object ms => membersReadable ms
  | .emptied => false
  | _ => true
termination_by structural d => d

def allReadable : List Document → Bool
  | [] => true
  | d :: ds => isReadable d && allReadable ds
termination_by structural ds => ds

def membersReadable : List (List Char × Document) → Bool
  | [] => true
  | (_, d) :: ms => isReadable d && membersReadable ms
termination_by structural ms => ms

end

open Reader

section
variable {l : Layout}

theorem padded_separator (hl : l.IsReadable) (level : Nat) :
    Padded ',' (l.itemSeparator ++ l.newline level) := by
  obtain ⟨before, after, hsep, hbefore, hafter⟩ := hl.itemSeparator
  refine ⟨before, after ++ l.newline level, ?_, hbefore, ?_⟩
  · rw [hsep, List.append_assoc, List.cons_append]
  · exact List.forall_mem_append.2 ⟨hafter, hl.newline level⟩

mutual

/-- A readable document in a readable layout is read as what it was. -/
theorem readsBack_renderAt (hl : l.IsReadable) : ∀ (d : Document) (level : Nat), d.isReadable →
    ReadsBack (d.renderAt l level) d
  | .null, _, _ => .null
  | .bool b, _, _ => .bool b
  | .int n, _, h => .int (by simpa [isReadable] using h)
  | .float x, _, _ => .float x
  | .text s, _, _ => .quoted l.asciiOnly s
  | .array [], _, _ => .array_nil
  | .array (d :: ds), level, h =>
    .array (padded_separator hl (level + 1)) (hl.newline (level + 1)) (hl.newline level)
      (readsBack_renderItems hl (d :: ds) (level + 1) h)
  | .object [], _, _ => .object_nil
  | .object (m :: ms), level, h =>
    .object hl.keySeparator (padded_separator hl (level + 1)) (hl.newline (level + 1))
      (hl.newline level) (isMember_renderMembers hl (m :: ms) (level + 1) h)
  | .emptied, _, h => by cases h

theorem readsBack_renderItems (hl : l.IsReadable) : ∀ (ds : List Document) (level : Nat),
    allReadable ds → List.Forall₂ ReadsBack (renderItems l level ds) ds
  | [], _, _ => .nil
  | d :: ds, level, h => by
    obtain ⟨hd, hds⟩ := (Bool.and_eq_true _ _).mp h
    exact .cons (readsBack_renderAt hl d level hd) (readsBack_renderItems hl ds level hds)

theorem isMember_renderMembers (hl : l.IsReadable) :
    ∀ (ms : List (List Char × Document)) (level : Nat), membersReadable ms →
    List.Forall₂ (IsMember l.asciiOnly l.keySeparator) (renderMembers l level ms) ms
  | [], _, _ => .nil
  | (name, d) :: ms, level, h => by
    obtain ⟨hd, hms⟩ := (Bool.and_eq_true _ _).mp h
    exact .cons ⟨_, rfl, readsBack_renderAt hl d level hd⟩ (isMember_renderMembers hl ms level hms)

end

end

end Document

end Amend.Json
