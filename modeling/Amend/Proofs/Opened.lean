import Amend.Sharing
import Amend.Proofs.Copies
import Amend.Proofs.Snapshots

/-!
# Places of a value

A place is reached through the items of sequences and the values of mappings, and through nothing
else: `Value.opened` are the values one step down, and `Value.atPlace?` follows a whole place. The
copies of a row are made one after the other, so each item has identities of its own to hand out
(`copyItemsAs_getElem?`, `start_le_start`). Main statement (`atPlace?_copyAs`): what a copy holds at
a place is a copy of what its source holds there.
-/

namespace Amend

namespace Value

/-- The values that a copy goes on to: items, and the values of mappings. -/
def opened : Value → List Value
  | .seq _ _ xs => xs
  | .map _ _ es => es.map Prod.snd
  | _ => []

def isOpened : Value → Bool
  | .seq .. | .map .. => true
  | _ => false

/-- The value at a place. -/
def atPlace? : Sharing.Place → Value → Option Value
  | [], v => some v
  | i :: place, v => v.opened[i]?.bind (atPlace? place)

variable {v x : Value} {place : Sharing.Place} {i : Nat}

theorem atPlace?_cons_eq_some :
    v.atPlace? (i :: place) = some x ↔ ∃ c, v.opened[i]? = some c ∧ c.atPlace? place = some x :=
  Option.bind_eq_some_iff

/-- Whether a value has a property at every place. -/
def Everywhere (P : Value → Prop) (v : Value) : Prop := ∀ place x, v.atPlace? place = some x → P x

theorem everywhere_iff {P : Value → Prop} :
    v.Everywhere P ↔ P v ∧ ∀ c ∈ v.opened, c.Everywhere P := by
  constructor
  · intro h
    refine ⟨h [] v rfl, fun c hc place x hx => ?_⟩
    obtain ⟨i, hi⟩ := List.mem_iff_getElem?.1 hc
    exact h (i :: place) x (atPlace?_cons_eq_some.2 ⟨c, hi, hx⟩)
  · rintro ⟨hv, hopened⟩ place x hx
    cases place with
    | nil =>
      cases hx
      exact hv
    | cons i place =>
      obtain ⟨c, hc, hx⟩ := atPlace?_cons_eq_some.1 hx
      exact hopened c (List.mem_of_getElem? hc) place x hx

theorem isOpened_of_ident? {id : Ident} (h : Sharing.ident? v = some id) : v.isOpened := by
  cases v <;> first | rfl | cases h

theorem isOpened_of_mem_opened (h : x ∈ v.opened) : v.isOpened := by
  cases v <;> first | rfl | cases h

/-- Induction along the values that a copy goes on to. -/
theorem opening {P : Value → Prop} (h : ∀ v, (∀ c ∈ v.opened, P c) → P v) (v : Value) : P v := by
  induction v using holding with
  | seq id kind xs ih => exact h _ ih
  | map id kind es ih =>
    refine h _ fun c hc => ?_
    obtain ⟨e, he, rfl⟩ := List.mem_map.1 hc
    exact ih e he
  | deque id xs => exact h _ (List.forall_mem_nil _)
  | atom v hatom =>
    refine h v ?_
    cases v <;> first | exact List.forall_mem_nil _ | cases hatom

section
variable (seq : SeqKind) (map : MapKind)

/-- The next identity that the copy of an item starts from. -/
def start (xs : List Value) (next : Ident) (i : Nat) : Ident :=
  (copyItemsAs seq map (xs.take i) next).2

theorem copyItemsAs_append (xs ys : List Value) (next : Ident) :
    copyItemsAs seq map (xs ++ ys) next =
      ((copyItemsAs seq map xs next).1 ++
          (copyItemsAs seq map ys (copyItemsAs seq map xs next).2).1,
        (copyItemsAs seq map ys (copyItemsAs seq map xs next).2).2) := by
  induction xs generalizing next with
  | nil => rfl
  | cons x xs ih =>
    simp only [List.cons_append, copyItemsAs, Making.bind_apply, Making.pure_apply, ih]

theorem copyEntriesAs_eq (es : List (Key × Value)) (next : Ident) :
    (copyEntriesAs seq map es next).1.map Prod.fst = es.map Prod.fst ∧
      (copyEntriesAs seq map es next).1.map Prod.snd =
        (copyItemsAs seq map (es.map Prod.snd) next).1 ∧
      (copyEntriesAs seq map es next).2 = (copyItemsAs seq map (es.map Prod.snd) next).2 := by
  induction es generalizing next with
  | nil => exact ⟨rfl, rfl, rfl⟩
  | cons e es ih =>
    obtain ⟨hkeys, hvalues, hnext⟩ := ih (e.2.copyAs seq map next).2
    simp only [copyEntriesAs, copyItemsAs, List.map_cons, Making.bind_apply, Making.pure_apply]
    exact ⟨congrArg _ hkeys, congrArg _ hvalues, hnext⟩

section
variable {seq map} {v c x y : Value} {xs : List Value} {next : Ident} {i j : Nat}
  {place : Sharing.Place}

theorem copyAs_of_not_isOpened (h : v.isOpened = false) : v.copyAs seq map next = (v, next) := by
  cases v <;> first | rfl | cases h

theorem isOpened_copyAs : (v.copyAs seq map next).1.isOpened = v.isOpened := by
  cases v <;> rfl

theorem opened_copyAs :
    (v.copyAs seq map next).1.opened = (copyItemsAs seq map v.opened next).1 := by
  cases v with
  | map id kind es => exact (copyEntriesAs_eq seq map es next).2.1
  | _ => rfl

/-- The copy of a container is made after all that it holds. -/
theorem next_copyAs (h : v.isOpened) :
    (v.copyAs seq map next).2 = (copyItemsAs seq map v.opened next).2 + 1 := by
  cases v with
  | seq => rfl
  | map id kind es => exact congrArg (· + 1) (copyEntriesAs_eq seq map es next).2.2
  | _ => cases h

theorem ident?_copyAs {id : Ident} (h : v.isOpened)
    (hid : Sharing.ident? (v.copyAs seq map next).1 = some id) :
    id = (copyItemsAs seq map v.opened next).2 := by
  cases v with
  | seq => exact Sharing.eq_of_ident?_seq hid
  | map id' kind es =>
    rw [opened, ← (copyEntriesAs_eq seq map es next).2.2]
    exact (Option.some.inj hid).symm
  | _ => cases h

theorem le_next_copyItemsAs_of (h : ∀ x ∈ xs, ∀ n, n ≤ (x.copyAs seq map n).2) (next : Ident) :
    next ≤ (copyItemsAs seq map xs next).2 := by
  induction xs generalizing next with
  | nil => exact Nat.le_refl next
  | cons x xs ih =>
    obtain ⟨hx, hxs⟩ := List.forall_mem_cons.1 h
    exact Nat.le_trans (hx next) (ih hxs _)

theorem le_next_copyAs (v : Value) (next : Ident) : next ≤ (v.copyAs seq map next).2 := by
  induction v using opening generalizing next with
  | h v ih =>
    rcases hv : v.isOpened with - | -
    · exact Nat.le_of_eq (congrArg Prod.snd (copyAs_of_not_isOpened hv)).symm
    · rw [next_copyAs hv]
      exact Nat.le_succ_of_le (le_next_copyItemsAs_of ih next)

theorem le_next_copyItemsAs (xs : List Value) (next : Ident) :
    next ≤ (copyItemsAs seq map xs next).2 :=
  le_next_copyItemsAs_of (fun x _ => le_next_copyAs x) next

theorem start_succ (h : xs[i]? = some x) :
    start seq map xs next (i + 1) = (x.copyAs seq map (start seq map xs next i)).2 := by
  unfold start
  rw [List.take_add_one, h, copyItemsAs_append]
  rfl

theorem start_le_start (xs : List Value) (next : Ident) (h : i ≤ j) :
    start seq map xs next i ≤ start seq map xs next j := by
  have hsplit := List.take_append_drop i (xs.take j)
  rw [List.take_take, Nat.min_eq_left h] at hsplit
  unfold start
  rw [← hsplit, copyItemsAs_append]
  exact le_next_copyItemsAs _ _

theorem le_start (xs : List Value) (next : Ident) (i : Nat) : next ≤ start seq map xs next i :=
  start_le_start xs next (Nat.zero_le i)

theorem next_copyAs_le (h : xs[i]? = some x) :
    (x.copyAs seq map (start seq map xs next i)).2 ≤ (copyItemsAs seq map xs next).2 := by
  obtain ⟨hlt, -⟩ := List.getElem?_eq_some_iff.1 h
  have hend : start seq map xs next xs.length = (copyItemsAs seq map xs next).2 := by
    rw [start, List.take_length]
  rw [← start_succ h, ← hend]
  exact start_le_start xs next hlt

theorem copyItemsAs_getElem? (xs : List Value) (next : Ident) (i : Nat) :
    (copyItemsAs seq map xs next).1[i]? =
      xs[i]?.map fun x => (x.copyAs seq map (start seq map xs next i)).1 := by
  induction xs generalizing next i with
  | nil => rfl
  | cons x xs ih =>
    cases i with
    | zero => rfl
    | succ i => exact ih _ i

variable (seq map) in
/-- What a copy holds at a place is a copy of what its source holds there. -/
theorem atPlace?_copyAs (place : Sharing.Place) (v : Value) (next : Ident) :
    ∃ n, (v.copyAs seq map next).1.atPlace? place =
        (v.atPlace? place).map (fun x => (x.copyAs seq map n).1) ∧
      ∀ x, v.atPlace? place = some x →
        next ≤ n ∧ (x.copyAs seq map n).2 ≤ (v.copyAs seq map next).2 := by
  induction place generalizing v next with
  | nil =>
    refine ⟨next, rfl, fun x hx => ?_⟩
    cases hx
    exact ⟨Nat.le_refl next, Nat.le_refl _⟩
  | cons i place ih =>
    simp only [atPlace?, opened_copyAs, copyItemsAs_getElem?]
    rcases hc : v.opened[i]? with - | c
    · exact ⟨next, rfl, fun x hx => nomatch hx⟩
    obtain ⟨n, hat, hbounds⟩ := ih c (start seq map v.opened next i)
    refine ⟨n, hat, fun x hx => ?_⟩
    obtain ⟨hle, hge⟩ := hbounds x hx
    have hv : v.isOpened := isOpened_of_mem_opened (List.mem_of_getElem? hc)
    rw [next_copyAs hv]
    constructor
    · exact Nat.le_trans (le_start v.opened next i) hle
    · exact Nat.le_succ_of_le (Nat.le_trans hge (next_copyAs_le hc))

end

end

end Value

end Amend
