import Amend.Proofs.Allocation
import Amend.Proofs.Mappings
import Amend.Proofs.Opened

/-!
# Copies that share no container

`Value.write` is what a value has become once the container of an identity has new contents: every
place that holds the container shows them. `Value.Isolated` says that a copy shares no container
with its source and holds none twice, so that a write to a container of the copy leaves the source
as it is and changes the copy in a single place. Main statement (`freeze_thaw_isolated`): what
freezing and thawing give is isolated so from any source, also from one that an update has just
made.
-/

namespace Amend

mutual

/-- What a value has become when the container of an identity has changed to `now`. A key is no
container that can change, but it may hold one. -/
def Value.write (id : Ident) (now : Value) : Value → Value
  | .seq i kind xs =>
    if Sharing.ident? (.seq i kind xs) = some id then now
    else .seq i kind (Value.writeAll id now xs)
  | .map i kind es => if i = id then now else .map i kind (Value.writeEntries id now es)
  | .deque i xs => .deque i (Value.writeAll id now xs)
  | .set i ks => .set i (Key.writeAll id now ks)
  | .frozenSet i ks => .frozenSet i (Key.writeAll id now ks)
  | .factory i f arg => .factory i f (Value.write id now arg)
  | .runner i tree => .runner i (Value.write id now tree)
  | v => v
termination_by structural v => v

def Value.writeAll (id : Ident) (now : Value) : List Value → List Value
  | [] => []
  | v :: vs => Value.write id now v :: Value.writeAll id now vs
termination_by structural vs => vs

def Value.writeEntries (id : Ident) (now : Value) : List (Key × Value) → List (Key × Value)
  | [] => []
  | (k, v) :: es => (Key.write id now k, Value.write id now v) :: Value.writeEntries id now es
termination_by structural es => es

def Key.write (id : Ident) (now : Value) : Key → Key
  | .tuple i kind ks => .tuple i kind (Key.writeAll id now ks)
  | .frozenSet i ks => .frozenSet i (Key.writeAll id now ks)
  | .factory i f arg => .factory i f (Value.write id now arg)
  | .runner i tree => .runner i (Value.write id now tree)
  | k => k
termination_by structural k => k

def Key.writeAll (id : Ident) (now : Value) : List Key → List Key
  | [] => []
  | k :: ks => Key.write id now k :: Key.writeAll id now ks
termination_by structural ks => ks

end

theorem Key.toValues_eq_map (ks : List Key) : Key.toValues ks = ks.map Key.toValue := by
  induction ks with
  | nil => rfl
  | cons k ks ih => rw [Key.toValues, ih, List.map_cons]

namespace Value

/-- Whether no object in a value has an identity. -/
def Lacks (v : Value) (id : Ident) : Prop := ∀ x : Value, x.Within v → x.ident? ≠ some id

theorem ident?_of_sharing {v : Value} {id : Ident} (h : Sharing.ident? v = some id) :
    v.ident? = some id := by
  cases v <;> first | exact h | cases h

theorem Lacks.of_mem {v c : Value} {id : Ident} (h : v.Lacks id) (hc : c ∈ v.children) :
    c.Lacks id :=
  fun x hx => h x (.inside hc hx)

theorem Lacks.ident?_ne {v : Value} {id : Ident} (h : v.Lacks id) : Sharing.ident? v ≠ some id :=
  fun hid => h v (.self v) (ident?_of_sharing hid)

end Value

section
variable {id : Ident} {now : Value}

mutual

theorem Value.write_of_lacks : ∀ v : Value, v.Lacks id → Value.write id now v = v
  | .seq i kind xs, h => by
    rw [Value.write, if_neg h.ident?_ne, Value.writeAll_of_lacks xs fun c hc => h.of_mem hc]
  | .map i kind es, h => by
    have hne : i ≠ id := fun heq => h.ident?_ne (congrArg some heq)
    rw [Value.write, if_neg hne, Value.writeEntries_of_lacks es fun c hc => h.of_mem hc]
  | .deque i xs, h => by
    rw [Value.write, Value.writeAll_of_lacks xs fun c hc => h.of_mem hc]
  | .set i ks, h => by
    rw [Value.write, Key.writeAll_of_lacks ks fun c hc => h.of_mem hc]
  | .frozenSet i ks, h => by
    rw [Value.write, Key.writeAll_of_lacks ks fun c hc => h.of_mem hc]
  | .factory i f arg, h => by
    rw [Value.write, Value.write_of_lacks arg (h.of_mem (List.mem_singleton_self arg))]
  | .runner i tree, h => by
    rw [Value.write, Value.write_of_lacks tree (h.of_mem (List.mem_singleton_self tree))]
  | .none, _ | .bool _, _ | .int _, _ | .float _, _ | .text _, _ | .bytes .., _ | .buffer .., _
  | .range .., _ => rfl

theorem Value.writeAll_of_lacks : ∀ xs : List Value, (∀ x ∈ xs, x.Lacks id) →
    Value.writeAll id now xs = xs
  | [], _ => rfl
  | x :: xs, h => by
    obtain ⟨hx, hxs⟩ := List.forall_mem_cons.1 h
    rw [Value.writeAll, Value.write_of_lacks x hx, Value.writeAll_of_lacks xs hxs]

theorem Value.writeEntries_of_lacks : ∀ es : List (Key × Value),
    (∀ c ∈ es.flatMap fun e => [e.1.toValue, e.2], c.Lacks id) →
    Value.writeEntries id now es = es
  | [], _ => rfl
  | (k, v) :: es, h => by
    obtain ⟨hk, h⟩ := List.forall_mem_cons.1 h
    obtain ⟨hv, hes⟩ := List.forall_mem_cons.1 h
    rw [Value.writeEntries, Key.write_of_lacks k hk, Value.write_of_lacks v hv,
      Value.writeEntries_of_lacks es hes]

theorem Key.write_of_lacks : ∀ k : Key, k.toValue.Lacks id → k.write id now = k
  | .tuple i kind ks, h => by
    have hmem : ∀ c ∈ ks.map Key.toValue, c.Lacks id := by
      rw [← Key.toValues_eq_map]
      exact fun c hc => h.of_mem hc
    rw [Key.write, Key.writeAll_of_lacks ks hmem]
  | .frozenSet i ks, h => by
    rw [Key.write, Key.writeAll_of_lacks ks fun c hc => h.of_mem hc]
  | .factory i f arg, h => by
    rw [Key.write, Value.write_of_lacks arg (h.of_mem (List.mem_singleton_self arg))]
  | .runner i tree, h => by
    rw [Key.write, Value.write_of_lacks tree (h.of_mem (List.mem_singleton_self tree))]
  | .none, _ | .bool _, _ | .int _, _ | .float _, _ | .text _, _ | .bytes .., _
  | .range .., _ => rfl

theorem Key.writeAll_of_lacks : ∀ ks : List Key, (∀ c ∈ ks.map Key.toValue, c.Lacks id) →
    Key.writeAll id now ks = ks
  | [], _ => rfl
  | k :: ks, h => by
    obtain ⟨hk, hks⟩ := List.forall_mem_cons.1 h
    rw [Key.writeAll, Key.write_of_lacks k hk, Key.writeAll_of_lacks ks hks]

end

end

namespace Value

/-- A container with the value at a position changed by a function. -/
def modifyOpened (i : Nat) (f : Value → Value) : Value → Value
  | .seq id kind xs => .seq id kind (xs.modify i f)
  | .map id kind es => .map id kind (es.modify i fun e => (e.1, f e.2))
  | v => v

/-- A value with another one in a place. -/
def setPlace (now : Value) : Sharing.Place → Value → Value
  | [], _ => now
  | i :: place, v => v.modifyOpened i (setPlace now place)

/-- Whether a copy consists of containers that its source does not have, each in one place, and of
the very objects of its source otherwise. A write to a container of the copy changes nothing but
the place of the container. -/
structure Isolated (v w : Value) : Prop where
  fresh : ∀ place x id, w.atPlace? place = some x → Sharing.ident? x = some id → v.Lacks id
  once : ∀ place place' x x' id, w.atPlace? place = some x → w.atPlace? place' = some x' →
    Sharing.ident? x = some id → Sharing.ident? x' = some id → place = place'
  leaves : ∀ place x, x.isOpened = false →
    (w.atPlace? place = some x ↔ v.atPlace? place = some x)
  write : ∀ place x id now, w.atPlace? place = some x → Sharing.ident? x = some id →
    write id now v = v ∧ write id now w = setPlace now place w

section
variable {v : Value} {id : Ident} {now : Value} {i : Nat} {f : Value → Value}

theorem writeAll_eq_map (xs : List Value) : writeAll id now xs = xs.map (write id now) := by
  induction xs with
  | nil => rfl
  | cons x xs ih => rw [writeAll, ih, List.map_cons]

theorem writeEntries_eq_map (es : List (Key × Value)) :
    writeEntries id now es = es.map fun e => (e.1.write id now, write id now e.2) := by
  induction es with
  | nil => rfl
  | cons e es ih => rw [writeEntries, ih, List.map_cons]

theorem write_of_ident? (h : Sharing.ident? v = some id) : write id now v = now := by
  cases v with
  | seq i kind xs => rw [write, if_pos h]
  | map i kind es => rw [write, if_pos (Option.some.inj h)]
  | _ => cases h

/-- A write that changes nothing of a container but the value at one position. -/
theorem write_eq_modifyOpened (hv : v.isOpened) (hid : Sharing.ident? v ≠ some id)
    (hkeys : ∀ k ∈ v.entries.keys, k.write id now = k)
    (hopened : ∀ (j : Nat) c, v.opened[j]? = some c → write id now c = if i = j then f c else c) :
    write id now v = v.modifyOpened i f := by
  cases v with
  | seq id' kind xs =>
    rw [write, if_neg hid, writeAll_eq_map, modifyOpened]
    congr 1
    refine List.ext_getElem? fun j => ?_
    rw [List.getElem?_map, List.getElem?_modify]
    rcases hj : xs[j]? with - | c
    · rfl
    · exact congrArg some (hopened j c hj)
  | map id' kind es =>
    have hne : id' ≠ id := fun heq => hid (congrArg some heq)
    rw [write, if_neg hne, writeEntries_eq_map, modifyOpened]
    congr 1
    refine List.ext_getElem? fun j => ?_
    rw [List.getElem?_map, List.getElem?_modify]
    rcases hj : es[j]? with - | e
    · rfl
    have hkey := hkeys e.1 (List.mem_map_of_mem (List.mem_of_getElem? hj))
    have hvalue : write id now e.2 = if i = j then f e.2 else e.2 := by
      refine hopened j e.2 ?_
      rw [opened, List.getElem?_map, hj]
      rfl
    simp only [Option.map_eq_map, Option.map_some, hkey, hvalue]
    split <;> rfl
  | _ => cases hv

theorem write_eq_self (hv : v.isOpened) (hid : Sharing.ident? v ≠ some id)
    (hkeys : ∀ k ∈ v.entries.keys, k.write id now = k)
    (hopened : ∀ (j : Nat) c, v.opened[j]? = some c → write id now c = c) : write id now v = v := by
  have hmodify : v.modifyOpened 0 (fun c => c) = v := by
    cases v with
    | seq => exact congrArg _ (List.modify_id 0 _)
    | map => exact congrArg _ (List.modify_id 0 _)
    | _ => rfl
  refine (write_eq_modifyOpened hv hid hkeys fun j c hc => ?_).trans hmodify
  rw [hopened j c hc, ite_self]

end

/-- Whether the copy of a value, from a next identity on, hands an identity out. -/
def Gives (seq : SeqKind) (map : MapKind) (v : Value) (next id : Ident) : Prop :=
  next ≤ id ∧ id < (v.copyAs seq map next).2

section
variable {seq : SeqKind} {map : MapKind} {v x x' c d : Value} {xs : List Value} {id : Ident}
  {next : Ident} {place place' : Sharing.Place} {i j : Nat}

/-- Two items whose copies hand out one identity are one item. -/
theorem Gives.index_eq (hi : xs[i]? = some c) (hj : xs[j]? = some d)
    (hc : Gives seq map c (start seq map xs next i) id)
    (hd : Gives seq map d (start seq map xs next j) id) : i = j := by
  unfold Gives at hc hd
  rw [← start_succ hi] at hc
  rw [← start_succ hj] at hd
  rcases Nat.lt_trichotomy i j with hlt | heq | hgt
  · have hle : start seq map xs next (i + 1) ≤ start seq map xs next j :=
      start_le_start xs next hlt
    exact absurd (Nat.lt_of_lt_of_le hc.2 hle) (Nat.not_lt.2 hd.1)
  · exact heq
  · have hle : start seq map xs next (j + 1) ≤ start seq map xs next i :=
      start_le_start xs next hgt
    exact absurd (Nat.lt_of_lt_of_le hd.2 hle) (Nat.not_lt.2 hc.1)

/-- What the copy of an item hands out is not the identity of the copied container itself. -/
theorem Gives.ident?_ne (hi : v.opened[i]? = some c)
    (hc : Gives seq map c (start seq map v.opened next i) id) :
    Sharing.ident? (v.copyAs seq map next).1 ≠ some id := by
  intro hid
  have hv : v.isOpened := isOpened_of_mem_opened (List.mem_of_getElem? hi)
  obtain rfl := ident?_copyAs hv hid
  exact absurd (Nat.lt_of_lt_of_le hc.2 (next_copyAs_le hi)) (Nat.lt_irrefl _)

/-- Every container of a copy has an identity that was handed out for it. -/
theorem gives_of_atPlace? (hx : (v.copyAs seq map next).1.atPlace? place = some x)
    (hid : Sharing.ident? x = some id) : Gives seq map v next id := by
  obtain ⟨n, hat, hbounds⟩ := atPlace?_copyAs seq map place v next
  obtain ⟨y, hy, rfl⟩ := Option.map_eq_some_iff.1 (hat.symm.trans hx)
  obtain ⟨hle, hge⟩ := hbounds y hy
  have hopened : y.isOpened := isOpened_copyAs.symm.trans (isOpened_of_ident? hid)
  obtain rfl := ident?_copyAs hopened hid
  rw [next_copyAs hopened] at hge
  exact ⟨Nat.le_trans hle (le_next_copyItemsAs _ _), hge⟩

/-- A step to a place of a copy is a step to an item, and goes on in its copy. -/
theorem atPlace?_copyAs_cons (hx : (v.copyAs seq map next).1.atPlace? (i :: place) = some x) :
    ∃ c, v.opened[i]? = some c ∧
      (c.copyAs seq map (start seq map v.opened next i)).1.atPlace? place = some x := by
  obtain ⟨c', hc', hx⟩ := atPlace?_cons_eq_some.1 hx
  rw [opened_copyAs, copyItemsAs_getElem?] at hc'
  obtain ⟨c, hc, rfl⟩ := Option.map_eq_some_iff.1 hc'
  exact ⟨c, hc, hx⟩

/-- A copy has no container twice. -/
theorem place_eq_of_ident? (hx : (v.copyAs seq map next).1.atPlace? place = some x)
    (hx' : (v.copyAs seq map next).1.atPlace? place' = some x')
    (hid : Sharing.ident? x = some id) (hid' : Sharing.ident? x' = some id) : place = place' := by
  induction place generalizing v next place' with
  | nil =>
    cases hx
    cases place' with
    | nil => rfl
    | cons j place' =>
      obtain ⟨d, hd, hx'⟩ := atPlace?_copyAs_cons hx'
      exact absurd hid (Gives.ident?_ne hd (gives_of_atPlace? hx' hid'))
  | cons i place ih =>
    obtain ⟨c, hc, hx⟩ := atPlace?_copyAs_cons hx
    have hgives := gives_of_atPlace? hx hid
    cases place' with
    | nil =>
      cases hx'
      exact absurd hid' (Gives.ident?_ne hc hgives)
    | cons j place' =>
      obtain ⟨d, hd, hx'⟩ := atPlace?_copyAs_cons hx'
      obtain rfl := hgives.index_eq hc hd (gives_of_atPlace? hx' hid')
      obtain rfl := Option.some.inj (hc.symm.trans hd)
      rw [ih hx hx']

/-- What is no container stands in a copy where it stands in the source. -/
theorem atPlace?_copyAs_iff (hx : x.isOpened = false) :
    (v.copyAs seq map next).1.atPlace? place = some x ↔ v.atPlace? place = some x := by
  obtain ⟨n, hat, -⟩ := atPlace?_copyAs seq map place v next
  rw [hat, Option.map_eq_some_iff]
  constructor
  · rintro ⟨y, hy, rfl⟩
    rw [isOpened_copyAs] at hx
    rw [copyAs_of_not_isOpened hx]
    exact hy
  · intro h
    refine ⟨x, h, ?_⟩
    rw [copyAs_of_not_isOpened hx]

end

section
variable {seq : SeqKind} {map : MapKind} {v x : Value} {id : Ident} (now : Value) {next : Ident}
  {place : Sharing.Place}

theorem keys_copyAs : (v.copyAs seq map next).1.entries.keys = v.entries.keys := by
  cases v with
  | map id kind es => exact (copyEntriesAs_eq seq map es next).1
  | _ => rfl

theorem Lacks.write_key (h : v.Lacks id) :
    ∀ k ∈ (v.copyAs seq map next).1.entries.keys, k.write id now = k := by
  rw [keys_copyAs]
  intro k hk
  cases v with
  | map i kind es =>
    obtain ⟨e, he, rfl⟩ := List.mem_map.1 hk
    exact Key.write_of_lacks e.1 (h.of_mem (mem_children_map.2 ⟨e, he, .inl rfl⟩))
  | _ => cases hk

theorem Lacks.of_mem_opened {c : Value} (h : v.Lacks id) (hc : c ∈ v.opened) : c.Lacks id := by
  cases v with
  | seq i kind xs => exact h.of_mem hc
  | map i kind es =>
    obtain ⟨e, he, rfl⟩ := List.mem_map.1 hc
    exact h.of_mem (mem_children_map.2 ⟨e, he, .inr rfl⟩)
  | _ => cases hc

/-- A write to another object leaves a copy as it is. -/
theorem write_copyAs_of_not_gives (hlacks : v.Lacks id) (hgives : ¬ Gives seq map v next id) :
    write id now (v.copyAs seq map next).1 = (v.copyAs seq map next).1 := by
  induction v using opening generalizing next with
  | h v ih =>
    rcases hv : v.isOpened with - | -
    · rw [copyAs_of_not_isOpened hv]
      exact write_of_lacks v hlacks
    refine write_eq_self (isOpened_copyAs.trans hv) ?_ (hlacks.write_key now) fun j c' hc' => ?_
    · intro hid
      have hself : (v.copyAs seq map next).1.atPlace? [] = some (v.copyAs seq map next).1 := rfl
      exact hgives (gives_of_atPlace? hself hid)
    · rw [opened_copyAs, copyItemsAs_getElem?] at hc'
      obtain ⟨c, hc, rfl⟩ := Option.map_eq_some_iff.1 hc'
      have hmem : c ∈ v.opened := List.mem_of_getElem? hc
      refine ih c hmem (hlacks.of_mem_opened hmem) fun hc' => hgives ?_
      refine ⟨Nat.le_trans (le_start v.opened next j) hc'.1, ?_⟩
      rw [next_copyAs hv]
      exact Nat.lt_succ_of_lt (Nat.lt_of_lt_of_le hc'.2 (next_copyAs_le hc))

/-- A write to a container of a copy changes the place of the container and no other. -/
theorem write_copyAs (hlacks : v.Lacks id)
    (hx : (v.copyAs seq map next).1.atPlace? place = some x) (hid : Sharing.ident? x = some id) :
    write id now (v.copyAs seq map next).1 = setPlace now place (v.copyAs seq map next).1 := by
  induction place generalizing v next with
  | nil =>
    cases hx
    exact write_of_ident? hid
  | cons i place ih =>
    obtain ⟨c, hc, hx⟩ := atPlace?_copyAs_cons hx
    have hgives := gives_of_atPlace? hx hid
    have hv : v.isOpened := isOpened_of_mem_opened (List.mem_of_getElem? hc)
    refine write_eq_modifyOpened (isOpened_copyAs.trans hv) (Gives.ident?_ne hc hgives)
      (hlacks.write_key now) fun j d' hd' => ?_
    rw [opened_copyAs, copyItemsAs_getElem?] at hd'
    obtain ⟨d, hd, rfl⟩ := Option.map_eq_some_iff.1 hd'
    have hlacks' : d.Lacks id := hlacks.of_mem_opened (List.mem_of_getElem? hd)
    -- the identity was handed out for the one item, so the copies of the others do not show it
    by_cases hij : i = j
    · subst hij
      obtain rfl := Option.some.inj (hc.symm.trans hd)
      rw [if_pos rfl]
      exact ih hlacks' hx
    · rw [if_neg hij]
      exact write_copyAs_of_not_gives now hlacks' fun hd' => hij (hgives.index_eq hc hd hd')

/-- Whether all objects in a value have been made before the next identity. -/
def MadeBefore (next : Ident) (v : Value) : Prop :=
  ∀ x : Value, x.Within v → ∀ id, x.ident? = some id → id < next

theorem isolated_copyAs (hv : v.MadeBefore next) : v.Isolated (v.copyAs seq map next).1 := by
  have hlacks {id : Ident} (hle : next ≤ id) : v.Lacks id :=
    fun x hx hid => absurd (hv x hx id hid) (Nat.not_lt.2 hle)
  constructor
  case fresh =>
    intro place x id hx hid
    exact hlacks (gives_of_atPlace? hx hid).1
  case once =>
    intro place place' x x' id
    exact place_eq_of_ident?
  case leaves =>
    intro place x
    exact atPlace?_copyAs_iff
  case write =>
    intro place x id now hx hid
    have hlacks' := hlacks (gives_of_atPlace? hx hid).1
    exact ⟨write_of_lacks v hlacks', write_copyAs now hlacks' hx hid⟩

end

end Value

namespace Heap
variable {H : Heap} {v : Value} {next : Ident}

theorem Holds.madeBefore (hv : H.Holds v) (hbelow : H.Below next) : v.MadeBefore next :=
  fun x hx id hid => hbelow id x (hv x hx id hid)

theorem Below.mono {later : Ident} (h : H.Below next) (hle : next ≤ later) : H.Below later :=
  fun id x hx => Nat.lt_of_lt_of_le (h id x hx) hle

theorem Holds.isolated_freeze (hv : H.Holds v) (hbelow : H.Below next) :
    v.Isolated (v.freeze next).1 := by
  rw [Value.freeze_eq_copyAs]
  exact Value.isolated_copyAs (hv.madeBefore hbelow)

theorem Holds.isolated_thaw (hv : H.Holds v) (hbelow : H.Below next) :
    v.Isolated (v.thaw next).1 := by
  rw [Value.thaw_eq_copyAs]
  exact Value.isolated_copyAs (hv.madeBefore hbelow)

end Heap

section
variable {H : Heap} {v commands : Value} {next : Ident}

/-- What freezing and thawing give shares no container with the source and holds none twice, and
what is no container is the very object that it was. A write to a container of the copy changes
neither the source nor another place of the copy. All this is so whatever the source shares within
itself, and also if it is frozen or was made by an update, in which callers' functions change no
object. -/
theorem freeze_thaw_isolated [Host] (hv : H.Holds v) (hcommands : H.Holds commands)
    (hbelow : H.Below next) :
    v.Isolated (v.freeze next).1 ∧ v.Isolated (v.thaw next).1 ∧
    (∀ later, (v.freeze next).2 ≤ later →
      (v.freeze next).1.Isolated ((v.freeze next).1.thaw later).1) ∧
    (Host.Conserving → ∀ result trace, (run v commands).exec next = (.ok result, trace) →
      ∀ later, trace.next ≤ later →
        result.Isolated (result.freeze later).1 ∧ result.Isolated (result.thaw later).1) := by
  refine ⟨hv.isolated_freeze hbelow, hv.isolated_thaw hbelow, fun later hle => ?_,
    fun _ result trace hrun later hle => ?_⟩
  · have hleads := Value.copyAs_leads (.tuple .plain) .readOnly v hv
    rw [← Value.freeze_eq_copyAs] at hleads
    obtain ⟨H', hgrows, hfrozen⟩ := hleads ⟨next, []⟩ hbelow
    exact (hfrozen _ rfl).isolated_thaw (hgrows.below.mono hle)
  · obtain ⟨H', hgrows, hresult⟩ := run_leads hv hcommands ⟨next, []⟩ hbelow
    change run v commands ⟨next, []⟩ = _ at hrun
    rw [hrun] at hgrows hresult
    have hbelow' : H'.Below later := hgrows.below.mono hle
    exact ⟨(hresult result rfl).isolated_freeze hbelow', (hresult result rfl).isolated_thaw hbelow'⟩

end

/-- A list is pushed to a list that holds it twice. The copies of the three are three lists, and a
write to the second one is seen in its place only. -/
theorem freeze_thaw_isolated_list :
    let item := Value.seq 1 .list [.int 1]
    let source := Value.seq 0 .list [item, item, .set 2 []]
    let commands := Value.map 3 .plain [(.text "push", item)]
    let H : Heap := fun id => [source, item, .set 2 [], commands][id]?
    H.Holds source ∧ H.Holds commands ∧ H.Below 4 ∧
      ∃ result trace, (run source commands).exec 4 = (.ok result, trace) ∧ trace.next ≤ 5 ∧
        (result.thaw 5).1.atPlace? [1] = some (.seq 6 .list [.int 1]) ∧
        ∀ now, Value.write 6 now result = result ∧
          Value.write 6 now (result.thaw 5).1 =
            .seq 8 .list [.seq 5 .list [.int 1], now, .set 2 [], .seq 7 .list [.int 1]] := by
  intro item source commands H
  have hitem : H.Holds item := by
    refine Heap.holds_iff.2 ⟨fun id hid => by cases hid; rfl, List.forall_mem_singleton.2 ?_⟩
    exact Heap.holds_of_no_children rfl rfl
  have hset : H.Holds (.set 2 []) :=
    Heap.holds_iff.2 ⟨fun id hid => by cases hid; rfl, List.forall_mem_nil _⟩
  have hsource : H.Holds source := by
    have hitems : H.HoldsAll [item, item, .set 2 []] := List.forall_mem_cons.2
      ⟨hitem, List.forall_mem_cons.2 ⟨hitem, List.forall_mem_singleton.2 hset⟩⟩
    exact Heap.holds_iff.2 ⟨fun id hid => by cases hid; rfl, hitems⟩
  have hcommands : H.Holds commands := by
    refine Heap.holds_iff.2 ⟨fun id hid => by cases hid; rfl, fun c hc => ?_⟩
    obtain ⟨e, he, hc⟩ := Value.mem_children_map.1 hc
    obtain rfl := List.mem_singleton.1 he
    rcases hc with rfl | rfl
    · exact Heap.holds_of_no_children rfl rfl
    · exact hitem
  have hbelow : H.Below 4 := fun id x hx => (List.getElem?_eq_some_iff.1 hx).1
  obtain ⟨-, -, -, hrun⟩ := freeze_thaw_isolated hsource hcommands hbelow
  obtain ⟨-, hthaw⟩ := hrun inferInstance _ _ rfl 5 (Nat.le_refl 5)
  refine ⟨hsource, hcommands, hbelow, _, _, rfl, Nat.le_refl 5, rfl, fun now => ?_⟩
  exact hthaw.write [1] _ 6 now rfl rfl

end Amend
