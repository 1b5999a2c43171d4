import Amend.Value.Key

/-!
# Entries in order

Looking up and writing the entries of a mapping. Writing to a key that is there keeps its place and
the key object that stands there; a new key goes to the end. Main statements: what `put` does to the
keys (`keys_put_of_has`, `keys_put_of_not_has`) and to a lookup (`find?_put_same`,
`find?_put_of_not_same`).
-/

namespace Amend.Entries
variable {α : Type}

def find? (k : Key) : Entries α → Option α
  | [] => none
  | (k', a) :: es => if k'.Same k then some a else find? k es

def has (k : Key) (es : Entries α) : Bool := (find? k es).isSome

def keys (es : Entries α) : List Key := es.map Prod.fst

def put (k : Key) (a : α) : Entries α → Entries α
  | [] => [(k, a)]
  | (k', a') :: es => if k'.Same k then (k', a) :: es else (k', a') :: put k a es

/-- Writes one entry unless its key is there. -/
def fill (k : Key) (a : α) (es : Entries α) : Entries α := if has k es then es else es ++ [(k, a)]

def putAll (es : Entries α) (new : Entries α) : Entries α :=
  new.foldl (fun es (k, a) => put k a es) es

def fillAll (es : Entries α) (new : Entries α) : Entries α :=
  new.foldl (fun es (k, a) => fill k a es) es

section
variable {k k' : Key} {a : α} {es : Entries α}

theorem find?_congr (h : k.Same k') : es.find? k = es.find? k' := by
  induction es with
  | nil => rfl
  | cons e es ih =>
    obtain ⟨l, a'⟩ := e
    have hl : l.Same k ↔ l.Same k' := ⟨fun hk => hk.trans h, fun hk => hk.trans h.symm⟩
    simp only [find?, hl, ih]

theorem find?_put_same : (put k a es).find? k = some a := by
  induction es with
  | nil => simp [put, find?, Key.Same.refl]
  | cons e es ih =>
    obtain ⟨k', a'⟩ := e
    by_cases h : k'.Same k <;> simp [put, find?, h, ih]

theorem find?_put_of_not_same (h : ¬ k.Same k') : (put k a es).find? k' = es.find? k' := by
  induction es with
  | nil => simp [put, find?, h]
  | cons e es ih =>
    obtain ⟨k'', a'⟩ := e
    by_cases h' : k''.Same k
    · have : ¬ k''.Same k' := fun h'' => h (h'.symm.trans h'')
      simp [put, find?, h', this]
    · simp [put, find?, h', ih]

theorem keys_put_of_has (h : has k es) : (put k a es).keys = es.keys := by
  induction es with
  | nil => simp [has, find?] at h
  | cons e es ih =>
    obtain ⟨k', a'⟩ := e
    by_cases h' : k'.Same k
    · simp [put, keys, h']
    · have : has k es := by simpa [has, find?, h'] using h
      simpa [put, keys, h'] using ih this

theorem keys_put_of_not_has (h : ¬ has k es) : (put k a es).keys = es.keys ++ [k] := by
  induction es with
  | nil => rfl
  | cons e es ih =>
    obtain ⟨k', a'⟩ := e
    by_cases h' : k'.Same k
    · simp [has, find?, h'] at h
    · have : ¬ has k es := by simpa [has, find?, h'] using h
      simpa [put, keys, h'] using ih this

theorem find?_append {es' : Entries α} :
    (es ++ es').find? k = (es.find? k).or (es'.find? k) := by
  induction es with
  | nil => rfl
  | cons e es ih =>
    obtain ⟨l, a'⟩ := e
    by_cases h : l.Same k
    · simp [find?, h]
    · simpa [find?, h] using ih

theorem find?_fill_of_some (h : es.find? k = some a) (k' : Key) (a' : α) :
    (fill k' a' es).find? k = some a := by
  unfold fill
  split
  · exact h
  · rw [find?_append, h, Option.some_or]

theorem find?_putAll_of_not_has {new : Entries α} (h : has k new = false) :
    (putAll es new).find? k = es.find? k := by
  induction new generalizing es with
  | nil => rfl
  | cons e new ih =>
    obtain ⟨l, a'⟩ := e
    by_cases hl : l.Same k
    · simp [has, find?, hl] at h
    · have hnew : has k new = false := by simpa [has, find?, hl] using h
      exact (ih hnew).trans (find?_put_of_not_same hl)

theorem find?_fillAll_of_some (h : es.find? k = some a) (new : Entries α) :
    (fillAll es new).find? k = some a := by
  induction new generalizing es with
  | nil => exact h
  | cons e new ih => exact ih (find?_fill_of_some h e.1 e.2)

theorem forall_put {P : α → Prop} (h : ∀ e ∈ es, P e.2) (ha : P a) : ∀ e ∈ put k a es, P e.2 := by
  induction es with
  | nil => simpa [put] using ha
  | cons e es ih =>
    obtain ⟨he, hes⟩ := List.forall_mem_cons.1 h
    unfold put
    split
    · exact List.forall_mem_cons.2 ⟨ha, hes⟩
    · exact List.forall_mem_cons.2 ⟨he, ih hes⟩

theorem forall_fill {P : α → Prop} (h : ∀ e ∈ es, P e.2) (ha : P a) : ∀ e ∈ fill k a es, P e.2 := by
  unfold fill
  split
  · exact h
  · exact List.forall_mem_append.2 ⟨h, by simpa using ha⟩

theorem forall_putAll {P : α → Prop} {new : Entries α} (h : ∀ e ∈ es, P e.2)
    (hnew : ∀ e ∈ new, P e.2) : ∀ e ∈ putAll es new, P e.2 := by
  induction new generalizing es with
  | nil => exact h
  | cons e new ih =>
    obtain ⟨he, hrest⟩ := List.forall_mem_cons.1 hnew
    exact ih (forall_put h he) hrest

theorem forall_fillAll {P : α → Prop} {new : Entries α} (h : ∀ e ∈ es, P e.2)
    (hnew : ∀ e ∈ new, P e.2) : ∀ e ∈ fillAll es new, P e.2 := by
  induction new generalizing es with
  | nil => exact h
  | cons e new ih =>
    obtain ⟨he, hrest⟩ := List.forall_mem_cons.1 hnew
    exact ih (forall_fill h he) hrest

theorem forall_keys_put {P : Key → Prop} (h : ∀ e ∈ es, P e.1) (hk : P k) :
    ∀ e ∈ put k a es, P e.1 := by
  induction es with
  | nil => simpa [put] using hk
  | cons e es ih =>
    obtain ⟨he, hes⟩ := List.forall_mem_cons.1 h
    unfold put
    split
    · exact List.forall_mem_cons.2 ⟨he, hes⟩
    · exact List.forall_mem_cons.2 ⟨he, ih hes⟩

theorem forall_keys_fill {P : Key → Prop} (h : ∀ e ∈ es, P e.1) (hk : P k) :
    ∀ e ∈ fill k a es, P e.1 := by
  unfold fill
  split
  · exact h
  · exact List.forall_mem_append.2 ⟨h, by simpa using hk⟩

theorem forall_keys_putAll {P : Key → Prop} {new : Entries α} (h : ∀ e ∈ es, P e.1)
    (hnew : ∀ e ∈ new, P e.1) : ∀ e ∈ putAll es new, P e.1 := by
  induction new generalizing es with
  | nil => exact h
  | cons e new ih =>
    obtain ⟨he, hrest⟩ := List.forall_mem_cons.1 hnew
    exact ih (forall_keys_put h he) hrest

theorem forall_keys_fillAll {P : Key → Prop} {new : Entries α} (h : ∀ e ∈ es, P e.1)
    (hnew : ∀ e ∈ new, P e.1) : ∀ e ∈ fillAll es new, P e.1 := by
  induction new generalizing es with
  | nil => exact h
  | cons e new ih =>
    obtain ⟨he, hrest⟩ := List.forall_mem_cons.1 hnew
    exact ih (forall_keys_fill h he) hrest

theorem mem_of_find? (h : es.find? k = some a) : ∃ e ∈ es, e.2 = a := by
  induction es with
  | nil => cases h
  | cons e es ih =>
    obtain ⟨l, a'⟩ := e
    simp only [find?] at h
    split at h
    · cases h; exact ⟨_, List.mem_cons_self .., rfl⟩
    · obtain ⟨e, he, rfl⟩ := ih h
      exact ⟨e, List.mem_cons_of_mem _ he, rfl⟩

end

end Amend.Entries
