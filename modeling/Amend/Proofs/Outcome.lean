import Amend.Trace

/-!
# Outcomes of updates

What it takes for an update to succeed, one step at a time (`bind_eq_ok` peels a bind), and the
rules of `Grows`: no update hands out an identity twice, since the next identity never goes back.
-/

namespace Amend.Update
variable {α β : Type}

section
variable {u : Update α} {f : α → Update β} {a : α} {b : β} {t t' : Trace}

theorem bind_eq_ok :
    (u >>= f) t = (.ok b, t') ↔ ∃ a t₁, u t = (.ok a, t₁) ∧ f a t₁ = (.ok b, t') := by
  rcases h : u t with ⟨fault | a, t₁⟩
  · rw [bind_of_error h]
    constructor
    · intro h'; cases h'
    · rintro ⟨a, t₂, h', -⟩; cases h'
  · rw [bind_of_ok h]
    constructor
    · exact fun h' => ⟨a, t₁, rfl, h'⟩
    · rintro ⟨a', t₂, h', hf⟩; cases h'; exact hf

theorem lift_eq_ok {e : Except Fault α} : lift e t = (.ok a, t') ↔ e = .ok a ∧ t = t' := by
  rw [lift_apply]
  constructor
  · intro h; cases h; exact ⟨rfl, rfl⟩
  · rintro ⟨rfl, rfl⟩; rfl

theorem lift_ok_bind (a : α) (f : α → Update β) : lift (.ok a) >>= f = f a := rfl

theorem lift_error_bind (fault : Fault) (f : α → Update β) :
    lift (.error fault) >>= f = throw fault := rfl

theorem pure_eq_ok {a' : α} : (pure a : Update α) t = (.ok a', t') ↔ a = a' ∧ t = t' := by
  rw [pure_apply]
  constructor
  · intro h; cases h; exact ⟨rfl, rfl⟩
  · rintro ⟨rfl, rfl⟩; rfl

theorem throw_eq_ok {fault : Fault} : (throw fault : Update α) t = (.ok a, t') ↔ False := by
  rw [throw_apply]
  constructor
  · intro h; cases h
  · exact False.elim

theorem fresh_eq_ok {id : Ident} :
    fresh t = (.ok id, t') ↔ id = t.next ∧ t' = { t with next := t.next + 1 } := by
  rw [fresh_apply]
  constructor
  · intro h; cases h; exact ⟨rfl, rfl⟩
  · rintro ⟨rfl, rfl⟩; rfl

end

namespace Grows
variable {u : Update α} {f : α → Update β}

theorem pure (a : α) : Grows (Pure.pure a : Update α) := ⟨fun _ => Nat.le_refl _⟩

theorem throw (fault : Fault) : Grows (throw fault : Update α) := ⟨fun _ => Nat.le_refl _⟩

theorem lift (e : Except Fault α) : Grows (lift e) := ⟨fun _ => Nat.le_refl _⟩

theorem record (entry : LogEntry) : Grows (record entry) := ⟨fun _ => Nat.le_refl _⟩

theorem fresh : Grows fresh := ⟨fun t => Nat.le_succ t.next⟩

theorem bind (hu : Grows u) (hf : ∀ a, Grows (f a)) : Grows (u >>= f) := by
  refine ⟨fun t => ?_⟩
  have h₁ := hu.next_le t
  rcases h : u t with ⟨fault | a, t₁⟩
  · rw [bind_of_error h]; rw [h] at h₁; exact h₁
  · rw [bind_of_ok h]; rw [h] at h₁; exact Nat.le_trans h₁ ((hf a).next_le t₁)

theorem le {a : α} {t t' : Trace} (hu : Grows u) (h : u t = (.ok a, t')) : t.next ≤ t'.next := by
  have := hu.next_le t
  rw [h] at this
  exact this

end Grows

end Amend.Update
