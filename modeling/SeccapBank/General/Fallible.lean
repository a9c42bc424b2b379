import Mathlib

set_option autoImplicit false

/- Stateful computations that may end in a fault. A fault keeps neither a value
nor a state. -/
namespace Fallible

variable {σ φ α β : Type}

abbrev Exec (σ φ : Type) := StateT σ (Except φ)

@[simp] theorem pure_eq_ok (a : α) : (pure a : Except φ α) = .ok a := rfl

@[simp] theorem throw_eq_error (e : φ) : (throw e : Except φ α) = .error e := rfl

@[simp] theorem ok_bind (a : α) (f : α → Except φ β) : (Except.ok a >>= f) = f a := rfl

@[simp] theorem error_bind (e : φ) (f : α → Except φ β) : (Except.error e >>= f) = .error e := rfl

/-- A sequence returns exactly when both of its parts do. -/
theorem run_bind_ok {x : Exec σ φ α} {f : α → Exec σ φ β} {s u : σ} {b : β} :
    (x >>= f).run s = .ok (b, u) ↔
      ∃ a t, x.run s = .ok (a, t) ∧ (f a).run t = .ok (b, u) := by
  rw [StateT.run_bind]
  cases x.run s with
  | error e => simp
  | ok p =>
      constructor
      · intro rest
        exact ⟨p.1, p.2, rfl, rest⟩
      · rintro ⟨a, t, same, rest⟩
        cases same
        exact rest

theorem run_bind_of_ok {x : Exec σ φ α} {s t : σ} {a : α} (first : x.run s = .ok (a, t))
    (f : α → Exec σ φ β) : (x >>= f).run s = (f a).run t := by
  rw [StateT.run_bind, first, ok_bind]

theorem run_bind_of_error {x : Exec σ φ α} {s : σ} {e : φ} (first : x.run s = .error e)
    (f : α → Exec σ φ β) : (x >>= f).run s = .error e := by
  rw [StateT.run_bind, first, error_bind]

/-- A sequence ends with a fault exactly when its first part does, or its second part
behind a first one that returned. -/
theorem run_bind_error {x : Exec σ φ α} {f : α → Exec σ φ β} {s : σ} {e : φ} :
    (x >>= f).run s = .error e ↔
      x.run s = .error e ∨ ∃ a t, x.run s = .ok (a, t) ∧ (f a).run t = .error e := by
  rw [StateT.run_bind]
  cases x.run s with
  | error e => simp
  | ok p =>
      constructor
      · intro rest
        exact .inr ⟨p.1, p.2, rfl, rest⟩
      · rintro (same | ⟨a, t, same, rest⟩)
        · cases same
        · cases same
          exact rest

@[simp] theorem get_run (s : σ) : (get : Exec σ φ σ).run s = .ok (s, s) := rfl

theorem run_map_ok {x : Exec σ φ α} {f : α → β} {s t : σ} {b : β} :
    (f <$> x).run s = .ok (b, t) ↔ ∃ a, x.run s = .ok (a, t) ∧ b = f a := by
  rw [StateT.run_map]
  cases x.run s with
  | error e => simp
  | ok p =>
      constructor
      · intro rest
        cases rest
        exact ⟨p.1, rfl, rfl⟩
      · rintro ⟨a, same, rfl⟩
        cases same
        rfl

theorem run_map_error {x : Exec σ φ α} {f : α → β} {s : σ} {e : φ} :
    (f <$> x).run s = .error e ↔ x.run s = .error e := by
  rw [StateT.run_map]
  cases x.run s with
  | error first =>
      constructor
      · intro same
        cases same
        rfl
      · intro same
        cases same
        rfl
  | ok p =>
      constructor
      · intro same
        cases same
      · intro same
        cases same

theorem run_lift_ok {x : Except φ α} {s t : σ} {a : α} :
    (StateT.lift x : Exec σ φ α).run s = .ok (a, t) ↔ x = .ok a ∧ t = s := by
  rw [StateT.run_lift]
  cases x with
  | error e => simp
  | ok found => simp [eq_comm]

theorem run_lift_error {x : Except φ α} {s : σ} {e : φ} :
    (StateT.lift x : Exec σ φ α).run s = .error e ↔ x = .error e := by
  rw [StateT.run_lift]
  cases x with
  | error first => simp
  | ok found => simp

theorem bind_ok {x : Except φ α} {f : α → Except φ β} {b : β} (bound : (x >>= f) = .ok b) :
    ∃ a, x = .ok a ∧ f a = .ok b := by
  cases x with
  | error e => cases bound
  | ok a => exact ⟨a, rfl, bound⟩

theorem map_ok {x : Except φ α} {f : α → β} {b : β} (mapped : x.map f = .ok b) :
    ∃ a, x = .ok a ∧ f a = b := by
  cases x with
  | error e => cases mapped
  | ok a =>
      cases mapped
      exact ⟨a, rfl, rfl⟩

/-- The value of an optional result, or a fault where there is none. -/
def orFault (e : φ) : Option α → Except φ α
  | some a => .ok a
  | none => .error e

@[simp] theorem orFault_some (e : φ) (a : α) : orFault e (some a) = .ok a := rfl

@[simp] theorem orFault_none (e : φ) : orFault e (none : Option α) = .error e := rfl

end Fallible
