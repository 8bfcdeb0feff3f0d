import Mathlib.Control.Basic

/-!
# Postconditions of fallible programs

A program that may stop with a fault is a value of `Except φ α`. Its
specification has two halves: what holds of the result if there is one, and which
faults are tolerated. `Flexus.Lib.Ends allowed x P` states both, and the rules
below follow the structure of a program: a sequence, a conclusion that is
weakened. A program that is shown to end in this way with no fault allowed does
return a result.
-/

namespace Flexus

namespace Lib

universe u

variable {φ : Type*} {α β : Type u} {allowed : φ → Prop}

/-- **A fallible program ends well**: its result satisfies the postcondition, and
it stops with allowed faults only. -/
def Ends (allowed : φ → Prop) (x : Except φ α) (P : α → Prop) : Prop :=
  match x with
  | .ok a => P a
  | .error f => allowed f

variable {P Q : α → Prop} {R : β → Prop}

@[simp]
theorem ends_ok {a : α} : Ends allowed (.ok a) P ↔ P a := Iff.rfl

@[simp]
theorem ends_pure {a : α} : Ends allowed (pure a) P ↔ P a := Iff.rfl

/-- The rule of sequence. -/
theorem Ends.bind {x : Except φ α} {k : α → Except φ β} (hx : Ends allowed x P)
    (hk : ∀ a, P a → Ends allowed (k a) R) : Ends allowed (x >>= k) R := by
  cases x with
  | ok a => exact hk a hx
  | error f => exact hx

/-- The rule of consequence. -/
theorem Ends.mono {x : Except φ α} (hx : Ends allowed x P) (h : ∀ a, P a → Q a) :
    Ends allowed x Q := by
  cases x with
  | ok a => exact h a hx
  | error f => exact hx

theorem Ends.of_ok {x : Except φ α} {a : α} (hx : Ends allowed x P) (h : x = .ok a) : P a := by
  rw [h] at hx
  exact hx

theorem Ends.of_error {x : Except φ α} {f : φ} (hx : Ends allowed x P) (h : x = .error f) :
    allowed f := by
  rw [h] at hx
  exact hx

/-! ### Programs that have a result -/

/-- **A program returns**, with a result of which the postcondition holds: no fault is tolerated. -/
abbrev Returns (x : Except φ α) (P : α → Prop) : Prop := Ends (fun _ => False) x P

theorem Returns.exists_ok {x : Except φ α} (h : Returns x P) : ∃ a, x = .ok a ∧ P a := by
  cases x with
  | ok a => exact ⟨a, rfl, h⟩
  | error f => exact h.elim

theorem exists_of_bind_eq_ok {x : Except φ α} {k : α → Except φ β} {b : β}
    (h : x >>= k = .ok b) : ∃ a, x = .ok a ∧ k a = .ok b := by
  cases x with
  | ok a => exact ⟨a, rfl, h⟩
  | error f => cases h

theorem exists_of_map_eq_ok {x : Except φ α} {f : α → β} {b : β} (h : x.map f = .ok b) :
    ∃ a, x = .ok a ∧ f a = b := by
  cases x with
  | ok a => exact ⟨a, rfl, Except.ok.inj h⟩
  | error _ => cases h

theorem eq_ok_of_toOption {x : Except φ α} {a : α} (h : x.toOption = some a) : x = .ok a := by
  cases x with
  | ok b => exact congrArg _ (Option.some.inj h)
  | error _ => cases h

/-- A result does not depend on how faults are named. -/
theorem of_mapError_eq_ok {ψ : Type*} {x : Except φ α} {f : φ → ψ} {a : α}
    (h : x.mapError f = .ok a) : x = .ok a := by
  cases x with
  | ok _ => exact congrArg _ (Except.ok.inj h)
  | error _ => cases h

/-- A program that goes on has passed its assertion. -/
theorem of_ite_error_eq_ok {c : Prop} [Decidable c] {f : φ} {x : Except φ α} {a : α}
    (h : (if c then .error f else x) = .ok a) : ¬ c ∧ x = .ok a := by
  split at h
  · cases h
  · rename_i hc
    exact ⟨hc, h⟩

end Lib

end Flexus
