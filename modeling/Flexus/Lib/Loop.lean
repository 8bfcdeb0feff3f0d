import Mathlib.Control.Basic
import Mathlib.Data.Nat.Notation

/-!
# Loops

A `while` loop whose body may fault, run with a bound on the number of its iterations: a
loop that would go on beyond the bound faults as well. The rule for such a loop asks for
an invariant and for a variant that every iteration decreases, and promises that the loop
comes to its end when the bound is not below the variant.
-/

namespace Flexus

namespace Lib

variable {σ φ : Type*}

/-- **`while`**, with at most `n` iterations. -/
def loop (guard : σ → Bool) (body : σ → Except φ σ) (stuck : φ) : ℕ → σ → Except φ σ
  | 0, s => if guard s then .error stuck else .ok s
  | n + 1, s =>
    if guard s then
      match body s with
      | .error f => .error f
      | .ok t => loop guard body stuck n t
    else .ok s

variable {guard : σ → Bool} {body : σ → Except φ σ} {stuck : φ}

/-- A loop that is not entered. -/
theorem loop_of_not {s : σ} (h : guard s = false) (n : ℕ) : loop guard body stuck n s = .ok s := by
  cases n with
  | zero => rw [loop, h]; rfl
  | succ n => rw [loop, h]; rfl

/-- **The rule of the loop.** -/
theorem loop_spec {I : σ → Prop} {μ : σ → ℕ} (hbody : ∀ s, I s → guard s = true →
      ∃ t, body s = .ok t ∧ I t ∧ μ t < μ s) {n : ℕ} {s : σ} (hs : I s) (hn : μ s ≤ n) :
    ∃ t, loop guard body stuck n s = .ok t ∧ I t ∧ guard t = false := by
  induction n generalizing s with
  | zero =>
    cases hg : guard s with
    | false => exact ⟨s, loop_of_not hg 0, hs, hg⟩
    | true =>
      obtain ⟨t, -, -, hlt⟩ := hbody s hs hg
      omega
  | succ n ih =>
    cases hg : guard s with
    | false => exact ⟨s, loop_of_not hg _, hs, hg⟩
    | true =>
      obtain ⟨t, ht, hI, hlt⟩ := hbody s hs hg
      obtain ⟨u, hu, hIu, hgu⟩ := ih hI (by omega)
      refine ⟨u, ?_, hIu, hgu⟩
      rw [loop, hg, ht]
      exact hu

end Lib

end Flexus
