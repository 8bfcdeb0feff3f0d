import Mathlib.Data.Fintype.EquivFin
import Mathlib.Data.Nat.Bitwise

/-!
# Numbers folded with their own upper digits

A hash of an index folds the digits from a position on into the digits below: `x ^^^ (x >>> n)`.
For a positive distance this loses nothing. Going down from the top digit, every digit can be
told from its folded value and the digits above it (`Flexus.Lib.eq_of_fold_mod`), so the folded
numbers of a given width are all numbers of this width (`Flexus.Lib.exists_fold_mod`).
-/

namespace Flexus

namespace Lib

variable {w n v x y : ℕ}

/-- A number folded with itself, moved down by `n` digits. -/
def fold (n x : ℕ) : ℕ := x ^^^ (x >>> n)

theorem testBit_fold (j : ℕ) :
    (fold n x).testBit j = (x.testBit j ^^ x.testBit (n + j)) := by
  rw [fold, Nat.testBit_xor, Nat.testBit_shiftRight]

/-- Multiples of a power of two can be folded without the zeros. -/
theorem fold_mul_two_pow_div (k : ℕ) : fold n (x * 2 ^ k) / 2 ^ k = fold n x := by
  refine Nat.eq_of_testBit_eq fun j => ?_
  rw [Nat.testBit_div_two_pow, testBit_fold, testBit_fold, Nat.testBit_mul_two_pow,
    Nat.testBit_mul_two_pow, decide_eq_true (by omega : k ≤ j + k),
    decide_eq_true (by omega : k ≤ n + (j + k)), Nat.add_sub_cancel, ← Nat.add_assoc,
    Nat.add_sub_cancel, Bool.true_and, Bool.true_and]

/-- **Folding loses nothing**: numbers with the same folded digits are the same. -/
theorem eq_of_fold_mod (hn : 0 < n) (hx : x < 2 ^ w) (hy : y < 2 ^ w)
    (h : fold n x % 2 ^ w = fold n y % 2 ^ w) : x = y := by
  have hup : ∀ j, w ≤ j → x.testBit j = y.testBit j := fun j hj => by
    rw [Nat.testBit_lt_two_pow (hx.trans_le (Nat.pow_le_pow_right Nat.two_pos hj)),
      Nat.testBit_lt_two_pow (hy.trans_le (Nat.pow_le_pow_right Nat.two_pos hj))]
  -- from the top digit downwards
  have hdown : ∀ d j, w ≤ j + d → x.testBit j = y.testBit j := by
    intro d
    induction d using Nat.strongRecOn with
    | ind d ih =>
      intro j hd
      rcases Nat.lt_or_ge j w with hj | hj
      · have habove : x.testBit (n + j) = y.testBit (n + j) :=
          ih (d - 1) (by omega) (n + j) (by omega)
        have hbit := congrArg (fun z => z.testBit j) h
        simp only [Nat.testBit_mod_two_pow, decide_eq_true hj, Bool.true_and, testBit_fold,
          habove] at hbit
        exact Bool.xor_left_inj.mp hbit
      · exact hup j hj
  exact Nat.eq_of_testBit_eq fun j => hdown w j (by omega)

/-- **Every number is a folded one**, as far as the given digits go. -/
theorem exists_fold_mod (hn : 0 < n) (hv : v < 2 ^ w) : ∃ x, fold n x % 2 ^ w = v := by
  let f : Fin (2 ^ w) → Fin (2 ^ w) := fun x =>
    ⟨fold n x % 2 ^ w, Nat.mod_lt _ (Nat.two_pow_pos w)⟩
  have hinj : Function.Injective f := by
    intro a b hab
    exact Fin.ext (eq_of_fold_mod hn a.isLt b.isLt (congrArg Fin.val hab))
  obtain ⟨x, hx⟩ := (Finite.injective_iff_surjective.mp hinj) ⟨v, hv⟩
  exact ⟨x, congrArg Fin.val hx⟩

end Lib

end Flexus
