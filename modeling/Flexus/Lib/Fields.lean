import Mathlib.Data.List.Sort
import Mathlib.Data.Nat.Bitwise
import Mathlib.Tactic.Ring

/-!
# Fields of a number

A *field* of a number is a range of its binary digits: those from the position `p` on, `w` of
them. A field can be read (`Flexus.Lib.field`), taken out, so that the digits above it move down
(`Flexus.Lib.removeField`), and put in (`Flexus.Lib.insertField`); the last two are inverse to
each other. Numbers that agree in a field are ordered as they are without it
(`Flexus.Lib.removeField_lt_of_field_eq`), so a field splits the numbers below a power of two
into classes, each of which is counted through, in order, by the numbers that are left when the
field is taken out (`Flexus.Lib.map_filter_range`).
-/

namespace Flexus

namespace Lib

variable {p w v x y n : ℕ}

/-- The digits from `p` on, `w` of them. -/
def field (p w x : ℕ) : ℕ := x / 2 ^ p % 2 ^ w

/-- The other digits, those above the field moved down. -/
def removeField (p w x : ℕ) : ℕ := 2 ^ p * (x / 2 ^ (p + w)) + x % 2 ^ p

/-- The digits with a field put in at `p`. -/
def insertField (p w v x : ℕ) : ℕ := 2 ^ p * (2 ^ w * (x / 2 ^ p) + v) + x % 2 ^ p

theorem field_lt (p w x : ℕ) : field p w x < 2 ^ w := Nat.mod_lt _ (Nat.two_pow_pos w)

theorem mod_lt_two_pow (p x : ℕ) : x % 2 ^ p < 2 ^ p := Nat.mod_lt _ (Nat.two_pow_pos p)

theorem testBit_field (j : ℕ) :
    (field p w x).testBit j = (decide (j < w) && x.testBit (p + j)) := by
  rw [field, Nat.testBit_mod_two_pow, Nat.testBit_div_two_pow, Nat.add_comm]

/-- **The digits that are left** when a field is taken out. -/
theorem testBit_removeField (j : ℕ) :
    (removeField p w x).testBit j = if j < p then x.testBit j else x.testBit (j + w) := by
  rw [removeField, Nat.testBit_two_pow_mul_add _ (mod_lt_two_pow p x)]
  split
  · rename_i hj
    rw [Nat.testBit_mod_two_pow, decide_eq_true hj, Bool.true_and]
  · rename_i hj
    rw [Nat.testBit_div_two_pow]
    congr 1
    omega

/-- A field of a number is a field of its lower digits. -/
theorem field_mod (h : p + w ≤ n) : field p w (x % 2 ^ n) = field p w x := by
  refine Nat.eq_of_testBit_eq fun j => ?_
  rw [testBit_field, testBit_field, Nat.testBit_mod_two_pow]
  rcases Nat.lt_or_ge j w with hj | hj
  · rw [decide_eq_true (by omega : p + j < n), Bool.true_and]
  · rw [decide_eq_false (by omega : ¬j < w), Bool.false_and, Bool.false_and]

theorem removeField_mod (h : p ≤ n) :
    removeField p w (x % 2 ^ (n + w)) = removeField p w x % 2 ^ n := by
  refine Nat.eq_of_testBit_eq fun j => ?_
  rw [testBit_removeField, Nat.testBit_mod_two_pow, Nat.testBit_mod_two_pow,
    Nat.testBit_mod_two_pow, testBit_removeField]
  split
  · rename_i hj
    rw [decide_eq_true (by omega : j < n + w), decide_eq_true (by omega : j < n)]
  · have heq : decide (j + w < n + w) = decide (j < n) := decide_eq_decide.mpr (by omega)
    rw [heq]

theorem removeField_zero : removeField p 0 x = x := by
  rw [removeField, Nat.add_zero, Nat.div_add_mod]

/-- The two parts of a number that a position separates. -/
theorem div_mul_add (h : y < 2 ^ p) : (2 ^ p * x + y) / 2 ^ p = x := by
  rw [Nat.mul_add_div (Nat.two_pow_pos p), Nat.div_eq_of_lt h, Nat.add_zero]

theorem mod_mul_add (h : y < 2 ^ p) : (2 ^ p * x + y) % 2 ^ p = y := by
  rw [Nat.mul_add_mod, Nat.mod_eq_of_lt h]

theorem insertField_div : insertField p w v x / 2 ^ p = 2 ^ w * (x / 2 ^ p) + v :=
  div_mul_add (mod_lt_two_pow p x)

/-- What was put in is read. -/
theorem field_insertField (hv : v < 2 ^ w) : field p w (insertField p w v x) = v := by
  rw [field, insertField_div, mod_mul_add hv]

/-- What was put in is taken out again. -/
theorem removeField_insertField (hv : v < 2 ^ w) :
    removeField p w (insertField p w v x) = x := by
  rw [removeField, Nat.pow_add, ← Nat.div_div_eq_div_mul, insertField_div, div_mul_add hv,
    insertField, mod_mul_add (mod_lt_two_pow p x)]
  exact Nat.div_add_mod x (2 ^ p)

/-- A number is its field put into the rest. -/
theorem insertField_field : insertField p w (field p w x) (removeField p w x) = x := by
  have hdiv : removeField p w x / 2 ^ p = x / 2 ^ (p + w) := div_mul_add (mod_lt_two_pow p x)
  have hmod : removeField p w x % 2 ^ p = x % 2 ^ p := mod_mul_add (mod_lt_two_pow p x)
  rw [insertField, hdiv, hmod, field, Nat.pow_add, ← Nat.div_div_eq_div_mul,
    Nat.div_add_mod (x / 2 ^ p) (2 ^ w)]
  exact Nat.div_add_mod x (2 ^ p)

/-- **Putting the same field in keeps the order.** -/
theorem insertField_lt_insertField (h : x < y) : insertField p w v x < insertField p w v y := by
  have hle : x / 2 ^ p ≤ y / 2 ^ p := Nat.div_le_div_right h.le
  rcases Nat.lt_or_eq_of_le hle with hlt | heq
  · have hx := mod_lt_two_pow p x
    have hstep : 2 ^ w * (x / 2 ^ p) + v + 1 ≤ 2 ^ w * (y / 2 ^ p) + v := by
      have hw := Nat.two_pow_pos w
      have := Nat.mul_le_mul_left (2 ^ w) (Nat.succ_le_of_lt hlt)
      rw [Nat.mul_succ] at this
      omega
    have hmul := Nat.mul_le_mul_left (2 ^ p) hstep
    rw [Nat.mul_succ] at hmul
    rw [insertField, insertField]
    omega
  · have hmod : x % 2 ^ p < y % 2 ^ p := by
      have hx := Nat.div_add_mod x (2 ^ p)
      have hy := Nat.div_add_mod y (2 ^ p)
      rw [heq] at hx
      omega
    rw [insertField, insertField, heq]
    exact Nat.add_lt_add_left hmod _

/-- **Numbers that agree in a field are ordered as they are without it.** -/
theorem removeField_lt_of_field_eq (h : x < y) (hf : field p w x = field p w y) :
    removeField p w x < removeField p w y := by
  by_contra hc
  rcases Nat.lt_or_eq_of_le (Nat.not_lt.mp hc) with hlt | heq
  · have hins := insertField_lt_insertField (p := p) (w := w) (v := field p w y) hlt
    rw [insertField_field, ← hf, insertField_field] at hins
    exact Nat.lt_asymm h hins
  · have hx : insertField p w (field p w x) (removeField p w x) = x := insertField_field
    rw [← heq, hf, insertField_field] at hx
    exact Nat.ne_of_lt h hx.symm

theorem div_lt_two_pow (h : x < 2 ^ (n + p)) : x / 2 ^ p < 2 ^ n :=
  Nat.div_lt_of_lt_mul (by rwa [← Nat.pow_add, Nat.add_comm])

theorem mul_add_lt_two_pow (hy : y < 2 ^ p) (hx : x < 2 ^ n) : 2 ^ p * x + y < 2 ^ (p + n) := by
  have hmul := Nat.mul_le_mul_left (2 ^ p) (Nat.succ_le_of_lt hx)
  rw [Nat.mul_succ, ← Nat.pow_add] at hmul
  omega

/-- A field is taken out of a number with `n` more digits than it has. -/
theorem removeField_lt (hp : p ≤ n) (h : x < 2 ^ (n + w)) : removeField p w x < 2 ^ n := by
  obtain ⟨m, rfl⟩ := Nat.exists_eq_add_of_le hp
  refine mul_add_lt_two_pow (mod_lt_two_pow p x) (div_lt_two_pow ?_)
  rwa [Nat.add_comm m (p + w), Nat.add_right_comm]

/-- A field is put into a number. -/
theorem insertField_lt (hp : p ≤ n) (hv : v < 2 ^ w) (h : x < 2 ^ n) :
    insertField p w v x < 2 ^ (n + w) := by
  obtain ⟨m, rfl⟩ := Nat.exists_eq_add_of_le hp
  have hdiv : x / 2 ^ p < 2 ^ m := div_lt_two_pow (by rwa [Nat.add_comm m p])
  have hlt := mul_add_lt_two_pow (mod_lt_two_pow p x) (mul_add_lt_two_pow hv hdiv)
  rwa [show p + (w + m) = p + m + w by omega] at hlt

/-- **Counting through a class of numbers.** If a function numbers the members of a class
below `n`, in their order and without gaps, the list of the members is numbered in its order. -/
theorem map_filter_range {q : ℕ → Bool} {f : ℕ → ℕ} {m : ℕ}
    (hlt : ∀ x < n, q x = true → f x < m)
    (hmono : ∀ x y, x < y → y < n → q x = true → q y = true → f x < f y)
    (hsurj : ∀ s < m, ∃ x < n, q x = true ∧ f x = s) :
    ((List.range n).filter q).map f = List.range m := by
  have hsorted : (((List.range n).filter q).map f).Pairwise (· < ·) := by
    rw [List.pairwise_map]
    refine (List.Pairwise.filter q List.pairwise_lt_range).imp_of_mem ?_
    intro x y hx hy hxy
    rw [List.mem_filter, List.mem_range] at hx hy
    exact hmono x y hxy hy.1 hx.2 hy.2
  refine hsorted.eq_of_mem_iff List.pairwise_lt_range fun s => ?_
  rw [List.mem_map, List.mem_range]
  constructor
  · rintro ⟨x, hx, rfl⟩
    rw [List.mem_filter, List.mem_range] at hx
    exact hlt x hx.1 hx.2
  · intro hs
    obtain ⟨x, hx, hq, rfl⟩ := hsurj s hs
    exact ⟨x, List.mem_filter.mpr ⟨List.mem_range.mpr hx, hq⟩, rfl⟩

/-- **The numbers with a given field** are numbered by what is left without it. -/
theorem map_filter_field {b : ℕ} (hb : b < 2 ^ w) (hp : p ≤ n) :
    ((List.range (2 ^ (n + w))).filter fun x => field p w x = b).map (removeField p w) =
      List.range (2 ^ n) := by
  refine map_filter_range ?_ ?_ ?_
  · exact fun x hx _ => removeField_lt hp hx
  · intro x y hxy _ hx hy
    exact removeField_lt_of_field_eq hxy
      ((of_decide_eq_true hx).trans (of_decide_eq_true hy).symm)
  · intro s hs
    exact ⟨insertField p w b s, insertField_lt hp hb hs, decide_eq_true (field_insertField hb),
      removeField_insertField hb⟩

/-- The member with a given number stands in that place. -/
theorem getElem?_filter_range {q : ℕ → Bool} {f : ℕ → ℕ} {m : ℕ}
    (h : ((List.range n).filter q).map f = List.range m) {x : ℕ} (hx : x < n) (hq : q x = true) :
    ((List.range n).filter q)[f x]? = some x := by
  have hmem : x ∈ (List.range n).filter q := List.mem_filter.mpr ⟨List.mem_range.mpr hx, hq⟩
  obtain ⟨i, hi, hget⟩ := List.getElem_of_mem hmem
  have hmap : (((List.range n).filter q).map f)[i]? = some (f x) := by
    rw [List.getElem?_map, List.getElem?_eq_getElem hi, hget]
    rfl
  rw [h] at hmap
  obtain ⟨hlt, heq⟩ := List.getElem?_eq_some_iff.mp hmap
  rw [List.getElem_range] at heq
  rw [← heq, List.getElem?_eq_getElem hi, hget]

end Lib

end Flexus
