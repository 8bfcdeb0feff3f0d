import Mathlib.Algebra.Group.Nat.Defs

/-!
# The low bits of a word

Masks of the low bits, as page sizes and block sizes are given. What is kept above a mask
determines what is kept above a larger one (`Flexus.Lib.above_eq_of_le`).
-/

namespace Flexus

namespace Lib

variable {w k l : ℕ} {x y c : BitVec w}

/-- The mask of the low bits. -/
def lowBits (w k : ℕ) : BitVec w := BitVec.ofNat w (2 ^ k - 1)

theorem getLsbD_lowBits (i : ℕ) : (lowBits w k).getLsbD i = (decide (i < w) && decide (i < k)) := by
  rw [lowBits, BitVec.getLsbD_ofNat, Nat.testBit_two_pow_sub_one]

/-- The test of a single bit. -/
theorem and_twoPow_ne_zero (hk : k < w) : (x &&& BitVec.twoPow w k != 0) = x.getLsbD k := by
  have hpow : BitVec.twoPow w k ≠ 0 := by
    intro h
    have hzero : (BitVec.twoPow w k).getLsbD k = false := by
      rw [h]
      exact BitVec.getLsbD_zero
    rw [BitVec.getLsbD_twoPow, decide_eq_true hk, decide_eq_true rfl] at hzero
    exact Bool.noConfusion hzero
  rw [BitVec.and_twoPow]
  split
  · rename_i hx
    rw [hx, bne_iff_ne]
    exact hpow
  · rename_i hx
    rw [Bool.not_eq_true] at hx
    rw [hx]
    exact bne_self_eq_false (0 : BitVec w)

/-- A bit that is set is the only one that is new. -/
theorem getLsbD_or_twoPow {i : ℕ} (hi : i ≠ k) :
    (x ||| BitVec.twoPow w k).getLsbD i = x.getLsbD i := by
  rw [BitVec.getLsbD_or, BitVec.getLsbD_twoPow, decide_eq_false (Ne.symm hi), Bool.and_false,
    Bool.or_false]

/-- A bit that is cleared is the only one that is gone. -/
theorem getLsbD_and_not_twoPow {i : ℕ} (hi : i ≠ k) :
    (x &&& ~~~BitVec.twoPow w k).getLsbD i = x.getLsbD i := by
  rw [BitVec.getLsbD_and, BitVec.getLsbD_not, BitVec.getLsbD_twoPow, decide_eq_false (Ne.symm hi),
    Bool.and_false, Bool.not_false, Bool.and_true]
  rcases Nat.lt_or_ge i w with hw | hw
  · rw [decide_eq_true hw, Bool.and_true]
  · rw [BitVec.getLsbD_of_ge x i hw, Bool.false_and]

/-- **What is above a mask**, bit by bit. -/
theorem getLsbD_above (i : ℕ) :
    (x &&& ~~~lowBits w k).getLsbD i = (x.getLsbD i && !decide (i < k)) := by
  rw [BitVec.getLsbD_and, BitVec.getLsbD_not, getLsbD_lowBits]
  rcases Nat.lt_or_ge i w with hi | hi
  · simp [hi]
  · simp [BitVec.getLsbD_of_ge x i hi]

/-- The bits above a mask agree. -/
theorem above_eq_iff :
    x &&& ~~~lowBits w k = y &&& ~~~lowBits w k ↔
      ∀ i, k ≤ i → x.getLsbD i = y.getLsbD i := by
  constructor
  · intro h i hi
    have hbit : (x &&& ~~~lowBits w k).getLsbD i = (y &&& ~~~lowBits w k).getLsbD i := by rw [h]
    rw [getLsbD_above, getLsbD_above, decide_eq_false (Nat.not_lt.mpr hi)] at hbit
    simpa only [Bool.not_false, Bool.and_true] using hbit
  · intro h
    refine BitVec.eq_of_getLsbD_eq fun i hi => ?_
    rw [getLsbD_above, getLsbD_above]
    rcases Nat.lt_or_ge i k with hk | hk
    · simp [hk]
    · rw [h i hk]

/-- **What is above a mask determines what is above a larger one.** -/
theorem above_eq_of_le (hkl : k ≤ l) (h : x &&& ~~~lowBits w k = y &&& ~~~lowBits w k) :
    x &&& ~~~lowBits w l = y &&& ~~~lowBits w l :=
  above_eq_iff.mpr fun i hi => above_eq_iff.mp h i (Nat.le_trans hkl hi)

/-- What is above a mask, above a larger one. -/
theorem above_above (hkl : k ≤ l) : (x &&& ~~~lowBits w k) &&& ~~~lowBits w l =
    x &&& ~~~lowBits w l := by
  refine BitVec.eq_of_getLsbD_eq fun i hi => ?_
  rw [getLsbD_above, getLsbD_above, getLsbD_above]
  rcases Nat.lt_or_ge i l with hl | hl
  · simp [hl]
  · simp [Nat.not_lt.mpr (Nat.le_trans hkl hl)]

/-- What is above a mask is all that is left by a shift. -/
theorem ushiftRight_eq_of_above (h : x &&& ~~~lowBits w k = y &&& ~~~lowBits w k) :
    x >>> k = y >>> k := by
  refine BitVec.eq_of_getLsbD_eq fun i hi => ?_
  rw [BitVec.getLsbD_ushiftRight, BitVec.getLsbD_ushiftRight]
  exact above_eq_iff.mp h (k + i) (Nat.le_add_right k i)

/-- What is left by a shift is all that is above a mask. -/
theorem above_eq_of_ushiftRight (h : x >>> k = y >>> k) :
    x &&& ~~~lowBits w k = y &&& ~~~lowBits w k := by
  refine above_eq_iff.mpr fun i hi => ?_
  have hbit : (x >>> k).getLsbD (i - k) = (y >>> k).getLsbD (i - k) := by rw [h]
  rw [BitVec.getLsbD_ushiftRight, BitVec.getLsbD_ushiftRight, Nat.add_sub_cancel' hi] at hbit
  exact hbit

/-- Below a mask there is nothing above it. -/
theorem getLsbD_of_above_eq_zero (h : c &&& ~~~lowBits w k = 0) {i : ℕ} (hi : k ≤ i) :
    c.getLsbD i = false := by
  have hbit : (c &&& ~~~lowBits w k).getLsbD i = false := by
    rw [h]
    exact BitVec.getLsbD_zero
  rw [getLsbD_above, decide_eq_false (Nat.not_lt.mpr hi)] at hbit
  simpa only [Bool.not_false, Bool.and_true] using hbit

/-- **A word of two parts** keeps its low part and what is above a larger mask. -/
theorem above_or_and (hkl : k ≤ l) (hc : c &&& ~~~lowBits w k = 0) :
    ((x &&& ~~~lowBits w k) ||| c) &&& (~~~lowBits w l ||| lowBits w k) =
      c ||| (x &&& ~~~lowBits w l) := by
  refine BitVec.eq_of_getLsbD_eq fun i hi => ?_
  rw [BitVec.getLsbD_and, BitVec.getLsbD_or, BitVec.getLsbD_or, BitVec.getLsbD_or,
    BitVec.getLsbD_not, getLsbD_above, getLsbD_above, getLsbD_lowBits, getLsbD_lowBits]
  rcases Nat.lt_or_ge i k with hk | hk
  · simp [hi, hk, Nat.lt_of_lt_of_le hk hkl]
  · rw [getLsbD_of_above_eq_zero hc hk]
    simp [hi, Nat.not_lt.mpr hk]

/-- Of a word of two parts, what is above the mask is the high part. -/
theorem or_above (hc : c &&& ~~~lowBits w k = 0) :
    (c ||| x) &&& ~~~lowBits w k = x &&& ~~~lowBits w k := by
  refine above_eq_iff.mpr fun i hi => ?_
  rw [BitVec.getLsbD_or, getLsbD_of_above_eq_zero hc hi, Bool.false_or]

/-- A field of a word, by a shift and a mask. -/
theorem ushiftRight_and_lowBits (s n : ℕ) :
    (x >>> s) &&& lowBits w n = (x.extractLsb' s n).setWidth w := by
  refine BitVec.eq_of_getLsbD_eq fun i hi => ?_
  rw [BitVec.getLsbD_and, BitVec.getLsbD_ushiftRight, getLsbD_lowBits, BitVec.getLsbD_setWidth,
    BitVec.getLsbD_extractLsb', decide_eq_true hi, Bool.true_and, Bool.true_and, Bool.and_comm]

/-- A bit of a word, by a shift and a mask. -/
theorem ushiftRight_and_one (hw : 1 < w) (s : ℕ) : ((x >>> s) &&& 1#w != 0) = x.getLsbD s := by
  have hone : (1#w : BitVec w) = BitVec.twoPow w 0 := (BitVec.twoPow_zero).symm
  rw [hone, and_twoPow_ne_zero (by omega), BitVec.getLsbD_ushiftRight, Nat.add_zero]

/-- **A field is extended by its sign**: where its highest bit is set, so is all that is above. -/
theorem signExtend_of_mask {n : ℕ} (f : BitVec n) (h0 : 0 < n) (hn : n ≤ w) :
    (if f.setWidth w &&& BitVec.twoPow w (n - 1) != 0 then f.setWidth w ||| ~~~lowBits w n
      else f.setWidth w) = f.signExtend w := by
  have hmsb : (f.setWidth w).getLsbD (n - 1) = f.msb := by
    rw [BitVec.getLsbD_setWidth, decide_eq_true (by omega), Bool.true_and,
      ← BitVec.msb_eq_getLsbD_last]
  rw [and_twoPow_ne_zero (by omega), hmsb]
  refine BitVec.eq_of_getLsbD_eq fun i hi => ?_
  rw [BitVec.getLsbD_signExtend, decide_eq_true hi, Bool.true_and]
  by_cases hm : f.msb = true
  · rw [if_pos hm, BitVec.getLsbD_or, BitVec.getLsbD_not, BitVec.getLsbD_setWidth, getLsbD_lowBits,
      decide_eq_true hi, hm]
    by_cases hin : i < n
    · simp [hin]
    · simp [hin]
  · rw [if_neg hm, BitVec.getLsbD_setWidth, decide_eq_true hi, Bool.true_and,
      Bool.eq_false_iff.mpr hm]
    by_cases hin : i < n
    · rw [if_pos hin]
    · rw [if_neg hin, BitVec.getLsbD_of_ge f i (Nat.not_lt.mp hin)]

/-- What is above a mask, as a number. -/
theorem toNat_above (x : BitVec w) (k : ℕ) :
    (x &&& ~~~lowBits w k).toNat = 2 ^ k * (x.toNat / 2 ^ k) := by
  refine Nat.eq_of_testBit_eq fun i => ?_
  have hleft : (x &&& ~~~lowBits w k).toNat.testBit i = (x.getLsbD i && !decide (i < k)) :=
    getLsbD_above i
  rw [hleft, Nat.testBit_two_pow_mul, Nat.testBit_div_two_pow]
  rcases Nat.lt_or_ge i k with hi | hi
  · rw [decide_eq_true hi, decide_eq_false (by omega), Bool.not_true, Bool.and_false,
      Bool.false_and]
  · rw [decide_eq_false (by omega), decide_eq_true hi, Nat.sub_add_cancel hi, Bool.not_false,
      Bool.and_true, Bool.true_and]
    rfl

/-- What a mask leaves, as a number. -/
theorem toNat_and_lowBits (hk : k ≤ w) (x : BitVec w) :
    (x &&& lowBits w k).toNat = x.toNat % 2 ^ k := by
  have hlt : 2 ^ k - 1 < 2 ^ w := Nat.lt_of_lt_of_le
    (Nat.sub_lt (Nat.two_pow_pos k) Nat.one_pos) (Nat.pow_le_pow_right (by decide) hk)
  rw [BitVec.toNat_and, lowBits, BitVec.toNat_ofNat, Nat.mod_eq_of_lt hlt,
    Nat.and_two_pow_sub_one_eq_mod]

/-- **A word of two parts**, as a number. -/
theorem toNat_above_or_and (hk : k ≤ w) (x y : BitVec w) :
    ((x &&& ~~~lowBits w k) ||| (y &&& lowBits w k)).toNat =
      2 ^ k * (x.toNat / 2 ^ k) + y.toNat % 2 ^ k := by
  rw [BitVec.toNat_or, toNat_above, toNat_and_lowBits hk,
    Nat.two_pow_add_eq_or_of_lt (Nat.mod_lt _ (Nat.two_pow_pos k))]

/-- A number without a sign is extended by zeros. -/
theorem toNat_signExtend_of_lt {v : ℕ} (hv : w ≤ v) (h : 2 * x.toNat < 2 ^ w) :
    (x.signExtend v).toNat = x.toNat := by
  have hmsb : x.msb = false := BitVec.msb_eq_false_iff_two_mul_lt.mpr h
  rw [BitVec.signExtend_eq_setWidth_of_msb_false hmsb, BitVec.toNat_setWidth_of_le hv]

end Lib

end Flexus
