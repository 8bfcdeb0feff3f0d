import Mathlib.Algebra.Group.Nat.Defs

/-!
# Byte memories

A memory of bytes that is read and written in groups of up to eight bytes, the most
significant byte at the least address, or at the greatest. A group is a 64-bit word; a bit of
it is a bit of one of the bytes, and every fact below is read off from where that bit is
(`Flexus.Lib.Bytes.getLsbD_read`, `Flexus.Lib.Bytes.getLsbD_write`).
-/

namespace Flexus

namespace Lib

namespace Bytes

/-- A memory, from addresses to bytes. -/
abbrev Memory := ℕ → BitVec 8

/-- The group of `n` bytes at an address. -/
def read (m : Memory) (a : ℕ) : ℕ → BitVec 64
  | 0 => 0#64
  | n + 1 => read m a n <<< 8 ||| (m (a + n)).setWidth 64

/-- The memory with `n` bytes at an address replaced by those of a word. -/
def write (m : Memory) (a n : ℕ) (v : BitVec 64) : Memory := fun x =>
  if a ≤ x ∧ x < a + n then (v >>> (8 * (n - 1 - (x - a)))).setWidth 8 else m x

/-- The group of `n` bytes at an address, the least significant one first. -/
def readLittle (m : Memory) (a : ℕ) : ℕ → BitVec 64
  | 0 => 0#64
  | n + 1 => readLittle m a n ||| (m (a + n)).setWidth 64 <<< (8 * n)

/-- The memory with `n` bytes at an address replaced by those of a word, the least significant
one first. -/
def writeLittle (m : Memory) (a n : ℕ) (v : BitVec 64) : Memory := fun x =>
  if a ≤ x ∧ x < a + n then (v >>> (8 * (x - a))).setWidth 8 else m x

variable {m m' : Memory} {a b n i x : ℕ} {v : BitVec 64}

/-- **The bits of a group**, from the last byte upwards. -/
theorem getLsbD_read (hi : i < 64) : (read m a n).getLsbD i =
    (decide (i < 8 * n) && (m (a + (n - 1 - i / 8))).getLsbD (i % 8)) := by
  induction n generalizing i with
  | zero => simp [read]
  | succ n ih =>
    rw [read, BitVec.getLsbD_or, BitVec.getLsbD_shiftLeft, BitVec.getLsbD_setWidth]
    by_cases h8 : i < 8
    · -- the bit is in the last byte
      have hq : i / 8 = 0 := by omega
      have hr : i % 8 = i := by omega
      have hlt : i < 8 * (n + 1) := by omega
      simp [h8, hi, hq, hr, hlt]
    · have hq : n - 1 - (i - 8) / 8 = n + 1 - 1 - i / 8 := by omega
      have hr : (i - 8) % 8 = i % 8 := by omega
      have hlt : i - 8 < 8 * n ↔ i < 8 * (n + 1) := by omega
      have hbyte : (m (a + n)).getLsbD i = false := BitVec.getLsbD_of_ge _ _ (by omega)
      rw [ih (by omega), hq, hr, hbyte]
      simp [h8, hi, hlt]

/-- **The bits of a byte that has been written.** -/
theorem getLsbD_write (hi : i < 8) : (write m a n v x).getLsbD i =
    if a ≤ x ∧ x < a + n then v.getLsbD (8 * (n - 1 - (x - a)) + i) else (m x).getLsbD i := by
  rw [write]
  split
  · rw [BitVec.getLsbD_setWidth, BitVec.getLsbD_ushiftRight]
    simp [hi]
  · rfl

/-- **The bits of a group**, from the first byte upwards. -/
theorem getLsbD_readLittle (hi : i < 64) : (readLittle m a n).getLsbD i =
    (decide (i < 8 * n) && (m (a + i / 8)).getLsbD (i % 8)) := by
  induction n with
  | zero => simp [readLittle]
  | succ n ih =>
    rw [readLittle, BitVec.getLsbD_or, BitVec.getLsbD_shiftLeft, BitVec.getLsbD_setWidth, ih]
    by_cases hn : i < 8 * n
    · have hlt : i < 8 * (n + 1) := by omega
      simp [hn, hlt]
    · by_cases hlt : i < 8 * (n + 1)
      · -- the bit is in the last byte
        have hq : i / 8 = n := by omega
        have hr : i % 8 = i - 8 * n := by omega
        have h64 : i - 8 * n < 64 := by omega
        simp [hn, hlt, hi, hq, hr, h64]
      · have hbyte : (m (a + n)).getLsbD (i - 8 * n) = false :=
          BitVec.getLsbD_of_ge _ _ (by omega)
        simp [hn, hlt, hbyte]

/-- **The bits of a byte that has been written**, the least significant one first. -/
theorem getLsbD_writeLittle (hi : i < 8) : (writeLittle m a n v x).getLsbD i =
    if a ≤ x ∧ x < a + n then v.getLsbD (8 * (x - a) + i) else (m x).getLsbD i := by
  rw [writeLittle]
  split
  · rw [BitVec.getLsbD_setWidth, BitVec.getLsbD_ushiftRight]
    simp [hi]
  · rfl

/-- A group depends on its bytes only. -/
theorem read_congr (h : ∀ k < n, m' (a + k) = m (a + k)) : read m' a n = read m a n := by
  induction n with
  | zero => rfl
  | succ n ih =>
    rw [read, read, ih fun k hk => h k (by omega), h n (by omega)]

/-- **A group that has been written is what is read.** -/
theorem read_write : read (write m a 8 v) a 8 = v := by
  refine BitVec.eq_of_getLsbD_eq fun i hi => ?_
  rw [getLsbD_read hi, getLsbD_write (by omega), if_pos (by omega)]
  have hbit : 8 * (8 - 1 - (a + (8 - 1 - i / 8) - a)) + i % 8 = i := by omega
  rw [hbit]
  simp [hi]

/-- A group that is apart from what is written stays as it was. -/
theorem read_write_of_disjoint {k : ℕ} (h : a + k ≤ b ∨ b + n ≤ a) :
    read (write m b n v) a k = read m a k := by
  refine read_congr fun j hj => ?_
  rw [write, if_neg (by omega)]

end Bytes

end Lib

end Flexus
