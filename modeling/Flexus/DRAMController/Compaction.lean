import Flexus.Lib.Bits
import Mathlib.Data.Nat.Bitwise
import Mathlib.Tactic.Ring

/-!
# Addresses within a memory controller

The blocks of the memory are interleaved over the memory controllers. Which controller a block goes
to is decided by a mapper (`SplitDestinationMapper`), which may hash higher bits of the address into
the number of the controller; and what the address of the block is within its controller is computed
there (`DRAMController::translateAddress`), by subtracting what is due to the number of the
controller and dividing by how many there are.

The two agree if nothing is hashed in. If something is, two blocks of one controller get the same
address, or an address wraps below zero. The number of a controller is multiplied by the
interleaving in 32 bits, so their product must fit as well.
-/

namespace Flexus

namespace DRAMController

/-! ### The mapper and the controller -/

/-- The parameters of the mapper that concern memory controllers, of which the interleaving is also
a parameter of the controllers. They are numbers of 32 bits; `initialize` asks for powers of two. -/
structure MemoryConfig where
  MemControllers : ℕ
  MemInterleaving : ℕ
  MemXORShift : ℤ
  controllers : MemControllers.isPowerOfTwo
  controllers_lt : MemControllers < 2 ^ 31
  interleaving : MemInterleaving.isPowerOfTwo
  interleaving_lt : MemInterleaving < 2 ^ 31
  transaction_le : 64 ≤ MemInterleaving
  xorShift : MemXORShift ≤ 0 ∨ (MemInterleaving.log2 < MemXORShift ∧ MemXORShift < 64)

namespace MemoryConfig

variable (cfg : MemoryConfig)

/-- `theMemShift`. -/
def theMemShift : ℕ := cfg.MemInterleaving.log2

/-- `theMemMask`. -/
def theMemMask : BitVec 64 := BitVec.ofNat 64 (cfg.MemControllers - 1)

/-- **`getMemoryLocation`**: the number of the controller for an address. Addresses are signed. -/
def getMemoryLocation (anAddress : BitVec 64) : BitVec 32 :=
  if cfg.MemXORShift > 0 then
    ((anAddress.sshiftRight cfg.theMemShift ^^^ anAddress.sshiftRight cfg.MemXORShift.toNat) &&&
      cfg.theMemMask).setWidth 32
  else (anAddress.sshiftRight cfg.theMemShift &&& cfg.theMemMask).setWidth 32

/-- `address % interleaving`. -/
def rest (address : BitVec 64) : BitVec 64 := address % BitVec.ofNat 64 cfg.MemInterleaving

/-- `address - rest`. -/
def base (address : BitVec 64) : BitVec 64 := address - cfg.rest address

/-- `flexusIndex() * interleaving`, a product of two `uint32_t`. -/
def offset (flexusIndex : ℕ) : BitVec 64 :=
  (BitVec.ofNat 32 flexusIndex * BitVec.ofNat 32 cfg.MemInterleaving).setWidth 64

/-- **`translateAddress`**. -/
def translateAddress (flexusIndex : ℕ) (address : BitVec 64) : BitVec 64 :=
  cfg.rest address +
    (cfg.base address - cfg.offset flexusIndex) / BitVec.ofNat 64 cfg.MemControllers

/-- `alignTransactionAddress`, for transactions of 64 bytes. -/
def alignTransactionAddress (address : BitVec 64) : BitVec 64 := (address >>> 6) <<< 6

/-- The address that a transaction is filed under. -/
def transactionAddress (flexusIndex : ℕ) (address : BitVec 64) : BitVec 64 :=
  alignTransactionAddress (cfg.translateAddress flexusIndex address)

/-! ### What it is for -/

/-- An address is one of a controller. -/
def SentTo (flexusIndex : ℕ) (address : BitVec 64) : Prop :=
  (cfg.getMemoryLocation address).toNat = flexusIndex

instance (flexusIndex : ℕ) (address : BitVec 64) : Decidable (cfg.SentTo flexusIndex address) :=
  inferInstanceAs (Decidable (_ = _))

/-- **A controller compacts its addresses**: transactions for two blocks are not filed under one
address, no address is below that of the first block, and the blocks of a memory that is split
evenly are below the part of the controller. -/
structure Compacts (flexusIndex : ℕ) : Prop where
  injective : ∀ a b : BitVec 64, cfg.SentTo flexusIndex a → cfg.SentTo flexusIndex b →
    cfg.transactionAddress flexusIndex a = cfg.transactionAddress flexusIndex b → a >>> 6 = b >>> 6
  noWrap : ∀ a, cfg.SentTo flexusIndex a → cfg.offset flexusIndex ≤ cfg.base a
  range : ∀ N, cfg.MemInterleaving ∣ N → ∀ a : BitVec 64, cfg.SentTo flexusIndex a →
    a.toNat < N * cfg.MemControllers → (cfg.translateAddress flexusIndex a).toNat < N

/-- **When they do**: nothing is hashed into the number of the controller and the interleaved blocks
are within 32 bits, or there is only one controller. -/
def Agrees : Prop :=
  cfg.MemControllers = 1 ∨
    (cfg.MemXORShift ≤ 0 ∧ cfg.MemControllers * cfg.MemInterleaving ≤ 2 ^ 32)

instance : Decidable cfg.Agrees := inferInstanceAs (Decidable (_ ∨ _))

/-! ### Addresses as numbers -/

section Numbers

variable {cfg} {a : BitVec 64} {i : ℕ}

theorem interleaving_pos : 0 < cfg.MemInterleaving :=
  Nat.lt_of_lt_of_le (by decide) cfg.transaction_le

theorem controllers_pos : 0 < cfg.MemControllers := by
  obtain ⟨c, hc⟩ := cfg.controllers
  rw [hc]
  exact Nat.two_pow_pos c

theorem interleaving_eq : cfg.MemInterleaving = 2 ^ cfg.theMemShift := by
  obtain ⟨s, hs⟩ := cfg.interleaving
  rw [theMemShift, hs, Nat.log2_two_pow]

theorem shift_lt : cfg.theMemShift < 31 :=
  (Nat.pow_lt_pow_iff_right Nat.one_lt_two).mp (interleaving_eq ▸ cfg.interleaving_lt)

theorem le_shift : 6 ≤ cfg.theMemShift :=
  (Nat.pow_le_pow_iff_right Nat.one_lt_two).mp (interleaving_eq ▸ cfg.transaction_le)

theorem toNat_rest : (cfg.rest a).toNat = a.toNat % cfg.MemInterleaving := by
  have hlt := cfg.interleaving_lt
  rw [rest, BitVec.toNat_umod, BitVec.toNat_ofNat, Nat.mod_eq_of_lt (by omega :
    cfg.MemInterleaving < 2 ^ 64)]

theorem toNat_base : (cfg.base a).toNat = a.toNat / cfg.MemInterleaving * cfg.MemInterleaving := by
  have hle : cfg.rest a ≤ a := by
    rw [BitVec.le_def, toNat_rest]
    exact Nat.mod_le _ _
  have hdiv := Nat.div_add_mod a.toNat cfg.MemInterleaving
  rw [base, BitVec.toNat_sub_of_le hle, toNat_rest, Nat.mul_comm]
  omega

theorem toNat_offset : (cfg.offset i).toNat = i * cfg.MemInterleaving % 2 ^ 32 := by
  rw [offset, BitVec.toNat_setWidth, BitVec.toNat_mul, BitVec.toNat_ofNat, BitVec.toNat_ofNat,
    ← Nat.mul_mod, Nat.mod_eq_of_lt (by omega)]

/-- **The translated address**, where nothing wraps. -/
theorem toNat_translateAddress (h : cfg.offset i ≤ cfg.base a) :
    (cfg.translateAddress i a).toNat = a.toNat % cfg.MemInterleaving +
      (a.toNat / cfg.MemInterleaving * cfg.MemInterleaving - i * cfg.MemInterleaving % 2 ^ 32) /
        cfg.MemControllers := by
  have hlt := cfg.controllers_lt
  have hdiv : (cfg.base a - cfg.offset i).toNat / cfg.MemControllers ≤ (cfg.base a).toNat := by
    rw [BitVec.toNat_sub_of_le h]
    exact Nat.le_trans (Nat.div_le_self _ _) (Nat.sub_le _ _)
  have hsum : a.toNat % cfg.MemInterleaving + (cfg.base a).toNat = a.toNat := by
    rw [toNat_base, Nat.mul_comm]
    exact Nat.mod_add_div _ _
  have ha := a.isLt
  rw [translateAddress, BitVec.toNat_add, BitVec.toNat_udiv, BitVec.toNat_ofNat,
    Nat.mod_eq_of_lt (by omega : cfg.MemControllers < 2 ^ 64), toNat_rest,
    Nat.mod_eq_of_lt (by omega), BitVec.toNat_sub_of_le h, toNat_base, toNat_offset]

theorem toNat_transactionAddress : (cfg.transactionAddress i a).toNat =
    (cfg.translateAddress i a).toNat / 64 * 64 := by
  have hlt := (cfg.translateAddress i a).isLt
  rw [transactionAddress, alignTransactionAddress, BitVec.toNat_shiftLeft,
    BitVec.toNat_ushiftRight, Nat.shiftRight_eq_div_pow, Nat.shiftLeft_eq,
    Nat.mod_eq_of_lt (by omega)]

theorem getLsbD_theMemMask {c : ℕ} (hc : cfg.MemControllers = 2 ^ c) (hc31 : c < 31) (j : ℕ) :
    cfg.theMemMask.getLsbD j = decide (j < c) := by
  rw [theMemMask, hc, BitVec.getLsbD_ofNat, Nat.testBit_two_pow_sub_one]
  rcases Nat.lt_or_ge j c with hj | hj
  · rw [decide_eq_true hj, decide_eq_true (by omega : j < 64)]
    rfl
  · rw [decide_eq_false (by omega : ¬ j < c), Bool.and_false]

/-- A bit of a hash of the address: nothing is hashed in, if the address is too small. -/
theorem getLsbD_hash_of_lt {k : ℕ} (hk : k < 64) (ha : a.toNat < 2 ^ k) (j : ℕ) :
    (a.sshiftRight k).getLsbD j = false := by
  have hclear : ∀ m, k ≤ m → a.getLsbD m = false := fun m hm =>
    Nat.testBit_lt_two_pow (Nat.lt_of_lt_of_le ha (Nat.pow_le_pow_right (by decide) hm))
  rw [BitVec.getLsbD_sshiftRight]
  split
  · rw [hclear _ (Nat.le_add_right k j), Bool.and_false]
  · rw [BitVec.msb_eq_getLsbD_last, hclear _ (by omega), Bool.and_false]

/-- **The number of the controller**, where nothing is hashed in. -/
theorem toNat_getMemoryLocation
    (h : cfg.MemXORShift ≤ 0 ∨ a.toNat < 2 ^ cfg.MemXORShift.toNat ∨ cfg.MemControllers = 1) :
    (cfg.getMemoryLocation a).toNat = a.toNat / cfg.MemInterleaving % cfg.MemControllers := by
  obtain ⟨c, hc⟩ := cfg.controllers
  have hc31 : c < 31 := (Nat.pow_lt_pow_iff_right Nat.one_lt_two).mp (hc ▸ cfg.controllers_lt)
  have hs := @shift_lt cfg
  refine Nat.eq_of_testBit_eq fun j => ?_
  rw [interleaving_eq, hc, Nat.testBit_mod_two_pow, Nat.testBit_div_two_pow]
  have hbit : (cfg.getMemoryLocation a).toNat.testBit j = (cfg.getMemoryLocation a).getLsbD j := rfl
  rw [hbit, getMemoryLocation]
  rcases Nat.lt_or_ge j c with hj | hj
  · have hfirst : (a.sshiftRight cfg.theMemShift).getLsbD j = a.getLsbD (cfg.theMemShift + j) := by
      rw [BitVec.getLsbD_sshiftRight, decide_eq_false (by omega : ¬ 64 ≤ j),
        if_pos (by omega : cfg.theMemShift + j < 64), Bool.not_false, Bool.true_and]
    split
    · rename_i hx
      have hlt : a.toNat < 2 ^ cfg.MemXORShift.toNat := by
        rcases h with h | h | h
        · omega
        · exact h
        · -- with one controller there is no bit to look at
          rw [hc] at h
          have hzero : c = 0 := by simpa using h
          omega
      have hx64 : cfg.MemXORShift.toNat < 64 := by
        have := cfg.xorShift
        omega
      rw [BitVec.getLsbD_setWidth, BitVec.getLsbD_and, BitVec.getLsbD_xor, hfirst,
        getLsbD_hash_of_lt hx64 hlt, getLsbD_theMemMask hc hc31, decide_eq_true hj,
        decide_eq_true (by omega : j < 32), Bool.xor_false, Bool.and_true]
      rw [Nat.add_comm cfg.theMemShift j]
      rfl
    · rw [BitVec.getLsbD_setWidth, BitVec.getLsbD_and, hfirst, getLsbD_theMemMask hc hc31,
        decide_eq_true hj, decide_eq_true (by omega : j < 32), Bool.and_true]
      rw [Nat.add_comm cfg.theMemShift j]
      rfl
  · rw [decide_eq_false (by omega : ¬ j < c), Bool.false_and]
    split
    · rw [BitVec.getLsbD_setWidth, BitVec.getLsbD_and, getLsbD_theMemMask hc hc31,
        decide_eq_false (by omega : ¬ j < c), Bool.and_false, Bool.and_false]
    · rw [BitVec.getLsbD_setWidth, BitVec.getLsbD_and, getLsbD_theMemMask hc hc31,
        decide_eq_false (by omega : ¬ j < c), Bool.and_false, Bool.and_false]

theorem toNat_masked (x : BitVec 64) :
    ((x &&& cfg.theMemMask).setWidth 32).toNat = x.toNat % cfg.MemControllers := by
  obtain ⟨c, hc⟩ := cfg.controllers
  have hlt := cfg.controllers_lt
  have hmod : x.toNat % cfg.MemControllers < cfg.MemControllers := Nat.mod_lt _ controllers_pos
  rw [BitVec.toNat_setWidth, BitVec.toNat_and, theMemMask, BitVec.toNat_ofNat,
    Nat.mod_eq_of_lt (by omega : cfg.MemControllers - 1 < 2 ^ 64), hc,
    Nat.and_two_pow_sub_one_eq_mod, ← hc, Nat.mod_eq_of_lt (by omega)]

theorem getMemoryLocation_lt : (cfg.getMemoryLocation a).toNat < cfg.MemControllers := by
  rw [getMemoryLocation]
  split
  · rw [toNat_masked]
    exact Nat.mod_lt _ controllers_pos
  · rw [toNat_masked]
    exact Nat.mod_lt _ controllers_pos

/-- The number of the controller, for an address that is not negative. -/
theorem toNat_getMemoryLocation_of_msb (h : a.msb = false) :
    (cfg.getMemoryLocation a).toNat = (a.toNat / cfg.MemInterleaving ^^^
      if cfg.MemXORShift > 0 then a.toNat / 2 ^ cfg.MemXORShift.toNat else 0) %
        cfg.MemControllers := by
  rw [getMemoryLocation]
  split
  · rw [toNat_masked, BitVec.toNat_xor, BitVec.sshiftRight_eq_of_msb_false h,
      BitVec.sshiftRight_eq_of_msb_false h, BitVec.toNat_ushiftRight, BitVec.toNat_ushiftRight,
      Nat.shiftRight_eq_div_pow, Nat.shiftRight_eq_div_pow, ← interleaving_eq]
  · rw [toNat_masked, BitVec.sshiftRight_eq_of_msb_false h, BitVec.toNat_ushiftRight,
      Nat.shiftRight_eq_div_pow, ← interleaving_eq, Nat.xor_zero]

end Numbers

/-! ### Where nothing is hashed in -/

section Agreeing

variable {cfg} {a : BitVec 64} {i : ℕ}

/-- The blocks of a controller are those whose number has the right remainder. -/
theorem Agrees.sentTo_iff (h : cfg.Agrees) :
    cfg.SentTo i a ↔ a.toNat / cfg.MemInterleaving % cfg.MemControllers = i := by
  rw [SentTo, toNat_getMemoryLocation (h.symm.imp (fun h => h.1) .inr)]

theorem Agrees.offset_eq (h : cfg.Agrees) (hi : i < cfg.MemControllers) :
    i * cfg.MemInterleaving % 2 ^ 32 = i * cfg.MemInterleaving := by
  refine Nat.mod_eq_of_lt ?_
  rcases h with h | ⟨-, h⟩
  · have hzero : i = 0 := by omega
    rw [hzero, Nat.zero_mul]
    decide
  · exact Nat.lt_of_lt_of_le ((Nat.mul_lt_mul_right interleaving_pos).mpr hi) h

/-- **The translated address** counts the interleaved blocks of the controller. -/
theorem Agrees.translate_eq (h : cfg.Agrees) (ha : cfg.SentTo i a) :
    cfg.offset i ≤ cfg.base a ∧ (cfg.translateAddress i a).toNat =
      a.toNat / cfg.MemInterleaving / cfg.MemControllers * cfg.MemInterleaving +
        a.toNat % cfg.MemInterleaving := by
  have hi := h.sentTo_iff.mp ha
  have hoff := h.offset_eq (hi ▸ Nat.mod_lt _ controllers_pos)
  have hle : cfg.offset i ≤ cfg.base a := by
    rw [BitVec.le_def, toNat_offset, toNat_base, hoff]
    exact Nat.mul_le_mul_right _ (hi ▸ Nat.mod_le _ _)
  have hdiv : a.toNat / cfg.MemInterleaving * cfg.MemInterleaving - i * cfg.MemInterleaving =
      a.toNat / cfg.MemInterleaving / cfg.MemControllers * cfg.MemInterleaving *
        cfg.MemControllers := by
    have hsplit := Nat.div_add_mod (a.toNat / cfg.MemInterleaving) cfg.MemControllers
    rw [hi] at hsplit
    rw [← Nat.sub_mul, Nat.mul_right_comm, Nat.mul_comm _ cfg.MemControllers]
    congr 1
    omega
  refine ⟨hle, ?_⟩
  rw [toNat_translateAddress hle, hoff, hdiv, Nat.mul_div_cancel _ controllers_pos, Nat.add_comm]

/-- The transactions of an interleaved block are counted through. -/
theorem div_transaction (q r m : ℕ) : (q * (64 * m) + r) / 64 = q * m + r / 64 := by
  rw [Nat.mul_left_comm, Nat.mul_add_div (by decide)]

theorem digits_unique {q q' u u' m : ℕ} (hu : u < m) (hu' : u' < m)
    (h : q * m + u = q' * m + u') : q = q' ∧ u = u' := by
  have hpos : 0 < m := Nat.zero_lt_of_lt hu
  have hq : q = q' := by
    have hdiv := congrArg (· / m) h
    simp only [Nat.mul_comm _ m, Nat.mul_add_div hpos, Nat.div_eq_of_lt hu,
      Nat.div_eq_of_lt hu'] at hdiv
    exact hdiv
  subst hq
  exact ⟨rfl, Nat.add_left_cancel h⟩

/-- **A controller compacts its addresses**, if nothing is hashed in. -/
theorem Agrees.compacts (h : cfg.Agrees) : cfg.Compacts i := by
  have hpos := @interleaving_pos cfg
  obtain ⟨m, hm⟩ : 64 ∣ cfg.MemInterleaving := by
    rw [interleaving_eq]
    exact Nat.pow_dvd_pow 2 le_shift
  constructor
  · intro a b ha hb heq
    have hrest : ∀ x : BitVec 64, x.toNat % cfg.MemInterleaving / 64 < m := by
      intro x
      refine Nat.div_lt_of_lt_mul ?_
      rw [← hm]
      exact Nat.mod_lt _ hpos
    have hblock : ∀ x : BitVec 64, x.toNat / 64 = x.toNat / cfg.MemInterleaving * m +
        x.toNat % cfg.MemInterleaving / 64 := by
      intro x
      rw [← div_transaction, ← hm, Nat.mul_comm, Nat.div_add_mod]
    have hsame := congrArg BitVec.toNat heq
    rw [toNat_transactionAddress, toNat_transactionAddress, (h.translate_eq ha).2,
      (h.translate_eq hb).2] at hsame
    have hdigits := Nat.mul_right_cancel (by decide) hsame
    rw [hm, div_transaction, div_transaction, ← hm] at hdigits
    obtain ⟨hq, hr⟩ := digits_unique (hrest a) (hrest b) hdigits
    have hk : a.toNat / cfg.MemInterleaving = b.toNat / cfg.MemInterleaving := by
      rw [← Nat.div_add_mod (a.toNat / cfg.MemInterleaving) cfg.MemControllers,
        ← Nat.div_add_mod (b.toNat / cfg.MemInterleaving) cfg.MemControllers, hq,
        h.sentTo_iff.mp ha, h.sentTo_iff.mp hb]
    refine BitVec.eq_of_toNat_eq ?_
    rw [BitVec.toNat_ushiftRight, BitVec.toNat_ushiftRight, Nat.shiftRight_eq_div_pow,
      Nat.shiftRight_eq_div_pow]
    exact (hblock a).trans ((congrArg₂ (fun x y => x * m + y) hk hr).trans (hblock b).symm)
  · intro a ha
    exact (h.translate_eq ha).1
  · rintro N ⟨n, rfl⟩ a ha hlt
    rw [(h.translate_eq ha).2]
    have hblock : a.toNat / cfg.MemInterleaving / cfg.MemControllers < n := by
      rw [Nat.div_div_eq_div_mul]
      refine Nat.div_lt_of_lt_mul ?_
      rw [Nat.mul_right_comm]
      exact hlt
    have hrest := Nat.mod_lt a.toNat hpos
    calc a.toNat / cfg.MemInterleaving / cfg.MemControllers * cfg.MemInterleaving +
          a.toNat % cfg.MemInterleaving
        < (a.toNat / cfg.MemInterleaving / cfg.MemControllers + 1) * cfg.MemInterleaving := by
          rw [Nat.add_mul]
          omega
      _ ≤ n * cfg.MemInterleaving := Nat.mul_le_mul_right _ hblock
      _ = cfg.MemInterleaving * n := Nat.mul_comm _ _

end Agreeing

/-! ### Where they disagree -/

section Disagreeing

variable {cfg} {a : BitVec 64} {i : ℕ}

theorem toNat_ofNat_of_lt {n : ℕ} (h : n < 2 ^ 63) : (BitVec.ofNat 64 n).toNat = n ∧
    (BitVec.ofNat 64 n).msb = false := by
  have hn : (BitVec.ofNat 64 n).toNat = n := by
    rw [BitVec.toNat_ofNat, Nat.mod_eq_of_lt (by omega)]
  refine ⟨hn, ?_⟩
  rw [BitVec.msb_eq_decide, hn]
  exact decide_eq_false (by omega)

/-- A power of two and a number below it have no bit in common. -/
theorem two_pow_xor {n h : ℕ} (hh : h < 2 ^ n) : 2 ^ n ^^^ h = 2 ^ n + h := by
  refine Nat.eq_of_testBit_eq fun j => ?_
  have hsum := Nat.testBit_two_pow_mul_add 1 hh j
  rw [Nat.mul_one] at hsum
  rw [Nat.testBit_xor, hsum, Nat.testBit_two_pow]
  rcases Nat.lt_trichotomy j n with hj | hj | hj
  · rw [if_pos hj, decide_eq_false (by omega), Bool.false_xor]
  · subst hj
    rw [if_neg (Nat.lt_irrefl _), decide_eq_true rfl, Nat.testBit_lt_two_pow hh, Nat.sub_self]
    rfl
  · have hclear : h.testBit j = false :=
      Nat.testBit_lt_two_pow (Nat.lt_trans hh (Nat.pow_lt_pow_right (by decide) hj))
    have hone : Nat.testBit 1 (j - n) = false :=
      Nat.testBit_lt_two_pow (Nat.one_lt_two_pow (by omega))
    rw [if_neg (by omega), decide_eq_false (by omega), hclear, hone]
    rfl

theorem shift_lt_xorShift (hx : cfg.MemXORShift > 0) :
    cfg.theMemShift < cfg.MemXORShift.toNat ∧ cfg.MemXORShift.toNat < 64 := by
  have hxor := cfg.xorShift
  rw [theMemShift]
  omega

/-- **The product does not fit** into 32 bits: the last address of the block at `2 ^ 32` is out of
range in its controller. -/
theorem not_compacts_of_large (h : 2 ^ 32 < cfg.MemControllers * cfg.MemInterleaving) :
    ∃ i < cfg.MemControllers, ¬ cfg.Compacts i := by
  have hI := @interleaving_eq cfg
  have hs := @shift_lt cfg
  have hlt := cfg.interleaving_lt
  have hClt := cfg.controllers_lt
  have hpos := @interleaving_pos cfg
  obtain ⟨ha, hmsb⟩ := @toNat_ofNat_of_lt (2 ^ 32 + (cfg.MemInterleaving - 1)) (by omega)
  generalize BitVec.ofNat 64 (2 ^ 32 + (cfg.MemInterleaving - 1)) = a at ha hmsb
  have hpow : 2 ^ (32 - cfg.theMemShift) * cfg.MemInterleaving = 2 ^ 32 := by
    rw [hI, ← Nat.pow_add, Nat.sub_add_cancel (by omega)]
  have hdiv : a.toNat / cfg.MemInterleaving = 2 ^ (32 - cfg.theMemShift) := by
    rw [ha, ← hpow, Nat.mul_comm, Nat.mul_add_div hpos, Nat.div_eq_of_lt (by omega), Nat.add_zero]
  have hmod : a.toNat % cfg.MemInterleaving = cfg.MemInterleaving - 1 := by
    rw [ha, ← hpow, Nat.mul_add_mod', Nat.mod_eq_of_lt (by omega)]
  -- what is hashed in is below the bit at `2 ^ 32`, and so is what it is due
  obtain ⟨e, he, hloc⟩ : ∃ e ≤ 2 ^ (31 - cfg.theMemShift), (cfg.getMemoryLocation a).toNat =
      (2 ^ (32 - cfg.theMemShift) + e) % cfg.MemControllers := by
    have hhalf : 2 ^ (31 - cfg.theMemShift) < 2 ^ (32 - cfg.theMemShift) :=
      Nat.pow_lt_pow_right Nat.one_lt_two (by omega)
    by_cases hx : cfg.MemXORShift > 0
    · obtain ⟨hsx, -⟩ := shift_lt_xorShift hx
      have he : a.toNat / 2 ^ cfg.MemXORShift.toNat ≤ 2 ^ (31 - cfg.theMemShift) := by
        have hnext : 2 ^ (31 - cfg.theMemShift) * 2 ^ (cfg.theMemShift + 1) = 2 ^ 32 := by
          rw [← Nat.pow_add]
          congr 1
          omega
        have hless : cfg.MemInterleaving - 1 < 2 ^ (cfg.theMemShift + 1) := by
          rw [Nat.pow_succ, ← hI]
          omega
        refine Nat.le_trans (Nat.div_le_div_left (Nat.pow_le_pow_right (by decide) hsx)
          (Nat.two_pow_pos _)) ?_
        rw [ha, ← hnext, Nat.mul_comm, Nat.mul_add_div (Nat.two_pow_pos _), Nat.div_eq_of_lt hless]
        exact Nat.le_refl _
      refine ⟨_, he, ?_⟩
      rw [toNat_getMemoryLocation_of_msb hmsb, if_pos hx, hdiv,
        two_pow_xor (Nat.lt_of_le_of_lt he hhalf)]
    · refine ⟨0, Nat.zero_le _, ?_⟩
      rw [toNat_getMemoryLocation_of_msb hmsb, if_neg hx, hdiv, Nat.xor_zero, Nat.add_zero]
  obtain ⟨hdvd, hdouble⟩ : 2 ^ 32 ∣ cfg.MemControllers * cfg.MemInterleaving ∧
      2 ^ 33 ≤ cfg.MemInterleaving * cfg.MemControllers := by
    obtain ⟨c, hc⟩ := cfg.controllers
    rw [Nat.mul_comm cfg.MemInterleaving]
    rw [hc, hI, ← Nat.pow_add] at h ⊢
    have hexp := (Nat.pow_lt_pow_iff_right Nat.one_lt_two).mp h
    exact ⟨Nat.pow_dvd_pow 2 hexp.le, Nat.pow_le_pow_right (by decide) hexp⟩
  refine ⟨(cfg.getMemoryLocation a).toNat, getMemoryLocation_lt, fun hc => ?_⟩
  have hedue : e * cfg.MemInterleaving ≤ 2 ^ 31 := by
    refine Nat.le_trans (Nat.mul_le_mul_right _ he) ?_
    rw [hI, ← Nat.pow_add, Nat.sub_add_cancel (by omega)]
  have hdue : (cfg.getMemoryLocation a).toNat * cfg.MemInterleaving % 2 ^ 32 =
      e * cfg.MemInterleaving := by
    rw [hloc, ← Nat.mul_mod_mul_right, Nat.mod_mod_of_dvd _ hdvd, Nat.add_mul, hpow,
      Nat.add_mod_left, Nat.mod_eq_of_lt (by omega)]
  have hle := hc.noWrap a rfl
  have hrange := hc.range _ (Nat.dvd_refl _) a rfl (by
    rw [ha]
    omega)
  rw [toNat_translateAddress hle, hmod, hdue, hdiv, hpow] at hrange
  have hdivpos : 0 < (2 ^ 32 - e * cfg.MemInterleaving) / cfg.MemControllers :=
    Nat.div_pos (by omega) controllers_pos
  omega

/-- **The hash is of bits that number the controllers**: an address wraps below zero. -/
theorem not_compacts_of_near (hx : cfg.MemXORShift > 0)
    (hfits : cfg.MemControllers * cfg.MemInterleaving ≤ 2 ^ 32)
    (hnear : 2 ^ cfg.MemXORShift.toNat < cfg.MemControllers * cfg.MemInterleaving) :
    ∃ i < cfg.MemControllers, ¬ cfg.Compacts i := by
  obtain ⟨c, hc⟩ := cfg.controllers
  obtain ⟨hsx, hx64⟩ := shift_lt_xorShift hx
  have hpos := @interleaving_pos cfg
  obtain ⟨ha, hmsb⟩ := @toNat_ofNat_of_lt (2 ^ cfg.MemXORShift.toNat) (by omega)
  generalize BitVec.ofNat 64 (2 ^ cfg.MemXORShift.toNat) = a at ha hmsb
  have hpow : 2 ^ cfg.MemXORShift.toNat =
      2 ^ (cfg.MemXORShift.toNat - cfg.theMemShift) * cfg.MemInterleaving := by
    rw [@interleaving_eq cfg, ← Nat.pow_add, Nat.sub_add_cancel (by omega)]
  have hdiv : a.toNat / cfg.MemInterleaving = 2 ^ (cfg.MemXORShift.toNat - cfg.theMemShift) := by
    rw [ha, hpow, Nat.mul_div_cancel _ hpos]
  have hbound : 2 ^ (cfg.MemXORShift.toNat - cfg.theMemShift) + 1 < cfg.MemControllers := by
    rw [hpow] at hnear
    have hlt := Nat.lt_of_mul_lt_mul_right hnear
    rw [hc] at hlt ⊢
    have hexp := (Nat.pow_lt_pow_iff_right Nat.one_lt_two).mp hlt
    have hdouble := Nat.pow_le_pow_right (by decide : 0 < 2) hexp
    rw [Nat.pow_succ] at hdouble
    have htwo := Nat.one_lt_two_pow (by omega : cfg.MemXORShift.toNat - cfg.theMemShift ≠ 0)
    omega
  have hloc : (cfg.getMemoryLocation a).toNat =
      2 ^ (cfg.MemXORShift.toNat - cfg.theMemShift) + 1 := by
    have hone := Nat.one_lt_two_pow (by omega : cfg.MemXORShift.toNat - cfg.theMemShift ≠ 0)
    rw [toNat_getMemoryLocation_of_msb hmsb, hdiv, if_pos hx, ha,
      Nat.div_self (Nat.two_pow_pos _), two_pow_xor hone, Nat.mod_eq_of_lt hbound]
  refine ⟨_, hbound, fun h => ?_⟩
  have hwrap := h.noWrap a hloc
  have hsmall : (2 ^ (cfg.MemXORShift.toNat - cfg.theMemShift) + 1) * cfg.MemInterleaving <
      2 ^ 32 := Nat.lt_of_lt_of_le ((Nat.mul_lt_mul_right hpos).mpr hbound) hfits
  rw [BitVec.le_def, toNat_offset, toNat_base, hdiv, Nat.mod_eq_of_lt hsmall] at hwrap
  exact absurd (Nat.le_of_mul_le_mul_right hwrap hpos) (by omega)

/-- **The hash is of higher bits**: two blocks of a controller get one address. -/
theorem not_compacts_of_far (hx : cfg.MemXORShift > 0) (hone : cfg.MemControllers ≠ 1)
    (hfits : cfg.MemControllers * cfg.MemInterleaving ≤ 2 ^ 32)
    (hfar : cfg.MemControllers * cfg.MemInterleaving ≤ 2 ^ cfg.MemXORShift.toNat) :
    ∃ i < cfg.MemControllers, ¬ cfg.Compacts i := by
  obtain ⟨c, hc⟩ := cfg.controllers
  obtain ⟨hsx, hx64⟩ := shift_lt_xorShift hx
  have hpos := @interleaving_pos cfg
  have hC := @controllers_pos cfg
  obtain ⟨p, hp⟩ : ∃ p, 2 ^ cfg.MemXORShift.toNat =
      (p + 1) * cfg.MemControllers * cfg.MemInterleaving := by
    have hdvd : cfg.MemControllers * cfg.MemInterleaving ∣ 2 ^ cfg.MemXORShift.toNat := by
      rw [hc, @interleaving_eq cfg, ← Nat.pow_add] at hfar ⊢
      exact Nat.pow_dvd_pow 2 ((Nat.pow_le_pow_iff_right Nat.one_lt_two).mp hfar)
    obtain ⟨q, hq⟩ := hdvd
    have hqpos : q ≠ 0 := by
      rintro rfl
      exact absurd hq (Nat.two_pow_pos _).ne'
    refine ⟨q - 1, ?_⟩
    rw [hq, Nat.sub_add_cancel (Nat.pos_of_ne_zero hqpos)]
    ring
  -- the first address that has the bit that is hashed in
  have ha : (BitVec.twoPow 64 cfg.MemXORShift.toNat).toNat = 2 ^ cfg.MemXORShift.toNat :=
    BitVec.toNat_twoPow_of_lt hx64
  have hodd : (cfg.getMemoryLocation (BitVec.twoPow 64 cfg.MemXORShift.toNat)).toNat ≠ 0 := by
    have hc31 : c < 31 := (Nat.pow_lt_pow_iff_right Nat.one_lt_two).mp (hc ▸ cfg.controllers_lt)
    have hc0 : 0 < c := by
      refine Nat.pos_of_ne_zero ?_
      rintro rfl
      exact hone hc
    intro hzero
    have hbit : (cfg.getMemoryLocation (BitVec.twoPow 64 cfg.MemXORShift.toNat)).getLsbD 0 =
        false := by
      rw [BitVec.getLsbD, hzero, Nat.zero_testBit]
    rw [getMemoryLocation, if_pos hx, BitVec.getLsbD_setWidth, BitVec.getLsbD_and,
      BitVec.getLsbD_xor, BitVec.getLsbD_sshiftRight, BitVec.getLsbD_sshiftRight,
      if_pos (by omega), if_pos (by omega), BitVec.getLsbD_twoPow, BitVec.getLsbD_twoPow,
      getLsbD_theMemMask hc hc31, Nat.add_zero, Nat.add_zero, decide_eq_true hx64,
      decide_eq_true hc0, decide_eq_false (by omega : ¬ cfg.MemXORShift.toNat = cfg.theMemShift),
      decide_eq_true rfl] at hbit
    exact absurd hbit (by decide)
  generalize BitVec.twoPow 64 cfg.MemXORShift.toNat = a at ha hodd
  obtain ⟨i, hi⟩ : ∃ i, cfg.SentTo i a := ⟨_, rfl⟩
  have hiC : i < cfg.MemControllers := hi ▸ getMemoryLocation_lt
  have hi0 : 0 < i := Nat.pos_of_ne_zero (hi ▸ hodd)
  refine ⟨i, hiC, fun h => ?_⟩
  have hdue : i * cfg.MemInterleaving % 2 ^ 32 = i * cfg.MemInterleaving :=
    Nat.mod_eq_of_lt (Nat.lt_of_lt_of_le ((Nat.mul_lt_mul_right hpos).mpr hiC) hfits)
  have hta := toNat_translateAddress (h.noWrap a hi)
  rw [hdue, ha, hp, Nat.mul_mod_left, Nat.mul_div_cancel _ hpos, Nat.zero_add] at hta
  -- it is translated into the range of the block before
  have hdueC : i * cfg.MemInterleaving ≤ cfg.MemControllers * cfg.MemInterleaving :=
    Nat.mul_le_mul_right _ hiC.le
  have hdue0 : 0 < i * cfg.MemInterleaving := Nat.mul_pos hi0 hpos
  have hnext : (p + 1) * cfg.MemControllers * cfg.MemInterleaving =
      p * cfg.MemInterleaving * cfg.MemControllers + cfg.MemControllers * cfg.MemInterleaving := by
    ring
  have hlow : p * cfg.MemInterleaving ≤ (cfg.translateAddress i a).toNat := by
    rw [hta, Nat.le_div_iff_mul_le hC, hnext]
    omega
  have hhigh : (cfg.translateAddress i a).toNat < (p + 1) * cfg.MemInterleaving := by
    rw [hta]
    refine Nat.div_lt_of_lt_mul ?_
    have hcomm : cfg.MemControllers * ((p + 1) * cfg.MemInterleaving) =
        (p + 1) * cfg.MemControllers * cfg.MemInterleaving := by ring
    rw [hcomm, hnext]
    omega
  rw [Nat.add_mul, Nat.one_mul] at hhigh
  obtain ⟨r, hr⟩ := Nat.exists_eq_add_of_le hlow
  -- where it meets an address of that block
  have hbelow : cfg.MemInterleaving * (p * cfg.MemControllers + i) + r <
      2 ^ cfg.MemXORShift.toNat := by
    have hlast : cfg.MemInterleaving * (p * cfg.MemControllers + (i + 1)) ≤
        2 ^ cfg.MemXORShift.toNat := by
      rw [hp, Nat.mul_comm, Nat.add_mul p]
      exact Nat.mul_le_mul_right _ (by omega)
    rw [← Nat.add_assoc, Nat.mul_succ] at hlast
    omega
  have hpow : 2 ^ cfg.MemXORShift.toNat ≤ 2 ^ 63 := Nat.pow_le_pow_right (by decide) (by omega)
  obtain ⟨hb, -⟩ := @toNat_ofNat_of_lt
    (cfg.MemInterleaving * (p * cfg.MemControllers + i) + r) (by omega)
  generalize BitVec.ofNat 64 (cfg.MemInterleaving * (p * cfg.MemControllers + i) + r) = b at hb
  have hdivb : b.toNat / cfg.MemInterleaving = p * cfg.MemControllers + i := by
    rw [hb, Nat.mul_add_div hpos, Nat.div_eq_of_lt (by omega), Nat.add_zero]
  have hmodb : b.toNat % cfg.MemInterleaving = r := by
    rw [hb, Nat.mul_add_mod, Nat.mod_eq_of_lt (by omega)]
  have hsent : cfg.SentTo i b := by
    rw [SentTo, toNat_getMemoryLocation (.inr (.inl (hb ▸ hbelow))), hdivb, Nat.mul_add_mod',
      Nat.mod_eq_of_lt hiC]
  have htb := toNat_translateAddress (h.noWrap b hsent)
  rw [hdue, hdivb, hmodb, Nat.add_mul, Nat.add_sub_cancel, Nat.mul_right_comm,
    Nat.mul_div_cancel _ hC, Nat.add_comm, ← hr] at htb
  have hsame : cfg.transactionAddress i a = cfg.transactionAddress i b :=
    congrArg alignTransactionAddress (BitVec.eq_of_toNat_eq htb.symm)
  have hblock := congrArg BitVec.toNat (h.injective a b hi hsent hsame)
  rw [BitVec.toNat_ushiftRight, BitVec.toNat_ushiftRight, Nat.shiftRight_eq_div_pow,
    Nat.shiftRight_eq_div_pow, ha] at hblock
  have h6 : 6 ≤ cfg.MemXORShift.toNat := Nat.le_trans le_shift hsx.le
  have hless : b.toNat / 2 ^ 6 < 2 ^ cfg.MemXORShift.toNat / 2 ^ 6 :=
    Nat.div_lt_div_of_lt_of_dvd (Nat.pow_dvd_pow 2 h6) (hb ▸ hbelow)
  omega

end Disagreeing

/-- **The memory controllers compact their addresses** if and only if nothing is hashed into their
numbers and the interleaved blocks are within 32 bits, or there is only one. -/
theorem compacts_iff : (∀ i < cfg.MemControllers, cfg.Compacts i) ↔ cfg.Agrees := by
  refine ⟨fun h => ?_, fun h i _ => h.compacts⟩
  by_contra hno
  obtain ⟨hone, hhash⟩ := not_or.mp hno
  have hbad : ∃ i < cfg.MemControllers, ¬ cfg.Compacts i := by
    by_cases hfits : cfg.MemControllers * cfg.MemInterleaving ≤ 2 ^ 32
    · have hx : cfg.MemXORShift > 0 := by
        by_contra hx
        exact hhash ⟨Int.not_lt.mp hx, hfits⟩
      rcases Nat.lt_or_ge (2 ^ cfg.MemXORShift.toNat)
        (cfg.MemControllers * cfg.MemInterleaving) with hnear | hfar
      · exact not_compacts_of_near hx hfits hnear
      · exact not_compacts_of_far hx hone hfits hfar
    · exact not_compacts_of_large (Nat.not_le.mp hfits)
  obtain ⟨i, hi, hnot⟩ := hbad
  exact hnot (h i hi)

end MemoryConfig

/-- Eight memory controllers with pages interleaved, of which bits from the twentieth on are hashed
into the numbers of the controllers. -/
def hashed : MemoryConfig where
  MemControllers := 8
  MemInterleaving := 4096
  MemXORShift := 20
  controllers := ⟨3, rfl⟩
  controllers_lt := by decide
  interleaving := ⟨12, rfl⟩
  interleaving_lt := by decide
  transaction_le := by decide
  xorShift := by decide

/-- **Two blocks with one address**: both go to controller 1. -/
theorem blocks_clash :
    hashed.SentTo 1 0x100000 ∧ hashed.SentTo 1 0xF9E00 ∧
      hashed.transactionAddress 1 0x100000 = 0x1FE00 ∧
      hashed.transactionAddress 1 0xF9E00 = 0x1FE00 ∧
      ¬ ∀ (cfg : MemoryConfig), ∀ i < cfg.MemControllers, cfg.Compacts i := by
  refine ⟨by decide, by decide, by decide, by decide, fun h => ?_⟩
  have hblocks := (h hashed 1 (by decide)).injective 0x100000 0xF9E00 (by decide) (by decide)
    (by decide)
  exact absurd hblocks (by decide)

end DRAMController

end Flexus
