import Flexus.Decoder.ConditionCodes
import Mathlib.Tactic.ByContra
import Mathlib.Tactic.Tauto

/-!
# Divisions

Divisions, and their condition codes, as the decoder computes them
(`components/v9Decoder/Operations.cpp`): of a dividend of 64 bits that is put together from the
register Y and a source register, by a divisor of 32 bits, and of two words of 64 bits. The host
divides; where the quotient does not fit into a word of the host, it cannot.

The results are right as long as the host can divide. The codes of a signed division are computed
from a divisor that is extended by a bit that is not its sign, and the least quotient of 32 bits
counts as one that does not fit.
-/

namespace Flexus

namespace Decoder

/-! ### Divisions of the host -/

/-- The division of two `uint64_t`, by a divisor that is not zero. -/
def hostUDiv (dividend divisor : BitVec 64) : Option (BitVec 64) :=
  if divisor = 0 then none else some (dividend / divisor)

/-- The division of two `int64_t`, where it is defined: the quotient of the least number by -1 does
not fit. -/
def hostSDiv (dividend divisor : BitVec 64) : Option (BitVec 64) :=
  if divisor = 0 ∨ (dividend = BitVec.intMin 64 ∧ divisor = -1) then none
  else some (dividend.sdiv divisor)

/-! ### The operations -/

/-- The dividend, as the source puts it together. -/
def dividendOf (op0 y : BitVec 64) : BitVec 64 :=
  (op0 &&& 0xFFFFFFFF#64) ||| ((y &&& 0xFFFFFFFF#64) <<< 32)

/-- `op1 | (op1 & sign ? 0xFFFFFFFF00000000ULL : 0ULL)`, of the low word. -/
def extendBy (sign op1 : BitVec 64) : BitVec 64 :=
  let op1 := op1 &&& 0xFFFFFFFF
  op1 ||| (if op1 &&& sign != 0 then 0xFFFFFFFF00000000 else 0)

/-- `UDiv`. -/
def UDiv (op0 op1 y : BitVec 64) : Option (BitVec 64) :=
  let divisor := op1 &&& 0xFFFFFFFF
  if divisor = 0 then some 0
  else (hostUDiv (dividendOf op0 y) divisor).map fun prod =>
    if prod > 0xFFFFFFFF then 0xFFFFFFFF else prod

/-- **`SDiv`**. -/
def SDiv (op0 op1 y : BitVec 64) : Option (BitVec 64) :=
  let divisor := extendBy 0x80000000 op1
  if divisor = 0 then some 0
  else (hostSDiv (dividendOf op0 y) divisor).map fun prod =>
    if (0x7FFFFFFF#64).slt prod then 0x7FFFFFFF
    else if prod.slt (-1 * 0x7FFFFFFF) then 0xFFFFFFFF80000000
    else prod

/-- `UDivX`. -/
def UDivX (op0 op1 : BitVec 64) : Option (BitVec 64) :=
  if op1 ≠ 0 then hostUDiv op0 op1 else some 0

/-- `SDivX`. -/
def SDivX (op0 op1 : BitVec 64) : Option (BitVec 64) :=
  if op1 ≠ 0 then hostSDiv op0 op1 else some 0

/-- The codes that are set from a quotient. -/
def divCodes (v : Bool) (prod : BitVec 64) : CCBits where
  icc := { c := false, v, z := prod &&& 0xFFFFFFFF == 0, n := prod &&& 0x80000000 != 0 }
  xcc := { c := false, v := false, z := prod == 0, n := prod &&& 0x8000000000000000 != 0 }

/-- No codes at all. -/
def noCodes : CCBits := ⟨⟨false, false, false, false⟩, ⟨false, false, false, false⟩⟩

/-- **`UDiv_CC`**. -/
def UDiv_CC (op0 op1 y : BitVec 64) : Option CCBits :=
  let divisor := op1 &&& 0xFFFFFFFF
  if divisor = 0 then some noCodes
  else (hostUDiv (dividendOf op0 y) divisor).map fun prod =>
    if prod > 0xFFFFFFFF then divCodes true 0xFFFFFFFF else divCodes false prod

/-- **`SDiv_CC`**. The mask for the sign has a zero less than that of `SDiv`. -/
def SDiv_CC (op0 op1 y : BitVec 64) : Option CCBits :=
  let divisor := extendBy 0x8000000 op1
  if divisor = 0 then some noCodes
  else (hostSDiv (dividendOf op0 y) divisor).map fun prod =>
    if (0x7FFFFFFF#64).slt prod then divCodes true 0x7FFFFFFF
    else if prod.slt (-1 * 0x7FFFFFFF) then divCodes true 0xFFFFFFFF80000000
    else divCodes false prod

/-! ### What they are to compute -/

/-- The number in Y and a register, a signed one. -/
def dividend (rs1 y : BitVec 64) : ℤ := (y.setWidth 32 ++ rs1.setWidth 32).toInt

/-- The number in the low word of a register, a signed one. -/
def divisor (rs2 : BitVec 64) : ℤ := (rs2.setWidth 32).toInt

/-- The number in Y and a register. -/
def unsignedDividend (rs1 y : BitVec 64) : ℕ := (y.setWidth 32 ++ rs1.setWidth 32).toNat

/-- The number of 32 bits that is closest. -/
def saturate (q : ℤ) : ℤ := max (-2 ^ 31) (min q (2 ^ 31 - 1))

/-- **The codes of a value**, with overflow if it has been saturated. -/
def describe (value : BitVec 64) (saturated : Prop) [Decidable saturated] : CCBits where
  icc :=
    { c := false, v := decide saturated
      z := decide (value.setWidth 32 = 0), n := decide ((value.setWidth 32).toInt < 0) }
  xcc := { c := false, v := false, z := decide (value = 0), n := decide (value.toInt < 0) }

/-- The divisions, and those that set the condition codes. -/
inductive DivOp
  | udiv
  | sdiv
  | udivx
  | sdivx
  | udivcc
  | sdivcc
  deriving DecidableEq

namespace DivOp

/-- The divisor is not zero. -/
def Divides (rs2 : BitVec 64) : DivOp → Prop
  | .udivx | .sdivx => rs2 ≠ 0
  | _ => rs2.setWidth 32 ≠ 0

/-- **What is asked of a division**: the host can divide; the quotient of a signed division is
truncated towards zero and saturated to 32 bits; the codes describe the result. -/
def Meets (rs1 rs2 y : BitVec 64) : DivOp → Prop
  | .udiv => (UDiv rs1 rs2 y).isSome
  | .sdiv => SDiv rs1 rs2 y =
      some (BitVec.ofInt 64 (saturate ((dividend rs1 y).tdiv (divisor rs2))))
  | .udivx => (UDivX rs1 rs2).isSome
  | .sdivx => (SDivX rs1 rs2).isSome
  | .udivcc => ∃ value, UDiv rs1 rs2 y = some value ∧
      UDiv_CC rs1 rs2 y = some (describe value
        (2 ^ 32 ≤ unsignedDividend rs1 y / (rs2.setWidth 32).toNat))
  | .sdivcc => ∃ value, SDiv rs1 rs2 y = some value ∧
      SDiv_CC rs1 rs2 y = some (describe value
        (saturate ((dividend rs1 y).tdiv (divisor rs2)) ≠ (dividend rs1 y).tdiv (divisor rs2)))

/-- **When it is done**: the host can divide, and for the codes of a signed division, bits 27 and 31
of the divisor agree and the quotient is not the least one of 32 bits, or they differ and the
quotient is zero. -/
def Succeeds (rs1 rs2 y : BitVec 64) : DivOp → Prop
  | .udiv | .udivx | .udivcc => True
  | .sdiv => ¬ (dividend rs1 y = -2 ^ 63 ∧ divisor rs2 = -1)
  | .sdivx => ¬ (rs1.toInt = -2 ^ 63 ∧ rs2.toInt = -1)
  | .sdivcc => ¬ (dividend rs1 y = -2 ^ 63 ∧ divisor rs2 = -1) ∧
      if rs2.getLsbD 27 = rs2.getLsbD 31 then (dividend rs1 y).tdiv (divisor rs2) ≠ -2 ^ 31
      else (dividend rs1 y).natAbs < (divisor rs2).natAbs

instance (rs2 : BitVec 64) (op : DivOp) : Decidable (op.Divides rs2) := by
  cases op <;> unfold Divides <;> infer_instance

instance (rs1 rs2 y : BitVec 64) (op : DivOp) : Decidable (op.Succeeds rs1 rs2 y) := by
  cases op <;> unfold Succeeds <;> infer_instance

end DivOp

/-! ### Dividends and divisors -/

section Words

variable {op0 op1 y rs1 rs2 prod a b : BitVec 64} {k : ℕ}

theorem dividendOf_eq : dividendOf op0 y = y.setWidth 32 ++ op0.setWidth 32 := by
  have hlt : (y.toNat % 2 ^ 32) <<< 32 < 2 ^ 64 := by
    rw [Nat.shiftLeft_eq]
    omega
  have hop0 : (op0 &&& 0xFFFFFFFF#64).toNat = op0.toNat % 2 ^ 32 := toNat_low
  have hy : (y &&& 0xFFFFFFFF#64).toNat = y.toNat % 2 ^ 32 := toNat_low
  refine BitVec.eq_of_toNat_eq ?_
  rw [dividendOf, BitVec.toNat_or, BitVec.toNat_shiftLeft, hop0, hy,
    Nat.mod_eq_of_lt hlt, BitVec.toNat_append, BitVec.toNat_setWidth, BitVec.toNat_setWidth,
    Nat.or_comm]

theorem toInt_dividendOf : (dividendOf rs1 y).toInt = dividend rs1 y := by
  rw [dividendOf_eq]
  rfl

theorem toNat_dividendOf : (dividendOf rs1 y).toNat = unsignedDividend rs1 y := by
  rw [dividendOf_eq]
  rfl

/-- **The low word, extended by one of its bits.** -/
theorem toInt_extendBy (hk : k < 32) : (extendBy (BitVec.twoPow 64 k) op1).toInt =
    if op1.getLsbD k then ((op1.toNat % 2 ^ 32 : ℕ) : ℤ) - 2 ^ 32
    else ((op1.toNat % 2 ^ 32 : ℕ) : ℤ) := by
  have hlow := @toNat_low op1
  have hbit : (op1 &&& 0xFFFFFFFF).getLsbD k = op1.getLsbD k := by
    have hmask : (0xFFFFFFFF : BitVec 64).getLsbD k = (decide (k < 64) && decide (k < 32)) :=
      @Lib.getLsbD_lowBits 64 32 k
    rw [BitVec.getLsbD_and, hmask, decide_eq_true hk, decide_eq_true (Nat.lt_trans hk (by decide)),
      Bool.and_true, Bool.and_true]
  have hsplit : (op1 &&& 0xFFFFFFFF) &&& 0xFFFFFFFF00000000 = 0 := by
    rw [BitVec.and_assoc]
    exact BitVec.and_zero
  rw [extendBy, Lib.and_twoPow_ne_zero (Nat.lt_trans hk (by decide)), hbit]
  split
  · have hhigh : (0xFFFFFFFF00000000 : BitVec 64).toNat = 2 ^ 64 - 2 ^ 32 := rfl
    rw [← BitVec.add_eq_or_of_and_eq_zero _ _ hsplit, BitVec.toInt_eq_toNat_cond,
      BitVec.toNat_add, hlow, hhigh]
    split <;> omega
  · have hor : (op1 &&& 0xFFFFFFFF) ||| 0 = op1 &&& 0xFFFFFFFF := BitVec.or_zero
    rw [hor, BitVec.toInt_eq_toNat_cond, hlow]
    split <;> omega

theorem getLsbD_31 : rs2.getLsbD 31 = decide (2 ^ 31 ≤ rs2.toNat % 2 ^ 32) := by
  rw [← bit_31]
  exact (Lib.and_twoPow_ne_zero (by decide)).symm

theorem divisor_eq :
    divisor rs2 = if rs2.getLsbD 31 then ((rs2.toNat % 2 ^ 32 : ℕ) : ℤ) - 2 ^ 32
      else ((rs2.toNat % 2 ^ 32 : ℕ) : ℤ) := by
  rw [divisor, toInt_icc, signed, getLsbD_31]
  simp only [decide_eq_true_iff]
  split <;> omega

theorem toInt_extendBy_31 : (extendBy 0x80000000 rs2).toInt = divisor rs2 := by
  have hpow : (0x80000000 : BitVec 64) = BitVec.twoPow 64 31 := by decide
  rw [hpow, toInt_extendBy (by decide), divisor_eq]

theorem toInt_extendBy_27 : (extendBy 0x8000000 rs2).toInt =
    if rs2.getLsbD 27 then ((rs2.toNat % 2 ^ 32 : ℕ) : ℤ) - 2 ^ 32
      else ((rs2.toNat % 2 ^ 32 : ℕ) : ℤ) := by
  have hpow : (0x8000000 : BitVec 64) = BitVec.twoPow 64 27 := by decide
  rw [hpow, toInt_extendBy (by decide)]

/-! ### Quotients -/

theorem toInt_one_neg : (-1 : BitVec 64).toInt = -1 := by decide

theorem toInt_least : (BitVec.intMin 64).toInt = -2 ^ 63 := by decide

/-- **The host divides** unless the quotient is that of the least number by -1. -/
theorem hostSDiv_spec (hb : b.toInt ≠ 0) :
    (a.toInt = -2 ^ 63 ∧ b.toInt = -1 → hostSDiv a b = none) ∧
      (¬ (a.toInt = -2 ^ 63 ∧ b.toInt = -1) →
        ∃ prod, hostSDiv a b = some prod ∧ prod.toInt = a.toInt.tdiv b.toInt) := by
  have hzero : b ≠ 0 := by
    rintro rfl
    exact hb BitVec.toInt_zero
  have hfails : (b = 0 ∨ (a = BitVec.intMin 64 ∧ b = -1)) ↔ (a.toInt = -2 ^ 63 ∧ b.toInt = -1) := by
    rw [or_iff_right hzero, ← BitVec.toInt_inj, ← BitVec.toInt_inj, toInt_least, toInt_one_neg]
  rw [hostSDiv]
  constructor
  · intro h
    rw [if_pos (hfails.mpr h)]
  · intro h
    rw [if_neg (mt hfails.mp h)]
    refine ⟨_, rfl, BitVec.toInt_sdiv_of_ne_or_ne a b ?_⟩
    by_contra hcon
    rw [not_or, not_not, not_not] at hcon
    exact h (hfails.mp (.inr hcon))

theorem saturate_prod :
    (if (0x7FFFFFFF#64).slt prod then 0x7FFFFFFF
      else if prod.slt (-1 * 0x7FFFFFFF) then 0xFFFFFFFF80000000 else prod) =
        BitVec.ofInt 64 (saturate prod.toInt) := by
  have hlarge : (0x7FFFFFFF#64).slt prod = true ↔ 2 ^ 31 - 1 < prod.toInt := BitVec.slt_iff_toInt_lt
  have hsmall : prod.slt (-1 * 0x7FFFFFFF) = true ↔ prod.toInt < -(2 ^ 31 - 1) :=
    BitVec.slt_iff_toInt_lt
  rw [saturate]
  split
  · rename_i h
    have hsat : max (-2 ^ 31) (min prod.toInt (2 ^ 31 - 1)) = 2 ^ 31 - 1 := by
      have := hlarge.mp h
      omega
    rw [hsat]
    decide
  · rename_i h
    rw [hlarge] at h
    split
    · rename_i h'
      have hsat : max (-2 ^ 31) (min prod.toInt (2 ^ 31 - 1)) = -2 ^ 31 := by
        have := hsmall.mp h'
        omega
      rw [hsat]
      decide
    · rename_i h'
      rw [hsmall] at h'
      have hsat : max (-2 ^ 31) (min prod.toInt (2 ^ 31 - 1)) = prod.toInt := by omega
      rw [hsat, BitVec.ofInt_toInt]

theorem saturate_bounds (q : ℤ) : -2 ^ 31 ≤ saturate q ∧ saturate q < 2 ^ 31 := by
  rw [saturate]
  omega

theorem describe_ofInt {s : ℤ} (hs : -2 ^ 31 ≤ s ∧ s < 2 ^ 31) (p : Prop) [Decidable p] :
    describe (BitVec.ofInt 64 s) p =
      ⟨⟨false, decide p, decide (s = 0), decide (s < 0)⟩,
        ⟨false, false, decide (s = 0), decide (s < 0)⟩⟩ := by
  have hxcc : (BitVec.ofInt 64 s).toInt = s :=
    BitVec.toInt_ofInt_eq_self (by decide) (by omega) (by omega)
  have hicc : ((BitVec.ofInt 64 s).setWidth 32).toInt = s := by
    rw [toInt_icc, signed, BitVec.toNat_ofInt]
    split <;> omega
  have hzero : BitVec.ofInt 64 s = 0 ↔ s = 0 := by
    rw [← BitVec.toInt_inj, hxcc, BitVec.ofNat_eq_ofNat, BitVec.toInt_zero]
  have hzero' : (BitVec.ofInt 64 s).setWidth 32 = 0 ↔ s = 0 := by
    rw [← BitVec.toInt_inj, hicc, BitVec.ofNat_eq_ofNat, BitVec.toInt_zero]
  rw [describe, hicc, hxcc, decide_eq_decide.mpr hzero, decide_eq_decide.mpr hzero']

theorem divCodes_eq (p : Prop) [Decidable p] : divCodes (decide p) prod = describe prod p := by
  have hzero : (prod == 0) = decide (prod = 0) := rfl
  have hneg : (prod &&& 0x8000000000000000 != 0) = decide (prod.toInt < 0) := by
    have h := @negative_xcc prod
    rw [BitVec.setWidth_eq] at h
    exact h
  have hneg' : (prod &&& 0x80000000 != 0) = decide ((prod.setWidth 32).toInt < 0) := negative_icc
  rw [divCodes, describe, zero_icc, hzero, hneg, hneg']

end Words

/-! ### The operations do what is asked -/

section Operations

variable {rs1 rs2 y : BitVec 64}

theorem divisor_ne_zero (h : rs2.setWidth 32 ≠ 0) : divisor rs2 ≠ 0 := by
  intro h0
  rw [divisor, ← BitVec.toInt_zero, BitVec.toInt_inj] at h0
  exact h h0

theorem extendBy_ne_zero {x : BitVec 64} (h : x.toInt ≠ 0) : x ≠ 0 := by
  rintro rfl
  exact h BitVec.toInt_zero

/-- **`SDiv`**, where the host can divide and where it cannot. -/
theorem SDiv_spec (hd : rs2.setWidth 32 ≠ 0) :
    (dividend rs1 y = -2 ^ 63 ∧ divisor rs2 = -1 → SDiv rs1 rs2 y = none) ∧
      (¬ (dividend rs1 y = -2 ^ 63 ∧ divisor rs2 = -1) → SDiv rs1 rs2 y =
        some (BitVec.ofInt 64 (saturate ((dividend rs1 y).tdiv (divisor rs2))))) := by
  have hne : (extendBy 0x80000000 rs2).toInt ≠ 0 := by
    rw [toInt_extendBy_31]
    exact divisor_ne_zero hd
  obtain ⟨hfails, hdivides⟩ := @hostSDiv_spec (dividendOf rs1 y) _ hne
  rw [toInt_dividendOf, toInt_extendBy_31] at hfails hdivides
  rw [SDiv, if_neg (extendBy_ne_zero hne)]
  constructor
  · intro h
    rw [hfails h]
    rfl
  · intro h
    obtain ⟨prod, hprod, hq⟩ := hdivides h
    rw [hprod, Option.map_some, saturate_prod, hq]

/-- **The quotient is cut off** by `SDiv_CC`. -/
def Cut (q : ℤ) : Prop := 2 ^ 31 - 1 < q ∨ q < -(2 ^ 31 - 1)

instance (q : ℤ) : Decidable (Cut q) := by
  unfold Cut
  infer_instance

theorem codes_prod {prod : BitVec 64} :
    (if (0x7FFFFFFF#64).slt prod then divCodes true 0x7FFFFFFF
      else if prod.slt (-1 * 0x7FFFFFFF) then divCodes true 0xFFFFFFFF80000000
      else divCodes false prod) =
        describe (BitVec.ofInt 64 (saturate prod.toInt)) (Cut prod.toInt) := by
  have hlarge : (0x7FFFFFFF#64).slt prod = true ↔ 2 ^ 31 - 1 < prod.toInt := BitVec.slt_iff_toInt_lt
  have hsmall : prod.slt (-1 * 0x7FFFFFFF) = true ↔ prod.toInt < -(2 ^ 31 - 1) :=
    BitVec.slt_iff_toInt_lt
  rw [← saturate_prod, ← divCodes_eq]
  split
  · rename_i h
    rw [decide_eq_true (.inl (hlarge.mp h))]
  · rename_i h
    split
    · rename_i h'
      rw [decide_eq_true (.inr (hsmall.mp h'))]
    · rename_i h'
      have hcut : ¬ Cut prod.toInt := not_or.mpr ⟨mt hlarge.mpr h, mt hsmall.mpr h'⟩
      rw [decide_eq_false hcut]

/-- **`SDiv_CC`**, where the host can divide by the divisor that it has. -/
theorem SDiv_CC_spec {d : ℤ} (hd : (extendBy 0x8000000 rs2).toInt = d) (hne : d ≠ 0)
    (hdiv : ¬ (dividend rs1 y = -2 ^ 63 ∧ d = -1)) :
    SDiv_CC rs1 rs2 y =
      some (describe (BitVec.ofInt 64 (saturate ((dividend rs1 y).tdiv d)))
        (Cut ((dividend rs1 y).tdiv d))) := by
  obtain ⟨-, hdivides⟩ := @hostSDiv_spec (dividendOf rs1 y) (extendBy 0x8000000 rs2) (hd ▸ hne)
  rw [toInt_dividendOf, hd] at hdivides
  obtain ⟨prod, hprod, hq⟩ := hdivides hdiv
  rw [SDiv_CC, if_neg (extendBy_ne_zero (hd ▸ hne)), hprod, Option.map_some, codes_prod, hq]

theorem describe_eq_iff {q q' : ℤ} {p p' : Prop} [Decidable p] [Decidable p'] :
    describe (BitVec.ofInt 64 (saturate q')) p' = describe (BitVec.ofInt 64 (saturate q)) p ↔
      (p' ↔ p) ∧ (q' = 0 ↔ q = 0) ∧ (q' < 0 ↔ q < 0) := by
  have hzero : ∀ q, saturate q = 0 ↔ q = 0 := by
    intro q
    rw [saturate]
    omega
  have hneg : ∀ q, saturate q < 0 ↔ q < 0 := by
    intro q
    rw [saturate]
    omega
  rw [describe_ofInt (saturate_bounds q'), describe_ofInt (saturate_bounds q)]
  simp only [CCBits.mk.injEq, Codes.mk.injEq, decide_eq_decide, hzero, hneg, true_and]
  tauto

/-- A quotient is cut off though it need not be: the least one of 32 bits. -/
theorem cut_iff {q : ℤ} : (Cut q ↔ saturate q ≠ q) ↔ q ≠ -2 ^ 31 := by
  rw [Cut, saturate]
  omega

/-- **A quotient by a number of the other sign** that is not less agrees with the first one in its
sign only if that is zero. -/
theorem tdiv_signs {D d d' : ℤ} (hle : d.natAbs ≤ d'.natAbs)
    (hd : d.sign = 1 ∧ d'.sign = -1 ∨ d.sign = -1 ∧ d'.sign = 1) :
    ((D.tdiv d' = 0 ↔ D.tdiv d = 0) ∧ (D.tdiv d' < 0 ↔ D.tdiv d < 0)) ↔
      D.natAbs < d.natAbs := by
  rw [← @Int.sign_eq_zero_iff_zero (D.tdiv d), ← @Int.sign_eq_zero_iff_zero (D.tdiv d'),
    ← Int.sign_eq_neg_one_iff_neg, ← Int.sign_eq_neg_one_iff_neg, Int.sign_tdiv, Int.sign_tdiv]
  by_cases hlt : D.natAbs < d.natAbs
  · rw [if_pos hlt, if_pos (Nat.lt_of_lt_of_le hlt hle)]
    exact iff_of_true ⟨Iff.rfl, Iff.rfl⟩ hlt
  · have hd0 : d.natAbs ≠ 0 := by
      rw [Ne, Int.natAbs_eq_zero, ← Int.sign_eq_zero_iff_zero]
      omega
    have hD : D.sign = 1 ∨ D.sign = -1 := by
      rw [Int.sign_eq_one_iff_pos, Int.sign_eq_neg_one_iff_neg]
      omega
    rw [if_neg hlt]
    refine iff_of_false ?_ hlt
    split
    · -- One of them is zero, and the other one is not.
      rcases hd with ⟨h, -⟩ | ⟨h, -⟩ <;> rcases hD with h' | h' <;> rw [h, h'] <;> omega
    · -- The signs differ.
      rcases hd with ⟨h, h₂⟩ | ⟨h, h₂⟩ <;> rcases hD with h' | h' <;> rw [h, h₂, h'] <;> omega

/-- **The codes of a signed division** describe its result if and only if the bits that stand for
the sign of the divisor agree and the quotient is not cut off without need, or they differ and the
quotient is zero. -/
theorem SDiv_CC_iff (hd : rs2.setWidth 32 ≠ 0)
    (hdiv : ¬ (dividend rs1 y = -2 ^ 63 ∧ divisor rs2 = -1)) :
    SDiv_CC rs1 rs2 y =
        some (describe (BitVec.ofInt 64 (saturate ((dividend rs1 y).tdiv (divisor rs2))))
          (saturate ((dividend rs1 y).tdiv (divisor rs2)) ≠
            (dividend rs1 y).tdiv (divisor rs2))) ↔
      if rs2.getLsbD 27 = rs2.getLsbD 31 then (dividend rs1 y).tdiv (divisor rs2) ≠ -2 ^ 31
      else (dividend rs1 y).natAbs < (divisor rs2).natAbs := by
  have hext := @toInt_extendBy_27 rs2
  have hne := divisor_ne_zero hd
  have hdivisor := @divisor_eq rs2
  split
  · rename_i hbits
    rw [hbits, ← divisor_eq] at hext
    rw [SDiv_CC_spec hext hne hdiv, Option.some_inj, describe_eq_iff, cut_iff, and_iff_left]
    exact ⟨Iff.rfl, Iff.rfl⟩
  · rename_i hbits
    have hhigh := @getLsbD_31 rs2
    -- The other divisor is not less, and of the other sign.
    obtain ⟨d', hd'⟩ : ∃ d', (extendBy 0x8000000 rs2).toInt = d' := ⟨_, rfl⟩
    rw [hd'] at hext
    have hother : (divisor rs2).natAbs ≤ d'.natAbs ∧ 2 ^ 31 ≤ d'.natAbs ∧
        (0 < divisor rs2 ∧ d' < 0 ∨ divisor rs2 < 0 ∧ 0 < d') := by
      cases h31 : rs2.getLsbD 31 with
      | false =>
        have h27 : rs2.getLsbD 27 = true := by
          rw [h31, Bool.not_eq_false] at hbits
          exact hbits
        rw [h31, eq_comm, decide_eq_false_iff_not] at hhigh
        rw [h27, if_pos rfl] at hext
        rw [h31, if_neg Bool.false_ne_true] at hdivisor
        omega
      | true =>
        have h27 : rs2.getLsbD 27 = false := by
          rw [h31, Bool.not_eq_true] at hbits
          exact hbits
        rw [h31, eq_comm, decide_eq_true_iff] at hhigh
        rw [h27, if_neg Bool.false_ne_true] at hext
        rw [h31, if_pos rfl] at hdivisor
        omega
    obtain ⟨hle, hlarge, hsigns⟩ := hother
    have hsigns' : (divisor rs2).sign = 1 ∧ d'.sign = -1 ∨ (divisor rs2).sign = -1 ∧ d'.sign = 1 := by
      rwa [Int.sign_eq_one_iff_pos, Int.sign_eq_one_iff_pos, Int.sign_eq_neg_one_iff_neg,
        Int.sign_eq_neg_one_iff_neg]
    rw [SDiv_CC_spec hd' (by omega) (by omega), Option.some_inj, describe_eq_iff,
      tdiv_signs hle hsigns', and_iff_right_iff_imp]
    intro hlt
    have hzero : (dividend rs1 y).tdiv (divisor rs2) = 0 := by
      rw [← Int.sign_eq_zero_iff_zero, Int.sign_tdiv, if_pos hlt]
    have hzero' : (dividend rs1 y).tdiv d' = 0 := by
      rw [← Int.sign_eq_zero_iff_zero, Int.sign_tdiv, if_pos (Nat.lt_of_lt_of_le hlt hle)]
    rw [hzero, hzero']
    exact cut_iff.mpr (by decide)

theorem low_ne_zero (hd : rs2.setWidth 32 ≠ 0) : rs2 &&& 0xFFFFFFFF ≠ 0 := by
  intro h
  apply hd
  refine BitVec.eq_of_toNat_eq ?_
  rw [BitVec.toNat_setWidth, ← toNat_low, h]
  rfl

theorem hostUDiv_of_ne {a b : BitVec 64} (hb : b ≠ 0) : hostUDiv a b = some (a / b) := if_neg hb

/-- **`UDiv` and `UDiv_CC`** always agree. -/
theorem UDiv_CC_spec (hd : rs2.setWidth 32 ≠ 0) : ∃ value, UDiv rs1 rs2 y = some value ∧
    UDiv_CC rs1 rs2 y = some (describe value
      (2 ^ 32 ≤ unsignedDividend rs1 y / (rs2.setWidth 32).toNat)) := by
  have hlow := low_ne_zero hd
  have hprod : (dividendOf rs1 y / (rs2 &&& 0xFFFFFFFF)).toNat =
      unsignedDividend rs1 y / (rs2.setWidth 32).toNat := by
    rw [BitVec.toNat_udiv, toNat_dividendOf, toNat_low, BitVec.toNat_setWidth]
  have hlarge : dividendOf rs1 y / (rs2 &&& 0xFFFFFFFF) > 0xFFFFFFFF ↔
      2 ^ 32 ≤ unsignedDividend rs1 y / (rs2.setWidth 32).toNat := by
    rw [gt_iff_lt, BitVec.lt_def, hprod]
    exact Iff.rfl
  rw [UDiv, UDiv_CC, if_neg hlow, if_neg hlow, hostUDiv_of_ne hlow]
  refine ⟨_, rfl, ?_⟩
  rw [Option.map_some, ← divCodes_eq]
  by_cases h : dividendOf rs1 y / (rs2 &&& 0xFFFFFFFF) > 0xFFFFFFFF
  · simp only [if_pos h, decide_eq_true (hlarge.mp h)]
  · simp only [if_neg h, decide_eq_false (mt hlarge.mpr h)]

theorem SDivX_isSome_iff (hd : rs2 ≠ 0) :
    (SDivX rs1 rs2).isSome = true ↔ ¬ (rs1.toInt = -2 ^ 63 ∧ rs2.toInt = -1) := by
  have hne : rs2.toInt ≠ 0 := by
    intro h
    rw [← BitVec.toInt_zero, BitVec.toInt_inj] at h
    exact hd h
  obtain ⟨hfails, hdivides⟩ := @hostSDiv_spec rs1 rs2 hne
  rw [SDivX, if_pos hd]
  constructor
  · intro h hover
    rw [hfails hover] at h
    exact Bool.false_ne_true h
  · intro h
    obtain ⟨prod, hprod, -⟩ := hdivides h
    rw [hprod]
    rfl

end Operations

/-- **Divisions do what is asked of them** if and only if the host can divide and, for the codes of
a signed division, no bit is taken for the sign that is not, and no quotient is cut off without
need. -/
theorem DivOp.meets_iff (op : DivOp) (rs1 rs2 y : BitVec 64) (hd : op.Divides rs2) :
    op.Meets rs1 rs2 y ↔ op.Succeeds rs1 rs2 y := by
  rcases op
  · refine iff_of_true ?_ trivial
    obtain ⟨value, hvalue, -⟩ := @UDiv_CC_spec rs1 rs2 y hd
    rw [Meets, hvalue]
    rfl
  · obtain ⟨hfails, hdivides⟩ := @SDiv_spec rs1 rs2 y hd
    constructor
    · intro h hover
      rw [Meets, hfails hover] at h
      cases h
    · exact hdivides
  · have hne : rs2 ≠ 0 := hd
    refine iff_of_true ?_ trivial
    rw [Meets, UDivX, if_pos hne, hostUDiv_of_ne hne]
    rfl
  · exact SDivX_isSome_iff hd
  · exact iff_of_true (UDiv_CC_spec hd) trivial
  · obtain ⟨hfails, hdivides⟩ := @SDiv_spec rs1 rs2 y hd
    by_cases hover : dividend rs1 y = -2 ^ 63 ∧ divisor rs2 = -1
    · refine iff_of_false ?_ fun h => h.1 hover
      rintro ⟨value, hvalue, -⟩
      rw [hfails hover] at hvalue
      cases hvalue
    · rw [Meets, Succeeds, and_iff_right hover, ← SDiv_CC_iff hd hover, hdivides hover]
      constructor
      · rintro ⟨value, hvalue, hcodes⟩
        cases hvalue
        exact hcodes
      · intro h
        exact ⟨_, rfl, h⟩

/-- The codes of a signed division are right: 7 by 2. -/
theorem DivOp.meets_seven_by_two : DivOp.sdivcc.Meets 7 2 0 :=
  (DivOp.meets_iff .sdivcc 7 2 0 (by decide)).mpr (by decide)

/-- **Divisions that go wrong**: the host cannot divide the least dividend by -1; the codes of
`0x10000000` by `0x8000000` are those of zero; and those of `-2 ^ 31` by 1 have an overflow. -/
theorem divisions_fail :
    SDiv 0 0xFFFFFFFF 0x80000000 = none ∧ SDivX 0x8000000000000000 0xFFFFFFFFFFFFFFFF = none ∧
      SDiv 0x10000000 0x8000000 0 = some 2 ∧
      (SDiv_CC 0x10000000 0x8000000 0).map (fun cc => cc.icc.z) = some true ∧
      SDiv 0x80000000 1 0xFFFFFFFF = some 0xFFFFFFFF80000000 ∧
      (SDiv_CC 0x80000000 1 0xFFFFFFFF).map (fun cc => cc.icc.v) = some true ∧
      ¬ ∀ (op : DivOp) rs1 rs2 y, op.Divides rs2 → op.Meets rs1 rs2 y := by
  refine ⟨by decide, by decide, by decide, by decide, by decide, by decide, fun h => ?_⟩
  have hmeets : (SDivX 0x8000000000000000 0xFFFFFFFFFFFFFFFF).isSome = true :=
    h .sdivx 0x8000000000000000 0xFFFFFFFFFFFFFFFF 0 (by decide)
  exact absurd hmeets (by decide)

end Decoder

end Flexus
