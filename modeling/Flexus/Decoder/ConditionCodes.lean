import Flexus.Lib.Bits
import Mathlib.Algebra.Group.Int.Defs

/-!
# Condition codes of sums and differences

The operations of the decoder compute the result of an instruction and its condition codes in two
places (`components/v9Decoder/Operations.cpp`, `operation` and `ccCalc`). For sums and differences,
with and without a carry that comes in, the codes are computed here as the source computes them, and
compared with what they stand for: the result is zero or negative, and what would be the exact
result, of signed or of unsigned numbers, does not fit into the word. That is so for the word of 64
bits and for its low 32 bits.

The carry that comes in is forgotten where the carry out of the low word of a sum is computed, and
for differences the borrow of the lowest bit is computed with a mask of 0.
-/

namespace Flexus

namespace Decoder

/-! ### The operations -/

/-- The codes of one width. -/
structure Codes where
  /-- Carry, or borrow. -/
  c : Bool
  /-- Overflow. -/
  v : Bool
  /-- Zero. -/
  z : Bool
  /-- Negative. -/
  n : Bool
  deriving DecidableEq

/-- A `std::bitset<8>` of condition codes, numbered by `eccBits`: `icc` is about the low 32 bits and
`xcc` about all 64. -/
structure CCBits where
  icc : Codes
  xcc : Codes
  deriving DecidableEq

/-- A truth value as a number. -/
def toWord (b : Bool) : BitVec 64 := if b then 1 else 0

/-- `x & (1ULL << k)`, as a truth value. -/
def bit (x : BitVec 64) (k : ℕ) : Bool := x &&& 1#64 <<< k != 0

variable (op1 op2 : BitVec 64) (ccbits : CCBits)

/-- `Add`. -/
def Add : BitVec 64 := op1 + op2

/-- `AddC`. -/
def AddC : BitVec 64 := op1 + op2 + toWord ccbits.icc.c

/-- `Sub`. -/
def Sub : BitVec 64 := op1 - op2

/-- `SubC`. -/
def SubC : BitVec 64 := op1 - op2 - toWord ccbits.icc.c

/-- **`Add_CC`**. -/
def Add_CC : CCBits :=
  let val := Add op1 op2
  let xcarry_add := (op1 >>> 1) + (op2 >>> 1) + (1 &&& op1 &&& op2)
  let icarry_add := (op1 &&& 0xFFFFFFFF) + (op2 &&& 0xFFFFFFFF)
  { icc :=
      { c := bit icarry_add 32
        v := bit op1 31 == bit op2 31 && bit op1 31 != bit val 31
        z := val &&& 0xFFFFFFFF == 0
        n := val &&& 0x80000000 != 0 }
    xcc :=
      { c := bit xcarry_add 63
        v := bit op1 63 == bit op2 63 && bit op1 63 != bit val 63
        z := val == 0
        n := val &&& 0x8000000000000000 != 0 } }

/-- **`AddC_CC`**. -/
def AddC_CC : CCBits :=
  let carry := ccbits.icc.c
  let val := op1 + op2 + toWord carry
  let op1_0 := op1 &&& 1 != 0
  let op2_0 := op2 &&& 1 != 0
  let xcarry_add := (op1 >>> 1) + (op2 >>> 1) +
    toWord ((op1_0 && op2_0) || (op1_0 && carry) || (op2_0 && carry))
  let icarry_add := (op1 &&& 0xFFFFFFFF) + (op2 &&& 0xFFFFFFFF)
  { icc :=
      { c := bit icarry_add 32
        v := bit op1 31 == bit op2 31 && bit op1 31 != bit val 31
        z := val &&& 0xFFFFFFFF == 0
        n := val &&& 0x80000000 != 0 }
    xcc :=
      { c := bit xcarry_add 63
        v := bit op1 63 == bit op2 63 && bit op1 63 != bit val 63
        z := val == 0
        n := val &&& 0x8000000000000000 != 0 } }

/-- **`Sub_CC`**. -/
def Sub_CC : CCBits :=
  let val := Sub op1 op2
  let xborrow_sub := (op1 >>> 1) - (op2 >>> 1) - (op2 &&& 1 &&& ~~~op1)
  let iborrow_sub := (op1 &&& 0xFFFFFFFF) - (op2 &&& 0xFFFFFFFF)
  { icc :=
      { c := bit iborrow_sub 32
        v := bit op1 31 != bit op2 31 && bit op1 31 != bit val 31
        z := val &&& 0xFFFFFFFF == 0
        n := bit val 31 }
    xcc :=
      { c := bit xborrow_sub 63
        v := bit op1 63 != bit op2 63 && bit op1 63 != bit val 63
        z := val == 0
        n := bit val 63 } }

/-- **`SubC_CC`**. The masks of `borrow0` are 0, as in the source. -/
def SubC_CC : CCBits :=
  let carry := ccbits.icc.c
  let val := op1 - op2 - toWord carry
  let borrow0 :=
    (!(op1 &&& 0 != 0) && (carry || (op2 &&& 0 != 0))) || (carry && (op2 &&& 0 != 0))
  let xborrow_sub := (op1 >>> 1) - (op2 >>> 1) - toWord borrow0
  let iborrow_sub := (op1 &&& 0xFFFFFFFF) - (op2 &&& 0xFFFFFFFF) - toWord carry
  { icc :=
      { c := bit iborrow_sub 32
        v := bit op1 31 != bit op2 31 && bit op1 31 != bit val 31
        z := val &&& 0xFFFFFFFF == 0
        n := bit val 31 }
    xcc :=
      { c := bit xborrow_sub 63
        v := bit op1 63 != bit op2 63 && bit op1 63 != bit val 63
        z := val == 0
        n := bit val 63 } }

/-- The sums and differences. -/
inductive ArithOp
  | add
  | addC
  | sub
  | subC
  deriving DecidableEq

/-- `operation`, for sums and differences. -/
def operation : ArithOp → BitVec 64
  | .add => Add op1 op2
  | .addC => AddC op1 op2 ccbits
  | .sub => Sub op1 op2
  | .subC => SubC op1 op2 ccbits

/-- `ccCalc`, for sums and differences. -/
def ccCalc : ArithOp → CCBits
  | .add => Add_CC op1 op2
  | .addC => AddC_CC op1 op2 ccbits
  | .sub => Sub_CC op1 op2
  | .subC => SubC_CC op1 op2 ccbits

/-! ### What the codes stand for -/

namespace ArithOp

/-- The carry that comes in. -/
def carryIn (cc : CCBits) : ArithOp → ℕ
  | .add | .sub => 0
  | .addC | .subC => cc.icc.c.toNat

/-- The exact sum or difference of three numbers. -/
def exact (x y c : ℤ) : ArithOp → ℤ
  | .add | .addC => x + y + c
  | .sub | .subC => x - y - c

/-- **The codes of a width**: the result of the operation is zero or negative; the exact result does
not fit into a word of this width, of unsigned numbers (carry) or of signed ones (overflow). -/
def codes (op : ArithOp) (w : ℕ) : Codes :=
  let val := (operation op1 op2 ccbits op).setWidth w
  let x := op1.setWidth w
  let y := op2.setWidth w
  let c := op.carryIn ccbits
  { c := decide ¬ (0 ≤ op.exact x.toNat y.toNat c ∧ op.exact x.toNat y.toNat c < 2 ^ w)
    v := decide ¬ (-2 ^ (w - 1) ≤ op.exact x.toInt y.toInt c ∧
      op.exact x.toInt y.toInt c < 2 ^ (w - 1))
    z := decide (val = 0)
    n := decide (val.toInt < 0) }

/-- **The condition codes of SPARC V9.** -/
def conditionCodes (op : ArithOp) : CCBits where
  icc := op.codes op1 op2 ccbits 32
  xcc := op.codes op1 op2 ccbits 64

/-- **The carry that comes in gets lost**: it is what makes the sum of the low words too large, or
the lowest bits need a borrow, or need none, other than the carry that comes in, between words that
are alike above. -/
def LosesCarry : ArithOp → Prop
  | .add | .sub => False
  | .addC => ccbits.icc.c = true ∧ op1.toNat % 2 ^ 32 + op2.toNat % 2 ^ 32 = 2 ^ 32 - 1
  | .subC => (ccbits.icc.c = false ∧ op1.toNat % 2 = 0 ∧ op2.toNat = op1.toNat + 1) ∨
      (ccbits.icc.c = true ∧ op2.toNat % 2 = 0 ∧ op1.toNat = op2.toNat + 1)

end ArithOp

/-! ### Numbers -/

section Numbers

variable {op1 op2 val : BitVec 64} {ccbits : CCBits} {x : BitVec 64} {k : ℕ} {b : Bool}

theorem bit_eq (hk : k < 64) : bit x k = decide (x.toNat / 2 ^ k % 2 = 1) := by
  have h : bit x k = x.getLsbD k := Lib.and_twoPow_ne_zero hk
  rw [h, BitVec.getLsbD, Nat.testBit_eq_decide_div_mod_eq]

theorem bit_31 : bit x 31 = decide (2 ^ 31 ≤ x.toNat % 2 ^ 32) := by
  rw [bit_eq (by decide), decide_eq_decide]
  omega

theorem bit_63 : bit x 63 = decide (2 ^ 63 ≤ x.toNat) := by
  have hx := x.isLt
  rw [bit_eq (by decide), decide_eq_decide]
  omega

theorem toNat_low : (x &&& 0xFFFFFFFF).toNat = x.toNat % 2 ^ 32 := by
  rw [BitVec.toNat_and]
  exact Nat.and_two_pow_sub_one_eq_mod x.toNat 32

theorem toNat_toWord : (toWord b).toNat = b.toNat := by
  rw [toWord]
  split
  · rename_i h
    rw [h]
    rfl
  · rename_i h
    rw [Bool.not_eq_true] at h
    rw [h]
    rfl

theorem odd_eq : (x &&& 1 != 0) = decide (x.toNat % 2 = 1) := by
  have h : bit x 0 = decide (x.toNat / 2 ^ 0 % 2 = 1) := bit_eq (by decide)
  rw [Nat.pow_zero, Nat.div_one] at h
  exact h

/-! ### Zero, negative and overflow -/

theorem zero_xcc : (val == 0) = decide (val.setWidth 64 = 0) := by
  rw [BitVec.setWidth_eq]
  rfl

theorem zero_icc : (val &&& 0xFFFFFFFF == 0) = decide (val.setWidth 32 = 0) := by
  rw [Bool.eq_iff_iff, beq_iff_eq, decide_eq_true_iff, ← BitVec.toNat_inj, ← BitVec.toNat_inj,
    toNat_low, BitVec.toNat_setWidth]
  rfl

/-- A number of a width, as a signed one; `h` is the place of the sign. -/
def signed (h x : ℕ) : ℤ := if h ≤ x then x - 2 * h else x

theorem toInt_xcc : (x.setWidth 64).toInt = signed (2 ^ 63) x.toNat := by
  rw [BitVec.setWidth_eq, BitVec.toInt_eq_toNat_cond, signed]
  split <;> split <;> omega

theorem toInt_icc : (x.setWidth 32).toInt = signed (2 ^ 31) (x.toNat % 2 ^ 32) := by
  rw [BitVec.toInt_eq_toNat_cond, BitVec.toNat_setWidth, signed]
  split <;> split <;> omega

theorem negative_xcc : bit val 63 = decide ((val.setWidth 64).toInt < 0) := by
  have hval := val.isLt
  rw [bit_63, toInt_xcc, decide_eq_decide, signed]
  split <;> omega

theorem negative_icc : bit val 31 = decide ((val.setWidth 32).toInt < 0) := by
  rw [bit_31, toInt_icc, decide_eq_decide, signed]
  split <;> omega

/-- **Overflow of a sum**: the signs of the numbers agree, and that of the sum is another one. -/
theorem overflow_add {h x y c v : ℕ} (hx : x < 2 * h) (hy : y < 2 * h) (hv : v < 2 * h)
    (hc : c ≤ 1) (hsum : v = x + y + c ∨ v + 2 * h = x + y + c) :
    (decide (h ≤ x) == decide (h ≤ y) && decide (h ≤ x) != decide (h ≤ v)) =
      decide ¬ (-(h : ℤ) ≤ signed h x + signed h y + c ∧ signed h x + signed h y + c < h) := by
  rw [Bool.eq_iff_iff, Bool.and_eq_true, beq_iff_eq, bne_iff_ne, decide_eq_decide, Ne,
    decide_eq_decide, decide_eq_true_iff, signed, signed]
  split <;> split <;> omega

/-- **Overflow of a difference**: the signs of the numbers differ, and that of the difference is not
the first one. -/
theorem overflow_sub {h x y c v : ℕ} (hx : x < 2 * h) (hy : y < 2 * h) (hv : v < 2 * h)
    (hc : c ≤ 1) (hsum : v + y + c = x ∨ v + y + c = x + 2 * h) :
    (decide (h ≤ x) != decide (h ≤ y) && decide (h ≤ x) != decide (h ≤ v)) =
      decide ¬ (-(h : ℤ) ≤ signed h x - signed h y - c ∧ signed h x - signed h y - c < h) := by
  rw [Bool.eq_iff_iff, Bool.and_eq_true, bne_iff_ne, bne_iff_ne, Ne, Ne, decide_eq_decide,
    decide_eq_decide, decide_eq_true_iff, signed, signed]
  split <;> split <;> omega

theorem overflow_add_xcc {c : ℕ} (hc : c ≤ 1)
    (hval : val.toNat = (op1.toNat + op2.toNat + c) % 2 ^ 64) :
    (bit op1 63 == bit op2 63 && bit op1 63 != bit val 63) =
      decide ¬ (-2 ^ (64 - 1) ≤ (op1.setWidth 64).toInt + (op2.setWidth 64).toInt + c ∧
        (op1.setWidth 64).toInt + (op2.setWidth 64).toInt + c < 2 ^ (64 - 1)) := by
  have h1 := op1.isLt
  have h2 := op2.isLt
  rw [bit_63, bit_63, bit_63, toInt_xcc, toInt_xcc]
  exact overflow_add (by omega) (by omega) (by omega) hc (by omega)

theorem overflow_add_icc {c : ℕ} (hc : c ≤ 1)
    (hval : val.toNat = (op1.toNat + op2.toNat + c) % 2 ^ 64) :
    (bit op1 31 == bit op2 31 && bit op1 31 != bit val 31) =
      decide ¬ (-2 ^ (32 - 1) ≤ (op1.setWidth 32).toInt + (op2.setWidth 32).toInt + c ∧
        (op1.setWidth 32).toInt + (op2.setWidth 32).toInt + c < 2 ^ (32 - 1)) := by
  rw [bit_31, bit_31, bit_31, toInt_icc, toInt_icc]
  exact overflow_add (by omega) (by omega) (by omega) hc (by omega)

theorem overflow_sub_xcc {c : ℕ} (hc : c ≤ 1)
    (hval : (val.toNat + op2.toNat + c) % 2 ^ 64 = op1.toNat) :
    (bit op1 63 != bit op2 63 && bit op1 63 != bit val 63) =
      decide ¬ (-2 ^ (64 - 1) ≤ (op1.setWidth 64).toInt - (op2.setWidth 64).toInt - c ∧
        (op1.setWidth 64).toInt - (op2.setWidth 64).toInt - c < 2 ^ (64 - 1)) := by
  have h1 := op1.isLt
  have h2 := op2.isLt
  have h3 := val.isLt
  rw [bit_63, bit_63, bit_63, toInt_xcc, toInt_xcc]
  exact overflow_sub (by omega) (by omega) (by omega) hc (by omega)

theorem overflow_sub_icc {c : ℕ} (hc : c ≤ 1)
    (hval : (val.toNat + op2.toNat + c) % 2 ^ 64 = op1.toNat) :
    (bit op1 31 != bit op2 31 && bit op1 31 != bit val 31) =
      decide ¬ (-2 ^ (32 - 1) ≤ (op1.setWidth 32).toInt - (op2.setWidth 32).toInt - c ∧
        (op1.setWidth 32).toInt - (op2.setWidth 32).toInt - c < 2 ^ (32 - 1)) := by
  rw [bit_31, bit_31, bit_31, toInt_icc, toInt_icc]
  exact overflow_sub (by omega) (by omega) (by omega) hc (by omega)

/-! ### Carries and borrows -/

/-- The carry out of a sum, from its halves and the carry out of the lowest bits. -/
theorem carry_xcc {low : BitVec 64} {c : ℕ} (hc : c ≤ 1)
    (hlow : low.toNat = (op1.toNat % 2 + op2.toNat % 2 + c) / 2) :
    bit ((op1 >>> 1) + (op2 >>> 1) + low) 63 =
      decide ¬ (0 ≤ (op1.toNat : ℤ) + op2.toNat + c ∧ (op1.toNat : ℤ) + op2.toNat + c < 2 ^ 64) := by
  have h1 := op1.isLt
  have h2 := op2.isLt
  rw [bit_63, decide_eq_decide, BitVec.toNat_add, BitVec.toNat_add, BitVec.toNat_ushiftRight,
    BitVec.toNat_ushiftRight, Nat.shiftRight_eq_div_pow, Nat.shiftRight_eq_div_pow, hlow]
  omega

theorem carry_icc : bit ((op1 &&& 0xFFFFFFFF) + (op2 &&& 0xFFFFFFFF)) 32 =
    decide (2 ^ 32 ≤ op1.toNat % 2 ^ 32 + op2.toNat % 2 ^ 32) := by
  rw [bit_eq (by decide), decide_eq_decide, BitVec.toNat_add, toNat_low, toNat_low]
  omega

/-- It is that of the sum with the carry that comes in, unless this is what makes it too large. -/
theorem carry_icc_iff {c : ℕ} (hc : c ≤ 1) :
    bit ((op1 &&& 0xFFFFFFFF) + (op2 &&& 0xFFFFFFFF)) 32 =
      decide ¬ (0 ≤ ((op1.setWidth 32).toNat : ℤ) + (op2.setWidth 32).toNat + c ∧
        ((op1.setWidth 32).toNat : ℤ) + (op2.setWidth 32).toNat + c < 2 ^ 32) ↔
    ¬ (c = 1 ∧ op1.toNat % 2 ^ 32 + op2.toNat % 2 ^ 32 = 2 ^ 32 - 1) := by
  rw [carry_icc, decide_eq_decide, BitVec.toNat_setWidth, BitVec.toNat_setWidth]
  omega

/-- The borrow of a difference, from its halves and the borrow of the lowest bits. -/
theorem borrow_xcc {low : BitVec 64} (hlow : low.toNat ≤ 1) :
    bit ((op1 >>> 1) - (op2 >>> 1) - low) 63 =
      decide (op1.toNat / 2 < op2.toNat / 2 + low.toNat) := by
  have h1 := op1.isLt
  have h2 := op2.isLt
  rw [bit_63, decide_eq_decide, BitVec.toNat_sub, BitVec.toNat_sub, BitVec.toNat_ushiftRight,
    BitVec.toNat_ushiftRight, Nat.shiftRight_eq_div_pow, Nat.shiftRight_eq_div_pow]
  omega

theorem borrow_icc {low : BitVec 64} {c : ℕ} (hc : c ≤ 1) (hlow : low.toNat = c) :
    bit ((op1 &&& 0xFFFFFFFF) - (op2 &&& 0xFFFFFFFF) - low) 32 =
      decide ¬ (0 ≤ ((op1.setWidth 32).toNat : ℤ) - (op2.setWidth 32).toNat - c ∧
        ((op1.setWidth 32).toNat : ℤ) - (op2.setWidth 32).toNat - c < 2 ^ 32) := by
  rw [bit_eq (by decide), decide_eq_decide, BitVec.toNat_sub, BitVec.toNat_sub, toNat_low,
    toNat_low, BitVec.toNat_setWidth, BitVec.toNat_setWidth]
  omega

theorem toNat_carry_low : (1 &&& op1 &&& op2).toNat = (op1.toNat % 2 + op2.toNat % 2) / 2 := by
  have hlow : (1 &&& op1 &&& op2).toNat = op1.toNat % 2 &&& op2.toNat := by
    rw [BitVec.toNat_and, BitVec.toNat_and]
    exact congrArg (· &&& op2.toNat) (Nat.one_and_eq_mod_two op1.toNat)
  rcases Nat.mod_two_eq_zero_or_one op1.toNat with h | h
  · rw [hlow, h, Nat.zero_and]
    omega
  · rw [hlow, h, Nat.one_and_eq_mod_two]
    omega

theorem toNat_borrow_low :
    (op2 &&& 1 &&& ~~~op1).toNat = (op2.toNat % 2) * (1 - op1.toNat % 2) := by
  have hnot : (~~~op1).toNat % 2 = 1 - op1.toNat % 2 := by
    have h1 := op1.isLt
    rw [BitVec.toNat_not]
    omega
  have hlow : (op2 &&& 1 &&& ~~~op1).toNat = op2.toNat % 2 &&& (~~~op1).toNat := by
    rw [BitVec.toNat_and, BitVec.toNat_and]
    exact congrArg (· &&& (~~~op1).toNat) (Nat.and_one_is_mod op2.toNat)
  rcases Nat.mod_two_eq_zero_or_one op2.toNat with h | h
  · rw [hlow, h, Nat.zero_and, Nat.zero_mul]
  · rw [hlow, h, Nat.one_and_eq_mod_two, hnot, Nat.one_mul]

end Numbers

/-! ### The codes of the operations -/

section Operations

variable {op1 op2 : BitVec 64} {ccbits : CCBits}

theorem toNat_Add : (Add op1 op2).toNat = (op1.toNat + op2.toNat + 0) % 2 ^ 64 :=
  BitVec.toNat_add ..

theorem toNat_AddC : (AddC op1 op2 ccbits).toNat =
    (op1.toNat + op2.toNat + ccbits.icc.c.toNat) % 2 ^ 64 := by
  rw [AddC, BitVec.toNat_add, BitVec.toNat_add, toNat_toWord, Nat.mod_add_mod]

theorem toNat_Sub : ((Sub op1 op2).toNat + op2.toNat + 0) % 2 ^ 64 = op1.toNat := by
  have h1 := op1.isLt
  have h2 := op2.isLt
  rw [Sub, BitVec.toNat_sub]
  omega

theorem toNat_SubC :
    ((SubC op1 op2 ccbits).toNat + op2.toNat + ccbits.icc.c.toNat) % 2 ^ 64 = op1.toNat := by
  have h1 := op1.isLt
  have h2 := op2.isLt
  have hc := Bool.toNat_le ccbits.icc.c
  rw [SubC, BitVec.toNat_sub, BitVec.toNat_sub, toNat_toWord]
  omega

theorem carryIn_le (op : ArithOp) : op.carryIn ccbits ≤ 1 := by
  rcases op
  · exact Nat.zero_le 1
  · exact Bool.toNat_le _
  · exact Nat.zero_le 1
  · exact Bool.toNat_le _

/-- **The codes of a sum** without a carry that comes in. -/
theorem Add_CC_eq : Add_CC op1 op2 = ArithOp.add.conditionCodes op1 op2 ccbits := by
  rw [Add_CC, ArithOp.conditionCodes, ArithOp.codes, ArithOp.codes, CCBits.mk.injEq,
    Codes.mk.injEq, Codes.mk.injEq]
  refine ⟨⟨?_, ?_, ?_, ?_⟩, ?_, ?_, ?_, ?_⟩
  · rw [carry_icc, decide_eq_decide, BitVec.toNat_setWidth, BitVec.toNat_setWidth, ArithOp.exact,
      ArithOp.carryIn]
    omega
  · exact overflow_add_icc (carryIn_le .add) toNat_Add
  · exact zero_icc
  · exact negative_icc
  · rw [BitVec.setWidth_eq, BitVec.setWidth_eq]
    exact carry_xcc (carryIn_le .add) toNat_carry_low
  · exact overflow_add_xcc (carryIn_le .add) toNat_Add
  · exact zero_xcc
  · exact negative_xcc

/-- The carry out of the lowest bits, with the one that comes in. -/
theorem toNat_carry_low_addC {carry : Bool} :
    (toWord (((op1 &&& 1 != 0) && (op2 &&& 1 != 0)) || ((op1 &&& 1 != 0) && carry) ||
      ((op2 &&& 1 != 0) && carry))).toNat =
        (op1.toNat % 2 + op2.toNat % 2 + carry.toNat) / 2 := by
  rw [toNat_toWord, odd_eq, odd_eq]
  rcases Nat.mod_two_eq_zero_or_one op1.toNat with h1 | h1 <;>
    rcases Nat.mod_two_eq_zero_or_one op2.toNat with h2 | h2 <;> rw [h1, h2] <;> cases carry <;> rfl

/-- **The codes of a sum** with a carry that comes in are right unless that carry gets lost. -/
theorem AddC_CC_eq_iff : AddC_CC op1 op2 ccbits = ArithOp.addC.conditionCodes op1 op2 ccbits ↔
    ¬ ArithOp.addC.LosesCarry op1 op2 ccbits := by
  have hicc := @carry_icc_iff op1 op2 _ (@carryIn_le ccbits .addC)
  have hloses : ArithOp.addC.LosesCarry op1 op2 ccbits ↔ ArithOp.addC.carryIn ccbits = 1 ∧
      op1.toNat % 2 ^ 32 + op2.toNat % 2 ^ 32 = 2 ^ 32 - 1 := by
    rw [ArithOp.LosesCarry, ArithOp.carryIn, Bool.toNat_eq_one]
  rw [AddC_CC, ArithOp.conditionCodes, ArithOp.codes, ArithOp.codes, CCBits.mk.injEq,
    Codes.mk.injEq, Codes.mk.injEq, hloses]
  constructor
  · intro h
    exact hicc.mp h.1.1
  · intro h
    refine ⟨⟨hicc.mpr h, ?_, zero_icc, negative_icc⟩, ?_, ?_, zero_xcc, negative_xcc⟩
    · exact overflow_add_icc (carryIn_le .addC) toNat_AddC
    · rw [BitVec.setWidth_eq, BitVec.setWidth_eq]
      exact carry_xcc (carryIn_le .addC) toNat_carry_low_addC
    · exact overflow_add_xcc (carryIn_le .addC) toNat_AddC

/-- **The codes of a difference** without a carry that comes in. -/
theorem Sub_CC_eq : Sub_CC op1 op2 = ArithOp.sub.conditionCodes op1 op2 ccbits := by
  have hborrow : (op2 &&& 1 &&& ~~~op1).toNat ≤ 1 := by
    rw [toNat_borrow_low]
    rcases Nat.mod_two_eq_zero_or_one op2.toNat with h | h <;> rw [h] <;> omega
  rw [Sub_CC, ArithOp.conditionCodes, ArithOp.codes, ArithOp.codes, CCBits.mk.injEq,
    Codes.mk.injEq, Codes.mk.injEq]
  refine ⟨⟨?_, ?_, zero_icc, negative_icc⟩, ?_, ?_, zero_xcc, negative_xcc⟩
  · rw [← BitVec.sub_zero ((op1 &&& 0xFFFFFFFF) - (op2 &&& 0xFFFFFFFF))]
    exact borrow_icc (carryIn_le .sub) rfl
  · exact overflow_sub_icc (carryIn_le .sub) toNat_Sub
  · rw [borrow_xcc hborrow, toNat_borrow_low, decide_eq_decide, BitVec.setWidth_eq,
      BitVec.setWidth_eq, ArithOp.exact, ArithOp.carryIn]
    have h1 := op1.isLt
    have h2 := op2.isLt
    rcases Nat.mod_two_eq_zero_or_one op2.toNat with h | h <;> rw [h] <;> omega
  · exact overflow_sub_xcc (carryIn_le .sub) toNat_Sub

/-- What the source has for the borrow of the lowest bits is the carry that comes in. -/
theorem borrow0_eq {carry : Bool} :
    ((!(op1 &&& 0 != 0) && (carry || (op2 &&& 0 != 0))) || (carry && (op2 &&& 0 != 0))) = carry := by
  have hzero : ∀ x : BitVec 64, (x &&& 0 != 0) = false := by
    intro x
    rw [bne_eq_false_iff_eq]
    exact BitVec.and_zero
  rw [hzero, hzero]
  cases carry <;> rfl

theorem borrow_xcc_iff {c : ℕ} (hc : c ≤ 1) {low : BitVec 64} (hlow : low.toNat = c) :
    bit ((op1 >>> 1) - (op2 >>> 1) - low) 63 =
      decide ¬ (0 ≤ ((op1.setWidth 64).toNat : ℤ) - (op2.setWidth 64).toNat - c ∧
        ((op1.setWidth 64).toNat : ℤ) - (op2.setWidth 64).toNat - c < 2 ^ 64) ↔
    ¬ ((c = 0 ∧ op1.toNat % 2 = 0 ∧ op2.toNat = op1.toNat + 1) ∨
      (c = 1 ∧ op2.toNat % 2 = 0 ∧ op1.toNat = op2.toNat + 1)) := by
  have h1 := op1.isLt
  have h2 := op2.isLt
  rw [borrow_xcc (hlow ▸ hc), decide_eq_decide, BitVec.setWidth_eq, BitVec.setWidth_eq, hlow]
  omega

/-- **The codes of a difference** with a carry that comes in are right unless that carry gets
lost. -/
theorem SubC_CC_eq_iff : SubC_CC op1 op2 ccbits = ArithOp.subC.conditionCodes op1 op2 ccbits ↔
    ¬ ArithOp.subC.LosesCarry op1 op2 ccbits := by
  have hxcc := @borrow_xcc_iff op1 op2 _ (@carryIn_le ccbits .subC) (toWord ccbits.icc.c)
    toNat_toWord
  have hloses : ArithOp.subC.LosesCarry op1 op2 ccbits ↔
      (ArithOp.subC.carryIn ccbits = 0 ∧ op1.toNat % 2 = 0 ∧ op2.toNat = op1.toNat + 1) ∨
        (ArithOp.subC.carryIn ccbits = 1 ∧ op2.toNat % 2 = 0 ∧ op1.toNat = op2.toNat + 1) := by
    rw [ArithOp.LosesCarry, ArithOp.carryIn, Bool.toNat_eq_one, Bool.toNat_eq_zero]
  rw [SubC_CC, ArithOp.conditionCodes, ArithOp.codes, ArithOp.codes, CCBits.mk.injEq,
    Codes.mk.injEq, Codes.mk.injEq, hloses, borrow0_eq]
  constructor
  · intro h
    exact hxcc.mp h.2.1
  · intro h
    refine ⟨⟨?_, ?_, zero_icc, negative_icc⟩, hxcc.mpr h, ?_, zero_xcc, negative_xcc⟩
    · exact borrow_icc (carryIn_le .subC) toNat_toWord
    · exact overflow_sub_icc (carryIn_le .subC) toNat_SubC
    · exact overflow_sub_xcc (carryIn_le .subC) toNat_SubC

/-- **The condition codes are those of SPARC V9** if and only if the carry that comes in does not
get lost. -/
theorem ccCalc_eq_iff (op : ArithOp) (op1 op2 : BitVec 64) (ccbits : CCBits) :
    ccCalc op1 op2 ccbits op = op.conditionCodes op1 op2 ccbits ↔
      ¬ op.LosesCarry op1 op2 ccbits := by
  rcases op
  · exact iff_of_true Add_CC_eq not_false
  · exact AddC_CC_eq_iff
  · exact iff_of_true Sub_CC_eq not_false
  · exact SubC_CC_eq_iff

end Operations

/-- Condition codes that are all clear but for the carry. -/
def onlyCarry (carry : Bool) : CCBits :=
  ⟨⟨carry, false, false, false⟩, ⟨false, false, false, false⟩⟩

/-- **Carries that get lost**: the low word of `0xFFFFFFFF` and 0 with a carry has a carry, and the
difference of 0 and 1 has a borrow. -/
theorem carries_lost :
    (ArithOp.addC.conditionCodes 0xFFFFFFFF 0 (onlyCarry true)).icc.c = true ∧
      (ccCalc 0xFFFFFFFF 0 (onlyCarry true) .addC).icc.c = false ∧
      (ArithOp.subC.conditionCodes 0 1 (onlyCarry false)).xcc.c = true ∧
      (ccCalc 0 1 (onlyCarry false) .subC).xcc.c = false ∧
      ¬ ∀ op op1 op2 ccbits,
        ccCalc op1 op2 ccbits op = ArithOp.conditionCodes op1 op2 ccbits op := by
  refine ⟨by decide, by decide, by decide, by decide, fun h => ?_⟩
  have hlost : ArithOp.addC.conditionCodes 0xFFFFFFFF 0 (onlyCarry true) ≠
      ccCalc 0xFFFFFFFF 0 (onlyCarry true) .addC := by decide
  exact hlost (h ..).symm

end Decoder

end Flexus
