import Flexus.Decoder.Branches
import Flexus.Decoder.ConditionCodes
import Mathlib.Tactic.IntervalCases

/-!
# Conditions

Branches, conditional moves and traps carry the number of a condition. The decoder packs it with
two bits that say which condition codes it is about, and it is unpacked into a test where it is
needed (`components/v9Decoder/Conditions.cpp`).

Of the sixteen conditions on integer condition codes, the upper eight are the negations of the lower
eight. So the lowest one, which never holds, has to be the test that always fails; in the source it
is the test that always succeeds, and the condition that always holds is the negation of it. No
branch comes that far with either of them, as the decoder makes other instructions of such branches.
-/

namespace Flexus

namespace Decoder

/-! ### The tests -/

/-- `Condition`. -/
structure Condition where
  isNegated : Bool
  isXcc : Bool
  theTest : BitVec 8 → ℕ → Bool

/-- `operator()`. -/
def Condition.holds (cond : Condition) (aCC : BitVec 8) : Bool :=
  cond.theTest aCC (if cond.isXcc then 4 else 0) ^^ cond.isNegated

/-- `FCondition`. -/
structure FCondition where
  theTest : BitVec 8 → Bool

/-- `RCondition`. -/
structure RCondition where
  isNegated : Bool
  theTest : BitVec 64 → Bool

/-- `operator()`. -/
def RCondition.holds (cond : RCondition) (aVal : BitVec 64) : Bool :=
  cond.theTest aVal ^^ cond.isNegated

/-- `eccBits`: the places of the codes of 32 bits. Those of 64 bits are four places above. -/
def iccC : ℕ := 0
def iccV : ℕ := 1
def iccZ : ℕ := 2
def iccN : ℕ := 3

/-- `fccVals`. -/
def fccE : ℕ := 0
def fccL : ℕ := 1
def fccG : ℕ := 2
def fccU : ℕ := 3

/-- `packCondition`. -/
def packCondition (aFloating Xcc : Bool) (aCondition : BitVec 32) : BitVec 32 :=
  let ret_val := if Xcc then aCondition ||| 0x10 else aCondition
  if aFloating then ret_val ||| 0x20 else ret_val

/-- `isFloating`. -/
def isFloating (aPackedCondition : BitVec 32) : Bool := aPackedCondition &&& 0x20 != 0

/-- The eight tests of condition codes, at a place of the codes. -/
def conditionTest (aCondition : BitVec 32) (cc : BitVec 8) (k : ℕ) : Bool :=
  match aCondition.toNat with
  | 0 => true
  | 1 => cc.getLsbD (iccZ + k)
  | 2 => cc.getLsbD (iccZ + k) || (cc.getLsbD (iccN + k) ^^ cc.getLsbD (iccV + k))
  | 3 => cc.getLsbD (iccN + k) ^^ cc.getLsbD (iccV + k)
  | 4 => cc.getLsbD (iccC + k) || cc.getLsbD (iccZ + k)
  | 5 => cc.getLsbD (iccC + k)
  | 6 => cc.getLsbD (iccN + k)
  | 7 => cc.getLsbD (iccV + k)
  -- asserted not to happen
  | _ => cc.getLsbD (iccZ + k)

/-- **`condition`**: bit 3 negates the test, and bit 4 has it look at the codes of 64 bits. -/
def condition (aCondition : BitVec 32) : Condition where
  isNegated := aCondition &&& 0x8 != 0
  isXcc := aCondition &&& 0x10 != 0
  theTest := conditionTest (aCondition &&& 0x7)

/-- **`fcondition`**. -/
def fcondition (aCondition : BitVec 32) : FCondition where
  theTest cc :=
    match (aCondition &&& 0xF).toNat with
    | 0 => false
    | 1 => cc.toNat == fccL || cc.toNat == fccG || cc.toNat == fccU
    | 2 => cc.toNat == fccL || cc.toNat == fccG
    | 3 => cc.toNat == fccL || cc.toNat == fccU
    | 4 => cc.toNat == fccL
    | 5 => cc.toNat == fccG || cc.toNat == fccU
    | 6 => cc.toNat == fccG
    | 7 => cc.toNat == fccU
    | 8 => true
    | 9 => cc.toNat == fccE
    | 10 => cc.toNat == fccU || cc.toNat == fccE
    | 11 => cc.toNat == fccG || cc.toNat == fccE
    | 12 => cc.toNat == fccG || cc.toNat == fccE || cc.toNat == fccU
    | 13 => cc.toNat == fccL || cc.toNat == fccE
    | 14 => cc.toNat == fccL || cc.toNat == fccE || cc.toNat == fccU
    | 15 => cc.toNat == fccG || cc.toNat == fccE || cc.toNat == fccL
    -- asserted not to happen
    | _ => cc.toNat == fccG

/-- **`rcondition`**: bit 2 negates the test. -/
def rcondition (aCondition : BitVec 32) : RCondition where
  isNegated := aCondition &&& 0x4 != 0
  theTest x :=
    match (aCondition &&& 0x3).toNat with
    | 1 => x == 0
    | 2 => x.sle 0
    | 3 => x.slt 0
    -- reserved, and asserted not to happen
    | _ => x == 0

/-- The test that a conditional move or a trap makes of its packed condition. -/
def testPacked (packed_condition : BitVec 32) (cc : BitVec 8) : Bool :=
  if isFloating packed_condition then (fcondition packed_condition).theTest cc
  else (condition packed_condition).holds cc

/-! ### What the conditions say -/

/-- The codes that a condition is about. -/
def codesOf (cc : BitVec 8) (xcc : Bool) : Codes :=
  let k := if xcc then 4 else 0
  { c := cc.getLsbD (iccC + k)
    v := cc.getLsbD (iccV + k)
    z := cc.getLsbD (iccZ + k)
    n := cc.getLsbD (iccN + k) }

/-- **The conditions on integer condition codes**: never, equal, less or equal, less, the same two of
unsigned numbers, negative and overflow; then always, and the opposites of the others. -/
def Codes.meets (k : Codes) (cond : BitVec 4) : Bool :=
  match cond.toNat with
  | 0 => false
  | 1 => k.z
  | 2 => k.z || (k.n ^^ k.v)
  | 3 => k.n ^^ k.v
  | 4 => k.c || k.z
  | 5 => k.c
  | 6 => k.n
  | 7 => k.v
  | 8 => true
  | 9 => !k.z
  | 10 => !(k.z || (k.n ^^ k.v))
  | 11 => !(k.n ^^ k.v)
  | 12 => !(k.c || k.z)
  | 13 => !k.c
  | 14 => !k.n
  | _ => !k.v

/-- How two floating-point numbers compare. -/
inductive FloatRelation
  | equal
  | less
  | greater
  | unordered
  deriving DecidableEq

/-- What the two bits of a floating-point condition code stand for. -/
def FloatRelation.ofField (fcc : BitVec 2) : FloatRelation :=
  match fcc.toNat with
  | 0 => equal
  | 1 => less
  | 2 => greater
  | _ => unordered

/-- **The conditions on floating-point condition codes**, each with the outcomes it holds of. -/
def floatOutcomes (cond : BitVec 4) : List FloatRelation :=
  match cond.toNat with
  | 0 => []
  | 1 => [.less, .greater, .unordered]
  | 2 => [.less, .greater]
  | 3 => [.less, .unordered]
  | 4 => [.less]
  | 5 => [.greater, .unordered]
  | 6 => [.greater]
  | 7 => [.unordered]
  | 8 => [.equal, .less, .greater, .unordered]
  | 9 => [.equal]
  | 10 => [.equal, .unordered]
  | 11 => [.equal, .greater]
  | 12 => [.equal, .greater, .unordered]
  | 13 => [.equal, .less]
  | 14 => [.equal, .less, .unordered]
  | _ => [.equal, .less, .greater]

/-- **The conditions on the contents of a register**, compared with zero. Those numbered 0 and 4 are
reserved. -/
def registerMeets (x : BitVec 64) (rcond : BitVec 3) : Bool :=
  match rcond.toNat with
  | 1 => decide (x.toInt = 0)
  | 2 => decide (x.toInt ≤ 0)
  | 3 => decide (x.toInt < 0)
  | 5 => decide (x.toInt ≠ 0)
  | 6 => decide (0 < x.toInt)
  | 7 => decide (0 ≤ x.toInt)
  | _ => false

/-- **The test that the source makes of a condition on integer condition codes**: *never* and
*always* have changed places. -/
def Codes.tested (k : Codes) (cond : BitVec 4) : Bool :=
  if cond = 0 then true else if cond = 8 then false else k.meets cond

/-! ### What the tests test -/

theorem exists_ofNat {n : ℕ} (x : BitVec n) : ∃ k < 2 ^ n, x = BitVec.ofNat n k :=
  ⟨x.toNat, x.isLt, by rw [BitVec.ofNat_toNat, BitVec.setWidth_eq]⟩

section

variable (cond : BitVec 4) (xcc : Bool) (cc : BitVec 8) (fcc : BitVec 2)

theorem not_isFloating_packCondition :
    isFloating (packCondition false xcc (cond.setWidth 32)) = false := by
  revert cond xcc
  decide

theorem isFloating_or : isFloating (0x20 ||| cond.setWidth 32) = true := by
  revert cond
  decide

/-- **A condition on integer condition codes**, packed and unpacked. -/
theorem condition_holds :
    (condition (packCondition false xcc (cond.setWidth 32))).holds cc =
      (codesOf cc xcc).tested cond := by
  obtain ⟨k, hk, rfl⟩ := exists_ofNat cond
  -- the number decides the test, and its upper bit negates it
  interval_cases k <;> cases xcc <;>
    simp [condition, packCondition, Condition.holds, conditionTest, codesOf, Codes.tested,
      Codes.meets]

/-- **A condition on floating-point condition codes.** -/
theorem fcondition_test :
    (fcondition (0x20 ||| cond.setWidth 32)).theTest (fcc.setWidth 8) =
      decide (FloatRelation.ofField fcc ∈ floatOutcomes cond) := by
  revert cond fcc
  decide

theorem testPacked_integer :
    testPacked (packCondition false xcc (cond.setWidth 32)) cc = (codesOf cc xcc).tested cond := by
  rw [testPacked, not_isFloating_packCondition, if_neg Bool.false_ne_true, condition_holds]

theorem testPacked_float :
    testPacked (0x20 ||| cond.setWidth 32) (fcc.setWidth 8) =
      decide (FloatRelation.ofField fcc ∈ floatOutcomes cond) := by
  rw [testPacked, if_pos (isFloating_or cond), fcondition_test]

end

/-- **A condition on the contents of a register**, where it is not a reserved one. -/
theorem rcondition_holds {rcond : BitVec 3} (x : BitVec 64)
    (h : rconditionValid (rcond.setWidth 32) = true) :
    (rcondition (rcond.setWidth 32)).holds x = registerMeets x rcond := by
  have heq : (x == 0#64) = decide (x.toInt = 0) := by
    rw [Bool.beq_eq_decide_eq]
    exact decide_eq_decide.mpr BitVec.toInt_inj.symm
  have hle : x.sle 0#64 = decide (x.toInt ≤ 0) := rfl
  have hlt : x.slt 0#64 = decide (x.toInt < 0) := rfl
  have hgt : decide (0 < x.toInt) = !decide (x.toInt ≤ 0) := by
    rw [← decide_not]
    exact decide_eq_decide.mpr Int.not_le.symm
  have hge : decide (0 ≤ x.toInt) = !decide (x.toInt < 0) := by
    rw [← decide_not]
    exact decide_eq_decide.mpr Int.not_lt.symm
  obtain ⟨k, hk, rfl⟩ := exists_ofNat rcond
  by_cases hres : k = 0 ∨ k = 4
  · rcases hres with rfl | rfl <;> exact absurd h (by decide)
  · interval_cases k <;>
      simp [rcondition, registerMeets, RCondition.holds, heq, hle, hlt, hgt, hge] at hres ⊢

/-- The test is right of all conditions but two, which are the negations of each other. -/
theorem Codes.tested_eq (k : Codes) (cond : BitVec 4) :
    k.tested cond = (k.meets cond ^^ (cond == 0 || cond == 8)) := by
  by_cases h0 : cond = 0
  · subst h0
    rfl
  by_cases h8 : cond = 8
  · subst h8
    rfl
  rw [tested, if_neg h0, if_neg h8, beq_eq_false_iff_ne.mpr h0, beq_eq_false_iff_ne.mpr h8,
    Bool.or_false, Bool.xor_false]

end Decoder

end Flexus
