import Flexus.Decoder.Annulment
import Flexus.Decoder.Conditions

/-!
# Conditional moves

A conditional move has four operands: the old value of its destination, the value to be moved,
what the condition is about, and the packed condition (`components/v9Decoder/v9Instruction.cpp`,
`movcc` and `movr`). The operation takes the second where the condition holds, and the first
otherwise (`components/v9Decoder/Operations.cpp`).

Here the tests of the conditions *never* and *always* are reached: a move on integer condition codes
that should never move always does, and the other way round.
-/

namespace Flexus

open Lib

namespace Decoder

open UArch (RegisterBits)

/-! ### The fields of an instruction -/

namespace Format3

variable (opcode : BitVec 32)

def rd : BitVec 32 := (opcode >>> 25) &&& 0x1F
def rs1 : BitVec 32 := (opcode >>> 14) &&& 0x1F
def is_simm13 : Bool := (opcode >>> 13) &&& 1 != 0
def rs2 : BitVec 32 := opcode &&& 0x1F
def simm11 : BitVec 32 := opcode &&& 0x07FF
def simm10 : BitVec 32 := opcode &&& 0x03FF
def cc2 : Bool := (opcode >>> 18) &&& 1 != 0
def cc1 : Bool := (opcode >>> 12) &&& 1 != 0
def fcc : BitVec 32 := (opcode >>> 11) &&& 3

end Format3

/-- **The registers that an instruction reads**: its window, the integer condition codes, and the
four floating-point condition codes. Register 0 of the window is never looked at. -/
structure SourceRegisters where
  r : BitVec 5 → BitVec 64
  icc : BitVec 8
  fcc : BitVec 2 → BitVec 2

namespace SourceRegisters

variable (x : SourceRegisters)

/-- `addReadRRegister`: what the operand is set to. -/
def addReadRRegister (rs : BitVec 32) : RegisterBits :=
  if rs = 0 then 0 else x.r (rs.setWidth 5)

/-- `addReadCC`: register 0 of the condition codes holds those of integers, and the next four those
of floating-point numbers. -/
def addReadCC (ccNum : BitVec 32) : RegisterBits :=
  if ccNum = 0 then x.icc.setWidth 64 else (x.fcc ((ccNum - 1).setWidth 2)).setWidth 64

end SourceRegisters

/-- `addSimm11`. -/
def addSimm11 (aConstant : BitVec 32) : RegisterBits :=
  let operand := aConstant.setWidth 64 &&& 0x7FF
  if operand &&& 0x400 != 0 then operand ||| 0xFFFFFFFFFFFFF800 else operand

/-- `addSimm10`. -/
def addSimm10 (aConstant : BitVec 32) : RegisterBits :=
  let operand := aConstant.setWidth 64 &&& 0x3FF
  if operand &&& 0x200 != 0 then operand ||| 0xFFFFFFFFFFFFFC00 else operand

/-! ### The operations -/

/-- **`MovCC`**, of the four operands it asserts to be given. -/
def MovCC : Operation where
  eval
    | [false_val, true_val, cc, packed_condition] =>
      if testPacked (packed_condition.setWidth 32) (cc.setWidth 8) then true_val else false_val
    | _ => 0
  evalExtra _ := 0

/-- **`MovR`**, of the four operands it asserts to be given. -/
def MovR : Operation where
  eval
    | [false_val, true_val, cond_reg, condition] =>
      if (rcondition (condition.setWidth 32)).holds cond_reg then true_val else false_val
    | _ => 0
  evalExtra _ := 0

section

variable (opcode : BitVec 32) (x : SourceRegisters)

/-- `movcc`: the operands, from the first to the fourth. -/
def movccOperands : List RegisterBits :=
  let floating := !Format3.cc2 opcode
  let cond := (opcode >>> 14) &&& 0xF
  [ x.addReadRRegister (Format3.rd opcode),
    if Format3.is_simm13 opcode then addSimm11 (Format3.simm11 opcode)
      else x.addReadRRegister (Format3.rs2 opcode),
    x.addReadCC (if floating then 1 + Format3.fcc opcode else 0),
    (if floating then 0x20 ||| cond else packCondition false (Format3.cc1 opcode) cond).setWidth 64 ]

/-- `movr`: the operands, from the first to the fourth. -/
def movrOperands : List RegisterBits :=
  let cond := (opcode >>> 10) &&& 0x7
  [ x.addReadRRegister (Format3.rd opcode),
    if Format3.is_simm13 opcode then addSimm10 (Format3.simm10 opcode)
      else x.addReadRRegister (Format3.rs2 opcode),
    x.addReadRRegister (Format3.rs1 opcode),
    cond.setWidth 64 ]

/-- **The value for the destination of a conditional move**: `decode` and `format_3_reg`, for these
instructions, and the operation. -/
def conditionalMove : Option RegisterBits :=
  let op3 := (opcode >>> 19) &&& 0x3F
  if opcode >>> 30 = 2 then
    if op3 = 0x2C then some (MovCC.eval (movccOperands opcode x))
    else if op3 = 0x2F then
      -- the reserved condition is left to another function
      if (opcode >>> 10) &&& 0x7 = 0 then none else some (MovR.eval (movrOperands opcode x))
    else none
  else none

end

/-! ### What the instructions say -/

/-- A move on condition codes. Two of the eight choices of condition codes are reserved. -/
structure IsMovcc (opcode : BitVec 32) : Prop where
  op : opcode.extractLsb' 30 2 = 2
  op3 : opcode.extractLsb' 19 6 = 0x2C
  cc : opcode.getLsbD 18 = true → opcode.getLsbD 11 = false

/-- A move on the contents of a register. Two of the eight conditions are reserved. -/
structure IsMovr (opcode : BitVec 32) : Prop where
  op : opcode.extractLsb' 30 2 = 2
  op3 : opcode.extractLsb' 19 6 = 0x2F
  rcond : opcode.extractLsb' 10 3 ≠ 0 ∧ opcode.extractLsb' 10 3 ≠ 4

/-- The contents of a register, of which the first is zero. -/
def SourceRegisters.value (x : SourceRegisters) (n : BitVec 5) : BitVec 64 :=
  if n = 0 then 0 else x.r n

section

variable (opcode : BitVec 32) (x : SourceRegisters)

/-- The old value of the destination. -/
def oldValue : BitVec 64 := x.value (opcode.extractLsb' 25 5)

/-- The second operand: a register, or `n` bits of the instruction, extended by their sign. -/
def secondOperand (n : ℕ) : BitVec 64 :=
  if opcode.getLsbD 13 then (opcode.extractLsb' 0 n).signExtend 64
  else x.value (opcode.extractLsb' 0 5)

/-- The condition of a move on condition codes, of the codes it selects. -/
def movccHolds : Bool :=
  let cond := opcode.extractLsb' 14 4
  if opcode.getLsbD 18 then (codesOf x.icc (opcode.getLsbD 12)).meets cond
  else decide (FloatRelation.ofField (x.fcc (opcode.extractLsb' 11 2)) ∈ floatOutcomes cond)

/-- The condition of a move on the contents of a register. -/
def movrHolds : Bool := registerMeets (x.value (opcode.extractLsb' 14 5)) (opcode.extractLsb' 10 3)

/-- **A move on condition codes**, as the instruction set has it. -/
def movccValue : BitVec 64 :=
  if movccHolds opcode x then secondOperand opcode x 11 else oldValue opcode x

/-- **A move on the contents of a register**, as the instruction set has it. -/
def movrValue : BitVec 64 :=
  if movrHolds opcode x then secondOperand opcode x 10 else oldValue opcode x

/-- A move that is to be made always, or never, by integer condition codes. -/
def IsUnconditional : Prop :=
  opcode.getLsbD 18 = true ∧ (opcode.extractLsb' 14 4 = 0 ∨ opcode.extractLsb' 14 4 = 8)

end

/-! ### The operands -/

section

variable (opcode : BitVec 32) (x : SourceRegisters)

theorem rd_eq : Format3.rd opcode = (opcode.extractLsb' 25 5).setWidth 32 :=
  ushiftRight_and_lowBits 25 5

theorem rs1_eq : Format3.rs1 opcode = (opcode.extractLsb' 14 5).setWidth 32 :=
  ushiftRight_and_lowBits 14 5

theorem rs2_eq : Format3.rs2 opcode = (opcode.extractLsb' 0 5).setWidth 32 :=
  ushiftRight_and_lowBits 0 5

theorem fcc_eq : Format3.fcc opcode = (opcode.extractLsb' 11 2).setWidth 32 :=
  ushiftRight_and_lowBits 11 2

theorem cond_eq : (opcode >>> 14) &&& 0xF = (opcode.extractLsb' 14 4).setWidth 32 :=
  ushiftRight_and_lowBits 14 4

theorem rcond_eq : (opcode >>> 10) &&& 0x7 = (opcode.extractLsb' 10 3).setWidth 32 :=
  ushiftRight_and_lowBits 10 3

theorem is_simm13_eq : Format3.is_simm13 opcode = opcode.getLsbD 13 :=
  ushiftRight_and_one (by decide) 13

theorem cc2_eq : Format3.cc2 opcode = opcode.getLsbD 18 :=
  ushiftRight_and_one (by decide) 18

theorem cc1_eq : Format3.cc1 opcode = opcode.getLsbD 12 :=
  ushiftRight_and_one (by decide) 12

theorem addReadRRegister_setWidth (n : BitVec 5) : x.addReadRRegister (n.setWidth 32) = x.value n := by
  have hzero : n.setWidth 32 = 0 ↔ n = 0 := by
    revert n
    decide
  have hback : (n.setWidth 32).setWidth 5 = n := by
    revert n
    decide
  rw [SourceRegisters.addReadRRegister, SourceRegisters.value, hback]
  simp only [hzero]

theorem addReadCC_fcc (k : BitVec 2) :
    x.addReadCC (1 + k.setWidth 32) = (x.fcc k).setWidth 64 := by
  have hne : 1 + k.setWidth 32 ≠ (0 : BitVec 32) := by
    revert k
    decide
  have hback : (1 + k.setWidth 32 - 1 : BitVec 32).setWidth 2 = k := by
    revert k
    decide
  rw [SourceRegisters.addReadCC, if_neg hne, hback]

theorem setWidth_and {n : ℕ} (hn : n ≤ 32) :
    (opcode &&& lowBits 32 n).setWidth 64 &&& lowBits 64 n =
      (opcode.extractLsb' 0 n).setWidth 64 := by
  rw [setWidth_and_low hn]
  refine BitVec.eq_of_getLsbD_eq fun i hi => ?_
  rw [BitVec.getLsbD_and, getLsbD_lowBits, BitVec.getLsbD_setWidth]
  rcases Nat.lt_or_ge i n with h | h
  · rw [decide_eq_true hi, decide_eq_true h, Bool.and_true, Bool.and_true]
  · rw [BitVec.getLsbD_of_ge _ i h, Bool.and_false, Bool.false_and]

theorem addSimm11_eq :
    addSimm11 (Format3.simm11 opcode) = (opcode.extractLsb' 0 11).signExtend 64 := by
  rw [← signExtend_of_mask _ (by decide) (by decide), ← setWidth_and opcode (by decide : 11 ≤ 32)]
  rfl

theorem addSimm10_eq :
    addSimm10 (Format3.simm10 opcode) = (opcode.extractLsb' 0 10).signExtend 64 := by
  rw [← signExtend_of_mask _ (by decide) (by decide), ← setWidth_and opcode (by decide : 10 ≤ 32)]
  rfl

end

/-! ### The moves -/

section

variable {opcode : BitVec 32} {x : SourceRegisters}

theorem second_eq {n : ℕ} {simm : RegisterBits} (h : simm = (opcode.extractLsb' 0 n).signExtend 64) :
    (if Format3.is_simm13 opcode then simm else x.addReadRRegister (Format3.rs2 opcode)) =
      secondOperand opcode x n := by
  rw [secondOperand, is_simm13_eq, rs2_eq, addReadRRegister_setWidth, h]

theorem setWidth_packed (c : BitVec 32) : (c.setWidth 64).setWidth 32 = c :=
  BitVec.setWidth_setWidth_of_le c (by decide)

/-- What a move on condition codes tests. -/
def movccTested (opcode : BitVec 32) (x : SourceRegisters) : Bool :=
  if opcode.getLsbD 18 then
    (codesOf x.icc (opcode.getLsbD 12)).tested (opcode.extractLsb' 14 4)
  else movccHolds opcode x

/-- **A move on condition codes**, as the source has it. -/
theorem movCC_eval : MovCC.eval (movccOperands opcode x) =
    if movccTested opcode x then secondOperand opcode x 11 else oldValue opcode x := by
  have hold : x.addReadRRegister (Format3.rd opcode) = oldValue opcode x := by
    rw [rd_eq, addReadRRegister_setWidth, oldValue]
  simp only [movccOperands, MovCC, hold, second_eq (addSimm11_eq opcode), setWidth_packed, cc2_eq,
    cc1_eq, cond_eq, fcc_eq]
  rw [movccTested, movccHolds]
  by_cases hcc2 : opcode.getLsbD 18 = true
  · have hicc : (x.addReadCC 0).setWidth 8 = x.icc := by
      rw [SourceRegisters.addReadCC, if_pos rfl]
      exact BitVec.setWidth_setWidth_of_le _ (by decide)
    simp only [hcc2, Bool.not_true, Bool.false_eq_true, if_false, if_true, hicc, testPacked_integer]
  · have hfcc : ∀ k, (x.addReadCC (1 + BitVec.setWidth 32 k)).setWidth 8 =
        (x.fcc k).setWidth 8 := by
      intro k
      rw [addReadCC_fcc]
      exact BitVec.setWidth_setWidth_of_le _ (by decide)
    simp only [hcc2, Bool.not_false, if_true, Bool.false_eq_true, if_false, hfcc, testPacked_float]

/-- **A move on the contents of a register**, as the source has it. -/
theorem movR_eval (h : IsMovr opcode) : MovR.eval (movrOperands opcode x) = movrValue opcode x := by
  have hold : x.addReadRRegister (Format3.rd opcode) = oldValue opcode x := by
    rw [rd_eq, addReadRRegister_setWidth, oldValue]
  have hvalid : ∀ c : BitVec 3, c ≠ 0 ∧ c ≠ 4 → rconditionValid (c.setWidth 32) = true := by decide
  simp only [movrOperands, MovR, hold, second_eq (addSimm10_eq opcode), setWidth_packed, rcond_eq,
    rs1_eq, addReadRRegister_setWidth, rcondition_holds _ (hvalid _ h.rcond)]
  rfl

theorem op_eq (h : opcode.extractLsb' 30 2 = 2) : opcode >>> 30 = 2 := by
  have hbits : opcode >>> 30 = (opcode.extractLsb' 30 2).setWidth 32 := by
    refine BitVec.eq_of_getLsbD_eq fun i hi => ?_
    rw [BitVec.getLsbD_ushiftRight, BitVec.getLsbD_setWidth, BitVec.getLsbD_extractLsb',
      decide_eq_true hi, Bool.true_and]
    rcases Nat.lt_or_ge i 2 with h2 | h2
    · rw [decide_eq_true h2, Bool.true_and]
    · rw [BitVec.getLsbD_of_ge opcode (30 + i) (by omega), Bool.and_false]
  rw [hbits, h]
  rfl

theorem op3_eq : (opcode >>> 19) &&& 0x3F = (opcode.extractLsb' 19 6).setWidth 32 :=
  ushiftRight_and_lowBits 19 6

theorem conditionalMove_movcc (h : IsMovcc opcode) :
    conditionalMove opcode x =
      some (if movccTested opcode x then secondOperand opcode x 11 else oldValue opcode x) := by
  simp only [conditionalMove, op_eq h.op, op3_eq, h.op3, movCC_eval]
  rfl

theorem conditionalMove_movr (h : IsMovr opcode) :
    conditionalMove opcode x = some (movrValue opcode x) := by
  have hne : ∀ c : BitVec 3, c ≠ 0 ∧ c ≠ 4 → ¬c.setWidth 32 = (0 : BitVec 32) := by decide
  simp only [conditionalMove, op_eq h.op, op3_eq, h.op3, rcond_eq, if_neg (hne _ h.rcond),
    movR_eval h]
  rfl

/-- The wrong test is made for unconditional moves, and only for them. -/
theorem movccTested_eq_iff :
    movccTested opcode x = movccHolds opcode x ↔ ¬IsUnconditional opcode := by
  rw [movccTested, IsUnconditional]
  by_cases hcc2 : opcode.getLsbD 18 = true
  · rw [if_pos hcc2, movccHolds, if_pos hcc2, Codes.tested_eq]
    by_cases h : opcode.extractLsb' 14 4 = 0 ∨ opcode.extractLsb' 14 4 = 8
    · have hbeq : (opcode.extractLsb' 14 4 == 0 || opcode.extractLsb' 14 4 == 8) = true := by
        simpa only [Bool.or_eq_true, beq_iff_eq] using h
      rw [hbeq, Bool.xor_true]
      exact iff_of_false (Bool.not_ne_self _) (not_not_intro ⟨hcc2, h⟩)
    · have hbeq : (opcode.extractLsb' 14 4 == 0 || opcode.extractLsb' 14 4 == 8) = false := by
        simpa only [Bool.or_eq_false_iff, beq_eq_false_iff_ne, not_or] using h
      rw [hbeq, Bool.xor_false]
      exact iff_of_true rfl fun hu => h hu.2
  · rw [if_neg hcc2]
    exact iff_of_true rfl fun hu => hcc2 hu.1

/-- **The value for the destination is that of the instruction set.** -/
def MovesRight (opcode : BitVec 32) (x : SourceRegisters) : Prop :=
  (IsMovcc opcode → conditionalMove opcode x = some (movccValue opcode x)) ∧
    (IsMovr opcode → conditionalMove opcode x = some (movrValue opcode x))

/-- **Conditional moves are right but for the unconditional ones**: a move on integer condition codes
that is to be made always, or never, is right only where there is nothing to move. -/
theorem movesRight_iff (opcode : BitVec 32) (x : SourceRegisters) :
    MovesRight opcode x ↔ (IsMovcc opcode → IsUnconditional opcode →
      secondOperand opcode x 11 = oldValue opcode x) := by
  constructor
  · intro h hmov huncond
    have hval := h.1 hmov
    have hwrong : movccTested opcode x ≠ movccHolds opcode x := fun heq =>
      movccTested_eq_iff.mp heq huncond
    rw [conditionalMove_movcc hmov, Option.some_inj, movccValue, Bool.eq_not_iff.mpr hwrong] at hval
    cases hholds : movccHolds opcode x with
    | false => simpa [hholds] using hval
    | true => simpa [hholds] using hval.symm
  · intro h
    refine ⟨fun hmov => ?_, conditionalMove_movr⟩
    rw [conditionalMove_movcc hmov, movccValue]
    by_cases huncond : IsUnconditional opcode
    · rw [h hmov huncond, ite_self, ite_self]
    · rw [movccTested_eq_iff.mpr huncond]

end

/-- `movn %icc, 1, %o0`. -/
def movn : BitVec 32 := 0x91642001

/-- **A move that is never to be made** is made. -/
theorem movn_not_right : ¬MovesRight movn ⟨fun _ => 0, 0, fun _ => 0⟩ := by
  intro h
  have hmov : IsMovcc movn := ⟨by decide, by decide, fun _ => by decide⟩
  exact absurd (h.1 hmov) (by decide)

end Decoder

end Flexus
