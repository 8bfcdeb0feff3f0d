import Flexus.Lib.Bits
import Mathlib.Tactic.Tauto

/-!
# Branch targets

A branch goes to an address that is given in the instruction by its distance, in words, from the
instruction itself. Six functions of the decoder take that distance from their fields, extend it by
its sign, multiply it by 4 and add it to the address of the instruction
(`components/v9Decoder/v9Instruction.cpp`). All of them do the same (`targetOf`), each with its own
masks. One of these masks has ones too many: the distance of a backward branch on the condition
codes of floating-point numbers, with prediction, loses three of its bits.
-/

namespace Flexus

namespace Decoder

/-- What the decoder uses of a `FetchedOpcode`. -/
structure FetchedOpcode where
  thePC : BitVec 64
  theOpcode : BitVec 32
  deriving DecidableEq

/-- **The instructions** that the decoder makes of the formats with branches, with what it gives
them. The others of its functions are left out. -/
inductive Instruction
  | blackBox
  | immu_exception
  | nop
  | magic
  | sethi (imm22 rd : BitVec 32)
  | annul_next
  | branch_always (annul : Bool) (target : BitVec 64)
  | branch_cc (annul useXcc : Bool) (cond : BitVec 32) (target : BitVec 64)
  | branch_fcc (annul : Bool) (fcc cond : BitVec 32) (target : BitVec 64)
  | branch_reg (annul : Bool) (cond rs1 : BitVec 32) (target : BitVec 64)
  | call (target : BitVec 64)
  | format_3
  deriving DecidableEq

/-- The target that a branch is given. -/
def Instruction.target : Instruction → Option (BitVec 64)
  | branch_always _ target | branch_cc _ _ _ target | branch_fcc _ _ _ target
  | branch_reg _ _ _ target | call target => some target
  | _ => none

/-! ### The decoder -/

/-- A displacement is extended by its sign and multiplied by 4, and the address of the instruction
is added to it. -/
def targetOf (sign mask disp pc : BitVec 64) : BitVec 64 :=
  let disp := if disp &&& sign != 0 then disp ||| mask else disp
  pc + disp <<< 2

variable (aFetchedOpcode : FetchedOpcode)

/-- `opcode[29]`. -/
def annulOf (opcode : BitVec 32) : Bool := opcode &&& (1#32 <<< 29) != 0

/-- The end of the functions for branches on condition codes. -/
def branchOn (annul : Bool) (cond : BitVec 32) (target : BitVec 64) (conditional : Instruction) :
    Instruction :=
  if cond = 0 then if annul then .annul_next else .nop
  else if cond = 8 then .branch_always annul target
  else conditional

/-- `bicc`. -/
def bicc : Instruction :=
  let opcode := aFetchedOpcode.theOpcode
  let annul := annulOf opcode
  let cond := (opcode >>> 25) &&& 0xF
  let disp22 := opcode &&& 0x3FFFFF
  let target := targetOf (1#64 <<< 21) 0xFFFFFFFFFFC00000 (disp22.setWidth 64) aFetchedOpcode.thePC
  branchOn annul cond target (.branch_cc annul false cond target)

/-- `bfcc`. -/
def bfcc : Instruction :=
  let opcode := aFetchedOpcode.theOpcode
  let annul := annulOf opcode
  let cond := (opcode >>> 25) &&& 0xF
  let disp22 := opcode &&& 0x3FFFFF
  let target := targetOf (1#64 <<< 21) 0xFFFFFFFFFFC00000 (disp22.setWidth 64) aFetchedOpcode.thePC
  branchOn annul cond target (.branch_fcc annul 0 cond target)

/-- `bpcc`. -/
def bpcc : Instruction :=
  let opcode := aFetchedOpcode.theOpcode
  let annul := annulOf opcode
  let cond := (opcode >>> 25) &&& 0xF
  let disp19 := opcode &&& 0x7FFFF
  let xcc := opcode &&& (1#32 <<< 21) != 0
  let target := targetOf (1#64 <<< 18) 0xFFFFFFFFFFFC0000 (disp19.setWidth 64) aFetchedOpcode.thePC
  branchOn annul cond target (.branch_cc annul xcc cond target)

/-- `rconditionValid`. -/
def rconditionValid (aCondition : BitVec 32) : Bool := aCondition &&& 0x3 != 0

/-- `bpr`. -/
def bpr : Instruction :=
  let opcode := aFetchedOpcode.theOpcode
  let annul := annulOf opcode
  let cond := (opcode >>> 25) &&& 0x7
  let disp16 := ((opcode >>> 6) &&& 0xC000) ||| (opcode &&& 0x3FFF)
  let rs1 := (opcode >>> 14) &&& 0x1F
  if !rconditionValid cond then .blackBox
  else
    let target := targetOf (1#64 <<< 15) 0xFFFFFFFFFFFF0000 (disp16.setWidth 64) aFetchedOpcode.thePC
    .branch_reg annul cond rs1 target

/-- **`fbpcc`**. Its mask begins at bit 15. -/
def fbpcc : Instruction :=
  let opcode := aFetchedOpcode.theOpcode
  let annul := annulOf opcode
  let cond := (opcode >>> 25) &&& 0xF
  let disp19 := opcode &&& 0x7FFFF
  let fcc := (opcode >>> 20) &&& 3
  let target := targetOf (1#64 <<< 18) 0xFFFFFFFFFFFF8000 (disp19.setWidth 64) aFetchedOpcode.thePC
  branchOn annul cond target (.branch_fcc annul fcc cond target)

/-- `call`. -/
def call : Instruction :=
  let disp30 := aFetchedOpcode.theOpcode &&& 0x3FFFFFFF
  .call (targetOf 0x20000000 0xFFFFFFFFC0000000 (disp30.setWidth 64) aFetchedOpcode.thePC)

/-- `SETHI`, in `format_2`. -/
def sethi : Instruction :=
  let imm22 := aFetchedOpcode.theOpcode &&& 0x3FFFFF
  let rd := (aFetchedOpcode.theOpcode >>> 25) &&& 0x1F
  if rd = 0 then if imm22 = 0 then .nop else .magic else .sethi imm22 rd

/-- `op2`, of the instructions of the second format. -/
def op2Of (opcode : BitVec 32) : BitVec 32 := (opcode >>> 22) &&& 0x7

/-- `format_2`. -/
def format_2 : Instruction :=
  let op2 := op2Of aFetchedOpcode.theOpcode
  if op2 = 0 then .immu_exception
  else if op2 = 1 then bpcc aFetchedOpcode
  else if op2 = 2 then bicc aFetchedOpcode
  else if op2 = 3 then bpr aFetchedOpcode
  else if op2 = 4 then sethi aFetchedOpcode
  else if op2 = 5 then fbpcc aFetchedOpcode
  else if op2 = 6 then bfcc aFetchedOpcode
  else .blackBox

/-- `op`. -/
def opOf (opcode : BitVec 32) : BitVec 32 := opcode >>> 30

/-- **`decode`**. -/
def decode : Instruction :=
  let op := opOf aFetchedOpcode.theOpcode
  if op = 0 then format_2 aFetchedOpcode
  else if op = 1 then call aFetchedOpcode
  else .format_3

/-! ### What the targets are to be -/

/-- **The displacement of a format**, a signed number: one of 30 bits for CALL, and of 22, 19 or 16
bits for the others. -/
def displacement (opcode : BitVec 32) : BitVec 64 :=
  if opOf opcode = 1 then (opcode.extractLsb' 0 30).signExtend 64
  else if op2Of opcode = 1 ∨ op2Of opcode = 5 then (opcode.extractLsb' 0 19).signExtend 64
  else if op2Of opcode = 3 then
    (opcode.extractLsb' 20 2 ++ opcode.extractLsb' 0 14 : BitVec 16).signExtend 64
  else (opcode.extractLsb' 0 22).signExtend 64

/-- **A backward FBPfcc over a large distance**: the sign of its displacement is set, and not all of
the three bits after it are. -/
def FarBackward (opcode : BitVec 32) : Prop :=
  opOf opcode = 0 ∧ op2Of opcode = 5 ∧ (opcode >>> 25) &&& 0xF ≠ 0 ∧ opcode.getLsbD 18 = true ∧
    ¬ (opcode.getLsbD 15 = true ∧ opcode.getLsbD 16 = true ∧ opcode.getLsbD 17 = true)

/-! ### Displacements, bit by bit -/

section Bits

variable {n m : ℕ} {field : BitVec n} {opcode : BitVec 32} {sign mask pc x y : BitVec 64}

theorem shiftLeft_two_inj : x <<< 2 = y <<< 2 ↔ ∀ i < 62, x.getLsbD i = y.getLsbD i := by
  constructor
  · intro h i hi
    have hbit : (x <<< 2).getLsbD (i + 2) = (y <<< 2).getLsbD (i + 2) := by rw [h]
    rw [BitVec.getLsbD_shiftLeft, BitVec.getLsbD_shiftLeft, Nat.add_sub_cancel] at hbit
    have hlt : i + 2 < 64 := by omega
    have hge : ¬ i + 2 < 2 := by omega
    rw [decide_eq_true hlt, decide_eq_false hge] at hbit
    exact hbit
  · intro h
    refine BitVec.eq_of_getLsbD_eq fun i hi => ?_
    rw [BitVec.getLsbD_shiftLeft, BitVec.getLsbD_shiftLeft]
    by_cases h2 : i < 2
    · rw [decide_eq_true h2, Bool.not_true, Bool.and_false, Bool.false_and, Bool.false_and]
    · rw [h (i - 2) (by omega)]

theorem four_mul : (4 : BitVec 64) * y = y <<< 2 := by
  rw [BitVec.shiftLeft_eq_mul_twoPow, BitVec.mul_comm]
  rfl

/-- **Where a mask begins**: the target is right if and only if the bits of the displacement from
there to its sign are set where its sign is. -/
theorem targetOf_iff (hn : 0 < n) (hn62 : n ≤ 62) (hmn : m ≤ n)
    (hsign : sign = BitVec.twoPow 64 (n - 1)) (hmask : ∀ i < 64, mask.getLsbD i = decide (m ≤ i)) :
    targetOf sign mask (field.setWidth 64) pc = pc + 4 * field.signExtend 64 ↔
      (field.getLsbD (n - 1) = true → ∀ i, m ≤ i → i < n - 1 → field.getLsbD i = true) := by
  have hfield : ∀ i < 64, (field.setWidth 64).getLsbD i = field.getLsbD i := by
    intro i hi
    rw [BitVec.getLsbD_setWidth, decide_eq_true hi, Bool.true_and]
  have hextend : ∀ i < 62, (field.signExtend 64).getLsbD i =
      if i < n then field.getLsbD i else field.getLsbD (n - 1) := by
    intro i hi
    have hlt : i < 64 := by omega
    rw [BitVec.getLsbD_signExtend, decide_eq_true hlt, Bool.true_and, BitVec.msb_eq_getLsbD_last]
  rw [targetOf, hsign, Lib.and_twoPow_ne_zero (by omega), hfield _ (by omega), four_mul,
    BitVec.add_right_inj, shiftLeft_two_inj]
  by_cases hneg : field.getLsbD (n - 1) = true
  · rw [if_pos hneg, imp_iff_right hneg]
    have hbits : ∀ i < 62, ((field.setWidth 64 ||| mask).getLsbD i = (field.signExtend 64).getLsbD i ↔
        (m ≤ i → i < n - 1 → field.getLsbD i = true)) := by
      intro i hi
      rw [BitVec.getLsbD_or, hfield i (by omega), hmask i (by omega), hextend i hi]
      rcases Nat.lt_trichotomy i (n - 1) with hlt | heq | hgt
      · rw [if_pos (by omega), imp_iff_right hlt]
        by_cases hm : m ≤ i
        · rw [decide_eq_true hm, Bool.or_true, imp_iff_right hm]
          exact eq_comm
        · rw [decide_eq_false hm, Bool.or_false]
          exact iff_of_true rfl fun h => absurd h hm
      · subst heq
        rw [hneg, Bool.true_or, ite_self]
        exact iff_of_true rfl fun _ h => absurd h (Nat.lt_irrefl _)
      · rw [if_neg (by omega), hneg, decide_eq_true (by omega : m ≤ i), Bool.or_true]
        exact iff_of_true rfl fun _ h => absurd h (by omega)
    constructor
    · intro h i hm hi
      exact (hbits i (by omega)).mp (h i (by omega)) hm hi
    · intro h i hi
      exact (hbits i hi).mpr (h i)
  · -- A forward branch is not extended.
    rw [if_neg hneg, iff_true_intro (fun h => absurd h hneg), iff_true]
    intro i hi
    rw [hfield i (by omega), hextend i hi]
    split
    · rfl
    · rw [Bool.not_eq_true] at hneg
      rw [hneg]
      exact BitVec.getLsbD_of_ge field i (by omega)

theorem setWidth_and_low (hn : n ≤ 32) :
    (opcode &&& Lib.lowBits 32 n).setWidth 64 = (opcode.extractLsb' 0 n).setWidth 64 := by
  refine BitVec.eq_of_getLsbD_eq fun i hi => ?_
  rw [BitVec.getLsbD_setWidth, BitVec.getLsbD_setWidth, BitVec.getLsbD_and, Lib.getLsbD_lowBits,
    BitVec.getLsbD_extractLsb', Nat.zero_add]
  by_cases h : i < n
  · have h32 : i < 32 := by omega
    rw [decide_eq_true h, decide_eq_true h32, Bool.true_and, Bool.and_true, Bool.true_and]
  · rw [decide_eq_false h, Bool.and_false, Bool.and_false, Bool.false_and]

end Bits

/-! ### The targets of the formats -/

section Formats

variable {f : FetchedOpcode} {opcode cond : BitVec 32} {pc target : BitVec 64} {annul : Bool}
  {conditional : Instruction}

theorem branchOn_target (h : conditional.target = some target) :
    (branchOn annul cond target conditional).target = if cond = 0 then none else some target := by
  rw [branchOn]
  split
  · split <;> rfl
  · split
    · rfl
    · exact h

theorem target_22 : targetOf (1#64 <<< 21) 0xFFFFFFFFFFC00000 ((opcode &&& 0x3FFFFF).setWidth 64) pc =
    pc + 4 * (opcode.extractLsb' 0 22).signExtend 64 := by
  have hlow : (opcode &&& 0x3FFFFF).setWidth 64 = (opcode.extractLsb' 0 22).setWidth 64 :=
    @setWidth_and_low 22 opcode (by decide)
  rw [hlow]
  have hiff := @targetOf_iff 22 22 (opcode.extractLsb' 0 22) (1#64 <<< 21) 0xFFFFFFFFFFC00000 pc
    (by decide) (by decide) (by decide) rfl (by decide)
  exact hiff.mpr fun _ i hm hi => absurd hm (by omega)

theorem low_19 : (opcode &&& 0x7FFFF).setWidth 64 = (opcode.extractLsb' 0 19).setWidth 64 :=
  @setWidth_and_low 19 opcode (by decide)

theorem target_19 : targetOf (1#64 <<< 18) 0xFFFFFFFFFFFC0000 ((opcode &&& 0x7FFFF).setWidth 64) pc =
    pc + 4 * (opcode.extractLsb' 0 19).signExtend 64 := by
  rw [low_19]
  have hiff := @targetOf_iff 19 18 (opcode.extractLsb' 0 19) (1#64 <<< 18) 0xFFFFFFFFFFFC0000 pc
    (by decide) (by decide) (by decide) rfl (by decide)
  exact hiff.mpr fun _ i hm hi => absurd hm (by omega)

theorem target_30 :
    targetOf 0x20000000 0xFFFFFFFFC0000000 ((opcode &&& 0x3FFFFFFF).setWidth 64) pc =
      pc + 4 * (opcode.extractLsb' 0 30).signExtend 64 := by
  have hlow : (opcode &&& 0x3FFFFFFF).setWidth 64 = (opcode.extractLsb' 0 30).setWidth 64 :=
    @setWidth_and_low 30 opcode (by decide)
  rw [hlow]
  have hiff := @targetOf_iff 30 30 (opcode.extractLsb' 0 30) 0x20000000 0xFFFFFFFFC0000000 pc
    (by decide) (by decide) (by decide) (by decide) (by decide)
  exact hiff.mpr fun _ i hm hi => absurd hm (by omega)

theorem setWidth_split :
    (((opcode >>> 6) &&& 0xC000) ||| (opcode &&& 0x3FFF)).setWidth 64 =
      (opcode.extractLsb' 20 2 ++ opcode.extractLsb' 0 14 : BitVec 16).setWidth 64 := by
  have hhigh : ∀ i < 32, (0xC000 : BitVec 32).getLsbD i = decide (i = 14 ∨ i = 15) := by decide
  have hlow : ∀ i < 32, (0x3FFF : BitVec 32).getLsbD i = decide (i < 14) := by decide
  refine BitVec.eq_of_getLsbD_eq fun i hi => ?_
  rw [BitVec.getLsbD_setWidth, BitVec.getLsbD_setWidth, BitVec.getLsbD_append, BitVec.getLsbD_or,
    BitVec.getLsbD_and, BitVec.getLsbD_and, BitVec.getLsbD_ushiftRight,
    BitVec.getLsbD_extractLsb', BitVec.getLsbD_extractLsb']
  rcases Nat.lt_or_ge i 32 with h32 | h32
  · rw [hhigh i h32, hlow i h32]
    by_cases h14 : i < 14
    · have hne : ¬ (i = 14 ∨ i = 15) := by omega
      simp [h14, hne]
    · by_cases h16 : i = 14 ∨ i = 15
      · have hlt : i - 14 < 2 := by omega
        have heq : 20 + (i - 14) = 6 + i := by omega
        simp [h14, h16, hlt, heq]
      · have hge : ¬ i - 14 < 2 := by omega
        simp [h14, h16, hge]
  · have hge : ¬ i - 14 < 2 := by omega
    have hge' : ¬ i < 14 := by omega
    rw [BitVec.getLsbD_of_ge _ i h32, BitVec.getLsbD_of_ge _ i h32]
    simp [hge, hge']

theorem target_16 :
    targetOf (1#64 <<< 15) 0xFFFFFFFFFFFF0000
        ((((opcode >>> 6) &&& 0xC000) ||| (opcode &&& 0x3FFF)).setWidth 64) pc =
      pc + 4 * (opcode.extractLsb' 20 2 ++ opcode.extractLsb' 0 14 : BitVec 16).signExtend 64 := by
  rw [setWidth_split]
  have hiff := @targetOf_iff 16 16 (opcode.extractLsb' 20 2 ++ opcode.extractLsb' 0 14 : BitVec 16)
    (1#64 <<< 15) 0xFFFFFFFFFFFF0000 pc (by decide) (by decide) (by decide) rfl (by decide)
  exact hiff.mpr fun _ i hm hi => absurd hm (by omega)

/-- **The mask that begins at bit 15.** -/
theorem target_19_iff :
    targetOf (1#64 <<< 18) 0xFFFFFFFFFFFF8000 ((opcode &&& 0x7FFFF).setWidth 64) pc =
        pc + 4 * (opcode.extractLsb' 0 19).signExtend 64 ↔
      (opcode.getLsbD 18 = true →
        opcode.getLsbD 15 = true ∧ opcode.getLsbD 16 = true ∧ opcode.getLsbD 17 = true) := by
  have hbit : ∀ i < 19, (opcode.extractLsb' 0 19).getLsbD i = opcode.getLsbD i := by
    intro i hi
    rw [BitVec.getLsbD_extractLsb', decide_eq_true hi, Bool.true_and, Nat.zero_add]
  rw [low_19, @targetOf_iff 19 15 (opcode.extractLsb' 0 19) (1#64 <<< 18) 0xFFFFFFFFFFFF8000 pc
    (by decide) (by decide) (by decide) rfl (by decide), hbit _ (by decide)]
  refine imp_congr Iff.rfl ?_
  constructor
  · intro h
    refine ⟨?_, ?_, ?_⟩
    · rw [← hbit 15 (by decide)]
      exact h 15 (by decide) (by decide)
    · rw [← hbit 16 (by decide)]
      exact h 16 (by decide) (by decide)
    · rw [← hbit 17 (by decide)]
      exact h 17 (by decide) (by decide)
  · rintro ⟨h15, h16, h17⟩ i hm hi
    rw [hbit i (by omega)]
    obtain rfl | rfl | rfl : i = 15 ∨ i = 16 ∨ i = 17 := by omega
    · exact h15
    · exact h16
    · exact h17

theorem forall_target_iff {d : BitVec 64} :
    (∀ t, (if cond = 0 then none else some target) = some t → t = d) ↔ (cond ≠ 0 → target = d) := by
  by_cases h : cond = 0
  · rw [if_pos h]
    exact iff_of_true nofun fun hne => absurd h hne
  · rw [if_neg h, imp_iff_right h]
    constructor
    · intro hall
      exact hall target rfl
    · rintro htarget t ⟨⟩
      exact htarget

theorem bicc_target (t : BitVec 64) (ht : (bicc f).target = some t) :
    t = f.thePC + 4 * (f.theOpcode.extractLsb' 0 22).signExtend 64 := by
  revert t
  rw [bicc, branchOn_target rfl, forall_target_iff]
  exact fun _ => target_22

theorem bfcc_target (t : BitVec 64) (ht : (bfcc f).target = some t) :
    t = f.thePC + 4 * (f.theOpcode.extractLsb' 0 22).signExtend 64 := by
  revert t
  rw [bfcc, branchOn_target rfl, forall_target_iff]
  exact fun _ => target_22

theorem bpcc_target (t : BitVec 64) (ht : (bpcc f).target = some t) :
    t = f.thePC + 4 * (f.theOpcode.extractLsb' 0 19).signExtend 64 := by
  revert t
  rw [bpcc, branchOn_target rfl, forall_target_iff]
  exact fun _ => target_19

theorem bpr_target (t : BitVec 64) (ht : (bpr f).target = some t) :
    t = f.thePC + 4 * (f.theOpcode.extractLsb' 20 2 ++ f.theOpcode.extractLsb' 0 14 :
      BitVec 16).signExtend 64 := by
  rw [bpr] at ht
  split at ht
  · cases ht
  · cases ht
    exact target_16

theorem call_target (t : BitVec 64) (ht : (call f).target = some t) :
    t = f.thePC + 4 * (f.theOpcode.extractLsb' 0 30).signExtend 64 := by
  cases ht
  exact target_30

theorem fbpcc_target_iff :
    (∀ t, (fbpcc f).target = some t →
        t = f.thePC + 4 * (f.theOpcode.extractLsb' 0 19).signExtend 64) ↔
      ((f.theOpcode >>> 25) &&& 0xF ≠ 0 → f.theOpcode.getLsbD 18 = true →
        f.theOpcode.getLsbD 15 = true ∧ f.theOpcode.getLsbD 16 = true ∧
          f.theOpcode.getLsbD 17 = true) := by
  rw [fbpcc, branchOn_target rfl, forall_target_iff]
  exact imp_congr Iff.rfl target_19_iff

/-- **A branch goes to where its displacement says**, if and only if it is not a backward one on
floating-point condition codes, with prediction, over a large distance. -/
theorem decode_target_iff (f : FetchedOpcode) :
    (∀ t, (decode f).target = some t → t = f.thePC + 4 * displacement f.theOpcode) ↔
      ¬ FarBackward f.theOpcode := by
  rw [decode, displacement, FarBackward]
  by_cases h0 : opOf f.theOpcode = 0
  · have h1 : opOf f.theOpcode ≠ 1 := by
      rw [h0]
      decide
    rw [if_pos h0, if_neg h1, format_2, and_iff_right h0]
    generalize op2Of f.theOpcode = op2
    by_cases h5 : op2 = 5
    · subst h5
      rw [and_iff_right rfl, if_neg (by decide), if_neg (by decide), if_neg (by decide),
        if_neg (by decide), if_neg (by decide), if_pos rfl, if_pos (by decide), fbpcc_target_iff]
      tauto
    · refine iff_of_true (fun t ht => ?_) fun h => h5 h.1
      split at ht
      · cases ht
      · split at ht
        · rename_i h1
          rw [if_pos (.inl h1)]
          exact bpcc_target t ht
        · rename_i h1
          rw [if_neg (by tauto)]
          split at ht
          · rename_i h2
            rw [if_neg (by rw [h2]; decide)]
            exact bicc_target t ht
          · split at ht
            · rename_i h3
              rw [if_pos h3]
              exact bpr_target t ht
            · rename_i h3
              rw [if_neg h3]
              split at ht
              · rw [sethi] at ht
                split at ht
                · split at ht <;> cases ht
                · cases ht
              · split at ht
                · exact bfcc_target t ht
                · cases ht
  · rw [if_neg h0]
    refine iff_of_true (fun t ht => ?_) fun h => h0 h.1
    split at ht
    · rename_i h1
      rw [if_pos h1]
      exact call_target t ht
    · cases ht

end Formats

/-- **A branch that goes wrong**: FBPfcc with the most negative displacement of 19 bits, at address
0, is to go to `-0x100000` and goes to `-0x20000`. -/
theorem fbpcc_fails :
    (decode ⟨0, 0x03440000⟩).target = some 0xFFFFFFFFFFFE0000 ∧
      0 + 4 * displacement 0x03440000 = 0xFFFFFFFFFFF00000 ∧
      ¬ ∀ (f : FetchedOpcode) (t : BitVec 64), (decode f).target = some t →
        t = f.thePC + 4 * displacement f.theOpcode := by
  refine ⟨by decide, by decide, fun h => ?_⟩
  have htarget := h ⟨0, 0x03440000⟩ 0xFFFFFFFFFFFE0000 (by decide)
  exact absurd htarget (by decide)

end Decoder

end Flexus
