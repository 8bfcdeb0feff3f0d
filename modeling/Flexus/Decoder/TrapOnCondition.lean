import Flexus.Decoder.ConditionalMoves
import Flexus.Decoder.Reinstatement

/-!
# Traps on condition

A `Tcc` is decoded as if it were a conditional move (`components/v9Decoder/v9Instruction.cpp`,
`tcc`): its condition is taken from where a move has it, and so is its second operand. The operation
gives that operand if the condition holds and 0 otherwise, and the effect that checks for traps
takes any other value than 0 for the number of a trap (`components/v9Decoder/Effects.cpp`,
`TccEffect`).

In a `Tcc` the condition is further up, and its place in a move is that of the first register, whose
contents is to be added. The instruction has no destination, so that its annulment changes nothing:
neither the operation nor the effect asks for it.
-/

namespace Flexus

namespace Decoder

open UArch (RegisterBits)

/-! ### The instruction -/

/-- **`TCC`**, of the four operands it asserts to be given. -/
def TCC : Operation where
  eval
    | [_, true_val, cc, packed_condition] =>
      if testPacked (packed_condition.setWidth 32) (cc.setWidth 8) then true_val else 0
    | _ => 0
  evalExtra _ := 0

section

variable (opcode : BitVec 32) (x : SourceRegisters)

/-- The operands, from the first to the fourth. -/
def tccOperands : List RegisterBits :=
  let cond := (opcode >>> 14) &&& 0xF
  [ x.addReadRRegister (Format3.rd opcode),
    if Format3.is_simm13 opcode then addSimm11 (Format3.simm11 opcode)
      else x.addReadRRegister (Format3.rs2 opcode),
    x.addReadCC 0,
    (packCondition false (Format3.cc1 opcode) cond).setWidth 64 ]

/-- `decode` and `format_3_reg`, for this instruction: the operands it is to read. -/
def decodedTcc : Option (List RegisterBits) :=
  if opcode >>> 30 = 2 ∧ (opcode >>> 19) &&& 0x3F = 0x3A then some (tccOperands opcode x) else none

end

/-- **`tcc`**: one producing action, of four operands, and `addDestination` with register 0. -/
def tcc : Decoded Unit where
  producer _ := .executeAction 4 .kResult TCC
  dispatched _ := false
  calls := [.addDestination 0 ()]
  nodup := by decide
  sets := by
    intro c hc d hd
    rw [List.mem_singleton.mp hc] at hd
    exact absurd hd List.not_mem_nil
  created := by
    intro p h
    exact absurd h (by decide)

/-- **`TccEffect`**: the number that `takeTrap` is called with, if it is called. -/
def TccEffect (s : InsnState Unit) : Option (BitVec 32) :=
  let val := (s.destination .kResult).theResult
  if val = 0 then none else some ((0x100 + val).setWidth 32)

/-! ### What the instruction says -/

/-- A trap on integer condition codes. Two of the four choices of condition codes are reserved. -/
structure IsTcc (opcode : BitVec 32) : Prop where
  op : opcode.extractLsb' 30 2 = 2
  op3 : opcode.extractLsb' 19 6 = 0x3A
  cc : opcode.getLsbD 11 = false

section

variable (opcode : BitVec 32) (x : SourceRegisters) (annulled : Bool)

/-- The condition, of the codes that are selected. -/
def tccHolds : Bool := (codesOf x.icc (opcode.getLsbD 12)).meets (opcode.extractLsb' 25 4)

/-- What is added to the first register: another register, or seven bits of the instruction. -/
def trapOperand : BitVec 64 :=
  if opcode.getLsbD 13 then (opcode.extractLsb' 0 7).setWidth 64
  else x.value (opcode.extractLsb' 0 5)

/-- The seven bits of the sum that number the trap. -/
def softwareTrap : BitVec 7 := (x.value (opcode.extractLsb' 14 5) + trapOperand opcode x).setWidth 7

/-- **The trap that is due**, as the instruction set has it. -/
def dueTrap : Option (BitVec 32) :=
  if annulled = false ∧ tccHolds opcode x = true then
    some (0x100 + (softwareTrap opcode x).setWidth 32)
  else none

/-- What the source tests: the condition whose number is in the low four bits of that of the first
register. -/
def tccTested : Bool := (codesOf x.icc (opcode.getLsbD 12)).tested (opcode.extractLsb' 14 4)

/-- **Where the source raises the trap that is due.** If one is, its test must succeed, and the
second operand be the number of the trap by itself. If none is, its test must fail or the second
operand be 0. -/
def TrapsRight : Prop :=
  if annulled = false ∧ tccHolds opcode x = true then
    tccTested opcode x = true ∧ secondOperand opcode x 11 ≠ 0 ∧
      (secondOperand opcode x 11).toNat % 2 ^ 32 < 128 ∧
      (x.value (opcode.extractLsb' 14 5)).toNat % 128 = 0
  else tccTested opcode x = false ∨ secondOperand opcode x 11 = 0

/-- **The instruction is at the head**: it has come there by a run, it may retire, and the operands
it has are those of its word. -/
structure AtHead (s : InsnState Unit) : Prop where
  reached : ∃ i, (tcc.machine i).ReachableWhen tcc.Allowed s
  mayRetire : s.mayRetire () = true
  operands : decodedTcc opcode x = some ((List.ofFn (s.theInputs ()).theOperands).take 4)

end

/-! ### Runs -/

section Runs

variable {s t : InsnState Unit}

theorem tcc_spares (s : InsnState Unit) (e : InsnEvent Unit) : tcc.Spares s e := by
  cases e with
  | annul => exact fun _ _ _ => rfl
  | reinstate => exact fun _ h => h
  | _ => trivial

/-- **The result is that of the operation**, of the operands that are there. -/
def Computed (s : InsnState Unit) : Prop :=
  (s.exec ()).theSignalled = true → (s.destination .kResult).theResult =
    TCC.eval ((List.ofFn (s.theInputs ()).theOperands).take 4)

theorem produce_computed : Computed (tcc.produce s ()) := by
  intro _
  have hdest : (tcc.produce s ()).destination = (s.setOperands
      ((tcc.producer ()).results (s.theInputs ()))).destination := by
    rw [Decoded.produce, Decoded.satisfyDependants]
    split <;> rfl
  have hinputs : (tcc.produce s ()).theInputs = s.theInputs := by
    rw [Decoded.produce, Decoded.satisfyDependants]
    split <;> rfl
  rw [hdest, hinputs]
  rfl

theorem squashExec_ready (i : Fin 5) : ((tcc.squashExec s () i).exec ()).ready = false := by
  have hready : ((s.exec ()).setReady i false).ready = false :=
    SemanticAction.ready_setReady_false
  rw [Decoded.squashExec]
  split
  · rw [Decoded.squashDependants]
    split
    · exact hready
    · exact hready
  · exact hready

/-- **One event.** -/
theorem step_computed {e : InsnEvent Unit} (hinv : ∀ p, tcc.Inv s p) (hinv' : ∀ p, tcc.Inv t p)
    (h : Computed s) (he : tcc.Allowed s e) (hstep : tcc.step s e = .ok t) : Computed t := by
  cases e with
  | annul =>
    cases hstep
    rw [Decoded.annul]
    split
    · exact h
    · exact h
  | reinstate =>
    cases hstep
    rw [Decoded.reinstate]
    split
    · exact h
    · exact h
  | satisfy p i x =>
    cases hstep
    -- what has signalled has all its operands, and they stay as they are
    intro hs
    have hexec : (tcc.satisfyExec s () i x).exec () = (s.exec ()).satisfy i := rfl
    rw [hexec, SemanticAction.satisfy_theSignalled] at hs
    have hx : x = s.theInputs () := he.2 ((hinv ()).signalled hs).1
    have hinputs : (tcc.satisfyExec s () i x).theInputs () = x := rfl
    rw [hinputs, hx]
    exact h hs
  | squash p i =>
    cases hstep
    intro hs
    have hready := ((hinv' ()).signalled hs).1
    rw [squashExec_ready] at hready
    cases hready
  | writePrevious d aValue => exact absurd he.1 List.not_mem_nil
  | squashPrevious d => exact absurd he List.not_mem_nil
  | evaluate a hasPredecessorExecuted =>
    cases a with
    | exec p =>
      cases hstep
      rw [Decoded.evaluateExec]
      split
      · split
        · exact produce_computed
        · intro hs
          refine h ?_
          have hsig : (((s.exec ()).take.reschedule).theSignalled) = true := hs
          rwa [SemanticAction.reschedule_theSignalled] at hsig
      · exact h
    | writeback d => exact absurd he.1 List.not_mem_nil
    | annul d => exact absurd he.1 List.not_mem_nil

/-- **At the head, the result is that of the operation**, annulled or not. -/
theorem AtHead.theResult {opcode : BitVec 32} {x : SourceRegisters} (h : AtHead opcode x s) :
    decodedTcc opcode x = some ((List.ofFn (s.theInputs ()).theOperands).take 4) ∧
      (s.destination .kResult).theResult =
        TCC.eval ((List.ofFn (s.theInputs ()).theOperands).take 4) := by
  refine ⟨h.operands, ?_⟩
  obtain ⟨i, hreached⟩ := h.reached
  have hall : ((∀ p, tcc.Inv s p) ∧ tcc.Retirable s) ∧ Computed s := by
    refine Lib.Machine.ReachableWhen.invariant
      (I := fun s => ((∀ p, tcc.Inv s p) ∧ tcc.Retirable s) ∧ Computed s)
      ⟨⟨Decoded.initial_inv i, fun hann => absurd hann Bool.false_ne_true⟩,
        fun hs => absurd hs Bool.false_ne_true⟩
      (fun s e t hI he hstep => ?_) hreached
    obtain ⟨u, hu, hinv⟩ := Decoded.step_inv hI.1.1 hI.1.2 he (tcc_spares s e)
    have heq : (Except.ok u : Except InsnFault (InsnState Unit)) = .ok t := hu.symm.trans hstep
    cases heq
    exact ⟨hinv, step_computed hI.1.1 hinv.1 hI.2 he hstep⟩
  refine hall.2 ?_
  rw [← (hall.1.1 ()).retire rfl]
  exact h.mayRetire

end Runs

/-! ### The trap -/

section Trap

variable {opcode : BitVec 32} {x : SourceRegisters} {s : InsnState Unit}

theorem tcc_eval : TCC.eval (tccOperands opcode x) =
    if tccTested opcode x then secondOperand opcode x 11 else 0 := by
  have hicc : (x.addReadCC 0).setWidth 8 = x.icc := by
    rw [SourceRegisters.addReadCC, if_pos rfl]
    exact BitVec.setWidth_setWidth_of_le _ (by decide)
  simp only [tccOperands, TCC, second_eq (addSimm11_eq opcode), setWidth_packed, cc1_eq, cond_eq,
    hicc, testPacked_integer]
  rfl

theorem decodedTcc_eq (h : IsTcc opcode) : decodedTcc opcode x = some (tccOperands opcode x) := by
  rw [decodedTcc, op_eq h.op, op3_eq, h.op3]
  rfl

/-- **The trap that is raised at the head.** -/
theorem AtHead.tccEffect (h : AtHead opcode x s) (hword : IsTcc opcode) :
    TccEffect s = if tccTested opcode x = true ∧ secondOperand opcode x 11 ≠ 0 then
      some ((0x100 + secondOperand opcode x 11).setWidth 32) else none := by
  have hval : (s.destination .kResult).theResult =
      if tccTested opcode x then secondOperand opcode x 11 else 0 := by
    rw [h.theResult.2, ← tcc_eval]
    exact congrArg TCC.eval (Option.some_inj.mp ((decodedTcc_eq hword).symm.trans h.operands)).symm
  rw [TccEffect, hval]
  by_cases htested : tccTested opcode x = true
  · by_cases hzero : secondOperand opcode x 11 = 0
    · simp [hzero]
    · simp [htested]
  · simp [htested]

theorem setWidth_secondOperand :
    (secondOperand opcode x 11).setWidth 7 = (trapOperand opcode x).setWidth 7 := by
  rw [secondOperand, trapOperand]
  by_cases hsimm : opcode.getLsbD 13 = true
  · rw [if_pos hsimm, if_pos hsimm]
    refine BitVec.eq_of_getLsbD_eq fun i hi => ?_
    have h11 : i < 11 := by omega
    have h64 : i < 64 := by omega
    rw [BitVec.getLsbD_setWidth, BitVec.getLsbD_setWidth, BitVec.getLsbD_signExtend,
      BitVec.getLsbD_setWidth, if_pos h11, BitVec.getLsbD_extractLsb', BitVec.getLsbD_extractLsb',
      decide_eq_true h11, decide_eq_true hi]
  · rw [if_neg hsimm, if_neg hsimm]

/-- **The number is right** where the second operand has seven bits and nothing is added to them. -/
theorem trapNumber_eq_iff (v r u : BitVec 64) (h : v.setWidth 7 = u.setWidth 7) :
    (0x100 + v).setWidth 32 = 0x100 + (((r + u).setWidth 7 : BitVec 7).setWidth 32) ↔
      v.toNat % 2 ^ 32 < 128 ∧ r.toNat % 128 = 0 := by
  have hmod : v.toNat % 128 = u.toNat % 128 := by
    have hnat := congrArg BitVec.toNat h
    rwa [BitVec.toNat_setWidth, BitVec.toNat_setWidth] at hnat
  have hsum : ((r + u).setWidth 7).toNat = (r.toNat + u.toNat) % 128 := by
    rw [BitVec.toNat_setWidth, BitVec.toNat_add]
    exact Nat.mod_mod_of_dvd _ (by decide)
  have hlt : (r.toNat + u.toNat) % 128 < 2 ^ 32 := by omega
  rw [BitVec.setWidth_add _ _ (by decide)]
  refine (BitVec.add_right_inj _).trans ?_
  rw [← BitVec.toNat_inj, BitVec.toNat_setWidth, BitVec.toNat_setWidth, hsum, Nat.mod_eq_of_lt hlt]
  generalize v.toNat = a at hmod ⊢
  generalize u.toNat = b at hmod ⊢
  generalize r.toNat = c
  omega

/-- **The trap of the instruction set is raised** under the condition that says so, in every run and
whether or not the instruction is annulled. -/
theorem traps_iff (hword : IsTcc opcode) (h : AtHead opcode x s) :
    TccEffect s = dueTrap opcode x s.theAnnulled ↔ TrapsRight opcode x s.theAnnulled := by
  rw [h.tccEffect hword, dueTrap, TrapsRight]
  by_cases hdue : s.theAnnulled = false ∧ tccHolds opcode x = true
  · rw [if_pos hdue, if_pos hdue]
    by_cases hraised : tccTested opcode x = true ∧ secondOperand opcode x 11 ≠ 0
    · rw [if_pos hraised, Option.some_inj, softwareTrap,
        trapNumber_eq_iff _ _ _ setWidth_secondOperand, ← and_assoc]
      exact ⟨fun hright => ⟨hraised, hright⟩, And.right⟩
    · rw [if_neg hraised]
      exact iff_of_false (fun hnone => nomatch hnone) fun hright => hraised ⟨hright.1, hright.2.1⟩
  · rw [if_neg hdue, if_neg hdue]
    by_cases hraised : tccTested opcode x = true ∧ secondOperand opcode x 11 ≠ 0
    · rw [if_pos hraised]
      refine iff_of_false (fun hsome => nomatch hsome) ?_
      rintro (hoff | hzero)
      · rw [hraised.1] at hoff
        cases hoff
      · exact hraised.2 hzero
    · rw [if_neg hraised]
      refine iff_of_true rfl ?_
      by_contra hno
      rw [not_or, Bool.not_eq_false] at hno
      exact hraised hno

end Trap

/-- All registers and condition codes are clear. -/
def clearRegisters : SourceRegisters := ⟨fun _ => 0, 0, fun _ => 0⟩

/-- `ta %icc, %g0 + 0x10`, which the source gets right: the number of its first register is 0, and
the test with that number always succeeds. -/
def ta : BitVec 32 := 0x91d02010

theorem ta_isTcc : IsTcc ta := ⟨by decide, by decide, by decide⟩

/-- The operands of an instruction word arrive, and it is executed. -/
def tccEvents (opcode : BitVec 32) : List (InsnEvent Unit) :=
  let y : Inputs := ⟨fun k => (tccOperands opcode clearRegisters).getD k 0, 0, 0⟩
  [.satisfy () 0 y, .satisfy () 1 y, .satisfy () 2 y, .satisfy () 3 y, .evaluate (.exec ()) true]

theorem exists_atHead {opcode : BitVec 32} (hpass : (tcc.machine Decoded.sevens).passes tcc.allows
      (tcc.initial Decoded.sevens) (tccEvents opcode) = true)
    (hend : (tcc.machine Decoded.sevens).endsIn (fun s => s.mayRetire () && !s.theAnnulled &&
      decide (decodedTcc opcode clearRegisters =
        some ((List.ofFn (s.theInputs ()).theOperands).take 4))) (tccEvents opcode) = true) :
    ∃ s, AtHead opcode clearRegisters s ∧ s.theAnnulled = false := by
  obtain ⟨s, hs, htest⟩ := Lib.Machine.exists_of_endsIn hend
  rw [Bool.and_eq_true, Bool.and_eq_true, decide_eq_true_eq, Bool.not_eq_true'] at htest
  obtain ⟨⟨hretire, hann⟩, hoperands⟩ := htest
  exact ⟨s, ⟨⟨Decoded.sevens, Lib.Machine.reachableWhen_of_run (g := tcc.allows)
    (fun _ _ => Decoded.allowed_of_allows) hpass hs⟩, hretire, hoperands⟩, hann⟩

theorem ta_traps : ∃ s, AtHead ta clearRegisters s ∧
    (TccEffect s = dueTrap ta clearRegisters s.theAnnulled ↔
      TrapsRight ta clearRegisters s.theAnnulled) := by
  obtain ⟨s, hs, -⟩ := @exists_atHead ta (by decide) (by decide)
  exact ⟨s, hs, traps_iff ta_isTcc hs⟩

/-- `te %icc, %g0 + 0x10`. -/
def te : BitVec 32 := 0x83d02010

/-- **A trap on equality is raised with nothing equal.** -/
theorem te_not_right : ∃ s, AtHead te clearRegisters s ∧
    TccEffect s ≠ dueTrap te clearRegisters s.theAnnulled := by
  have hword : IsTcc te := ⟨by decide, by decide, by decide⟩
  obtain ⟨s, hs, hann⟩ := @exists_atHead te (by decide) (by decide)
  refine ⟨s, hs, ?_⟩
  rw [hs.tccEffect hword, hann]
  decide

end Decoder

end Flexus
